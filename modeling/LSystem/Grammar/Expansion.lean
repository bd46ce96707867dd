import LSystem.Grammar.Basic
import LSystem.Log
import LSystem.Random.KeyStream

/-! Expansion of a grammar.

One generation rewrites a word from left to right: every symbol with a production is replaced by a
chosen successor and every other one is kept, and the source of random words is handed from symbol
to symbol. So rewriting a word in two parts is rewriting the first and then the second from where the
first left the source (`rewrite_append`). Expansion repeats this for the generations of the grammar
and reports each; the history keeps every word on the way and reports nothing. -/
namespace LSystem

namespace Grammar
variable (grammar : Grammar)

/-! ### One generation -/

/-- What a symbol becomes. -/
def successor (symbol : Symbol) (source : Source) : Word × Source :=
  match grammar.production? symbol with
  | some choice => choice.choose source
  | none => ([symbol], source)

/-- Rewrites a word behind what is already written, which is kept backwards. -/
def rewriteOnto (written : Word) (source : Source) : Word → Word × Source
  | [] => (written.reverse, source)
  | symbol :: rest =>
    let next := grammar.successor symbol source
    rewriteOnto (next.1.reverseAux written) next.2 rest

/-- Rewrites every symbol of a word. -/
def rewrite (word : Word) (source : Source) : Word × Source := grammar.rewriteOnto [] source word

theorem rewriteOnto_eq (written : Word) (source : Source) (word : Word) :
    grammar.rewriteOnto written source word =
      (written.reverse ++ (grammar.rewrite word source).1, (grammar.rewrite word source).2) := by
  suffices ∀ (w : Word) (s : Source) (front back : Word),
      grammar.rewriteOnto (back ++ front) s w =
        (front.reverse ++ (grammar.rewriteOnto back s w).1, (grammar.rewriteOnto back s w).2) by
    simpa [rewrite] using this word source written []
  intro w
  induction w with
  | nil => simp [rewriteOnto]
  | cons symbol rest ih =>
    intro s front back
    simp only [rewriteOnto]
    rw [List.reverseAux_eq, List.reverseAux_eq, ← List.append_assoc, ih]

theorem rewrite_nil (source : Source) : grammar.rewrite [] source = ([], source) := rfl

theorem rewrite_cons (symbol : Symbol) (rest : Word) (source : Source) :
    grammar.rewrite (symbol :: rest) source =
      let next := grammar.successor symbol source
      (next.1 ++ (grammar.rewrite rest next.2).1, (grammar.rewrite rest next.2).2) := by
  conv => lhs; rw [rewrite, rewriteOnto, rewriteOnto_eq]
  simp [List.reverseAux_eq]

/-- **Rewriting goes from left to right**: the second part of a word is rewritten from where the
first part left the source. -/
theorem rewrite_append (u v : Word) (source : Source) :
    grammar.rewrite (u ++ v) source =
      let first := grammar.rewrite u source
      (first.1 ++ (grammar.rewrite v first.2).1, (grammar.rewrite v first.2).2) := by
  induction u generalizing source with
  | nil => rfl
  | cons symbol rest ih => simp [rewrite_cons, ih]

/-! ### All generations -/

/-- A word on the way of an expansion. -/
structure Stage where
  /-- How often it was rewritten. -/
  generation : Nat
  word : Word
  source : Source
  log : Array LogRecord

/-- The start of an expansion. -/
def begin (source : Source) : Stage := ⟨0, grammar.start, source, #[]⟩

/-- One more generation, reported with the length it takes. -/
def advance (stage : Stage) : Stage :=
  let next := grammar.rewrite stage.word stage.source
  { generation := stage.generation + 1
    word := next.1
    source := next.2
    log := stage.log.push (.generation (stage.generation + 1) next.1.byteLength) }

/-- Rewrites the start word once for every generation. -/
def expand (source : Source) : Stage :=
  Nat.repeat grammar.advance grammar.generations (grammar.begin source)

/-- The expansion by the key stream of a seed. -/
def expandSeeded (seed : UInt64) : Stage := grammar.expand (.ofSeed seed)

/-- The words of so many more generations, behind the earlier ones, which are kept backwards. -/
def historyFrom (earlier : List Word) (word : Word) (source : Source) : Nat → List Word × Source
  | 0 => ((word :: earlier).reverse, source)
  | generations + 1 =>
    let next := grammar.rewrite word source
    historyFrom (word :: earlier) next.1 next.2 generations

/-- The start word and the word of every generation. -/
def history (source : Source) : List Word × Source :=
  grammar.historyFrom [] grammar.start source grammar.generations

end Grammar

end LSystem
