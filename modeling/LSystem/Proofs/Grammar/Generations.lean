import LSystem.Proofs.Grammar.Productions
import LSystem.Proofs.Grammar.Rewriting
import Mathlib.Logic.Function.Iterate

/-! The generations of an expansion.

Expanding, keeping a history and rewriting by hand are three ways to one thing: all of them pass a
word and a source through `Grammar.rewrite`, so the word and the source after `n` generations are the
`n`-fold `Grammar.pass` of the start word and the first source (`stage_eq_pass`, `historyFrom_eq`).
The count of generations only says where to stop, so a history holds what shorter expansions of the
same definition come to (`history_agrees`). -/
namespace LSystem

namespace Grammar
variable (grammar : Grammar)

/-! ### Passing through generations -/

/-- One generation of a word, and the source it leaves. -/
def pass (state : Word × Source) : Word × Source := grammar.rewrite state.1 state.2

theorem stage_eq_pass (source : Source) (n : Nat) :
    ((grammar.stage source n).word, (grammar.stage source n).source) =
      grammar.pass^[n] (grammar.start, source) := by
  induction n with
  | zero => rfl
  | succ n ih =>
    rw [Function.iterate_succ_apply', ← ih]
    rfl

theorem word_stage (source : Source) (n : Nat) :
    (grammar.stage source n).word = (grammar.pass^[n] (grammar.start, source)).1 := by
  rw [← stage_eq_pass]

theorem historyFrom_eq (earlier : List Word) (word : Word) (source : Source) (n : Nat) :
    grammar.historyFrom earlier word source n =
      (earlier.reverse ++ (List.range (n + 1)).map fun k => (grammar.pass^[k] (word, source)).1,
        (grammar.pass^[n] (word, source)).2) := by
  induction n generalizing earlier word source with
  | zero => simp [historyFrom]
  | succ n ih =>
    have hrest : ∀ k, grammar.pass^[k] (grammar.rewrite word source) =
        grammar.pass^[k + 1] (word, source) := fun k => rfl
    rw [historyFrom, ih, List.range_succ_eq_map (n := n + 1), List.map_cons, List.map_map]
    simp only [List.reverse_cons, List.append_assoc, List.singleton_append, hrest]
    rfl

/-- **A history holds the word of every stage**, and leaves the source of the last. -/
theorem history_eq (source : Source) : grammar.history source =
    ((List.range (grammar.generations + 1)).map fun k => (grammar.stage source k).word,
      (grammar.expand source).source) := by
  have hlast := congrArg Prod.snd (grammar.stage_eq_pass source grammar.generations)
  simp only [history, historyFrom_eq, word_stage, List.reverse_nil, List.nil_append]
  rw [← hlast]
  rfl

theorem length_history (source : Source) :
    (grammar.history source).1.length = grammar.generations + 1 := by
  rw [history_eq, List.length_map, List.length_range]

variable {grammar}

theorem getElem?_history (source : Source) {k : Nat} (hk : k ≤ grammar.generations) :
    (grammar.history source).1[k]? = some (grammar.stage source k).word := by
  rw [history_eq, List.getElem?_map, List.getElem?_range (Nat.lt_succ_of_le hk)]
  rfl

/-- What follows the start word. -/
theorem tail_history (source : Source) : (grammar.history source).1.tail =
    (List.range grammar.generations).map fun n => (grammar.stage source (n + 1)).word := by
  rw [history_eq, List.range_succ_eq_map, List.map_cons, List.tail_cons, List.map_map]
  rfl

theorem getLast?_history (source : Source) :
    (grammar.history source).1.getLast? = some (grammar.expand source).word := by
  rw [List.getLast?_eq_getElem?, length_history, Nat.add_sub_cancel,
    getElem?_history source (Nat.le_refl _)]
  rfl

/-! ### Other counts of generations -/

/-- Rewriting asks for nothing but the productions of the symbols it meets. -/
theorem rewrite_congr {other : Grammar} {word : Word}
    (h : ∀ symbol ∈ word, grammar.production? symbol = other.production? symbol) (source : Source) :
    grammar.rewrite word source = other.rewrite word source := by
  induction word generalizing source with
  | nil => rfl
  | cons symbol rest ih =>
    rw [List.forall_mem_cons] at h
    have hsuccessor : grammar.successor symbol source = other.successor symbol source := by
      rw [successor, successor, h.1]
    rw [rewrite_cons, rewrite_cons, hsuccessor]
    simp only [ih h.2]

variable (grammar) in
/-- The grammar with another count of generations. -/
def withGenerations (count : Nat) : Grammar := { grammar with generations := count }

theorem pass_withGenerations (count : Nat) :
    (grammar.withGenerations count).pass = grammar.pass := by
  funext state
  have hsame : ∀ symbol ∈ state.1,
      (grammar.withGenerations count).production? symbol = grammar.production? symbol :=
    fun _ _ => rfl
  exact rewrite_congr hsame state.2

/-- The grammar with another count expands to the stage of that count. -/
theorem expand_withGenerations (count : Nat) (source : Source) :
    (((grammar.withGenerations count).expand source).word,
        ((grammar.withGenerations count).expand source).source) =
      grammar.pass^[count] (grammar.start, source) := by
  rw [← pass_withGenerations count]
  exact stage_eq_pass _ source count

end Grammar

namespace Definition
variable {definition : Definition} {grammar : Grammar}

/-- Saying another count of generations last changes nothing else. -/
theorem build_generations (h : definition.build = .ok grammar) (count : Nat) :
    (definition.add (.generations count)).build = .ok (grammar.withGenerations count) := by
  have hmakes := build_eq_ok_iff.mp h
  exact build_eq_ok_iff.mpr
    ⟨hmakes.start, hmakes.angle, rfl, hmakes.colors, hmakes.productions⟩

end Definition

namespace Grammar
variable {grammar : Grammar}

/-- **The ways to expand agree.** A history has the start word first, and each of its words is the
rewritten one before, with the source as it was left there. It ends where expansion ends, with the
word and with the source, and on the way it holds the words to which the same definition expands for
fewer generations. More generations are more rewriting of the word and the source that fewer come
to, and a seed stands for its source. -/
theorem history_agrees {definition : Definition} (h : definition.build = .ok grammar)
    (source : Source) :
    (grammar.history source).1.length = grammar.generations + 1 ∧
    (grammar.history source).1[0]? = some grammar.start ∧
    (∀ k < grammar.generations, ∃ word, (grammar.history source).1[k]? = some word ∧
      (grammar.history source).1[k + 1]? =
        some (grammar.rewrite word (grammar.pass^[k] (grammar.start, source)).2).1) ∧
    (grammar.history source).1.getLast? = some (grammar.expand source).word ∧
    (grammar.history source).2 = (grammar.expand source).source ∧
    (∀ k ≤ grammar.generations, ∃ other, (definition.add (.generations k)).build = .ok other ∧
      (grammar.history source).1[k]? = some (other.expand source).word) ∧
    (∀ m n, ∃ earlier later, (definition.add (.generations m)).build = .ok earlier ∧
      (definition.add (.generations (m + n))).build = .ok later ∧
      grammar.pass^[n] ((earlier.expand source).word, (earlier.expand source).source) =
        ((later.expand source).word, (later.expand source).source)) ∧
    ∀ seed, (grammar.history (.ofSeed seed)).1.getLast? = some (grammar.expandSeeded seed).word := by
  refine ⟨grammar.length_history source, getElem?_history source (Nat.zero_le _), fun k hk => ?_,
    getLast?_history source, ?_, fun k hk => ?_, fun m n => ?_, fun seed => getLast?_history _⟩
  · refine ⟨_, getElem?_history source (Nat.le_of_lt hk), ?_⟩
    rw [getElem?_history source hk, word_stage, word_stage, Function.iterate_succ_apply', pass]
  · rw [history_eq]
  · refine ⟨_, Definition.build_generations h k, ?_⟩
    rw [getElem?_history source hk, word_stage, ← expand_withGenerations]
  · refine ⟨_, _, Definition.build_generations h m, Definition.build_generations h (m + n), ?_⟩
    rw [expand_withGenerations, expand_withGenerations, Nat.add_comm, Function.iterate_add_apply]

end Grammar

/-- A shoot behind a marker: it forks or grows by chance, and every stroke doubles for sure. -/
def shoot : Definition :=
  .ofClauses "SX".toList
    [ .rule 'X' [(1, "F[X]X".toList), (1, "FX".toList)],
      .rule 'F' [(0, []), (2, "FF".toList)],
      .generations 2 ]

/-- After one generation a shoot is what it would be if it had no more. -/
theorem history_shoot : ∃ grammar other, shoot.build = .ok grammar ∧
    (shoot.add (.generations 1)).build = .ok other ∧
    (grammar.history (.cycle [0])).1.map String.ofList = ["SX", "SF[X]X", "SFF[F[X]X]F[X]X"] ∧
    (grammar.history (.cycle [0])).1[1]? = some (other.expand (.cycle [0])).word := by
  obtain ⟨grammar, hbuild, hwords⟩ := shoot.exists_of_makesSome
    (fun grammar => decide (grammar.generations = 2 ∧
      (grammar.history (.cycle [0])).1.map String.ofList = ["SX", "SF[X]X", "SFF[F[X]X]F[X]X"]))
    (by decide +kernel)
  rw [decide_eq_true_eq] at hwords
  obtain ⟨-, -, -, -, -, hshorter, -⟩ := Grammar.history_agrees hbuild (.cycle [0])
  obtain ⟨other, hother, hword⟩ := hshorter 1 (by rw [hwords.1]; decide)
  exact ⟨grammar, other, hbuild, hother, hwords.2, hword⟩

end LSystem
