import LSystem.Proofs.Walk.Outcome
import LSystem.Proofs.Walk.Strokes

/-! Walks as recursion on bracket forests.

A well nested word is a forest: symbols in a row, with branches between an opening and a closing
symbol (`Forest.ofWord`). A forest is drawn by recursion alone (`Forest.draw`): a turtle is handed to
a branch by value with the stroke length of one depth more, whatever becomes of it in the branch is
dropped, and the turtle that stood before the branch goes on. `walk_eq_draw` says that a walk along a
well nested word does the same with its stack. -/
namespace LSystem.Walk

open Turtle (Op)

/-- Symbols and branches in a row. -/
inductive Forest where
  | nil
  | leaf (symbol : Symbol) (rest : Forest)
  | branch (opening : Symbol) (body : Forest) (closing : Symbol) (rest : Forest)
deriving DecidableEq

namespace Forest

/-- The word that a forest spells. -/
def word : Forest → Word
  | nil => []
  | leaf symbol rest => symbol :: rest.word
  | branch opening body closing rest => opening :: (body.word ++ closing :: rest.word)

/-- Branches are where the operations of the symbols open and close them, and nowhere else. -/
def Fits (op : Symbol → Op) : Forest → Prop
  | nil => True
  | leaf symbol rest => op symbol ≠ .push ∧ op symbol ≠ .pop ∧ rest.Fits op
  | branch opening body closing rest =>
    op opening = .push ∧ body.Fits op ∧ op closing = .pop ∧ rest.Fits op

/-! ### The forest of a word -/

/-- Puts a symbol in front of a forest and of what follows it: a symbol that opens a branch takes the
forest for its body and the next closing symbol for its own, one that closes a branch ends the
forest before it, and any other stands in the row. -/
def graft (first : Symbol) (next : Forest) (later : List (Symbol × Forest)) :
    Op → Forest × List (Symbol × Forest)
  | .push =>
    match later with
    | (closing, after) :: others => (branch first next closing after, others)
    | [] => (leaf first next, [])
  | .pop => (nil, (first, next) :: later)
  | _ => (leaf first next, later)

/-- The forest up to the first symbol that closes no branch of its own, and what follows: each such
symbol with the forest behind it. -/
def parse (op : Symbol → Op) : Word → Forest × List (Symbol × Forest)
  | [] => (nil, [])
  | first :: rest => graft first (parse op rest).1 (parse op rest).2 (op first)

/-- The bracket forest of a word. -/
def ofWord (op : Symbol → Op) (word : Word) : Forest := (parse op word).1

/-- The word of forests that follow the symbols that close around them. -/
def laterWord (later : List (Symbol × Forest)) : Word :=
  later.flatMap fun entry => entry.1 :: entry.2.word

/-- What parsing a word that closes `count` branches more than it opens comes to. -/
structure Parsed (op : Symbol → Op) (word : Word) (count : Nat)
    (parsed : Forest × List (Symbol × Forest)) : Prop where
  spells : parsed.1.word ++ laterWord parsed.2 = word
  length : parsed.2.length = count
  fits : parsed.1.Fits op
  closes : ∀ entry ∈ parsed.2, op entry.1 = .pop ∧ entry.2.Fits op

theorem graft_of_ne {op : Op} (hpush : op ≠ .push) (hpop : op ≠ .pop) (first : Symbol)
    (next : Forest) (later : List (Symbol × Forest)) :
    graft first next later op = (leaf first next, later) := by
  cases op with
  | push => exact absurd rfl hpush
  | pop => exact absurd rfl hpop
  | _ => rfl

/-- One more symbol in front. -/
theorem Parsed.graft {op : Symbol → Op} {rest : Word} {before count : Nat} {next : Forest}
    {later : List (Symbol × Forest)} (h : Parsed op rest before (next, later)) {first : Symbol}
    (hcount : (before : Int) = count + (op first).level) :
    Parsed op (first :: rest) count (graft first next later (op first)) := by
  have hlength : later.length = before := h.length
  obtain ⟨rfl, -, hfits, hcloses⟩ := h
  by_cases hpush : op first = .push
  · rw [hpush, Op.level] at hcount
    rw [hpush]
    cases later with
    | nil =>
      rw [List.length_nil] at hlength
      omega
    | cons entry others =>
      rw [List.length_cons] at hlength
      obtain ⟨hclosing, hafter⟩ := hcloses entry (List.mem_cons_self ..)
      refine ⟨?_, ?_, ⟨hpush, hfits, hclosing, hafter⟩,
        fun other hother => hcloses other (List.mem_cons_of_mem _ hother)⟩
      · simp [Forest.graft, word, laterWord]
      · show others.length = count
        omega
  by_cases hpop : op first = .pop
  · rw [hpop, Op.level] at hcount
    rw [hpop]
    refine ⟨rfl, ?_, trivial, fun entry hentry => ?_⟩
    · show later.length + 1 = count
      omega
    · rcases List.mem_cons.mp hentry with rfl | hentry
      · exact ⟨hpop, hfits⟩
      · exact hcloses entry hentry
  · have hlevel : (op first).level = 0 := by
      cases hop : op first with
      | push => exact absurd hop hpush
      | pop => exact absurd hop hpop
      | _ => rfl
    rw [hlevel] at hcount
    rw [graft_of_ne hpush hpop]
    refine ⟨rfl, ?_, ⟨hpush, hpop, hfits⟩, hcloses⟩
    show later.length = count
    omega

/-- A word that closes so many branches more than it opens falls into so many forests more. -/
theorem parsed {op : Symbol → Op} {word : Word} {count : Nat}
    (hnonneg : ∀ i, 0 ≤ count + Word.depth (fun symbol => (op symbol).level) (word.take i))
    (hclosed : count + Word.depth (fun symbol => (op symbol).level) word = 0) :
    Parsed op word count (parse op word) := by
  induction word generalizing count with
  | nil =>
    rw [Word.depth_nil] at hclosed
    refine ⟨rfl, ?_, trivial, fun entry hentry => nomatch hentry⟩
    show 0 = count
    omega
  | cons first rest ih =>
    have hshift (i : Nat) : 0 ≤ count + (op first).level +
        Word.depth (fun symbol => (op symbol).level) (rest.take i) := by
      have := hnonneg (i + 1)
      rw [List.take_succ_cons, Word.depth_cons] at this
      omega
    have hbefore : (((count : Int) + (op first).level).toNat : Int) = count + (op first).level := by
      have := hshift 0
      rw [List.take_zero, Word.depth_nil] at this
      omega
    have hrest : Parsed op rest ((count : Int) + (op first).level).toNat (parse op rest) := by
      apply ih
      · intro i
        rw [hbefore]
        exact hshift i
      · rw [Word.depth_cons] at hclosed
        omega
    exact hrest.graft hbefore

theorem parse_word {op : Symbol → Op} {forest : Forest} (hfits : forest.Fits op) {rest : Word}
    {later : List (Symbol × Forest)} (hrest : parse op rest = (nil, later)) :
    parse op (forest.word ++ rest) = (forest, later) := by
  induction forest generalizing rest later with
  | nil => exact hrest
  | leaf symbol next ih =>
    obtain ⟨hpush, hpop, hnext⟩ := hfits
    rw [word, List.cons_append, parse, ih hnext hrest, graft_of_ne hpush hpop]
  | branch opening body closing next ihbody ihnext =>
    obtain ⟨hopening, hbody, hclosing, hnext⟩ := hfits
    have hclose : parse op (closing :: (next.word ++ rest)) = (nil, (closing, next) :: later) := by
      rw [parse, ihnext hnext hrest, hclosing]
      rfl
    rw [word, List.cons_append, List.append_assoc, List.cons_append, parse, ihbody hbody hclose,
      hopening]
    rfl

/-- **A well nested word has one forest.** -/
theorem eq_ofWord_iff {op : Symbol → Op} {word : Word}
    (h : Word.Balanced (fun symbol => (op symbol).level) word) {forest : Forest} :
    forest = ofWord op word ↔ forest.Fits op ∧ forest.word = word := by
  have hparsed : Parsed op word 0 (parse op word) := by
    apply parsed
    · intro i
      have := h.nonneg i
      omega
    · have := h.closed
      omega
  constructor
  · intro hforest
    subst hforest
    refine ⟨hparsed.fits, ?_⟩
    have hspells := hparsed.spells
    rw [List.eq_nil_of_length_eq_zero hparsed.length] at hspells
    exact (List.append_nil _).symm.trans hspells
  · intro hforest
    obtain ⟨hfits, rfl⟩ := hforest
    have hword : parse op (forest.word ++ []) = (forest, []) := parse_word hfits rfl
    rw [List.append_nil] at hword
    rw [ofWord, hword]

/-! ### Drawing a forest -/

/-- What drawing comes to: the turtle at the end, the strokes, and the depth of the deepest branch. -/
structure Drawing where
  turtle : Turtle
  strokes : List Stroke
  deepest : Nat

/-- The turtle after a symbol that is no bracket. -/
def act (grammar : Grammar) (symbol : Symbol) (turtle : Turtle) : Op → Turtle
  | .draw => turtle.forward
  | .move => turtle.forward
  | .turn factor => turtle.turn (grammar.angle * factor)
  | .setColor => { turtle with color := (grammar.color? symbol).or turtle.color }
  | _ => turtle

/-- Draws a forest at a depth. A branch is drawn with a turtle of its own, which is then dropped. -/
def draw (interpretation : Interpretation) (grammar : Grammar) (depth : Nat) (turtle : Turtle) :
    Forest → Drawing
  | nil => ⟨turtle, [], 0⟩
  | leaf symbol rest =>
    let op := interpretation.opFor grammar symbol
    let later := rest.draw interpretation grammar depth (act grammar symbol turtle op)
    ⟨later.turtle, strokes interpretation.config turtle op ++ later.strokes, later.deepest⟩
  | branch _ body _ rest =>
    let length := interpretation.config.lengthAtDepth (depth + 1)
    let inner := body.draw interpretation grammar (depth + 1) { turtle with length }
    let later := rest.draw interpretation grammar depth turtle
    ⟨later.turtle, inner.strokes ++ later.strokes, max (max (depth + 1) inner.deepest) later.deepest⟩

/-- A symbol that is no bracket moves the turtle and leaves the branches alone. -/
theorem obey_of_leaf {op : Op} (hpush : op ≠ .push) (hpop : op ≠ .pop) (config : Config)
    (grammar : Grammar) (symbol : Symbol) (index : Nat) (state : State) :
    let next := obey config grammar symbol index state op
    next.turtle = act grammar symbol state.turtle op ∧ next.saved = state.saved ∧
      next.maxDepth = state.maxDepth := by
  cases op with
  | push => exact absurd rfl hpush
  | pop => exact absurd rfl hpop
  | draw => simp [obey, State.draw, act]
  | setColor =>
    simp only [obey, act]
    cases grammar.color? symbol <;> exact ⟨rfl, rfl, rfl⟩
  | _ => exact ⟨rfl, rfl, rfl⟩

variable {interpretation : Interpretation} {grammar : Grammar}

/-- A walk along the word of a forest draws the forest from where it stands, and comes back to the
branches it found open. -/
structure Drawn (interpretation : Interpretation) (grammar : Grammar) (index : Nat) (state : State)
    (forest : Forest) (last : State) : Prop where
  turtle : last.turtle = (forest.draw interpretation grammar state.saved.size state.turtle).turtle
  saved : last.saved = state.saved
  deepest : last.maxDepth =
    max state.maxDepth (forest.draw interpretation grammar state.saved.size state.turtle).deepest
  strokes : interpretation.strokesFrom grammar index state forest.word =
    (forest.draw interpretation grammar state.saved.size state.turtle).strokes

theorem drawn_leaf {symbol : Symbol} {rest : Forest} {index : Nat} {state last : State}
    (hpush : interpretation.opFor grammar symbol ≠ .push)
    (hpop : interpretation.opFor grammar symbol ≠ .pop)
    (h : Drawn interpretation grammar (index + 1) (interpretation.step grammar index state symbol)
      rest last) :
    Drawn interpretation grammar index state (leaf symbol rest) last := by
  obtain ⟨hturtle, hsaved, hdeepest⟩ :=
    obey_of_leaf hpush hpop interpretation.config grammar symbol index state
  obtain ⟨hlast, hback, hmax, hstrokes⟩ := h
  unfold Interpretation.step at hlast hback hmax hstrokes
  rw [hturtle, hsaved] at hlast hmax hstrokes
  rw [hdeepest] at hmax
  rw [hsaved] at hback
  exact ⟨hlast, hback, hmax, congrArg _ hstrokes⟩

/-- A branch is read from its opening symbol, with shorter or longer strokes and the turtle saved, to
its closing symbol, which brings back the turtle that was saved. -/
theorem drawn_branch {opening closing : Symbol} {body rest : Forest} {index : Nat}
    {state mid last : State} (hopening : interpretation.opFor grammar opening = .push)
    (hclosing : interpretation.opFor grammar closing = .pop)
    (hread : interpretation.Reads grammar (index + 1) (interpretation.step grammar index state opening)
      body.word mid)
    (hbody : Drawn interpretation grammar (index + 1) (interpretation.step grammar index state opening)
      body mid)
    (hrest : Drawn interpretation grammar (index + 1 + body.word.length + 1)
      (interpretation.step grammar (index + 1 + body.word.length) mid closing) rest last) :
    Drawn interpretation grammar index state (branch opening body closing rest) last := by
  have hpush : interpretation.step grammar index state opening =
      state.push (interpretation.config.lengthAtDepth (state.saved.size + 1)) := by
    rw [Interpretation.step, hopening]
    rfl
  have hpop : interpretation.step grammar (index + 1 + body.word.length) mid closing = mid.pop := by
    rw [Interpretation.step, hclosing]
    rfl
  have hstrokes : interpretation.strokesFrom grammar index state
      (branch opening body closing rest).word =
      interpretation.strokesFrom grammar (index + 1) (interpretation.step grammar index state opening)
        body.word ++
      interpretation.strokesFrom grammar (index + 1 + body.word.length + 1) mid.pop rest.word := by
    rw [word, Interpretation.strokesFrom, hopening, Interpretation.strokesFrom_append hread,
      Interpretation.strokesFrom, hclosing, hpop]
    rfl
  rw [hpush] at hbody hstrokes
  rw [hpop] at hrest
  have hsaved : mid.saved = state.saved.push state.turtle := hbody.saved
  have hturtle : mid.pop.turtle = state.turtle := by
    simp [State.pop, hsaved]
  have hback : mid.pop.saved = state.saved := by
    simp [State.pop, hsaved]
  have hsize : (state.push (interpretation.config.lengthAtDepth (state.saved.size + 1))).saved.size =
      state.saved.size + 1 := Array.size_push _
  have hinner := hbody.deepest
  have hlater := hrest.deepest
  have hdrawn := hbody.strokes
  have hdrawnRest := hrest.strokes
  rw [hsize] at hinner hdrawn
  rw [hturtle, hback] at hlater hdrawnRest
  refine ⟨?_, ?_, ?_, ?_⟩
  · rw [hrest.turtle, hturtle, hback]
    rfl
  · rw [hrest.saved, hback]
  · have hpopped : mid.pop.maxDepth = mid.maxDepth := rfl
    have hpushed : (state.push (interpretation.config.lengthAtDepth (state.saved.size + 1))).maxDepth =
        max state.maxDepth (state.saved.size + 1) := rfl
    rw [hlater, hpopped, hinner, hpushed, Nat.max_assoc, Nat.max_assoc, ← Nat.max_assoc (_ + 1)]
    rfl
  · rw [hstrokes, hdrawn, hdrawnRest]
    rfl

/-- **A walk draws the forest of its word.** -/
theorem drawn {forest : Forest} (hfits : forest.Fits (interpretation.opFor grammar)) {index : Nat}
    {state last : State} (h : interpretation.Reads grammar index state forest.word last) :
    Drawn interpretation grammar index state forest last := by
  induction forest generalizing index state last with
  | nil =>
    cases h
    exact ⟨rfl, rfl, (Nat.max_eq_left (Nat.zero_le _)).symm, rfl⟩
  | leaf symbol rest ih =>
    obtain ⟨hpush, hpop, hrest⟩ := hfits
    cases h with
    | cons _ hread => exact drawn_leaf hpush hpop (ih hrest hread)
  | branch opening body closing rest ihbody ihrest =>
    obtain ⟨hopening, hbody, hclosing, hrest⟩ := hfits
    cases h with
    | cons _ hread =>
      obtain ⟨mid, hmid, hlater⟩ := Interpretation.Reads.append_iff.mp hread
      cases hlater with
      | cons _ hlast =>
        exact drawn_branch hopening hclosing hmid (ihbody hbody hmid) (ihrest hrest hlast)

end Forest

/-! ### Walks along well nested words -/

namespace Interpretation

variable {interpretation : Interpretation} {grammar : Grammar}

/-- **A walk along a well nested word draws its bracket forest.** The word has exactly one forest,
the walk is complete with the counts and the turtle of the drawing, and a canvas shows the strokes of
the drawing. -/
theorem walk_eq_draw (interpretation : Interpretation) (grammar : Grammar) {word : Word}
    (hvalid : interpretation.config.validate = .ok ())
    (hnested : Word.Balanced (interpretation.level grammar) word)
    (hdeep : Word.nesting (interpretation.level grammar) word ≤ interpretation.config.maxDepth)
    (hfinite : ∀ index, 0 < interpretation.depthAt grammar word index →
      (interpretation.config.lengthAtDepth
        (interpretation.depthAt grammar word index).toNat).isFinite = true) :
    let forest := Forest.ofWord (interpretation.opFor grammar) word
    let drawing := forest.draw interpretation grammar 0 interpretation.begin.turtle
    let outcome := interpretation.walk grammar word
    (∀ other : Forest, other = forest ↔
      other.Fits (interpretation.opFor grammar) ∧ other.word = word) ∧
    outcome.result = .ok ⟨drawing.strokes.length, drawing.deepest, drawing.turtle⟩ ∧
    List.Forall₂ Stroke.Same (Canvas.append {} outcome.commands).strokes.toList drawing.strokes := by
  have hforest (other : Forest) : other = Forest.ofWord (interpretation.opFor grammar) word ↔
      other.Fits (interpretation.opFor grammar) ∧ other.word = word := Forest.eq_ofWord_iff hnested
  refine ⟨hforest, ?_⟩
  obtain ⟨hfits, hword⟩ := (hforest _).mp rfl
  obtain ⟨last, hread⟩ := reads_of_clear (clear_of_balanced hnested hdeep hfinite)
  have hdrawn := Forest.drawn hfits (hword.symm ▸ hread)
  have hstrokes := hdrawn.strokes
  rw [hword] at hstrokes
  have hsegments := hread.segments
  rw [hstrokes] at hsegments
  have hissued : Issued ({} : Pen) interpretation.begin := fun _ hissued => nomatch hissued
  obtain ⟨-, added, hadded, hsame⟩ := hread.shows hissued
  rw [hstrokes] at hsame
  have hshown : (Canvas.append {} last.commands).strokes.toList = added := by
    rw [Canvas.strokes, Canvas.append, Array.empty_append]
    exact hadded
  simp only [walk_of_reads hvalid hread, hshown]
  refine ⟨?_, hsame⟩
  have hcount : last.segments = _ := hsegments.trans (Nat.zero_add _)
  have hdeepest : last.maxDepth = _ := hdrawn.deepest.trans (Nat.max_eq_right (Nat.zero_le _))
  rw [hcount, hdeepest, hdrawn.turtle]
  rfl

theorem walk_twig :
    let interpretation := standard { reduction := 2 }
    let forest := Forest.ofWord (interpretation.opFor twig) twig.start
    let drawing := forest.draw interpretation twig 0 interpretation.begin.turtle
    forest.word = twig.start ∧ drawing.strokes.length = 5 ∧ drawing.deepest = 2 ∧
      (interpretation.walk twig twig.start).result = .ok ⟨5, 2, drawing.turtle⟩ := by
  intro interpretation forest drawing
  have hvalid : interpretation.config.validate = .ok () :=
    Config.validate_eq_ok_iff.mpr (by decide +kernel)
  have hnested : Word.Balanced (interpretation.level twig) twig.start := by decide +kernel
  have hwalk := walk_eq_draw interpretation twig hvalid hnested (by decide +kernel)
    fun _ _ => Config.lengthAtDepth_isFinite hvalid (by decide +kernel) _
  have hcount : drawing.strokes.length = 5 := by decide +kernel
  have hdeepest : drawing.deepest = 2 := by decide +kernel
  refine ⟨((hwalk.1 forest).mp rfl).2, hcount, hdeepest, ?_⟩
  rw [← hcount, ← hdeepest]
  exact hwalk.2.1

end Interpretation

end LSystem.Walk
