import LSystem.Proofs.Walk.Branch
import LSystem.Proofs.Walk.Scope

/-! Lifting the pen.

If some symbols that draw are told only to go forward, the turtle goes where it went, so a walk comes
to the same error or to the same turtle and depth, and what is missing from the picture are the lines
of those symbols (`walk_lifted`). The commands say less than that: a color sent for a line that is no
longer drawn is not sent, or is sent later, so the two walks take different colors for sent and the
remaining lines are the same only as a canvas shows them. Which lines are those of a symbol is read
off the first walk alone, by comparing what is shown with and without the symbol at the end
(`linesAt`). -/
namespace LSystem.Walk

open Turtle (Op)

namespace Interpretation

variable {i j : Interpretation} {grammar : Grammar}

/-- The symbol draws under the first interpretation, and goes forward without a line under the
second. -/
def Lifted (i j : Interpretation) (symbol : Symbol) : Prop :=
  i.ops.find? symbol = some .draw ∧ j.ops.find? symbol = some .move

instance (i j : Interpretation) (symbol : Symbol) : Decidable (Lifted i j symbol) :=
  inferInstanceAs (Decidable (_ ∧ _))

/-- The second interpretation is the first one with the pen lifted at some symbols. -/
structure LiftsTo (i j : Interpretation) : Prop where
  config : j.config = i.config
  ops : ∀ symbol, ¬Lifted i j symbol → j.ops.find? symbol = i.ops.find? symbol

/-- The symbol at an index of a word is one at which the pen is lifted. -/
def liftedAt (i j : Interpretation) (word : Word) (index : Nat) : Bool :=
  word[index]?.any fun symbol => decide (Lifted i j symbol)

/-- The lines of the symbol at an index: what a walk that ends with the symbol shows behind what the
walk shows that ends before it. -/
def linesAt (interpretation : Interpretation) (grammar : Grammar) (word : Word) (index : Nat) :
    List Stroke :=
  (interpretation.walk grammar (word.take (index + 1))).shown.drop
    (interpretation.walk grammar (word.take index)).shown.length

/-- The lines of the symbols before a limit at which the pen is not lifted. -/
def keptLines (i j : Interpretation) (grammar : Grammar) (word : Word) (limit : Nat) : List Stroke :=
  ((List.range limit).filter fun index => !liftedAt i j word index).flatMap (i.linesAt grammar word)

theorem liftedAt_append (u v : Word) (symbol : Symbol) :
    liftedAt i j (u ++ symbol :: v) u.length = decide (Lifted i j symbol) := by
  simp [liftedAt]

/-- One more symbol keeps its lines unless it is lifted. -/
theorem keptLines_succ (u v : Word) (symbol : Symbol) :
    keptLines i j grammar (u ++ symbol :: v) (u.length + 1) =
      keptLines i j grammar (u ++ symbol :: v) u.length ++
        if Lifted i j symbol then [] else i.linesAt grammar (u ++ symbol :: v) u.length := by
  rw [keptLines, List.range_succ, List.filter_append, List.flatMap_append, ← keptLines,
    List.filter_singleton, liftedAt_append]
  by_cases hlifted : Lifted i j symbol
  · rw [if_pos hlifted, decide_eq_true hlifted]
    rfl
  · rw [if_neg hlifted, decide_eq_false hlifted, Bool.not_false, cond_true, List.flatMap_singleton]

/-- A symbol that is not lifted means the same. -/
theorem LiftsTo.opFor (h : LiftsTo i j) (grammar : Grammar) {symbol : Symbol}
    (hkept : ¬Lifted i j symbol) : j.opFor grammar symbol = i.opFor grammar symbol := by
  rw [Interpretation.opFor, h.ops symbol hkept, Interpretation.opFor]

theorem Lifted.opFor {symbol : Symbol} (h : Lifted i j symbol) (grammar : Grammar) :
    i.opFor grammar symbol = .draw ∧ j.opFor grammar symbol = .move := by
  obtain ⟨hdraw, hmove⟩ := h
  rw [Interpretation.opFor, Interpretation.opFor, hdraw, hmove]
  exact ⟨rfl, rfl⟩

/-- Binding one symbol to the one or to the other lifts the pen there. -/
theorem liftsTo_bind (interpretation : Interpretation) (symbol : Symbol) :
    LiftsTo (interpretation.bind symbol .draw) (interpretation.bind symbol .move) where
  config := rfl
  ops other hkept := by
    simp only [Lifted, bind, Table.find?_insert] at hkept ⊢
    by_cases hsymbol : symbol = other
    · rw [if_pos hsymbol, if_pos hsymbol] at hkept
      exact absurd ⟨rfl, rfl⟩ hkept
    · rw [if_neg hsymbol, if_neg hsymbol]

end Interpretation

/-! ### The turtle with and without the pen -/

/-- The same turtle inside the same branches, which were never deeper for the one than for the
other. What was sent and drawn may differ. -/
structure Abreast (s t : State) : Prop extends Alike s t where
  maxDepth : t.maxDepth = s.maxDepth

namespace Abreast

variable {s t : State}

theorem obey (h : Abreast s t) (config : Config) (grammar : Grammar) (symbol : Symbol) (index : Nat)
    (op : Op) :
    Abreast (obey config grammar symbol index s op) (obey config grammar symbol index t op) where
  toAlike := h.toAlike.obey config grammar symbol index index op
  maxDepth := by rw [maxDepth_obey, maxDepth_obey, h.maxDepth, h.saved]

/-- A stroke leads to where going forward leads. -/
theorem draw_move (h : Abreast s t) (config : Config) (grammar : Grammar) (symbol : Symbol)
    (index : Nat) :
    Abreast (Walk.obey config grammar symbol index s .draw)
      (Walk.obey config grammar symbol index t .move) where
  turtle := congrArg Turtle.forward h.turtle
  saved := (State.issue_saved s _).trans h.saved
  maxDepth := h.maxDepth.trans (State.issue_maxDepth s _).symm

end Abreast

namespace Interpretation

variable {i j : Interpretation} {grammar : Grammar} {s t : State}

theorem stop?_lift (h : LiftsTo i j) (hst : Abreast s t) (index : Nat) (symbol : Symbol) :
    j.stop? grammar index t symbol = i.stop? grammar index s symbol := by
  rw [stop?, stop?, h.config, ← hst.saved]
  by_cases hlifted : Lifted i j symbol
  · obtain ⟨hdraw, hmove⟩ := hlifted.opFor grammar
    rw [hdraw, hmove]
    rfl
  · rw [h.opFor grammar hlifted]

theorem step_lift (h : LiftsTo i j) (hst : Abreast s t) (index : Nat) (symbol : Symbol) :
    Abreast (i.step grammar index s symbol) (j.step grammar index t symbol) := by
  rw [step, step, h.config]
  by_cases hlifted : Lifted i j symbol
  · obtain ⟨hdraw, hmove⟩ := hlifted.opFor grammar
    rw [hdraw, hmove]
    exact hst.draw_move _ _ _ _
  · rw [h.opFor grammar hlifted]
    exact hst.obey _ _ _ _ _

/-- A lifted symbol draws nothing, and any other one draws the same. -/
theorem strokes_lift (h : LiftsTo i j) (hst : Abreast s t) (grammar : Grammar) (symbol : Symbol) :
    strokes j.config t.turtle (j.opFor grammar symbol) =
      if Lifted i j symbol then [] else strokes i.config s.turtle (i.opFor grammar symbol) := by
  split
  · rename_i hlifted
    rw [(hlifted.opFor grammar).2]
    rfl
  · rename_i hkept
    rw [h.config, h.opFor grammar hkept, hst.turtle]

/-! ### The lines of symbols -/

/-- A symbol that is obeyed adds its lines to what is shown, and these are its strokes. -/
theorem Reads.linesAt (hvalid : i.config.validate = .ok ()) {read : Word} {symbol : Symbol}
    {mid : State} (h : Reads i grammar 0 i.begin read mid)
    (hstop : i.stop? grammar read.length mid symbol = none) (rest : Word) :
    (i.walk grammar (read ++ [symbol])).shown = (i.walk grammar read).shown ++
        i.linesAt grammar (read ++ symbol :: rest) read.length ∧
      List.Forall₂ Stroke.Same (i.linesAt grammar (read ++ symbol :: rest) read.length)
        (strokes i.config mid.turtle (i.opFor grammar symbol)) := by
  have hnext : Reads i grammar 0 i.begin (read ++ [symbol]) (i.step grammar read.length mid symbol) :=
    h.append (.cons hstop .nil)
  obtain ⟨-, added, hadded, hsame⟩ :=
    obey_shows (h.shows issued_begin).1 i.config grammar symbol read.length (i.opFor grammar symbol)
  have hshown : (i.walk grammar (read ++ [symbol])).shown = (i.walk grammar read).shown ++ added := by
    rw [walk_of_reads hvalid h, walk_of_reads hvalid hnext, Outcome.shown_eq, Outcome.shown_eq]
    exact hadded
  have hlines : i.linesAt grammar (read ++ symbol :: rest) read.length = added := by
    have htake : (read ++ symbol :: rest).take (read.length + 1) = read ++ [symbol] := by
      rw [List.take_length_add_append, List.take_succ_cons, List.take_zero]
    rw [Interpretation.linesAt, htake, List.take_left, hshown, List.drop_left]
  rw [hlines]
  exact ⟨hshown, hsame⟩

/-- What is shown of a word that is read are the lines of its symbols. -/
theorem Reads.shown_eq_lines (hvalid : i.config.validate = .ok ()) {read : Word} {last : State}
    (h : Reads i grammar 0 i.begin read last) (rest : Word) :
    (i.walk grammar read).shown =
      (List.range read.length).flatMap (i.linesAt grammar (read ++ rest)) := by
  refine h.induction_begin (fun read _ => ∀ rest, (i.walk grammar read).shown =
    (List.range read.length).flatMap (i.linesAt grammar (read ++ rest))) (fun _ => ?_) ?_ rest
  · rw [walk_of_reads hvalid .nil]
    rfl
  · intro read symbol mid hread hshown hstop rest
    rw [(hread.linesAt hvalid hstop rest).1, hshown (symbol :: rest), List.length_append,
      List.length_singleton, List.range_succ, List.flatMap_append, List.flatMap_singleton,
      List.append_assoc, List.singleton_append]

/-- **What one walk reads, the walk with the pen lifted reads as well**, with the turtle abreast, and
its strokes are the lines of the symbols that still draw. -/
theorem Reads.lift (h : LiftsTo i j) (hvalid : i.config.validate = .ok ()) {read : Word}
    {last : State} (hread : Reads i grammar 0 i.begin read last) :
    ∃ other, Reads j grammar 0 j.begin read other ∧ Abreast last other ∧
      ∀ rest, List.Forall₂ Stroke.Same (keptLines i j grammar (read ++ rest) read.length)
        (j.strokesFrom grammar 0 j.begin read) := by
  refine hread.induction_begin (fun read state => ∃ other, Reads j grammar 0 j.begin read other ∧
    Abreast state other ∧
    ∀ rest, List.Forall₂ Stroke.Same (keptLines i j grammar (read ++ rest) read.length)
      (j.strokesFrom grammar 0 j.begin read)) ⟨j.begin, .nil, ?_, fun _ => .nil⟩ ?_
  · rw [begin, begin, h.config]
    exact ⟨⟨rfl, rfl⟩, rfl⟩
  · rintro read symbol mid hmid ⟨other, hother, habreast, hlines⟩ hstop
    have hstop' : j.stop? grammar read.length other symbol = none :=
      (stop?_lift h habreast read.length symbol).trans hstop
    refine ⟨j.step grammar read.length other symbol, hother.append (.cons hstop' .nil),
      step_lift h habreast read.length symbol, fun rest => ?_⟩
    rw [strokesFrom_append hother, Nat.zero_add, strokesFrom, strokesFrom, List.append_nil,
      strokes_lift h habreast, List.append_assoc, List.singleton_append, List.length_append,
      List.length_singleton, keptLines_succ]
    refine List.rel_append (hlines (symbol :: rest)) ?_
    split
    · exact .nil
    · exact (hmid.linesAt hvalid hstop rest).2

/-- The same error, or the same turtle and depth at the end. -/
inductive SameEnd : Except WalkError Summary → Except WalkError Summary → Prop where
  | error (fault : WalkError) : SameEnd (.error fault) (.error fault)
  | ok {a b : Summary} : b.finalState = a.finalState → b.maxDepth = a.maxDepth →
      SameEnd (.ok a) (.ok b)

/-- Both walks obey the same part of a word, and end alike. -/
theorem walk_abreast (h : LiftsTo i j) (hvalid : i.config.validate = .ok ()) (grammar : Grammar)
    (word : Word) :
    ∃ read rest last other, word = read ++ rest ∧
      (i.walk grammar word).reach word = read.length ∧
      Reads i grammar 0 i.begin read last ∧ (i.walk grammar word).commands = last.commands ∧
      Reads j grammar 0 j.begin read other ∧ (j.walk grammar word).commands = other.commands ∧
      SameEnd (i.walk grammar word).result (j.walk grammar word).result := by
  have hvalid' : j.config.validate = .ok () := h.config.symm ▸ hvalid
  rcases reads_or_stops i grammar word with
    ⟨last, hread⟩ | ⟨read, symbol, rest, mid, fault, rfl, hread, hstop⟩
  · obtain ⟨other, hother, habreast, -⟩ := hread.lift h hvalid
    rw [walk_of_reads hvalid hread, walk_of_reads hvalid' hother]
    exact ⟨word, [], last, other, (List.append_nil _).symm, rfl, hread, rfl, hother, rfl,
      .ok habreast.turtle.symm habreast.maxDepth⟩
  · obtain ⟨other, hother, habreast, -⟩ := hread.lift h hvalid
    have hstop' := (stop?_lift h habreast read.length symbol).trans hstop
    have hreach : (i.walk grammar (read ++ symbol :: rest)).reach (read ++ symbol :: rest) =
        read.length := reach_of_stops hvalid hread hstop
    rw [walk_of_stops hvalid hread hstop] at hreach ⊢
    rw [walk_of_stops hvalid' hother hstop']
    exact ⟨read, symbol :: rest, mid, other, rfl, hreach, hread, rfl, hother, rfl, .error fault⟩

/-- **Lifting the pen changes only what is drawn.** If symbols that draw are told to go forward, a walk
along any word comes to the same error or to the same turtle and depth; it shows the lines of the
symbols it obeys, and with the pen lifted the lines of those at which it is not lifted, in the same
order. -/
theorem walk_lifted {i j : Interpretation} (h : LiftsTo i j) (grammar : Grammar) (word : Word) :
    let first := i.walk grammar word
    let second := j.walk grammar word
    let obeyed := List.range (first.reach word)
    SameEnd first.result second.result ∧
    first.shown = obeyed.flatMap (i.linesAt grammar word) ∧
    List.Forall₂ Stroke.Same second.shown
      ((obeyed.filter fun index => !liftedAt i j word index).flatMap (i.linesAt grammar word)) := by
  intro first second obeyed
  cases hvalid : i.config.validate with
  | error fault =>
    have hfirst : first = _ := walk_of_invalid hvalid word
    have hsecond : second = _ := walk_of_invalid (h.config.symm ▸ hvalid) word
    have hobeyed : obeyed = [] := congrArg List.range (reach_of_invalid hvalid word)
    rw [hobeyed, hfirst, hsecond]
    exact ⟨.error _, rfl, .nil⟩
  | ok =>
    obtain ⟨read, rest, last, other, rfl, hreach, hread, hcommands, hother, hcommands', hend⟩ :=
      walk_abreast h hvalid grammar word
    have hobeyed : obeyed = List.range read.length := congrArg List.range hreach
    rw [hobeyed]
    refine ⟨hend, ?_, ?_⟩
    · rw [← hread.shown_eq_lines hvalid rest, Outcome.shown_eq, hcommands, walk_of_reads hvalid hread,
        Outcome.shown_eq]
    · obtain ⟨-, -, -, hlines⟩ := hread.lift h hvalid
      exact forall₂_trans (S := flip Stroke.Same) (fun h h' => h.trans_symm h')
        (hother.shown hcommands') (hlines rest).flip

/-- Without the line of `G` the color in force there is sent later. -/
theorem walk_lifted_twig :
    let first := (standard {}).bind 'G' .draw
    let second := (standard {}).bind 'G' .move
    let word := "F[1GF]G-F".toList
    LiftsTo first second ∧
      (first.walk twig word).commands.size = 8 ∧ (second.walk twig word).commands.size = 6 ∧
      SameEnd (first.walk twig word).result (second.walk twig word).result ∧
      List.Forall₂ Stroke.Same (second.walk twig word).shown
        ([0, 1, 2, 4, 5, 7, 8].flatMap (first.linesAt twig word)) := by
  intro first second word
  have hlifts : LiftsTo first second := liftsTo_bind (standard {}) 'G'
  obtain ⟨hend, -, hshown⟩ := walk_lifted hlifts twig word
  have hreach : (first.walk twig word).reach word = 9 := by decide +kernel
  have hkept : (List.range 9).filter (fun index => !liftedAt first second word index) =
      [0, 1, 2, 4, 5, 7, 8] := by decide +kernel
  rw [hreach, hkept] at hshown
  exact ⟨hlifts, by decide +kernel, by decide +kernel, hend, hshown⟩

end Interpretation

end LSystem.Walk
