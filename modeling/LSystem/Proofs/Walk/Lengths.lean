import LSystem.Proofs.Walk.Scope

/-! Stroke lengths along a walk.

A stroke length is written when a branch is opened, saved with its turtle, and brought back with it.
So what a walk has come through does not show in it: every turtle, the saved ones included, has the
length of its depth (`Metered`), which every symbol preserves. `walk_lengths` says this of each state
of a walk, and that its strokes are those of the turtle before their symbols, as long as the number of
open branches says. -/
namespace LSystem.Walk

open Turtle (Op)

/-- Every turtle has the stroke length of its depth, and these lengths are amounts. -/
structure Metered (config : Config) (state : State) : Prop where
  turtle : state.turtle.length = config.lengthAtDepth state.saved.size
  saved : ∀ depth turtle, state.saved[depth]? = some turtle →
    turtle.length = config.lengthAtDepth depth
  amounts : ∀ depth ≤ state.saved.size, Binary.Amount (config.lengthAtDepth depth)

namespace Metered
variable {config : Config} {state : State}

/-- A symbol that is no bracket changes no length. -/
theorem leaf (h : Metered config state) {next : State}
    (hlength : next.turtle.length = state.turtle.length) (hsaved : next.saved = state.saved) :
    Metered config next := by
  obtain ⟨hturtle, hbranches, hamounts⟩ := h
  rw [← hsaved] at hturtle hbranches hamounts
  exact ⟨hlength.trans hturtle, hbranches, hamounts⟩

/-- The turtle that is saved keeps its length, and the new branch has its own. -/
theorem push (h : Metered config state) (hvalid : config.validate = .ok ())
    (hfinite : (config.lengthAtDepth (state.saved.size + 1)).isFinite = true) :
    Metered config (state.push (config.lengthAtDepth (state.saved.size + 1))) := by
  have hsize : (state.push (config.lengthAtDepth (state.saved.size + 1))).saved.size =
      state.saved.size + 1 := Array.size_push _
  refine ⟨by rw [hsize]; rfl, fun depth turtle hdepth => ?_, fun depth hdepth => ?_⟩
  · rw [State.push, Array.getElem?_push] at hdepth
    split at hdepth
    · rename_i heq
      cases hdepth
      rw [heq]
      exact h.turtle
    · exact h.saved depth turtle hdepth
  · rw [hsize] at hdepth
    rcases Nat.lt_or_eq_of_le hdepth with hlt | rfl
    · exact h.amounts depth (Nat.le_of_lt_succ hlt)
    · exact Config.amount_lengthAtDepth hvalid hfinite

/-- The turtle that comes back has the length of the depth it was saved at. -/
theorem pop (h : Metered config state) (hopen : 0 < state.saved.size) : Metered config state.pop := by
  have hsize : state.pop.saved.size = state.saved.size - 1 := Array.size_pop
  obtain ⟨saved, last, hsaved⟩ := Array.exists_push_of_size_pos hopen
  refine ⟨?_, fun depth turtle hdepth => ?_, fun depth hdepth => ?_⟩
  · have hlast : state.saved[saved.size]? = some last := by
      rw [hsaved, Array.getElem?_push_size]
    have hturtle : state.pop.turtle = last := by simp [State.pop, hsaved]
    have hdepth : state.pop.saved.size = saved.size := by
      rw [hsize, hsaved, Array.size_push, Nat.add_sub_cancel]
    rw [hturtle, hdepth]
    exact h.saved _ _ hlast
  · have hpop : state.pop.saved = saved := by simp [State.pop, hsaved]
    rw [hpop] at hdepth
    apply h.saved depth turtle
    rw [hsaved, Array.getElem?_push_lt (Array.getElem?_eq_some_iff.mp hdepth).1]
    exact congrArg some (Array.getElem?_eq_some_iff.mp hdepth).2
  · rw [hsize] at hdepth
    exact h.amounts depth (Nat.le_trans hdepth (Nat.sub_le _ _))

/-- **Every symbol keeps the lengths those of their depths.** -/
theorem obey (h : Metered config state) (hvalid : config.validate = .ok ()) (grammar : Grammar)
    (symbol : Symbol) {index : Nat} {op : Op} (hstop : fault? config state.saved.size index op = none) :
    Metered config (obey config grammar symbol index state op) := by
  by_cases hpush : op = .push
  · subst hpush
    exact h.push hvalid (fault?_push_eq_none_iff.mp hstop).2
  by_cases hpop : op = .pop
  · subst hpop
    exact h.pop (pos_of_fault?_pop hstop)
  · obtain ⟨hturtle, hsaved, -⟩ := Forest.obey_of_leaf hpush hpop config grammar symbol index state
    refine h.leaf ?_ hsaved
    rw [hturtle]
    cases op <;> rfl

end Metered

namespace Interpretation

variable (interpretation : Interpretation) (grammar : Grammar)

/-- The state of a walk before the symbol at an index, or where the walk was stopped before that. -/
def stateAt (word : Word) (index : Nat) : State :=
  (interpretation.walkFrom grammar 0 interpretation.begin (word.take index)).1

/-- The stroke of a walk at an index: from where the turtle stands, along its heading, as long as
strokes are at its depth, and in its color, if it has one. -/
def strokeAt (word : Word) (index : Nat) : Stroke :=
  let state := interpretation.stateAt grammar word index
  { start := state.turtle.position
    stop := state.turtle.position +
      state.turtle.direction.scale (interpretation.config.lengthAtDepth state.saved.size)
    color := some (state.turtle.color.getD interpretation.config.defaultColor) }

variable {interpretation grammar} {word : Word}

/-! ### The states of a walk -/

/-- The state of a walk is that after what it has read. -/
theorem reads_stateAt (interpretation : Interpretation) (grammar : Grammar) (word : Word)
    (index : Nat) : ∃ read, Reads interpretation grammar 0 interpretation.begin read
      (interpretation.stateAt grammar word index) :=
  exists_reads interpretation grammar 0 interpretation.begin (word.take index)

theorem Reads.stateAt {read : Word} {last : State}
    (h : Reads interpretation grammar 0 interpretation.begin read last) (rest : Word) :
    interpretation.stateAt grammar (read ++ rest) read.length = last := by
  rw [Interpretation.stateAt, List.take_left, walkFrom_eq_none_iff.mpr h]

/-- Up to where a walk has read, its states are those before the symbols. -/
theorem Reads.reads_stateAt {read : Word} {last : State}
    (h : Reads interpretation grammar 0 interpretation.begin read last) (rest : Word) {index : Nat}
    (hindex : index ≤ read.length) :
    Reads interpretation grammar 0 interpretation.begin ((read ++ rest).take index)
      (interpretation.stateAt grammar (read ++ rest) index) := by
  have htake : (read ++ rest).take index = read.take index := List.take_append_of_le_length hindex
  rw [← List.take_append_drop index read] at h
  obtain ⟨mid, hmid, -⟩ := append_iff.mp h
  rw [Interpretation.stateAt, htake, walkFrom_eq_none_iff.mpr hmid]
  exact hmid

/-- No walk is deeper than the limit. -/
theorem Reads.size_le {last : State}
    (h : Reads interpretation grammar 0 interpretation.begin word last) :
    last.saved.size ≤ interpretation.config.maxDepth := by
  refine h.induction_begin (fun _ state => state.saved.size ≤ interpretation.config.maxDepth)
    (Nat.zero_le _) fun read symbol mid _ hmid hstop => ?_
  have hsize := size_obey interpretation.config grammar symbol read.length mid hstop
  rw [stop?] at hstop
  rw [Interpretation.step]
  by_cases hpush : interpretation.opFor grammar symbol = .push
  · rw [hpush] at hsize hstop ⊢
    have hlimit := (fault?_push_eq_none_iff.mp hstop).1
    rw [Op.level] at hsize
    omega
  · have := Op.level_le_zero hpush
    omega

/-- **Whatever was read, the lengths are those of the depths.** -/
theorem Reads.metered (hvalid : interpretation.config.validate = .ok ()) {last : State}
    (h : Reads interpretation grammar 0 interpretation.begin word last) :
    Metered interpretation.config last := by
  have hzero := Config.lengthAtDepth_zero hvalid
  obtain ⟨-, -, hlength, -⟩ := Config.validate_eq_ok_iff.mp hvalid
  have hfinite := Config.isFinite_of_isPositive hlength
  refine h.induction_begin (fun _ state => Metered interpretation.config state)
    ⟨hzero.symm, fun depth turtle hdepth => (nomatch hdepth), fun depth hdepth => ?_⟩
    fun read symbol mid _ hmid hstop => hmid.obey hvalid grammar symbol hstop
  rw [Nat.le_zero.mp hdepth]
  exact Config.amount_lengthAtDepth hvalid (hzero.symm ▸ hfinite)

/-! ### The strokes of a walk -/

/-- The strokes of what was read are those at its stroke indices. -/
theorem Reads.strokesFrom_eq (hvalid : interpretation.config.validate = .ok ()) {read : Word}
    {last : State} (h : Reads interpretation grammar 0 interpretation.begin read last) (rest : Word) :
    interpretation.strokesFrom grammar 0 interpretation.begin read =
      (interpretation.strokeIndices grammar (read ++ rest) read.length).map
        (interpretation.strokeAt grammar (read ++ rest)) := by
  -- For every rest, since strokes are looked up by their index in the whole word.
  refine h.induction_begin (fun read _ => ∀ rest,
    interpretation.strokesFrom grammar 0 interpretation.begin read =
      (interpretation.strokeIndices grammar (read ++ rest) read.length).map
        (interpretation.strokeAt grammar (read ++ rest))) (fun _ => rfl) ?_ rest
  intro read symbol mid hread hstrokes hstop rest
  have hlength := (hread.metered hvalid).turtle
  rw [strokesFrom_append hread, List.append_assoc, List.singleton_append, List.length_append,
    List.length_singleton, strokeIndices_succ (opAt_append read rest symbol), List.map_append,
    ← hstrokes (symbol :: rest), strokesFrom, strokesFrom, List.append_nil]
  congr 1
  cases interpretation.opFor grammar symbol with
  | draw =>
    simp only [strokes, if_true, List.map_cons, List.map_nil, strokeAt,
      hread.stateAt (symbol :: rest), ← hlength]
    rfl
  | _ => rfl

/-- **Strokes are as long as their depth says.** In every state of a walk under an accepted
configuration the turtle and the turtles saved at the open branches have the lengths of their depths,
which are finite and not below zero; at depth zero that is the length of the configuration. The
branches that are open before a symbol are those of the word, and the strokes that a canvas shows are
those at the indices that ask for one, each of the length of its depth. -/
theorem walk_lengths (interpretation : Interpretation) (grammar : Grammar)
    (hvalid : interpretation.config.validate = .ok ()) (word : Word) :
    let config := interpretation.config
    let outcome := interpretation.walk grammar word
    config.lengthAtDepth 0 = config.length ∧
    (∀ index, Metered config (interpretation.stateAt grammar word index)) ∧
    (∀ index ≤ outcome.reach word, ((interpretation.stateAt grammar word index).saved.size : Int) =
      interpretation.depthAt grammar word index) ∧
    List.Forall₂ Stroke.Same outcome.shown
      ((interpretation.strokeIndices grammar word (outcome.reach word)).map
        (interpretation.strokeAt grammar word)) := by
  intro config outcome
  refine ⟨Config.lengthAtDepth_zero hvalid, fun index => ?_, ?_⟩
  · obtain ⟨read, hread⟩ := reads_stateAt interpretation grammar word index
    exact hread.metered hvalid
  · obtain ⟨read, rest, last, rfl, hreach, hread, hcommands⟩ := reads_reach grammar hvalid word
    rw [hreach]
    constructor
    · intro index hindex
      exact (hread.reads_stateAt rest hindex).counts.depth
    · rw [← hread.strokesFrom_eq hvalid rest]
      exact hread.shown hcommands

theorem walk_lengths_twig :
    let interpretation := standard { reduction := 2 }
    interpretation.config.validate = .ok () ∧
      (interpretation.stateAt twig twig.start 7).saved.size = 2 ∧
      (interpretation.stateAt twig twig.start 7).turtle.length =
        interpretation.config.lengthAtDepth 2 ∧
      (interpretation.stateAt twig twig.start 11).saved.size = 0 ∧
      (interpretation.stateAt twig twig.start 11).turtle.length = interpretation.config.length := by
  intro interpretation
  have hvalid : interpretation.config.validate = .ok () :=
    Config.validate_eq_ok_iff.mpr (by decide +kernel)
  obtain ⟨hzero, hmetered, hdepth, -⟩ := walk_lengths interpretation twig hvalid twig.start
  have hreach : (interpretation.walk twig twig.start).reach twig.start = 12 := by decide +kernel
  rw [hreach] at hdepth
  have hinner := Int.ofNat_inj.mp
    ((hdepth 7 (by decide)).trans (by decide +kernel : _ = ((2 : Nat) : Int)))
  have houter := Int.ofNat_inj.mp
    ((hdepth 11 (by decide)).trans (by decide +kernel : _ = ((0 : Nat) : Int)))
  have hlong := (hmetered 7).turtle
  have hback := (hmetered 11).turtle
  rw [hinner] at hlong
  rw [houter, hzero] at hback
  exact ⟨hvalid, hinner, hlong, houter, hback⟩

end Interpretation

end LSystem.Walk
