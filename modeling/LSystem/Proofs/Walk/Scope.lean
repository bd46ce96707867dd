import LSystem.Proofs.Walk.Forest
import Mathlib.Order.Bounds.Basic

/-! The scope of colors.

A color symbol colors the strokes that follow it up to the end of the branch it stands in, branches
inside of that branch included, unless a later color symbol reaches them too. So the color of a
stroke can be read off the word (`InScope`), without a turtle, a stack or the color that was sent
last. The invariant behind it speaks of every open branch (`Layered`): the turtle saved at a depth
has the color that reaches the end of what was read from symbols that stand no deeper. -/
namespace LSystem.Walk

/-- How many symbols of a word a walk has obeyed: all of them if it is complete, and those before the
symbol that stopped it otherwise. -/
def Outcome.reach (outcome : Outcome) (word : Word) : Nat :=
  match outcome.result with
  | .ok _ => word.length
  | .error fault => fault.position?.getD 0

namespace Interpretation

open Turtle (Op)

variable (interpretation : Interpretation) (grammar : Grammar)

/-- The color that an operation takes for its symbol. -/
def given (symbol : Symbol) (op : Op) : Option Color :=
  if op = .setColor then grammar.color? symbol else none

/-- The color that the symbol at an index gives, if it is a color symbol that has one. -/
def colorAt (word : Word) (index : Nat) : Option Color :=
  word[index]?.bind fun symbol => given grammar symbol (interpretation.opFor grammar symbol)

/-- A color given at one index reaches a later one: no branch in which it was given has been closed
in between. -/
structure Reaches (word : Word) (source target : Nat) : Prop where
  before : source < target
  colored : (interpretation.colorAt grammar word source).isSome
  inside : ∀ index, source ≤ index → index ≤ target →
    interpretation.depthAt grammar word source ≤ interpretation.depthAt grammar word index

/-- The color of a stroke at an index: the one given last among those that reach the index, and the
default color if none does. -/
def InScope (word : Word) (index : Nat) (color : Color) : Prop :=
  (∃ source, IsGreatest {source | interpretation.Reaches grammar word source index} source ∧
    interpretation.colorAt grammar word source = some color) ∨
  ((∀ source, ¬interpretation.Reaches grammar word source index) ∧
    color = interpretation.config.defaultColor)

/-- The indices before a limit at which a word asks for a stroke, in order. -/
def strokeIndices (word : Word) (limit : Nat) : List Nat :=
  (List.range limit).filter fun index =>
    decide (interpretation.opAt grammar word index = some .draw)

/-! ### Colors that reach from no deeper than a limit -/

/-- The indices that reach a later one and stand no deeper than a limit. -/
def sources (word : Word) (limit : Int) (target : Nat) : Set Nat :=
  {source | interpretation.Reaches grammar word source target ∧
    interpretation.depthAt grammar word source ≤ limit}

/-- The color given last among some indices, if there is one. -/
def LastGiven (word : Word) (among : Set Nat) : Option Color → Prop
  | some color => ∃ source, IsGreatest among source ∧
      interpretation.colorAt grammar word source = some color
  | none => ∀ source, source ∉ among

variable {interpretation grammar} {word : Word} {target : Nat}

/-- What reaches an index stands no deeper than it. -/
theorem sources_of_le {limit : Int} (h : interpretation.depthAt grammar word target ≤ limit) :
    interpretation.sources grammar word limit target =
      {source | interpretation.Reaches grammar word source target} := by
  ext source
  refine ⟨And.left, fun hreaches => ⟨hreaches, ?_⟩⟩
  exact Int.le_trans (hreaches.inside target (Nat.le_of_lt hreaches.before) (Nat.le_refl _)) h

/-- One more symbol neither adds nor takes a source, if the limit is no deeper than what follows it
and it gives no color within the limit. -/
theorem sources_succ {limit : Int} (hlimit : limit ≤ interpretation.depthAt grammar word (target + 1))
    (hgiven : interpretation.colorAt grammar word target = none ∨
      limit < interpretation.depthAt grammar word target) :
    interpretation.sources grammar word limit (target + 1) =
      interpretation.sources grammar word limit target := by
  ext source
  constructor
  · rintro ⟨hreaches, hdepth⟩
    have hne : source ≠ target := by
      rintro rfl
      rcases hgiven with hnone | hdeep
      · have := hreaches.colored
        rw [hnone] at this
        cases this
      · omega
    have hlt : source < target := by
      have := hreaches.before
      omega
    exact ⟨⟨hlt, hreaches.colored, fun index hfirst hlast =>
      hreaches.inside index hfirst (Nat.le_succ_of_le hlast)⟩, hdepth⟩
  · rintro ⟨hreaches, hdepth⟩
    refine ⟨⟨Nat.lt_succ_of_lt hreaches.before, hreaches.colored, fun index hfirst hlast => ?_⟩,
      hdepth⟩
    rcases Nat.lt_or_eq_of_le hlast with hlt | rfl
    · exact hreaches.inside index hfirst (Nat.le_of_lt_succ hlt)
    · exact Int.le_trans hdepth hlimit

/-- A color symbol is the last source for what follows it. -/
theorem lastGiven_succ {color : Color}
    (hcolor : interpretation.colorAt grammar word target = some color)
    (hdepth : interpretation.depthAt grammar word target ≤
      interpretation.depthAt grammar word (target + 1)) :
    interpretation.LastGiven grammar word
      (interpretation.sources grammar word (interpretation.depthAt grammar word target) (target + 1))
      (some color) := by
  refine ⟨target, ⟨⟨⟨Nat.lt_succ_self _, ?_, fun index hfirst hlast => ?_⟩, Int.le_refl _⟩, ?_⟩, hcolor⟩
  · rw [hcolor]
    rfl
  · rcases Nat.lt_or_eq_of_le hlast with hlt | rfl
    · rw [Nat.le_antisymm (Nat.le_of_lt_succ hlt) hfirst]
    · exact hdepth
  · rintro other ⟨hreaches, -⟩
    exact Nat.le_of_lt_succ hreaches.before

/-! ### The colors of open branches -/

/-- Each color of a list was given last among those that reach an index from no deeper than its place
in the list. -/
def Layered (interpretation : Interpretation) (grammar : Grammar) (word : Word) (index : Nat)
    (colors : List (Option Color)) : Prop :=
  ∀ (depth : Nat) (color : Option Color), colors[depth]? = some color →
    interpretation.LastGiven grammar word (interpretation.sources grammar word depth index) color

namespace Layered
variable {index : Nat} {colors : List (Option Color)} {color : Option Color}

theorem snoc_iff : Layered interpretation grammar word index (colors ++ [color]) ↔
    Layered interpretation grammar word index colors ∧
      interpretation.LastGiven grammar word
        (interpretation.sources grammar word colors.length index) color := by
  constructor
  · intro h
    refine ⟨fun depth other hother => h depth other ?_, h _ _ List.getElem?_concat_length⟩
    rwa [List.getElem?_append_left (List.getElem?_eq_some_iff.mp hother).1]
  · rintro ⟨h, hlast⟩ depth other hother
    rcases Nat.lt_trichotomy depth colors.length with hlt | rfl | hgt
    · rw [List.getElem?_append_left hlt] at hother
      exact h depth other hother
    · rw [List.getElem?_concat_length] at hother
      cases hother
      exact hlast
    · rw [List.getElem?_eq_none (by rw [List.length_append, List.length_singleton]; omega)] at hother
      cases hother

/-- One more symbol changes nothing for the branches that stay open around it. -/
theorem succ (h : Layered interpretation grammar word index colors)
    (hlength : colors.length ≤ interpretation.depthAt grammar word (index + 1) + 1)
    (hgiven : interpretation.colorAt grammar word index = none ∨
      colors.length ≤ interpretation.depthAt grammar word index) :
    Layered interpretation grammar word (index + 1) colors := by
  intro depth other hother
  have hlt := (List.getElem?_eq_some_iff.mp hother).1
  rw [sources_succ (by omega) (hgiven.imp_right fun hle => by omega)]
  exact h depth other hother

variable (h : Layered interpretation grammar word index (colors ++ [color]))
  (hdepth : (colors.length : Int) = interpretation.depthAt grammar word index)
include h hdepth

/-- A new branch starts with the color outside of it. -/
theorem push (hgiven : interpretation.colorAt grammar word index = none)
    (hsucc : interpretation.depthAt grammar word (index + 1) =
      interpretation.depthAt grammar word index + 1) :
    Layered interpretation grammar word (index + 1) (colors ++ [color] ++ [color]) := by
  have hlength : (colors ++ [color]).length = colors.length + 1 := List.length_append
  refine snoc_iff.mpr ⟨h.succ (by omega) (.inl hgiven), ?_⟩
  rw [sources_succ (by omega) (.inl hgiven), sources_of_le (by omega),
    ← sources_of_le (Int.le_of_eq hdepth.symm)]
  exact (snoc_iff.mp h).2

/-- After a branch the color outside of it is back. -/
theorem pop (hgiven : interpretation.colorAt grammar word index = none)
    (hsucc : interpretation.depthAt grammar word (index + 1) =
      interpretation.depthAt grammar word index - 1) :
    Layered interpretation grammar word (index + 1) colors :=
  (snoc_iff.mp h).1.succ (by omega) (.inl hgiven)

/-- A symbol that is no bracket can only give the innermost branch a color. -/
theorem leaf (hsucc : interpretation.depthAt grammar word (index + 1) =
      interpretation.depthAt grammar word index) :
    Layered interpretation grammar word (index + 1)
      (colors ++ [(interpretation.colorAt grammar word index).or color]) := by
  refine snoc_iff.mpr ⟨(snoc_iff.mp h).1.succ (by omega) (.inr (by omega)), ?_⟩
  cases hgiven : interpretation.colorAt grammar word index with
  | none =>
    rw [sources_succ (by omega) (.inl hgiven)]
    exact (snoc_iff.mp h).2
  | some given =>
    rw [hdepth]
    exact lastGiven_succ hgiven (by omega)

end Layered

/-- The colors of the turtles saved at the open branches, the innermost last. -/
def savedColors (state : State) : List (Option Color) := state.saved.toList.map (·.color)

/-- The saved colors and then the color of the turtle. -/
def layers (state : State) : List (Option Color) := savedColors state ++ [state.turtle.color]

theorem length_savedColors (state : State) : (savedColors state).length = state.saved.size := by
  simp [savedColors]

theorem layers_push (state : State) (length : Single) :
    layers (state.push length) = layers state ++ [state.turtle.color] := by
  simp [layers, savedColors, State.push]

theorem layers_pop {state : State} (h : 0 < state.saved.size) :
    layers state.pop = savedColors state := by
  obtain ⟨saved, last, hsaved⟩ := Array.exists_push_of_size_pos h
  simp [layers, savedColors, State.pop, hsaved]

theorem layers_of_leaf {op : Op} (hpush : op ≠ .push) (hpop : op ≠ .pop) (config : Config)
    (symbol : Symbol) (index : Nat) (state : State) :
    layers (obey config grammar symbol index state op) =
      savedColors state ++ [(given grammar symbol op).or state.turtle.color] := by
  obtain ⟨hturtle, hsaved, -⟩ := Forest.obey_of_leaf hpush hpop config grammar symbol index state
  rw [layers, savedColors, hturtle, hsaved]
  cases op <;> rfl

/-- **One more symbol keeps the colors of all open branches right.** -/
theorem layered_step {index : Nat} {state : State} {symbol : Symbol}
    (h : Layered interpretation grammar word index (layers state))
    (hdepth : (state.saved.size : Int) = interpretation.depthAt grammar word index)
    (hsymbol : word[index]? = some symbol)
    (hstop : interpretation.stop? grammar index state symbol = none) :
    Layered interpretation grammar word (index + 1)
      (layers (interpretation.step grammar index state symbol)) := by
  have hop : interpretation.opAt grammar word index =
      some (interpretation.opFor grammar symbol) := by rw [opAt, hsymbol]; rfl
  have hgiven : interpretation.colorAt grammar word index =
      given grammar symbol (interpretation.opFor grammar symbol) := by rw [colorAt, hsymbol]; rfl
  have hsucc := depthAt_succ hop
  rw [← length_savedColors] at hdepth
  rw [stop?] at hstop
  rw [Interpretation.step]
  generalize interpretation.opFor grammar symbol = op at hgiven hsucc hstop ⊢
  by_cases hpush : op = .push
  · subst hpush
    rw [obey, layers_push]
    exact h.push hdepth hgiven hsucc
  by_cases hpop : op = .pop
  · subst hpop
    rw [obey, layers_pop (pos_of_fault?_pop hstop)]
    exact h.pop hdepth hgiven hsucc
  · rw [Op.level_eq_zero hpush hpop, Int.add_zero] at hsucc
    rw [layers_of_leaf hpush hpop, ← hgiven]
    exact h.leaf hdepth hsucc

/-! ### How far a walk comes -/

theorem reach_of_invalid {fault : ConfigFault}
    (hvalid : interpretation.config.validate = .error fault) (word : Word) :
    (interpretation.walk grammar word).reach word = 0 := by
  rw [walk_of_invalid hvalid]
  exact congrArg (Option.getD · 0) (position?_of_invalid hvalid)

theorem reach_of_stops (hvalid : interpretation.config.validate = .ok ()) {read rest : Word}
    {symbol : Symbol} {mid : State} {fault : WalkError}
    (h : Reads interpretation grammar 0 interpretation.begin read mid)
    (hstop : interpretation.stop? grammar read.length mid symbol = some fault) :
    (interpretation.walk grammar (read ++ symbol :: rest)).reach (read ++ symbol :: rest) =
      read.length := by
  rw [walk_of_stops hvalid h hstop]
  exact congrArg (Option.getD · 0) (fault?_position hstop)

/-- A walk under an accepted configuration has read its word up to where it reaches, and its commands
are those of what it has read. -/
theorem reads_reach (grammar : Grammar) (hvalid : interpretation.config.validate = .ok ())
    (word : Word) :
    ∃ read rest last, word = read ++ rest ∧
      (interpretation.walk grammar word).reach word = read.length ∧
      Reads interpretation grammar 0 interpretation.begin read last ∧
      (interpretation.walk grammar word).commands = last.commands := by
  rcases reads_or_stops interpretation grammar word with
    ⟨last, hread⟩ | ⟨read, symbol, rest, mid, fault, rfl, hread, hstop⟩
  · refine ⟨word, [], last, (List.append_nil _).symm, ?_, hread, ?_⟩
    · rw [walk_of_reads hvalid hread]
      rfl
    · rw [walk_of_reads hvalid hread]
  · refine ⟨read, symbol :: rest, mid, rfl, reach_of_stops hvalid hread hstop, hread, ?_⟩
    rw [walk_of_stops hvalid hread hstop]

/-! ### The colors of strokes -/

/-- The turtle has the color that is in scope, the default color standing for none. -/
theorem Layered.inScope {index : Nat} {state : State}
    (h : Layered interpretation grammar word index (layers state))
    (hdepth : (state.saved.size : Int) = interpretation.depthAt grammar word index) :
    interpretation.InScope grammar word index
      (state.turtle.color.getD interpretation.config.defaultColor) := by
  have hlast := (snoc_iff.mp h).2
  rw [length_savedColors, sources_of_le (Int.le_of_eq hdepth.symm)] at hlast
  cases hcolor : state.turtle.color with
  | none =>
    rw [hcolor] at hlast
    exact .inr ⟨hlast, rfl⟩
  | some color =>
    rw [hcolor] at hlast
    exact .inl hlast

theorem strokeIndices_succ {index : Nat} {op : Op}
    (h : interpretation.opAt grammar word index = some op) :
    interpretation.strokeIndices grammar word (index + 1) =
      interpretation.strokeIndices grammar word index ++ if op = .draw then [index] else [] := by
  rw [strokeIndices, List.range_succ, List.filter_append, ← strokeIndices, List.filter_singleton, h]
  cases op <;> rfl

/-- The strokes of an operation are in scope at its index. -/
theorem forall₂_strokes {index : Nat} {turtle : Turtle}
    (h : interpretation.InScope grammar word index
      (turtle.color.getD interpretation.config.defaultColor)) (op : Op) :
    List.Forall₂ (fun stroke target => ∃ color, stroke.color = some color ∧
        interpretation.InScope grammar word target color)
      (strokes interpretation.config turtle op) (if op = .draw then [index] else []) := by
  cases op with
  | draw => exact .cons ⟨_, rfl, h⟩ .nil
  | _ => exact .nil

/-- The branches that are open after some symbols, and the strokes so far, have the colors that are
in scope, whatever follows. -/
structure Scoped (interpretation : Interpretation) (grammar : Grammar) (read : Word) (state : State) :
    Prop where
  reads : Reads interpretation grammar 0 interpretation.begin read state
  layered : ∀ rest, Layered interpretation grammar (read ++ rest) read.length (layers state)
  strokes : ∀ rest, List.Forall₂ (fun stroke target => ∃ color, stroke.color = some color ∧
      interpretation.InScope grammar (read ++ rest) target color)
    (interpretation.strokesFrom grammar 0 interpretation.begin read)
    (interpretation.strokeIndices grammar (read ++ rest) read.length)

theorem scoped_begin : Scoped interpretation grammar [] interpretation.begin where
  reads := .nil
  layered rest := by
    refine Layered.snoc_iff.mpr ⟨fun depth color hcolor => (nomatch hcolor), ?_⟩
    rintro source ⟨hreaches, -⟩
    exact Nat.not_lt_zero _ hreaches.before
  strokes _ := .nil

theorem Scoped.step {read : Word} {state : State} {symbol : Symbol}
    (h : Scoped interpretation grammar read state)
    (hstop : interpretation.stop? grammar read.length state symbol = none) :
    Scoped interpretation grammar (read ++ [symbol])
      (interpretation.step grammar read.length state symbol) where
  reads := h.reads.append (.cons hstop .nil)
  layered rest := by
    rw [List.append_assoc, List.singleton_append, List.length_append, List.length_singleton]
    exact layered_step (h.layered (symbol :: rest)) (depthAt_append h.reads.counts).symm
      (by simp) hstop
  strokes rest := by
    have hscope := (h.layered (symbol :: rest)).inScope (depthAt_append h.reads.counts).symm
    rw [strokesFrom_append h.reads, List.append_assoc, List.singleton_append, List.length_append,
      List.length_singleton, strokeIndices_succ (opAt_append read rest symbol), Nat.zero_add]
    apply List.rel_append (h.strokes (symbol :: rest))
    rw [strokesFrom, strokesFrom, List.append_nil]
    exact forall₂_strokes hscope _

/-- **Whatever was read, the colors are those in scope.** -/
theorem Reads.scoped {read : Word} {last : State}
    (h : Reads interpretation grammar 0 interpretation.begin read last) :
    Scoped interpretation grammar read last := by
  refine h.invariant (Scoped interpretation grammar) scoped_begin fun read symbol mid hmid hstop => ?_
  rw [Nat.zero_add] at hstop ⊢
  exact hmid.step hstop

/-- A canvas shows what was read in the colors that are in scope. -/
theorem Reads.shown_inScope {read : Word} {last : State}
    (h : Reads interpretation grammar 0 interpretation.begin read last) {outcome : Outcome}
    (hcommands : outcome.commands = last.commands) (rest : Word) :
    List.Forall₂ (fun stroke index => ∃ shown color, stroke.color = some shown ∧
        shown.Same color ∧ interpretation.InScope grammar (read ++ rest) index color)
      outcome.shown (interpretation.strokeIndices grammar (read ++ rest) read.length) := by
  refine forall₂_trans ?_ (h.shown hcommands) (h.scoped.strokes rest)
  rintro stroke drawn index hsame ⟨color, hcolor, hscope⟩
  have hrel := hsame.color
  rw [hcolor] at hrel
  cases hshown : stroke.color with
  | none =>
    rw [hshown] at hrel
    cases hrel
  | some shown =>
    rw [hshown] at hrel
    cases hrel with
    | some hshownSame => exact ⟨shown, color, rfl, hshownSame, hscope⟩

/-- **Strokes are colored by scope.** The strokes that a canvas shows of a walk, complete or stopped,
belong one by one to the indices at which the walk was asked for them, and each is shown in a color,
which is the one in scope at its index. -/
theorem walk_inScope (interpretation : Interpretation) (grammar : Grammar) (word : Word) :
    let outcome := interpretation.walk grammar word
    List.Forall₂ (fun stroke index => ∃ shown color, stroke.color = some shown ∧
        shown.Same color ∧ interpretation.InScope grammar word index color)
      outcome.shown (interpretation.strokeIndices grammar word (outcome.reach word)) := by
  intro outcome
  cases hvalid : interpretation.config.validate with
  | error fault =>
    have houtcome : outcome = _ := walk_of_invalid hvalid word
    rw [reach_of_invalid hvalid, houtcome]
    exact .nil
  | ok =>
    obtain ⟨read, rest, last, rfl, hreach, hread, hcommands⟩ := reads_reach grammar hvalid word
    rw [hreach]
    exact hread.shown_inScope hcommands rest

end Interpretation

end LSystem.Walk
