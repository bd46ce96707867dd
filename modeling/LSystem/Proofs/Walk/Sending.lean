import LSystem.Proofs.Walk.Canvases
import LSystem.Proofs.Walk.Lengths
import Mathlib.Data.List.Destutter

/-! The colors that walks send.

Whatever happens to the color of the turtle between two strokes, the commands of a walk are a function
of its strokes: a line for each of them, behind its color if that differs from the one sent last
(`walk_sending`). So the colors sent are those of the strokes without the ones that compare equal
to the last one kept (`sent_sending`), and since comparing equal carries over from color to color,
there are as many of them as strokes that differ from the stroke before (`length_destutter'`). That
colors sent are never idle and never missing is then a property of lists (`walk_sends`). -/
namespace LSystem

/-! ### Comparing colors -/

namespace Binary
variable {f : Format}

theorem equal_comm (x y : Binary f) : x.equal y = y.equal x := by
  unfold equal related
  cases x.rank? <;> cases y.rank? <;> simp [eq_comm]

/-- Numbers that compare equal compare alike. -/
theorem equal_congr {x y : Binary f} (h : x.equal y = true) (z : Binary f) :
    x.equal z = y.equal z := by
  have hrank : x.rank? = y.rank? := same_iff.mp (.inl h)
  unfold equal related
  rw [hrank]

end Binary

namespace Color

theorem equal_comm (c d : Color) : c.equal d = d.equal c := by
  simp only [equal, Binary.equal_comm]

/-- Colors that compare equal compare alike. -/
theorem equal_congr {c d : Color} (h : c.equal d = true) (e : Color) : c.equal e = d.equal e := by
  simp only [equal, Bool.and_eq_true] at h
  obtain ⟨⟨⟨hhue, hsaturation⟩, hbrightness⟩, halpha⟩ := h
  rw [equal, equal, Binary.equal_congr hhue, Binary.equal_congr hsaturation,
    Binary.equal_congr hbrightness, Binary.equal_congr halpha]

/-- Every component is a number. -/
structure IsNumeric (c : Color) : Prop where
  hue : c.hue ≠ .nan
  saturation : c.saturation ≠ .nan
  brightness : c.brightness ≠ .nan
  alpha : c.alpha ≠ .nan

/-- Colors built on the scales have numbers for components. -/
theorem isNumeric_hsba (hue saturation brightness alpha : Single) :
    (hsba hue saturation brightness alpha).IsNumeric :=
  ⟨onScale_ne_nan (Binary.ofNat_ne_nan _) hue, onScale_ne_nan (Binary.ofNat_ne_nan _) saturation,
    onScale_ne_nan (Binary.ofNat_ne_nan _) brightness, onScale_ne_nan (Binary.ofNat_ne_nan _) alpha⟩

/-- Two colors do not compare equal. -/
def Differs (c d : Color) : Prop := c.equal d = false

instance : DecidableRel Differs := fun c d => inferInstanceAs (Decidable (c.equal d = false))

/-- How often a color of a list differs from the one before it. -/
def changes (colors : List Color) : Nat :=
  (colors.zip colors.tail).countP fun pair => decide (pair.1.Differs pair.2)

theorem changes_cons_cons (c d : Color) (rest : List Color) :
    changes (c :: d :: rest) = changes (d :: rest) + if c.Differs d then 1 else 0 := by
  simp [changes, List.countP_cons]

/-- The colors that differ from the last one kept are as many as those that differ from the one
before. -/
theorem length_destutter' (first : Color) (rest : List Color) :
    (rest.destutter' Differs first).length = changes (first :: rest) + 1 := by
  induction rest generalizing first with
  | nil => rfl
  | cons next rest ih =>
    rw [changes_cons_cons]
    by_cases hdiffers : first.Differs next
    · rw [List.destutter'_cons_pos _ hdiffers, List.length_cons, ih, if_pos hdiffers]
    · rw [List.destutter'_cons_neg _ hdiffers, ih, if_neg hdiffers, Nat.add_zero]
      -- The next color is dropped, and the one after it compares alike with either of the two.
      have halike (third : Color) : first.Differs third ↔ next.Differs third := by
        unfold Differs
        rw [equal_congr (Bool.eq_true_of_not_eq_false hdiffers)]
      cases rest with
      | nil => rfl
      | cons third rest => simp only [changes_cons_cons, halike]

end Color

/-! ### Commands from strokes -/

/-- The color that a command sets. -/
def Command.color? : Command → Option Color
  | setColor color => some color
  | line _ _ => none

/-- The commands for strokes after a color was sent: a line for each, and in front of it its color
unless it compares equal to the last one. -/
def sending (issued : Option Color) : List Stroke → List Command
  | [] => []
  | ⟨start, stop, none⟩ :: rest => .line start stop :: sending issued rest
  | ⟨start, stop, some color⟩ :: rest =>
    if issued.any color.equal then .line start stop :: sending issued rest
    else .setColor color :: .line start stop :: sending (some color) rest

/-- The colors of strokes. -/
def strokeColors (strokes : List Stroke) : List Color := strokes.filterMap (·.color)

/-- After a color, those are sent that differ from the last one sent. -/
theorem sent_sending_some (color : Color) (strokes : List Stroke) :
    color :: (sending (some color) strokes).filterMap Command.color? =
      (strokeColors strokes).destutter' Color.Differs color := by
  induction strokes generalizing color with
  | nil => rfl
  | cons stroke rest ih =>
    obtain ⟨start, stop, needed⟩ := stroke
    cases needed with
    | none => exact ih color
    | some needed =>
      have hcolors : strokeColors (⟨start, stop, some needed⟩ :: rest) =
        needed :: strokeColors rest := rfl
      rw [sending, hcolors]
      by_cases hdiffers : color.Differs needed
      · have hsent : ¬(some color).any needed.equal = true := by
          rw [Option.any_some, Color.equal_comm, hdiffers]
          exact Bool.false_ne_true
        rw [if_neg hsent, List.destutter'_cons_pos _ hdiffers, ← ih needed]
        rfl
      · have hsent : (some color).any needed.equal = true := by
          rw [Option.any_some, Color.equal_comm]
          exact Bool.eq_true_of_not_eq_false hdiffers
        rw [if_pos hsent, List.destutter'_cons_neg _ hdiffers, ← ih color]
        rfl

/-- **What is sent are the colors of the strokes that differ from the one kept before.** -/
theorem sent_sending (strokes : List Stroke) :
    (sending none strokes).filterMap Command.color? =
      (strokeColors strokes).destutter Color.Differs := by
  induction strokes with
  | nil => rfl
  | cons stroke rest ih =>
    obtain ⟨start, stop, needed⟩ := stroke
    cases needed with
    | none => exact ih
    | some needed => exact sent_sending_some needed rest

/-- There is a line for every stroke. -/
theorem lines_sending (issued : Option Color) (strokes : List Stroke) :
    (sending issued strokes).countP Command.isLine = strokes.length := by
  induction strokes generalizing issued with
  | nil => rfl
  | cons stroke rest ih =>
    obtain ⟨start, stop, needed⟩ := stroke
    have hline (issued : Option Color) :
        (.line start stop :: sending issued rest).countP Command.isLine = rest.length + 1 := by
      rw [List.countP_cons_of_pos rfl, ih]
    cases needed with
    | none => exact hline issued
    | some needed =>
      rw [sending]
      split
      · exact hline issued
      · rw [List.countP_cons_of_neg Bool.false_ne_true]
        exact hline (some needed)

/-- Behind every color comes a line. -/
theorem line_of_setColor {issued : Option Color} {strokes : List Stroke} {index : Nat} {color : Color}
    (h : (sending issued strokes)[index]? = some (.setColor color)) :
    ∃ start stop, (sending issued strokes)[index + 1]? = some (.line start stop) := by
  induction strokes generalizing issued index with
  | nil => cases h
  | cons stroke rest ih =>
    obtain ⟨start, stop, needed⟩ := stroke
    have hbehind {issued : Option Color} {place : Nat}
        (hplace : (.line start stop :: sending issued rest)[place]? = some (.setColor color)) :
        ∃ start' stop', (.line start stop :: sending issued rest)[place + 1]? =
          some (.line start' stop') := by
      cases place with
      | zero => cases hplace
      | succ place => exact ih hplace
    cases needed with
    | none => exact hbehind h
    | some needed =>
      rw [sending] at h ⊢
      split at h
      · rename_i hsent
        rw [if_pos hsent]
        exact hbehind h
      · rename_i hsent
        rw [if_neg hsent]
        cases index with
        | zero => exact ⟨start, stop, rfl⟩
        | succ place => exact hbehind h

end LSystem

namespace LSystem.Walk

open Turtle (Op)

/-- One symbol sends what its stroke needs. -/
theorem obey_sends (config : Config) (grammar : Grammar) (symbol : Symbol) (index : Nat)
    (state : State) (op : Op) :
    let next := obey config grammar symbol index state op
    ∃ added, next.commands.toList = state.commands.toList ++ added ∧
      ∀ rest, sending state.issued (strokes config state.turtle op ++ rest) =
        added ++ sending next.issued rest := by
  intro next
  cases op with
  | draw =>
    let color := state.turtle.color.getD config.defaultColor
    have hnext : next = state.draw config.defaultColor := rfl
    have hstrokes : strokes config state.turtle .draw =
      [⟨state.turtle.position, state.turtle.ahead, some color⟩] := rfl
    rw [hnext, hstrokes]
    by_cases hsent : state.issued.any color.equal = true
    · refine ⟨[.line state.turtle.position state.turtle.ahead], ?_, fun rest => ?_⟩
      · simp [State.draw, State.issue, color, hsent, Turtle.forward]
      · simp [sending, State.draw, State.issue, color, hsent]
    · refine ⟨[.setColor color, .line state.turtle.position state.turtle.ahead], ?_, fun rest => ?_⟩
      · simp [State.draw, State.issue, color, hsent, Turtle.forward]
      · simp [sending, State.draw, State.issue, color, hsent]
  | setColor =>
    refine ⟨[], ?_, fun rest => ?_⟩ <;> simp only [next, obey] <;>
      cases grammar.color? symbol <;> simp [State.setColor, strokes]
  | _ => exact ⟨[], (List.append_nil _).symm, fun _ => rfl⟩

namespace Interpretation

variable (interpretation : Interpretation) (grammar : Grammar)

/-- The color that a walk draws in at an index. -/
def activeAt (word : Word) (index : Nat) : Color :=
  (interpretation.stateAt grammar word index).turtle.color.getD interpretation.config.defaultColor

variable {interpretation grammar}

/-- **The commands of what was read are those that its strokes need**, behind the ones before. -/
theorem Reads.commands_eq {index : Nat} {state last : State} {word : Word}
    (h : Reads interpretation grammar index state word last) :
    last.commands.toList = state.commands.toList ++
      sending state.issued (interpretation.strokesFrom grammar index state word) := by
  induction h with
  | nil => exact (List.append_nil _).symm
  | @cons index state symbol rest last _ _ ih =>
    obtain ⟨added, hadded, hsending⟩ := obey_sends interpretation.config grammar symbol index state
      (interpretation.opFor grammar symbol)
    rw [ih, strokesFrom, hsending, ← List.append_assoc, ← hadded]
    rfl

/-- Strokes have the colors that are active at their indices. -/
theorem strokeColors_map (word : Word) (indices : List Nat) :
    strokeColors (indices.map (interpretation.strokeAt grammar word)) =
      indices.map (interpretation.activeAt grammar word) := by
  rw [strokeColors, List.filterMap_map, ← List.filterMap_eq_map]
  rfl

/-- The active color is the one in scope. -/
theorem Reads.inScope_activeAt (hvalid : interpretation.config.validate = .ok ()) {read : Word}
    {last : State} (h : Reads interpretation grammar 0 interpretation.begin read last) (rest : Word) :
    ∀ index ∈ interpretation.strokeIndices grammar (read ++ rest) read.length,
      interpretation.InScope grammar (read ++ rest) index
        (interpretation.activeAt grammar (read ++ rest) index) := by
  have hscoped := h.scoped.strokes rest
  rw [h.strokesFrom_eq hvalid rest, List.forall₂_map_left_iff, List.forall₂_same] at hscoped
  intro index hindex
  obtain ⟨color, hcolor, hscope⟩ := hscoped index hindex
  cases hcolor
  exact hscope

/-- A color in scope is the default color or stands in the table. -/
theorem InScope.eq_default_or {word : Word} {index : Nat} {color : Color}
    (h : interpretation.InScope grammar word index color) :
    color = interpretation.config.defaultColor ∨ ∃ symbol, grammar.color? symbol = some color := by
  rcases h with ⟨source, -, hsource⟩ | ⟨-, hdefault⟩
  · right
    obtain ⟨symbol, -, hgiven⟩ := Option.bind_eq_some_iff.mp hsource
    unfold given at hgiven
    split at hgiven
    · exact ⟨symbol, hgiven⟩
    · cases hgiven
  · exact .inl hdefault

/-- **A walk sends what the strokes need that it was asked for**, each in the color in scope. -/
theorem walk_sending (interpretation : Interpretation) (grammar : Grammar) (word : Word) :
    let outcome := interpretation.walk grammar word
    let drawn := interpretation.strokeIndices grammar word (outcome.reach word)
    outcome.commands.toList = sending none (drawn.map (interpretation.strokeAt grammar word)) ∧
      ∀ index ∈ drawn, interpretation.InScope grammar word index
        (interpretation.activeAt grammar word index) := by
  intro outcome drawn
  cases hvalid : interpretation.config.validate with
  | error fault =>
    have houtcome : outcome = _ := walk_of_invalid hvalid word
    have hdrawn : drawn = [] :=
      congrArg (interpretation.strokeIndices grammar word) (reach_of_invalid hvalid word)
    rw [hdrawn, houtcome]
    exact ⟨rfl, fun index hindex => nomatch hindex⟩
  | ok =>
    obtain ⟨read, rest, last, hword, hreach, hread, hcommands⟩ := reads_reach grammar hvalid word
    have hdrawn : drawn = interpretation.strokeIndices grammar word read.length :=
      congrArg (interpretation.strokeIndices grammar word) hreach
    subst hword
    rw [hdrawn]
    refine ⟨?_, hread.inScope_activeAt hvalid rest⟩
    rw [hcommands, hread.commands_eq, ← hread.strokesFrom_eq hvalid rest]
    rfl

/-- **Colors are sent when they are needed, and only then.** The commands of a walk, complete or
stopped, begin with a color if there are any. Behind every color comes a line, no color is sent that
compares equal to the one sent before it, and all of them are the default color or stand in the table.
There is a line for each stroke asked for, in the color in scope, and as many colors are sent as there
are strokes in another color than the stroke before, the first stroke included. Components that are no
numbers make no exception to that, and colors built on the scales have none. -/
theorem walk_sends (interpretation : Interpretation) (grammar : Grammar) (word : Word) :
    let outcome := interpretation.walk grammar word
    let sent := outcome.commands.toList.filterMap Command.color?
    let drawn := interpretation.strokeIndices grammar word (outcome.reach word)
    Opens outcome.commands ∧
    (∀ index color, outcome.commands.toList[index]? = some (.setColor color) →
      ∃ start stop, outcome.commands.toList[index + 1]? = some (.line start stop)) ∧
    sent.IsChain (fun first next => first.equal next = false) ∧
    (∀ color ∈ sent, color = interpretation.config.defaultColor ∨
      ∃ symbol, grammar.color? symbol = some color) ∧
    lineCount outcome.commands = drawn.length ∧
    (∀ index ∈ drawn, interpretation.InScope grammar word index
      (interpretation.activeAt grammar word index)) ∧
    sent.length = (if drawn = [] then 0
      else Color.changes (drawn.map (interpretation.activeAt grammar word)) + 1) ∧
    ∀ hue saturation brightness alpha, (Color.hsba hue saturation brightness alpha).IsNumeric ∧
      (Color.hsb hue saturation brightness).IsNumeric := by
  intro outcome sent drawn
  obtain ⟨hcommands, hscope⟩ := walk_sending interpretation grammar word
  change outcome.commands.toList = sending none (drawn.map _) at hcommands
  have hsent : sent = (drawn.map (interpretation.activeAt grammar word)).destutter Color.Differs := by
    rw [← strokeColors_map, ← sent_sending, ← hcommands]
  refine ⟨opens_walk interpretation grammar word, fun index color hcolor => ?_, ?_,
    fun color hcolor => ?_, ?_, hscope, ?_, fun hue saturation brightness alpha =>
      ⟨Color.isNumeric_hsba _ _ _ _, Color.isNumeric_hsba _ _ _ _⟩⟩
  · rw [hcommands] at hcolor ⊢
    exact line_of_setColor hcolor
  · rw [hsent]
    exact List.isChain_destutter _ _
  · rw [hsent] at hcolor
    obtain ⟨index, hindex, rfl⟩ := List.mem_map.mp ((List.destutter_sublist _ _).subset hcolor)
    exact (hscope index hindex).eq_default_or
  · rw [lineCount, ← Array.countP_toList, hcommands, lines_sending, List.length_map]
  · rw [hsent]
    cases drawn with
    | nil => rfl
    | cons first rest => exact Color.length_destutter' _ _

end Interpretation

end LSystem.Walk
