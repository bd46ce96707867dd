import LSystem.Proofs.Walk.Reading
import Mathlib.Data.List.Forall2

/-! What a walk shows.

A walk sends a color only when a stroke needs another one than was sent last, and a canvas reads the
colors back by remembering the last one it saw. Together they show each stroke in the color that the
turtle had when it was drawn, up to colors that compare equal (`Reads.shows`): the pen of the canvas
always has the color that the walk takes for sent. -/
namespace LSystem

/-- Lists related pairwise to a third are related pairwise. -/
theorem forall₂_trans {α β γ : Type} {R : α → β → Prop} {S : β → γ → Prop} {T : α → γ → Prop}
    (htrans : ∀ {a b c}, R a b → S b c → T a c) {l : List α} {m : List β} {r : List γ}
    (h : List.Forall₂ R l m) (h' : List.Forall₂ S m r) : List.Forall₂ T l r := by
  induction h generalizing r with
  | nil =>
    cases h'
    exact .nil
  | cons hfirst _ ih =>
    cases h' with
    | cons hfirst' hrest' => exact .cons (htrans hfirst hfirst') (ih hrest')

/-! ### Colors that compare equal -/

/-- Of the same value, or neither of them a number. -/
def Binary.Same {f : Binary.Format} (x y : Binary f) : Prop :=
  x.equal y = true ∨ x = .nan ∧ y = .nan

theorem Binary.same_iff {f : Binary.Format} {x y : Binary f} : x.Same y ↔ x.rank? = y.rank? := by
  unfold Same equal related
  rw [← rank?_eq_none_iff, ← rank?_eq_none_iff]
  cases x.rank? <;> cases y.rank? <;> simp

namespace Color

/-- Component by component the same. -/
structure Same (c d : Color) : Prop where
  hue : c.hue.Same d.hue
  saturation : c.saturation.Same d.saturation
  brightness : c.brightness.Same d.brightness
  alpha : c.alpha.Same d.alpha

theorem Same.refl (c : Color) : c.Same c :=
  ⟨Binary.same_iff.mpr rfl, Binary.same_iff.mpr rfl, Binary.same_iff.mpr rfl,
    Binary.same_iff.mpr rfl⟩

theorem Same.symm {c d : Color} (h : c.Same d) : d.Same c :=
  ⟨Binary.same_iff.mpr (Binary.same_iff.mp h.hue).symm,
    Binary.same_iff.mpr (Binary.same_iff.mp h.saturation).symm,
    Binary.same_iff.mpr (Binary.same_iff.mp h.brightness).symm,
    Binary.same_iff.mpr (Binary.same_iff.mp h.alpha).symm⟩

theorem Same.trans {c d e : Color} (h : c.Same d) (h' : d.Same e) : c.Same e :=
  ⟨Binary.same_iff.mpr ((Binary.same_iff.mp h.hue).trans (Binary.same_iff.mp h'.hue)),
    Binary.same_iff.mpr ((Binary.same_iff.mp h.saturation).trans (Binary.same_iff.mp h'.saturation)),
    Binary.same_iff.mpr ((Binary.same_iff.mp h.brightness).trans (Binary.same_iff.mp h'.brightness)),
    Binary.same_iff.mpr ((Binary.same_iff.mp h.alpha).trans (Binary.same_iff.mp h'.alpha))⟩

theorem same_of_equal {c d : Color} (h : c.equal d = true) : c.Same d := by
  simp only [equal, Bool.and_eq_true] at h
  obtain ⟨⟨⟨hhue, hsaturation⟩, hbrightness⟩, halpha⟩ := h
  exact ⟨.inl hhue, .inl hsaturation, .inl hbrightness, .inl halpha⟩

end Color

/-- The same line in the same color. -/
structure Stroke.Same (s t : Stroke) : Prop where
  start : s.start = t.start
  stop : s.stop = t.stop
  color : Option.Rel Color.Same s.color t.color

/-- Two lines that are both the same as a third are the same. -/
theorem Stroke.Same.trans_symm {s t r : Stroke} (h : s.Same r) (h' : t.Same r) : s.Same t := by
  obtain ⟨hstart, hstop, hcolor⟩ := h
  obtain ⟨hstart', hstop', hcolor'⟩ := h'
  refine ⟨hstart.trans hstart'.symm, hstop.trans hstop'.symm, ?_⟩
  generalize s.color = c at hcolor ⊢
  generalize t.color = d at hcolor' ⊢
  generalize r.color = e at hcolor hcolor'
  cases hcolor with
  | none =>
    cases hcolor'
    exact .none
  | some hsame =>
    cases hcolor' with
    | some hsame' => exact .some (hsame.trans hsame'.symm)

/-! ### Reading commands -/

/-- The pen after some commands. -/
def Pen.read (pen : Pen) (commands : Array Command) : Pen := commands.foldl Pen.obey pen

theorem Pen.read_push (pen : Pen) (commands : Array Command) (command : Command) :
    pen.read (commands.push command) = (pen.read commands).obey command := Array.foldl_push

end LSystem

namespace LSystem.Walk

open Turtle (Op)

/-- The strokes that a blank canvas shows of a walk. -/
def Outcome.shown (outcome : Outcome) : List Stroke :=
  (Canvas.append {} outcome.commands).strokes.toList

theorem Outcome.shown_eq (outcome : Outcome) :
    outcome.shown = (({} : Pen).read outcome.commands).strokes.toList := by
  rw [shown, Canvas.strokes, Canvas.append, Array.empty_append]
  rfl

/-- The stroke of an operation in the color of the turtle. -/
def strokes (config : Config) (turtle : Turtle) : Op → List Stroke
  | .draw => [⟨turtle.position, turtle.ahead, some (turtle.color.getD config.defaultColor)⟩]
  | _ => []

/-- A pen has the color that a walk takes for sent. -/
def Issued (pen : Pen) (state : State) : Prop :=
  ∀ color, state.issued = some color → pen.color = some color

/-- Issuing a color leaves the pen with the same one, and draws nothing. -/
theorem issue_shows {pen : Pen} {state : State} (h : Issued (pen.read state.commands) state)
    (color : Color) :
    (pen.read (state.issue color).commands).strokes = (pen.read state.commands).strokes ∧
      ∃ sent, (state.issue color).issued = some sent ∧
        (pen.read (state.issue color).commands).color = some sent ∧ sent.Same color := by
  unfold State.issue
  split
  · rename_i hsent
    cases hissued : state.issued with
    | none =>
      rw [hissued] at hsent
      cases hsent
    | some sent =>
      rw [hissued] at hsent
      exact ⟨rfl, sent, rfl, h sent hissued, (Color.same_of_equal hsent).symm⟩
  · rw [Pen.read_push]
    exact ⟨rfl, color, rfl, rfl, .refl color⟩

/-- One symbol shows its stroke. -/
theorem obey_shows {pen : Pen} {state : State} (h : Issued (pen.read state.commands) state)
    (config : Config) (grammar : Grammar) (symbol : Symbol) (index : Nat) (op : Op) :
    let next := obey config grammar symbol index state op
    Issued (pen.read next.commands) next ∧
      ∃ added, (pen.read next.commands).strokes.toList =
          (pen.read state.commands).strokes.toList ++ added ∧
        List.Forall₂ Stroke.Same added (strokes config state.turtle op) := by
  cases op with
  | draw =>
    obtain ⟨hstrokes, sent, hissued, hcolor, hsame⟩ :=
      issue_shows h (state.turtle.color.getD config.defaultColor)
    simp only [obey, State.draw, Pen.read_push, Pen.obey, State.issue_turtle]
    refine ⟨fun shown hshown => ?_, [⟨state.turtle.position, state.turtle.ahead, some sent⟩], ?_, ?_⟩
    · rw [← hshown, hissued]
      exact hcolor
    · rw [Array.toList_push, hstrokes, hcolor]
      rfl
    · exact .cons ⟨rfl, rfl, .some hsame⟩ .nil
  | setColor =>
    simp only [obey]
    cases grammar.color? symbol with
    | none => exact ⟨h, [], by simp [State.setColor], .nil⟩
    | some color => exact ⟨h, [], by simp [State.setColor], .nil⟩
  | _ => exact ⟨h, [], by simp [obey, State.push, State.pop], .nil⟩

namespace Interpretation

variable (interpretation : Interpretation) (grammar : Grammar)

/-- The strokes of a word that is read, each in the color of the turtle. -/
def strokesFrom (index : Nat) (state : State) : Word → List Stroke
  | [] => []
  | symbol :: rest =>
    strokes interpretation.config state.turtle (interpretation.opFor grammar symbol) ++
      strokesFrom (index + 1) (interpretation.step grammar index state symbol) rest

variable {interpretation grammar}

/-- Before a walk nothing is sent. -/
theorem issued_begin : Issued (({} : Pen).read interpretation.begin.commands) interpretation.begin :=
  fun _ hissued => nomatch hissued

theorem strokesFrom_append {index : Nat} {state mid : State} {u v : Word}
    (h : Reads interpretation grammar index state u mid) :
    interpretation.strokesFrom grammar index state (u ++ v) =
      interpretation.strokesFrom grammar index state u ++
        interpretation.strokesFrom grammar (index + u.length) mid v := by
  induction h with
  | nil => rfl
  | @cons index state symbol rest last _ _ ih =>
    have hindex : index + (symbol :: rest).length = index + 1 + rest.length := by
      rw [List.length_cons]
      omega
    rw [List.cons_append, strokesFrom, strokesFrom, ih, hindex, List.append_assoc]

namespace Reads

/-- **A canvas shows the strokes of what was read**, behind what it showed before. -/
theorem shows {index : Nat} {state last : State} {word : Word}
    (h : Reads interpretation grammar index state word last) {pen : Pen}
    (hissued : Issued (pen.read state.commands) state) :
    Issued (pen.read last.commands) last ∧
      ∃ added, (pen.read last.commands).strokes.toList =
          (pen.read state.commands).strokes.toList ++ added ∧
        List.Forall₂ Stroke.Same added (interpretation.strokesFrom grammar index state word) := by
  induction h with
  | nil => exact ⟨hissued, [], (List.append_nil _).symm, .nil⟩
  | @cons index state symbol rest last _ _ ih =>
    obtain ⟨hnext, first, hfirst, hsame⟩ := obey_shows hissued interpretation.config grammar symbol
      index (interpretation.opFor grammar symbol)
    obtain ⟨hlast, later, hlater, hrest⟩ := ih hnext
    refine ⟨hlast, first ++ later, ?_, List.rel_append hsame hrest⟩
    rw [hlater, ← List.append_assoc]
    exact congrArg (· ++ later) hfirst

/-- What a blank canvas shows of a walk are the strokes of what the walk has read. -/
theorem shown {word : Word} {last : State}
    (h : Reads interpretation grammar 0 interpretation.begin word last) {outcome : Outcome}
    (hcommands : outcome.commands = last.commands) :
    List.Forall₂ Stroke.Same outcome.shown
      (interpretation.strokesFrom grammar 0 interpretation.begin word) := by
  obtain ⟨-, added, hadded, hsame⟩ := h.shows issued_begin
  rw [Outcome.shown_eq, hcommands, hadded]
  exact hsame

/-- The segments are the strokes. -/
theorem segments {index : Nat} {state last : State} {word : Word}
    (h : Reads interpretation grammar index state word last) :
    last.segments = state.segments + (interpretation.strokesFrom grammar index state word).length := by
  induction h with
  | nil => rfl
  | @cons index state symbol rest last _ _ ih =>
    have hstep : (interpretation.step grammar index state symbol).segments = state.segments +
        (strokes interpretation.config state.turtle (interpretation.opFor grammar symbol)).length := by
      rw [step, segments_obey]
      cases interpretation.opFor grammar symbol <;> rfl
    rw [ih, hstep, strokesFrom, List.length_append, Nat.add_assoc]

end Reads

end Interpretation

end LSystem.Walk
