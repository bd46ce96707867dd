import LSystem.Proofs.Binary.Opposites
import LSystem.Proofs.Walk.Canvases
import LSystem.Proofs.Walk.Outcome

/-! Walks in a mirror.

A walk from the mirrored origin, along the opposite heading and with the opposite angle, is the mirror
image of the walk: it stops for the same reason or comes to the same counts, sends the same colors at
the same places, and draws every line with the same first and the opposite second coordinates
(`outcome_mirror`). Cosine is even and sine is odd, so what is left is that no operation tells apart
numbers that are opposite but for the sign of zero, and that holds of the turtle and of every saved
one from symbol to symbol (`State.Mirrored`). -/
namespace LSystem

/-- Arrays related pairwise stay so with related items behind. -/
theorem forall₂_push {α β : Type} {R : α → β → Prop} {items : Array α} {others : Array β}
    (h : List.Forall₂ R items.toList others.toList) {item : α} {other : β} (hlast : R item other) :
    List.Forall₂ R (items.push item).toList (others.push other).toList := by
  rw [Array.toList_push, Array.toList_push]
  exact List.rel_append h (.cons hlast .nil)

/-! ### Opposite headings -/

namespace Angle

open Binary (zero)

theorem opposite_sin {x y : Single} (h : x.Opposite y) : (sin x).Opposite (sin y) := by
  rcases Binary.opposite_iff.mp h with rfl | ⟨a, b, rfl, rfl⟩
  · rw [sin_neg]
    exact Binary.opposite_neg _
  · have hzero (negative : Bool) : sin (zero negative) = zero negative := by
      cases negative <;> decide +kernel
    rw [hzero, hzero]
    exact Binary.opposite_iff.mpr (.inr ⟨a, b, rfl, rfl⟩)

theorem cos_of_opposite {x y : Single} (h : x.Opposite y) : cos y = cos x := by
  rcases Binary.opposite_iff.mp h with rfl | ⟨a, b, rfl, rfl⟩
  · exact cos_neg x
  · rfl

theorem opposite_radians {x y : Single} (h : x.Opposite y) : (radians x).Opposite (radians y) :=
  h.mul degree

end Angle

/-! ### Mirrored turtles -/

/-- The first coordinates are equal and the second ones opposite. -/
structure Point.Mirrored (p q : Point) : Prop where
  x : q.x = p.x
  y : p.y.Opposite q.y

/-- The turtles stand at mirrored points with opposite headings, and are the same otherwise. -/
structure Turtle.Mirrored (s t : Turtle) : Prop where
  position : s.position.Mirrored t.position
  heading : s.heading.Opposite t.heading
  length : t.length = s.length
  color : t.color = s.color

namespace Turtle.Mirrored

variable {s t : Turtle}

theorem ahead (h : s.Mirrored t) : s.ahead.Mirrored t.ahead := by
  have hradians := Angle.opposite_radians h.heading
  -- Only the sine sees the heading's sign, so first coordinates are equal and not just of one value.
  constructor
  · show t.position.x + Angle.cos (Angle.radians t.heading) * t.length =
      s.position.x + Angle.cos (Angle.radians s.heading) * s.length
    rw [h.position.x, h.length, Angle.cos_of_opposite hradians]
  · show (s.position.y + Angle.sin (Angle.radians s.heading) * s.length).Opposite
      (t.position.y + Angle.sin (Angle.radians t.heading) * t.length)
    rw [h.length]
    exact h.position.y.add ((Angle.opposite_sin hradians).mul s.length)

theorem forward (h : s.Mirrored t) : s.forward.Mirrored t.forward :=
  ⟨h.ahead, h.heading, h.length, h.color⟩

theorem turn (h : s.Mirrored t) {degrees degrees' : Single} (hdegrees : degrees.Opposite degrees') :
    (s.turn degrees).Mirrored (t.turn degrees') :=
  ⟨h.position, h.heading.add hdegrees, h.length, h.color⟩

theorem withLength (h : s.Mirrored t) (length : Single) :
    Mirrored { s with length } { t with length } :=
  ⟨h.position, h.heading, rfl, h.color⟩

theorem withColor (h : s.Mirrored t) (color : Option Color) :
    Mirrored { s with color } { t with color } :=
  ⟨h.position, h.heading, h.length, rfl⟩

end Turtle.Mirrored

/-- The same color, or mirrored lines. -/
inductive Command.Mirrored : Command → Command → Prop where
  | setColor (color : Color) : Mirrored (.setColor color) (.setColor color)
  | line {start stop start' stop' : Point} : start.Mirrored start' → stop.Mirrored stop' →
      Mirrored (.line start stop) (.line start' stop')

/-- The grammar that turns the other way. -/
def Grammar.mirror (grammar : Grammar) : Grammar :=
  { grammar with
    angle := -grammar.angle
    angle_isFinite := (Binary.isFinite_neg _).trans grammar.angle_isFinite }

end LSystem

namespace LSystem.Walk

open Turtle (Op)

/-- The configuration with origin and heading in the mirror. -/
def Config.mirror (config : Config) : Config :=
  { config with
    origin := ⟨config.origin.x, -config.origin.y⟩
    heading := -config.heading }

/-- The interpretation with its configuration in the mirror. -/
def Interpretation.mirror (interpretation : Interpretation) : Interpretation :=
  { interpretation with config := interpretation.config.mirror }

/-- The task in the mirror, along the same word. -/
def Task.mirror (task : Task) : Task where
  interpretation := task.interpretation.mirror
  grammar := task.grammar.mirror
  word := task.word

theorem Config.validate_mirror {config : Config} (hvalid : config.validate = .ok ()) :
    config.mirror.validate = .ok () := by
  obtain ⟨horigin, hheading, hlength, hreduction⟩ := Config.validate_eq_ok_iff.mp hvalid
  refine Config.validate_eq_ok_iff.mpr ⟨?_, (Binary.isFinite_neg _).trans hheading, hlength, hreduction⟩
  show (config.origin.x.isFinite && (-config.origin.y).isFinite) = true
  rw [Binary.isFinite_neg]
  exact horigin

/-! ### Mirrored walks -/

/-- Walks under way that are each other's mirror image. -/
structure State.Mirrored (s t : State) : Prop where
  turtle : s.turtle.Mirrored t.turtle
  saved : List.Forall₂ Turtle.Mirrored s.saved.toList t.saved.toList
  issued : t.issued = s.issued
  segments : t.segments = s.segments
  maxDepth : t.maxDepth = s.maxDepth
  commands : List.Forall₂ Command.Mirrored s.commands.toList t.commands.toList
  log : t.log = s.log

namespace State.Mirrored

variable {s t : State}

theorem size_saved (h : s.Mirrored t) : t.saved.size = s.saved.size := by
  rw [← Array.length_toList, ← Array.length_toList, h.saved.length_eq]

/-- The innermost saved turtles are mirrored, or the present ones if none is saved. -/
theorem back (h : s.Mirrored t) :
    (s.saved.back?.getD s.turtle).Mirrored (t.saved.back?.getD t.turtle) := by
  -- The last items are the first ones in reverse, and those the relation of lists gives by cases.
  have hlast (saved : Array Turtle) : saved.back? = saved.toList.reverse.head? := by
    rw [List.head?_reverse, List.getLast?_eq_getElem?, Array.back?_eq_getElem?, Array.length_toList,
      Array.getElem?_toList]
  have hsaved := List.rel_reverse h.saved
  rw [hlast, hlast]
  generalize s.saved.toList.reverse = saved at hsaved ⊢
  generalize t.saved.toList.reverse = saved' at hsaved ⊢
  cases hsaved with
  | nil => exact h.turtle
  | cons hfirst _ => exact hfirst

theorem issue (h : s.Mirrored t) (color : Color) : (s.issue color).Mirrored (t.issue color) := by
  unfold State.issue
  rw [h.issued]
  split
  · exact h
  · exact { h with issued := rfl, commands := forall₂_push h.commands (.setColor color) }

theorem draw (h : s.Mirrored t) (color : Color) : (s.draw color).Mirrored (t.draw color) := by
  have hissue := h.issue (s.turtle.color.getD color)
  rw [State.draw, State.draw, h.turtle.color]
  refine { hissue with turtle := h.turtle.forward, segments := ?_, commands := ?_ }
  · exact congrArg (· + 1) hissue.segments
  · rw [State.issue_turtle, State.issue_turtle]
    exact forall₂_push hissue.commands (.line h.turtle.position h.turtle.ahead)

theorem push (h : s.Mirrored t) (length : Single) : (s.push length).Mirrored (t.push length) := by
  have hdepth : max t.maxDepth (t.saved.size + 1) = max s.maxDepth (s.saved.size + 1) := by
    rw [h.maxDepth, h.size_saved]
  exact { h with
    turtle := h.turtle.withLength length
    saved := forall₂_push h.saved h.turtle
    maxDepth := hdepth }

theorem pop (h : s.Mirrored t) : s.pop.Mirrored t.pop := by
  refine { h with turtle := h.back, saved := ?_ }
  show List.Forall₂ _ s.saved.pop.toList t.saved.pop.toList
  rw [Array.toList_pop, Array.toList_pop, List.dropLast_eq_take, List.dropLast_eq_take,
    h.saved.length_eq]
  exact List.forall₂_take _ h.saved

theorem setColor (h : s.Mirrored t) (symbol : Symbol) (index : Nat) (color : Option Color) :
    (s.setColor symbol index color).Mirrored (t.setColor symbol index color) := by
  cases color with
  | none => exact { h with log := congrArg (Array.push · _) h.log }
  | some color => exact { h with turtle := h.turtle.withColor color }

/-- **A symbol obeyed in the mirror is the mirror image of the symbol obeyed.** -/
theorem obey (h : s.Mirrored t) (config : Config) (grammar : Grammar) (symbol : Symbol) (index : Nat)
    (op : Op) : (obey config grammar symbol index s op).Mirrored
      (obey config.mirror grammar.mirror symbol index t op) := by
  cases op with
  | draw => exact h.draw config.defaultColor
  | move => exact { h with turtle := h.turtle.forward }
  | turn factor =>
    exact { h with turtle := h.turtle.turn ((Binary.opposite_neg grammar.angle).mul factor) }
  | push =>
    simp only [Walk.obey, h.size_saved]
    exact h.push (config.lengthAtDepth (s.saved.size + 1))
  | pop => exact h.pop
  | setColor => exact h.setColor symbol index (grammar.color? symbol)
  | ignore => exact h

end State.Mirrored

/-- Summaries of the same counts with mirrored turtles. -/
structure Summary.Mirrored (a b : Summary) : Prop where
  segments : b.segments = a.segments
  maxDepth : b.maxDepth = a.maxDepth
  finalState : a.finalState.Mirrored b.finalState

/-- Walks that stop for the same reason or come to mirrored summaries, with mirrored commands and the
same log. -/
structure Outcome.Mirrored (a b : Outcome) : Prop where
  result : (∃ fault, a.result = .error fault ∧ b.result = .error fault) ∨
    ∃ first second, a.result = .ok first ∧ b.result = .ok second ∧ first.Mirrored second
  commands : List.Forall₂ Command.Mirrored a.commands.toList b.commands.toList
  log : b.log = a.log

namespace Interpretation

variable {interpretation : Interpretation} {grammar : Grammar} {s t : State}

theorem mirrored_begin (interpretation : Interpretation) :
    interpretation.begin.Mirrored interpretation.mirror.begin :=
  ⟨⟨⟨rfl, Binary.opposite_neg _⟩, Binary.opposite_neg _, rfl, rfl⟩, .nil, rfl, rfl, rfl, .nil, rfl⟩

theorem stop?_mirror (h : s.Mirrored t) (index : Nat) (symbol : Symbol) :
    interpretation.mirror.stop? grammar.mirror index t symbol =
      interpretation.stop? grammar index s symbol := by
  rw [stop?, h.size_saved]
  rfl

theorem step_mirror (h : s.Mirrored t) (index : Nat) (symbol : Symbol) :
    (interpretation.step grammar index s symbol).Mirrored
      (interpretation.mirror.step grammar.mirror index t symbol) :=
  h.obey interpretation.config grammar symbol index (interpretation.opFor grammar symbol)

theorem closing_mirror (h : s.Mirrored t) : closing t = closing s := by
  have hempty : t.saved.isEmpty = s.saved.isEmpty :=
    congrArg (fun size => decide (size = 0)) h.size_saved
  rw [closing, closing, hempty, h.size_saved, h.segments, h.maxDepth, h.log]

/-- **Walks from mirrored states end in mirrored states**, for the same reason. -/
theorem walkFrom_mirror (grammar : Grammar) (h : s.Mirrored t) (index : Nat) (word : Word) :
    ∃ a b stop, interpretation.walkFrom grammar index s word = (a, stop) ∧
      interpretation.mirror.walkFrom grammar.mirror index t word = (b, stop) ∧ a.Mirrored b := by
  have hstop {s t : State} (h : s.Mirrored t) (index : Nat) (symbol : Symbol) :
      interpretation.mirror.stop? grammar.mirror (index + 0) t symbol =
        (interpretation.stop? grammar index s symbol).map id := by
    rw [Option.map_id]
    exact stop?_mirror h index symbol
  obtain ⟨-, a, b, stop, hs, ht, hab, -, -⟩ := walkFrom_related hstop step_mirror h index word
  rw [Option.map_id] at ht
  exact ⟨a, b, stop, hs, ht, hab⟩

end Interpretation

namespace Task

open Interpretation

/-- **A walk in the mirror is the mirror image of the walk.** From the mirrored origin, along the
opposite heading and with the opposite angle, a word leads to the same error or to the same counts with
the opposite heading, and to the same commands up to the second coordinates of lines, which are
opposite. -/
theorem outcome_mirror (task : Task) (hvalid : task.interpretation.config.validate = .ok ()) :
    task.outcome.Mirrored task.mirror.outcome := by
  have hvalid' : task.mirror.interpretation.config.validate = .ok () := Config.validate_mirror hvalid
  obtain ⟨a, b, stop, ha, hb, hab⟩ :=
    walkFrom_mirror task.grammar (mirrored_begin task.interpretation) 0 task.word
  cases stop with
  | some fault =>
    have hplain : task.outcome = _ := walk_of_fault hvalid ha
    have hmirror : task.mirror.outcome = _ := walk_of_fault hvalid' hb
    rw [hplain, hmirror]
    exact ⟨.inl ⟨fault, rfl, rfl⟩, hab.commands, hab.log⟩
  | none =>
    have hplain : task.outcome = _ := walk_of_reads hvalid (walkFrom_eq_none_iff.mp ha)
    have hmirror : task.mirror.outcome = _ := walk_of_reads hvalid' (walkFrom_eq_none_iff.mp hb)
    rw [hplain, hmirror]
    exact ⟨.inr ⟨_, _, rfl, rfl, hab.segments, hab.maxDepth, hab.turtle⟩, hab.commands,
      closing_mirror hab⟩

/-- A branch on the way along the first axis, and a turn at the end. -/
theorem outcome_mirror_branch :
    let task : Task := ⟨standard { origin := ⟨1, 2⟩, heading := 0 }, twig, "F[1+F]-".toList⟩
    task.interpretation.config.validate = .ok () ∧
      task.outcome.Mirrored task.mirror.outcome ∧
      task.outcome.result = .ok ⟨2, 1, { position := ⟨11, 2⟩, heading := -90, length := 10 }⟩ ∧
      task.mirror.outcome.result = .ok ⟨2, 1, { position := ⟨11, -2⟩, heading := 90, length := 10 }⟩ := by
  intro task
  have hvalid : task.interpretation.config.validate = .ok () :=
    Config.validate_eq_ok_iff.mpr (by decide +kernel)
  exact ⟨hvalid, outcome_mirror task hvalid, by decide +kernel, by decide +kernel⟩

end Task

end LSystem.Walk
