import LSystem.Proofs.Angle
import LSystem.Proofs.Walk.Lengths
import LSystem.Proofs.Walk.Rendering

/-! Finite geometry.

The lengths of strokes, their directions and the strokes made of them are finite wherever a walk
gets. A walk keeps two sums, though, the position and the heading of its turtle, and nothing stops it
when one of them leaves the format (`walk_overflows`). That is all that can happen: as long as no sum
overflows, every line is finite and so is the turtle at the end. And how large angle and strokes may be
is known exactly: below half the last step of the format no position and no heading can be left by
adding them, however long the walk, and from there on there is an origin or a heading from which a
single symbol leaves it (`standard_inRange`). -/
namespace LSystem

/-- Two finite numbers have a sum beyond the format. -/
def Binary.Overflows {f : Binary.Format} (x y : Binary f) : Prop :=
  x.isFinite = true ∧ y.isFinite = true ∧ (x + y).isFinite = false

instance {f : Binary.Format} (x y : Binary f) : Decidable (x.Overflows y) :=
  inferInstanceAs (Decidable (_ ∧ _ ∧ _))

theorem Binary.Small.not_overflows {f : Binary.Format} {y : Binary f} (h : y.Small) (x : Binary f) :
    ¬x.Overflows y := by
  rintro ⟨hx, hy, hsum⟩
  rw [isFinite_add hx hy h] at hsum
  cases hsum

theorem Point.isFinite_iff {p : Point} :
    p.isFinite = true ↔ p.x.isFinite = true ∧ p.y.isFinite = true := Bool.and_eq_true_iff

theorem Point.isFinite_add {p q : Point} (hp : p.isFinite = true) (hq : q.isFinite = true)
    (hx : ¬p.x.Overflows q.x) (hy : ¬p.y.Overflows q.y) : (p + q).isFinite = true := by
  rw [isFinite_iff] at hp hq ⊢
  constructor
  · by_contra hsum
    exact hx ⟨hp.1, hq.1, Bool.eq_false_iff.mpr hsum⟩
  · by_contra hsum
    exact hy ⟨hp.2, hq.2, Bool.eq_false_iff.mpr hsum⟩

namespace Turtle

/-- The vector of the next stroke. -/
def stroke (turtle : Turtle) : Point := turtle.direction.scale turtle.length

theorem stroke_x (turtle : Turtle) :
    turtle.stroke.x = Angle.cos (Angle.radians turtle.heading) * turtle.length := rfl

/-- Position and heading are finite. -/
structure InRange (turtle : Turtle) : Prop where
  position : turtle.position.isFinite = true
  heading : turtle.heading.isFinite = true

variable {turtle : Turtle}

theorem isFinite_stroke (hheading : turtle.heading.isFinite = true)
    (hlength : turtle.length.isFinite = true) : turtle.stroke.isFinite = true := by
  have hcos := Angle.isFinite_cos (Angle.isFinite_radians hheading)
  have hsin := Angle.isFinite_sin (Angle.isFinite_radians hheading)
  have hx := Binary.isFinite_mul hlength hcos (Angle.units_cos_le _)
  have hy := Binary.isFinite_mul hlength hsin (Angle.units_sin_le _)
  rw [Binary.mul_comm] at hx hy
  exact Point.isFinite_iff.mpr ⟨hx, hy⟩

/-- A stroke is no larger than its length in either coordinate. -/
theorem stroke_units_le (turtle : Turtle) :
    turtle.stroke.x.units ≤ turtle.length.units ∧ turtle.stroke.y.units ≤ turtle.length.units := by
  have hx := Binary.units_mul_le (x := turtle.length) (Angle.units_cos_le (Angle.radians turtle.heading))
  have hy := Binary.units_mul_le (x := turtle.length) (Angle.units_sin_le (Angle.radians turtle.heading))
  rw [Binary.mul_comm] at hx hy
  exact ⟨hx, hy⟩

/-- An operation adds to a coordinate or to the heading and leaves the format. -/
def Overflows (grammar : Grammar) (turtle : Turtle) : Op → Prop
  | .draw | .move =>
    turtle.position.x.Overflows turtle.stroke.x ∨ turtle.position.y.Overflows turtle.stroke.y
  | .turn factor => turtle.heading.Overflows (grammar.angle * factor)
  | _ => False

/-- The point ahead is finite unless a coordinate overflows on the way. -/
theorem InRange.isFinite_ahead (h : turtle.InRange) (hlength : turtle.length.isFinite = true)
    (hsafe : ¬(turtle.position.x.Overflows turtle.stroke.x ∨
      turtle.position.y.Overflows turtle.stroke.y)) : turtle.ahead.isFinite = true := by
  rw [not_or] at hsafe
  exact Point.isFinite_add h.position (isFinite_stroke h.heading hlength) hsafe.1 hsafe.2

/-- Small strokes and small angles lead nowhere out of the format. -/
theorem not_overflows_of_small {grammar : Grammar} (hlength : turtle.length.Small) {op : Op}
    (hangle : ∀ factor, op = .turn factor → (grammar.angle * factor).Small) :
    ¬turtle.Overflows grammar op := by
  obtain ⟨hx, hy⟩ := turtle.stroke_units_le
  have hstroke : ¬(turtle.position.x.Overflows turtle.stroke.x ∨
      turtle.position.y.Overflows turtle.stroke.y) := by
    rw [not_or]
    exact ⟨(hlength.of_units_le hx).not_overflows _, (hlength.of_units_le hy).not_overflows _⟩
  cases op with
  | draw => exact hstroke
  | move => exact hstroke
  | turn factor => exact (hangle factor rfl).not_overflows _
  | _ => exact id

end Turtle

namespace Walk

open Turtle (Op)

/-- The turtle and those saved are in range, and every line so far is finite. -/
structure InRange (state : State) : Prop where
  turtle : state.turtle.InRange
  saved : ∀ turtle ∈ state.saved, turtle.InRange
  lines : ∀ start stop, .line start stop ∈ state.commands →
    start.isFinite = true ∧ stop.isFinite = true

/-- Every line is finite, and so is the turtle at the end of a complete walk. -/
structure Outcome.InRange (outcome : Outcome) : Prop where
  lines : ∀ start stop, .line start stop ∈ outcome.commands →
    start.isFinite = true ∧ stop.isFinite = true
  final : ∀ summary, outcome.result = .ok summary →
    summary.finalState.InRange ∧ summary.finalState.length.isFinite = true

namespace InRange
variable {state : State} (h : InRange state)
include h

/-- Issuing a color draws no line. -/
theorem issue (color : Color) : InRange (state.issue color) := by
  obtain ⟨hturtle, hsaved, hlines⟩ := h
  unfold State.issue
  split
  · exact ⟨hturtle, hsaved, hlines⟩
  · refine ⟨hturtle, hsaved, fun start stop hline => ?_⟩
    rcases Array.mem_push.mp hline with hline | hline
    · exact hlines start stop hline
    · cases hline

theorem draw (defaultColor : Color) (hahead : state.turtle.ahead.isFinite = true) :
    InRange (state.draw defaultColor) := by
  obtain ⟨hturtle, hsaved, hlines⟩ := h.issue (state.turtle.color.getD defaultColor)
  refine ⟨⟨hahead, h.turtle.heading⟩, hsaved, fun start stop hline => ?_⟩
  rcases Array.mem_push.mp hline with hline | hline
  · exact hlines start stop hline
  · rw [State.issue_turtle] at hline
    cases hline
    exact ⟨h.turtle.position, hahead⟩

theorem push (length : Single) : InRange (state.push length) := by
  refine ⟨⟨h.turtle.position, h.turtle.heading⟩, fun turtle hmem => ?_, h.lines⟩
  rcases Array.mem_push.mp hmem with hmem | rfl
  · exact h.saved turtle hmem
  · exact h.turtle

theorem pop : InRange state.pop := by
  refine ⟨?_, fun turtle hmem => ?_, h.lines⟩
  · show (state.saved.back?.getD state.turtle).InRange
    cases hback : state.saved.back? with
    | none => exact h.turtle
    | some turtle => exact h.saved turtle (Array.mem_of_getElem? hback)
  · obtain ⟨place, hplace, rfl⟩ := Array.mem_iff_getElem.mp hmem
    simp only [State.pop, Array.getElem_pop]
    exact h.saved _ (Array.getElem_mem _)

/-- **A symbol keeps a walk in range unless a sum overflows.** -/
theorem obey {config : Config} {grammar : Grammar} (hlength : state.turtle.length.isFinite = true)
    (symbol : Symbol) (index : Nat) {op : Op}
    (hangle : ∀ factor, op = .turn factor → (grammar.angle * factor).isFinite = true)
    (hsafe : ¬state.turtle.Overflows grammar op) :
    InRange (obey config grammar symbol index state op) := by
  cases op with
  | draw => exact h.draw _ (h.turtle.isFinite_ahead hlength hsafe)
  | move => exact ⟨⟨h.turtle.isFinite_ahead hlength hsafe, h.turtle.heading⟩, h.saved, h.lines⟩
  | turn factor =>
    refine ⟨⟨h.turtle.position, ?_⟩, h.saved, h.lines⟩
    by_contra hsum
    exact hsafe ⟨h.turtle.heading, hangle factor rfl, Bool.eq_false_iff.mpr hsum⟩
  | push => exact h.push _
  | pop => exact h.pop
  | setColor =>
    simp only [Walk.obey]
    cases grammar.color? symbol with
    | none => exact ⟨h.turtle, h.saved, h.lines⟩
    | some color => exact ⟨⟨h.turtle.position, h.turtle.heading⟩, h.saved, h.lines⟩
  | ignore => exact h

end InRange

/-- Branches can be nested so deep: within the limit, and with finite strokes all the way. -/
def Config.Admits (config : Config) (depth : Nat) : Prop :=
  depth ≤ config.maxDepth ∧ ∀ shallower ≤ depth, (config.lengthAtDepth shallower).isFinite = true

namespace Interpretation

variable (interpretation : Interpretation) (grammar : Grammar)

/-- The symbol at an index makes a position or a heading leave the format. -/
def OverflowsAt (word : Word) (index : Nat) : Prop :=
  ∃ op, interpretation.opAt grammar word index = some op ∧
    (interpretation.stateAt grammar word index).turtle.Overflows grammar op

variable {interpretation grammar}

theorem Reads.isFinite_length (hvalid : interpretation.config.validate = .ok ()) {word : Word}
    {last : State} (h : Reads interpretation grammar 0 interpretation.begin word last) :
    last.turtle.length.isFinite = true := by
  have hmetered := h.metered hvalid
  rw [hmetered.turtle]
  exact (hmetered.amounts _ (Nat.le_refl _)).isFinite

/-- What was read without an overflow is in range. -/
theorem Reads.inRange (hvalid : interpretation.config.validate = .ok ())
    (hangle : ∀ symbol factor, interpretation.opFor grammar symbol = .turn factor →
      (grammar.angle * factor).isFinite = true) {read : Word} {last : State}
    (h : Reads interpretation grammar 0 interpretation.begin read last) (rest : Word)
    (hsafe : ∀ index < read.length, ¬interpretation.OverflowsAt grammar (read ++ rest) index) :
    InRange last := by
  obtain ⟨horigin, hheading, -, -⟩ := Config.validate_eq_ok_iff.mp hvalid
  -- For every rest, since an overflow is one at an index of the whole word.
  refine h.induction_begin (fun read mid => ∀ rest,
    (∀ index < read.length, ¬interpretation.OverflowsAt grammar (read ++ rest) index) → InRange mid)
    (fun _ _ => ?_) ?_ rest hsafe
  · exact ⟨⟨horigin, hheading⟩, fun _ hmem => absurd hmem (Array.not_mem_empty _),
      fun _ _ hline => absurd hline (Array.not_mem_empty _)⟩
  · intro read symbol mid hread hrange hstop rest hsafe
    rw [List.append_assoc, List.singleton_append, List.length_append, List.length_singleton] at hsafe
    have hlast := hsafe read.length (Nat.lt_succ_self _)
    refine (hrange (symbol :: rest) fun index hindex => hsafe index (Nat.lt_succ_of_lt hindex)).obey
      (hread.isFinite_length hvalid) symbol _ (hangle symbol) fun hoverflow =>
        hlast ⟨_, opAt_append read rest symbol, ?_⟩
    rw [hread.stateAt (symbol :: rest)]
    exact hoverflow

/-- **A walk without an overflow is in range.** -/
theorem walk_inRange (hvalid : interpretation.config.validate = .ok ())
    (hangle : ∀ symbol factor, interpretation.opFor grammar symbol = .turn factor →
      (grammar.angle * factor).isFinite = true) {word : Word}
    (hsafe : ∀ index < (interpretation.walk grammar word).reach word,
      ¬interpretation.OverflowsAt grammar word index) :
    (interpretation.walk grammar word).InRange := by
  rcases reads_or_stops interpretation grammar word with
    ⟨last, hread⟩ | ⟨read, symbol, rest, mid, fault, rfl, hread, hstop⟩
  · rw [walk_of_reads hvalid hread] at hsafe ⊢
    have hrange := hread.inRange hvalid hangle [] (by rwa [List.append_nil])
    refine ⟨hrange.lines, fun summary hsummary => ?_⟩
    cases hsummary
    exact ⟨hrange.turtle, hread.isFinite_length hvalid⟩
  · rw [reach_of_stops hvalid hread hstop] at hsafe
    rw [walk_of_stops hvalid hread hstop]
    have hrange := hread.inRange hvalid hangle (symbol :: rest) hsafe
    exact ⟨hrange.lines, fun summary hsummary => nomatch hsummary⟩

/-! ### The usual meanings -/

section Standard
variable {config : Config}

/-- The usual meanings turn by the angle of the grammar, one way or the other. -/
theorem turn_standard {symbol : Symbol} {factor : Single}
    (h : (standard config).opFor grammar symbol = .turn factor) : factor = 1 ∨ factor = -1 := by
  rw [opFor_standard] at h
  grind

theorem units_turn_le {symbol : Symbol} {factor : Single}
    (h : (standard config).opFor grammar symbol = .turn factor) :
    factor.isFinite = true ∧ factor.units ≤ Binary.oneUnits := by
  rcases turn_standard h with hfactor | hfactor <;> rw [hfactor]
  · exact ⟨by decide +kernel, by decide +kernel⟩
  · exact ⟨by decide +kernel, by decide +kernel⟩

theorem isFinite_turn (symbol : Symbol) (factor : Single)
    (h : (standard config).opFor grammar symbol = .turn factor) :
    (grammar.angle * factor).isFinite = true :=
  Binary.isFinite_mul grammar.angle_isFinite (units_turn_le h).1 (units_turn_le h).2

/-- Angle and strokes are small at every depth that a walk can get to. -/
structure Tame (config : Config) (grammar : Grammar) : Prop where
  angle : grammar.angle.Small
  lengths : ∀ depth, config.Admits depth → (config.lengthAtDepth depth).Small

/-- A walk gets to admitted depths only. -/
theorem Reads.admits (hvalid : interpretation.config.validate = .ok ()) {read : Word} {last : State}
    (h : Reads interpretation grammar 0 interpretation.begin read last) :
    interpretation.config.Admits last.saved.size :=
  ⟨h.size_le, fun depth hdepth => ((h.metered hvalid).amounts depth hdepth).isFinite⟩

/-- **Small angles and strokes never overflow.** -/
theorem Tame.not_overflowsAt (h : Tame config grammar) (hvalid : config.validate = .ok ())
    (word : Word) (index : Nat) : ¬(standard config).OverflowsAt grammar word index := by
  rintro ⟨op, hop, hoverflow⟩
  obtain ⟨symbol, -, rfl⟩ := Option.map_eq_some_iff.mp hop
  obtain ⟨read, hread⟩ := reads_stateAt (standard config) grammar word index
  have hlength : ((standard config).stateAt grammar word index).turtle.length.Small := by
    rw [(hread.metered hvalid).turtle]
    exact h.lengths _ (hread.admits hvalid)
  exact Turtle.not_overflows_of_small hlength
    (fun factor hfactor => h.angle.of_units_le (Binary.units_mul_le (units_turn_le hfactor).2))
    hoverflow

/-- With strokes that never grow, those outside of branches are the ones to look at. -/
theorem tame_of_one_le (hreduction : Binary.le 1 config.reduction = true)
    (hlength : config.length.Small) (hangle : grammar.angle.Small) : Tame config grammar :=
  ⟨hangle, fun depth _ => hlength.of_units_le (Config.lengthAtDepth_units_le hreduction depth)⟩

/-! ### Where the largest numbers stand -/

theorem validate_with {origin : Point} {heading : Single} (hvalid : config.validate = .ok ())
    (horigin : origin.isFinite = true) (hheading : heading.isFinite = true) :
    ({ config with origin, heading } : Config).validate = .ok () := by
  obtain ⟨-, -, hlength, hreduction⟩ := Config.validate_eq_ok_iff.mp hvalid
  exact Config.validate_eq_ok_iff.mpr ⟨horigin, hheading, hlength, hreduction⟩

/-- Branches can be opened down to every depth that is admitted. -/
theorem reads_openings (config : Config) (grammar : Grammar) {depth : Nat} (h : config.Admits depth) :
    ∃ last, Reads (standard config) grammar 0 (standard config).begin (List.replicate depth '[') last ∧
      last.saved.size = depth ∧ last.turtle.position = config.origin ∧
      last.turtle.heading = config.heading := by
  induction depth with
  | zero => exact ⟨_, .nil, rfl, rfl, rfl⟩
  | succ depth ih =>
    obtain ⟨hlimit, hfinite⟩ := h
    obtain ⟨last, hread, hsize, hposition, hheading⟩ := ih ⟨Nat.le_of_succ_le hlimit,
      fun shallower hle => hfinite shallower (Nat.le_succ_of_le hle)⟩
    have hop : (standard config).opFor grammar '[' = .push := by
      rw [opFor_standard]
      rfl
    have hstop : (standard config).stop? grammar (List.replicate depth '[').length last '[' = none := by
      rw [stop?, hop, hsize]
      exact fault?_push_eq_none_iff.mpr ⟨hlimit, hfinite _ (Nat.le_refl _)⟩
    refine ⟨(standard config).step grammar (List.replicate depth '[').length last '[', ?_, ?_, ?_, ?_⟩
    · rw [List.replicate_succ']
      exact hread.append (.cons hstop .nil)
    · rw [Interpretation.step, hop]
      exact (Array.size_push _).trans (congrArg (· + 1) hsize)
    · rw [Interpretation.step, hop]
      exact hposition
    · rw [Interpretation.step, hop]
      exact hheading

/-- From the largest heading, a large angle leads out of the format. -/
theorem not_inRange_of_angle (hvalid : config.validate = .ok ()) {negative : Bool} {units : Nat}
    {h : Binary.Format.single.Representable units} (hangle : grammar.angle = .finite negative units h)
    (hlarge : ¬grammar.angle.Small) (hheading : config.heading = Binary.largest negative) :
    ¬((standard config).walk grammar ['+']).InRange := by
  have hop : (standard config).opFor grammar '+' = .turn 1 := by
    rw [opFor_standard]
    rfl
  have hstop : (standard config).stop? grammar 0 (standard config).begin '+' = none := by
    rw [stop?, hop]
    rfl
  intro hrange
  rw [walk_of_reads hvalid (.cons hstop .nil)] at hrange
  have hsum := (hrange.final _ rfl).1.heading
  rw [Interpretation.step, hop] at hsum
  change (config.heading + grammar.angle * 1).isFinite = true at hsum
  rw [hangle] at hlarge
  rw [Binary.mul_one grammar.angle_isFinite, hheading, hangle, Binary.largest_add h hlarge] at hsum
  cases hsum

/-- From the largest coordinate, a large stroke along the first axis leads out of the format. -/
theorem not_inRange_of_length (hvalid : config.validate = .ok ()) {depth : Nat}
    (hdepth : config.Admits depth) (hlarge : ¬(config.lengthAtDepth depth).Small)
    (horigin : config.origin.x = Binary.largest false) (hheading : config.heading = 0) :
    ¬((standard config).walk grammar (List.replicate depth '[' ++ ['F'])).InRange := by
  obtain ⟨last, hread, hsize, hposition, hturned⟩ := reads_openings config grammar hdepth
  have hop : (standard config).opFor grammar 'F' = .draw := by
    rw [opFor_standard]
    rfl
  have hstop : (standard config).stop? grammar (List.replicate depth '[').length last 'F' = none := by
    rw [stop?, hop]
    rfl
  intro hrange
  rw [walk_of_reads hvalid (hread.append (.cons hstop .nil))] at hrange
  have hsum := (Point.isFinite_iff.mp (hrange.final _ rfl).1.position).1
  rw [Interpretation.step, hop] at hsum
  change (last.turtle.position.x + last.turtle.stroke.x).isFinite = true at hsum
  have hlength : last.turtle.length = config.lengthAtDepth depth := by
    rw [(hread.metered hvalid).turtle, hsize]
    rfl
  have hamount := Config.amount_lengthAtDepth hvalid (hdepth.2 depth (Nat.le_refl _))
  have hcos : Angle.cos (Angle.radians 0) = 1 := by decide +kernel
  have hstroke : last.turtle.stroke.x = config.lengthAtDepth depth := by
    rw [Turtle.stroke_x, hturned, hheading, hcos, hlength, Binary.one_mul hamount.isFinite]
  rw [hposition, horigin, hstroke] at hsum
  obtain ⟨negative, hunits, heq, hsign⟩ := hamount.exists_finite
  cases negative with
  | false =>
    rw [heq] at hlarge hsum
    rw [Binary.largest_add hunits hlarge] at hsum
    cases hsum
  | true =>
    refine hlarge ?_
    rw [Binary.Small, hsign rfl]
    exact Nat.two_pow_pos _

/-- **What is finite about a walk.** Under the usual meanings and an accepted configuration a walk
draws finite lines only and leaves a finite turtle as long as no symbol it reads makes a coordinate or
the heading overflow, and the length at its end is finite in any case. Nothing overflows from any
finite origin and heading, on any word, exactly if the angle of the grammar and the strokes at every
admitted depth are below half the last step of the format. -/
theorem standard_inRange (config : Config) (grammar : Grammar)
    (hvalid : config.validate = .ok ()) :
    (∀ word, (∀ index < ((standard config).walk grammar word).reach word,
        ¬(standard config).OverflowsAt grammar word index) →
      ((standard config).walk grammar word).InRange) ∧
    (∀ word summary, ((standard config).walk grammar word).result = .ok summary →
      summary.finalState.length.isFinite = true) ∧
    ((∀ origin heading, origin.isFinite = true → heading.isFinite = true →
        ∀ word, ((standard { config with origin, heading }).walk grammar word).InRange) ↔
      Tame config grammar) := by
  refine ⟨fun word => walk_inRange hvalid isFinite_turn, fun word summary hsummary => ?_, ?_, ?_⟩
  · obtain ⟨-, last, hread⟩ := reads_of_ok hsummary
    rw [walk_of_reads hvalid hread] at hsummary
    cases hsummary
    exact hread.isFinite_length hvalid
  · intro hrange
    constructor
    · -- A walk that turns once, from the largest heading of the sign of the angle.
      by_contra hlarge
      have hfinite := grammar.angle_isFinite
      cases hangle : grammar.angle with
      | finite negative units h =>
        have horigin := (Config.validate_eq_ok_iff.mp hvalid).1
        have hheading := Binary.isFinite_largest negative
        exact not_inRange_of_angle (validate_with hvalid horigin hheading) hangle hlarge rfl
          (hrange _ _ horigin hheading _)
      | _ =>
        rw [hangle] at hfinite
        cases hfinite
    · -- A walk that opens branches down to the depth and draws there, from the largest coordinate.
      intro depth hdepth
      by_contra hlarge
      have horigin : (⟨Binary.largest false, 0⟩ : Point).isFinite = true := by decide +kernel
      have hheading : (0 : Single).isFinite = true := by decide +kernel
      exact not_inRange_of_length (validate_with hvalid horigin hheading) hdepth hlarge rfl rfl
        (hrange _ _ horigin hheading _)
  · intro htame origin heading horigin hheading word
    have hvalid' := validate_with hvalid horigin hheading
    have htame' : Tame { config with origin, heading } grammar := ⟨htame.angle, htame.lengths⟩
    exact walk_inRange hvalid' isFinite_turn fun index _ => htame'.not_overflowsAt hvalid' word index

theorem standard_inRange_twig :
    (({} : Config).validate = .ok () ∧ Tame {} twig) ∧
      ∀ word, ((standard {}).walk twig word).InRange := by
  have hvalid : ({} : Config).validate = .ok () := Config.validate_eq_ok_iff.mpr (by decide +kernel)
  have htame : Tame {} twig :=
    tame_of_one_le (by decide +kernel) (by decide +kernel) (by decide +kernel)
  obtain ⟨horigin, hheading, -⟩ := Config.validate_eq_ok_iff.mp hvalid
  exact ⟨⟨hvalid, htame⟩,
    fun word => (standard_inRange {} twig hvalid).2.2.mpr htame _ _ horigin hheading word⟩

/-- **A walk can leave the format**: the second of two strokes along the first axis does, although
both have a finite length. -/
theorem walk_overflows :
    let config : Config := { heading := 0, length := 2 ^ 127 }
    let outcome := (standard config).walk twig ['F', 'F']
    let beyond : Point := ⟨.infinite false, 0⟩
    config.validate = .ok () ∧
      .line ⟨2 ^ 127, 0⟩ beyond ∈ outcome.commands ∧
      outcome.result = .ok ⟨2, 0, { position := beyond, heading := 0, length := 2 ^ 127 }⟩ := by
  intro config outcome beyond
  exact ⟨Config.validate_eq_ok_iff.mpr (by decide +kernel), by decide +kernel, by decide +kernel⟩

end Standard

end Interpretation

end Walk

end LSystem
