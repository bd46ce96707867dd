import LSystem.Proofs.Binary.Powers
import LSystem.Walk.Config

/-! Stroke lengths of accepted configurations.

What `validate` accepts has a finite positive length and a finite positive reduction. Outside of
branches strokes have that length itself (`lengthAtDepth_zero`), and a finite length is nowhere below
zero (`amount_lengthAtDepth`). A reduction from one up has only powers from one up, however they are
rounded and even when they are infinite, and dividing by such a power keeps the length finite
(`lengthAtDepth_isFinite`). The powers are in the order of the depths, so strokes only get shorter
with the depth, or only longer (`lengthAtDepth_le`, `le_lengthAtDepth`). -/
namespace LSystem.Walk.Config

variable {config : Config}

theorem validate_eq_ok_iff : config.validate = .ok () ↔
    config.origin.isFinite = true ∧ config.heading.isFinite = true ∧
      isPositive config.length = true ∧ isPositive config.reduction = true := by
  unfold validate
  cases config.origin.isFinite <;> cases config.heading.isFinite <;>
    cases isPositive config.length <;> cases isPositive config.reduction <;> simp

theorem isFinite_of_isPositive {x : Single} (h : isPositive x = true) : x.isFinite = true := by
  rw [isPositive, Bool.and_eq_true] at h
  exact h.1

theorem unsigned_of_isPositive {x : Single} (h : isPositive x = true) : x.Unsigned := by
  obtain ⟨hfinite, hpos⟩ := Bool.and_eq_true_iff.mp h
  cases x with
  | nan => cases hfinite
  | infinite negative => cases hfinite
  | finite negative units hunits =>
    obtain ⟨zero, rank, hzero, hrank, hlt⟩ := Binary.lt_iff.mp hpos
    rw [Binary.amount_zero.rank?_eq, Binary.units_zero] at hzero
    cases hzero
    cases hrank
    cases negative with
    | false => rfl
    | true =>
      rw [Binary.signed, if_pos rfl] at hlt
      omega

/-- Outside of branches strokes have the length that was configured. -/
theorem lengthAtDepth_zero (hvalid : config.validate = .ok ()) :
    config.lengthAtDepth 0 = config.length := by
  obtain ⟨-, -, hlength, -⟩ := validate_eq_ok_iff.mp hvalid
  rw [lengthAtDepth, Nat.zero_min, Binary.pow_zero]
  exact Binary.div_one (isFinite_of_isPositive hlength)

/-- A stroke length that is finite is not below zero. -/
theorem amount_lengthAtDepth (hvalid : config.validate = .ok ()) {depth : Nat}
    (hfinite : (config.lengthAtDepth depth).isFinite = true) :
    Binary.Amount (config.lengthAtDepth depth) := by
  obtain ⟨-, -, hlength, hreduction⟩ := validate_eq_ok_iff.mp hvalid
  exact ((unsigned_of_isPositive hlength).div ((unsigned_of_isPositive hreduction).pow _)).amount
    hfinite

/-- With a reduction from one up, strokes have a finite length at every depth. -/
theorem lengthAtDepth_isFinite (hvalid : config.validate = .ok ())
    (hreduction : Binary.le 1 config.reduction = true) (depth : Nat) :
    (config.lengthAtDepth depth).isFinite = true := by
  obtain ⟨-, -, hlength, -⟩ := validate_eq_ok_iff.mp hvalid
  exact Binary.isFinite_div (isFinite_of_isPositive hlength) (Binary.one_le_pow hreduction _)

/-- With a reduction from one up, strokes are nowhere longer than outside of branches. -/
theorem lengthAtDepth_units_le (hreduction : Binary.le 1 config.reduction = true) (depth : Nat) :
    (config.lengthAtDepth depth).units ≤ config.length.units :=
  Binary.units_div_le (Binary.one_le_pow hreduction _)

/-! ### Lengths at different depths -/

/-- What is accepted as a length or a reduction is a positive magnitude. -/
theorem exists_of_isPositive {x : Single} (h : isPositive x = true) :
    ∃ units hunits, x = .finite false units hunits ∧ 0 < units := by
  have hfinite := isFinite_of_isPositive h
  have hunsigned := unsigned_of_isPositive h
  have hpos := (hunsigned.amount hfinite).pos_iff.mp (Bool.and_eq_true_iff.mp h).2
  cases x with
  | nan => cases hfinite
  | infinite negative => cases hfinite
  | finite negative units hunits =>
    have hsign : negative = false := hunsigned
    subst hsign
    exact ⟨units, hunits, rfl, hpos⟩

theorem extent_of_isPositive {x : Single} (h : isPositive x = true) : Binary.Extent x := by
  obtain ⟨units, hunits, rfl, -⟩ := exists_of_isPositive h
  exact Binary.extent_finite hunits

/-- A reduction is at least one or at most one. -/
theorem reduction_total (hvalid : config.validate = .ok ()) :
    Binary.le 1 config.reduction = true ∨ Binary.le config.reduction 1 = true := by
  obtain ⟨-, -, -, hreduction⟩ := validate_eq_ok_iff.mp hvalid
  have hextent := extent_of_isPositive hreduction
  rw [Binary.extent_one.le_iff hextent, hextent.le_iff Binary.extent_one]
  exact Nat.le_total _ _

/-- The powers of a reduction are numbers without a sign. -/
theorem extent_pow (hvalid : config.validate = .ok ()) (exponent : Nat) :
    Binary.Extent (config.reduction ^ exponent) := by
  obtain ⟨-, -, -, hreduction⟩ := validate_eq_ok_iff.mp hvalid
  rcases reduction_total hvalid with hup | hdown
  · exact Binary.extent_of_one_le (Binary.one_le_pow hup exponent)
  · have hbase : Binary.UpToOne config.reduction := ⟨extent_of_isPositive hreduction, hdown⟩
    exact (Binary.pow_induction (motive := Binary.UpToOne) Binary.orderedFactors_down.one hbase
      Binary.UpToOne.mul exponent).extent

/-- At every depth strokes have a length, which is not below zero but may be infinite. -/
theorem extent_lengthAtDepth (hvalid : config.validate = .ok ()) (depth : Nat) :
    Binary.Extent (config.lengthAtDepth depth) := by
  obtain ⟨-, -, hlength, -⟩ := validate_eq_ok_iff.mp hvalid
  obtain ⟨units, hunits, heq, hpos⟩ := exists_of_isPositive hlength
  rw [lengthAtDepth, heq]
  exact Binary.extent_div hpos hunits (extent_pow hvalid _)

/-- Strokes are in the order that their powers are not. -/
theorem lengthAtDepth_le_of_pow_le (hvalid : config.validate = .ok ()) {d e : Nat}
    (h : Binary.le (config.reduction ^ min d exponentLimit)
      (config.reduction ^ min e exponentLimit) = true) :
    Binary.le (config.lengthAtDepth e) (config.lengthAtDepth d) = true := by
  obtain ⟨-, -, hlength, -⟩ := validate_eq_ok_iff.mp hvalid
  obtain ⟨units, hunits, heq, hpos⟩ := exists_of_isPositive hlength
  rw [lengthAtDepth, lengthAtDepth, heq]
  exact Binary.div_le_div hpos hunits (extent_pow hvalid _) (extent_pow hvalid _) h

theorem min_exponentLimit_le {d e : Nat} (h : d ≤ e) : min d exponentLimit ≤ min e exponentLimit := by
  omega

/-- With a reduction from one up, deeper strokes are not longer. -/
theorem lengthAtDepth_le (hvalid : config.validate = .ok ())
    (hreduction : Binary.le 1 config.reduction = true) {d e : Nat} (h : d ≤ e) :
    Binary.le (config.lengthAtDepth e) (config.lengthAtDepth d) = true :=
  lengthAtDepth_le_of_pow_le hvalid (Binary.pow_le_pow hreduction (min_exponentLimit_le h))

/-- With a reduction up to one, deeper strokes are not shorter. -/
theorem le_lengthAtDepth (hvalid : config.validate = .ok ())
    (hreduction : Binary.le config.reduction 1 = true) {d e : Nat} (h : d ≤ e) :
    Binary.le (config.lengthAtDepth d) (config.lengthAtDepth e) = true := by
  obtain ⟨-, -, -, hpositive⟩ := validate_eq_ok_iff.mp hvalid
  exact lengthAtDepth_le_of_pow_le hvalid
    (Binary.pow_le_pow_of_le_one ⟨extent_of_isPositive hpositive, hreduction⟩
      (min_exponentLimit_le h))

end LSystem.Walk.Config
