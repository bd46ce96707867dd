import LSystem.Angle
import LSystem.Proofs.Binary.Range

/-! The range of sines and cosines.

Sines and cosines are at most one (`units_sin_le`, `units_cos_le`), and finite for finite angles: the
series they come from never leave the unit in fixed point, and rounding does not lead past it. -/
namespace LSystem.Angle

open Binary (oneUnits)
open scoped Binary

theorem series_le_one (square first terms : Nat) : series square first terms ≤ one := by
  cases terms with
  | zero => exact Nat.le_refl _
  | succ terms => exact Nat.sub_le _ _

theorem quarter_le : quarter ≤ 2 * one := by decide +kernel

theorem sinFirst_le_one (angle : Nat) : sinFirst angle ≤ one := by
  unfold sinFirst
  split
  · rename_i hangle
    have hseries := series_le_one ((angle * angle) >>> places) 2 terms
    have hquarter := quarter_le
    have hone : angle ≤ one := by omega
    rw [Nat.shiftRight_eq_div_pow]
    apply Nat.div_le_of_le_mul
    exact Nat.mul_le_mul hone hseries
  · exact series_le_one _ _ _

theorem sinAfter_le_one (quarters angle : Nat) : (sinAfter quarters angle).2 ≤ one := by
  unfold sinAfter
  split <;> exact sinFirst_le_one _

/-- What is at most one in fixed point is so as a number. -/
theorem nearest_ofFixed_le {value : Bool × Nat} (h : value.2 ≤ one) :
    Binary.Format.single.nearest (2 ^ Binary.Format.single.scale * value.2) one ≤ oneUnits :=
  Binary.Format.single.nearest_le_of_representable (Nat.two_pow_pos _) Binary.representable_oneUnits
    (Nat.mul_le_mul_left _ h)

theorem isFinite_ofFixed (turned : Bool) {value : Bool × Nat} (h : value.2 ≤ one) :
    (ofFixed turned value).isFinite = true := by
  rw [ofFixed, Binary.ofRatio, Binary.isFinite_round]
  exact Nat.lt_of_le_of_lt (nearest_ofFixed_le h) Binary.representable_oneUnits.1

theorem units_ofFixed_le (turned : Bool) {value : Bool × Nat} (h : value.2 ≤ one) :
    (ofFixed turned value).units ≤ oneUnits := by
  have hle := nearest_ofFixed_le h
  rw [ofFixed, Binary.ofRatio,
    Binary.units_round (Nat.lt_of_le_of_lt hle Binary.representable_oneUnits.1)]
  exact hle

theorem isFinite_sin {x : Single} (hx : x.isFinite = true) : (sin x).isFinite = true := by
  cases x with
  | finite negative units h => exact isFinite_ofFixed negative (sinAfter_le_one _ _)
  | _ => cases hx

theorem isFinite_cos {x : Single} (hx : x.isFinite = true) : (cos x).isFinite = true := by
  cases x with
  | finite negative units h => exact isFinite_ofFixed false (sinAfter_le_one _ _)
  | _ => cases hx

/-- **A sine is at most one.** -/
theorem units_sin_le (x : Single) : (sin x).units ≤ oneUnits := by
  cases x with
  | finite negative units h => exact units_ofFixed_le negative (sinAfter_le_one _ _)
  | _ => exact Nat.zero_le _

/-- **A cosine is at most one.** -/
theorem units_cos_le (x : Single) : (cos x).units ≤ oneUnits := by
  cases x with
  | finite negative units h => exact units_ofFixed_le false (sinAfter_le_one _ _)
  | _ => exact Nat.zero_le _

/-- A degree is less than one radian. -/
theorem isFinite_radians {degrees : Single} (h : degrees.isFinite = true) :
    (radians degrees).isFinite = true :=
  Binary.isFinite_mul h (by decide +kernel) (by decide +kernel)

end LSystem.Angle
