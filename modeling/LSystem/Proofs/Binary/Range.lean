import LSystem.Proofs.Binary.Amount

/-! The range of results.

Signs of products and quotients come from the signs of their parts alone, so what is made of numbers
without a sign has none (`Unsigned`). A product with a factor of at most one is no larger than the
other factor (`units_mul_le`). A sum can leave the format, but not while one of its terms is less
than half the distance of the largest magnitudes (`isFinite_add`): the largest number absorbs such a
term. It absorbs no other (`largest_add`). A wider format keeps all that a narrower one keeps, so a
number comes back from it as it was (`convert_convert`). -/
namespace LSystem.Binary

variable {f : Format}

/-! ### Signs -/

/-- Without a sign, if a number at all. -/
def Unsigned : Binary f → Prop
  | .nan => True
  | .infinite negative => negative = false
  | .finite negative _ _ => negative = false

theorem unsigned_round (num den : Nat) : (round false num den : Binary f).Unsigned := by
  simp only [round]
  split <;> rfl

theorem Unsigned.mul {x y : Binary f} (hx : x.Unsigned) (hy : y.Unsigned) : (x * y).Unsigned := by
  show (Binary.mul x y).Unsigned
  cases x <;> cases y <;> simp only [Unsigned] at hx hy <;> subst_vars <;> simp only [Binary.mul]
  case infinite.infinite => rfl
  case infinite.finite => split <;> trivial
  case finite.infinite => split <;> trivial
  case finite.finite => exact unsigned_round _ _
  all_goals trivial

theorem Unsigned.div {x y : Binary f} (hx : x.Unsigned) (hy : y.Unsigned) : (x / y).Unsigned := by
  show (Binary.div x y).Unsigned
  cases x <;> cases y <;> simp only [Unsigned] at hx hy <;> subst_vars <;> simp only [Binary.div]
  case infinite.finite => rfl
  case finite.infinite => rfl
  case finite.finite =>
    split
    · split <;> trivial
    · exact unsigned_round _ _
  all_goals trivial

theorem Unsigned.pow {x : Binary f} (hx : x.Unsigned) (exponent : Nat) : (x ^ exponent).Unsigned :=
  pow_induction (unsigned_round _ _) hx Unsigned.mul exponent

theorem Unsigned.amount {x : Binary f} (hx : x.Unsigned) (hfinite : x.isFinite = true) : Amount x := by
  cases x with
  | nan => cases hfinite
  | infinite negative => cases hfinite
  | finite negative units h =>
    have hsign : negative = false := hx
    exact amount_finite_iff.mpr fun hneg => absurd (hsign.symm.trans hneg) Bool.false_ne_true

/-! ### Factors of at most one -/

theorem round_congr (negative : Bool) {a b c d : Nat} (hb : 0 < b) (hd : 0 < d) (h : a * d = c * b) :
    (round negative a b : Binary f) = round negative c d := by
  simp only [round, f.nearest_congr hb hd h]

theorem pow_zero (x : Binary f) : x ^ 0 = 1 := rfl

/-- One changes no number that it multiplies. -/
theorem one_mul {x : Single} (hx : x.isFinite = true) : 1 * x = x := by
  cases x with
  | nan => cases hx
  | infinite negative => cases hx
  | finite negative units h =>
    have hscale : 0 < 2 ^ Format.single.scale := Nat.two_pow_pos _
    rw [one_eq, finite_mul_finite, Bool.false_xor,
      round_congr negative hscale Nat.one_pos (c := units) (by rw [oneUnits, Nat.mul_one, Nat.mul_comm])]
    exact round_of_representable negative h

theorem mul_one {x : Single} (hx : x.isFinite = true) : x * 1 = x := by
  rw [mul_comm, one_mul hx]

/-- One changes no number that it divides. -/
theorem div_one {x : Single} (hx : x.isFinite = true) : x / 1 = x := by
  cases x with
  | nan => cases hx
  | infinite negative => cases hx
  | finite negative units h =>
    have hone : 0 < oneUnits := Nat.two_pow_pos _
    show div _ _ = _
    rw [one_eq, div, if_neg (Nat.ne_of_gt hone), ofRatio, Bool.xor_false,
      round_congr negative hone Nat.one_pos (c := units) (by rw [oneUnits, Nat.mul_one, Nat.mul_comm])]
    exact round_of_representable negative h

theorem nearest_mul_le_of_le_one {m n : Nat} (hm : Format.single.Representable m)
    (hone : n ≤ oneUnits) : Format.single.nearest (m * n) (2 ^ Format.single.scale) ≤ m :=
  Format.single.nearest_le_of_representable (Nat.two_pow_pos _) hm (Nat.mul_le_mul_left m hone)

/-- Finite numbers have a finite product if one of them is at most one. -/
theorem isFinite_mul {x y : Single} (hx : x.isFinite = true) (hy : y.isFinite = true)
    (hone : y.units ≤ oneUnits) : (x * y).isFinite = true := by
  cases x with
  | nan => cases hx
  | infinite negative => cases hx
  | finite a m hm =>
    cases y with
    | nan => cases hy
    | infinite negative => cases hy
    | finite b n hn =>
      rw [finite_mul_finite, isFinite_round]
      exact Nat.lt_of_le_of_lt (nearest_mul_le_of_le_one hm hone) hm.1

/-- A product with a factor of at most one is no larger than the other factor. -/
theorem units_mul_le {x y : Single} (hone : y.units ≤ oneUnits) : (x * y).units ≤ x.units := by
  cases x with
  | nan => cases y <;> exact Nat.zero_le _
  | infinite a =>
    cases y with
    | finite b n hn =>
      show (mul _ _).units ≤ 0
      rw [mul]
      split <;> exact Nat.le_refl 0
    | _ => exact Nat.zero_le _
  | finite a m hm =>
    cases y with
    | nan => exact Nat.zero_le _
    | infinite b =>
      show (mul _ _).units ≤ m
      rw [mul]
      split <;> exact Nat.zero_le m
    | finite b n hn =>
      have hle := nearest_mul_le_of_le_one (n := n) hm hone
      rw [finite_mul_finite, units_round (Nat.lt_of_le_of_lt hle hm.1)]
      exact hle

/-- A quotient by one from one up is no larger than what is divided. -/
theorem units_div_le {x y : Single} (hy : le 1 y = true) : (x / y).units ≤ x.units := by
  rcases one_le_iff.mp hy with rfl | ⟨n, hn, rfl, hone⟩
  · cases x <;> exact Nat.zero_le _
  · cases x with
    | nan => exact Nat.zero_le _
    | infinite negative => exact Nat.zero_le _
    | finite negative m hm =>
      have hpos : 0 < n := Nat.lt_of_lt_of_le (Nat.two_pow_pos _) hone
      have hle := nearest_div_le_of_one_le hm hone
      show (div _ _).units ≤ m
      rw [div, if_neg (by omega), ofRatio, units_round (Nat.lt_of_le_of_lt hle hm.1)]
      exact hle

/-! ### Sums at the bound -/

namespace Format
variable (f : Format)

/-- The distance of the largest magnitudes from one another, and of the last one from the bound. -/
def lastStep : Nat := 2 ^ (f.top - f.precision)

theorem spacing_le_lastStep {n : Nat} (h : n < 2 ^ f.top) : f.spacing n ≤ f.lastStep := by
  have hpos := f.precision_pos
  have hlog : n.log2 + 1 - f.precision ≤ f.top - f.precision := by
    by_cases hn : n = 0
    · rw [hn, Nat.log2_zero]
      omega
    · have := (Nat.log2_lt hn).mpr h
      omega
  exact Nat.pow_le_pow_right (by decide) hlog

/-- No magnitude is closer to the bound than the last step. -/
theorem Representable.add_lastStep_le {n : Nat} (h : f.Representable n) :
    n + f.lastStep ≤ 2 ^ f.top := by
  have hpos := f.precision_pos
  have hlog : n ≠ 0 → n.log2 < f.top := fun hn => (Nat.log2_lt hn).mpr h.1
  by_cases hstep : f.spacing n = f.lastStep
  · -- The magnitude and the bound are both whole numbers of last steps.
    obtain ⟨q, hq⟩ := h.2
    have hbound : 2 ^ f.top = f.lastStep * 2 ^ (f.top - (f.top - f.precision)) := by
      rw [lastStep, ← Nat.pow_add, Nat.add_sub_cancel' (Nat.sub_le _ _)]
    have hlt := h.1
    rw [hstep] at hq
    rw [hbound] at hlt ⊢
    rw [hq] at hlt ⊢
    have := Nat.lt_of_mul_lt_mul_left hlt
    rw [← Nat.mul_succ]
    exact Nat.mul_le_mul_left _ this
  · have hexp : n.log2 + 1 - f.precision ≠ f.top - f.precision := fun heq =>
      hstep (congrArg (2 ^ ·) heq)
    have hlow : n.log2 + 1 ≤ f.top - 1 := by
      by_cases hn : n = 0
      · rw [hn, Nat.log2_zero] at hexp ⊢
        omega
      · have := hlog hn
        omega
    have hhalf : 2 ^ f.top = 2 ^ (f.top - 1) + 2 ^ (f.top - 1) := by
      rw [← Nat.two_mul, ← Nat.pow_succ']
      congr 1
      omega
    have hn : n < 2 ^ (f.top - 1) :=
      Nat.lt_of_lt_of_le Nat.lt_log2_self (Nat.pow_le_pow_right (by decide) hlow)
    have hlast : f.lastStep ≤ 2 ^ (f.top - 1) := Nat.pow_le_pow_right (by decide) (by omega)
    omega

end Format

/-- Less than half the last step away from zero. -/
def Small (x : Binary f) : Prop := 2 * x.units < f.lastStep

instance (x : Binary f) : Decidable x.Small := inferInstanceAs (Decidable (_ < _))

theorem Small.of_units_le {x y : Binary f} (h : y.Small) (hle : x.units ≤ y.units) : x.Small :=
  Nat.lt_of_le_of_lt (Nat.mul_le_mul_left 2 hle) h

/-- **A finite number absorbs a small one**: their sum is finite. -/
theorem isFinite_add {x y : Binary f} (hx : x.isFinite = true) (hy : y.isFinite = true)
    (hsmall : y.Small) : (x + y).isFinite = true := by
  cases x with
  | nan => cases hx
  | infinite negative => cases hx
  | finite a m hm =>
    cases y with
    | nan => cases hy
    | infinite negative => cases hy
    | finite b n hn =>
      have hn2 : 2 * n < f.lastStep := hsmall
      have hroom := hm.add_lastStep_le
      have hsum : (signed a m + signed b n).natAbs ≤ m + n := by
        cases a <;> cases b <;> simp only [signed] <;> omega
      show (add _ _).isFinite = true
      rw [add, isFinite_round]
      have hbelow : (signed a m + signed b n).natAbs ≤ (2 ^ f.top - 1) * 1 := by omega
      have hnearest := f.nearest_mul_le Nat.one_pos hbelow
      have hspacing := f.spacing_le_lastStep (Nat.sub_lt (Nat.two_pow_pos f.top) Nat.one_pos)
      rw [Nat.mul_one, Nat.mul_one] at hnearest
      omega

/-- The magnitude of the largest finite numbers of single precision. -/
def largestUnits : Nat := 2 ^ Format.single.top - Format.single.lastStep

theorem representable_largestUnits : Format.single.Representable largestUnits := by decide +kernel

/-- The largest finite number of a sign. -/
def largest (negative : Bool) : Single := .finite negative largestUnits representable_largestUnits

theorem isFinite_largest (negative : Bool) : (largest negative).isFinite = true := rfl

/-- **The largest number absorbs nothing else** of its sign. -/
theorem largest_add {negative : Bool} {units : Nat} (h : Format.single.Representable units)
    (hlarge : ¬(finite negative units h : Single).Small) :
    (largest negative + finite negative units h).isFinite = false := by
  have hsum : (signed negative largestUnits + signed negative units).natAbs = largestUnits + units := by
    cases negative <;> simp [signed] <;> omega
  show (add _ _).isFinite = false
  rw [largest, add, Bool.eq_false_iff, ne_eq, isFinite_round, hsum, Nat.not_lt]
  have htie : Format.single.nearest (2 * largestUnits + Format.single.lastStep) 2 =
      2 ^ Format.single.top := by decide +kernel
  have hhalf : Format.single.lastStep ≤ 2 * units := Nat.le_of_not_lt hlarge
  rw [← htie]
  apply Format.single.nearest_mono (by decide) Nat.one_pos
  omega

/-! ### Wider formats -/

/-- A format has at least the digits of another, its unit and its bound. -/
structure Format.Wider (f g : Format) : Prop where
  precision : f.precision ≤ g.precision
  scale : f.scale ≤ g.scale
  top : g.scale - f.scale + f.top ≤ g.top

theorem Format.single_wider : Wider single double := ⟨by decide, by decide, by decide⟩

/-- What a format keeps is kept by a wider one, in its own units. -/
theorem Format.Wider.representable {f g : Format} (hwide : f.Wider g) {n : Nat}
    (h : f.Representable n) : g.Representable (2 ^ (g.scale - f.scale) * n) := by
  constructor
  · calc
      2 ^ (g.scale - f.scale) * n < 2 ^ (g.scale - f.scale) * 2 ^ f.top :=
        Nat.mul_lt_mul_of_pos_left h.1 (Nat.two_pow_pos _)
      _ = 2 ^ (g.scale - f.scale + f.top) := (Nat.pow_add _ _ _).symm
      _ ≤ 2 ^ g.top := Nat.pow_le_pow_right (by decide) hwide.top
  · obtain ⟨digits, hdigits⟩ := h.2
    have hstep := f.spacing_pos n
    have hbound : digits ≤ 2 ^ g.precision := by
      have hlt := f.div_lt_steps n
      rw [Nat.mul_comm (2 ^ f.precision)] at hlt
      conv at hlt => lhs; rw [hdigits]
      exact Nat.le_trans (Nat.le_of_lt (Nat.lt_of_mul_lt_mul_left hlt))
        (Nat.pow_le_pow_right (by decide) hwide.precision)
    have hscaled : 2 ^ (g.scale - f.scale) * n =
        digits * 2 ^ (g.scale - f.scale + (n.log2 + 1 - f.precision)) := by
      conv => lhs; rw [hdigits, Format.spacing, ← Nat.mul_assoc, ← Nat.pow_add, Nat.mul_comm]
    rw [hscaled]
    exact g.spacing_dvd_scaled hbound _

/-- **A number comes back from a wider format as it was.** -/
theorem convert_convert {f g : Format} (hwide : f.Wider g) (x : Binary f) :
    (x.convert g).convert f = x := by
  cases x with
  | nan => rfl
  | infinite negative => rfl
  | finite negative units h =>
    have hunit : 2 ^ g.scale = 2 ^ (g.scale - f.scale) * 2 ^ f.scale := by
      rw [← Nat.pow_add, Nat.sub_add_cancel hwide.scale]
    have hwiden : (finite negative units h).convert g =
        finite negative (2 ^ (g.scale - f.scale) * units) (hwide.representable h) := by
      rw [convert, ofRatio, round_congr negative (Nat.two_pow_pos _) Nat.one_pos
        (c := 2 ^ (g.scale - f.scale) * units) (by rw [hunit, Nat.mul_one, Nat.mul_right_comm])]
      exact round_of_representable negative (hwide.representable h)
    rw [hwiden, convert, ofRatio, round_congr negative (Nat.two_pow_pos _) Nat.one_pos
      (c := units) (by rw [hunit, Nat.mul_one]; ac_rfl)]
    exact round_of_representable negative h

end LSystem.Binary
