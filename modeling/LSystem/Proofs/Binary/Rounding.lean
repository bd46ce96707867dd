import LSystem.Binary.Arithmetic

/-! The order of rounding.

Rounding to the nearest never turns an order around (`nearest_mono`). Where two quotients round on
the same grid this is a fact about whole numbers. Where they do not, the power of two between them
lies on both grids, and neither of them is rounded past it. So numbers that are at least one multiply
to such a number, whatever is rounded and even when the product is infinite (`one_le_mul`), and
dividing by one leaves a finite number finite (`isFinite_div`). What products keep, powers keep
(`pow_induction`). -/
namespace LSystem.Binary

/-! ### Whole quotients -/

theorem roundDiv_le {num den q : Nat} (hden : 0 < den) (h : num ≤ q * den) : roundDiv num den ≤ q := by
  rcases Nat.lt_or_eq_of_le h with hlt | rfl
  · have := (Nat.div_lt_iff_lt_mul hden).mpr hlt
    have := roundDiv_le_succ num den
    omega
  · exact Nat.le_of_eq (roundDiv_mul_self q hden)

theorem le_roundDiv {num den q : Nat} (hden : 0 < den) (h : q * den ≤ num) : q ≤ roundDiv num den :=
  Nat.le_trans ((Nat.le_div_iff_mul_le hden).mpr h) (div_le_roundDiv num den)

theorem div_le_div_of_cross {a b c d : Nat} (hb : 0 < b) (hd : 0 < d) (h : a * d ≤ c * b) :
    a / b ≤ c / d := by
  apply (Nat.le_div_iff_mul_le hd).mpr
  have hfloor : a / b * b ≤ a := Nat.div_mul_le_self a b
  have hscaled : a / b * d * b ≤ c * b := by
    calc a / b * d * b = a / b * b * d := Nat.mul_right_comm _ _ _
      _ ≤ a * d := Nat.mul_le_mul_right d hfloor
      _ ≤ c * b := h
  exact Nat.le_of_mul_le_mul_right hscaled hb

/-- A larger quotient is not rounded to a smaller whole number. -/
theorem roundDiv_mono {a b c d : Nat} (hb : 0 < b) (hd : 0 < d) (h : a * d ≤ c * b) :
    roundDiv a b ≤ roundDiv c d := by
  have hfloor := div_le_div_of_cross hb hd h
  rcases Nat.lt_or_eq_of_le hfloor with hlt | heq
  · exact Nat.le_trans (roundDiv_le_succ a b) (Nat.le_trans hlt (div_le_roundDiv c d))
  · -- With equal floors the rests are in the order of the quotients.
    have hrest : a % b * d ≤ c % d * b := by
      have ha : (b * (a / b) + a % b) * d = a * d := by rw [Nat.div_add_mod]
      have hc : (d * (c / d) + c % d) * b = c * b := by rw [Nat.div_add_mod]
      rw [Nat.add_mul] at ha hc
      have hsame : b * (a / b) * d = d * (c / d) * b := by
        rw [heq]
        ac_rfl
      omega
    have hlow (hc : 2 * (c % d) < d) : 2 * (a % b) < b := by
      apply Nat.lt_of_mul_lt_mul_right (a := d)
      have := Nat.mul_lt_mul_of_pos_right hc hb
      rw [Nat.mul_assoc] at this ⊢
      rw [Nat.mul_comm b d]
      omega
    have hhigh (ha : b < 2 * (a % b)) : d < 2 * (c % d) := by
      apply Nat.lt_of_mul_lt_mul_right (a := b)
      have := Nat.mul_lt_mul_of_pos_right ha hd
      rw [Nat.mul_assoc] at this ⊢
      rw [Nat.mul_comm d b]
      omega
    rcases Nat.lt_trichotomy (2 * (c % d)) d with hlt | htie | hgt
    · have ha : roundDiv a b = a / b := if_pos (hlow hlt)
      have hc : roundDiv c d = c / d := if_pos hlt
      rw [ha, hc]
      exact hfloor
    · have ha : ¬b < 2 * (a % b) := fun hgt => by
        have := hhigh hgt
        omega
      simp only [roundDiv, if_neg ha, htie, Nat.lt_irrefl, if_false]
      rw [heq]
      split <;> omega
    · have hc : roundDiv c d = c / d + 1 := by
        simp only [roundDiv]
        rw [if_neg (by omega), if_pos hgt]
      rw [hc, ← heq]
      exact roundDiv_le_succ a b

/-- A quotient is not rounded up by more than half. -/
theorem roundDiv_mul_le (num den : Nat) : 2 * (roundDiv num den * den) ≤ 2 * num + den := by
  have hnum : den * (num / den) + num % den = num := Nat.div_add_mod num den
  rw [Nat.mul_comm den] at hnum
  simp only [roundDiv]
  split
  · omega
  · split
    · rw [Nat.add_mul, Nat.one_mul]
      omega
    · rcases Nat.mod_two_eq_zero_or_one (num / den) with heven | hodd
      · rw [heven, Nat.add_zero]
        omega
      · rw [hodd, Nat.add_mul, Nat.one_mul]
        omega

namespace Format
variable (f : Format)

/-- Numbers of all digits are a good many spacings away from zero. -/
theorem spacing_le {n : Nat} (h : 2 ^ (f.precision - 1) ≤ n) :
    2 ^ (f.precision - 1) * f.spacing n ≤ n := by
  have hn : n ≠ 0 := fun hzero => by
    rw [hzero] at h
    exact Nat.ne_of_gt (Nat.two_pow_pos _) (Nat.le_zero.mp h)
  have hexp : f.precision - 1 ≤ n.log2 := (Nat.le_log2 hn).mpr h
  have hpos := f.precision_pos
  calc 2 ^ (f.precision - 1) * f.spacing n
      = 2 ^ n.log2 := by
        rw [spacing, ← Nat.pow_add]
        congr 1
        omega
    _ ≤ n := Nat.log2_self_le hn

/-- Numbers of no more digits than there are stand next to each other. -/
theorem spacing_of_lt {n : Nat} (h : n < 2 ^ f.precision) : f.spacing n = 1 := by
  have hpos := f.precision_pos
  have hlog : n.log2 < f.precision := by
    by_cases hn : n = 0
    · rw [hn, Nat.log2_zero]
      exact hpos
    · exact (Nat.log2_lt hn).mpr h
  rw [spacing, Nat.sub_eq_zero_of_le hlog]
  rfl

theorem spacing_dvd_spacing {m n : Nat} (h : m ≤ n) : f.spacing m ∣ f.spacing n := by
  apply Nat.pow_dvd_pow 2
  have : m.log2 ≤ n.log2 := by
    by_cases hm : m = 0
    · rw [hm, Nat.log2_zero]
      exact Nat.zero_le _
    · exact (Nat.le_log2 (by omega)).mpr (Nat.le_trans (Nat.log2_self_le hm) h)
  omega

theorem nearest_le {num den m : Nat} (hden : 0 < den) (hgrid : f.spacing (num / den) ∣ m)
    (h : num ≤ m * den) : f.nearest num den ≤ m := by
  obtain ⟨q, rfl⟩ := hgrid
  have hpos := f.spacing_pos (num / den)
  simp only [nearest]
  rw [Nat.mul_comm _ q] at h ⊢
  apply Nat.mul_le_mul_right
  apply roundDiv_le (Nat.mul_pos hden hpos)
  rw [Nat.mul_comm den, ← Nat.mul_assoc]
  exact h

theorem le_nearest {num den m : Nat} (hden : 0 < den) (hgrid : f.spacing (num / den) ∣ m)
    (h : m * den ≤ num) : m ≤ f.nearest num den := by
  obtain ⟨q, rfl⟩ := hgrid
  have hpos := f.spacing_pos (num / den)
  simp only [nearest]
  rw [Nat.mul_comm _ q] at h ⊢
  apply Nat.mul_le_mul_right
  apply le_roundDiv (Nat.mul_pos hden hpos)
  rw [Nat.mul_comm den, ← Nat.mul_assoc]
  exact h

/-- **Rounding keeps the order of quotients.** -/
theorem nearest_mono {a b c d : Nat} (hb : 0 < b) (hd : 0 < d) (h : a * d ≤ c * b) :
    f.nearest a b ≤ f.nearest c d := by
  have hfloor := div_le_div_of_cross hb hd h
  by_cases hsame : f.spacing (a / b) = f.spacing (c / d)
  · simp only [nearest]
    rw [hsame]
    have hpos := f.spacing_pos (c / d)
    apply Nat.mul_le_mul_right
    apply roundDiv_mono (Nat.mul_pos hb hpos) (Nat.mul_pos hd hpos)
    rw [← Nat.mul_assoc, ← Nat.mul_assoc]
    exact Nat.mul_le_mul_right _ h
  · -- The power of two between the floors lies on both grids.
    have hgrids := f.spacing_dvd_spacing hfloor
    have hzero : c / d ≠ 0 := fun hzero => hsame (by
      rw [hzero] at hfloor ⊢
      rw [Nat.le_zero.mp hfloor])
    have hexp : (a / b).log2 < (c / d).log2 ∧ f.precision ≤ (c / d).log2 := by
      have hne : (a / b).log2 + 1 - f.precision ≠ (c / d).log2 + 1 - f.precision := fun heq =>
        hsame (congrArg (2 ^ ·) heq)
      have hle := (Nat.pow_dvd_pow_iff_le_right Nat.one_lt_two).mp hgrids
      omega
    have hupper : f.spacing (c / d) ∣ 2 ^ (c / d).log2 := by
      have := f.precision_pos
      exact Nat.pow_dvd_pow 2 (by omega)
    have hbelow : a / b < 2 ^ (c / d).log2 :=
      Nat.lt_of_lt_of_le Nat.lt_log2_self (Nat.pow_le_pow_right (by decide) hexp.1)
    have habove : 2 ^ (c / d).log2 ≤ c / d := Nat.log2_self_le hzero
    calc f.nearest a b
        ≤ 2 ^ (c / d).log2 := f.nearest_le hb (Nat.dvd_trans hgrids hupper)
          (Nat.le_of_lt ((Nat.div_lt_iff_lt_mul hb).mp hbelow))
      _ ≤ f.nearest c d := f.le_nearest hd hupper ((Nat.le_div_iff_mul_le hd).mp habove)

/-- Rounding depends on the quotient, not on how it is written. -/
theorem nearest_congr {a b c d : Nat} (hb : 0 < b) (hd : 0 < d) (h : a * d = c * b) :
    f.nearest a b = f.nearest c d :=
  Nat.le_antisymm (f.nearest_mono hb hd (Nat.le_of_eq h)) (f.nearest_mono hd hb (Nat.le_of_eq h.symm))

/-- Below a number, a quotient is not rounded up by more than half the spacing there. -/
theorem nearest_mul_le {num den bound : Nat} (hden : 0 < den) (h : num ≤ bound * den) :
    2 * (f.nearest num den * den) ≤ 2 * num + f.spacing bound * den := by
  have hfloor : num / den ≤ bound := by
    have := Nat.div_le_div_right (c := den) h
    rwa [Nat.mul_div_cancel _ hden] at this
  have hstep : f.spacing (num / den) ≤ f.spacing bound :=
    Nat.le_of_dvd (f.spacing_pos bound) (f.spacing_dvd_spacing hfloor)
  calc 2 * (f.nearest num den * den)
      = 2 * (roundDiv num (den * f.spacing (num / den)) * (den * f.spacing (num / den))) := by
        rw [nearest]
        ac_rfl
    _ ≤ 2 * num + den * f.spacing (num / den) := roundDiv_mul_le num _
    _ ≤ 2 * num + f.spacing bound * den := by
        rw [Nat.mul_comm (f.spacing bound)]
        exact Nat.add_le_add_left (Nat.mul_le_mul_left den hstep) _

theorem nearest_le_of_representable {num den m : Nat} (hden : 0 < den) (hm : f.Representable m)
    (h : num ≤ m * den) : f.nearest num den ≤ m := by
  have := f.nearest_mono (d := 1) hden Nat.one_pos ((Nat.mul_one num).symm ▸ h)
  rwa [f.nearest_of_representable hm] at this

theorem le_nearest_of_representable {num den m : Nat} (hden : 0 < den) (hm : f.Representable m)
    (h : m * den ≤ num) : m ≤ f.nearest num den := by
  have := f.nearest_mono (b := 1) Nat.one_pos hden ((Nat.mul_one num).symm ▸ h)
  rwa [f.nearest_of_representable hm] at this

end Format

/-! ### Numbers from one up -/

/-- The magnitude of one, in units of single precision. -/
def oneUnits : Nat := 2 ^ Format.single.scale

theorem representable_oneUnits : Format.single.Representable oneUnits := by decide +kernel

theorem one_eq : (1 : Single) = .finite false oneUnits representable_oneUnits := by
  decide +kernel

theorem le_iff {f : Format} {x y : Binary f} :
    le x y = true ↔ ∃ a b, x.rank? = some a ∧ y.rank? = some b ∧ a ≤ b := by
  unfold le related
  cases x.rank? <;> cases y.rank? <;> simp

theorem le_trans {f : Format} {x y z : Binary f} (hxy : le x y = true) (hyz : le y z = true) :
    le x z = true := by
  obtain ⟨a, b, ha, hb, hab⟩ := le_iff.mp hxy
  obtain ⟨c, d, hc, hd, hcd⟩ := le_iff.mp hyz
  rw [hb] at hc
  cases hc
  exact le_iff.mpr ⟨a, d, ha, hd, Int.le_trans hab hcd⟩

theorem one_le_iff {x : Single} : le 1 x = true ↔
    x = .infinite false ∨ ∃ units h, x = .finite false units h ∧ oneUnits ≤ units := by
  have hrank : (1 : Single).rank? = some (oneUnits : Int) := by
    rw [one_eq]
    rfl
  have hone : 0 < oneUnits := Nat.two_pow_pos _
  have hbound : oneUnits ≤ 2 ^ Format.single.top := Nat.le_of_lt representable_oneUnits.1
  rw [le_iff, hrank]
  cases x with
  | nan => simp [rank?]
  | infinite negative =>
    cases negative with
    | false => exact ⟨fun _ => .inl rfl, fun _ => ⟨_, _, rfl, rfl, Int.ofNat_le.mpr hbound⟩⟩
    | true =>
      refine ⟨?_, by simp⟩
      rintro ⟨a, b, ha, hb, hab⟩
      have hbelow : b = -((2 ^ Format.single.top : Nat) : Int) := (Option.some.inj hb).symm
      have habove : a = (oneUnits : Int) := (Option.some.inj ha).symm
      generalize 2 ^ Format.single.top = bound at hbelow
      omega
  | finite negative units h =>
    cases negative with
    | false => simp [rank?, signed, h]
    | true =>
      simp only [rank?, signed, reduceCtorEq, finite.injEq, false_or, Option.some.injEq]
      constructor
      · rintro ⟨a, b, rfl, rfl, hab⟩
        rw [if_pos trivial] at hab
        omega
      · rintro ⟨_, _, ⟨hsign, _⟩, _⟩
        exact hsign.elim

/-- Rounding does not take a quotient from one up below one. -/
theorem one_le_round {num den : Nat} (hden : 0 < den) (h : oneUnits * den ≤ num) :
    le 1 (round false num den : Single) = true := by
  rw [one_le_iff, round]
  by_cases hlt : Format.single.nearest num den < 2 ^ Format.single.top
  · rw [dif_pos hlt]
    exact .inr ⟨_, _, rfl, Format.single.le_nearest_of_representable hden representable_oneUnits h⟩
  · rw [dif_neg hlt]
    exact .inl rfl

theorem finite_mul_finite {f : Format} (a b : Bool) {m n : Nat} (hm : f.Representable m)
    (hn : f.Representable n) : (finite a m hm * finite b n hn : Binary f) =
      round (a ^^ b) (m * n) (2 ^ f.scale) := rfl

theorem one_le_mul {x y : Single} (hx : le 1 x = true) (hy : le 1 y = true) :
    le 1 (x * y) = true := by
  have hone : 0 < oneUnits := Nat.two_pow_pos _
  rcases one_le_iff.mp hx with rfl | ⟨m, hm, rfl, hmone⟩ <;>
    rcases one_le_iff.mp hy with rfl | ⟨n, hn, rfl, hnone⟩
  · exact one_le_iff.mpr (.inl rfl)
  · apply one_le_iff.mpr
    left
    show mul _ _ = _
    rw [mul, if_neg (by omega)]
    rfl
  · apply one_le_iff.mpr
    left
    show mul _ _ = _
    rw [mul, if_neg (by omega)]
    rfl
  · rw [finite_mul_finite]
    exact one_le_round (Nat.two_pow_pos _) (Nat.mul_le_mul hmone hnone)

/-- **A power is a product of ones and the base**: it has what they have and products keep. -/
theorem pow_induction {f : Format} {motive : Binary f → Prop} {x : Binary f} (hone : motive 1)
    (hbase : motive x) (hmul : ∀ {y z}, motive y → motive z → motive (y * z)) (exponent : Nat) :
    motive (x ^ exponent) := by
  suffices ∀ (squarings exponent : Nat) (result base : Binary f), motive result → motive base →
      motive (powFrom result base exponent squarings) from this _ _ 1 x hone hbase
  intro squarings
  induction squarings with
  | zero =>
    intro exponent result base hresult hbase
    rw [powFrom]
    split
    · exact hmul hresult hbase
    · exact hresult
  | succ squarings ih =>
    intro exponent result base hresult hbase
    rw [powFrom]
    refine ih _ _ _ ?_ (hmul hbase hbase)
    split
    · exact hmul hresult hbase
    · exact hresult

theorem one_le_pow {x : Single} (hx : le 1 x = true) (exponent : Nat) :
    le 1 (x ^ exponent) = true :=
  pow_induction (motive := fun y => le 1 y = true) (by decide +kernel) hx one_le_mul exponent

/-- Division by at least one does not enlarge a magnitude. -/
theorem nearest_div_le_of_one_le {m n : Nat} (hm : Format.single.Representable m) (hn : oneUnits ≤ n) :
    Format.single.nearest (2 ^ Format.single.scale * m) n ≤ m := by
  apply Format.single.nearest_le_of_representable (Nat.lt_of_lt_of_le (Nat.two_pow_pos _) hn) hm
  rw [Nat.mul_comm m]
  exact Nat.mul_le_mul_right m hn

/-- A finite number divided by one from one up is finite. -/
theorem isFinite_div {x y : Single} (hx : x.isFinite = true) (hy : le 1 y = true) :
    (x / y).isFinite = true := by
  cases x with
  | nan => cases hx
  | infinite negative => cases hx
  | finite negative units h =>
    rcases one_le_iff.mp hy with rfl | ⟨n, hn, rfl, hone⟩
    · rfl
    · have hpos : 0 < n := Nat.lt_of_lt_of_le (Nat.two_pow_pos _) hone
      have hlt := Nat.lt_of_le_of_lt (nearest_div_le_of_one_le h hone) h.1
      show (div _ _).isFinite = true
      rw [div, if_neg (by omega), ofRatio, round, dif_pos hlt]
      rfl

end LSystem.Binary
