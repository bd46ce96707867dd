/-! Binary number formats.

A format has a count of significant digits, a smallest unit and a bound. Every finite magnitude is a
whole number of units, so arithmetic on magnitudes is arithmetic on natural numbers, and a format
only says which of them it keeps: those below the bound that are multiples of the spacing at their
own size (`Format.Representable`). `Format.nearest` takes a quotient to the closest multiple of the
spacing there, the even one of two equally close ones. Its main law, `Format.spacing_dvd_nearest`,
is that the result is again a multiple of the spacing at its own size, also when rounding carries it
to the next power of two. -/
namespace LSystem.Binary

/-- Powers of natural numbers are those of `Nat`, whatever else is in scope. -/
scoped instance (priority := 2000) natPow : Pow Nat Nat := instPowNat

/-- The quotient `num / den` as a whole number, to the nearest and from a tie to the even one. -/
def roundDiv (num den : Nat) : Nat :=
  let quotient := num / den
  let rest := num % den
  if 2 * rest < den then quotient
  else if den < 2 * rest then quotient + 1
  else quotient + quotient % 2

/-- Rounding a quotient goes up by one at most. -/
theorem roundDiv_le_succ (num den : Nat) : roundDiv num den ≤ num / den + 1 := by
  simp only [roundDiv]
  split
  · omega
  · split <;> omega

/-- Rounding a quotient never goes below its floor. -/
theorem div_le_roundDiv (num den : Nat) : num / den ≤ roundDiv num den := by
  simp only [roundDiv]
  split
  · omega
  · split <;> omega

/-- Whole quotients are kept. -/
theorem roundDiv_mul_self (n : Nat) {den : Nat} (h : 0 < den) : roundDiv (n * den) den = n := by
  simp [roundDiv, Nat.mul_div_cancel _ h, h]

/-- A binary number format. -/
structure Format where
  /-- Significant binary digits of a magnitude. -/
  precision : Nat
  /-- The unit of magnitudes is `2 ^ -scale`. -/
  scale : Nat
  /-- Finite magnitudes lie below `2 ^ top` units. -/
  top : Nat
  /-- Without a digit there is no spacing. -/
  precision_pos : 0 < precision := by decide
deriving DecidableEq

namespace Format

/-- Single precision: 24 digits, unit `2 ^ -149`, bound `2 ^ 128`. -/
def single : Format := ⟨24, 149, 277, by decide⟩

/-- Double precision: 53 digits, unit `2 ^ -1074`, bound `2 ^ 1024`. -/
def double : Format := ⟨53, 1074, 2098, by decide⟩

variable (f : Format)

/-- The distance, in units, of neighbouring magnitudes of the size of `n`. -/
def spacing (n : Nat) : Nat := 2 ^ (n.log2 + 1 - f.precision)

/-- The magnitudes that the format keeps, in units. -/
def Representable (n : Nat) : Prop := n < 2 ^ f.top ∧ f.spacing n ∣ n

instance (n : Nat) : Decidable (f.Representable n) :=
  inferInstanceAs (Decidable (_ ∧ _))

/-- The multiple of the spacing that is closest to `num / den` units, whatever the bound. -/
def nearest (num den : Nat) : Nat :=
  let step := f.spacing (num / den)
  roundDiv num (den * step) * step

theorem spacing_pos (n : Nat) : 0 < f.spacing n := Nat.two_pow_pos _

/-- Zero is kept by every format. -/
theorem representable_zero : f.Representable 0 := ⟨Nat.two_pow_pos _, Nat.dvd_zero _⟩

/-- A number of `precision` digits, scaled by a power of two, lies on the grid at its size. -/
theorem spacing_dvd_scaled {q : Nat} (h : q ≤ 2 ^ f.precision) (k : Nat) :
    f.spacing (q * 2 ^ k) ∣ q * 2 ^ k := by
  by_cases hz : q = 0
  · simp [hz]
  rcases Nat.lt_or_eq_of_le h with hlt | heq
  · refine Nat.dvd_trans (Nat.pow_dvd_pow 2 ?_) (Nat.dvd_mul_left _ _)
    have hq : q.log2 < f.precision := (Nat.log2_lt hz).mpr hlt
    have hm : (q * 2 ^ k).log2 < q.log2 + 1 + k := by
      refine (Nat.log2_lt (Nat.mul_ne_zero hz (Nat.ne_of_gt (Nat.two_pow_pos k)))).mpr ?_
      rw [Nat.pow_add]
      exact Nat.mul_lt_mul_of_pos_right Nat.lt_log2_self (Nat.two_pow_pos k)
    omega
  · subst heq
    rw [← Nat.pow_add, spacing, Nat.log2_two_pow]
    have := f.precision_pos
    exact Nat.pow_dvd_pow 2 (by omega)

/-- A quotient is below `2 ^ precision` steps of the spacing at its floor. -/
theorem div_lt_steps (n : Nat) : n < 2 ^ f.precision * f.spacing n := by
  refine Nat.lt_of_lt_of_le (Nat.lt_log2_self (n := n)) ?_
  rw [spacing, ← Nat.pow_add]
  exact Nat.pow_le_pow_right (by decide) (by omega)

/-- **Rounding lands on the grid**: the nearest multiple of the spacing below is also a multiple of
the spacing at its own size. -/
theorem spacing_dvd_nearest (num den : Nat) : f.spacing (f.nearest num den) ∣ f.nearest num den := by
  refine f.spacing_dvd_scaled (Nat.le_trans (roundDiv_le_succ _ _) ?_) _
  rw [← Nat.div_div_eq_div_mul]
  exact Nat.div_lt_of_lt_mul (Nat.mul_comm _ _ ▸ f.div_lt_steps (num / den))

/-- Representable magnitudes are their own nearest ones. -/
theorem nearest_of_representable {n : Nat} (h : f.Representable n) : f.nearest n 1 = n := by
  obtain ⟨c, hc⟩ := h.2
  have hs := f.spacing_pos n
  simp only [nearest, Nat.div_one, Nat.one_mul]
  conv => lhs; arg 1; arg 1; rw [hc, Nat.mul_comm]
  rw [roundDiv_mul_self c hs, Nat.mul_comm, ← hc]

end Format

end LSystem.Binary
