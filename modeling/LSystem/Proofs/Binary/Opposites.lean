import LSystem.Proofs.Binary.Range

/-! Opposite numbers.

Rounding does not look at signs, so sums and products of opposite numbers are opposite (`Opposite.add`,
`Opposite.mul`). The sign of a zero is the exception: terms that cancel sum to the positive zero, and so
do their opposites. Numbers are therefore called opposite by their places on the line, where the zeros
share one. -/
namespace LSystem.Binary

variable {f : Format} {x x' y y' : Binary f}

/-- The places on the line are opposite, or neither is a number. -/
def Opposite (x y : Binary f) : Prop := y.rank? = (-x).rank?

theorem opposite_neg (x : Binary f) : x.Opposite (-x) := rfl

/-- Opposite numbers differ in their sign, or both are zeros. -/
theorem opposite_iff : x.Opposite y ↔ y = -x ∨ ∃ a b, x = zero a ∧ y = zero b := by
  rw [Opposite, rank?_eq_rank?_iff]
  refine or_congr_right ⟨?_, ?_⟩
  · rintro ⟨b, a, rfl, hneg⟩
    refine ⟨!a, b, ?_, rfl⟩
    rw [← neg_neg x, hneg]
    rfl
  · rintro ⟨a, b, rfl, rfl⟩
    exact ⟨b, !a, rfl, rfl⟩

theorem isFinite_neg (x : Binary f) : (-x).isFinite = x.isFinite := by
  cases x <;> rfl

theorem signed_not (negative : Bool) (magnitude : Nat) :
    signed (!negative) magnitude = -signed negative magnitude := by
  cases negative
  · rfl
  · exact (Int.neg_neg _).symm

/-- The opposite of a sum is the sum of the opposites, but for the sign of zero. -/
theorem rank?_neg_add (x y : Binary f) : (-x + -y).rank? = (-(x + y)).rank? := by
  show (add (neg x) (neg y)).rank? = (neg (add x y)).rank?
  cases x <;> cases y <;> simp only [neg, add]
  case infinite.infinite a b => cases a <;> cases b <;> rfl
  case finite.finite a m hm b n hn =>
    have hneg : signed (!a) m + signed (!b) n = -(signed a m + signed b n) := by
      rw [signed_not, signed_not]
      omega
    rw [hneg]
    generalize signed a m + signed b n = sum
    show _ = (-(round _ _ _ : Binary f)).rank?
    rw [neg_round, Int.natAbs_neg]
    by_cases hsum : sum = 0
    · subst hsum
      exact rank?_eq_rank?_iff.mpr (.inr ⟨_, _, round_zero _, round_zero _⟩)
    · have hsign : decide (-sum < 0) = !decide (sum < 0) := by
        rw [← decide_not]
        exact decide_eq_decide.mpr (by omega)
      rw [if_neg (by omega), if_neg hsum, hsign]

theorem neg_mul (x y : Binary f) : -x * y = -(x * y) := by
  show mul (neg x) y = neg (mul x y)
  cases x <;> cases y <;> simp only [neg, mul, Bool.not_xor]
  case infinite.finite => split <;> rfl
  case finite.infinite => split <;> rfl
  case finite.finite => exact (neg_round _ _ _).symm

theorem round_zero_div (negative : Bool) {den : Nat} (hden : 0 < den) :
    (round negative 0 den : Binary f) = zero negative := by
  rw [round_congr negative hden Nat.one_pos (c := 0) (by rw [Nat.zero_mul, Nat.zero_mul])]
  exact round_zero negative

/-- Multiplication does not see the sign of a zero. -/
theorem rank?_zero_mul (a b : Bool) (y : Binary f) : (zero a * y).rank? = (zero b * y).rank? := by
  show (mul _ _).rank? = (mul _ _).rank?
  cases y with
  | finite negative units h =>
    have hscale : 0 < 2 ^ f.scale := Nat.two_pow_pos _
    simp only [zero, mul, Nat.zero_mul]
    exact rank?_eq_rank?_iff.mpr (.inr ⟨_, _, round_zero_div _ hscale, round_zero_div _ hscale⟩)
  | _ => rfl

/-- **Sums of opposite numbers are opposite.** -/
theorem Opposite.add (hx : x.Opposite x') (hy : y.Opposite y') : (x + y).Opposite (x' + y') := by
  calc (x' + y').rank?
      = (-x + y').rank? := rank?_add hx y'
    _ = (y' + -x).rank? := by rw [add_comm]
    _ = (-y + -x).rank? := rank?_add hy (-x)
    _ = (-x + -y).rank? := by rw [add_comm]
    _ = (-(x + y)).rank? := rank?_neg_add x y

/-- **Products of opposite numbers with one factor are opposite.** -/
theorem Opposite.mul (h : x.Opposite x') (y : Binary f) : (x * y).Opposite (x' * y) := by
  rcases opposite_iff.mp h with rfl | ⟨a, b, rfl, rfl⟩
  · rw [neg_mul]
    exact opposite_neg _
  · show (zero b * y).rank? = (-(zero a * y)).rank?
    rw [← neg_mul]
    exact rank?_zero_mul _ _ _

end LSystem.Binary
