import LSystem.Proofs.Binary.Rounding
import Mathlib.Data.Rat.Cast.Order
import Mathlib.Algebra.Order.Field.Basic
import Mathlib.Algebra.Order.Field.Rat
import Mathlib.Tactic.Positivity

/-! Amounts.

An amount is a finite number that is not below zero. It is one of the two zeros or has no sign, so a
count of units says all about it that comparison can see (`Amount.le_iff`), and sums and products of
amounts are the rounded sums and products of their units (`Amount.add`, `Amount.mul`). The sign of a
zero is not seen by addition either: numbers at one place on the line have their sums at one place
(`rank?_foldl_add`). -/
namespace LSystem.Binary

variable {f : Format}

/-- The magnitude of a finite number, in units. -/
def units : Binary f → Nat
  | .finite _ units _ => units
  | _ => 0

/-- The value of a finite number. -/
def value : Binary f → Rat
  | .finite negative units _ => (signed negative units : Rat) / 2 ^ f.scale
  | _ => 0

/-- A finite number that is not below zero. -/
structure Amount (x : Binary f) : Prop where
  isFinite : x.isFinite = true
  not_lt : x.lt 0 = false

theorem zero_eq : (0 : Binary f) = zero false := by
  show (round false (2 ^ f.scale * 0) 1 : Binary f) = zero false
  rw [Nat.mul_zero, round_zero]

theorem lt_iff {x y : Binary f} :
    lt x y = true ↔ ∃ a b, x.rank? = some a ∧ y.rank? = some b ∧ a < b := by
  unfold lt related
  cases x.rank? <;> cases y.rank? <;> simp

/-! ### One number -/

theorem representable_units (x : Binary f) : f.Representable x.units := by
  cases x with
  | nan => exact f.representable_zero
  | infinite negative => exact f.representable_zero
  | finite negative units h => exact h

theorem isFinite_round {negative : Bool} {num den : Nat} :
    (round negative num den : Binary f).isFinite = true ↔ f.nearest num den < 2 ^ f.top := by
  unfold round
  by_cases h : f.nearest num den < 2 ^ f.top
  · rw [dif_pos h]
    exact iff_of_true rfl h
  · rw [dif_neg h]
    exact iff_of_false (fun hfinite => nomatch hfinite) h

theorem units_round {negative : Bool} {num den : Nat} (h : f.nearest num den < 2 ^ f.top) :
    (round negative num den : Binary f).units = f.nearest num den := by
  rw [round, dif_pos h]
  rfl

theorem signed_eq_self {negative : Bool} {n : Nat} (h : negative = true → n = 0) :
    signed negative n = n := by
  cases negative with
  | false => rfl
  | true =>
    rw [h rfl]
    rfl

/-- An amount is a magnitude, and only a zero can have a sign. -/
theorem amount_finite_iff {negative : Bool} {n : Nat} {h : f.Representable n} :
    Amount (finite negative n h) ↔ (negative = true → n = 0) := by
  have hlt : lt (finite negative n h) 0 = true ↔ signed negative n < 0 := by
    rw [lt_iff, zero_eq]
    exact ⟨fun ⟨_, _, ha, hb, hab⟩ => by cases ha; cases hb; exact hab,
      fun hneg => ⟨_, _, rfl, rfl, hneg⟩⟩
  constructor
  · intro hamount hsign
    have hnot : ¬signed negative n < 0 := fun hneg => by
      rw [hamount.not_lt] at hlt
      exact nomatch hlt.mpr hneg
    rw [hsign, signed, if_pos rfl] at hnot
    omega
  · intro hzero
    refine ⟨rfl, Bool.eq_false_iff.mpr fun hneg => ?_⟩
    have := hlt.mp hneg
    cases negative with
    | false => exact absurd this (Int.not_lt.mpr (Int.natCast_nonneg n))
    | true =>
      rw [hzero rfl] at this
      exact absurd this (by decide)

theorem Amount.exists_finite {x : Binary f} (hx : Amount x) :
    ∃ negative h, x = finite negative x.units h ∧ (negative = true → x.units = 0) := by
  cases x with
  | nan => exact nomatch hx.isFinite
  | infinite negative => exact nomatch hx.isFinite
  | finite negative n h => exact ⟨negative, h, rfl, amount_finite_iff.mp hx⟩

theorem amount_zero : Amount (0 : Binary f) := by
  rw [zero_eq]
  exact amount_finite_iff.mpr fun h => nomatch h

theorem units_zero : (0 : Binary f).units = 0 := by
  rw [zero_eq]
  rfl

theorem Amount.rank?_eq {x : Binary f} (hx : Amount x) : x.rank? = some (x.units : Int) := by
  obtain ⟨negative, h, heq, hsign⟩ := hx.exists_finite
  conv => lhs; rw [heq]
  exact congrArg some (signed_eq_self hsign)

/-- An amount has no other value than its units say. -/
theorem Amount.value_eq {x : Binary f} (hx : Amount x) :
    x.value = (x.units : Rat) / 2 ^ f.scale := by
  obtain ⟨negative, h, heq, hsign⟩ := hx.exists_finite
  conv => lhs; rw [heq]
  rw [value, signed_eq_self hsign, Int.cast_natCast]

theorem Amount.le_value_iff {x : Binary f} (hx : Amount x) {n : Nat} :
    (n : Rat) / 2 ^ f.scale ≤ x.value ↔ n ≤ x.units := by
  have hunit : (0 : Rat) < 2 ^ f.scale := by positivity
  rw [hx.value_eq, div_le_div_iff_of_pos_right hunit, Nat.cast_le]

theorem Amount.lt_value_iff {x : Binary f} (hx : Amount x) {n : Nat} :
    (n : Rat) / 2 ^ f.scale < x.value ↔ n < x.units := by
  have hunit : (0 : Rat) < 2 ^ f.scale := by positivity
  rw [hx.value_eq, div_lt_div_iff_of_pos_right hunit, Nat.cast_lt]

theorem Amount.le_iff {x y : Binary f} (hx : Amount x) (hy : Amount y) :
    le x y = true ↔ x.units ≤ y.units := by
  rw [Binary.le_iff, hx.rank?_eq, hy.rank?_eq]
  simp

theorem Amount.pos_iff {x : Binary f} (hx : Amount x) : lt 0 x = true ↔ 0 < x.units := by
  rw [lt_iff, hx.rank?_eq, amount_zero.rank?_eq, units_zero]
  simp

theorem Amount.not_pos_iff {x : Binary f} (hx : Amount x) : lt 0 x = false ↔ x.units = 0 := by
  rw [← Bool.not_eq_true, hx.pos_iff]
  omega

theorem Amount.equal_iff {x y : Binary f} (hx : Amount x) (hy : Amount y) :
    equal x y = true ↔ x.units = y.units := by
  unfold equal related
  rw [hx.rank?_eq, hy.rank?_eq]
  simp

theorem Amount.equal_zero_iff {x : Binary f} (hx : Amount x) : equal x 0 = true ↔ x.units = 0 := by
  rw [hx.equal_iff amount_zero, units_zero]

/-! ### Rounded results -/

/-- Only what is rounded from zero can be a zero with a sign. -/
theorem amount_round {negative : Bool} {num den : Nat} (hsign : negative = true → num = 0)
    (h : f.nearest num den < 2 ^ f.top) : Amount (round negative num den : Binary f) := by
  rw [round, dif_pos h]
  apply amount_finite_iff.mpr
  intro hneg
  rw [hsign hneg]
  simp [Format.nearest, roundDiv]

/-- The sum of two amounts is their exact sum, rounded. -/
theorem Amount.add_eq {x y : Binary f} (hx : Amount x) (hy : Amount y) :
    ∃ negative, x + y = round negative (x.units + y.units) 1 ∧
      (negative = true → x.units + y.units = 0) := by
  obtain ⟨a, ha, hxeq, hxsign⟩ := hx.exists_finite
  obtain ⟨b, hb, hyeq, hysign⟩ := hy.exists_finite
  refine ⟨if ((x.units : Int) + y.units) = 0 then a && b else decide ((x.units : Int) + y.units < 0),
    ?_, ?_⟩
  · conv => lhs; rw [hxeq, hyeq]
    show add _ _ = _
    rw [add, signed_eq_self hxsign, signed_eq_self hysign]
    rfl
  · split
    · intro
      omega
    · intro hneg
      have := of_decide_eq_true hneg
      omega

theorem Amount.isFinite_add_iff {x y : Binary f} (hx : Amount x) (hy : Amount y) :
    (x + y).isFinite = true ↔ f.nearest (x.units + y.units) 1 < 2 ^ f.top := by
  obtain ⟨negative, heq, -⟩ := hx.add_eq hy
  rw [heq, isFinite_round]

theorem Amount.add {x y : Binary f} (hx : Amount x) (hy : Amount y)
    (hfinite : (x + y).isFinite = true) :
    Amount (x + y) ∧ (x + y).units = f.nearest (x.units + y.units) 1 := by
  have hlt := (hx.isFinite_add_iff hy).mp hfinite
  obtain ⟨negative, heq, hsign⟩ := hx.add_eq hy
  rw [heq]
  exact ⟨amount_round hsign hlt, units_round hlt⟩

theorem Amount.mul {x y : Binary f} (hx : Amount x) (hy : Amount y)
    (h : f.nearest (x.units * y.units) (2 ^ f.scale) < 2 ^ f.top) :
    Amount (x * y) ∧ (x * y).units = f.nearest (x.units * y.units) (2 ^ f.scale) := by
  obtain ⟨a, ha, hxeq, hxsign⟩ := hx.exists_finite
  obtain ⟨b, hb, hyeq, hysign⟩ := hy.exists_finite
  have heq : x * y = round (a ^^ b) (x.units * y.units) (2 ^ f.scale) := by
    conv => lhs; rw [hxeq, hyeq]
    exact finite_mul_finite a b ha hb
  have hsign (hneg : (a ^^ b) = true) : x.units * y.units = 0 := by
    cases a with
    | true => rw [hxsign rfl, Nat.zero_mul]
    | false =>
      rw [Bool.false_xor] at hneg
      rw [hysign hneg, Nat.mul_zero]
  rw [heq]
  exact ⟨amount_round hsign h, units_round h⟩

/-! ### Sums from left to right -/

theorem isFinite_of_isFinite_add {x y : Binary f} (h : (x + y).isFinite = true) :
    x.isFinite = true := by
  change (add x y).isFinite = true at h
  cases x with
  | nan => cases h
  | infinite a =>
    cases y with
    | nan => cases h
    | infinite b =>
      rw [add] at h
      split at h <;> cases h
    | finite b n hn => cases h
  | finite a m hm => rfl

/-- Where a sum ends up finite, it was finite all along. -/
theorem isFinite_of_isFinite_foldl {terms : List (Binary f)} {x : Binary f}
    (h : (terms.foldl (· + ·) x).isFinite = true) : x.isFinite = true := by
  induction terms generalizing x with
  | nil => exact h
  | cons term rest ih => exact isFinite_of_isFinite_add (ih h)

theorem Amount.foldl {terms : List (Binary f)} {x : Binary f} (hx : Amount x)
    (hterms : ∀ term ∈ terms, Amount term) (h : (terms.foldl (· + ·) x).isFinite = true) :
    Amount (terms.foldl (· + ·) x) := by
  induction terms generalizing x with
  | nil => exact hx
  | cons term rest ih =>
    rw [List.forall_mem_cons] at hterms
    exact ih (hx.add hterms.1 (isFinite_of_isFinite_foldl h)).1 hterms.2 h

/-- Only the two zeros share a place. -/
theorem rank?_eq_rank?_iff {x y : Binary f} :
    x.rank? = y.rank? ↔ x = y ∨ ∃ a b, x = zero a ∧ y = zero b := by
  constructor
  · intro h
    have htop : 0 < 2 ^ f.top := Nat.two_pow_pos _
    cases x <;> cases y <;> simp only [rank?, Option.some.injEq, reduceCtorEq] at h
    case nan.nan => exact .inl rfl
    case infinite.infinite a b =>
      left
      generalize 2 ^ f.top = bound at h htop
      cases a <;> cases b <;> simp only [signed] at h <;> first | rfl | (simp at h; omega)
    case infinite.finite a b n hn =>
      have := hn.1
      generalize 2 ^ f.top = bound at h this
      cases a <;> cases b <;> simp [signed] at h <;> omega
    case finite.infinite a m hm b =>
      have := hm.1
      generalize 2 ^ f.top = bound at h this
      cases a <;> cases b <;> simp [signed] at h <;> omega
    case finite.finite a m hm b n hn =>
      by_cases hzero : m = 0
      · subst hzero
        have : n = 0 := by
          cases a <;> cases b <;> simp [signed] at h <;> omega
        subst this
        exact .inr ⟨a, b, rfl, rfl⟩
      · left
        obtain ⟨rfl, rfl⟩ : a = b ∧ m = n := by
          cases a <;> cases b <;> simp [signed] at h ⊢ <;> omega
        rfl
  · rintro (rfl | ⟨a, b, rfl, rfl⟩)
    · rfl
    · cases a <;> cases b <;> rfl

/-- What has the place of an amount is one, of the same units. -/
theorem Amount.of_rank?_eq {x y : Binary f} (hx : Amount x) (h : x.rank? = y.rank?) :
    Amount y ∧ y.units = x.units := by
  rcases rank?_eq_rank?_iff.mp h with rfl | ⟨a, b, rfl, rfl⟩
  · exact ⟨hx, rfl⟩
  · exact ⟨amount_finite_iff.mpr fun _ => rfl, rfl⟩

/-- Addition does not see the sign of a zero. -/
theorem rank?_add {x x' : Binary f} (h : x.rank? = x'.rank?) (y : Binary f) :
    (x + y).rank? = (x' + y).rank? := by
  rcases rank?_eq_rank?_iff.mp h with rfl | ⟨a, b, rfl, rfl⟩
  · rfl
  have hzero (c : Bool) : signed c 0 = 0 := by cases c <;> rfl
  show (add _ _).rank? = (add _ _).rank?
  cases y with
  | nan => rfl
  | infinite negative => rfl
  | finite negative n hn =>
    simp only [zero, add, hzero, Int.zero_add]
    by_cases hsum : signed negative n = 0
    · rw [if_pos hsum, if_pos hsum, hsum]
      exact rank?_eq_rank?_iff.mpr (.inr ⟨_, _, round_zero _, round_zero _⟩)
    · rw [if_neg hsum, if_neg hsum]

theorem rank?_foldl_add {x x' : Binary f} (h : x.rank? = x'.rank?) (terms : List (Binary f)) :
    (terms.foldl (· + ·) x).rank? = (terms.foldl (· + ·) x').rank? := by
  induction terms generalizing x x' with
  | nil => exact h
  | cons term rest ih => exact ih (rank?_add h term)

/-- A sum that starts from zero starts at the place of its first term. -/
theorem Amount.rank?_zero_add {x : Binary f} (hx : Amount x) : (0 + x).rank? = x.rank? := by
  have hunits : (0 : Binary f).units + x.units = x.units := by rw [units_zero, Nat.zero_add]
  have hnearest : f.nearest ((0 : Binary f).units + x.units) 1 = x.units := by
    rw [hunits, f.nearest_of_representable x.representable_units]
  have hsum := amount_zero.add hx ((amount_zero.isFinite_add_iff hx).mpr (by
    rw [hnearest]
    exact x.representable_units.1))
  rw [hsum.1.rank?_eq, hx.rank?_eq, hsum.2, hnearest]

end LSystem.Binary
