import LSystem.Proofs.Binary.Range

/-! The order of powers.

A power is a product in the order of the exponent's binary digits, rounded at every step. So the power
to the next exponent is not made from the power before it: a carry replaces all the factors whose
digits it clears by one square. But what a carry has cleared so far stays on the same side of the
square that it will set, since the next step multiplies both by that square, and rounding keeps their
order (`OrderedFactors.powFrom_succ`). Hence powers of numbers from one up rise with the exponent
(`pow_le_pow`) and powers of numbers up to one fall (`pow_le_pow_of_le_one`), also where they leave
the format or come down to zero, and quotients by them do the reverse (`div_le_div`). -/
namespace LSystem.Binary

variable {f : Format}

/-! ### Numbers that may be infinite -/

/-- How far from zero a number stands, in units; an infinity stands at the bound. -/
def height : Binary f → Nat
  | .nan => 0
  | .infinite _ => 2 ^ f.top
  | .finite _ units _ => units

/-- A number without a sign, finite or not. -/
structure Extent (x : Binary f) : Prop where
  unsigned : x.Unsigned
  ne_nan : x ≠ .nan

theorem height_le (x : Binary f) : x.height ≤ 2 ^ f.top := by
  cases x with
  | nan => exact Nat.zero_le _
  | infinite negative => exact Nat.le_refl _
  | finite negative units h => exact Nat.le_of_lt h.1

theorem extent_infinite : Extent (infinite false : Binary f) := ⟨rfl, by simp⟩

theorem extent_finite {units : Nat} (h : f.Representable units) : Extent (finite false units h) :=
  ⟨rfl, by simp⟩

namespace Extent
variable {x y x' y' : Binary f}

/-- An extent is infinite or a magnitude. -/
theorem eq_infinite_or_finite (hx : Extent x) :
    x = .infinite false ∨ ∃ units h, x = .finite false units h := by
  obtain ⟨hsign, hnan⟩ := hx
  cases x with
  | nan => exact absurd rfl hnan
  | infinite negative =>
    left
    rw [show negative = false from hsign]
  | finite negative units h =>
    right
    exact ⟨units, h, by rw [show negative = false from hsign]⟩

theorem rank?_eq (hx : Extent x) : x.rank? = some (x.height : Int) := by
  rcases hx.eq_infinite_or_finite with rfl | ⟨units, h, rfl⟩ <;> rfl

theorem le_iff (hx : Extent x) (hy : Extent y) : le x y = true ↔ x.height ≤ y.height := by
  rw [Binary.le_iff, hx.rank?_eq, hy.rank?_eq]
  simp

theorem le_refl (hx : Extent x) : le x x = true := (hx.le_iff hx).mpr (Nat.le_refl _)

/-- Nothing stands beyond the infinity. -/
theorem le_infinite (hx : Extent x) : le x (.infinite false) = true :=
  (hx.le_iff extent_infinite).mpr x.height_le

/-- What stands no further out than a magnitude is one. -/
theorem exists_finite_of_le (hx : Extent x) {bound : Nat} (hbound : f.Representable bound)
    (h : le x (.finite false bound hbound) = true) :
    ∃ units h, x = .finite false units h ∧ units ≤ bound := by
  have hle := (hx.le_iff (extent_finite hbound)).mp h
  rcases hx.eq_infinite_or_finite with rfl | ⟨units, hunits, rfl⟩
  · exact absurd hbound.1 (Nat.not_lt.mpr hle)
  · exact ⟨units, hunits, rfl, hle⟩

/-- What stands no further out than a finite number is finite. -/
theorem isFinite_of_le (hx : Extent x) (hy : Extent y) (h : le x y = true)
    (hfinite : y.isFinite = true) : x.isFinite = true := by
  rcases hy.eq_infinite_or_finite with rfl | ⟨units, hunits, rfl⟩
  · cases hfinite
  · obtain ⟨_, _, rfl, -⟩ := hx.exists_finite_of_le hunits h
    rfl

theorem not_lt_zero (hx : Extent x) : lt x 0 = false := by
  rw [Bool.eq_false_iff]
  intro hlt
  obtain ⟨a, b, ha, hb, hab⟩ := lt_iff.mp hlt
  rw [hx.rank?_eq] at ha
  rw [amount_zero.rank?_eq, units_zero] at hb
  cases ha
  cases hb
  omega

end Extent

theorem height_round (num den : Nat) :
    (round false num den : Binary f).height = min (f.nearest num den) (2 ^ f.top) := by
  unfold round
  by_cases h : f.nearest num den < 2 ^ f.top
  · rw [dif_pos h, Nat.min_eq_left (Nat.le_of_lt h)]
    rfl
  · rw [dif_neg h, Nat.min_eq_right (Nat.le_of_not_lt h)]
    rfl

theorem extent_round (num den : Nat) : Extent (round false num den : Binary f) :=
  ⟨unsigned_round num den, round_ne_nan false num den⟩

/-- Rounding keeps the order of quotients, into the infinity as well. -/
theorem round_le_round {a b c d : Nat} (hb : 0 < b) (hd : 0 < d) (h : a * d ≤ c * b) :
    le (round false a b : Binary f) (round false c d) = true := by
  rw [(extent_round a b).le_iff (extent_round c d), height_round, height_round]
  have := f.nearest_mono hb hd h
  omega

/-! ### Products and quotients in order -/

/-- A product with the infinity is infinite, unless it has no value. -/
theorem infinite_mul {y : Binary f} (hy : Extent y) (hnan : .infinite false * y ≠ .nan) :
    .infinite false * y = .infinite false := by
  change mul _ y ≠ .nan at hnan
  show mul _ y = _
  rcases hy.eq_infinite_or_finite with rfl | ⟨n, hn, rfl⟩
  · rfl
  · rw [mul] at hnan ⊢
    split at hnan
    · exact absurd rfl hnan
    · rename_i hzero
      rw [if_neg hzero]
      rfl

theorem mul_eq_infinite {x y : Binary f} (hx : Extent x) (hy : Extent y) (hnan : x * y ≠ .nan)
    (h : x = .infinite false ∨ y = .infinite false) : x * y = .infinite false := by
  rcases h with rfl | rfl
  · exact infinite_mul hy hnan
  · rw [mul_comm] at hnan ⊢
    exact infinite_mul hx hnan

/-- **Products keep the order of their factors.** -/
theorem Extent.mul_le_mul {x y x' y' : Binary f} (hx : Extent x) (hy : Extent y) (hx' : Extent x')
    (hy' : Extent y') (hxy : Extent (x * y)) (hnan : x' * y' ≠ .nan) (hxx : le x x' = true)
    (hyy : le y y' = true) : le (x * y) (x' * y') = true := by
  rcases hx'.eq_infinite_or_finite with hinf | ⟨m', hm', rfl⟩
  · rw [mul_eq_infinite hx' hy' hnan (.inl hinf)]
    exact hxy.le_infinite
  rcases hy'.eq_infinite_or_finite with hinf | ⟨n', hn', rfl⟩
  · rw [mul_eq_infinite hx' hy' hnan (.inr hinf)]
    exact hxy.le_infinite
  obtain ⟨m, hm, rfl, hmm⟩ := hx.exists_finite_of_le hm' hxx
  obtain ⟨n, hn, rfl, hnn⟩ := hy.exists_finite_of_le hn' hyy
  rw [finite_mul_finite, finite_mul_finite]
  have hunit : 0 < 2 ^ f.scale := Nat.two_pow_pos _
  exact round_le_round hunit hunit (Nat.mul_le_mul_right _ (Nat.mul_le_mul hmm hnn))

/-- A positive magnitude divided by a number without a sign is a number without a sign. -/
theorem extent_div {units : Nat} (hpos : 0 < units) (h : f.Representable units) {y : Binary f}
    (hy : Extent y) : Extent (finite false units h / y) := by
  refine ⟨(extent_finite h).unsigned.div hy.unsigned, ?_⟩
  show div _ _ ≠ _
  rcases hy.eq_infinite_or_finite with rfl | ⟨n, hn, rfl⟩
  · simp [div, zero]
  · rw [div]
    split
    · rw [if_neg (Nat.ne_of_gt hpos)]
      simp
    · exact round_ne_nan _ _ _

/-- **Quotients turn the order of their divisors around.** -/
theorem div_le_div {units : Nat} (hpos : 0 < units) (h : f.Representable units) {y y' : Binary f}
    (hy : Extent y) (hy' : Extent y') (hyy : le y y' = true) :
    le (finite false units h / y') (finite false units h / y) = true := by
  have hlow := extent_div hpos h hy'
  have hhigh := extent_div hpos h hy
  rcases hy'.eq_infinite_or_finite with rfl | ⟨n', hn', rfl⟩
  · exact (hlow.le_iff hhigh).mpr (Nat.zero_le _)
  obtain ⟨n, hn, rfl, hnn⟩ := hy.exists_finite_of_le hn' hyy
  by_cases hzero : n = 0
  · have hinf : (finite false units h / finite false n hn : Binary f) = .infinite false := by
      show div _ _ = _
      rw [div, if_pos hzero, if_neg (Nat.ne_of_gt hpos)]
      rfl
    rw [hinf]
    exact hlow.le_infinite
  · have hquotient {k : Nat} (hk : f.Representable k) (hne : k ≠ 0) :
        (finite false units h / finite false k hk : Binary f) =
          round false (2 ^ f.scale * units) k := by
      show div _ _ = _
      rw [div, if_neg hne]
      rfl
    rw [hquotient hn hzero, hquotient hn' (by omega)]
    exact round_le_round (by omega) (by omega) (Nat.mul_le_mul_left _ hnn)

/-! ### The next power -/

/-- Once the exponent is used up, more squarings change nothing. -/
theorem powFrom_succ_squarings {result base : Binary f} {exponent squarings : Nat}
    (h : exponent < 2 ^ (squarings + 1)) :
    powFrom result base exponent (squarings + 1) = powFrom result base exponent squarings := by
  induction squarings generalizing result base exponent with
  | zero =>
    have hrest : exponent / 2 = 0 := by omega
    simp only [powFrom, hrest]
    rfl
  | succ squarings ih =>
    rw [Nat.pow_succ] at h
    rw [powFrom, ih (by omega), powFrom]

/-- A power may be taken with any number of squarings that uses up the exponent. -/
theorem pow_eq_powFrom {x : Binary f} {exponent squarings : Nat}
    (h : exponent < 2 ^ (squarings + 1)) : x ^ exponent = powFrom 1 x exponent squarings := by
  have hle : exponent.log2 ≤ squarings := by
    by_cases hzero : exponent = 0
    · rw [hzero, Nat.log2_zero]
      exact Nat.zero_le _
    · exact Nat.le_of_lt_succ ((Nat.log2_lt hzero).mpr h)
  show powFrom 1 x exponent exponent.log2 = _
  induction hle with
  | refl => rfl
  | @step squarings hle ih =>
    have hlt : exponent < 2 ^ (squarings + 1) :=
      Nat.lt_of_lt_of_le Nat.lt_log2_self (Nat.pow_le_pow_right (by decide) (Nat.succ_le_succ hle))
    rw [ih hlt, powFrom_succ_squarings hlt]

/-- Factors with an order that their products keep. -/
structure OrderedFactors (Factor : Binary f → Prop) (Before : Binary f → Binary f → Prop) : Prop where
  one : Factor 1
  mul : ∀ {x y}, Factor x → Factor y → Factor (x * y)
  one_mul : ∀ {x}, Factor x → 1 * x = x
  refl : ∀ {x}, Factor x → Before x x
  trans : ∀ {x y z}, Before x y → Before y z → Before x z
  mul_before : ∀ {x y x' y'}, Factor x → Factor y → Factor x' → Factor y' →
    Before x x' → Before y y' → Before (x * y) (x' * y')

namespace OrderedFactors
variable {Factor : Binary f → Prop} {Before : Binary f → Binary f → Prop}
  (h : OrderedFactors Factor Before) {base : Binary f} (hbase : Factor base)
include h hbase

/-- The order of two results is kept by what both are still multiplied with. -/
theorem powFrom_before {result later : Binary f} (hresult : Factor result) (hlater : Factor later)
    (hbefore : Before result later) (exponent squarings : Nat) :
    Before (powFrom result base exponent squarings) (powFrom later base exponent squarings) := by
  induction squarings generalizing result later base exponent with
  | zero =>
    rw [powFrom, powFrom]
    split
    · exact h.mul_before hresult hbase hlater hbase hbefore (h.refl hbase)
    · exact hbefore
  | succ squarings ih =>
    rw [powFrom, powFrom]
    split
    · exact ih (h.mul hbase hbase) (h.mul hresult hbase) (h.mul hlater hbase)
        (h.mul_before hresult hbase hlater hbase hbefore (h.refl hbase)) _
    · exact ih (h.mul hbase hbase) hresult hlater hbefore _

/-- **A carry keeps the order.** What has been multiplied so far stands before the base, which is what
the digit set by the carry will be multiplied with; so it is for every digit that the carry clears. -/
theorem powFrom_succ {result : Binary f} (hresult : Factor result) (hbefore : Before result base)
    {exponent squarings : Nat} (hlt : exponent + 1 < 2 ^ (squarings + 1)) :
    Before (powFrom result base exponent squarings) (powFrom 1 base (exponent + 1) squarings) := by
  induction squarings generalizing result base exponent with
  | zero =>
    have hzero : exponent = 0 := by omega
    subst hzero
    rw [powFrom, powFrom, if_neg (by decide), if_pos (by decide), h.one_mul hbase]
    exact hbefore
  | succ squarings ih =>
    rw [Nat.pow_succ] at hlt
    rw [powFrom, powFrom]
    rcases Nat.mod_two_eq_zero_or_one exponent with heven | hodd
    · -- The carry ends here.
      have hrest : (exponent + 1) / 2 = exponent / 2 := by omega
      rw [if_neg (by omega), if_pos (by omega), hrest, h.one_mul hbase]
      exact h.powFrom_before (h.mul hbase hbase) hresult hbase hbefore _ _
    · have hrest : (exponent + 1) / 2 = exponent / 2 + 1 := by omega
      rw [if_pos hodd, if_neg (by omega), hrest]
      exact ih (h.mul hbase hbase) (h.mul hresult hbase)
        (h.mul_before hresult hbase hbase hbase hbefore (h.refl hbase)) (by omega)

/-- **Powers are in the order of their exponents**, if one stands before the base. -/
theorem pow_before (hone : Before 1 base) {m n : Nat} (hmn : m ≤ n) :
    Before (base ^ m) (base ^ n) := by
  induction hmn with
  | refl => exact h.refl (pow_induction h.one hbase h.mul m)
  | @step n _ ih =>
    have hlt : n + 1 < 2 ^ (n + 1 + 1) :=
      Nat.lt_trans Nat.lt_two_pow_self (Nat.pow_lt_pow_right (by decide) (Nat.lt_succ_self _))
    have hnext := h.powFrom_succ hbase h.one hone hlt
    rw [← pow_eq_powFrom (Nat.lt_of_succ_lt hlt), ← pow_eq_powFrom hlt] at hnext
    exact h.trans ih hnext

end OrderedFactors

/-! ### Powers of single precision -/

theorem extent_one : Extent (1 : Single) := one_eq ▸ extent_finite representable_oneUnits

theorem extent_of_one_le {x : Single} (hx : le 1 x = true) : Extent x := by
  rcases one_le_iff.mp hx with rfl | ⟨units, h, rfl, -⟩
  · exact extent_infinite
  · exact extent_finite h

/-- One changes no number that it multiplies, the infinity included. -/
theorem Extent.one_mul {x : Single} (hx : Extent x) : 1 * x = x := by
  rcases hx.eq_infinite_or_finite with rfl | ⟨units, h, rfl⟩
  · have hone : oneUnits ≠ 0 := Nat.ne_of_gt (Nat.two_pow_pos _)
    rw [one_eq]
    show mul _ _ = _
    rw [mul, if_neg hone]
    rfl
  · exact Binary.one_mul rfl

/-- Products of numbers from one up rise with their factors. -/
theorem orderedFactors_up : OrderedFactors (f := .single) (fun x => le 1 x = true)
    (fun x y => le x y = true) where
  one := extent_one.le_refl
  mul := one_le_mul
  one_mul hx := (extent_of_one_le hx).one_mul
  refl hx := (extent_of_one_le hx).le_refl
  trans := le_trans
  mul_before hx hy hx' hy' := (extent_of_one_le hx).mul_le_mul (extent_of_one_le hy)
    (extent_of_one_le hx') (extent_of_one_le hy') (extent_of_one_le (one_le_mul hx hy))
    (extent_of_one_le (one_le_mul hx' hy')).ne_nan

/-- No sign, and at most one. -/
structure UpToOne (x : Single) : Prop where
  extent : Extent x
  le_one : le x 1 = true

theorem UpToOne.mul {x y : Single} (hx : UpToOne x) (hy : UpToOne y) : UpToOne (x * y) := by
  obtain ⟨m, hm, rfl, -⟩ := hx.extent.exists_finite_of_le representable_oneUnits (one_eq ▸ hx.le_one)
  obtain ⟨n, hn, rfl, -⟩ := hy.extent.exists_finite_of_le representable_oneUnits (one_eq ▸ hy.le_one)
  have hproduct : Extent (finite false m hm * finite false n hn : Single) := by
    rw [finite_mul_finite]
    exact extent_round _ _
  have hone : (1 * 1 : Single) = 1 := extent_one.one_mul
  have hle := hx.extent.mul_le_mul hy.extent extent_one extent_one hproduct
    (hone.symm ▸ extent_one.ne_nan) hx.le_one hy.le_one
  rw [hone] at hle
  exact ⟨hproduct, hle⟩

/-- Products of numbers up to one fall with their factors. -/
theorem orderedFactors_down : OrderedFactors UpToOne (fun x y => le y x = true) where
  one := ⟨extent_one, extent_one.le_refl⟩
  mul := UpToOne.mul
  one_mul hx := hx.extent.one_mul
  refl hx := hx.extent.le_refl
  trans hxy hyz := le_trans hyz hxy
  mul_before hx hy hx' hy' hxx hyy := hx'.extent.mul_le_mul hy'.extent hx.extent hy.extent
    (hx'.mul hy').extent (hx.mul hy).extent.ne_nan hxx hyy

/-- **Powers of a number from one up rise.** -/
theorem pow_le_pow {x : Single} (hx : le 1 x = true) {m n : Nat} (h : m ≤ n) :
    le (x ^ m) (x ^ n) = true :=
  orderedFactors_up.pow_before hx hx h

/-- **Powers of a number up to one fall.** -/
theorem pow_le_pow_of_le_one {x : Single} (hx : UpToOne x) {m n : Nat} (h : m ≤ n) :
    le (x ^ n) (x ^ m) = true :=
  orderedFactors_down.pow_before hx hx.le_one h

end LSystem.Binary
