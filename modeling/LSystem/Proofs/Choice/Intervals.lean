import LSystem.Choice.Weighted
import LSystem.Proofs.Binary.Amount
import LSystem.Proofs.Choice.Search

/-! The intervals of weights.

Everything about a sampler is said in units of its format. The running sums of the weights are the
edges of the intervals (`Sampler.edge`), a word reaches as far into the total as its high bits say,
rounded (`Sampler.reach`), and the searched place is that of the interval which holds what the word
reaches: from its first edge on, and before its second unless it is the last
(`Sampler.place_weighted_iff`). A word does not reach a total of more than `2 ^ 22` units, so above
that the last interval has an end as well, and a fixed sampler, whose edges are zero and the total, is
no exception (`Sampler.place_eq_iff`). -/
namespace LSystem

open Binary

namespace Sampler
variable {weights : List Single} {i j : Nat}

/-! ### Accepted weights -/

/-- Weights with a sampler. -/
structure Accepted (weights : List Single) : Prop where
  amount : ∀ weight ∈ weights, Amount weight
  isFinite_sum : (sum weights).isFinite = true
  exists_pos : ∃ weight ∈ weights, Binary.lt 0 weight = true

theorem mem_positivePlaces :
    i ∈ positivePlaces weights ↔ ∃ h : i < weights.length, Binary.lt 0 weights[i] = true := by
  simp only [positivePlaces, List.mem_map, List.mem_filter]
  constructor
  · rintro ⟨⟨weight, place⟩, ⟨hmem, hpos⟩, rfl⟩
    obtain ⟨hlt, hweight⟩ := List.mem_zipIdx' hmem
    exact ⟨hlt, hweight ▸ hpos⟩
  · rintro ⟨hlt, hpos⟩
    exact ⟨(weights[i], i), ⟨List.mem_zipIdx_iff_getElem?.mpr (List.getElem?_eq_getElem hlt), hpos⟩, rfl⟩

/-- Where positive weights have one place, the weight of that place is positive and no other. -/
theorem pos_iff_of_only {only : Nat} (honly : positivePlaces weights = [only])
    (hi : i < weights.length) : Binary.lt 0 weights[i] = true ↔ i = only := by
  have hmem : i ∈ positivePlaces weights ↔ i = only := by rw [honly, List.mem_singleton]
  rw [← hmem, mem_positivePlaces]
  exact ⟨fun hpos => ⟨hi, hpos⟩, fun ⟨_, hpos⟩ => hpos⟩

theorem amount_iff {weight : Single} :
    Amount weight ↔ (!weight.isFinite || weight.lt 0) = false := by
  rw [Bool.or_eq_false_iff, Bool.not_eq_false']
  exact ⟨fun h => ⟨h.isFinite, h.not_lt⟩, fun h => ⟨h.1, h.2⟩⟩

/-- The first check finds no fault exactly if all weights are amounts. -/
theorem find?_eq_none_iff : (weights.find? fun weight => !weight.isFinite || weight.lt 0) = none ↔
    ∀ weight ∈ weights, Amount weight := by
  simp only [List.find?_eq_none, amount_iff, Bool.not_eq_true]

/-- What is said of weights by their having a sampler. -/
theorem ofWeights_eq_ok {sampler : Sampler} (h : ofWeights weights = .ok sampler) :
    Accepted weights ∧
      ((∃ only, positivePlaces weights = [only] ∧ sampler = fixed only) ∨
        ((positivePlaces weights).length ≠ 1 ∧ ∃ thresholds,
          Thresholds.ofWeights weights = .ok thresholds ∧ sampler = weighted thresholds)) := by
  simp only [ofWeights] at h
  split at h
  · cases h
  split at h
  · cases h
  rename_i hsound
  split at h
  · cases h
  rename_i hfinite
  have haccepted {place : Nat} (hplace : place ∈ positivePlaces weights) : Accepted weights := by
    obtain ⟨hlt, hpos⟩ := mem_positivePlaces.mp hplace
    exact ⟨find?_eq_none_iff.mp hsound, by simpa using hfinite, _, List.getElem_mem hlt, hpos⟩
  split at h
  · cases h
  · rename_i only honly
    cases h
    exact ⟨haccepted (honly ▸ List.mem_singleton.mpr rfl), .inl ⟨only, honly, rfl⟩⟩
  · rename_i hnil hsingle
    obtain ⟨place, hplace⟩ := List.exists_mem_of_ne_nil _ hnil
    split at h
    · rename_i thresholds hthresholds
      cases h
      refine ⟨haccepted hplace, .inr ⟨fun hone => ?_, thresholds, hthresholds, rfl⟩⟩
      obtain ⟨only, honly⟩ := List.length_eq_one_iff.mp hone
      exact hsingle only honly
    · cases h

/-! ### Edges -/

/-- The edge before a place, in units: the sum of the weights there are before it. -/
def edge (weights : List Single) (i : Nat) : Nat := (sum (weights.take i)).units

theorem edge_zero (weights : List Single) : edge weights 0 = 0 := units_zero

theorem edge_length (weights : List Single) : edge weights weights.length = (sum weights).units := by
  rw [edge, List.take_length]

theorem representable_edge (weights : List Single) (i : Nat) :
    Format.single.Representable (edge weights i) := representable_units _

theorem sum_take_succ (hi : i < weights.length) :
    sum (weights.take (i + 1)) = sum (weights.take i) + weights[i] := by
  rw [List.take_succ_eq_append_getElem hi, sum, List.foldl_append]
  rfl

namespace Accepted

theorem amount_sum_take (h : Accepted weights) (i : Nat) : Amount (sum (weights.take i)) := by
  refine amount_zero.foldl (fun weight hmem => h.amount weight (List.mem_of_mem_take hmem)) ?_
  have hfinite := h.isFinite_sum
  rw [← List.take_append_drop i weights, sum, List.foldl_append] at hfinite
  exact isFinite_of_isFinite_foldl hfinite

theorem amount_sum (h : Accepted weights) : Amount (sum weights) := by
  have := h.amount_sum_take weights.length
  rwa [List.take_length] at this

theorem edge_succ (h : Accepted weights) (hi : i < weights.length) :
    edge weights (i + 1) = Format.single.nearest (edge weights i + weights[i].units) 1 := by
  have hamount := h.amount_sum_take (i + 1)
  rw [edge, sum_take_succ hi] at *
  exact ((h.amount_sum_take i).add (h.amount _ (List.getElem_mem hi)) hamount.isFinite).2

theorem edge_le_succ (h : Accepted weights) (i : Nat) : edge weights i ≤ edge weights (i + 1) := by
  by_cases hi : i < weights.length
  · rw [h.edge_succ hi]
    apply Format.single.le_nearest_of_representable Nat.one_pos (representable_edge weights i)
    omega
  · rw [edge, edge, List.take_of_length_le (by omega), List.take_of_length_le (by omega)]

theorem edge_mono (h : Accepted weights) (hij : i ≤ j) : edge weights i ≤ edge weights j :=
  monotone_nat_of_le_succ h.edge_le_succ hij

/-- A weight of zero has an interval of no width. -/
theorem edge_succ_of_zero (h : Accepted weights) (hi : i < weights.length)
    (hzero : weights[i].units = 0) : edge weights (i + 1) = edge weights i := by
  rw [h.edge_succ hi, hzero, Nat.add_zero,
    Format.single.nearest_of_representable (representable_edge weights i)]

theorem edge_eq_of_zeros (h : Accepted weights) (hij : i ≤ j) (hj : j ≤ weights.length)
    (hzero : ∀ k (hk : k < weights.length), i ≤ k → k < j → weights[k].units = 0) :
    edge weights j = edge weights i := by
  induction j, hij using Nat.le_induction with
  | base => rfl
  | succ j hij ih =>
    rw [h.edge_succ_of_zero (by omega) (hzero j (by omega) hij (by omega))]
    exact ih (by omega) fun k hk hik hkj => hzero k hk hik (by omega)

theorem edge_pos (h : Accepted weights) (hi : i < weights.length) (hpos : 0 < weights[i].units) :
    0 < edge weights (i + 1) := by
  rw [h.edge_succ hi]
  refine Nat.lt_of_lt_of_le hpos (Format.single.le_nearest_of_representable Nat.one_pos ?_ (by omega))
  exact representable_units _

theorem edge_le_sum (h : Accepted weights) (hi : i ≤ weights.length) :
    edge weights i ≤ (sum weights).units := by
  rw [← edge_length]
  exact h.edge_mono hi

theorem sum_pos (h : Accepted weights) : 0 < (sum weights).units := by
  obtain ⟨weight, hmem, hpos⟩ := h.exists_pos
  obtain ⟨i, hi, rfl⟩ := List.getElem_of_mem hmem
  have hunits := (h.amount _ hmem).pos_iff.mp hpos
  exact Nat.lt_of_lt_of_le (h.edge_pos hi hunits) (h.edge_le_sum hi)

end Accepted

/-! ### Words -/

/-- What is read of a word: its 23 high bits. -/
def high (word : UInt32) : Nat := (word >>> 9).toNat

/-- How far high bits reach into a total, in units. -/
def reach (total high : Nat) : Nat := Format.single.nearest (high * total) 0x800000

theorem high_eq (word : UInt32) : high word = word.toNat / 2 ^ 9 := by
  rw [high, UInt32.toNat_shiftRight, Nat.shiftRight_eq_div_pow]
  rfl

theorem high_lt (word : UInt32) : high word < 0x800000 := by
  rw [high_eq]
  exact Nat.div_lt_of_lt_mul word.toNat_lt

theorem high_mono {r s : UInt32} (h : r ≤ s) : high r ≤ high s := by
  rw [high_eq, high_eq]
  exact Nat.div_le_div_right (UInt32.le_iff_toNat_le.mp h)

theorem reach_mono (total : Nat) {a b : Nat} (h : a ≤ b) : reach total a ≤ reach total b :=
  Format.single.nearest_mono (by decide) (by decide)
    (Nat.mul_le_mul_right _ (Nat.mul_le_mul_right _ h))

theorem mul_le_of_high_le (total : Nat) {high : Nat} (h : high ≤ 0x800000) :
    high * total ≤ total * 0x800000 := by
  rw [Nat.mul_comm total]
  exact Nat.mul_le_mul_right total h

theorem reach_le {total high : Nat} (htotal : Format.single.Representable total)
    (h : high ≤ 0x800000) : reach total high ≤ total :=
  Format.single.nearest_le_of_representable (by decide) htotal (mul_le_of_high_le total h)

/-- What a word reaches is rounded up by half the spacing at the total at most. -/
theorem reach_mul_le (total : Nat) {high : Nat} (h : high ≤ 0x800000) :
    2 * (reach total high * 0x800000) ≤
      2 * (high * total) + Format.single.spacing total * 0x800000 :=
  Format.single.nearest_mul_le (by decide) (mul_le_of_high_le total h)

/-- Above half the smallest number of all digits, no word reaches the total. -/
theorem reach_lt {total high : Nat} (htotal : 2 ^ 22 < total) (h : high < 0x800000) :
    reach total high < total := by
  have hspacing : 2 ^ 22 * Format.single.spacing total < total := by
    by_cases hdigits : 2 ^ 23 ≤ total
    · have hle : 2 ^ 23 * Format.single.spacing total ≤ total := Format.single.spacing_le hdigits
      omega
    · rw [Format.single.spacing_of_lt (Nat.lt_of_not_le hdigits |>.trans (by decide))]
      exact htotal
  have hscaled : high * total ≤ (0x800000 - 1) * total := Nat.mul_le_mul_right total (by omega)
  have hround := reach_mul_le total (Nat.le_of_lt h)
  omega

/-- From there down, the last word reaches the total. -/
theorem reach_last {total : Nat} (hpos : 0 < total) (htotal : total ≤ 2 ^ 22) :
    reach total (0x800000 - 1) = total := by
  have hdiv : (0x800000 - 1) * total / 0x800000 = total - 1 := by omega
  have hrest : (0x800000 - 1) * total % 0x800000 = 0x800000 - total := by omega
  have hone : Format.single.spacing (total - 1) = 1 :=
    Format.single.spacing_of_lt (by change _ < 2 ^ 24; omega)
  rw [reach, Format.nearest, hdiv, hone]
  simp only [roundDiv, Nat.mul_one, hdiv, hrest]
  rw [if_neg (by omega)]
  split <;> omega

theorem fraction_eq (word : UInt32) :
    Amount (Thresholds.fraction word) ∧ (Thresholds.fraction word).units = 2 ^ 126 * high word := by
  have hlt := high_lt word
  have hrepresentable : Format.single.Representable (2 ^ 126 * high word) := by
    constructor
    · refine Nat.lt_of_lt_of_le (Nat.mul_lt_mul_of_pos_left hlt (Nat.two_pow_pos _)) ?_
      rw [show 0x800000 = 2 ^ 23 from rfl, ← Nat.pow_add]
      exact Nat.pow_le_pow_right (by decide) (by decide)
    · rw [Nat.mul_comm]
      exact Format.single.spacing_dvd_scaled (by change _ ≤ 2 ^ 24; omega) 126
  have hnearest : Format.single.nearest (2 ^ 149 * high word) 0x800000 = 2 ^ 126 * high word := by
    rw [Format.single.nearest_congr (d := 1) (c := 2 ^ 126 * high word) (by decide) (by decide)
      (by omega)]
    exact Format.single.nearest_of_representable hrepresentable
  have hbound : Format.single.nearest (2 ^ 149 * high word) 0x800000 < 2 ^ Format.single.top := by
    rw [hnearest]
    exact hrepresentable.1
  have heq : Thresholds.fraction word = round false (2 ^ 149 * high word) 0x800000 := rfl
  rw [heq, units_round hbound]
  exact ⟨amount_round (fun h => nomatch h) hbound, hnearest⟩

/-- A word reaches into a total as far as its high bits do. -/
theorem fraction_mul {total : Single} (htotal : Amount total) (word : UInt32) :
    Amount (Thresholds.fraction word * total) ∧
      (Thresholds.fraction word * total).units = reach total.units (high word) := by
  obtain ⟨hfraction, hunits⟩ := fraction_eq word
  have hreach : Format.single.nearest ((Thresholds.fraction word).units * total.units)
      (2 ^ Format.single.scale) = reach total.units (high word) := by
    rw [hunits]
    apply Format.single.nearest_congr (Nat.two_pow_pos _) (by decide)
    change 2 ^ 126 * high word * total.units * 0x800000 = high word * total.units * 2 ^ 149
    rw [Nat.mul_assoc (2 ^ 126)]
    omega
  have hle := reach_le (representable_units total) (Nat.le_of_lt (high_lt word))
  have hmul := hfraction.mul htotal (by
    rw [hreach]
    exact Nat.lt_of_le_of_lt hle (representable_units total).1)
  exact ⟨hmul.1, hmul.2.trans hreach⟩

/-! ### The searched place -/

theorem getElem_runningSums {rest : List Single} (sum : Single)
    (hi : i < (Thresholds.runningSums sum rest).length) :
    (Thresholds.runningSums sum rest)[i] = (rest.take i).foldl (· + ·) sum := by
  induction rest generalizing sum i with
  | nil => cases hi
  | cons weight rest ih =>
    cases i with
    | zero => rfl
    | succ i => exact ih (sum + weight) (Nat.lt_of_succ_lt_succ hi)

/-- Thresholds are summed from the first weight on, and weights from zero on, to the same place. -/
theorem rank?_sum_cons {first : Single} (h : Amount first) (rest : List Single) :
    (sum (first :: rest)).rank? = (rest.foldl (· + ·) first).rank? :=
  rank?_foldl_add h.rank?_zero_add rest

/-- The borders stand at the edges between two weights, and the total is the last edge. -/
theorem Accepted.thresholds (h : Accepted weights) {thresholds : Thresholds}
    (hthresholds : Thresholds.ofWeights weights = .ok thresholds) :
    (∀ i (hi : i < thresholds.borders.size), Amount thresholds.borders[i] ∧
      thresholds.borders[i].units = edge weights (i + 1)) ∧
    Amount thresholds.total ∧ thresholds.total.units = (sum weights).units := by
  cases weights with
  | nil => cases hthresholds
  | cons first rest =>
    simp only [Thresholds.ofWeights] at hthresholds
    split at hthresholds
    · cases hthresholds
    split at hthresholds
    · cases hthresholds
    cases hthresholds
    have hfirst := h.amount first List.mem_cons_self
    refine ⟨fun i hi => ?_, h.amount_sum.of_rank?_eq (rank?_sum_cons hfirst rest)⟩
    rw [List.getElem_toArray, getElem_runningSums]
    exact (h.amount_sum_take (i + 1)).of_rank?_eq (rank?_sum_cons hfirst (rest.take i))

/-- However the sums are rounded, the borders stand in order. -/
theorem Accepted.ordered (h : Accepted weights) {thresholds : Thresholds}
    (hthresholds : Thresholds.ofWeights weights = .ok thresholds) : thresholds.Ordered := by
  obtain ⟨hborder, -⟩ := h.thresholds hthresholds
  intro i j hij hj
  obtain ⟨hi, hlow⟩ := hborder i (Nat.lt_of_le_of_lt hij hj)
  obtain ⟨hj, hhigh⟩ := hborder j hj
  rw [hi.le_iff hj, hlow, hhigh]
  exact h.edge_mono (Nat.succ_le_succ hij)

theorem Accepted.lt_place_iff (h : Accepted weights) {thresholds : Thresholds}
    (hthresholds : Thresholds.ofWeights weights = .ok thresholds) (word : UInt32)
    (hi : i + 1 < weights.length) : i < thresholds.place word ↔
      edge weights (i + 1) ≤ reach (sum weights).units (high word) := by
  obtain ⟨hborder, htotal, hunits⟩ := h.thresholds hthresholds
  obtain ⟨hreached, hreach⟩ := fraction_mul htotal word
  have hsize := Thresholds.size_borders hthresholds
  obtain ⟨hamount, hedge⟩ := hborder i (by omega)
  rw [(h.ordered hthresholds).lt_place_iff word (by omega), hamount.le_iff hreached, hedge, hreach,
    hunits]

/-- **A word leads to the interval it reaches**, of which the last one is open. -/
theorem Accepted.place_weighted_iff (h : Accepted weights) {thresholds : Thresholds}
    (hthresholds : Thresholds.ofWeights weights = .ok thresholds) (word : UInt32)
    (hi : i < weights.length) : thresholds.place word = i ↔
      edge weights i ≤ reach (sum weights).units (high word) ∧
        (i + 1 < weights.length → reach (sum weights).units (high word) < edge weights (i + 1)) := by
  have hplace := Thresholds.place_lt hthresholds word
  have hlower : i ≤ thresholds.place word ↔
      edge weights i ≤ reach (sum weights).units (high word) := by
    cases i with
    | zero =>
      rw [edge_zero]
      exact iff_of_true (Nat.zero_le _) (Nat.zero_le _)
    | succ i => exact h.lt_place_iff hthresholds word hi
  have hupper : thresholds.place word ≤ i ↔ (i + 1 < weights.length →
      reach (sum weights).units (high word) < edge weights (i + 1)) := by
    by_cases hlast : i + 1 < weights.length
    · rw [← Nat.not_lt, h.lt_place_iff hthresholds word hlast, Nat.not_le]
      exact ⟨fun hlt _ => hlt, fun hlt => hlt hlast⟩
    · exact iff_of_true (by omega) fun hlt => absurd hlt hlast
  rw [← hlower, ← hupper, and_comm]
  exact Nat.le_antisymm_iff

/-! ### All intervals -/

theorem Accepted.edge_fixed (h : Accepted weights) {only : Nat}
    (honly : positivePlaces weights = [only]) (hi : i ≤ weights.length) :
    edge weights i = if i ≤ only then 0 else (sum weights).units := by
  have hzero (k : Nat) (hk : k < weights.length) (hne : k ≠ only) : weights[k].units = 0 := by
    apply (h.amount _ (List.getElem_mem hk)).not_pos_iff.mp
    rw [← Bool.not_eq_true, pos_iff_of_only honly hk]
    exact hne
  split
  · rw [h.edge_eq_of_zeros (Nat.zero_le i) hi fun k hk _ hki => hzero k hk (by omega), edge_zero]
  · rw [← edge_length]
    exact (h.edge_eq_of_zeros hi (Nat.le_refl _) fun k hk hik _ => hzero k hk (by omega)).symm

/-- **Where no word reaches the total, the words of a place are those that reach its interval**,
whether the sampler is fixed or searches. -/
theorem place_eq_iff {sampler : Sampler} (h : ofWeights weights = .ok sampler)
    (htotal : 2 ^ 22 < (sum weights).units) (word : UInt32) (hi : i < weights.length) :
    sampler.place word = i ↔ edge weights i ≤ reach (sum weights).units (high word) ∧
      reach (sum weights).units (high word) < edge weights (i + 1) := by
  have hreach := reach_lt htotal (high_lt word)
  obtain ⟨haccepted, ⟨only, honly, rfl⟩ | ⟨-, thresholds, hthresholds, rfl⟩⟩ := ofWeights_eq_ok h
  · rw [haccepted.edge_fixed honly (Nat.le_of_lt hi), haccepted.edge_fixed honly hi]
    show only = i ↔ _
    split <;> split <;> omega
  · rw [place, haccepted.place_weighted_iff hthresholds word hi]
    refine and_congr_right fun _ => ⟨fun hupper => ?_, fun hupper _ => hupper⟩
    by_cases hlast : i + 1 < weights.length
    · exact hupper hlast
    · have : i + 1 = weights.length := by omega
      rw [this, edge_length]
      exact hreach

end Sampler

/-! ### Choices -/

namespace WeightedChoice
variable {α : Type} {items : List (Single × α)} {choice : WeightedChoice α}

/-- A choice keeps its items and has the sampler of their weights. -/
theorem ofItems_eq_ok (h : ofItems items = .ok choice) : choice.items = items.toArray ∧
    Sampler.ofWeights (items.map (·.1)) = .ok choice.sampler := by
  unfold ofItems at h
  split at h
  · rename_i sampler hsampler
    cases h
    exact ⟨rfl, hsampler⟩
  · cases h

theorem exists_ofItems {sampler : Sampler}
    (h : Sampler.ofWeights (items.map (·.1)) = .ok sampler) :
    ∃ choice, ofItems items = .ok choice ∧ choice.sampler = sampler := by
  unfold ofItems
  split
  · rename_i found hfound
    cases hfound.symm.trans h
    exact ⟨_, rfl, rfl⟩
  · rename_i fault hfault
    cases hfault.symm.trans h

/-- The weight of the item that a word leads to. -/
def weight (choice : WeightedChoice α) (word : UInt32) : Single :=
  have := choice.place_lt word
  choice.items[choice.sampler.place word].1

theorem getElem?_place (h : ofItems items = .ok choice) (word : UInt32) :
    items[choice.sampler.place word]? = some (choice.weight word, choice.pick word) := by
  calc items[choice.sampler.place word]?
      = choice.items[choice.sampler.place word]? := by
        rw [(ofItems_eq_ok h).1, List.getElem?_toArray]
    _ = _ := Array.getElem?_eq_getElem (choice.place_lt word)

theorem pick_congr {r s : UInt32} (h : choice.sampler.place r = choice.sampler.place s) :
    choice.pick r = choice.pick s := by
  simp only [pick, h]

/-- The item that is chosen is the one that the next word leads to, whether it is drawn or not. -/
theorem choose_fst (choice : WeightedChoice α) (source : Source) :
    (choice.choose source).1 = choice.pick source.next.1 := by
  unfold choose
  split
  · rename_i hfixed
    apply pick_congr
    cases hsampler : choice.sampler with
    | fixed place => rfl
    | weighted thresholds => simp [isDeterministic, hsampler] at hfixed
  · rfl

end WeightedChoice

end LSystem
