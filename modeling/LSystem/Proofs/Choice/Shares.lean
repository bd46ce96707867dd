import LSystem.Proofs.Choice.Intervals
import Mathlib.Data.Finset.Card
import Mathlib.Tactic.Linarith
import Mathlib.Tactic.Ring

/-! Shares of the words.

A word counts by its high bits, of which there are `2 ^ 23`. Those that reach less than some units of
the total are as many as the units' part of the total says, but for less than one
(`Sampler.countBelow_error`): what a word reaches is rounded by half a spacing at most, and for a
total of all digits a spacing is no more than the total's part of one word. An interval has two edges,
so its words are as many as its width says, but for less than two
(`WeightedChoice.choose_proportional`). -/
namespace LSystem

open Binary

namespace Sampler
variable {weights : List Single} {i j : Nat}

/-! ### Words by their high bits -/

/-- The first word with some high bits. -/
def ofHigh (high : Nat) : UInt32 := UInt32.ofNat (0x200 * high)

theorem high_ofHigh {bits : Nat} (h : bits < 0x800000) : high (ofHigh bits) = bits := by
  rw [high_eq, ofHigh, UInt32.toNat_ofNat']
  omega

/-- How many high bits lead to a place. -/
def share (sampler : Sampler) (place : Nat) : Nat :=
  ((Finset.range 0x800000).filter fun bits => sampler.place (ofHigh bits) = place).card

/-- How many high bits reach less than some units of a total. -/
def countBelow (total units : Nat) : Nat :=
  ((Finset.range 0x800000).filter fun bits => reach total bits < units).card

/-! ### Counting up to an edge -/

theorem scaled_lt_of_reach_lt {total units bits : Nat} (hunits : Format.single.Representable units)
    (h : reach total bits < units) : bits * total < units * 0x800000 := by
  rw [← Nat.not_le] at h ⊢
  exact fun hle => h (Format.single.le_nearest_of_representable (by decide) hunits hle)

theorem reach_lt_of_scaled_lt {total units bits : Nat} (htotal : 2 ^ 23 ≤ total)
    (hbits : bits < 0x800000) (h : 2 * (bits * total) + total < 2 * (units * 0x800000)) :
    reach total bits < units := by
  have hspacing : 2 ^ 23 * Format.single.spacing total ≤ total := Format.single.spacing_le htotal
  have hround := reach_mul_le total (Nat.le_of_lt hbits)
  omega

theorem lt_div_iff_add_le {n total bits : Nat} (hpos : 0 < total) :
    bits < n / total ↔ bits * total + total ≤ n := by
  rw [Nat.lt_iff_add_one_le, Nat.le_div_iff_mul_le hpos, Nat.add_one_mul]

theorem countBelow_mul_lt {total units : Nat} (hunits : Format.single.Representable units)
    (hpos : 0 < total) : countBelow total units * total < units * 0x800000 + total := by
  have hcount : countBelow total units ≤ (units * 0x800000 + (total - 1)) / total := by
    rw [← Finset.card_range ((units * 0x800000 + (total - 1)) / total)]
    refine Finset.card_le_card fun bits hmem => ?_
    have hscaled := scaled_lt_of_reach_lt hunits (Finset.mem_filter.mp hmem).2
    rw [Finset.mem_range, lt_div_iff_add_le hpos]
    omega
  have := (Nat.le_div_iff_mul_le hpos).mp hcount
  omega

theorem lt_countBelow_mul {total units : Nat} (htotal : 2 ^ 23 ≤ total) (hle : units ≤ total) :
    units * 0x800000 < countBelow total units * total + total := by
  have hpos : 0 < total := by omega
  have hcount : units * 0x800000 / total ≤ countBelow total units := by
    rw [← Finset.card_range (units * 0x800000 / total)]
    refine Finset.card_le_card fun bits hmem => ?_
    rw [Finset.mem_range, lt_div_iff_add_le hpos] at hmem
    -- The units are no more than the total, so what is below their part is high bits of a word.
    have hbits : bits < 0x800000 := by
      have := Nat.mul_le_mul_right 0x800000 hle
      apply Nat.lt_of_mul_lt_mul_right (a := total)
      omega
    rw [Finset.mem_filter, Finset.mem_range]
    exact ⟨hbits, reach_lt_of_scaled_lt htotal hbits (by omega)⟩
  have := (Nat.div_lt_iff_lt_mul hpos).mp (Nat.lt_succ_of_le hcount)
  rw [Nat.succ_mul] at this
  exact this

/-- **The words below some units are as many as the units' part of the total**, but for less than
one. -/
theorem countBelow_error {total units : Nat} (hunits : Format.single.Representable units)
    (htotal : 2 ^ 23 ≤ total) (hle : units ≤ total) :
    |(countBelow total units : ℚ) * total - 2 ^ 23 * units| < (total : ℚ) := by
  have habove : (countBelow total units : ℚ) * total < units * 0x800000 + total := by
    exact_mod_cast countBelow_mul_lt hunits (by omega)
  have hbelow : (units : ℚ) * 0x800000 < countBelow total units * total + total := by
    exact_mod_cast lt_countBelow_mul htotal hle
  rw [abs_lt]
  constructor <;> linarith

/-! ### Counting between edges -/

variable {sampler : Sampler}

/-- The words below an interval and its own are those below its end. -/
theorem countBelow_add_share (h : ofWeights weights = .ok sampler)
    (htotal : 2 ^ 22 < (sum weights).units) (hi : i < weights.length) :
    countBelow (sum weights).units (edge weights i) + sampler.share i =
      countBelow (sum weights).units (edge weights (i + 1)) := by
  have hle := (ofWeights_eq_ok h).1.edge_le_succ i
  have hplace (bits : Nat) (hbits : bits ∈ Finset.range 0x800000) :
      sampler.place (ofHigh bits) = i ↔ edge weights i ≤ reach (sum weights).units bits ∧
        reach (sum weights).units bits < edge weights (i + 1) := by
    rw [place_eq_iff h htotal _ hi, high_ofHigh (Finset.mem_range.mp hbits)]
  rw [countBelow, countBelow, share, ← Finset.card_union_of_disjoint]
  · refine congrArg Finset.card (Finset.ext fun bits => ?_)
    simp only [Finset.mem_union, Finset.mem_filter, ← and_or_left]
    refine and_congr_right fun hbits => ?_
    rw [hplace bits hbits]
    omega
  · refine Finset.disjoint_filter.mpr fun bits hbits hbelow hmem => ?_
    have := ((hplace bits hbits).mp hmem).1
    omega

theorem share_of_zero (h : ofWeights weights = .ok sampler)
    (htotal : 2 ^ 22 < (sum weights).units) (hi : i < weights.length)
    (hzero : weights[i].units = 0) : sampler.share i = 0 := by
  have := countBelow_add_share h htotal hi
  rw [(ofWeights_eq_ok h).1.edge_succ_of_zero hi hzero] at this
  omega

/-- Words of larger high bits lead no further to the front. -/
theorem place_mono (h : ofWeights weights = .ok sampler) (htotal : 2 ^ 22 < (sum weights).units)
    {r s : UInt32} (hrs : high r ≤ high s) : sampler.place r ≤ sampler.place s := by
  have haccepted := (ofWeights_eq_ok h).1
  obtain ⟨hlow, -⟩ := (place_eq_iff h htotal r (place_lt h r)).mp rfl
  obtain ⟨-, hhigh⟩ := (place_eq_iff h htotal s (place_lt h s)).mp rfl
  rw [← Nat.not_lt]
  intro hlt
  have hedges : edge weights (sampler.place s + 1) ≤ edge weights (sampler.place r) :=
    haccepted.edge_mono hlt
  have hreach := reach_mono (sum weights).units hrs
  omega

/-- **A place has its share of the words**: as many as the width of its interval says, but for less
than two. -/
theorem share_error (h : ofWeights weights = .ok sampler) (htotal : 2 ^ 23 ≤ (sum weights).units)
    (hi : i < weights.length) :
    |(sampler.share i : ℚ) * (sum weights).units -
      2 ^ 23 * ((edge weights (i + 1) : ℚ) - edge weights i)| < (2 * (sum weights).units : ℚ) := by
  have haccepted := (ofWeights_eq_ok h).1
  have hcount : (countBelow (sum weights).units (edge weights i) : ℚ) + sampler.share i =
      countBelow (sum weights).units (edge weights (i + 1)) := by
    exact_mod_cast countBelow_add_share h (by omega) hi
  have herror (j : Nat) (hj : j ≤ weights.length) :=
    countBelow_error (representable_edge weights j) htotal (haccepted.edge_le_sum hj)
  calc |(sampler.share i : ℚ) * (sum weights).units -
          2 ^ 23 * ((edge weights (i + 1) : ℚ) - edge weights i)|
      = |((countBelow (sum weights).units (edge weights (i + 1)) : ℚ) * (sum weights).units -
            2 ^ 23 * edge weights (i + 1)) -
          ((countBelow (sum weights).units (edge weights i) : ℚ) * (sum weights).units -
            2 ^ 23 * edge weights i)| := by
        rw [← hcount]
        ring_nf
    _ ≤ _ := abs_sub _ _
    _ < (sum weights).units + (sum weights).units :=
        add_lt_add (herror (i + 1) hi) (herror i (Nat.le_of_lt hi))
    _ = 2 * (sum weights).units := (two_mul _).symm

/-- The sum of the weights before a place, as a value. -/
def sumBefore (weights : List Single) (i : Nat) : ℚ := (sum (weights.take i)).value

theorem Accepted.sumBefore_eq (h : Accepted weights) (i : Nat) :
    sumBefore weights i = edge weights i / 2 ^ Format.single.scale :=
  (h.amount_sum_take i).value_eq

/-- The smallest number of all digits is the value of `2 ^ 23` units. -/
theorem Accepted.digits_of_value_le (h : Accepted weights)
    (htotal : 1 / 2 ^ 126 ≤ (sum weights).value) : 2 ^ 23 ≤ (sum weights).units := by
  rw [← h.amount_sum.le_value_iff]
  refine le_trans (le_of_eq ?_) htotal
  change ((2 ^ 23 : Nat) : ℚ) / 2 ^ 149 = 1 / 2 ^ 126
  norm_num

theorem share_value_error (h : ofWeights weights = .ok sampler)
    (htotal : 2 ^ 23 ≤ (sum weights).units) (hi : i < weights.length) :
    |(sampler.share i : ℚ) * (sum weights).value -
      2 ^ 23 * (sumBefore weights (i + 1) - sumBefore weights i)| < 2 * (sum weights).value := by
  have haccepted := (ofWeights_eq_ok h).1
  have hunit : (0 : ℚ) < 2 ^ Format.single.scale := by positivity
  rw [haccepted.sumBefore_eq, haccepted.sumBefore_eq, haccepted.amount_sum.value_eq]
  generalize (2 : ℚ) ^ Format.single.scale = unit at hunit
  calc _ = |((sampler.share i : ℚ) * (sum weights).units -
          2 ^ 23 * ((edge weights (i + 1) : ℚ) - edge weights i)) / unit| := by
        ring_nf
    _ = _ / unit := by rw [abs_div, abs_of_pos hunit]
    _ < 2 * (sum weights).units / unit :=
        div_lt_div_of_pos_right (share_error h htotal hi) hunit
    _ = _ := mul_div_assoc _ _ _

end Sampler

namespace WeightedChoice
variable {α : Type} {items : List (Single × α)} {choice : WeightedChoice α}

/-- **Items are chosen in proportion to their weights**, as far as words can tell: where the total
has all digits, the item chosen is that of a place that never falls as the high bits of the word
rise. So the words of a place follow each other, those of a later place come later, and their high
bits are as many as the rounded sums before and behind the place say, but for less than two. An item
of weight zero has none. -/
theorem choose_proportional (h : ofItems items = .ok choice)
    (htotal : 1 / 2 ^ 126 ≤ (Sampler.sum (items.map (·.1))).value) :
    (∀ source, items[choice.sampler.place source.next.1]? =
      some (choice.weight source.next.1, (choice.choose source).1)) ∧
    (∀ r s : UInt32, r >>> 9 ≤ s >>> 9 → choice.sampler.place r ≤ choice.sampler.place s) ∧
    (∀ r s t : UInt32, r ≤ s → s ≤ t → choice.sampler.place r = choice.sampler.place t →
      choice.sampler.place s = choice.sampler.place t) ∧
    (∀ r s, choice.sampler.place r < choice.sampler.place s → r < s) ∧
    (∀ i, (Sampler.sum ((items.map (·.1)).take i)).isFinite = true) ∧
    ∀ i (hi : i < items.length),
      |(choice.sampler.share i : ℚ) * (Sampler.sum (items.map (·.1))).value -
          2 ^ 23 * (Sampler.sumBefore (items.map (·.1)) (i + 1) -
            Sampler.sumBefore (items.map (·.1)) i)| <
        2 * (Sampler.sum (items.map (·.1))).value ∧
      (items[i].1.equal 0 = true → choice.sampler.share i = 0) := by
  obtain ⟨hitems, hsampler⟩ := ofItems_eq_ok h
  have haccepted := (Sampler.ofWeights_eq_ok hsampler).1
  have hdigits := haccepted.digits_of_value_le htotal
  have hmono (r s : UInt32) (hrs : r >>> 9 ≤ s >>> 9) :
      choice.sampler.place r ≤ choice.sampler.place s :=
    Sampler.place_mono hsampler (by omega) hrs
  refine ⟨fun source => ?_, hmono, fun r s t hrs hst hsame => ?_, fun r s hlt => ?_, fun i => ?_,
    fun i hi => ?_⟩
  · rw [choose_fst]
    exact getElem?_place h source.next.1
  · exact Nat.le_antisymm (hmono s t (Sampler.high_mono hst)) (hsame ▸ hmono r s (Sampler.high_mono hrs))
  · rw [← UInt32.not_le]
    exact fun hle => Nat.not_le.mpr hlt (hmono s r (Sampler.high_mono hle))
  · exact (haccepted.amount_sum_take i).isFinite
  have hi' : i < (items.map (·.1)).length := by rwa [List.length_map]
  refine ⟨Sampler.share_value_error hsampler hdigits hi', fun hzero => ?_⟩
  apply Sampler.share_of_zero hsampler (by omega) hi'
  rw [List.getElem_map]
  exact (haccepted.amount _ (List.mem_map_of_mem (List.getElem_mem hi))).equal_zero_iff.mp hzero

/-- Of the weights two, one and one, the first has half of the words, but for less than two. -/
theorem choose_trio_proportional : ∃ choice : WeightedChoice Char,
    ofItems [(2, 'a'), (1, 'b'), (1, 'c')] = .ok choice ∧
      |(choice.sampler.share 0 : ℚ) * 4 - 2 ^ 23 * 2| < 2 * 4 := by
  have hsampler : Sampler.ofWeights ([(2, 'a'), (1, 'b'), (1, 'c')].map (·.1)) =
      .ok (.weighted ⟨#[2, 3], 4⟩) := by decide +kernel
  have htotal : (Sampler.sum [2, 1, 1]).value = 4 := by decide +kernel
  have hfirst : Sampler.sumBefore [2, 1, 1] 1 = 2 := by decide +kernel
  have hnone : Sampler.sumBefore [2, 1, 1] 0 = 0 := by decide +kernel
  obtain ⟨choice, hchoice, -⟩ := exists_ofItems hsampler
  obtain ⟨-, -, -, -, -, hshare⟩ := choose_proportional hchoice (by
    show _ ≤ (Sampler.sum [2, 1, 1]).value
    rw [htotal]
    norm_num)
  have herror := (hshare 0 (by decide)).1
  change |_ * (Sampler.sum [2, 1, 1]).value -
    2 ^ 23 * (Sampler.sumBefore [2, 1, 1] 1 - Sampler.sumBefore [2, 1, 1] 0)| <
      2 * (Sampler.sum [2, 1, 1]).value at herror
  rw [htotal, hfirst, hnone, sub_zero] at herror
  exact ⟨choice, hchoice, herror⟩

end WeightedChoice

end LSystem
