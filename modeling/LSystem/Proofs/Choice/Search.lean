import LSystem.Choice.Thresholds
import LSystem.Proofs.Binary.Rounding

/-! Searching borders.

Halving a range ends behind the places that are `below`, if those come first
(`lt_partitionPoint_iff`). Where borders stand in order, those that a word has reached come first, so
halving ends behind exactly them (`Thresholds.Ordered.lt_place_iff`), and the searched place is their
number (`Thresholds.Ordered.place_eq_countP`), as any other search would find it. -/
namespace LSystem

open Binary

/-! ### Halving -/

theorem le_partitionPoint (below : Nat → Bool) {low high : Nat} (h : low ≤ high) :
    low ≤ partitionPoint below low high := by
  fun_induction partitionPoint below low high with
  | case1 low high hlt hbelow ih => exact Nat.le_trans (by omega) (ih (by omega))
  | case2 low high hlt hbelow ih => exact ih (by omega)
  | case3 low high hle => exact Nat.le_refl low

/-- **Halving finds the border**: where the places that are `below` come first, it ends behind them. -/
theorem lt_partitionPoint_iff (below : Nat → Bool) {low high i : Nat}
    (hfirst : ∀ i j, i ≤ j → j < high → below j = true → below i = true) (hlow : low ≤ i)
    (hhigh : i < high) : i < partitionPoint below low high ↔ below i = true := by
  fun_induction partitionPoint below low high with
  | case1 low high hlt hbelow ih =>
    by_cases hi : (low + high) / 2 + 1 ≤ i
    · exact ih hfirst hi hhigh
    · have hend : (low + high) / 2 + 1 ≤ partitionPoint below ((low + high) / 2 + 1) high :=
        le_partitionPoint below (by omega)
      exact iff_of_true (by omega) (hfirst i _ (by omega) (by omega) hbelow)
  | case2 low high hlt hbelow ih =>
    by_cases hi : i < (low + high) / 2
    · exact ih (fun i j hij hj => hfirst i j hij (by omega)) hlow hi
    · have hend : partitionPoint below low ((low + high) / 2) ≤ (low + high) / 2 :=
        partitionPoint_le below (by omega)
      exact iff_of_false (by omega) fun hmem => hbelow (hfirst _ i (by omega) hhigh hmem)
  | case3 low high hle => omega

/-! ### Counting -/

/-- A place behind exactly the items that count is their number. -/
theorem countP_eq_of_lt_iff {α : Type} {counts : α → Bool} {list : List α} {place : Nat}
    (hplace : place ≤ list.length)
    (h : ∀ i (hi : i < list.length), i < place ↔ counts list[i] = true) :
    list.countP counts = place := by
  have hfront : (list.take place).countP counts = (list.take place).length := by
    rw [List.countP_eq_length]
    intro item hmem
    obtain ⟨i, hi, rfl⟩ := List.mem_take_iff_getElem.mp hmem
    exact (h i (by omega)).mp (by omega)
  have hback : (list.drop place).countP counts = 0 := by
    rw [List.countP_eq_zero]
    intro item hmem
    obtain ⟨i, hi, rfl⟩ := List.mem_drop_iff_getElem.mp hmem
    rw [← h]
    omega
  calc list.countP counts
      = (list.take place).countP counts + (list.drop place).countP counts := by
        rw [← List.countP_append, List.take_append_drop]
    _ = place := by rw [hfront, hback, List.length_take_of_le hplace, Nat.add_zero]

/-! ### Borders in order -/

namespace Thresholds
variable {thresholds : Thresholds}

/-- The borders are numbers, none before a smaller one. -/
def Ordered (thresholds : Thresholds) : Prop :=
  ∀ i j (_ : i ≤ j) (_ : j < thresholds.borders.size),
    thresholds.borders[i].le thresholds.borders[j] = true

/-- Where a word has reached a border, it has reached those before, so the search ends behind them. -/
theorem Ordered.lt_place_iff (h : thresholds.Ordered) (word : UInt32) {i : Nat}
    (hi : i < thresholds.borders.size) : i < thresholds.place word ↔
      thresholds.borders[i].le (fraction word * thresholds.total) = true := by
  have hborder {k : Nat} (hk : k < thresholds.borders.size) :
      thresholds.borders.getD k thresholds.total = thresholds.borders[k] :=
    (Array.getElem_eq_getD thresholds.total).symm
  rw [place, lt_partitionPoint_iff _ ?_ (Nat.zero_le i) hi, hborder hi]
  intro i j hij hj hreached
  rw [hborder hj] at hreached
  rw [hborder (Nat.lt_of_le_of_lt hij hj)]
  exact Binary.le_trans (h i j hij hj) hreached

/-- **Searching counts**: the place of a word is the number of borders that it has reached. -/
theorem Ordered.place_eq_countP (h : thresholds.Ordered) (word : UInt32) :
    thresholds.place word =
      thresholds.borders.countP fun border => border.le (fraction word * thresholds.total) := by
  rw [← Array.countP_toList]
  refine (countP_eq_of_lt_iff (partitionPoint_le _ (Nat.zero_le _)) fun i hi => ?_).symm
  rw [Array.getElem_toList]
  exact h.lt_place_iff word hi

/-- Out of order, halving can end behind a border that is not reached. -/
example : (⟨#[1, 0, 1], 2⟩ : Thresholds).place 0 = 2 ∧
    (#[1, 0, 1] : Array Single).countP (fun border => border.le (fraction 0 * 2)) = 1 := by
  decide +kernel

end Thresholds

end LSystem
