import LSystem.Proofs.Binary.Range
import LSystem.Proofs.Choice.Intervals

/-! The places that choices lead to.

Weights are rounded as they are summed, so a small one can vanish in a sum and a border can stand where
the one before it does. But rounding turns no order around, and what is added is never below zero: the
borders rise to the total, and all of them are numbers (`Sampler.Accepted.divides`). That is all that
the search relies on, so a choice always finds an item: the only one of positive weight, or the one
behind as many others as there are borders that the word has reached
(`WeightedChoice.choose_finds_place`). -/
namespace LSystem

open Binary

/-! ### Divided stretches -/

/-- Thresholds that divide a stretch by weights. -/
structure Thresholds.Divides (thresholds : Thresholds) (weights : List Single) : Prop where
  /-- There is a border between every two weights. -/
  size_borders : thresholds.borders.size + 1 = weights.length
  /-- It is the sum of the weights before it, with either sign of a zero. -/
  border_equal : ∀ i (_ : i < thresholds.borders.size),
    thresholds.borders[i].equal (Sampler.sum (weights.take (i + 1))) = true
  isFinite_border : ∀ i (_ : i < thresholds.borders.size), thresholds.borders[i].isFinite = true
  ordered : thresholds.Ordered
  border_le : ∀ i (_ : i < thresholds.borders.size),
    thresholds.borders[i].le thresholds.total = true
  /-- The stretch ends at the sum of all weights. -/
  total_equal : thresholds.total.equal (Sampler.sum weights) = true
  isFinite_total : thresholds.total.isFinite = true
  total_pos : Binary.lt 0 thresholds.total = true

/-- **Accepted weights divide their stretch in order**, whatever their sizes. -/
theorem Sampler.Accepted.divides {weights : List Single} (h : Accepted weights)
    {thresholds : Thresholds} (hthresholds : Thresholds.ofWeights weights = .ok thresholds) :
    thresholds.Divides weights := by
  obtain ⟨hborder, htotal, hunits⟩ := h.thresholds hthresholds
  have hsize := Thresholds.size_borders hthresholds
  exact
    { size_borders := hsize
      border_equal := fun i hi => by
        obtain ⟨hamount, hedge⟩ := hborder i hi
        exact (hamount.equal_iff (h.amount_sum_take (i + 1))).mpr hedge
      isFinite_border := fun i hi => (hborder i hi).1.isFinite
      ordered := h.ordered hthresholds
      border_le := fun i hi => by
        obtain ⟨hamount, hedge⟩ := hborder i hi
        rw [hamount.le_iff htotal, hedge, hunits]
        exact h.edge_le_sum (by omega)
      total_equal := (htotal.equal_iff h.amount_sum).mpr hunits
      isFinite_total := htotal.isFinite
      total_pos := by
        rw [htotal.pos_iff, hunits]
        exact h.sum_pos }

/-! ### Choices -/

namespace WeightedChoice
variable {α : Type} {items : List (Single × α)} {choice : WeightedChoice α}

/-- **A choice finds its place, whatever the weights and the word.** What is chosen is the item at
the place that the next word leads to. The place is that of the only positive weight, or the weights
divide their stretch in order, the borders that a word has reached come first, and the place is their
number, which is the place of an item. -/
theorem choose_finds_place (h : ofItems items = .ok choice) :
    (∀ source : Source, items[choice.sampler.place source.next.1]? =
      some (choice.weight source.next.1, (choice.choose source).1)) ∧
    ((∃ only, choice.sampler = .fixed only ∧ only < items.length ∧
        ∀ i (_ : i < items.length), Binary.lt 0 items[i].1 = true ↔ i = only) ∨
      ∃ thresholds, choice.sampler = .weighted thresholds ∧ thresholds.Divides (items.map (·.1)) ∧
        ∀ word,
          (∀ i (_ : i < thresholds.borders.size), i < thresholds.place word ↔
            thresholds.borders[i].le (Thresholds.fraction word * thresholds.total) = true) ∧
          thresholds.place word = thresholds.borders.countP
            (fun border => border.le (Thresholds.fraction word * thresholds.total)) ∧
          thresholds.place word < items.length) := by
  obtain ⟨-, hsampler⟩ := ofItems_eq_ok h
  refine ⟨fun source => ?_, ?_⟩
  · rw [choose_fst]
    exact getElem?_place h source.next.1
  obtain ⟨haccepted, ⟨only, honly, hfixed⟩ | ⟨-, thresholds, hthresholds, hweighted⟩⟩ :=
    Sampler.ofWeights_eq_ok hsampler
  · refine .inl ⟨only, hfixed, ?_, fun i hi => ?_⟩
    · have hlt := Sampler.lt_of_mem_positivePlaces (honly ▸ List.mem_singleton.mpr rfl)
      rwa [List.length_map] at hlt
    · rw [← Sampler.pos_iff_of_only honly (by rwa [List.length_map]), List.getElem_map]
  · have hordered := haccepted.ordered hthresholds
    refine .inr ⟨thresholds, hweighted, haccepted.divides hthresholds, fun word =>
      ⟨fun i hi => hordered.lt_place_iff word hi, hordered.place_eq_countP word, ?_⟩⟩
    have hlt := Thresholds.place_lt hthresholds word
    rwa [List.length_map] at hlt

/-- The smallest number, the largest and one that vanishes beside it divide a stretch in order, and of
their two borders the last word reaches one. -/
theorem choose_finds_vanishing : ∃ (choice : WeightedChoice Char) (thresholds : Thresholds),
    ofItems [(.round false 1 1, 'a'), (largest false, 'b'), (1, 'c')] = .ok choice ∧
      choice.sampler = .weighted thresholds ∧ thresholds.total = largest false ∧
      thresholds.Divides [.round false 1 1, largest false, 1] ∧
      thresholds.place 0xffffffff = 1 := by
  have hsampler : Sampler.ofWeights
      ([(.round false 1 1, 'a'), (largest false, 'b'), (1, 'c')].map (·.1)) =
        .ok (.weighted ⟨#[.round false 1 1, largest false], largest false⟩) := by decide +kernel
  obtain ⟨choice, hchoice, hplaces⟩ := exists_ofItems hsampler
  obtain ⟨-, ⟨only, hfixed, -⟩ | ⟨thresholds, hweighted, hdivides, hfound⟩⟩ :=
    choose_finds_place hchoice
  · exact nomatch hplaces.symm.trans hfixed
  · obtain rfl := Sampler.weighted.inj (hplaces.symm.trans hweighted)
    simp only [List.map_cons, List.map_nil] at hdivides
    refine ⟨choice, _, hchoice, hplaces, rfl, hdivides, ?_⟩
    rw [(hfound 0xffffffff).2.1]
    decide +kernel

end WeightedChoice

end LSystem
