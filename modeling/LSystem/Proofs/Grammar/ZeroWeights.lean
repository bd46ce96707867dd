import LSystem.Proofs.Grammar.Draws
import Mathlib.Tactic.NormNum

/-! What becomes of weights of zero.

The interval of a zero weight is empty, but the search leaves the last interval open, and the words
that reach the total fall into it. So the items of weight zero are left alone by every word exactly
if there is nothing to search, or the last weight is positive, or the total is more than `2 ^ -127`,
which no word reaches (`Sampler.place_positive_iff`). A grammar whose rules have such weights only
ever inserts successors of positive weight. -/
namespace LSystem

open Binary

/-! ### Choices -/

namespace Sampler
variable {weights : List Single} {sampler : Sampler} {i : Nat}

/-- One positive weight alone, or a positive weight at the end, or a total that no word reaches. -/
def SparesZeros (weights : List Single) : Prop :=
  (positivePlaces weights).length = 1 ∨ weights.getLast?.any (Binary.lt 0) = true ∨
    1 / 2 ^ 127 < (sum weights).value

instance (weights : List Single) : Decidable (SparesZeros weights) :=
  inferInstanceAs (Decidable (_ ∨ _ ∨ _))

/-- An interval with a width has a positive weight. -/
theorem Accepted.positive_of_edge_lt (h : Accepted weights) (hi : i < weights.length)
    (hlt : edge weights i < edge weights (i + 1)) : i ∈ positivePlaces weights := by
  refine mem_positivePlaces.mpr ⟨hi, (h.amount _ (List.getElem_mem hi)).pos_iff.mpr ?_⟩
  rw [Nat.pos_iff_ne_zero]
  intro hzero
  rw [h.edge_succ_of_zero hi hzero] at hlt
  exact Nat.lt_irrefl _ hlt

theorem Accepted.half_digits_iff (h : Accepted weights) :
    1 / 2 ^ 127 < (sum weights).value ↔ 2 ^ 22 < (sum weights).units := by
  have hvalue : (1 / 2 ^ 127 : ℚ) = ((2 ^ 22 : Nat) : ℚ) / 2 ^ Format.single.scale := by
    change _ = _ / (2 : ℚ) ^ 149
    norm_num
  rw [hvalue, h.amount_sum.lt_value_iff]

/-- The last place is reached where the last word reaches the total. -/
theorem Accepted.place_last (h : Accepted weights) {thresholds : Thresholds}
    (hthresholds : Thresholds.ofWeights weights = .ok thresholds)
    (htotal : (sum weights).units ≤ 2 ^ 22) :
    thresholds.place 0xffffffff + 1 = weights.length := by
  have hplace := Thresholds.place_lt hthresholds 0xffffffff
  have hreach : reach (sum weights).units (high 0xffffffff) = (sum weights).units :=
    reach_last h.sum_pos htotal
  have hlast : thresholds.place 0xffffffff = weights.length - 1 := by
    rw [h.place_weighted_iff hthresholds _ (by omega), hreach]
    exact ⟨h.edge_le_sum (by omega), fun hlt => by omega⟩
  omega

/-- **Every word leads to a positive weight** exactly if the weights are such. -/
theorem place_positive_iff (h : ofWeights weights = .ok sampler) :
    (∀ word, sampler.place word ∈ positivePlaces weights) ↔ SparesZeros weights := by
  obtain ⟨haccepted, ⟨only, honly, rfl⟩ | ⟨hmany, thresholds, hthresholds, rfl⟩⟩ := ofWeights_eq_ok h
  · have hmem : only ∈ positivePlaces weights := honly ▸ List.mem_singleton.mpr rfl
    exact iff_of_true (fun _ => hmem) (.inl (by rw [honly]; rfl))
  constructor
  · -- Were none of this so, the last word would lead to the last weight, which is zero.
    intro hpositive
    by_cases htotal : 2 ^ 22 < (sum weights).units
    · exact .inr (.inr (haccepted.half_digits_iff.mpr htotal))
    · have hlast := haccepted.place_last hthresholds (by omega)
      obtain ⟨hlt, hpos⟩ := mem_positivePlaces.mp (hpositive 0xffffffff)
      change Binary.lt 0 weights[thresholds.place 0xffffffff] = true at hpos
      refine .inr (.inl ?_)
      rw [List.getLast?_eq_getElem?, ← hlast, Nat.add_sub_cancel,
        List.getElem?_eq_getElem (by omega), Option.any_some]
      exact hpos
  · -- Before the last place intervals have an end, so only the last one needs what is spared.
    intro hspares word
    have hlt := Thresholds.place_lt hthresholds word
    obtain ⟨hlow, hhigh⟩ := (haccepted.place_weighted_iff hthresholds word hlt).mp rfl
    by_cases hnext : thresholds.place word + 1 < weights.length
    · exact haccepted.positive_of_edge_lt hlt (Nat.lt_of_le_of_lt hlow (hhigh hnext))
    · have hlast : thresholds.place word + 1 = weights.length := by omega
      rcases hspares with hone | hpos | htotal
      · exact absurd hone hmany
      · rw [List.getLast?_eq_getElem?, ← hlast, Nat.add_sub_cancel,
          List.getElem?_eq_getElem hlt, Option.any_some] at hpos
        exact mem_positivePlaces.mpr ⟨hlt, hpos⟩
      · apply haccepted.positive_of_edge_lt hlt
        exact Nat.lt_of_le_of_lt hlow ((place_eq_iff h (haccepted.half_digits_iff.mp htotal) word
          hlt).mp rfl).2

end Sampler

namespace WeightedChoice
variable {α : Type} {items : List (Single × α)} {choice : WeightedChoice α}

theorem weight_positive_iff (h : ofItems items = .ok choice) (word : UInt32) :
    Binary.lt 0 (choice.weight word) = true ↔
      choice.sampler.place word ∈ Sampler.positivePlaces (items.map (·.1)) := by
  have hplace := getElem?_place h word
  obtain ⟨hlt, hitem⟩ := List.getElem?_eq_some_iff.mp hplace
  rw [Sampler.mem_positivePlaces]
  simp only [List.getElem_map, hitem, List.length_map]
  exact ⟨fun hpos => ⟨hlt, hpos⟩, fun ⟨_, hpos⟩ => hpos⟩

/-- Whatever the source, an item of positive weight is chosen, exactly if the weights are such. -/
theorem choose_positive_iff (h : ofItems items = .ok choice) :
    (∀ source : Source, Binary.lt 0 (choice.weight source.next.1) = true) ↔
      Sampler.SparesZeros (items.map (·.1)) := by
  rw [← Sampler.place_positive_iff (ofItems_eq_ok h).2]
  simp only [weight_positive_iff h]
  exact ⟨fun hall word => hall ⟨fun _ => word, 0⟩, fun hall source => hall source.next.1⟩

end WeightedChoice

/-! ### Rewriting -/

namespace Grammar
variable {grammar : Grammar}

/-- The words that a symbol becomes by alternatives of positive weight. -/
def live (grammar : Grammar) (symbol : Symbol) : List Word :=
  match grammar.production? symbol with
  | some choice => (choice.items.toList.filter fun item => Binary.lt 0 item.1).map (·.2)
  | none => [[symbol]]

theorem successor_live {symbol : Symbol} (source : Source)
    (h : ∀ choice, grammar.production? symbol = some choice →
      Binary.lt 0 (choice.weight source.next.1) = true) :
    (grammar.successor symbol source).1 ∈ grammar.live symbol := by
  unfold successor live
  cases hproduction : grammar.production? symbol with
  | none => exact List.mem_singleton.mpr rfl
  | some choice =>
    show (choice.choose source).1 ∈ _
    rw [choice.choose_fst]
    refine List.mem_map.mpr ⟨_, List.mem_filter.mpr ⟨?_, h choice hproduction⟩, rfl⟩
    exact Array.getElem_mem_toList (choice.place_lt source.next.1)

/-- Rewriting puts the words together that the symbols become. -/
theorem rewrite_live (h : ∀ symbol choice, grammar.production? symbol = some choice →
      ∀ source : Source, Binary.lt 0 (choice.weight source.next.1) = true)
    (word : Word) (source : Source) :
    ∃ nexts, List.Forall₂ (fun symbol next => next ∈ grammar.live symbol) word nexts ∧
      (grammar.rewrite word source).1 = nexts.flatten := by
  refine ⟨grammar.outcomes source word, ?_, congrArg Prod.fst (grammar.rewrite_eq word source)⟩
  exact grammar.forall₂_outcomes
    (fun symbol source => successor_live source fun choice hchoice => h symbol choice hchoice source) _ _

end Grammar

/-- A grammar whose rules spare their zeros inserts no successor of weight zero. -/
theorem Definition.rewrite_live {definition : Definition} {grammar : Grammar}
    (h : definition.build = .ok grammar)
    (hrules : ∀ rule ∈ definition.rules, Sampler.SparesZeros (rule.2.map (·.1)))
    (word : Word) (source : Source) :
    ∃ nexts, List.Forall₂ (fun symbol next => next ∈ grammar.live symbol) word nexts ∧
      (grammar.rewrite word source).1 = nexts.flatten := by
  refine Grammar.rewrite_live (fun symbol choice hchoice => ?_) word source
  obtain ⟨rule, hrule, -, hmade⟩ := exists_rule_of_build h hchoice
  exact (WeightedChoice.choose_positive_iff hmade).mpr (hrules rule hrule)

/-- **When weights of zero are left alone.** A choice never takes an item of weight zero, whatever
the source, exactly if its weights spare them; and a grammar whose rules all do never inserts a
successor of weight zero, whatever it rewrites. -/
theorem zeros_spared {α : Type} {items : List (Single × α)} {choice : WeightedChoice α}
    (h : WeightedChoice.ofItems items = .ok choice) :
    ((∀ source : Source, ∃ weight, items[choice.sampler.place source.next.1]? =
        some (weight, (choice.choose source).1) ∧ Binary.lt 0 weight = true) ↔
      Sampler.SparesZeros (items.map (·.1))) ∧
    (∀ (definition : Definition) (grammar : Grammar), definition.build = .ok grammar →
      (∀ rule ∈ definition.rules, Sampler.SparesZeros (rule.2.map (·.1))) →
        ∀ (word : Word) (source : Source), ∃ nexts,
          List.Forall₂ (fun symbol next => next ∈ grammar.live symbol) word nexts ∧
            (grammar.rewrite word source).1 = nexts.flatten) := by
  refine ⟨?_, fun definition grammar hbuild hrules => Definition.rewrite_live hbuild hrules⟩
  rw [← WeightedChoice.choose_positive_iff h]
  refine forall_congr' fun source => ?_
  rw [WeightedChoice.getElem?_place h, choice.choose_fst]
  simp

/-- Between weights of one, a weight of zero is never taken. -/
theorem choose_spares_middle : ∃ choice : WeightedChoice Char,
    WeightedChoice.ofItems [(1, 'a'), (0, 'b'), (1, 'c')] = .ok choice ∧
      ∀ source : Source, ∃ weight, [((1 : Single), 'a'), (0, 'b'), (1, 'c')][
        choice.sampler.place source.next.1]? = some (weight, (choice.choose source).1) ∧
          Binary.lt 0 weight = true := by
  have hsampler : Sampler.ofWeights ([(1, 'a'), (0, 'b'), (1, 'c')].map (·.1)) =
      .ok (.weighted ⟨#[1, 1], 2⟩) := by decide +kernel
  obtain ⟨choice, hchoice, -⟩ := WeightedChoice.exists_ofItems hsampler
  have hspares : Sampler.SparesZeros [1, 0, 1] := .inr (.inl (by decide +kernel))
  exact ⟨choice, hchoice, (zeros_spared hchoice).1.mpr hspares⟩

/-- The smallest number above zero. -/
def Binary.smallest : Single := .round false 1 1

/-- Behind two of the smallest weights, a weight of zero is taken by the last word. -/
theorem choose_takes_last_zero : ∃ choice : WeightedChoice Char,
    WeightedChoice.ofItems [(smallest, 'a'), (smallest, 'b'), (0, 'c')] = .ok choice ∧
      (choice.choose (.cycle [0xffffffff])).1 = 'c' := by
  let thresholds : Thresholds := ⟨#[smallest, smallest + smallest], smallest + smallest⟩
  have hsampler : Sampler.ofWeights ([(smallest, 'a'), (smallest, 'b'), (0, 'c')].map (·.1)) =
      .ok (.weighted thresholds) := by decide +kernel
  have hlast : thresholds.place 0xffffffff = 2 := by decide +kernel
  obtain ⟨choice, hchoice, hplaces⟩ := WeightedChoice.exists_ofItems hsampler
  have hplace : choice.sampler.place 0xffffffff = 2 := by
    rw [hplaces]
    exact hlast
  have hitem := WeightedChoice.getElem?_place hchoice 0xffffffff
  rw [hplace] at hitem
  refine ⟨choice, hchoice, ?_⟩
  rw [choice.choose_fst]
  exact (congrArg Prod.snd (Option.some.inj hitem)).symm

end LSystem
