import LSystem.Proofs.Choice.Intervals

/-! Which items make a choice.

The checks of a choice come one after the other, so a fault says that every check before it was
passed (`Sampler.Fault`). Weights that pass them all divide a stretch, so the division itself rejects
nothing (`Sampler.fault_of_ofWeights`). A choice that is made is fixed exactly if one of its weights
is positive and no other (`WeightedChoice.isDeterministic_iff`). Together this tells for any items what
comes of them (`WeightedChoice.ofItems_verdict`). -/
namespace LSystem

open Binary

namespace Sampler
variable {weights : List Single}

/-! ### Faults -/

/-- The first fault of weights, in the order of the checks. -/
inductive Fault (weights : List Single) : ChoiceError → Prop where
  /-- There is none. -/
  | empty (h : weights = []) : Fault weights .empty
  /-- The first that is negative, infinite or no number. -/
  | invalidWeight {front back : List Single} {bad : Single} (h : weights = front ++ bad :: back)
      (hfront : ∀ weight ∈ front, Amount weight) (hbad : ¬Amount bad) :
      Fault weights (.invalidWeight bad)
  /-- Their sum is beyond the largest number. -/
  | overflow (hne : weights ≠ []) (hamount : ∀ weight ∈ weights, Amount weight)
      (hsum : (sum weights).isFinite = false) : Fault weights .overflow
  /-- None is positive. -/
  | allZero (hne : weights ≠ []) (hamount : ∀ weight ∈ weights, Amount weight)
      (hsum : (sum weights).isFinite = true)
      (hzero : ∀ weight ∈ weights, Binary.lt 0 weight = false) : Fault weights .allZero

/-- **Accepted weights divide a stretch.** -/
theorem Accepted.exists_thresholds (h : Accepted weights) :
    ∃ thresholds, Thresholds.ofWeights weights = .ok thresholds := by
  cases weights with
  | nil =>
    obtain ⟨weight, hmem, -⟩ := h.exists_pos
    cases hmem
  | cons first rest =>
    have hamount : ∀ weight ∈ first :: rest, Binary.le 0 weight = true := fun weight hmem =>
      (amount_zero.le_iff (h.amount weight hmem)).mpr (units_zero ▸ Nat.zero_le _)
    have hany : ((first :: rest).any fun weight => !Binary.le 0 weight) = false := by
      rw [List.any_eq_false]
      intro weight hmem
      rw [hamount weight hmem]
      decide
    obtain ⟨htotal, hunits⟩ :=
      h.amount_sum.of_rank?_eq (rank?_sum_cons (h.amount first List.mem_cons_self) rest)
    have hpos : (rest.foldl (· + ·) first).equal 0 = false := by
      rw [← Bool.not_eq_true, htotal.equal_zero_iff, hunits]
      exact Nat.pos_iff_ne_zero.mp h.sum_pos
    refine ⟨⟨(Thresholds.runningSums first rest).toArray, rest.foldl (· + ·) first⟩, ?_⟩
    rw [Thresholds.ofWeights, hany, hpos]
    rfl

/-- **A fault of weights is the first of theirs**, and never one of the division. -/
theorem fault_of_ofWeights {fault : ChoiceError} (h : ofWeights weights = .error fault) :
    Fault weights fault := by
  simp only [ofWeights] at h
  split at h
  · rename_i hempty
    cases h
    exact .empty (List.isEmpty_iff.mp hempty)
  rename_i hempty
  have hne : weights ≠ [] := fun hnil => hempty (List.isEmpty_iff.mpr hnil)
  split at h
  · rename_i bad hbad
    cases h
    obtain ⟨hwrong, front, back, heq, hfront⟩ := List.find?_eq_some_iff_append.mp hbad
    refine .invalidWeight heq (fun weight hmem => ?_) fun hamount => ?_
    · exact amount_iff.mpr ((Bool.not_eq_eq_eq_not ..).mp (hfront weight hmem))
    · rw [amount_iff.mp hamount] at hwrong
      cases hwrong
  rename_i hsound
  have hamount : ∀ weight ∈ weights, Amount weight := find?_eq_none_iff.mp hsound
  split at h
  · rename_i hsum
    cases h
    exact .overflow hne hamount (by simpa using hsum)
  rename_i hsum
  have hfinite : (sum weights).isFinite = true := by simpa using hsum
  split at h
  · rename_i hnone
    cases h
    refine .allZero hne hamount hfinite fun weight hmem => ?_
    rw [← Bool.not_eq_true]
    intro hpos
    obtain ⟨place, hplace, rfl⟩ := List.getElem_of_mem hmem
    have hfound := mem_positivePlaces.mpr ⟨hplace, hpos⟩
    rw [hnone] at hfound
    cases hfound
  · cases h
  · rename_i hnil hsingle
    obtain ⟨place, hplace⟩ := List.exists_mem_of_ne_nil _ hnil
    obtain ⟨hlt, hpos⟩ := mem_positivePlaces.mp hplace
    obtain ⟨thresholds, hthresholds⟩ := Accepted.exists_thresholds
      ⟨hamount, hfinite, _, List.getElem_mem hlt, hpos⟩
    rw [hthresholds] at h
    cases h

/-- No number, infinite, or below zero. -/
def Refused (weight : Single) : Prop :=
  weight = .nan ∨ (∃ negative, weight = .infinite negative) ∨ weight.lt 0 = true

/-- The weights that are refused are those that are no amounts. -/
theorem not_refused_iff {weight : Single} : ¬Refused weight ↔ Amount weight := by
  have hfinite : weight.isFinite = true ↔ weight ≠ .nan ∧ ¬∃ negative, weight = .infinite negative := by
    cases weight <;> simp [isFinite]
  unfold Refused
  rw [not_or, not_or, ← and_assoc, ← hfinite, Bool.not_eq_true]
  exact ⟨fun h => ⟨h.1, h.2⟩, fun h => ⟨h.isFinite, h.not_lt⟩⟩

/-- The first fault of weights is the one that is named. -/
theorem Fault.ofWeights_eq {fault : ChoiceError} (h : Fault weights fault) :
    ofWeights weights = .error fault := by
  have hsome (hne : weights ≠ []) : ¬weights.isEmpty = true := fun h => hne (List.isEmpty_iff.mp h)
  cases h with
  | empty h =>
    rw [h]
    rfl
  | @invalidWeight front back bad h hfront hbad =>
    have hwrong : (!bad.isFinite || bad.lt 0) = true := by
      rw [← Bool.not_eq_false, ← amount_iff]
      exact hbad
    have hfind : (weights.find? fun weight => !weight.isFinite || weight.lt 0) = some bad := by
      rw [h, List.find?_append, find?_eq_none_iff.mpr hfront, Option.none_or]
      exact List.find?_cons_of_pos hwrong
    rw [ofWeights, if_neg (hsome (by rw [h]; simp)), hfind]
  | overflow hne hamount hsum =>
    rw [ofWeights, if_neg (hsome hne), find?_eq_none_iff.mpr hamount, hsum]
    rfl
  | allZero hne hamount hsum hzero =>
    have hnone : positivePlaces weights = [] := by
      rw [List.eq_nil_iff_forall_not_mem]
      intro place hplace
      obtain ⟨hlt, hpos⟩ := mem_positivePlaces.mp hplace
      rw [hzero _ (List.getElem_mem hlt)] at hpos
      cases hpos
    rw [ofWeights, if_neg (hsome hne), find?_eq_none_iff.mpr hamount, hsum, hnone]
    rfl

/-- Accepted weights have no fault. -/
theorem Fault.not_accepted {fault : ChoiceError} (h : Fault weights fault) : ¬Accepted weights := by
  intro haccepted
  obtain ⟨weight, hmem, hpos⟩ := haccepted.exists_pos
  cases h with
  | empty h =>
    rw [h] at hmem
    cases hmem
  | invalidWeight h _ hbad => exact hbad (haccepted.amount _ (by rw [h]; simp))
  | overflow _ _ hsum =>
    rw [haccepted.isFinite_sum] at hsum
    cases hsum
  | allZero _ _ _ hzero =>
    rw [hzero weight hmem] at hpos
    cases hpos

/-! ### Fixed samplers -/

/-- Every positive weight has its place. -/
theorem length_positivePlaces (weights : List Single) :
    (positivePlaces weights).length = weights.countP (Binary.lt 0) := by
  calc (positivePlaces weights).length
      = weights.zipIdx.countP (Binary.lt 0 ∘ Prod.fst) := by
        rw [positivePlaces, List.length_map, ← List.countP_eq_length_filter, Function.comp_def]
    _ = weights.countP (Binary.lt 0) := by rw [← List.countP_map, List.zipIdx_map_fst]

/-- A sampler is fixed exactly if one weight is positive, and no other. -/
theorem fixed_iff {sampler : Sampler} (h : ofWeights weights = .ok sampler) :
    (∃ place, sampler = fixed place) ↔ weights.countP (Binary.lt 0) = 1 := by
  rw [← length_positivePlaces]
  obtain ⟨-, ⟨only, honly, rfl⟩ | ⟨hmany, thresholds, -, rfl⟩⟩ := ofWeights_eq_ok h
  · exact iff_of_true ⟨only, rfl⟩ (by rw [honly]; rfl)
  · exact iff_of_false (fun ⟨_, hfixed⟩ => nomatch hfixed) hmany

end Sampler

namespace WeightedChoice
variable {α : Type} {items : List (Single × α)} {choice : WeightedChoice α}

/-- **Items make no choice for the first fault of their weights only.** -/
theorem fault_of_ofItems {fault : ChoiceError} (h : ofItems items = .error fault) :
    Sampler.Fault (items.map (·.1)) fault := by
  unfold ofItems at h
  split at h
  · cases h
  · rename_i found hfound
    cases h
    exact Sampler.fault_of_ofWeights hfound

theorem ofItems_eq_error_iff {fault : ChoiceError} :
    ofItems items = .error fault ↔ Sampler.Fault (items.map (·.1)) fault := by
  refine ⟨fault_of_ofItems, fun h => ?_⟩
  have hweights := h.ofWeights_eq
  cases hitems : ofItems items with
  | ok choice =>
    rw [(ofItems_eq_ok hitems).2] at hweights
    cases hweights
  | error other =>
    rw [(fault_of_ofItems hitems).ofWeights_eq] at hweights
    cases hweights
    rfl

/-- Items make a choice exactly if their weights are accepted. -/
theorem ofItems_isOk_iff :
    (∃ choice, ofItems items = .ok choice) ↔ Sampler.Accepted (items.map (·.1)) := by
  constructor
  · rintro ⟨choice, hchoice⟩
    exact (Sampler.ofWeights_eq_ok (ofItems_eq_ok hchoice).2).1
  · intro haccepted
    cases hitems : ofItems items with
    | ok choice => exact ⟨choice, rfl⟩
    | error fault => exact absurd haccepted (fault_of_ofItems hitems).not_accepted

/-- The number of items of positive weight. -/
def positives (items : List (Single × α)) : Nat := items.countP fun item => Binary.lt 0 item.1

theorem positives_eq (items : List (Single × α)) :
    positives items = (items.map (·.1)).countP (Binary.lt 0) := by
  rw [positives, List.countP_map, Function.comp_def]

/-- What can be chosen from has a positive weight somewhere. -/
theorem positives_pos (h : ofItems items = .ok choice) : 0 < positives items := by
  obtain ⟨haccepted, -⟩ := Sampler.ofWeights_eq_ok (ofItems_eq_ok h).2
  rw [positives_eq, List.countP_pos_iff]
  exact haccepted.exists_pos

/-- **A choice is fixed exactly if one item has a positive weight**, and no other. -/
theorem isDeterministic_iff (h : ofItems items = .ok choice) :
    choice.isDeterministic = true ↔ positives items = 1 := by
  rw [positives_eq, ← Sampler.fixed_iff (ofItems_eq_ok h).2]
  unfold isDeterministic
  cases choice.sampler with
  | fixed place => exact iff_of_true rfl ⟨place, rfl⟩
  | weighted thresholds =>
    exact iff_of_false (fun hfalse => nomatch hfalse) fun ⟨_, hfixed⟩ => nomatch hfixed

/-- **What comes of any items.** They make no choice if there are none, else if a weight is refused,
of which the first is named, else if their sum is not finite, else if none is above zero, and for no
other reason. All others make a choice, which holds the items as they were given, and is fixed exactly
if one of them has a positive weight. -/
theorem ofItems_verdict (items : List (Single × α)) :
    let weights := items.map (·.1)
    let sound := ∀ weight ∈ weights, ¬Sampler.Refused weight
    (ofItems items = .error .empty ↔ items = []) ∧
    (∀ bad, ofItems items = .error (.invalidWeight bad) ↔ ∃ front back,
      weights = front ++ bad :: back ∧ (∀ weight ∈ front, ¬Sampler.Refused weight) ∧
        Sampler.Refused bad) ∧
    (ofItems items = .error .overflow ↔
      items ≠ [] ∧ sound ∧ (Sampler.sum weights).isFinite = false) ∧
    (ofItems items = .error .allZero ↔ items ≠ [] ∧ sound ∧
      (Sampler.sum weights).isFinite = true ∧ ∀ weight ∈ weights, ¬Binary.lt 0 weight = true) ∧
    (∀ reason, ofItems items ≠ .error (.rejected reason)) ∧
    ((∃ choice, ofItems items = .ok choice) ↔ sound ∧ (Sampler.sum weights).isFinite = true ∧
      ∃ weight ∈ weights, Binary.lt 0 weight = true) ∧
    ∀ choice, ofItems items = .ok choice → choice.items.toList = items ∧
      (choice.isDeterministic = true ↔ positives items = 1) := by
  intro weights sound
  have hempty : weights = [] ↔ items = [] := List.map_eq_nil_iff
  have hsound : sound ↔ ∀ weight ∈ weights, Amount weight :=
    forall₂_congr fun _ _ => Sampler.not_refused_iff
  refine ⟨?_, fun bad => ?_, ?_, ?_, fun reason => ?_, ?_, fun choice hchoice => ?_⟩
  · rw [ofItems_eq_error_iff, ← hempty]
    exact ⟨fun h => by cases h with | empty h => exact h, .empty⟩
  · rw [ofItems_eq_error_iff]
    constructor
    · rintro (_ | ⟨hweights, hfront, hbad⟩)
      refine ⟨_, _, hweights, fun weight hmem => Sampler.not_refused_iff.mpr (hfront weight hmem), ?_⟩
      rwa [← not_not (a := Sampler.Refused bad), Sampler.not_refused_iff]
    · rintro ⟨front, back, hweights, hfront, hbad⟩
      exact .invalidWeight hweights (fun weight hmem => Sampler.not_refused_iff.mp (hfront weight hmem))
        fun hamount => Sampler.not_refused_iff.mpr hamount hbad
  · rw [ofItems_eq_error_iff, ne_eq, ← hempty, hsound]
    exact ⟨fun h => by cases h with | overflow hne hamount hsum => exact ⟨hne, hamount, hsum⟩,
      fun ⟨hne, hamount, hsum⟩ => .overflow hne hamount hsum⟩
  · simp only [ofItems_eq_error_iff, ne_eq, ← hempty, hsound, Bool.not_eq_true]
    exact ⟨fun h => by
        cases h with | allZero hne hamount hsum hzero => exact ⟨hne, hamount, hsum, hzero⟩,
      fun ⟨hne, hamount, hsum, hzero⟩ => .allZero hne hamount hsum hzero⟩
  · rw [ne_eq, ofItems_eq_error_iff]
    exact fun h => nomatch h
  · rw [ofItems_isOk_iff, hsound]
    exact ⟨fun h => ⟨h.amount, h.isFinite_sum, h.exists_pos⟩,
      fun ⟨hamount, hsum, hpos⟩ => ⟨hamount, hsum, hpos⟩⟩
  · rw [(ofItems_eq_ok hchoice).1, List.toList_toArray]
    exact ⟨rfl, isDeterministic_iff hchoice⟩

/-- A choice between one item of positive weight and two of weight zero, one of them with a sign,
holds all three and is fixed. -/
theorem ofItems_signed_zero : ∃ choice : WeightedChoice Char,
    ofItems [(-0, 'a'), (3, 'b'), (0, 'c')] = .ok choice ∧
      choice.items.toList = [(-0, 'a'), (3, 'b'), (0, 'c')] ∧ choice.isDeterministic = true := by
  have hsampler : Sampler.ofWeights ([(-0, 'a'), (3, 'b'), (0, 'c')].map (·.1)) = .ok (.fixed 1) := by
    decide +kernel
  obtain ⟨choice, hchoice, -⟩ := exists_ofItems hsampler
  obtain ⟨-, -, -, -, -, -, hmade⟩ := ofItems_verdict [(-0, 'a'), ((3 : Single), 'b'), (0, 'c')]
  obtain ⟨hitems, hfixed⟩ := hmade choice hchoice
  exact ⟨choice, hchoice, hitems, hfixed.mpr (by decide +kernel)⟩

/-- Without the item of positive weight there is no choice. -/
example : Sampler.ofWeights [-0, 0] = .error .allZero := by decide +kernel

end WeightedChoice

end LSystem
