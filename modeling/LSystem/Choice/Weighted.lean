import LSystem.Binary.Decimal
import LSystem.Choice.Thresholds
import LSystem.Random.Source

/-! Choosing among weighted items.

An item with the only positive weight is chosen without a draw; otherwise one random word decides,
by the interval of the weights that it falls into. A choice holds its items in the order given, those
of weight zero too, and the proof that every word leads to one of them, so choosing never fails.
`WeightedChoice.ofItems` checks the weights in a fixed order and names the first fault. -/
namespace LSystem

/-- Why items do not make a choice. -/
inductive ChoiceError where
  /-- There are no items. -/
  | empty
  /-- A weight is negative, infinite or no number. -/
  | invalidWeight (weight : Single)
  /-- No weight is positive. -/
  | allZero
  /-- The sum of the weights is beyond the largest number. -/
  | overflow
  /-- The weights cannot divide a stretch. -/
  | rejected (reason : String)
deriving DecidableEq

/-- The fault in words. -/
def ChoiceError.message : ChoiceError → String
  | empty => "no outcomes to choose from"
  | invalidWeight weight => "weight " ++ weight.text ++ " is negative or not finite"
  | allZero => "all weights are zero"
  | overflow => "weights overflow when summed"
  | rejected reason => "weights rejected by distribution: " ++ reason

/-- How the place of the chosen item is found. -/
inductive Sampler where
  /-- Always the same place. -/
  | fixed (place : Nat)
  /-- The place of the interval that a word falls into. -/
  | weighted (thresholds : Thresholds)
deriving DecidableEq

namespace Sampler

/-- The place that a word leads to. -/
def place (sampler : Sampler) (word : UInt32) : Nat :=
  match sampler with
  | fixed place => place
  | weighted thresholds => thresholds.place word

/-- The places of the positive weights. -/
def positivePlaces (weights : List Single) : List Nat :=
  (weights.zipIdx.filter fun entry => Binary.lt 0 entry.1).map (·.2)

/-- The sum of weights from left to right. -/
def sum (weights : List Single) : Single := weights.foldl (· + ·) 0

/-- The sampler of some weights, or their first fault. -/
def ofWeights (weights : List Single) : Except ChoiceError Sampler :=
  if weights.isEmpty then .error .empty
  else match weights.find? fun weight => !weight.isFinite || weight.lt 0 with
  | some bad => .error (.invalidWeight bad)
  | none =>
    if !(sum weights).isFinite then .error .overflow
    else match positivePlaces weights with
    | [] => .error .allZero
    | [only] => .ok (.fixed only)
    | _ => match Thresholds.ofWeights weights with
      | .ok thresholds => .ok (.weighted thresholds)
      | .error rejection => .error (.rejected rejection.message)

theorem lt_of_mem_positivePlaces {weights : List Single} {place : Nat}
    (h : place ∈ positivePlaces weights) : place < weights.length := by
  simp only [positivePlaces, List.mem_map, List.mem_filter] at h
  obtain ⟨entry, ⟨hmem, -⟩, rfl⟩ := h
  have := List.snd_lt_add_of_mem_zipIdx hmem
  simpa using this

/-- Every word leads to the place of a weight. -/
theorem place_lt {weights : List Single} {sampler : Sampler} (h : ofWeights weights = .ok sampler)
    (word : UInt32) : sampler.place word < weights.length := by
  simp only [ofWeights] at h
  split at h
  · simp at h
  split at h
  · simp at h
  split at h
  · simp at h
  split at h
  · simp at h
  · rename_i only hp
    cases h
    exact lt_of_mem_positivePlaces (hp ▸ List.mem_singleton.mpr rfl)
  · split at h
    · rename_i thresholds ht
      cases h
      exact Thresholds.place_lt ht word
    · simp at h

end Sampler

/-- Items with weights that can be chosen from. -/
structure WeightedChoice (α : Type) where
  /-- The items in the order given. -/
  items : Array (Single × α)
  /-- How the place of the chosen item is found. -/
  sampler : Sampler
  /-- Every word leads to an item. -/
  place_lt : ∀ word, sampler.place word < items.size

namespace WeightedChoice
variable {α : Type}

/-- Checks the weights and makes the choice. -/
def ofItems (items : List (Single × α)) : Except ChoiceError (WeightedChoice α) :=
  match h : Sampler.ofWeights (items.map (·.1)) with
  | .ok sampler => .ok ⟨items.toArray, sampler, fun word => by
      simpa using Sampler.place_lt h word⟩
  | .error fault => .error fault

/-- Whether choosing draws no word. -/
def isDeterministic (choice : WeightedChoice α) : Bool :=
  match choice.sampler with
  | .fixed _ => true
  | .weighted _ => false

/-- The item that a word leads to. -/
def pick (choice : WeightedChoice α) (word : UInt32) : α :=
  have := choice.place_lt word
  choice.items[choice.sampler.place word].2

/-- Chooses an item, drawing a word unless the choice is fixed. -/
def choose (choice : WeightedChoice α) (source : Source) : α × Source :=
  if choice.isDeterministic then (choice.pick 0, source)
  else (choice.pick source.next.1, source.next.2)

/-- Choosing draws one word at most, and none when the choice is fixed. -/
theorem choose_position (choice : WeightedChoice α) (source : Source) :
    (choice.choose source).2.position =
      source.position + if choice.isDeterministic then 0 else 1 := by
  unfold choose
  split <;> rfl

/-- Choosing never changes the sequence of words. -/
theorem choose_words (choice : WeightedChoice α) (source : Source) :
    (choice.choose source).2.words = source.words := by
  unfold choose
  split <;> rfl

end WeightedChoice

end LSystem
