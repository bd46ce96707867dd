import LSystem.Binary.Arithmetic

/-! Running sums of weights, and where a random word falls among them.

The weights divide the stretch from zero to their total into intervals, one per weight in the order
given, and the running sums before the last are the borders between them. A word is read as a
fraction of the total by its 23 high bits and falls into the interval after the borders it has
reached. The borders are searched by halving, which ends at a place from zero to their count
whatever they are (`partitionPoint_le`). -/
namespace LSystem

/-- The place where halving the range from `low` to `high` ends: behind the places that are `below`,
if those come first. -/
def partitionPoint (below : Nat → Bool) (low high : Nat) : Nat :=
  if low < high then
    if below ((low + high) / 2) then partitionPoint below ((low + high) / 2 + 1) high
    else partitionPoint below low ((low + high) / 2)
  else low
termination_by high - low

/-- Halving stays in the range. -/
theorem partitionPoint_le (below : Nat → Bool) {low high : Nat} (h : low ≤ high) :
    partitionPoint below low high ≤ high := by
  fun_induction partitionPoint below low high with
  | case1 low high hlt hb ih => exact ih (by omega)
  | case2 low high hlt hb ih => exact Nat.le_trans (ih (by omega)) (by omega)
  | case3 low high hle => exact h

/-- The borders between the intervals of some weights, and the end of the last. -/
structure Thresholds where
  borders : Array Single
  total : Single
deriving DecidableEq

namespace Thresholds

/-- Why weights cannot divide a stretch. -/
inductive Rejection where
  /-- There are no weights. -/
  | noWeights
  /-- A weight is below zero or no number. -/
  | invalidWeight
  /-- The total is zero. -/
  | noPositiveWeight
deriving DecidableEq

/-- The reason in words. -/
def Rejection.message : Rejection → String
  | noWeights => "Weights sequence is empty/too long/unordered"
  | invalidWeight => "A weight is negative, too large for the distribution, or not a valid number"
  | noPositiveWeight => "Not enough weights > zero"

/-- The sums of a first term with ever more of the others, the last sum left out. -/
def runningSums : Single → List Single → List Single
  | _, [] => []
  | sum, weight :: rest => sum :: runningSums (sum + weight) rest

/-- Divides a stretch by weights. -/
def ofWeights : List Single → Except Rejection Thresholds
  | [] => .error .noWeights
  | first :: rest =>
    if (first :: rest).any fun weight => !Binary.le 0 weight then .error .invalidWeight
    else if (rest.foldl (· + ·) first).equal 0 then .error .noPositiveWeight
    else .ok ⟨(runningSums first rest).toArray, rest.foldl (· + ·) first⟩

/-- The fraction, from zero to below one, that a word stands for. -/
def fraction (word : UInt32) : Single := .ofRatio false (word >>> 9).toNat 0x800000

/-- The interval that a word falls into. -/
def place (thresholds : Thresholds) (word : UInt32) : Nat :=
  let reached := fraction word * thresholds.total
  partitionPoint (fun i => (thresholds.borders.getD i thresholds.total).le reached) 0
    thresholds.borders.size

theorem length_runningSums (sum : Single) (rest : List Single) :
    (runningSums sum rest).length = rest.length := by
  induction rest generalizing sum with
  | nil => rfl
  | cons weight rest ih => simp [runningSums, ih]

/-- One border fewer than there are weights. -/
theorem size_borders {weights : List Single} {thresholds : Thresholds}
    (h : ofWeights weights = .ok thresholds) : thresholds.borders.size + 1 = weights.length := by
  cases weights with
  | nil => simp [ofWeights] at h
  | cons first rest =>
    simp only [ofWeights] at h
    split at h
    · simp at h
    · split at h
      · simp at h
      · cases h
        simp [length_runningSums]

/-- Every word falls into the interval of a weight. -/
theorem place_lt {weights : List Single} {thresholds : Thresholds}
    (h : ofWeights weights = .ok thresholds) (word : UInt32) :
    thresholds.place word < weights.length := by
  have := size_borders h
  have := partitionPoint_le
    (fun i => (thresholds.borders.getD i thresholds.total).le (fraction word * thresholds.total))
    (Nat.zero_le thresholds.borders.size)
  simp only [place]
  omega

end Thresholds

end LSystem
