import LSystem.Proofs.Grammar.Generations
import LSystem.Proofs.Nesting

/-! Brackets in expansions.

A grammar is well bracketed when it keeps brackets as they are and everything it can put into a word
is balanced. Rewriting then keeps every bracket and puts balanced words between them: no prefix of
the new word closes more than some prefix of the old one did, and none is deeper than the old word
was nested by more than the nesting of an alternative. So expansions stay balanced, and every
generation deepens them by no more than that (`stage_brackets`), along the whole history
(`history_brackets`). -/
namespace LSystem

/-- How much a symbol opens in writing. -/
def bracket : Symbol → Int
  | '[' => 1
  | ']' => -1
  | _ => 0

theorem bracket_of_ne {symbol : Symbol} (hopen : symbol ≠ '[') (hclose : symbol ≠ ']') :
    bracket symbol = 0 := by
  unfold bracket
  split <;> first | contradiction | rfl

namespace Grammar
variable (grammar : Grammar)

/-- Brackets are kept, and all that is ever written between them is balanced. -/
structure WellBracketed : Prop where
  opening : grammar.production? '[' = none
  closing : grammar.production? ']' = none
  start : Word.Balanced bracket grammar.start
  items : ∀ entry ∈ grammar.productions.entries, ∀ item ∈ entry.2.items.toList,
    Word.Balanced bracket item.2

instance : Decidable grammar.WellBracketed :=
  decidable_of_iff (grammar.production? '[' = none ∧ grammar.production? ']' = none ∧
      Word.Balanced bracket grammar.start ∧
      ∀ entry ∈ grammar.productions.entries, ∀ item ∈ entry.2.items.toList,
        Word.Balanced bracket item.2)
    ⟨fun h => ⟨h.1, h.2.1, h.2.2.1, h.2.2.2⟩, fun h => ⟨h.1, h.2, h.3, h.4⟩⟩

/-- The nesting of every item of every production. -/
def itemNestings : List Nat :=
  grammar.productions.entries.flatMap fun entry =>
    entry.2.items.toList.map fun item => Word.nesting bracket item.2

/-- The nesting of the most nested item, zero if there is none. -/
def growth : Nat := grammar.itemNestings.max?.getD 0

/-- How deep the brackets of a generation can be. -/
def depthBound (generations : Nat) : Nat :=
  Word.nesting bracket grammar.start + generations * grammar.growth

variable {grammar}

theorem nesting_le_growth {entry : Symbol × WeightedChoice Word}
    (hentry : entry ∈ grammar.productions.entries) {item : Single × Word}
    (hitem : item ∈ entry.2.items.toList) : Word.nesting bracket item.2 ≤ grammar.growth :=
  List.le_max?_getD_of_mem
    (List.mem_flatMap.mpr ⟨entry, hentry, List.mem_map.mpr ⟨item, hitem, rfl⟩⟩)

/-- What an alternative opens and closes, next to what its symbol does. -/
structure Mild (grammar : Grammar) (symbol : Symbol) (next : Word) : Prop where
  depth : Word.depth bracket next = bracket symbol
  lower : ∀ j, min 0 (bracket symbol) ≤ Word.depth bracket (next.take j)
  upper : Word.nesting bracket next ≤ (bracket symbol).toNat + grammar.growth

theorem mild_singleton (symbol : Symbol) : Mild grammar symbol [symbol] where
  depth := Word.depth_singleton bracket symbol
  lower j := by
    cases j with
    | zero => exact Int.min_le_left _ _
    | succ j =>
      rw [List.take_succ_cons, List.take_nil, Word.depth_singleton]
      exact Int.min_le_right _ _
  upper := by
    rw [Word.nesting_cons, Word.nesting]
    omega

/-- A well bracketed grammar has mild alternatives only. -/
theorem WellBracketed.mild (hgrammar : grammar.WellBracketed) {symbol : Symbol} {next : Word}
    (h : next ∈ grammar.alternatives symbol) : Mild grammar symbol next := by
  rcases mem_alternatives h with ⟨-, rfl⟩ | ⟨choice, hchoice, item, hitem, rfl⟩
  · exact mild_singleton symbol
  · have hentry := Table.mem_of_find? hchoice
    have hbalanced := hgrammar.items _ hentry item hitem
    have hlevel : bracket symbol = 0 := by
      apply bracket_of_ne
      · intro hopen
        rw [hopen, hgrammar.opening] at hchoice
        cases hchoice
      · intro hclose
        rw [hclose, hgrammar.closing] at hchoice
        cases hchoice
    refine ⟨?_, fun j => ?_, ?_⟩
    · rw [hbalanced.closed, hlevel]
    · rw [hlevel]
      exact hbalanced.nonneg j
    · rw [hlevel]
      exact Nat.le_trans (nesting_le_growth hentry hitem) (Nat.le_add_left _ _)

namespace Rewrites
variable {u v : Word}

theorem depth_eq (hgrammar : grammar.WellBracketed) (h : grammar.Rewrites u v) :
    Word.depth bracket v = Word.depth bracket u := by
  induction h with
  | nil => rfl
  | cons hnext _ ih => rw [Word.depth_append, Word.depth_cons, (hgrammar.mild hnext).depth, ih]

/-- Every prefix of the new word is at least as deep as some prefix of the old one. -/
theorem exists_depth_le (hgrammar : grammar.WellBracketed) (h : grammar.Rewrites u v) (j : Nat) :
    ∃ i, Word.depth bracket (u.take i) ≤ Word.depth bracket (v.take j) := by
  induction h generalizing j with
  | nil => exact ⟨0, by simp⟩
  | @cons symbol next rest tail hnext _ ih =>
    have hmild := hgrammar.mild hnext
    by_cases hj : j ≤ next.length
    · have hlower := hmild.lower j
      rw [List.take_append_of_le_length hj]
      by_cases hneg : bracket symbol ≤ 0
      · refine ⟨1, ?_⟩
        rw [List.take_succ_cons, List.take_zero, Word.depth_singleton]
        omega
      · refine ⟨0, ?_⟩
        rw [List.take_zero, Word.depth_nil]
        omega
    · obtain ⟨i, hi⟩ := ih (j - next.length)
      have hwhole : next.take j = next := List.take_of_length_le (by omega)
      refine ⟨i + 1, ?_⟩
      rw [List.take_append, hwhole, List.take_succ_cons, Word.depth_append, Word.depth_cons,
        hmild.depth]
      omega

/-- The new word is nested deeper by the growth of the grammar at most. -/
theorem nesting_le (hgrammar : grammar.WellBracketed) (h : grammar.Rewrites u v) :
    Word.nesting bracket v ≤ Word.nesting bracket u + grammar.growth := by
  induction h with
  | nil => exact Nat.le_add_right _ _
  | cons hnext _ ih =>
    have hmild := hgrammar.mild hnext
    have hupper := hmild.upper
    rw [Word.nesting_append, Word.nesting_cons, hmild.depth]
    omega

theorem balanced (hgrammar : grammar.WellBracketed) (h : grammar.Rewrites u v)
    (hu : Word.Balanced bracket u) : Word.Balanced bracket v where
  nonneg j := by
    obtain ⟨i, hi⟩ := h.exists_depth_le hgrammar j
    exact Int.le_trans (hu.nonneg i) hi
  closed := by rw [h.depth_eq hgrammar, hu.closed]

end Rewrites

/-- **Every stage is balanced, and nested within the bound of its generation.** -/
theorem stage_brackets (hgrammar : grammar.WellBracketed) (source : Source) (n : Nat) :
    Word.Balanced bracket (grammar.stage source n).word ∧
      Word.nesting bracket (grammar.stage source n).word ≤ grammar.depthBound n := by
  refine stage_invariant (fun n word => Word.Balanced bracket word ∧
    Word.nesting bracket word ≤ grammar.depthBound n) ⟨hgrammar.start, ?_⟩ ?_ source n
  · exact Nat.le_add_right _ _
  · intro n u v hu h
    obtain ⟨hbalanced, hnesting⟩ := hu
    refine ⟨h.balanced hgrammar hbalanced, ?_⟩
    calc Word.nesting bracket v
        ≤ Word.nesting bracket u + grammar.growth := h.nesting_le hgrammar
      _ ≤ grammar.depthBound n + grammar.growth := Nat.add_le_add_right hnesting _
      _ = grammar.depthBound (n + 1) := by
        rw [depthBound, depthBound, Nat.succ_mul, Nat.add_assoc]

/-- **Every word of a history is balanced**, and nested no deeper than the start word by more than
the nesting of one item for every generation. -/
theorem history_brackets (hgrammar : grammar.WellBracketed) (source : Source) {k : Nat}
    (hk : k ≤ grammar.generations) :
    ∃ word, (grammar.history source).1[k]? = some word ∧ Word.Balanced bracket word ∧
      Word.nesting bracket word ≤ Word.nesting bracket grammar.start + k * grammar.growth :=
  ⟨_, getElem?_history source hk, stage_brackets hgrammar source k⟩

end Grammar

/-- A shoot opens one branch more in every generation. -/
theorem history_shoot_brackets : ∃ grammar, shoot.build = .ok grammar ∧ grammar.WellBracketed ∧
    2 ≤ grammar.generations ∧ ∃ word, (grammar.history (.cycle [0])).1[2]? = some word ∧
      Word.Balanced bracket word ∧ Word.nesting bracket word ≤ 2 := by
  obtain ⟨grammar, hbuild, hkind⟩ := shoot.exists_of_makesSome
    (fun grammar => decide (grammar.WellBracketed ∧ 2 ≤ grammar.generations ∧
      Word.nesting bracket grammar.start + 2 * grammar.growth = 2)) (by decide +kernel)
  obtain ⟨hgrammar, hgenerations, hbound⟩ := of_decide_eq_true hkind
  have hhistory := Grammar.history_brackets hgrammar (.cycle [0]) hgenerations
  rw [hbound] at hhistory
  exact ⟨grammar, hbuild, hgrammar, hgenerations, hhistory⟩

end LSystem
