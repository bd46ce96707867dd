import LSystem.Symbol.Word

/-! Nesting in words.

A level says how much each symbol opens: one for a symbol that opens a branch, minus one for a
symbol that closes one, zero for the rest. The depth of a word is what it has opened and not closed,
a word is balanced if no prefix closes more than was open and the whole closes everything, and its
nesting is the least bound on the depths of its prefixes (`nesting_le_iff`). -/
namespace LSystem.Word

variable (level : Symbol → Int)

/-- How much a word opens more than it closes. -/
def depth : Word → Int
  | [] => 0
  | symbol :: rest => level symbol + depth rest

/-- Closes nothing that it did not open, and everything that it did. -/
structure Balanced (word : Word) : Prop where
  nonneg : ∀ i, 0 ≤ depth level (word.take i)
  closed : depth level word = 0

/-- The greatest depth of a prefix. -/
def nesting : Word → Nat
  | [] => 0
  | symbol :: rest => (level symbol + nesting rest).toNat

theorem balanced_iff {word : Word} : Balanced level word ↔
    (∀ i < word.length + 1, 0 ≤ depth level (word.take i)) ∧ depth level word = 0 := by
  refine ⟨fun h => ⟨fun i _ => h.nonneg i, h.closed⟩, fun h => ⟨fun i => ?_, h.2⟩⟩
  by_cases hi : i < word.length + 1
  · exact h.1 i hi
  · have hwhole : word.take i = word := List.take_of_length_le (by omega)
    rw [hwhole]
    exact Int.le_of_eq h.2.symm

instance (word : Word) : Decidable (Balanced level word) :=
  decidable_of_iff _ (balanced_iff level).symm

/-- An index of a word splits it at a symbol. -/
theorem exists_split {word : Word} {index : Nat} (h : index < word.length) :
    ∃ u symbol v, word = u ++ symbol :: v ∧ u.length = index := by
  refine ⟨word.take index, word[index], word.drop (index + 1), ?_, ?_⟩
  · rw [List.getElem_cons_drop, List.take_append_drop]
  · rw [List.length_take, Nat.min_eq_left (Nat.le_of_lt h)]

theorem depth_nil : depth level [] = 0 := rfl

theorem depth_cons (symbol : Symbol) (rest : Word) :
    depth level (symbol :: rest) = level symbol + depth level rest := rfl

theorem depth_append (u v : Word) : depth level (u ++ v) = depth level u + depth level v := by
  induction u with
  | nil => exact (Int.zero_add _).symm
  | cons symbol rest ih =>
    rw [List.cons_append, depth_cons, depth_cons, ih, Int.add_assoc]

theorem depth_singleton (symbol : Symbol) : depth level [symbol] = level symbol := Int.add_zero _

/-- Reading one more symbol changes the depth by its level. -/
theorem depth_take_succ {word : Word} {i : Nat} {symbol : Symbol} (h : word[i]? = some symbol) :
    depth level (word.take (i + 1)) = depth level (word.take i) + level symbol := by
  rw [List.take_add_one, h, depth_append]
  exact congrArg _ (depth_singleton level symbol)

theorem nesting_cons (symbol : Symbol) (rest : Word) :
    nesting level (symbol :: rest) = (level symbol + nesting level rest).toNat := rfl

theorem nesting_append (u v : Word) :
    nesting level (u ++ v) = max (nesting level u) (depth level u + nesting level v).toNat := by
  induction u with
  | nil =>
    rw [List.nil_append, depth_nil, nesting]
    omega
  | cons symbol rest ih =>
    rw [List.cons_append, nesting_cons, nesting_cons, depth_cons, ih]
    omega

/-- A word in between that closes what it opens leaves the rest as deep as it was. -/
theorem nesting_insert {w : Word} (h : depth level w = 0) (u v : Word) :
    nesting level (u ++ w ++ v) = max (nesting level (u ++ v)) (nesting level (u ++ w)) := by
  rw [nesting_append, nesting_append, nesting_append, depth_append, h]
  omega

/-- **Nesting is the least bound on depths.** -/
theorem nesting_le_iff {word : Word} {bound : Int} :
    nesting level word ≤ bound ↔ ∀ i, depth level (word.take i) ≤ bound := by
  induction word generalizing bound with
  | nil =>
    simp only [List.take_nil]
    exact ⟨fun h _ => h, fun h => h 0⟩
  | cons symbol rest ih =>
    have hshift : (nesting level (symbol :: rest) : Int) ≤ bound ↔
        0 ≤ bound ∧ nesting level rest ≤ bound - level symbol := by
      rw [nesting_cons]
      omega
    rw [hshift, ih]
    constructor
    · rintro ⟨hbound, h⟩ i
      cases i with
      | zero => exact hbound
      | succ i =>
        have := h i
        rw [List.take_succ_cons, depth_cons]
        omega
    · intro h
      refine ⟨h 0, fun i => ?_⟩
      have := h (i + 1)
      rw [List.take_succ_cons, depth_cons] at this
      omega

theorem depth_take_le_nesting (word : Word) (i : Nat) :
    depth level (word.take i) ≤ nesting level word :=
  (nesting_le_iff level).mp (Int.le_refl _) i

/-- Some prefix is as deep as the word is nested. -/
theorem exists_depth_eq_nesting (word : Word) :
    ∃ i ≤ word.length, depth level (word.take i) = nesting level word := by
  induction word with
  | nil => exact ⟨0, Nat.le_refl 0, rfl⟩
  | cons symbol rest ih =>
    obtain ⟨i, hi, hdepth⟩ := ih
    by_cases h : 0 ≤ level symbol + nesting level rest
    · refine ⟨i + 1, Nat.succ_le_succ hi, ?_⟩
      rw [List.take_succ_cons, depth_cons, nesting_cons, hdepth]
      omega
    · refine ⟨0, Nat.zero_le _, ?_⟩
      rw [List.take_zero, depth_nil, nesting_cons]
      omega

end LSystem.Word
