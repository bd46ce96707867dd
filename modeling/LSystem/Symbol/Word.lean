/-! Symbols and words. -/
namespace LSystem

/-- A letter of a grammar. -/
abbrev Symbol := Char

/-- A string of symbols. -/
abbrev Word := List Symbol

namespace Word

/-- The length of a word in bytes when it is stored as UTF-8. -/
def byteLength (word : Word) : Nat := word.foldl (fun length symbol => length + symbol.utf8Size) 0

theorem byteLength_cons (symbol : Symbol) (rest : Word) :
    byteLength (symbol :: rest) = symbol.utf8Size + byteLength rest := by
  suffices ∀ n, rest.foldl (fun length symbol => length + symbol.utf8Size) n =
      n + byteLength rest by
    rw [byteLength, List.foldl_cons, this, Nat.zero_add]
  induction rest with
  | nil => exact fun n => (Nat.add_zero n).symm
  | cons next rest ih =>
    intro n
    rw [byteLength, List.foldl_cons, List.foldl_cons, ih, ih, Nat.zero_add, Nat.add_assoc]

/-- One byte at least for every symbol. -/
theorem length_le_byteLength (word : Word) : word.length ≤ byteLength word := by
  induction word with
  | nil => exact Nat.le_refl 0
  | cons symbol rest ih =>
    have := symbol.utf8Size_pos
    rw [byteLength_cons, List.length_cons]
    omega

end Word

end LSystem
