/-! Sources of random words.

A source is an endless sequence of 32-bit words and the place of the next one, so drawing is a pure
step and two sources can be compared on the words that a computation takes. -/
namespace LSystem

/-- A sequence of words, read from a position on. -/
structure Source where
  /-- The word at every position. -/
  words : Nat → UInt32
  /-- How many words have been drawn. -/
  position : Nat := 0

namespace Source

/-- Draws a word. -/
def next (source : Source) : UInt32 × Source :=
  (source.words source.position, { source with position := source.position + 1 })

/-- A list of words over and over; the empty list gives zeros. -/
def cycle (list : List UInt32) : Source where
  words n := list.getD (n % list.length) 0

instance : Inhabited Source := ⟨cycle []⟩

/-- Drawing never changes the sequence. -/
theorem next_words (source : Source) : source.next.2.words = source.words := rfl

/-- A draw takes one word. -/
theorem next_position (source : Source) : source.next.2.position = source.position + 1 := rfl

end Source

end LSystem
