import LSystem.Choice.Weighted
import LSystem.Drawing.Color
import LSystem.Symbol.Table

/-! Stochastic grammars without context.

A grammar has a start word, productions that give some symbols a choice of successors, and the data
a drawing of its words needs: a turn angle and colors under symbols. A symbol without a production
stands for itself. The conditions that every grammar meets are fields of the type, so they need no
check later: the angle is finite, there is some symbol, and no structural symbol has a color. -/
namespace LSystem

/-- The symbols that open and close branches and turn, and cannot name a color. -/
def structuralSymbols : List Symbol := ['[', ']', '+', '-']

/-- A grammar. -/
structure Grammar where
  /-- The word that expansion starts from. -/
  start : Word
  /-- The turn angle in degrees. -/
  angle : Single
  /-- How often expansion rewrites. -/
  generations : Nat
  /-- The successors of the symbols that are rewritten. -/
  productions : Table (WeightedChoice Word)
  /-- The colors under color symbols. -/
  colors : Table Color
  /-- Turning never leaves the numbers at once. -/
  angle_isFinite : angle.isFinite = true
  /-- There is a symbol. -/
  inhabited : start ≠ [] ∨ productions.entries ≠ []
  /-- Structural symbols are no colors. -/
  colors_free : ∀ key ∈ colors.keys, key ∉ structuralSymbols

namespace Grammar
variable (grammar : Grammar)

/-- The successors of a symbol, if it is rewritten. -/
def production? (symbol : Symbol) : Option (WeightedChoice Word) :=
  grammar.productions.find? symbol

/-- The color under a symbol. -/
def color? (symbol : Symbol) : Option Color := grammar.colors.find? symbol

/-- The symbols that a production mentions: its own and those of every successor. -/
def mentioned (entry : Symbol × WeightedChoice Word) : List Symbol :=
  entry.1 :: entry.2.items.toList.flatMap (·.2)

/-- Every symbol of the start word and of the productions, in rising order and once. -/
def alphabet : List Symbol :=
  (Table.ofList ((grammar.start ++ grammar.productions.entries.flatMap mentioned).map (·, ()))).keys

end Grammar

end LSystem
