import LSystem.Grammar.Basic

/-! Definitions of grammars.

A definition is a start word and what clauses say about it. Of several clauses on one thing the last
one counts, and a rule that is given again counts as given then, not before. `Definition.build`
checks a definition as a whole, in a fixed order, and either names the first fault or makes the
grammar. -/
namespace LSystem

/-- One statement about a grammar. -/
inductive Clause where
  /-- The turn angle in degrees. -/
  | angle (degrees : Single)
  /-- How often expansion rewrites. -/
  | generations (count : Nat)
  /-- The weighted successors of a symbol. -/
  | rule (symbol : Symbol) (alternatives : List (Single × Word))
  /-- The color under a symbol. -/
  | color (key : Symbol) (color : Color)

/-- The rule with a single successor. -/
def Clause.always (symbol : Symbol) (successor : Word) : Clause := .rule symbol [(1, successor)]

/-- Why a definition is no grammar. -/
inductive DefinitionError where
  /-- There is neither a start symbol nor a rule. -/
  | emptyAlphabet
  /-- A rule has no alternatives. -/
  | noAlternatives (symbol : Symbol)
  /-- A rule has a weight that is negative, infinite or no number. -/
  | invalidWeight (symbol : Symbol) (weight : Single)
  /-- A rule has no positive weight. -/
  | zeroWeights (symbol : Symbol)
  /-- The weights of a rule sum past the largest number. -/
  | weightOverflow (symbol : Symbol)
  /-- The turn angle is not finite. -/
  | invalidAngle (degrees : Single)
  /-- A structural symbol was given a color. -/
  | invalidColorKey (key : Symbol)
deriving DecidableEq

namespace DefinitionError

/-- A symbol as it stands in a message. -/
def quoted (symbol : Symbol) : String := "`" ++ symbol.toString ++ "`"

/-- The fault in words. -/
def message : DefinitionError → String
  | emptyAlphabet => "grammar has an empty alphabet"
  | noAlternatives symbol => "rule for " ++ quoted symbol ++ " has no alternatives"
  | invalidWeight symbol weight =>
    "rule for " ++ quoted symbol ++ " has invalid weight " ++ weight.text
  | zeroWeights symbol => "rule for " ++ quoted symbol ++ " has only zero-weight alternatives"
  | weightOverflow symbol => "weights of rule for " ++ quoted symbol ++ " overflow when summed"
  | invalidAngle degrees => "turn angle " ++ degrees.text ++ " is not finite"
  | invalidColorKey key => quoted key ++ " is a structural symbol and cannot be a color key"

/-- The fault of a rule whose alternatives make no choice. -/
def ofChoice (symbol : Symbol) : ChoiceError → DefinitionError
  | .empty => noAlternatives symbol
  | .invalidWeight weight => invalidWeight symbol weight
  | .allZero => zeroWeights symbol
  | .overflow => weightOverflow symbol
  | .rejected _ => weightOverflow symbol

end DefinitionError

/-- What was said about a grammar so far. -/
structure Definition where
  start : Word
  angle : Single := 90
  generations : Nat := 0
  /-- The rules in the order of their last statement. -/
  rules : List (Symbol × List (Single × Word)) := []
  colors : Table Color := .empty

namespace Definition

/-- The definition with one more clause. -/
def add (definition : Definition) : Clause → Definition
  | .angle degrees => { definition with angle := degrees }
  | .generations count => { definition with generations := count }
  | .rule symbol alternatives =>
    { definition with
      rules := definition.rules.filter (fun rule => rule.1 ≠ symbol) ++ [(symbol, alternatives)] }
  | .color key color => { definition with colors := definition.colors.insert key color }

/-- The definition that clauses give, one after the other. -/
def ofClauses (start : Word) (clauses : List Clause) : Definition :=
  clauses.foldl add { start }

/-- The productions of rules, added to a table, or the first fault. -/
def productionsFrom (table : Table (WeightedChoice Word)) :
    List (Symbol × List (Single × Word)) → Except DefinitionError (Table (WeightedChoice Word))
  | [] => .ok table
  | (symbol, alternatives) :: rest =>
    match WeightedChoice.ofItems alternatives with
    | .ok choice => productionsFrom (table.insert symbol choice) rest
    | .error fault => .error (.ofChoice symbol fault)

theorem entries_insert_ne_nil {α : Type} (table : Table α) (key : Symbol) (value : α) :
    (table.insert key value).entries ≠ [] := by
  simp only [Table.insert]
  cases table.entries with
  | nil => simp [Table.insertEntry]
  | cons entry rest =>
    simp only [Table.insertEntry]
    split
    · simp
    · split <;> simp

/-- A rule leaves a production. -/
theorem productionsFrom_ne_nil {rules : List (Symbol × List (Single × Word))}
    {table productions : Table (WeightedChoice Word)}
    (h : productionsFrom table rules = .ok productions) (hne : rules ≠ [] ∨ table.entries ≠ []) :
    productions.entries ≠ [] := by
  induction rules generalizing table with
  | nil =>
    cases h
    exact hne.resolve_left (· rfl)
  | cons rule rest ih =>
    simp only [productionsFrom] at h
    split at h
    · exact ih h (.inr (entries_insert_ne_nil _ _ _))
    · simp at h

/-- Checks the definition and makes the grammar. -/
def build (definition : Definition) : Except DefinitionError Grammar :=
  if hangle : definition.angle.isFinite = true then
    if hempty : definition.start = [] ∧ definition.rules = [] then .error .emptyAlphabet
    else match hkey : definition.colors.keys.find? (structuralSymbols.contains ·) with
    | some key => .error (.invalidColorKey key)
    | none =>
      match hrules : productionsFrom .empty definition.rules with
      | .error fault => .error fault
      | .ok productions => .ok
        { start := definition.start
          angle := definition.angle
          generations := definition.generations
          productions
          colors := definition.colors
          angle_isFinite := hangle
          inhabited := by
            by_cases hstart : definition.start = []
            · exact .inr (productionsFrom_ne_nil hrules (.inl fun hnil => hempty ⟨hstart, hnil⟩))
            · exact .inl hstart
          colors_free := by
            simpa using List.find?_eq_none.mp hkey }
  else .error (.invalidAngle definition.angle)

end Definition

/-- The grammar that clauses define. -/
def Grammar.ofClauses (start : Word) (clauses : List Clause) : Except DefinitionError Grammar :=
  (Definition.ofClauses start clauses).build

end LSystem
