import LSystem.Grammar.Basic
import LSystem.Walk.Config
import LSystem.Walk.Turtle

/-! Interpretations of words.

An interpretation binds symbols to what they tell a turtle and holds the configuration of its walks.
A symbol that is not bound is a color symbol if it is a digit or the grammar has a color under it,
and tells nothing otherwise. -/
namespace LSystem.Walk

open Turtle (Op)

/-- What symbols mean, and how walks start. -/
structure Interpretation where
  ops : Table Op := .empty
  config : Config := {}

namespace Interpretation

/-- The usual meanings: `F` draws, signs turn, brackets open and close branches. -/
def standardOps : List (Symbol × Op) :=
  [('F', .draw), ('+', .turn 1), ('-', .turn (-1)), ('[', .push), (']', .pop)]

/-- The interpretation with one more symbol bound. -/
def bind (interpretation : Interpretation) (symbol : Symbol) (op : Op) : Interpretation :=
  { interpretation with ops := interpretation.ops.insert symbol op }

/-- The interpretation with several more symbols bound, one after the other. -/
def bindAll (interpretation : Interpretation) (bindings : List (Symbol × Op)) : Interpretation :=
  bindings.foldl (fun bound binding => bound.bind binding.1 binding.2) interpretation

/-- The interpretation with the usual meanings bound as well. -/
def bindStandard (interpretation : Interpretation) : Interpretation :=
  interpretation.bindAll standardOps

/-- The interpretation with these bindings and no others. -/
def withOps (interpretation : Interpretation) (bindings : List (Symbol × Op)) : Interpretation :=
  { interpretation with ops := .ofList bindings }

/-- The usual meanings with a configuration. -/
def standard (config : Config) : Interpretation := bindStandard { config }

/-- What a symbol tells the turtle. -/
def opFor (interpretation : Interpretation) (grammar : Grammar) (symbol : Symbol) : Op :=
  match interpretation.ops.find? symbol with
  | some op => op
  | none =>
    if symbol.isDigit || (grammar.color? symbol).isSome then .setColor
    else .ignore

end Interpretation

end LSystem.Walk
