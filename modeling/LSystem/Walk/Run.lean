import LSystem.Drawing.Canvas
import LSystem.Grammar.Expansion
import LSystem.Walk.Interpretation

/-! Walks.

A turtle reads a word from left to right and does what each symbol tells it. Before a symbol is
obeyed it is asked whether it can be (`fault?`), which depends on the depth of branches alone; obeying
is then a total step (`obey`), and a walk with a fault stops before the symbol, so the symbol leaves
no trace. A branch is the saved turtle, whole, so closing a branch forgets all that happened in it but
what was drawn. Colors are sent to the canvas only when a stroke needs another one than was sent
last. -/
namespace LSystem.Walk

open Turtle (Op)

/-- Why a walk stops early. -/
inductive WalkError where
  /-- A branch is closed that was never opened. -/
  | stackUnderflow (position : Nat)
  /-- A branch is opened at the depth limit. -/
  | stackOverflow (limit position : Nat)
  /-- The configuration does not allow the walk, or not this far. -/
  | invalidConfig (fault : ConfigFault)
deriving DecidableEq

/-- The fault in words. -/
def WalkError.message : WalkError → String
  | stackUnderflow position =>
    "stack underflow: unmatched pop at symbol index " ++ toString position
  | stackOverflow limit position =>
    "stack overflow: depth limit " ++ toString limit ++ " exceeded at symbol index " ++
      toString position
  | invalidConfig fault => "invalid render configuration: " ++ fault.message

/-- What a complete walk has come to. -/
structure Summary where
  /-- The number of strokes. -/
  segments : Nat
  /-- The depth of the deepest branch. -/
  maxDepth : Nat
  /-- The turtle after the last symbol. -/
  finalState : Turtle
deriving DecidableEq

/-- A walk under way. -/
structure State where
  turtle : Turtle
  /-- The turtles saved at the open branches, the innermost last. -/
  saved : Array Turtle := #[]
  /-- The color sent last. -/
  issued : Option Color := none
  segments : Nat := 0
  maxDepth : Nat := 0
  commands : Array Command := #[]
  log : Array LogRecord := #[]

/-- A walk, complete or stopped. -/
structure Outcome where
  result : Except WalkError Summary
  commands : Array Command
  log : Array LogRecord

namespace State

/-- The state with a color sent, unless it was sent last. -/
def issue (state : State) (color : Color) : State :=
  if state.issued.any color.equal then state
  else { state with issued := some color, commands := state.commands.push (.setColor color) }

/-- The state after a stroke, in the default color while the turtle has none. -/
def draw (state : State) (defaultColor : Color) : State :=
  let turtle := state.turtle.forward
  let state := state.issue (state.turtle.color.getD defaultColor)
  { state with
    turtle
    segments := state.segments + 1
    commands := state.commands.push (.line state.turtle.position turtle.position) }

/-- The state inside a new branch with strokes of some length. -/
def push (state : State) (length : Single) : State :=
  { state with
    turtle := { state.turtle with length }
    saved := state.saved.push state.turtle
    maxDepth := max state.maxDepth (state.saved.size + 1) }

/-- The state after the innermost branch. -/
def pop (state : State) : State :=
  { state with
    turtle := state.saved.back?.getD state.turtle
    saved := state.saved.pop }

/-- The state with the color under a symbol, or with a warning if there is none. -/
def setColor (state : State) (symbol : Symbol) (index : Nat) : Option Color → State
  | some color => { state with turtle := { state.turtle with color := some color } }
  | none => { state with log := state.log.push (.unknownColor symbol index) }

end State

/-! ### One symbol -/

/-- The fault of an operation at a depth, for the symbol at an index. -/
def fault? (config : Config) (depth index : Nat) : Op → Option WalkError
  | .pop => if depth = 0 then some (.stackUnderflow index) else none
  | .push =>
    if config.maxDepth ≤ depth then some (.stackOverflow config.maxDepth index)
    else
      let length := config.lengthAtDepth (depth + 1)
      if length.isFinite then none
      else some (.invalidConfig (.strokeLength length (depth + 1) index))
  | _ => none

/-- The state after an operation that has no fault. -/
def obey (config : Config) (grammar : Grammar) (symbol : Symbol) (index : Nat) (state : State) :
    Op → State
  | .draw => state.draw config.defaultColor
  | .move => { state with turtle := state.turtle.forward }
  | .turn factor => { state with turtle := state.turtle.turn (grammar.angle * factor) }
  | .push => state.push (config.lengthAtDepth (state.saved.size + 1))
  | .pop => state.pop
  | .setColor => state.setColor symbol index (grammar.color? symbol)
  | .ignore => state

/-! ### A word -/

namespace Interpretation
variable (interpretation : Interpretation) (grammar : Grammar)

/-- Reads a word from an index on, up to the first fault. -/
def walkFrom (index : Nat) (state : State) : Word → State × Option WalkError
  | [] => (state, none)
  | symbol :: rest =>
    let op := interpretation.opFor grammar symbol
    match fault? interpretation.config state.saved.size index op with
    | some fault => (state, some fault)
    | none => walkFrom (index + 1) (obey interpretation.config grammar symbol index state op) rest

/-- The turtle before the first symbol. -/
def begin : State where
  turtle :=
    { position := interpretation.config.origin
      heading := interpretation.config.heading
      length := interpretation.config.length }

/-- The records of a walk that came to its end. -/
def closing (state : State) : Array LogRecord :=
  let log := if state.saved.isEmpty then state.log else state.log.push (.unclosed state.saved.size)
  log.push (.rendered state.segments state.maxDepth)

/-- Walks along a word, if the configuration allows walks. -/
def walk (word : Word) : Outcome :=
  match interpretation.config.validate with
  | .error fault => ⟨.error (.invalidConfig fault), #[], #[]⟩
  | .ok () =>
    match interpretation.walkFrom grammar 0 interpretation.begin word with
    | (state, some fault) => ⟨.error fault, state.commands, state.log⟩
    | (state, none) =>
      ⟨.ok ⟨state.segments, state.maxDepth, state.turtle⟩, state.commands, closing state⟩

/-- Walks along the expansion of the grammar, reported before the walk. -/
def walkExpansion (source : Source) : Grammar.Stage × Outcome :=
  let stage := grammar.expand source
  let outcome := interpretation.walk grammar stage.word
  (stage, { outcome with log := stage.log ++ outcome.log })

/-- A walk goes on from where its first part ended, or stops where that stopped. -/
theorem walkFrom_append (index : Nat) (state : State) (u v : Word) :
    interpretation.walkFrom grammar index state (u ++ v) =
      match interpretation.walkFrom grammar index state u with
      | (last, some fault) => (last, some fault)
      | (last, none) => interpretation.walkFrom grammar (index + u.length) last v := by
  induction u generalizing index state with
  | nil => rfl
  | cons symbol rest ih =>
    simp only [List.cons_append, walkFrom, List.length_cons]
    split
    · rfl
    · rw [ih, Nat.add_assoc, Nat.add_comm 1]

end Interpretation

end LSystem.Walk
