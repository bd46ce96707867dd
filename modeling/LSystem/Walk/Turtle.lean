import LSystem.Drawing.Color
import LSystem.Drawing.Point

/-! The turtle.

A turtle stands at a point, looks along a heading in degrees, counted against the clock from the
first axis, and knows the length of its next stroke and the color it was given, if any. -/
namespace LSystem

/-- The state of a turtle. -/
structure Turtle where
  position : Point := .origin
  heading : Single := 90
  length : Single := 1
  color : Option Color := none
deriving DecidableEq

namespace Turtle

/-- The unit vector along the heading. -/
def direction (turtle : Turtle) : Point := .ofAngle (Angle.radians turtle.heading)

/-- The point one stroke ahead. -/
def ahead (turtle : Turtle) : Point :=
  turtle.position + turtle.direction.scale turtle.length

/-- The turtle turned by some degrees. -/
def turn (turtle : Turtle) (degrees : Single) : Turtle :=
  { turtle with heading := turtle.heading + degrees }

/-- The turtle moved to the point ahead. -/
def forward (turtle : Turtle) : Turtle := { turtle with position := turtle.ahead }

/-- What a symbol can tell a turtle. -/
inductive Op where
  /-- Go forward and draw a line. -/
  | draw
  /-- Go forward. -/
  | move
  /-- Turn by a multiple of the grammar's angle. -/
  | turn (factor : Single)
  /-- Open a branch. -/
  | push
  /-- Close a branch. -/
  | pop
  /-- Take the color under the symbol. -/
  | setColor
  /-- Nothing. -/
  | ignore
deriving DecidableEq

end Turtle

end LSystem
