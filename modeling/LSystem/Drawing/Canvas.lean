import LSystem.Drawing.Color
import LSystem.Drawing.Point

/-! Canvases.

A canvas keeps the commands given to it, in order: colors for the lines that follow, and lines. What
it shows are its strokes, each line with the color in force when it was drawn (`Canvas.strokes`). -/
namespace LSystem

/-- Something a canvas is told. -/
inductive Command where
  /-- Lines have this color from now on. -/
  | setColor (color : Color)
  /-- A line between two points. -/
  | line (start stop : Point)
deriving DecidableEq

/-- A line with the color it was drawn in, if any was set before. -/
structure Stroke where
  start : Point
  stop : Point
  color : Option Color
deriving DecidableEq

/-- What reading commands has come to: the color in force and the strokes so far. -/
structure Pen where
  color : Option Color := none
  strokes : Array Stroke := #[]

/-- The pen after a command. -/
def Pen.obey (pen : Pen) : Command → Pen
  | .setColor color => { pen with color := some color }
  | .line start stop => { pen with strokes := pen.strokes.push ⟨start, stop, pen.color⟩ }

/-- A surface of some size and the commands given to it. -/
structure Canvas where
  width : Single := 0
  height : Single := 0
  commands : Array Command := #[]

namespace Canvas

/-- The canvas with further commands. -/
def append (canvas : Canvas) (commands : Array Command) : Canvas :=
  { canvas with commands := canvas.commands ++ commands }

/-- The canvas with a further command. -/
def push (canvas : Canvas) (command : Command) : Canvas :=
  { canvas with commands := canvas.commands.push command }

/-- A blank canvas of the same size. -/
def clear (canvas : Canvas) : Canvas := { canvas with commands := #[] }

/-- The lines in the order drawn, each with its color. -/
def strokes (canvas : Canvas) : Array Stroke := (canvas.commands.foldl Pen.obey {}).strokes

end Canvas

end LSystem
