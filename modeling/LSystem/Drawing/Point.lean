import LSystem.Angle
import LSystem.Binary.Decimal

/-! Points of the plane. -/
namespace LSystem

/-- A point, or the vector from the origin to it. -/
structure Point where
  x : Single
  y : Single
deriving DecidableEq, Inhabited

namespace Point

/-- The origin. -/
def origin : Point := ⟨0, 0⟩

/-- Coordinates are added one by one. -/
def add (p q : Point) : Point := ⟨p.x + q.x, p.y + q.y⟩

/-- Every coordinate times a factor. -/
def scale (p : Point) (factor : Single) : Point := ⟨p.x * factor, p.y * factor⟩

instance : Add Point := ⟨add⟩

/-- The unit vector at an angle, in radians, from the first axis. -/
def ofAngle (angle : Single) : Point := ⟨Angle.cos angle, Angle.sin angle⟩

/-- Both coordinates are finite. -/
def isFinite (p : Point) : Bool := p.x.isFinite && p.y.isFinite

/-- The coordinates in brackets. -/
def text (p : Point) : String := "[" ++ p.x.text ++ ", " ++ p.y.text ++ "]"

end Point

end LSystem
