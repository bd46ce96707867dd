import LSystem.Drawing.Color
import LSystem.Drawing.Point

/-! Configurations of walks.

A configuration says where a walk starts and how strokes shrink with the depth of branches. It is
accepted by `validate` when origin and heading are finite and length and reduction finite and
positive; the first of these that fails is named. -/
namespace LSystem.Walk

/-- Where a walk starts and how it draws. -/
structure Config where
  origin : Point := .origin
  /-- The first heading in degrees. -/
  heading : Single := 90
  /-- The stroke length outside of branches. -/
  length : Single := 10
  /-- Every branch divides the stroke length by this. -/
  reduction : Single := 1
  /-- How deep branches may be nested. -/
  maxDepth : Nat := 1024
  /-- The color of strokes before any color symbol. -/
  defaultColor : Color := .black
deriving DecidableEq

/-- Why a configuration does not allow a walk. -/
inductive ConfigFault where
  /-- The origin is not finite. -/
  | origin (point : Point)
  /-- The heading is not finite. -/
  | heading (degrees : Single)
  /-- The length is not finite and positive. -/
  | length (stroke : Single)
  /-- The reduction is not finite and positive. -/
  | reduction (factor : Single)
  /-- The strokes at a depth, entered at an index, have no finite length. -/
  | strokeLength (stroke : Single) (depth index : Nat)
  /-- A reason in words. -/
  | other (reason : String)
deriving DecidableEq

/-- The fault in words. -/
def ConfigFault.message : ConfigFault → String
  | origin point => "origin " ++ point.text ++ " is not finite"
  | heading degrees => "initial heading " ++ degrees.text ++ " is not finite"
  | length stroke => "base length " ++ stroke.text ++ " must be positive"
  | reduction factor => "reduction " ++ factor.text ++ " must be positive"
  | strokeLength stroke depth index =>
    "stroke length " ++ stroke.text ++ " at depth " ++ toString depth ++ " (index " ++
      toString index ++ ") is not finite"
  | other reason => reason

namespace Config

/-- One choice that differs from the default configuration. -/
inductive Setting where
  | origin (point : Point)
  | heading (degrees : Single)
  | length (stroke : Single)
  | reduction (factor : Single)
  | maxDepth (depth : Nat)
  | defaultColor (color : Color)

/-- The configuration with one choice replaced. -/
def set (config : Config) : Setting → Config
  | .origin point => { config with origin := point }
  | .heading degrees => { config with heading := degrees }
  | .length stroke => { config with length := stroke }
  | .reduction factor => { config with reduction := factor }
  | .maxDepth depth => { config with maxDepth := depth }
  | .defaultColor color => { config with defaultColor := color }

/-- The default configuration with some choices replaced. -/
def ofSettings (settings : List Setting) : Config := settings.foldl set {}

/-- Finite and above zero. -/
def isPositive (x : Single) : Bool := x.isFinite && Binary.lt 0 x

/-- The first fault of a configuration. -/
def validate (config : Config) : Except ConfigFault Unit :=
  if !config.origin.isFinite then .error (.origin config.origin)
  else if !config.heading.isFinite then .error (.heading config.heading)
  else if !isPositive config.length then .error (.length config.length)
  else if !isPositive config.reduction then .error (.reduction config.reduction)
  else .ok ()

/-- The largest power of the reduction that is taken; deeper strokes are as long as there. -/
def exponentLimit : Nat := 0x7fffffff

/-- The stroke length at a depth of branches. -/
def lengthAtDepth (config : Config) (depth : Nat) : Single :=
  config.length / config.reduction ^ min depth exponentLimit

end Config

end LSystem.Walk
