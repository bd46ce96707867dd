import LSystem.Binary.Basic

/-! Stroke colors.

A color has a hue in degrees and three percentages. The constructors `hsba` and `hsb` bring every
component onto its scale; a color made from its fields is taken as it is. Two colors are compared by
the value of their components (`Color.equal`), so a color with a component that is no number differs
from every color, itself included. -/
namespace LSystem

/-- Hue, saturation, brightness and alpha. -/
structure Color where
  hue : Single
  saturation : Single
  brightness : Single
  alpha : Single
deriving DecidableEq

namespace Color

/-- The nearest value of the scale from zero to a limit; what is no number goes to zero. -/
def onScale (limit value : Single) : Single :=
  if value = .nan then 0
  else if value.lt 0 then 0
  else if limit.lt value then limit
  else value

/-- The color with every component brought onto its scale. -/
def hsba (hue saturation brightness alpha : Single) : Color where
  hue := onScale 360 hue
  saturation := onScale 100 saturation
  brightness := onScale 100 brightness
  alpha := onScale 100 alpha

/-- An opaque color. -/
def hsb (hue saturation brightness : Single) : Color := hsba hue saturation brightness 100

/-- Opaque black, the color of a pen that was given none. -/
def black : Color := ⟨0, 0, 0, 100⟩

instance : Inhabited Color := ⟨black⟩

/-- Component by component the same values. -/
def equal (c d : Color) : Bool :=
  c.hue.equal d.hue && c.saturation.equal d.saturation && c.brightness.equal d.brightness &&
    c.alpha.equal d.alpha

/-- A component on its scale is a number. -/
theorem onScale_ne_nan {limit : Single} (h : limit ≠ .nan) (value : Single) :
    onScale limit value ≠ .nan := by
  unfold onScale
  split
  · exact Binary.ofNat_ne_nan 0
  · split
    · exact Binary.ofNat_ne_nan 0
    · split <;> assumption

/-- A color built on the scales is equal to itself. -/
theorem equal_hsba (h s b a : Single) : (hsba h s b a).equal (hsba h s b a) = true := by
  simp only [equal, hsba, Bool.and_eq_true, Binary.equal_self_iff]
  exact ⟨⟨⟨onScale_ne_nan (Binary.ofNat_ne_nan _) h, onScale_ne_nan (Binary.ofNat_ne_nan _) s⟩,
    onScale_ne_nan (Binary.ofNat_ne_nan _) b⟩, onScale_ne_nan (Binary.ofNat_ne_nan _) a⟩

end Color

end LSystem
