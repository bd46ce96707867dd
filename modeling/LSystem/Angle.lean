import LSystem.Binary.Arithmetic

/-! Angles, in degrees and in radians.

Sine and cosine are computed in fixed point. The magnitude of the angle is reduced by whole quarter
turns with 320 binary places, which suffice for every single-precision number, the largest included,
where the reduction cancels nearly all of them. The alternating series of the rest is summed with 192
places and the result is rounded once. The sign of the angle is put on afterwards, so sine is odd
(`sin_neg`) and cosine even (`cos_neg`) as they stand, and an infinite angle has neither. -/
namespace LSystem.Angle

open scoped Binary

/-- Binary places of an angle before its quarter turns are taken off. -/
def widePlaces : Nat := 320

/-- Binary places of what is left of an angle, and of its sine and cosine. -/
def places : Nat := 192

/-- One, with `places`. -/
def one : Nat := 2 ^ places

/-- A quarter turn, half the circle's constant, with `widePlaces`. -/
def quarterTurn : Nat :=
  0x1921fb54442d18469898cc51701b839a252049c1114cf98e804177d4c76273644a29410f31c6809bb

/-- One degree in radians, to single precision. -/
def degree : Single := .ofRatio false 0x8efa35 0x20000000

/-- An angle in degrees, in radians. -/
def radians (degrees : Single) : Single := degrees * degree

/-- The nested form `1 - s / (n (n + 1)) * (1 - s / ((n + 2) (n + 3)) * …)` of an alternating series
in the square `s`, with so many terms after the first. -/
def series (square : Nat) : (first terms : Nat) → Nat
  | _, 0 => one
  | first, terms + 1 =>
    one - (square * series square (first + 2) terms) >>> places / (first * (first + 1))

/-- The number of terms after which a series on half a quarter turn is close enough. -/
def terms : Nat := 12

/-- A quarter turn, with `places`. -/
def quarter : Nat := quarterTurn >>> (widePlaces - places)

/-- Sine on the first quarter turn: its own series on the first half, and on the second the series
of the cosine of what is missing. -/
def sinFirst (angle : Nat) : Nat :=
  if 2 * angle ≤ quarter then
    (angle * series ((angle * angle) >>> places) 2 terms) >>> places
  else
    let missing := quarter - angle
    series ((missing * missing) >>> places) 1 terms

/-- Sign and magnitude of the sine of an angle some quarter turns past one of the first quarter. -/
def sinAfter (quarters angle : Nat) : Bool × Nat :=
  match quarters % 4 with
  | 0 => (false, sinFirst angle)
  | 1 => (false, sinFirst (quarter - angle))
  | 2 => (true, sinFirst angle)
  | _ => (true, sinFirst (quarter - angle))

/-- A sign and a magnitude in fixed point as a number, the sign turned round if asked. -/
def ofFixed (turned : Bool) (value : Bool × Nat) : Single :=
  .ofRatio (turned ^^ value.1) value.2 one

/-- A magnitude with `widePlaces`. -/
def toFixed (units : Nat) : Nat := 2 ^ (widePlaces - Binary.Format.single.scale) * units

/-- Sine of a magnitude, some quarter turns later. -/
def sinLater (quarters units : Nat) : Bool × Nat :=
  let angle := toFixed units
  sinAfter (angle / quarterTurn + quarters) ((angle % quarterTurn) >>> (widePlaces - places))

/-- Sine of an angle in radians. -/
def sin : Single → Single
  | .finite negative units _ => ofFixed negative (sinLater 0 units)
  | _ => .nan

/-- Cosine of an angle in radians: the sine of its magnitude a quarter turn later. -/
def cos : Single → Single
  | .finite _ units _ => ofFixed false (sinLater 1 units)
  | _ => .nan

/-- Cosine is even. -/
theorem cos_neg (x : Single) : cos (-x) = cos x := by
  cases x <;> rfl

/-- Sine is odd. -/
theorem sin_neg (x : Single) : sin (-x) = -sin x := by
  cases x <;> simp only [Binary.neg_nan, Binary.neg_infinite, Binary.neg_finite, sin, ofFixed,
    Binary.ofRatio, Bool.not_xor, Binary.neg_round]

end LSystem.Angle
