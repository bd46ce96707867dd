import LSystem.Binary.Basic

/-! Decimal forms of binary numbers.

A decimal reads as the number of the format closest to it. A number is written with the fewest
digits that read back as the same number, and among those with the decimal closest to it, the
larger one from a tie. The search tries one grid of powers of ten after the other and on each only
the two neighbours of the value, since a decimal of that grid that reads back leaves one of them
between itself and the value. The layout is positional whatever the size: no exponent, no point
without a digit after it. -/
namespace LSystem

open scoped Binary

/-- The magnitude `digits * 10 ^ exponent`. -/
structure Decimal where
  /-- The digits, read as one number. -/
  digits : Nat
  /-- The place of the last digit. -/
  exponent : Int
deriving DecidableEq, Inhabited

namespace Decimal

/-- Exactly `count` decimal digits of a number, the lowest ones, with leading zeros. -/
def lowDigits (n : Nat) : Nat → List Char
  | 0 => []
  | count + 1 => lowDigits (n / 10) count ++ [Nat.digitChar (n % 10)]

/-- The digits after the point, without the zeros that end them. -/
def fractionDigits (rest count : Nat) : List Char :=
  ((lowDigits rest count).reverse.dropWhile (· = '0')).reverse

/-- The positional text of a magnitude. -/
def text (d : Decimal) : String :=
  match d.exponent with
  | .ofNat zeros => toString (10 ^ zeros * d.digits)
  | .negSucc n =>
    let one := 10 ^ (n + 1)
    match fractionDigits (d.digits % one) (n + 1) with
    | [] => toString (d.digits / one)
    | fraction => toString (d.digits / one) ++ "." ++ String.ofList fraction

end Decimal

namespace Binary
variable {f : Format}

/-! ### Reading -/

/-- The number closest to a decimal. Powers of ten that lead past the bound, or so far below the
unit that the digits stay under half of it, are not computed. -/
def ofDecimal (negative : Bool) (d : Decimal) : Binary f :=
  match d.exponent with
  | .ofNat zeros =>
    if d.digits = 0 then zero negative
    else if f.top ≤ f.scale + 3 * zeros then .infinite negative
    else ofRatio negative (10 ^ zeros * d.digits) 1
  | .negSucc n =>
    if d.digits.log2 + f.scale + 2 ≤ 3 * (n + 1) then zero negative
    else ofRatio negative d.digits (10 ^ (n + 1))

/-! ### Writing -/

/-- The place of the first decimal digit of a positive number of units. -/
def leadingPlace (f : Format) (units : Nat) : Int :=
  if 2 ^ f.scale ≤ units then (Nat.toDigits 10 (units / 2 ^ f.scale)).length - 1
  else -(Nat.toDigits 10 ((2 ^ f.scale - 1) / units)).length

/-- The exact number of units over a power of ten, as a quotient. -/
def scaledBy (f : Format) (units : Nat) : Int → Nat × Nat
  | .ofNat zeros => (units, 2 ^ f.scale * 10 ^ zeros)
  | .negSucc n => (10 ^ (n + 1) * units, 2 ^ f.scale)

/-- The closest multiple of a power of ten that reads back, a tie going to the larger one. -/
def closestOnGrid? (x : Binary f) (units : Nat) (place : Int) : Option Decimal :=
  let (num, den) := scaledBy f units place
  let below : Decimal := ⟨num / den, place⟩
  let above : Decimal := ⟨num / den + 1, place⟩
  let readsBack (d : Decimal) : Bool := decide (ofDecimal false d = x)
  if readsBack below && (decide (2 * (num % den) < den) || !readsBack above) then some below
  else if readsBack above then some above
  else none

/-- The first grid, of so many from a place downwards, with a decimal that reads back. -/
def shortestFrom (x : Binary f) (units : Nat) (place : Int) : Nat → Decimal
  | 0 => ⟨(scaledBy f units place).1 / (scaledBy f units place).2, place⟩
  | grids + 1 =>
    match closestOnGrid? x units place with
    | some d => d
    | none => shortestFrom x units (place - 1) grids

/-- The decimal that stands for a positive magnitude. A format never needs more decimal digits
than it has binary ones. -/
def shortest (x : Binary f) (units : Nat) : Decimal :=
  shortestFrom x units (leadingPlace f units) f.precision

/-- The text of a number. -/
def text : Binary f → String
  | .nan => "NaN"
  | .infinite negative => (if negative then "-" else "") ++ "inf"
  | .finite negative units h =>
    (if negative then "-" else "") ++
      if units = 0 then "0" else (shortest (.finite false units h) units).text

end Binary

end LSystem
