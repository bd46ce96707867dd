import LSystem.Binary.Basic

/-! The interchange bits of binary numbers.

A pattern is a sign bit, an exponent field and the significand without its first digit. Read as one
number, exponent field and significand count the magnitudes of the format in order, the infinity
follows the largest of them, and the patterns behind it hold no number; all of those read as `nan`,
which is written with the first significand bit alone. -/
namespace LSystem.Binary

namespace Format
variable (f : Format)

/-- The weight of the first digit of a significand, and so of one in the exponent field. -/
def firstDigit : Nat := 1 <<< (f.precision - 1)

/-- The pattern of the infinity without a sign. -/
def infinityBits : Nat := (f.top + 2 - f.precision) * f.firstDigit

/-- The weight of the sign bit. -/
def signBit : Nat := (f.top + 3 - f.precision) * f.firstDigit

/-- The pattern of a magnitude: its place among the magnitudes of the format. -/
def magnitudeBits (units : Nat) : Nat :=
  let shift := units.log2 + 1 - f.precision
  shift * f.firstDigit + units >>> shift

/-- The magnitude with a pattern below `infinityBits`. -/
def unitsOfBits (bits : Nat) : Nat :=
  let shift := bits / f.firstDigit - 1
  (bits - shift * f.firstDigit) <<< shift

end Format

variable {f : Format}

/-- The pattern of a number. -/
def toBits : Binary f → Nat
  | .nan => f.infinityBits + f.firstDigit / 2
  | .infinite negative => (if negative then f.signBit else 0) + f.infinityBits
  | .finite negative units _ => (if negative then f.signBit else 0) + f.magnitudeBits units

/-- The number of a pattern; bits above the sign are not read. -/
def ofBits (bits : Nat) : Binary f :=
  let negative := decide (bits / f.signBit % 2 = 1)
  let rest := bits % f.signBit
  if rest < f.infinityBits then round negative (f.unitsOfBits rest) 1
  else if rest = f.infinityBits then .infinite negative
  else .nan

end LSystem.Binary
