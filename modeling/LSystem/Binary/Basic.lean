import LSystem.Binary.Format

/-! Binary numbers of a format.

A number is a finite magnitude with a sign, an infinity with a sign, or the one value that is no
number. A finite magnitude carries the proof that its format keeps it, so no operation can leave the
format. `Binary.round` is the only way from an exact quotient into the format, and every operation
rounds once with it. Numbers are compared through `Binary.rank?`, their place on a line of whole
units with the infinities at the two ends of the format: both zeros share a place, and what is no
number has none, so no comparison with it holds. -/
namespace LSystem

open Binary (Format)

/-- A number of the format `f`. -/
inductive Binary (f : Format) where
  /-- The result of an operation without a value. -/
  | nan
  /-- A value beyond the bound of the format. -/
  | infinite (negative : Bool)
  /-- A sign and a magnitude in units; zero has both signs. -/
  | finite (negative : Bool) (units : Nat) (representable : f.Representable units)
deriving DecidableEq

/-- Numbers of single precision. -/
abbrev Single := Binary Format.single

/-- Numbers of double precision. -/
abbrev Double := Binary Format.double

namespace Binary
variable {f : Format}

/-- A magnitude with its sign. -/
def signed (negative : Bool) (magnitude : Nat) : Int :=
  if negative then -(magnitude : Int) else magnitude

/-- The zero of a sign. -/
def zero (negative : Bool) : Binary f := .finite negative 0 f.representable_zero

instance : Inhabited (Binary f) := ⟨zero false⟩

/-! ### Rounding -/

/-- The number closest to `num / den` units, or an infinity when that is not below the bound. -/
def round (negative : Bool) (num den : Nat) : Binary f :=
  let units := f.nearest num den
  if h : units < 2 ^ f.top then .finite negative units ⟨h, f.spacing_dvd_nearest num den⟩
  else .infinite negative

/-- The number closest to the quotient `num / den`. -/
def ofRatio (negative : Bool) (num den : Nat) : Binary f :=
  round negative (2 ^ f.scale * num) den

/-- The number closest to a natural number. -/
def ofNat (n : Nat) : Binary f := ofRatio false n 1

/-- The number closest to an integer. -/
def ofInt (z : Int) : Binary f := ofRatio (decide (z < 0)) z.natAbs 1

instance (n : Nat) : OfNat (Binary f) n := ⟨ofNat n⟩

/-- The number of the format `g` closest to a number of the format `f`. -/
def convert (g : Format) : Binary f → Binary g
  | .nan => .nan
  | .infinite negative => .infinite negative
  | .finite negative units _ => ofRatio negative units (2 ^ f.scale)

/-- What the format keeps is not moved by rounding. -/
theorem round_of_representable (negative : Bool) {n : Nat} (h : f.Representable n) :
    (round negative n 1 : Binary f) = .finite negative n h := by
  simp [round, f.nearest_of_representable h, h.1]

theorem round_zero (negative : Bool) : (round negative 0 1 : Binary f) = zero negative :=
  round_of_representable negative f.representable_zero

theorem round_ne_nan (negative : Bool) (num den : Nat) : (round negative num den : Binary f) ≠ nan := by
  simp only [round]
  split <;> simp

/-- A numeral is a number. -/
theorem ofNat_ne_nan (n : Nat) : (OfNat.ofNat n : Binary f) ≠ nan := round_ne_nan _ _ _

/-! ### Comparison -/

/-- A finite number is below the bound of its format. -/
def isFinite : Binary f → Bool
  | .finite _ _ _ => true
  | _ => false

/-- The place of a number on the line, in units. -/
def rank? : Binary f → Option Int
  | .nan => none
  | .infinite negative => some (signed negative (2 ^ f.top))
  | .finite negative units _ => some (signed negative units)

/-- Whether both numbers have a place on the line and the places are related. -/
def related (relation : Int → Int → Bool) (x y : Binary f) : Bool :=
  match x.rank?, y.rank? with
  | some a, some b => relation a b
  | _, _ => false

/-- Strictly smaller. -/
def lt (x y : Binary f) : Bool := related (fun a b => decide (a < b)) x y

/-- Smaller or of the same value. -/
def le (x y : Binary f) : Bool := related (fun a b => decide (a ≤ b)) x y

/-- Of the same value: the zeros are equal, and what is no number differs from itself. -/
def equal (x y : Binary f) : Bool := related (fun a b => decide (a = b)) x y

theorem rank?_eq_none_iff {x : Binary f} : x.rank? = none ↔ x = .nan := by
  cases x <;> simp [rank?]

theorem equal_self_iff {x : Binary f} : x.equal x = true ↔ x ≠ .nan := by
  cases x <;> simp [equal, related, rank?]

end Binary

end LSystem
