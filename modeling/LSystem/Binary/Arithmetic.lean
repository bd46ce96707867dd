import LSystem.Binary.Basic

/-! Arithmetic on binary numbers.

Each operation computes its exact result on magnitudes and signs and rounds it once. A sum that
comes out at zero is positive unless both terms are negative, products and quotients take the
exclusive or of the signs, and a form without a value (opposite infinities added, zero times an
infinity, zero by zero, infinity by infinity) is `nan`. Powers are products taken in the order of
the exponent's binary digits, which fixes where they round. -/
namespace LSystem.Binary

variable {f : Format}

/-- The same magnitude with the other sign. -/
def neg : Binary f → Binary f
  | .nan => .nan
  | .infinite negative => .infinite !negative
  | .finite negative units h => .finite (!negative) units h

/-- The rounded sum. -/
def add : Binary f → Binary f → Binary f
  | .finite a m _, .finite b n _ =>
    let sum := signed a m + signed b n
    round (if sum = 0 then a && b else decide (sum < 0)) sum.natAbs 1
  | .infinite a, .infinite b => if a = b then .infinite a else .nan
  | .infinite a, .finite _ _ _ => .infinite a
  | .finite _ _ _, .infinite b => .infinite b
  | .nan, _ => .nan
  | _, .nan => .nan

/-- The rounded difference is the sum with the opposite. -/
def sub (x y : Binary f) : Binary f := x.add y.neg

/-- The rounded product. -/
def mul : Binary f → Binary f → Binary f
  | .finite a m _, .finite b n _ => round (a ^^ b) (m * n) (2 ^ f.scale)
  | .infinite a, .infinite b => .infinite (a ^^ b)
  | .infinite a, .finite b n _ => if n = 0 then .nan else .infinite (a ^^ b)
  | .finite a m _, .infinite b => if m = 0 then .nan else .infinite (a ^^ b)
  | .nan, _ => .nan
  | _, .nan => .nan

/-- The rounded quotient. -/
def div : Binary f → Binary f → Binary f
  | .finite a m _, .finite b n _ =>
    if n = 0 then if m = 0 then .nan else .infinite (a ^^ b)
    else ofRatio (a ^^ b) m n
  | .infinite _, .infinite _ => .nan
  | .infinite a, .finite b _ _ => .infinite (a ^^ b)
  | .finite a _ _, .infinite b => zero (a ^^ b)
  | .nan, _ => .nan
  | _, .nan => .nan

instance : Neg (Binary f) := ⟨neg⟩

instance : Add (Binary f) := ⟨add⟩

instance : Sub (Binary f) := ⟨sub⟩

instance : Mul (Binary f) := ⟨mul⟩

instance : Div (Binary f) := ⟨div⟩

/-- `result * base ^ exponent`, for an exponent with `squarings` binary digits after its first:
the lowest digit says whether the base is taken, and the rest are powers of its square. -/
def powFrom (result base : Binary f) (exponent : Nat) : Nat → Binary f
  | 0 => if exponent % 2 = 1 then result * base else result
  | squarings + 1 =>
    powFrom (if exponent % 2 = 1 then result * base else result) (base * base) (exponent / 2)
      squarings

/-- The power of a number, with one rounding per product. -/
def pow (base : Binary f) (exponent : Nat) : Binary f :=
  powFrom 1 base exponent exponent.log2

instance : Pow (Binary f) Nat := ⟨pow⟩

/-! ### Laws of sign and order -/

theorem neg_nan : -(nan : Binary f) = nan := rfl

theorem neg_infinite (negative : Bool) : -(infinite negative : Binary f) = infinite !negative := rfl

theorem neg_finite (negative : Bool) (units : Nat) (h : f.Representable units) :
    -(finite negative units h) = finite (!negative) units h := rfl

theorem neg_neg (x : Binary f) : -(-x) = x := by
  cases x <;> simp [neg_nan, neg_infinite, neg_finite]

/-- Rounding does not look at the sign. -/
theorem neg_round (negative : Bool) (num den : Nat) :
    -(round negative num den : Binary f) = round (!negative) num den := by
  simp only [round]
  split <;> rfl

/-- Sums do not depend on the order of their terms. -/
theorem add_comm (x y : Binary f) : x + y = y + x := by
  show x.add y = y.add x
  cases x <;> cases y <;> simp only [add, Bool.and_comm, Int.add_comm]
  rename_i a b
  cases a <;> cases b <;> simp

/-- Products do not depend on the order of their factors. -/
theorem mul_comm (x y : Binary f) : x * y = y * x := by
  show x.mul y = y.mul x
  cases x <;> cases y <;> simp only [mul, Bool.xor_comm, Nat.mul_comm]

end LSystem.Binary
