import LSystem.Random.Source

/-! The ChaCha key stream with twelve rounds, as a source of words.

A block mixes sixteen words: four constants, the eight words of a key, a 64-bit count of blocks and
a nonce of zeros. They stand in four rows of four, a double round mixes the columns and then the
diagonals, which are the columns after each row is turned by its number, and the sum of the mixed
and the initial rows is the block. Successive words of successive blocks are the stream. A key grows
from a 64-bit seed by a linear congruential step per word. -/
namespace LSystem.Random

/-! ### Blocks -/

/-- Four words side by side. -/
structure Row where
  w0 : UInt32
  w1 : UInt32
  w2 : UInt32
  w3 : UInt32
deriving DecidableEq

namespace Row

/-- Word by word. -/
@[inline] def zip (op : UInt32 → UInt32 → UInt32) (r s : Row) : Row :=
  ⟨op r.w0 s.w0, op r.w1 s.w1, op r.w2 s.w2, op r.w3 s.w3⟩

/-- A word turned to the left; shifts count modulo the width, so a turn by the whole width is none. -/
@[inline] def rotateWord (count word : UInt32) : UInt32 :=
  (word <<< count) ||| (word >>> (32 - count))

/-- Every word turned to the left. -/
@[inline] def rotate (count : UInt32) (r : Row) : Row :=
  ⟨rotateWord count r.w0, rotateWord count r.w1, rotateWord count r.w2, rotateWord count r.w3⟩

/-- The second word comes first. -/
@[inline] def turn (r : Row) : Row := ⟨r.w1, r.w2, r.w3, r.w0⟩

/-- The words in order. -/
def toList (r : Row) : List UInt32 := [r.w0, r.w1, r.w2, r.w3]

end Row

/-- Sixteen words in four rows. -/
structure Block where
  a : Row
  b : Row
  c : Row
  d : Row
deriving DecidableEq

namespace Block

/-- Mixes the four columns. -/
def mixColumns (block : Block) : Block :=
  let a := block.a.zip (· + ·) block.b
  let d := (block.d.zip (· ^^^ ·) a).rotate 16
  let c := block.c.zip (· + ·) d
  let b := (block.b.zip (· ^^^ ·) c).rotate 12
  let a := a.zip (· + ·) b
  let d := (d.zip (· ^^^ ·) a).rotate 8
  let c := c.zip (· + ·) d
  let b := (b.zip (· ^^^ ·) c).rotate 7
  ⟨a, b, c, d⟩

/-- Brings the diagonals into the columns. -/
def diagonals (block : Block) : Block :=
  ⟨block.a, block.b.turn, block.c.turn.turn, block.d.turn.turn.turn⟩

/-- Brings the diagonals back. -/
def undiagonals (block : Block) : Block :=
  ⟨block.a, block.b.turn.turn.turn, block.c.turn.turn, block.d.turn⟩

/-- Mixes the columns and then the diagonals. -/
def doubleRound (block : Block) : Block :=
  block.mixColumns.diagonals.mixColumns.undiagonals

/-- Row by row sums. -/
def add (x y : Block) : Block :=
  ⟨x.a.zip (· + ·) y.a, x.b.zip (· + ·) y.b, x.c.zip (· + ·) y.c, x.d.zip (· + ·) y.d⟩

/-- The block after twelve rounds. -/
def mixed (block : Block) : Block :=
  (Nat.repeat doubleRound 6 block).add block

/-- The words in order. -/
def toList (block : Block) : List UInt32 :=
  block.a.toList ++ block.b.toList ++ block.c.toList ++ block.d.toList

theorem undiagonals_diagonals (block : Block) : block.diagonals.undiagonals = block := rfl

end Block

/-- The constants of the first row, sixteen letters read as words. -/
def constants : Row := ⟨0x61707865, 0x3320646e, 0x79622d32, 0x6b206574⟩

/-- The initial block of a key at a count. -/
def initial (key : Row × Row) (count : Nat) : Block :=
  ⟨constants, key.1, key.2, ⟨.ofNat count, .ofNat (count / 0x100000000), 0, 0⟩⟩

/-! ### Keys -/

/-- The linear congruential step between the words of a key. -/
def seedStep (state : UInt64) : UInt64 := state * 6364136223846793005 + 11634580027462260723

/-- The word of a state: its high bits folded and turned right by the highest. -/
def seedWord (state : UInt64) : UInt32 :=
  let turns : UInt32 := (state >>> 59).toUInt32
  Row.rotateWord (32 - turns) (((state >>> 18) ^^^ state) >>> 27).toUInt32

/-- Four words of a key and the state after them. -/
def seedRow (state : UInt64) : Row × UInt64 :=
  let s0 := seedStep state
  let s1 := seedStep s0
  let s2 := seedStep s1
  let s3 := seedStep s2
  (⟨seedWord s0, seedWord s1, seedWord s2, seedWord s3⟩, s3)

/-- The key of a seed. -/
def keyOfSeed (seed : UInt64) : Row × Row :=
  let (low, state) := seedRow seed
  (low, (seedRow state).1)

end LSystem.Random

namespace LSystem

/-- The key stream of a seed. -/
def Source.ofSeed (seed : UInt64) : Source :=
  let key := Random.keyOfSeed seed
  { words := fun n => (Random.initial key (n / 16)).mixed.toList.getD (n % 16) 0 }

end LSystem
