/-
The ChaCha stream — blocks of sixteen words made from a key and the number
of the block.

The words of a block are held as a square of four rows.  A quarter round
works on a column; `mix` does it to all four columns at once, and the
diagonals are brought into the columns by turning the rows.
-/

namespace Pixelwise.ChaCha

/-- Four words. -/
structure Row where
  w0 : UInt32
  w1 : UInt32
  w2 : UInt32
  w3 : UInt32
deriving DecidableEq, Repr

namespace Row

/-- An operation on each of the four places. -/
def zip (f : UInt32 → UInt32 → UInt32) (r s : Row) : Row :=
  ⟨f r.w0 s.w0, f r.w1 s.w1, f r.w2 s.w2, f r.w3 s.w3⟩

/-- The sums of the words, place by place. -/
def add (r s : Row) : Row :=
  zip (· + ·) r s

/-- The words combined bit by bit, place by place. -/
def xor (r s : Row) : Row :=
  zip (· ^^^ ·) r s

/-- Each word with its bits turned left. -/
def turnBits (r : Row) (n : UInt32) : Row :=
  let turn (w : UInt32) := (w <<< n) ||| (w >>> (32 - n))
  ⟨turn r.w0, turn r.w1, turn r.w2, turn r.w3⟩

/-- The words moved one place to the left, the first to the end. -/
def turn (r : Row) : Row :=
  ⟨r.w1, r.w2, r.w3, r.w0⟩

/-- The words in order. -/
def toList (r : Row) : List UInt32 :=
  [r.w0, r.w1, r.w2, r.w3]

end Row

/-- Sixteen words in four rows. -/
structure Square where
  r0 : Row
  r1 : Row
  r2 : Row
  r3 : Row
deriving DecidableEq, Repr

namespace Square

/-- The sums of the words, place by place. -/
def add (a b : Square) : Square :=
  ⟨a.r0.add b.r0, a.r1.add b.r1, a.r2.add b.r2, a.r3.add b.r3⟩

/-- One half of a quarter round, on all columns. -/
def halfMix (m : Square) (big small : UInt32) : Square :=
  let a := m.r0.add m.r1
  let d := (m.r3.xor a).turnBits big
  let c := m.r2.add d
  let b := (m.r1.xor c).turnBits small
  ⟨a, b, c, d⟩

/-- A quarter round on all columns. -/
def mix (m : Square) : Square :=
  (m.halfMix 16 12).halfMix 8 7

/-- Bring the diagonals into the columns. -/
def slant (m : Square) : Square :=
  ⟨m.r0, m.r1.turn, m.r2.turn.turn, m.r3.turn.turn.turn⟩

/-- Bring the columns back into the diagonals. -/
def unslant (m : Square) : Square :=
  ⟨m.r0, m.r1.turn.turn.turn, m.r2.turn.turn, m.r3.turn⟩

/-- A round on the columns and one on the diagonals. -/
def doubleRound (m : Square) : Square :=
  m.mix.slant.mix.unslant

/-- Several double rounds. -/
def rounds : Nat → Square → Square
  | 0, m => m
  | n + 1, m => rounds n m.doubleRound

/-- The words in order, row by row. -/
def toList (m : Square) : List UInt32 :=
  m.r0.toList ++ m.r1.toList ++ m.r2.toList ++ m.r3.toList

end Square

/-- A key of eight words. -/
structure Key where
  low : Row
  high : Row
deriving DecidableEq, Repr

/-- The words at which every stream starts. -/
def constants : Row :=
  ⟨0x61707865, 0x3320646e, 0x79622d32, 0x6b206574⟩

/-- The block of a given number, with twelve rounds and no nonce. -/
def block (key : Key) (number : UInt64) : Square :=
  let initial : Square :=
    ⟨constants, key.low, key.high, ⟨number.toUInt32, (number >>> 32).toUInt32, 0, 0⟩⟩
  (Square.rounds 6 initial).add initial

end Pixelwise.ChaCha
