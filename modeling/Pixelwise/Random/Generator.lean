/-
The generator behind `rand()` — a seeded stream of numbers.

A generator is its key and the count of numbers drawn so far; the number
that is drawn next is a function of the two.
-/
import Pixelwise.Random.ChaCha

namespace Pixelwise

/-- A stream of numbers and how far it has been used. -/
structure Generator where
  key : ChaCha.Key
  drawn : Nat
deriving DecidableEq, Repr

namespace Generator

/-- One step of the sequence that stretches a seed into a key. -/
def stretch (state : UInt64) : UInt64 :=
  state * 6364136223846793005 + 11634580027462260723

/-- The word of the key that a state of that sequence gives. -/
def keyWord (state : UInt64) : UInt32 :=
  let mixed := (((state >>> 18) ^^^ state) >>> 27).toUInt32
  let turn := (state >>> 59).toUInt32
  (mixed >>> turn) ||| (mixed <<< (32 - turn))

/-- The next four words of a key. -/
def keyRow (state : UInt64) : ChaCha.Row × UInt64 :=
  let s0 := stretch state
  let s1 := stretch s0
  let s2 := stretch s1
  let s3 := stretch s2
  (⟨keyWord s0, keyWord s1, keyWord s2, keyWord s3⟩, s3)

/-- The generator of a seed, from which nothing has been drawn. -/
def ofSeed (seed : UInt64) : Generator where
  key :=
    let low := keyRow seed
    ⟨low.1, (keyRow low.2).1⟩
  drawn := 0

/-- The word of 64 bits at a place of the stream: two words of a block, of
which there are eight such pairs, the low one first. -/
def word (key : ChaCha.Key) (place : Nat) : UInt64 :=
  let words := (ChaCha.block key (UInt64.ofNat (place / 8))).toList
  let low := words.getD (2 * (place % 8)) 0
  let high := words.getD (2 * (place % 8) + 1) 0
  low.toUInt64 ||| (high.toUInt64 <<< 32)

/-- The number at a place of the stream: 53 bits, as a fraction of one. -/
def sample (key : ChaCha.Key) (place : Nat) : Float :=
  (word key place >>> 11).toFloat / 9007199254740992

/-- Draw the next number. -/
def next (g : Generator) : Float × Generator :=
  (sample g.key g.drawn, { g with drawn := g.drawn + 1 })

end Generator

end Pixelwise
