/-
Capacity — how much room can be asked for at once.

The room of a stack or of a sequence is asked for before any entry of it is
there.  A program that asks for 2 ^ 63 bytes or more ends on the spot.  How much
memory there is, is not looked at: what can be asked for is granted.
-/

namespace Pixelwise

/-- What ends a program on the spot. -/
inductive Panic where
  /-- More room is asked for than can be. -/
  | capacityOverflow
deriving DecidableEq, Repr

/-- What is said of it. -/
def Panic.message : Panic → String
  | capacityOverflow => "capacity overflow"

/-- The least number of bytes that there can never be room for. -/
def byteLimit : Nat := 1 <<< 63

/-- Ask for room for so many entries, each of so many bytes. -/
def reserve (count size : Nat) : Except Panic Unit :=
  if count * size < byteLimit then .ok () else .error .capacityOverflow

theorem reserve_of_lt {count size : Nat} (h : count * size < byteLimit) :
    reserve count size = .ok () :=
  if_pos h

theorem reserve_of_le {count size : Nat} (h : byteLimit ≤ count * size) :
    reserve count size = .error .capacityOverflow :=
  if_neg (Nat.not_lt.mpr h)

end Pixelwise
