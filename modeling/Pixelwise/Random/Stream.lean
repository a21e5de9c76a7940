/-
Streams — the numbers that a generator still has to give.

Whoever draws from a generator gets the numbers of its stream in order,
whether they are drawn at once or in several goes.
-/
import Pixelwise.Random.Generator

namespace Pixelwise.Generator

/-- The next numbers of a generator, one drawn after another. -/
def upcoming : Nat → Generator → List Float
  | 0, _ => []
  | n + 1, g => g.next.1 :: upcoming n g.next.2

/-- The generator after so many numbers were drawn. -/
def skip : Nat → Generator → Generator
  | 0, g => g
  | n + 1, g => skip n g.next.2

theorem upcoming_add (m n : Nat) (g : Generator) :
    upcoming (m + n) g = upcoming m g ++ upcoming n (skip m g) := by
  induction m generalizing g with
  | zero => simp [upcoming, skip]
  | succ m ih => simp [Nat.succ_add, upcoming, skip, ih]

theorem skip_add (m n : Nat) (g : Generator) : skip (m + n) g = skip n (skip m g) := by
  induction m generalizing g with
  | zero => simp [skip]
  | succ m ih => simp [Nat.succ_add, skip, ih]

/-- These numbers were drawn from `g`, and `h` is what it was left as. -/
def Drawn (xs : List Float) (g h : Generator) : Prop :=
  xs = upcoming xs.length g ∧ h = skip xs.length g

namespace Drawn

variable {xs ys : List Float} {g h k : Generator}

theorem nil (g : Generator) : Drawn [] g g :=
  ⟨rfl, rfl⟩

theorem next (g : Generator) : Drawn [g.next.1] g g.next.2 :=
  ⟨rfl, rfl⟩

/-- What is drawn in two goes is drawn in one. -/
theorem append (hx : Drawn xs g h) (hy : Drawn ys h k) : Drawn (xs ++ ys) g k := by
  obtain ⟨hxs, rfl⟩ := hx
  obtain ⟨hys, rfl⟩ := hy
  refine ⟨?_, ?_⟩
  · rw [List.length_append, upcoming_add, ← hxs, ← hys]
  · rw [List.length_append, skip_add]

end Drawn

end Pixelwise.Generator
