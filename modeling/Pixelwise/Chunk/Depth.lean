/-
Depth — how deep code makes the stack, found without running it.

`depthFrom` follows code from one instruction to the next, as the depth is
followed while code is emitted: an instruction that takes off more than there
is leaves nothing.  `balance` is the plain sum of all effects, which can fall
below zero.  The two agree on code that finds whatever it takes off (`Fed`),
and `peak` is then the greatest of the sums.
-/
import Pixelwise.Chunk

namespace Pixelwise

/-- The depth after code that starts at `depth`. -/
def depthFrom (depth : Nat) (code : List Instruction) : Nat :=
  code.foldl (fun depth i => i.effect.apply depth) depth

/-- The depth that code comes to from the empty stack. -/
def depth (code : List Instruction) : Nat :=
  depthFrom 0 code

/-- All that code puts on a stack, less all that it takes off. -/
def balance : List Instruction → Int
  | [] => 0
  | i :: rest => i.effect.pushes - i.effect.pops + balance rest

/-- Code that starts at a depth finds whatever it takes off the stack, and
drops a value only where it is the only one. -/
def Fed : Nat → List Instruction → Prop
  | _, [] => True
  | depth, i :: rest =>
    i.effect.pops ≤ depth ∧ (i = .pop → depth = 1) ∧ Fed (i.effect.apply depth) rest

@[simp] theorem depthFrom_nil (d : Nat) : depthFrom d [] = d := rfl

@[simp] theorem depthFrom_cons (d : Nat) (i : Instruction) (rest : List Instruction) :
    depthFrom d (i :: rest) = depthFrom (i.effect.apply d) rest := rfl

@[simp] theorem depthFrom_append (d : Nat) (xs ys : List Instruction) :
    depthFrom d (xs ++ ys) = depthFrom (depthFrom d xs) ys :=
  List.foldl_append

theorem fed_append {d : Nat} {xs ys : List Instruction} :
    Fed d (xs ++ ys) ↔ Fed d xs ∧ Fed (depthFrom d xs) ys := by
  induction xs generalizing d with
  | nil => simp [Fed]
  | cons i rest ih => simp [Fed, ih, and_assoc]

namespace Fed

variable {d : Nat} {code : List Instruction}

theorem take (h : Fed d code) (n : Nat) : Fed d (code.take n) := by
  rw [← code.take_append_drop n] at h
  exact (fed_append.mp h).1

/-- The depth that was followed is the sum of the effects. -/
theorem depthFrom_eq (h : Fed d code) : (depthFrom d code : Int) = d + balance code := by
  induction code generalizing d with
  | nil => simp [balance]
  | cons i rest ih =>
      obtain ⟨hpops, -, hrest⟩ := h
      rw [depthFrom_cons, ih hrest, StackEffect.apply, balance]
      omega

/-- What stands at an offset finds what it takes off. -/
theorem at_offset (h : Fed d code) {n : Nat} {i : Instruction} (hi : code[n]? = some i) :
    i.effect.pops ≤ depthFrom d (code.take n) ∧ (i = .pop → depthFrom d (code.take n) = 1) := by
  obtain ⟨hn, rfl⟩ := List.getElem?_eq_some_iff.mp hi
  rw [← code.take_append_drop n, List.drop_eq_getElem_cons hn] at h
  obtain ⟨hpops, hpop, -⟩ := (fed_append.mp h).2
  exact ⟨hpops, hpop⟩

end Fed

/-! ## The greatest depth -/

theorem depthFrom_take_le (d : Nat) (code : List Instruction) (n : Nat) :
    depthFrom d (code.take n) ≤ peakFrom d code := by
  induction code generalizing d n with
  | nil => simp [peakFrom]
  | cons i rest ih =>
      rw [peakFrom]
      cases n with
      | zero => exact Nat.le_max_left ..
      | succ n => exact Nat.le_trans (ih _ n) (Nat.le_max_right ..)

theorem pushes_le_one (i : Instruction) : i.effect.pushes ≤ 1 := by
  cases i <;> simp [Instruction.effect]

/-- Code never makes a stack deeper than it is long. -/
theorem peakFrom_le (d : Nat) (code : List Instruction) : peakFrom d code ≤ d + code.length := by
  induction code generalizing d with
  | nil => exact Nat.le_refl d
  | cons i rest ih =>
      have hrest := ih (i.effect.apply d)
      have hpushes := pushes_le_one i
      rw [peakFrom, List.length_cons]
      simp only [StackEffect.apply] at hrest ⊢
      omega

theorem peakFrom_append (d : Nat) (xs ys : List Instruction) :
    peakFrom d (xs ++ ys) = max (peakFrom d xs) (peakFrom (depthFrom d xs) ys) := by
  induction xs generalizing d with
  | nil => exact (Nat.max_eq_right (depthFrom_take_le d ys 0)).symm
  | cons i rest ih =>
      rw [List.cons_append, peakFrom, peakFrom, ih, Nat.max_assoc]
      rfl

theorem exists_depthFrom_take (d : Nat) (code : List Instruction) :
    ∃ n ≤ code.length, depthFrom d (code.take n) = peakFrom d code := by
  induction code generalizing d with
  | nil => exact ⟨0, Nat.le_refl 0, rfl⟩
  | cons i rest ih =>
      rw [peakFrom]
      obtain ⟨n, hn, hpeak⟩ := ih (i.effect.apply d)
      by_cases hd : peakFrom (i.effect.apply d) rest ≤ d
      · exact ⟨0, Nat.zero_le _, (Nat.max_eq_left hd).symm⟩
      · refine ⟨n + 1, Nat.succ_le_succ hn, ?_⟩
        rw [Nat.max_eq_right (Nat.le_of_not_le hd), ← hpeak]
        rfl

end Pixelwise
