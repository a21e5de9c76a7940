/-
Room — how deep the code of a tree makes the stack.

The code of an expression leaves one value more than it found, and never
takes off one that it did not put there (`fed_code`).  So the greatest depth
that its code comes to is that of the tree: what is on the stack before it,
and the room that the tree takes (`peakFrom_code`).

Main statements: `fed_program` and `peak_program`.
-/
import Pixelwise.Chunk.Depth
import Pixelwise.Syntax.Tree

namespace Pixelwise.Syntax

/-! ## What code leaves -/

theorem map_fst_operator (op : Operator) (line : Nat) :
    ((operatorCode op).map fun i => (i, line)).map Prod.fst = op.code := by
  rw [List.map_map, operatorCode_eq]
  exact List.map_id _

theorem fed_operator (op : Operator) (d : Nat) :
    Fed (d + 2) op.code ∧ depthFrom (d + 2) op.code = d + 1 := by
  rw [Operator.code]
  split <;> simp [Fed, Instruction.effect, StackEffect.apply]

mutual

/-- The code of an expression leaves one value. -/
theorem fed_code : ∀ (e : Expr) (d : Nat),
    Fed d (e.code.map Prod.fst) ∧ depthFrom d (e.code.map Prod.fst) = d + 1
  | .number _, d => by simp [Expr.code, Fed, Instruction.effect, StackEffect.apply]
  | .name _, d => by simp [Expr.code, Fed, Instruction.effect, StackEffect.apply]
  | .group inner _, d => fed_code inner d
  | .call callee args closing, d => by
      obtain ⟨hargs, hdepth⟩ := fed_codeAll args (d + 1)
      simp only [Expr.code, List.map_cons, List.map_append, List.cons_append, List.map_nil, Fed,
        depthFrom_cons, depthFrom_append, fed_append, Instruction.effect, StackEffect.apply]
      simp only [Nat.sub_zero, hdepth, depthFrom_nil]
      refine ⟨⟨Nat.zero_le d, by simp, hargs, by omega, by simp, trivial⟩, by omega⟩
  | .unary op operand, d => by
      obtain ⟨hoperand, hdepth⟩ := fed_code operand d
      simp [Expr.code, fed_append, hoperand, hdepth, Fed, Instruction.effect, StackEffect.apply]
  | .binary op left right, d => by
      obtain ⟨hleft, hl⟩ := fed_code left d
      obtain ⟨hright, hr⟩ := fed_code right (d + 1)
      obtain ⟨hop, ho⟩ := fed_operator op d
      simp only [Expr.code, List.map_append, fed_append, depthFrom_append, hl, hr,
        map_fst_operator]
      exact ⟨⟨⟨hleft, hright⟩, hop⟩, ho⟩
  | .assign target value, d => by
      obtain ⟨hvalue, hdepth⟩ := fed_code value d
      simp [Expr.code, fed_append, hvalue, hdepth, Fed, Instruction.effect, StackEffect.apply]

/-- The code of arguments leaves as many values. -/
theorem fed_codeAll : ∀ (es : List Expr) (d : Nat),
    Fed d ((codeAll es).map Prod.fst) ∧
      depthFrom d ((codeAll es).map Prod.fst) = d + es.length
  | [], d => by simp [codeAll, Fed]
  | e :: rest, d => by
      obtain ⟨he, hdepth⟩ := fed_code e d
      obtain ⟨hrest, hall⟩ := fed_codeAll rest (d + 1)
      simp only [codeAll, List.map_append, fed_append, depthFrom_append, hdepth, hall,
        List.length_cons]
      exact ⟨⟨he, hrest⟩, by omega⟩

end

theorem map_fst_code_cons (p : Statement) (rest : List Statement) :
    (code (p :: rest)).map Prod.fst =
      p.value.code.map Prod.fst ++ .pop :: (code rest).map Prod.fst := by
  simp [code, Statement.code]

/-- The code of a program leaves nothing. -/
theorem fed_program (program : List Statement) :
    Fed 0 ((code program).map Prod.fst) ∧ depth ((code program).map Prod.fst) = 0 := by
  induction program with
  | nil => exact ⟨trivial, rfl⟩
  | cons p rest ih =>
      obtain ⟨hvalue, hdepth⟩ := fed_code p.value 0
      obtain ⟨hrest, hzero⟩ := ih
      rw [map_fst_code_cons, fed_append, depth, depthFrom_append, hdepth]
      exact ⟨⟨hvalue, Nat.le_refl 1, fun _ => rfl, hrest⟩, hzero⟩

/-! ## The greatest depth -/

theorem peakFrom_operator (op : Operator) (d : Nat) : peakFrom (d + 2) op.code = d + 2 := by
  rw [Operator.code]
  split <;> simp [peakFrom, Instruction.effect, StackEffect.apply]

theorem room_pos : ∀ e : Expr, 1 ≤ e.room
  | .number _ | .name _ => Nat.le_refl 1
  | .group inner _ => room_pos inner
  | .call _ args _ => Nat.le_add_right 1 (roomAll args)
  | .unary _ operand => room_pos operand
  | .binary _ left _ => Nat.le_trans (room_pos left) (Nat.le_max_left ..)
  | .assign _ value => room_pos value

theorem length_le_roomAll (es : List Expr) : es.length ≤ roomAll es := by
  induction es with
  | nil => exact Nat.le_refl 0
  | cons e rest ih =>
      rw [List.length_cons, Nat.add_comm]
      exact Nat.le_trans (Nat.add_le_add_left ih 1) (Nat.le_max_right ..)

mutual

/-- The code of an expression comes to the room of the expression, above what
it found. -/
theorem peakFrom_code : ∀ (e : Expr) (d : Nat), peakFrom d (e.code.map Prod.fst) = d + e.room
  | .number _, d | .name _, d => by
      simp [Expr.code, Expr.room, peakFrom, Instruction.effect, StackEffect.apply]
  | .group inner _, d => peakFrom_code inner d
  | .call callee args closing, d => by
      have hargs := peakFrom_codeAll args (d + 1)
      have hdepth := (fed_codeAll args (d + 1)).2
      have hcall : (Expr.code (.call callee args closing)).map Prod.fst =
          .get callee.lexeme :: (codeAll args).map Prod.fst ++ [.call args.length] := by
        simp [Expr.code]
      rw [hcall, List.cons_append, peakFrom, peakFrom_append]
      change max d (max (peakFrom (d + 1) ((codeAll args).map Prod.fst)) (peakFrom
        (depthFrom (d + 1) ((codeAll args).map Prod.fst)) [.call args.length])) = _
      rw [hargs, hdepth, Expr.room]
      have hlength := length_le_roomAll args
      simp only [peakFrom, Instruction.effect, StackEffect.apply]
      omega
  | .unary op operand, d => by
      have hroom := room_pos operand
      simp only [Expr.code, List.map_append, peakFrom_append, peakFrom_code operand d,
        (fed_code operand d).2, Expr.room]
      simp only [List.map_cons, List.map_nil, peakFrom, Instruction.effect, StackEffect.apply]
      omega
  | .binary op left right, d => by
      have hroom := room_pos right
      simp only [Expr.code, List.map_append, peakFrom_append, depthFrom_append,
        peakFrom_code left d, (fed_code left d).2, peakFrom_code right (d + 1),
        (fed_code right (d + 1)).2, map_fst_operator, peakFrom_operator, Expr.room]
      omega
  | .assign target value, d => by
      have hroom := room_pos value
      simp only [Expr.code, List.map_append, peakFrom_append, peakFrom_code value d,
        (fed_code value d).2, Expr.room]
      simp only [List.map_cons, List.map_nil, peakFrom, Instruction.effect, StackEffect.apply]
      omega

theorem peakFrom_codeAll : ∀ (es : List Expr) (d : Nat),
    peakFrom d ((codeAll es).map Prod.fst) = d + roomAll es
  | [], d => rfl
  | e :: rest, d => by
      simp only [codeAll, List.map_append, peakFrom_append, peakFrom_code e d, (fed_code e d).2,
        peakFrom_codeAll rest (d + 1), roomAll]
      omega

end

/-- The code of a program comes to the room of the program. -/
theorem peak_program (program : List Statement) :
    peak ((code program).map Prod.fst) = room program := by
  induction program with
  | nil => rfl
  | cons p rest ih =>
      have hroom := room_pos p.value
      rw [map_fst_code_cons, peak, peakFrom_append, peakFrom_code, (fed_code p.value 0).2, peakFrom]
      change max _ (max _ (peak ((code rest).map Prod.fst))) = _
      rw [ih, room]
      omega

end Pixelwise.Syntax
