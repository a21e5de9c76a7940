/-
Carrying — what the instructions of a program carry.

A name or a constant of the code is a token of the source (`Carries`), put
together along the grammar.  So names are on one line, and constants have no
sign.  Numbers without a sign are the same when they are equal as numbers,
and hence chunks that agree are the same.

Main statement: `agrees_iff_eq`.
-/
import Pixelwise.Proofs.Munching
import Pixelwise.Proofs.Scaling

namespace Pixelwise

namespace Syntax

open Token

/-- What an instruction carries is the text or the value of one of the
tokens, if it carries a name or a constant. -/
inductive Carries (ts : List Token) : Instruction → Prop
  | constant {t : Token} : t ∈ ts → t.kind = .number → Carries ts (.constant (literal t))
  | get {t : Token} : t ∈ ts → t.kind = .identifier → Carries ts (.get t.lexeme)
  | set {t : Token} : t ∈ ts → t.kind = .identifier → Carries ts (.set t.lexeme)
  | call (argc : Nat) : Carries ts (.call argc)
  | pop : Carries ts .pop
  | unary (op : UnaryOp) : Carries ts (.unary op)
  | binary (op : BinaryOp) : Carries ts (.binary op)

theorem Carries.mono {ts us : List Token} (h : ts ⊆ us) {i : Instruction} (hi : Carries ts i) :
    Carries us i := by
  cases hi with
  | constant ht hk => exact .constant (h ht) hk
  | get ht hk => exact .get (h ht) hk
  | set ht hk => exact .set (h ht) hk
  | call argc => exact .call argc
  | pop => exact .pop
  | unary op => exact .unary op
  | binary op => exact .binary op

theorem carries_code (ts : List Token) (op : Operator) : ∀ i ∈ op.code, Carries ts i := by
  intro i hi
  rw [Operator.code] at hi
  split at hi
  · rcases List.mem_pair.mp hi with rfl | rfl
    · exact .binary _
    · exact .unary _
  · rw [List.mem_singleton.mp hi]
    exact .binary _

mutual

theorem Derives.carries : ∀ {level : Precedence} {ts : List Token} {e : Expr},
    Derives level ts e → ∀ p ∈ e.code, Carries ts p.1
  | _, _, _, .number hk => by
      intro p hp
      rw [List.mem_singleton.mp hp]
      exact .constant List.mem_cons_self hk
  | _, _, _, .name hk => by
      intro p hp
      rw [List.mem_singleton.mp hp]
      exact .get List.mem_cons_self hk
  | _, _, _, .group _ hi _ => by
      intro p hp
      refine (hi.carries p hp).mono fun t ht => ?_
      exact List.mem_append_left _ (List.mem_cons_of_mem _ ht)
  | _, _, _, .call hk _ ha _ => by
      intro p hp
      rw [Expr.code, List.cons_append, List.mem_cons, List.mem_append, List.mem_singleton] at hp
      rcases hp with rfl | hp | rfl
      · exact .get List.mem_cons_self hk
      · refine (ha.carries p hp).mono fun t ht => ?_
        exact List.mem_append_left _ (List.mem_cons_of_mem _ (List.mem_cons_of_mem _ ht))
      · exact .call _
  | _, _, _, .unary _ hd => by
      intro p hp
      rw [Expr.code, List.mem_append, List.mem_singleton] at hp
      rcases hp with hp | rfl
      · exact (hd.carries p hp).mono fun t ht => List.mem_cons_of_mem _ ht
      · exact .unary _
  | _, _, _, .binary _ hl hr => by
      intro p hp
      rw [Expr.code, operatorCode_eq, List.mem_append, List.mem_append, List.mem_map] at hp
      rcases hp with (hp | hp) | ⟨i, hi, rfl⟩
      · exact (hl.carries p hp).mono fun t ht => List.mem_append_left _ ht
      · refine (hr.carries p hp).mono fun t ht => ?_
        exact List.mem_append_right _ (List.mem_cons_of_mem _ ht)
      · exact carries_code _ _ i hi
  | _, _, _, .tighter hd => hd.carries
  | _, _, _, .assign hk _ hd => by
      intro p hp
      rw [Expr.code, List.mem_append, List.mem_pair] at hp
      rcases hp with hp | rfl | rfl
      · refine (hd.carries p hp).mono fun t ht => ?_
        exact List.mem_cons_of_mem _ (List.mem_cons_of_mem _ ht)
      · exact .set List.mem_cons_self hk
      · exact .get List.mem_cons_self hk

theorem DerivesArgs.carries : ∀ {ts : List Token} {es : List Expr},
    DerivesArgs ts es → ∀ p ∈ codeAll es, Carries ts p.1
  | _, _, .none => nofun
  | _, _, .one hd => by
      intro p hp
      rw [codeAll, codeAll, List.append_nil] at hp
      exact hd.carries p hp
  | _, _, .more hd _ ha => by
      intro p hp
      rw [codeAll, List.mem_append] at hp
      rcases hp with hp | hp
      · exact (hd.carries p hp).mono fun t ht => List.mem_append_left _ ht
      · refine (ha.carries p hp).mono fun t ht => ?_
        exact List.mem_append_right _ (List.mem_cons_of_mem _ ht)

end

theorem DerivesProgram.carries {ts : List Token} {program : List Statement}
    (h : DerivesProgram ts program) : ∀ p ∈ code program, Carries ts p.1 := by
  induction h with
  | nil => nofun
  | cons hd _ _ ih =>
      intro p hp
      rw [code, List.flatMap_cons, ← code, Statement.code, List.mem_append, List.mem_append,
        List.mem_singleton] at hp
      rcases hp with (hp | rfl) | hp
      · exact (hd.carries p hp).mono fun t ht => List.mem_append_left _ ht
      · exact .pop
      · refine (ih p hp).mono fun t ht => ?_
        exact List.mem_append_right _ (List.mem_cons_of_mem _ ht)

/-! ## Tokens of a source -/

variable {source : String}

/-- Names are on one line. -/
theorem newline_notMem_name {t : Token} (ht : t ∈ scan source) (hk : t.kind = .identifier) :
    '\n' ∉ t.lexeme.toList := by
  have hword := lexeme_mem_of_mem_scan ht (by rw [hk]; rfl)
  rw [hk] at hword
  cases hw : t.lexeme.toList with
  | nil => exact List.not_mem_nil
  | cons c cs =>
      rw [hw] at hword
      obtain ⟨hc, hcs⟩ := cons_mem_identifier.mp hword
      intro hmem
      rcases List.mem_cons.mp hmem with rfl | hmem
      · cases hc
      · cases hcs _ hmem

/-- Numbers have no sign. -/
theorem unsigned_literal {t : Token} (ht : t ∈ scan source) (hk : t.kind = .number) :
    Binary64.Unsigned (literal t).toModel.unpack := by
  have hword := lexeme_mem_of_mem_scan ht (by rw [hk]; rfl)
  rw [hk] at hword
  have hplain := Decimal.lexemes_number_le hword
  obtain ⟨x, hx⟩ := Option.isSome_iff_exists.mp (Decimal.isSome_read?_of_mem_plain hplain)
  have hunsigned := Decimal.unsigned_of_read? hplain hx
  rw [String.ofList_toList] at hx
  rw [literal, hx]
  exact hunsigned

theorem Carries.unsigned {x : Float} (h : Carries (scan source) (.constant x)) :
    Binary64.Unsigned x.toModel.unpack := by
  cases h with
  | constant ht hk => exact unsigned_literal ht hk

/-- Instructions of programs agree with themselves only. -/
theorem Carries.agrees_iff {source' : String} {i j : Instruction} (hi : Carries (scan source) i)
    (hj : Carries (scan source') j) : i.agrees j = true ↔ i = j := by
  cases i with
  | constant x =>
      cases j with
      | constant y =>
          rw [Instruction.constant.injEq]
          exact Binary64.beq_iff_eq_of_unsigned hi.unsigned hj.unsigned
      | _ => simp [Instruction.agrees]
  | _ => simp [Instruction.agrees]

end Syntax

/-! ## Chunks -/

namespace Chunk

theorem eq_of_parts_eq {a b : Chunk} (hinstructions : a.instructions = b.instructions)
    (hlines : a.lines = b.lines) (hsize : a.maxStackSize = b.maxStackSize) : a = b := by
  cases a
  cases b
  cases hinstructions
  cases hlines
  cases hsize
  rfl

theorem zip_agrees_iff {is js : List Instruction} (hlength : is.length = js.length)
    (h : ∀ i ∈ is, ∀ j ∈ js, (i.agrees j = true ↔ i = j)) :
    (is.zip js).all (fun p => p.1.agrees p.2) = true ↔ is = js := by
  induction is generalizing js with
  | nil =>
      rw [List.eq_nil_of_length_eq_zero hlength.symm]
      exact iff_of_true rfl rfl
  | cons i is ih =>
      obtain ⟨j, js, rfl⟩ := List.exists_cons_of_length_eq_add_one hlength.symm
      have hhead := h i List.mem_cons_self j List.mem_cons_self
      have htail := ih (Nat.succ.inj hlength) fun i' hi j' hj =>
        h i' (List.mem_cons_of_mem _ hi) j' (List.mem_cons_of_mem _ hj)
      rw [List.zip_cons_cons, List.all_cons, Bool.and_eq_true, hhead, htail, List.cons.injEq]

theorem agrees_iff {a b : Chunk}
    (h : ∀ i ∈ a.instructions, ∀ j ∈ b.instructions, (i.agrees j = true ↔ i = j)) :
    a.agrees b = true ↔ a = b := by
  rw [agrees, Bool.and_eq_true, Bool.and_eq_true, Bool.and_eq_true, decide_eq_true_iff,
    decide_eq_true_iff, decide_eq_true_iff]
  constructor
  · rintro ⟨⟨⟨hlength, hall⟩, hlines⟩, hsize⟩
    exact eq_of_parts_eq ((zip_agrees_iff hlength h).mp hall) hlines hsize
  · rintro rfl
    exact ⟨⟨⟨rfl, (zip_agrees_iff rfl h).mpr rfl⟩, rfl⟩, rfl⟩

end Chunk

namespace Compiler

open Syntax Token

variable {assigned assigned' inputs inputs' : List String} {source source' : String}
  {a b : Chunk}

theorem carries_of_compileAfter (h : compileAfter assigned inputs source = .ok a) :
    ∀ i ∈ a.instructions, Carries (scan source) i := by
  obtain ⟨program, hprogram, -, rfl⟩ := compileAfter_eq_ok_iff.mp h
  intro i hi
  obtain ⟨p, hp, rfl⟩ := List.mem_map.mp hi
  exact hprogram.carries p hp

/-- Chunks that compile agree exactly if they are the same. -/
theorem agrees_iff_eq (ha : compileAfter assigned inputs source = .ok a)
    (hb : compileAfter assigned' inputs' source' = .ok b) : a.agrees b = true ↔ a = b := by
  refine Chunk.agrees_iff fun i hi j hj => ?_
  exact (carries_of_compileAfter ha i hi).agrees_iff (carries_of_compileAfter hb j hj)

end Compiler

end Pixelwise
