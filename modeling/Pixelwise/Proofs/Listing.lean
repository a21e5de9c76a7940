/-
Listing — a listing loses nothing of a chunk.

A row opens with a column of source lines, whose first word is a bar or a
number, and goes on with an instruction, whose first word says what it is.
So its line and its instruction are read off it again, the line with that of
the row before (`row_inj`).  Rows end where the first line feed is, as no
operand has one, and so a chunk is known by its listing (`listing_injOn`).

Main statement: `listing_eq_iff_agrees`.
-/
import Mathlib
import Pixelwise.Chunk.Listing
import Pixelwise.Proofs.Carrying
import Pixelwise.Proofs.Writing

namespace Pixelwise

open Listing

/-- A text is cut in one way at the first place of a character.  It may come
again behind that place, as the spaces and line feeds of a listing do, so
`List.append_cons_inj_of_notMem` does not apply. -/
theorem append_cons_inj_of_first {c : Char} {xs ys xs' ys' : List Char} (hx : c ∉ xs)
    (hx' : c ∉ xs') (h : xs ++ c :: ys = xs' ++ c :: ys') : xs = xs' ∧ ys = ys' := by
  have hlength : xs.length = xs'.length := by
    have hindex := congrArg (List.idxOf c) h
    rwa [List.idxOf_append_of_notMem hx, List.idxOf_append_of_notMem hx', List.idxOf_cons_self,
      List.idxOf_cons_self] at hindex
  obtain ⟨hxs, hys⟩ := List.append_inj h hlength
  exact ⟨hxs, (List.cons.inj hys).2⟩

/-! ## Instructions -/

namespace Instruction

/-- The instruction without what it carries. -/
def bare : Instruction → Instruction
  | constant _ => constant 0
  | get _ => get ""
  | set _ => set ""
  | call _ => call 0
  | i => i

/-- The instructions that carry nothing of their own. -/
def bares : List Instruction :=
  [constant 0, get "", set "", call 0, pop, unary .negate, unary .not] ++
    [.equal, .greater, .less, .add, .subtract, .multiply, .divide, .power, .remainder, .and,
      .or].map binary

theorem bare_mem_bares (i : Instruction) : i.bare ∈ bares := by
  cases i with
  | unary op => cases op <;> simp [bare, bares]
  | binary op => cases op <;> simp [bare, bares]
  | _ => simp [bare, bares]

@[simp] theorem mnemonic_bare (i : Instruction) : i.bare.mnemonic = i.mnemonic := by
  cases i <;> rfl

@[simp] theorem canFail_bare (i : Instruction) : i.bare.canFail = i.canFail := by
  cases i <;> rfl

theorem isSome_operand?_bare (i : Instruction) : i.bare.operand?.isSome = i.operand?.isSome := by
  cases i <;> rfl

/-- The names of instructions are letters. -/
theorem notMem_mnemonic {c : Char} (hc : c.isAlpha = false) (i : Instruction) :
    c ∉ i.mnemonic.toList := by
  have hall : ∀ j ∈ bares, j.mnemonic.toList.all Char.isAlpha = true := by decide
  intro hmem
  rw [← mnemonic_bare] at hmem
  rw [List.all_eq_true.mp (hall _ i.bare_mem_bares) c hmem] at hc
  cases hc

/-- Instructions of one name differ in what they carry only. -/
theorem bare_eq_of_mnemonic_eq {i j : Instruction} (h : i.mnemonic = j.mnemonic) :
    i.bare = j.bare := by
  have hnodup : (bares.map mnemonic).Nodup := by decide
  rw [← mnemonic_bare i, ← mnemonic_bare j] at h
  exact List.inj_on_of_nodup_map hnodup i.bare_mem_bares j.bare_mem_bares h

theorem eq_of_operand?_eq {i j : Instruction} (hbare : i.bare = j.bare)
    (h : i.operand? = j.operand?) : i = j := by
  cases i <;> cases j <;> cases hbare
  case constant.constant.refl => rw [Decimal.write_injective (Option.some.inj h)]
  case get.get.refl => rw [Option.some.inj h]
  case set.set.refl => rw [Option.some.inj h]
  case call.call.refl => rw [Nat.repr_inj.mp (Option.some.inj h)]
  case pop.pop.refl => rfl
  case unary.unary.refl => rfl
  case binary.binary.refl => rfl

/-- An instruction and its mark, as rows show them. -/
def shown (i : Instruction) : List Char :=
  (i.describe ++ " " ++ if i.canFail then "(!)" else "").toList

/-- What rows show behind the name of an instruction and a space. -/
def trail (i : Instruction) : List Char :=
  let mark := if i.canFail then ['(', '!', ')'] else []
  match i.operand? with
  | some text => List.replicate (10 - i.mnemonic.length) ' ' ++ (text.toList ++ ' ' :: mark)
  | none => mark

theorem shown_eq (i : Instruction) : i.shown = i.mnemonic.toList ++ ' ' :: i.trail := by
  have hmark : (if i.canFail then "(!)" else "").toList =
      if i.canFail then ['(', '!', ')'] else [] := by
    rw [apply_ite String.toList]
    rfl
  rw [shown, trail, describe, String.toList_append, hmark]
  cases i.operand? with
  | some text =>
      have hpad : ∀ k cs, List.replicate k ' ' ++ ' ' :: cs = ' ' :: (List.replicate k ' ' ++ cs) :=
        fun k cs => List.append_cons .. ▸ List.replicate_succ' .. ▸ rfl
      simp [padRight, hpad]
  | none => simp

/-- What an instruction carries is on one line. -/
def Inline (i : Instruction) : Prop :=
  ∀ text ∈ i.operand?, '\n' ∉ text.toList

theorem newline_notMem_shown {i : Instruction} (h : i.Inline) : '\n' ∉ i.shown := by
  have hmnemonic : '\n' ∉ i.mnemonic.toList := notMem_mnemonic rfl i
  rw [shown_eq, trail]
  have hmark : '\n' ∉ (if i.canFail then ['(', '!', ')'] else []) := by
    split <;> decide
  cases hi : i.operand? with
  | none => simp [hmnemonic, hmark]
  | some text =>
      have htext := h text hi
      simp [hmnemonic, hmark, htext]

/-- An instruction is known by its text. -/
theorem shown_inj {i j : Instruction} (h : i.shown = j.shown) : i = j := by
  rw [shown_eq, shown_eq] at h
  obtain ⟨hmnemonic, htrail⟩ :=
    append_cons_inj_of_first (notMem_mnemonic rfl i) (notMem_mnemonic rfl j) h
  -- The name decides whether there is an operand, how it is padded, and the mark.
  replace hmnemonic := String.toList_inj.mp hmnemonic
  have hbare := bare_eq_of_mnemonic_eq hmnemonic
  have hfail : i.canFail = j.canFail := by rw [← canFail_bare, hbare, canFail_bare]
  have hsome : i.operand?.isSome = j.operand?.isSome := by
    rw [← isSome_operand?_bare, hbare, isSome_operand?_bare]
  refine eq_of_operand?_eq hbare ?_
  rw [trail, trail, hfail, hmnemonic] at htrail
  cases hi : i.operand? with
  | none =>
      rw [hi] at hsome
      exact (Option.isNone_iff_eq_none.mp (Option.isSome_eq_false_iff.mp hsome.symm)).symm
  | some text =>
      rw [hi] at hsome htrail
      obtain ⟨text', hj⟩ := Option.isSome_iff_exists.mp hsome.symm
      rw [hj] at htrail ⊢
      have htext := List.append_cancel_right (List.append_cancel_left htrail)
      rw [String.toList_inj.mp htext]

end Instruction

/-! ## Rows -/

namespace Chunk

/-- The first word of the column of source lines. -/
def lineWord (previous : Option Nat) (line : Nat) : List Char :=
  if previous = some line then ['|'] else (toString line).toList

theorem exists_lineColumn (previous : Option Nat) (line : Nat) :
    ∃ k, (lineColumn previous line).toList = List.replicate k ' ' ++ lineWord previous line := by
  rw [lineColumn, lineWord]
  split
  · exact ⟨3, rfl⟩
  · exact ⟨4 - (toString line).length, by rw [padLeft, String.toList_append, String.toList_ofList]⟩

theorem space_notMem_lineWord (previous : Option Nat) (line : Nat) :
    ' ' ∉ lineWord previous line := by
  rw [lineWord]
  split
  · decide
  · exact notMem_toString (by decide) line

theorem lineWord_ne_nil (previous : Option Nat) (line : Nat) : lineWord previous line ≠ [] := by
  rw [lineWord]
  split
  · exact List.cons_ne_nil '|' []
  · rw [Nat.toString_eq_ofList_toDigits, String.toList_ofList]
    exact Nat.toDigits_ne_nil

/-- A line is known by its word and the line before. -/
theorem lineWord_inj {previous : Option Nat} {line line' : Nat}
    (h : lineWord previous line = lineWord previous line') : line = line' := by
  have hbar : ∀ n : Nat, (toString n).toList ≠ ['|'] := by
    intro n hn
    exact notMem_toString (c := '|') (by decide) n (hn ▸ List.mem_cons_self)
  rw [lineWord, lineWord] at h
  split at h <;> split at h
  · rename_i hl hl'
    exact Option.some.inj (hl.symm.trans hl')
  · exact absurd h.symm (hbar line')
  · exact absurd h (hbar line)
  · exact Nat.repr_inj.mp (String.toList_inj.mp h)

/-- The column, and what follows it, without the spaces at its front. -/
theorem dropWhile_lineColumn (previous : Option Nat) (line : Nat) (rest : List Char) :
    ((lineColumn previous line).toList ++ rest).dropWhile (· = ' ') =
      lineWord previous line ++ rest := by
  obtain ⟨k, hk⟩ := exists_lineColumn previous line
  obtain ⟨c, cs, hword⟩ := List.exists_cons_of_ne_nil (lineWord_ne_nil previous line)
  have hc : c ≠ ' ' := by
    rintro rfl
    exact space_notMem_lineWord previous line (hword ▸ List.mem_cons_self)
  rw [hk, hword, List.append_assoc, List.dropWhile_append_of_pos (by simp), List.cons_append,
    List.dropWhile_cons_of_neg (by simpa using hc)]

/-- The row of an instruction, without the line feed at its end. -/
def row (offset : Nat) (previous : Option Nat) (line : Nat) (i : Instruction) : List Char :=
  ("    " ++ padLeft 4 '0' (toString offset) ++ " ").toList ++
    ((lineColumn previous line).toList ++ ' ' :: ' ' :: i.shown)

theorem toList_listInstruction (offset : Nat) (previous : Option Nat) (line : Nat)
    (i : Instruction) :
    (listInstruction offset previous line i).toList = row offset previous line i ++ ['\n'] := by
  simp [listInstruction, row, Instruction.shown]

/-- A line and an instruction are known by their row and the line before. -/
theorem row_inj {offset : Nat} {previous : Option Nat} {line line' : Nat} {i j : Instruction}
    (h : row offset previous line i = row offset previous line' j) : line = line' ∧ i = j := by
  -- Both rows open with one offset, so its width does not matter.
  have hcolumn := congrArg (List.dropWhile (· = ' ')) (List.append_cancel_left h)
  rw [dropWhile_lineColumn, dropWhile_lineColumn] at hcolumn
  obtain ⟨hword, hrest⟩ := append_cons_inj_of_first (space_notMem_lineWord previous line)
    (space_notMem_lineWord previous line') hcolumn
  exact ⟨lineWord_inj hword, Instruction.shown_inj (List.cons.inj hrest).2⟩

theorem newline_notMem_row (offset : Nat) (previous : Option Nat) (line : Nat) {i : Instruction}
    (h : i.Inline) : '\n' ∉ row offset previous line i := by
  have hdigits : ∀ n : Nat, '\n' ∉ (toString n).toList := notMem_toString (by decide)
  have hword : '\n' ∉ lineWord previous line := by
    rw [lineWord]
    split
    · decide
    · exact hdigits line
  have hfill : ∀ (k : Nat) (c : Char), c ≠ '\n' → '\n' ∉ List.replicate k c :=
    fun k c hc hmem => hc (List.eq_of_mem_replicate hmem).symm
  obtain ⟨k, hk⟩ := exists_lineColumn previous line
  rw [row, hk, padLeft]
  simp only [String.toList_append, String.toList_ofList, List.mem_append, List.mem_cons, not_or]
  exact ⟨⟨⟨by decide, hfill _ '0' (by decide), hdigits offset⟩, by decide⟩,
    ⟨hfill k ' ' (by decide), hword⟩, by decide, by decide, Instruction.newline_notMem_shown h⟩

/-- The rows from an offset on, and the brace behind them. -/
def rows (offset : Nat) (previous : Option Nat) (code : List Instruction) (lines : List Nat) :
    List Char :=
  (String.join (listFrom offset previous code lines)).toList ++ ['\x7d']

theorem rows_cons (offset : Nat) (previous : Option Nat) (i : Instruction)
    (code : List Instruction) (line : Nat) (lines : List Nat) :
    rows offset previous (i :: code) (line :: lines) =
      row offset previous line i ++ '\n' :: rows (offset + 1) (some line) code lines := by
  rw [rows, listFrom, String.join_cons, String.toList_append, List.headD_cons, List.tail_cons,
    toList_listInstruction, List.append_assoc, List.append_assoc]
  rfl

theorem rows_cons_ne (offset : Nat) (previous : Option Nat) (i : Instruction)
    (code : List Instruction) (line : Nat) (lines : List Nat) :
    rows offset previous (i :: code) (line :: lines) ≠ ['\x7d'] := by
  intro h
  rw [rows_cons] at h
  have hmem : '\n' ∈ ['\x7d'] := h ▸ List.mem_append_right _ List.mem_cons_self
  exact absurd hmem (by decide)

/-- Instructions and their lines are known by their rows: each row ends where
the first line feed is, and gives the line that the next one goes by. -/
theorem rows_inj {offset : Nat} {previous : Option Nat} {is js : List Instruction}
    {ls ms : List Nat} (hls : ls.length = is.length) (hms : ms.length = js.length)
    (his : ∀ i ∈ is, i.Inline) (hjs : ∀ j ∈ js, j.Inline)
    (h : rows offset previous is ls = rows offset previous js ms) : is = js ∧ ls = ms := by
  -- A brace and a row are told apart, so both texts end after as many rows.
  induction is generalizing offset previous js ls ms with
  | nil =>
      obtain rfl := List.eq_nil_of_length_eq_zero hls
      cases js with
      | nil => exact ⟨rfl, (List.eq_nil_of_length_eq_zero hms).symm⟩
      | cons j js =>
          obtain ⟨m, ms, rfl⟩ := List.exists_cons_of_length_eq_add_one hms
          exact absurd h.symm (rows_cons_ne _ _ _ _ _ _)
  | cons i is ih =>
      obtain ⟨l, ls, rfl⟩ := List.exists_cons_of_length_eq_add_one hls
      cases js with
      | nil => exact absurd h (rows_cons_ne _ _ _ _ _ _)
      | cons j js =>
          obtain ⟨m, ms, rfl⟩ := List.exists_cons_of_length_eq_add_one hms
          rw [List.forall_mem_cons] at his hjs
          rw [rows_cons, rows_cons] at h
          obtain ⟨hrow, hrest⟩ :=
            append_cons_inj_of_first (newline_notMem_row offset previous l his.1)
              (newline_notMem_row offset previous m hjs.1) h
          obtain ⟨rfl, rfl⟩ := row_inj hrow
          obtain ⟨rfl, rfl⟩ := ih (Nat.succ.inj hls) (Nat.succ.inj hms) his.2 hjs.2 hrest
          exact ⟨rfl, rfl⟩

/-! ## Chunks -/

/-- Each instruction has a line, and what it carries is on one. -/
structure Listable (chunk : Chunk) : Prop where
  lined : chunk.lines.length = chunk.instructions.length
  inline : ∀ i ∈ chunk.instructions, i.Inline

theorem toList_listing (chunk : Chunk) :
    chunk.listing.toList =
      "Chunk \x7b\n  max_stack_size: ".toList ++ ((toString chunk.maxStackSize).toList ++
        '\n' :: ("  instructions:\n".toList ++ rows 0 none chunk.instructions chunk.lines)) := by
  have hbreak : "\n  instructions:\n".toList = '\n' :: "  instructions:\n".toList := by
    decide
  unfold listing rows
  simp only [String.toList_append, hbreak, List.append_assoc, List.cons_append]
  rfl

/-- A chunk is known by its listing. -/
theorem listing_injOn : Set.InjOn listing {chunk | chunk.Listable} := by
  rintro a ⟨ha, hai⟩ b ⟨hb, hbi⟩ h
  have hdigits : ∀ n : Nat, '\n' ∉ (toString n).toList := notMem_toString (by decide)
  have htext := congrArg String.toList h
  rw [toList_listing, toList_listing] at htext
  obtain ⟨hsize, hrest⟩ :=
    append_cons_inj_of_first (hdigits a.maxStackSize) (hdigits b.maxStackSize)
      (List.append_cancel_left htext)
  obtain ⟨hinstructions, hlines⟩ := rows_inj ha hb hai hbi (List.append_cancel_left hrest)
  exact eq_of_parts_eq hinstructions hlines (Nat.repr_inj.mp (String.toList_inj.mp hsize))

example : listing ⟨[.constant 1, .get "x", .binary .divide, .pop], [1, 2, 2, 10000], 2⟩ =
    "Chunk \x7b\n  max_stack_size: 2\n  instructions:\n" ++
      "    0000    1  Constant   1 \n" ++ "    0001    2  Get        x (!)\n" ++
      "    0002    |  Divide (!)\n" ++ "    0003 10000  Pop \n" ++ "\x7d" := by
  decide +kernel

end Chunk

/-! ## Chunks of programs -/

namespace Compiler

open Syntax Token

variable {assigned assigned' inputs inputs' : List String} {source source' : String}
  {a b : Chunk}

/-- Names and numbers are written on one line. -/
theorem inline_of_carries {i : Instruction} (h : Carries (scan source) i) : i.Inline := by
  cases h with
  | constant _ _ =>
      rintro _ ⟨⟩
      exact Decimal.newline_notMem_write _
  | get ht hk | set ht hk =>
      rintro _ ⟨⟩
      exact newline_notMem_name ht hk
  | call argc =>
      rintro _ ⟨⟩
      exact notMem_toString (by decide) argc
  | pop | unary _ | binary _ => nofun

theorem listable_of_compileAfter (h : compileAfter assigned inputs source = .ok a) :
    a.Listable where
  lined := by
    obtain ⟨program, -, -, rfl⟩ := compileAfter_eq_ok_iff.mp h
    exact (List.length_map ..).trans (List.length_map ..).symm
  inline i hi := inline_of_carries (carries_of_compileAfter h i hi)

/-- Two chunks that compile, from whatever sources and against whatever
inputs, have the same listing exactly if they agree: in their instructions,
with constants compared as numbers, in their lines and in their room. -/
theorem listing_eq_iff_agrees (ha : compileAfter assigned inputs source = .ok a)
    (hb : compileAfter assigned' inputs' source' = .ok b) :
    a.listing = b.listing ↔ a.agrees b = true := by
  rw [agrees_iff_eq ha hb]
  exact Chunk.listing_injOn.eq_iff (listable_of_compileAfter ha) (listable_of_compileAfter hb)

/-- A zero before a number does not change the listing, and a line feed does. -/
theorem listing_eq_iff_agrees_quotient :
    ∃ a b c, compileAfter [] [] "1/2;" = .ok a ∧ compileAfter [] ["t"] "01/2.0;" = .ok b ∧
      compileAfter [] [] "1\n/2;" = .ok c ∧ a.listing = b.listing ∧ a.listing ≠ c.listing := by
  have ha : compileAfter [] [] "1/2;" =
      .ok ⟨[.constant 1, .constant 2, .binary .divide, .pop], [1, 1, 1, 1], 2⟩ := by
    with_unfolding_all rfl
  have hb : compileAfter [] ["t"] "01/2.0;" =
      .ok ⟨[.constant 1, .constant 2, .binary .divide, .pop], [1, 1, 1, 1], 2⟩ := by
    with_unfolding_all rfl
  have hc : compileAfter [] [] "1\n/2;" =
      .ok ⟨[.constant 1, .constant 2, .binary .divide, .pop], [1, 2, 2, 2], 2⟩ := by
    with_unfolding_all rfl
  refine ⟨_, _, _, ha, hb, hc, (listing_eq_iff_agrees ha hb).mpr ?_, ?_⟩
  · with_unfolding_all rfl
  · intro h
    have hagrees := (listing_eq_iff_agrees ha hc).mp h
    rw [Chunk.agrees, Bool.and_eq_true, Bool.and_eq_true] at hagrees
    exact absurd hagrees.1.2 (by decide)

end Compiler

end Pixelwise
