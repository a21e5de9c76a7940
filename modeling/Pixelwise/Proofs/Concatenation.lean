/-
Concatenation — sources compile behind one another as they do alone.

The first source ends with a semicolon, or is no more than blanks.  The
compiler is calm there and has nothing in hand but the next token, so all that
it takes along into the second source is code, and the names that have been
assigned.

Main statement: `compile_append`.
-/
import Pixelwise.Chunk.Depth
import Pixelwise.Proofs.Assigning
import Pixelwise.Proofs.Blaming
import Pixelwise.Proofs.Joining
import Pixelwise.Proofs.Relocating
import Pixelwise.Proofs.Stacking

namespace Pixelwise

open Syntax Token Compiler

namespace Chunk

/-- Where code comes back to the empty stack, the code behind it needs no more
room than it does alone. -/
theorem ofEmitted_append {xs ys : List (Instruction × Nat)}
    (h : depth (xs.map Prod.fst) = 0) :
    ofEmitted (xs ++ ys) =
      ⟨(ofEmitted xs).instructions ++ (ofEmitted ys).instructions,
        (ofEmitted xs).lines ++ (ofEmitted ys).lines,
        max (ofEmitted xs).maxStackSize (ofEmitted ys).maxStackSize⟩ := by
  have hpeak : peak ((xs ++ ys).map Prod.fst) =
      max (peak (xs.map Prod.fst)) (peak (ys.map Prod.fst)) := by
    have hzero : depthFrom 0 (xs.map Prod.fst) = 0 := h
    rw [peak, List.map_append, peakFrom_append, hzero, peak, peak]
  rw [ofEmitted, hpeak, List.map_append, List.map_append]
  rfl

/-- The lines of code have no part in how it runs on the stack. -/
theorem ofEmitted_relocate (m : Relocation) (xs : List (Instruction × Nat)) :
    ofEmitted (xs.map fun p => (p.1, m.line p.2)) =
      ⟨(ofEmitted xs).instructions, (ofEmitted xs).lines.map m.line,
        (ofEmitted xs).maxStackSize⟩ := by
  have hcode : (xs.map fun p => (p.1, m.line p.2)).map Prod.fst = xs.map Prod.fst := by
    rw [List.map_map]
    rfl
  have hlines : (xs.map fun p => (p.1, m.line p.2)).map Prod.snd =
      (xs.map Prod.snd).map m.line := by
    rw [List.map_map, List.map_map]
    rfl
  rw [ofEmitted, hcode, hlines]
  rfl

end Chunk

namespace Compiler

variable {inputs : List String} {m : Relocation}

/-- A statement does not depend on the token that was taken before it. -/
theorem statements_previous {s : State} (h : s.pending ≠ []) (t : Token) :
    statements inputs { s with previous := t } = statements inputs s := by
  have hstatement : statement inputs { s with previous := t } = statement inputs s := by
    rw [statement, statement, expression_eq, expression_eq]
    rfl
  have h' : { s with previous := t }.pending ≠ [] := h
  rw [statements, dif_neg h', hstatement, statements.eq_def inputs s, dif_neg h]

/-- The result of a compilation elsewhere, behind code that comes back to the
empty stack. -/
theorem result_moved {front : List (Instruction × Nat)} {s r : State}
    (h : Moved m front.toArray s r) (hfront : depth (front.map Prod.fst) = 0) :
    r.result =
      match s.result with
      | .ok rest => .ok
          ⟨(Chunk.ofEmitted front).instructions ++ rest.instructions,
            (Chunk.ofEmitted front).lines ++ rest.lines.map m.line,
            max (Chunk.ofEmitted front).maxStackSize rest.maxStackSize⟩
      | .error diagnostics => .error (diagnostics.map (·.relocate m)) := by
  have hempty : r.diagnostics.isEmpty = s.diagnostics.isEmpty := by
    rw [h.diagnostics]
    simp [Array.isEmpty]
  rw [State.result, State.result, hempty]
  split
  · have hemitted : r.emitted.toList =
        front ++ s.emitted.toList.map fun p => (p.1, m.line p.2) := by
      simp [h.emitted]
    rw [hemitted, Chunk.ofEmitted_append hfront, Chunk.ofEmitted_relocate]
  · simp [h.diagnostics]

/-- Behind a program, the compiler goes through a source as it does alone, up
to the token that is taken last. -/
theorem finish_join {first second : String} {program : List Statement}
    (hprogram : DerivesProgram (scan first) program)
    (hnames : diagnose inputs [] (mentions program) = []) (hsecond : Settled (scan second))
    {assigned : List String} (hassigned : ∀ name, name ∈ assigned ↔ name ∈ assignees (scan first)) :
    ∃ t, Moved (behind first) (code program).toArray (finish assigned inputs second)
      { finish [] inputs (first ++ "\n" ++ second) with previous := t } := by
  let m := behind first
  let tail := (scan second).map (relocate m)
  have htail : Settled tail := settled_relocate hsecond m
  have hsettled : Settled (scan first ++ tail) :=
    settled_append (settled_of_program hprogram) htail
  have hread : Readable (scan first ++ tail) := by
    rw [← scan_join]
    exact readable_source _
  let final := (endOf second).relocate m
  obtain ⟨last, hlast⟩ := statements_append inputs hprogram htail
    ⟨final, scan first ++ tail, final, false, [], #[], #[]⟩ rfl rfl hread
    (narrow_of_mentions hnames)
  rw [finish, finish, start_of_settled _ hsecond, scan_join, endOf_join,
    start_of_settled _ hsettled, hlast]
  generalize hjoined : State.after _ inputs (mentions program) (code program) last tail = joined
  -- both sources are about to be read, and only the token before them differs
  have hmoved : Moved m (code program).toArray
      ⟨endOf second, scan second, endOf second, false, assigned, #[], #[]⟩
      { joined with previous := final } := by
    subst hjoined
    refine ⟨rfl, rfl, rfl, rfl, fun name => ?_, ?_, ?_⟩
    · rw [hassigned]
      exact mem_assignedAfter_program hprogram hnames name
    · simp [State.after, hnames]
    · simp [State.after]
  by_cases hnil : scan second = []
  · have hpending : joined.pending = [] := by
      rw [← hjoined, State.after_pending]
      exact List.map_eq_nil_iff.mpr hnil
    rw [statements, dif_pos hnil, statements, dif_pos hpending]
    exact ⟨final, hmoved⟩
  · have hpending : joined.pending ≠ [] := by
      rw [← hjoined, State.after_pending]
      exact fun h => hnil (List.map_eq_nil_iff.mp h)
    have hfinish := statements_moved inputs hmoved
    rw [statements_previous hpending] at hfinish
    exact ⟨_, hfinish⟩

end Compiler

/-- A source that compiles, a line feed and a second source compile as the
second does alone, once the names that the first one assigns can be read.
Where the second compiles, its code stands behind that of the first, on the
lines further on, and the two need the room of the one that needs more.  Where
it does not, what is wrong with it is all that is wrong, in its new places.  No
line goes beyond the line feeds of the whole and one.

The second source must not open with an unexpected character. -/
theorem compile_append {inputs : List String} {first second : String} {chunk : Chunk}
    (hfirst : compile inputs first = .ok chunk) (hsecond : Settled (scan second))
    {assigned : List String}
    (hassigned : ∀ name, name ∈ assigned ↔ name ∈ assignees (scan first)) :
    (compile inputs (first ++ "\n" ++ second) =
      match compileAfter assigned inputs second with
      | .ok rest => .ok
          ⟨chunk.instructions ++ rest.instructions,
            chunk.lines ++ rest.lines.map (behind first).line,
            max chunk.maxStackSize rest.maxStackSize⟩
      | .error diagnostics => .error (diagnostics.map (·.relocate (behind first)))) ∧
      ∀ line ∈ linesOf (compile inputs (first ++ "\n" ++ second)),
        line ≤ 1 + (first ++ "\n" ++ second).toList.count '\n' := by
  obtain ⟨program, hprogram, hnames, rfl⟩ := compileAfter_eq_ok_iff.mp hfirst
  obtain ⟨t, hmoved⟩ := finish_join hprogram hnames hsecond hassigned
  have hresult := result_moved hmoved (fed_program program).2
  exact ⟨hresult, fun line hline => line_le_of_mem_linesOf hline⟩

/-- The second source begins on the second line.  It reads a name of the
first, and a name of nobody. -/
theorem compile_append_undefined :
    compile [] "a = 1;\na; b;" = .error [⟨.undefinedName "b", 2, ⟨10, 11⟩⟩] := by
  have hfirst : compile [] "a = 1;" =
      .ok ⟨[.constant 1, .set "a", .get "a", .pop], [1, 1, 1, 1], 1⟩ := by
    with_unfolding_all rfl
  have hscan : assignees (scan "a = 1;") = ["a"] := by with_unfolding_all rfl
  have hsecond : Settled (scan "a; b;") := by with_unfolding_all rfl
  have halone : compileAfter ["a"] [] "a; b;" = .error [⟨.undefinedName "b", 1, ⟨3, 4⟩⟩] := by
    with_unfolding_all rfl
  have hassigned (name : String) : name ∈ ["a"] ↔ name ∈ assignees (scan "a = 1;") := by
    rw [hscan]
  have h := (compile_append hfirst hsecond hassigned).1
  rw [halone] at h
  exact h

end Pixelwise
