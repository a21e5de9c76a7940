/-
Layout — what a program comes to does not depend on where its tokens stand.

Two sources that say the same differ in lines and spans only.  Both are
moved to one and the same place, where nothing is left to tell them apart
(`unplaced_moved`), so they compile alike: to the same instructions, or with
the same problems, reported in the same order.

Main statement: `layout_free`.
-/
import Pixelwise.Proofs.Concatenation
import Pixelwise.Proofs.Spacing

namespace Pixelwise

open Token Compiler

/-- What a reader is told of a problem, apart from its place. -/
def Diagnostic.wording (d : Diagnostic) : String × String × List String :=
  (d.code, d.message, d.help)

/-- What a compilation comes to, without lines and spans: the instructions
and the room that they need, or the problems in their order. -/
def unplaced : Except (List Diagnostic) Chunk →
    Except (List (String × String × List String)) (List Instruction × Nat)
  | .ok chunk => .ok (chunk.instructions, chunk.maxStackSize)
  | .error diagnostics => .error (diagnostics.map Diagnostic.wording)

namespace Token

/-- Everything stands in the same place. -/
def nowhere : Relocation where
  line := fun _ => 0
  span := fun _ => ⟨0, 0⟩

/-- What a token says is all that is left of it there. -/
theorem map_relocate_nowhere {first second : List Token}
    (h : first.map word = second.map word) :
    first.map (relocate nowhere) = second.map (relocate nowhere) := by
  have hword : relocate nowhere = (fun w => ⟨w.1, w.2, 0, ⟨0, 0⟩⟩) ∘ word := rfl
  rw [hword, ← List.map_map, ← List.map_map, h]

end Token

namespace Compiler

/-- A compilation in another place comes to the same there. -/
theorem unplaced_moved {m : Relocation} {s r : State} (h : Moved m #[] s r) :
    unplaced r.result = unplaced s.result := by
  have hempty : Moved m ([] : List (Instruction × Nat)).toArray s r := h
  rw [result_moved hempty rfl]
  cases s.result with
  | ok chunk =>
      have hroom : max (Chunk.ofEmitted []).maxStackSize chunk.maxStackSize =
          chunk.maxStackSize := Nat.zero_max _
      simp only [unplaced, hroom]
      rfl
  | error diagnostics =>
      have hwording : Diagnostic.wording ∘ Diagnostic.relocate m = Diagnostic.wording := rfl
      simp only [unplaced, List.map_map, hwording]

/-- The compiler begins in one place as it does in another. -/
theorem start_moved (m : Relocation) (assigned : List String) (tokens : List Token)
    (final : Token) :
    Moved m #[] (State.start assigned tokens final)
      (State.start assigned (tokens.map (·.relocate m)) (final.relocate m)) := by
  rw [State.start, State.start]
  refine Moved.settle ?_ tokens
  exact ⟨rfl, rfl, rfl, rfl, fun _ => Iff.rfl, by simp, by simp⟩

end Compiler

/-- Sources that say the same compile alike. -/
theorem unplaced_compile {first second : String} (h : words first = words second)
    (inputs : List String) :
    unplaced (compile inputs first) = unplaced (compile inputs second) := by
  have hfirst := statements_moved inputs
    (start_moved nowhere [] (scan first) (endOf first))
  have hsecond := statements_moved inputs
    (start_moved nowhere [] (scan second) (endOf second))
  have hend : (endOf first).relocate nowhere = (endOf second).relocate nowhere := rfl
  rw [map_relocate_nowhere h, hend] at hfirst
  exact (unplaced_moved hfirst).symm.trans (unplaced_moved hsecond)

/-- The lexemes of a source with single blanks between them. -/
def spaced (source : String) : String :=
  " ".intercalate ((scan source).map (·.lexeme))

/-- Layout does not change a program.  Spacing can be put in wherever a token
begins or ends and leaves the kinds and the lexemes of all tokens as they
are.  Two sources with the same kinds and lexemes compile to the same
instructions with the same room, or have the same problems in the same
order.  So a source that compiles does so to the same instructions when its
lexemes are joined with single blanks. -/
theorem layout_free :
    (∀ before gap after : String, Boundary before after → Spacing gap.toList →
      words (before ++ gap ++ after) = words (before ++ after)) ∧
    (∀ (inputs : List String) (first second : String), words first = words second →
      unplaced (compile inputs first) = unplaced (compile inputs second)) ∧
    ∀ (inputs : List String) (source : String) (chunk : Chunk),
      compile inputs source = .ok chunk →
        ∃ joined, compile inputs (spaced source) = .ok joined ∧
          joined.instructions = chunk.instructions := by
  refine ⟨fun _ _ _ => words_insert, fun inputs _ _ h => unplaced_compile h inputs, ?_⟩
  intro inputs source chunk hcompile
  have halike := unplaced_compile (words_spaced source) inputs
  rw [hcompile] at halike
  cases hjoined : compile inputs (spaced source) with
  | error diagnostics =>
      rw [← spaced, hjoined] at halike
      cases halike
  | ok joined =>
      rw [← spaced, hjoined] at halike
      exact ⟨joined, rfl, congrArg Prod.fst (Except.ok.inj halike)⟩

/-- A comment between a primed name and the sign behind it. -/
theorem layout_free_commented :
    words "a' # one\n=1;" = words "a'=1;" ∧
      unplaced (compile [] "a' # one\n=1;") = unplaced (compile [] "a'=1;") ∧
      ∃ joined, compile [] "a' = 1 ;" = .ok joined ∧
        joined.instructions = [.constant 1, .set "a'", .get "a'", .pop] := by
  obtain ⟨hinsert, halike, hspaced⟩ := layout_free
  have hscan : scan "a'=1;" =
      [⟨.identifier, "a'", 1, ⟨0, 2⟩⟩, ⟨.equal, "=", 1, ⟨2, 3⟩⟩, ⟨.number, "1", 1, ⟨3, 4⟩⟩,
        ⟨.semicolon, ";", 1, ⟨4, 5⟩⟩] := by
    with_unfolding_all rfl
  have hboundary : Boundary "a'" "=1;" := by
    refine ⟨⟨.identifier, "a'", 1, ⟨0, 2⟩⟩, ?_, Or.inr (by decide)⟩
    rw [show "a'" ++ "=1;" = "a'=1;" from by decide, hscan]
    exact List.mem_cons_self
  have hgap : Spacing (" # one\n").toList :=
    .blank rfl (.comment (show '\n' ∉ (" one").toList by decide) .none)
  have hwords : words "a' # one\n=1;" = words "a'=1;" := by
    have hinserted := hinsert _ _ _ hboundary hgap
    rwa [show "a'" ++ " # one\n" ++ "=1;" = "a' # one\n=1;" from by decide,
      show "a'" ++ "=1;" = "a'=1;" from by decide] at hinserted
  have hcompile : compile [] "a'=1;" =
      .ok ⟨[.constant 1, .set "a'", .get "a'", .pop], [1, 1, 1, 1], 1⟩ := by
    with_unfolding_all rfl
  have hjoined : spaced "a'=1;" = "a' = 1 ;" := by
    rw [spaced, hscan]
    decide
  exact ⟨hwords, halike [] _ _ hwords, hjoined ▸ hspaced [] _ _ hcompile⟩

end Pixelwise
