/-
Literals — the number tokens that a compilation takes as operands, and the
constants that it emits.

An operand opens with the token that is taken right after an expression was
asked for.
-/
import Pixelwise.Compiler.Journal

namespace Pixelwise.Compiler

/-- The tokens that expressions open with, in order. -/
def openers : List Event → List Token
  | .visit .expression :: .take t :: rest => t :: openers rest
  | _ :: rest => openers rest
  | [] => []

/-- The number tokens among others. -/
def numbers (tokens : List Token) : List Token :=
  tokens.filter (·.kind = .number)

/-- The number tokens among those that expressions open with. -/
def literals (journal : List Event) : List Token :=
  numbers (openers journal)

/-- The constants of code, each with its line. -/
def constants (code : List (Instruction × Nat)) : List (Float × Nat) :=
  code.filterMap fun
    | (.constant value, line) => some (value, line)
    | _ => none

@[simp] theorem openers_nil : openers [] = [] := rfl

theorem openers_visit {p : Site} (hp : p ≠ .expression) (J : List Event) :
    openers (.visit p :: J) = openers J := by
  cases p with
  | expression => exact absurd rfl hp
  | _ => rfl

section

variable {t : Token} (ts us : List Token)

@[simp] theorem numbers_nil : numbers [] = [] := rfl

theorem numbers_cons (h : t.kind = .number) : numbers (t :: ts) = t :: numbers ts :=
  List.filter_cons_of_pos (decide_eq_true h)

theorem numbers_cons_of_ne (h : t.kind ≠ .number) : numbers (t :: ts) = numbers ts :=
  List.filter_cons_of_neg (by simpa using h)

@[simp] theorem numbers_append : numbers (ts ++ us) = numbers ts ++ numbers us :=
  List.filter_append ..

end

@[simp] theorem constants_append (code rest : List (Instruction × Nat)) :
    constants (code ++ rest) = constants code ++ constants rest := List.filterMap_append

end Pixelwise.Compiler
