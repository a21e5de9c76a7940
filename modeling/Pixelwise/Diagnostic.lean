/-
Diagnostics — what is wrong with a program, and where.

A `Problem` is the cause; its wording, its code and its advice are
functions of the cause.  Problems of form stop the reading of a statement
(`Problem.isSyntax`), the others do not.
-/
import Pixelwise.Token.Basic

namespace Pixelwise

/-- Places where the grammar asks for one particular token. -/
inductive Expectation where
  | semicolonAfterExpression
  | parenAfterExpression
  | parenAfterArguments
deriving DecidableEq, Repr

namespace Expectation

/-- The kind of token that is asked for. -/
def kind : Expectation → Token.Kind
  | semicolonAfterExpression => .semicolon
  | parenAfterExpression | parenAfterArguments => .rightParen

/-- What a reader is told when the token is missing. -/
def message : Expectation → String
  | semicolonAfterExpression => "Expected ';' after expression."
  | parenAfterExpression => "Expected ')' after expression."
  | parenAfterArguments => "Expected ')' after arguments."

end Expectation

/-- Everything that can be wrong with a program. -/
inductive Problem where
  | unexpectedCharacter (c : Char)
  | missing (what : Expectation)
  | expectedExpression
  | invalidTarget
  | invalidNumber (lexeme : String)
  | tooManyArguments
  | undefinedName (name : String)
  | assignToInput (name : String)
  | assignToFunction (name : String)
  | functionNotCalled (name : String)
  | notCallable
  | arityMismatch (name : String) (expected found : Nat)
deriving DecidableEq, Repr

namespace Problem

/-- Problems of form: a character that starts no token, or tokens that do
not fit the grammar. -/
def isSyntax : Problem → Bool
  | unexpectedCharacter _ | missing _ | expectedExpression | invalidTarget
  | tooManyArguments => true
  | _ => false

/-- A stable code for each cause. -/
def code : Problem → String
  | unexpectedCharacter _ => "L001"
  | missing _ => "P001"
  | expectedExpression => "P002"
  | invalidTarget => "P003"
  | invalidNumber _ => "P004"
  | tooManyArguments => "P005"
  | undefinedName _ => "N001"
  | assignToInput _ => "N002"
  | assignToFunction _ => "N003"
  | functionNotCalled _ => "N004"
  | notCallable => "N005"
  | arityMismatch .. => "A001"

/-- The problem in words. -/
def message : Problem → String
  | unexpectedCharacter c => "Unexpected character '" ++ c.toString ++ "'."
  | missing what => what.message
  | expectedExpression => "Expected expression."
  | invalidTarget => "Invalid assignment target."
  | invalidNumber lexeme => "Invalid number literal '" ++ lexeme ++ "'."
  | tooManyArguments => "Can't have more than 255 arguments."
  | undefinedName name => "Undefined name '" ++ name ++ "'."
  | assignToInput name => "Cannot assign to input '" ++ name ++ "'."
  | assignToFunction name => "Cannot assign to function '" ++ name ++ "'."
  | functionNotCalled name => "Function '" ++ name ++ "' used without calling it."
  | notCallable => "Can only call functions."
  | arityMismatch name expected found =>
    "Function '" ++ name ++ "' expects " ++ toString expected ++ " argument(s) but got " ++
      toString found ++ "."

/-- Advice on how to mend the program. -/
def help : Problem → List String
  | undefinedName name =>
    ["Assign '" ++ name ++ "' before reading it, e.g. `" ++ name ++ " = 0;`"]
  | assignToInput _ => ["Inputs are read-only; assign to a new name instead"]
  | functionNotCalled name => ["Call it: `" ++ name ++ "(...)`"]
  | _ => []

end Problem

/-- A problem, with the line and the bytes of the token that shows it. -/
structure Diagnostic where
  problem : Problem
  line : Nat
  span : Span
deriving DecidableEq, Repr

namespace Diagnostic

/-- The problem in words. -/
def message (d : Diagnostic) : String :=
  d.problem.message

/-- The code of the problem. -/
def code (d : Diagnostic) : String :=
  d.problem.code

/-- Advice on the problem. -/
def help (d : Diagnostic) : List String :=
  d.problem.help

/-- One line for the problem, and one for each piece of advice. -/
def describe (d : Diagnostic) : String :=
  "[line " ++ toString d.line ++ "] error: " ++ d.message ++ " [" ++ d.code ++ "]" ++
    String.join (d.help.map ("\nhelp: " ++ ·))

end Diagnostic

end Pixelwise
