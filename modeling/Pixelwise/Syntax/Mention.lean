/-
Mentions — what a program does with names, in the order in which it is read.

An assignment mentions its name twice: where it begins, and where its value
ends, from where on the name is assigned.  A call mentions its callee where
the arguments begin and where they end.

`WellNamed` says that every mention is allowed.  `diagnose` lists what is
wrong with those that are not.
-/
import Pixelwise.Syntax.Tree
import Pixelwise.Builtin.Basic
import Pixelwise.Diagnostic

namespace Pixelwise.Syntax

/-- One use of a name. -/
inductive Mention where
  /-- An assignment to the name begins. -/
  | target (token : Token)
  /-- The value that is assigned to the name ends. -/
  | assigned (token : Token)
  /-- The name is read without being called. -/
  | read (token : Token)
  /-- A call of the name begins. -/
  | opened (token : Token)
  /-- A call of the name ends, after so many arguments. -/
  | closed (token : Token) (argc : Nat)

mutual

/-- The mentions of an expression. -/
def Expr.mentions : Expr → List Mention
  | .number _ => []
  | .name token => [.read token]
  | .group inner _ => inner.mentions
  | .call callee args _ => .opened callee :: mentionsAll args ++ [.closed callee args.length]
  | .unary _ operand => operand.mentions
  | .binary _ left right => left.mentions ++ right.mentions
  | .assign target value => .target target :: value.mentions ++ [.assigned target]

/-- The mentions of arguments, in order. -/
def mentionsAll : List Expr → List Mention
  | [] => []
  | e :: rest => e.mentions ++ mentionsAll rest

end

/-- The mentions of a program. -/
def mentions (program : List Statement) : List Mention :=
  program.flatMap (·.value.mentions)

/-! ## What is allowed -/

/-- Names that programs can neither assign nor read without a call: those of
the library. -/
def isLibrary (token : Token) : Prop :=
  (Builtin.ofName? token.lexeme).isSome

instance (token : Token) : Decidable (isLibrary token) :=
  inferInstanceAs (Decidable ((Builtin.ofName? token.lexeme).isSome = true))

theorem not_isLibrary_iff {t : Token} : ¬ isLibrary t ↔ Builtin.ofName? t.lexeme = none := by
  rw [isLibrary]
  simp

/-- `Allowed inputs before m`: the mention `m` is allowed after those of
`before`.

A target is neither of the library nor an input; a name that is read
without a call is none of the library, and is an input or was assigned
before; a callee is of the library and takes as many arguments as it is
given. -/
def Allowed (inputs : List String) (before : List Mention) : Mention → Prop
  | .target t => ¬ isLibrary t ∧ t.lexeme ∉ inputs
  | .assigned _ => True
  | .read t =>
    ¬ isLibrary t ∧ (t.lexeme ∈ inputs ∨ ∃ u, .assigned u ∈ before ∧ u.lexeme = t.lexeme)
  | .opened t => isLibrary t
  | .closed t argc => ∀ f, Builtin.ofName? t.lexeme = some f → argc = f.arity

/-- Every mention is allowed after those before it. -/
def WellNamed (inputs : List String) (ms : List Mention) : Prop :=
  ∀ before m after, ms = before ++ m :: after → Allowed inputs before m

/-! ## What is wrong -/

/-- The names assigned once a mention is read; those that programs cannot
assign never are. -/
def Mention.assign (inputs assigned : List String) : Mention → List String
  | .assigned t =>
    if isLibrary t ∨ t.lexeme ∈ inputs then assigned else t.lexeme :: assigned
  | _ => assigned

/-- A problem at a token. -/
def at' (problem : Problem) (token : Token) : Diagnostic :=
  ⟨problem, token.line, token.span⟩

/-- What is wrong with reading a name that is none of the library. -/
def undefined (inputs assigned : List String) (t : Token) : List Diagnostic :=
  if t.lexeme ∈ inputs ∨ t.lexeme ∈ assigned then [] else [at' (.undefinedName t.lexeme) t]

/-- What is wrong with a mention, given the names assigned before it. -/
def Mention.problems (inputs assigned : List String) : Mention → List Diagnostic
  | .target t =>
    if isLibrary t then [at' (.assignToFunction t.lexeme) t]
    else if t.lexeme ∈ inputs then [at' (.assignToInput t.lexeme) t]
    else []
  | .assigned _ => []
  | .read t =>
    if isLibrary t then [at' (.functionNotCalled t.lexeme) t] else undefined inputs assigned t
  | .opened t =>
    if isLibrary t then [] else undefined inputs assigned t ++ [at' .notCallable t]
  | .closed t argc =>
    match Builtin.ofName? t.lexeme with
    | some f => if argc = f.arity then [] else [at' (.arityMismatch t.lexeme f.arity argc) t]
    | none => []

/-- The names assigned once mentions are read. -/
def assignedAfter (inputs assigned : List String) (ms : List Mention) : List String :=
  ms.foldl (Mention.assign inputs) assigned

/-- All that is wrong with mentions, in order. -/
def diagnose (inputs assigned : List String) : List Mention → List Diagnostic
  | [] => []
  | m :: rest => m.problems inputs assigned ++ diagnose inputs (m.assign inputs assigned) rest

end Pixelwise.Syntax
