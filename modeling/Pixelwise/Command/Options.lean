/-
The arguments of the command line.

Arguments are read from left to right.  An option may be given once; its
value is the rest of its own argument or the argument after it, which then
must not look like an option itself.  All that follows a double dash is
taken as it is.  The first thing that cannot be understood ends the
reading.
-/
import Pixelwise.Decimal.Literal

namespace Pixelwise.Command

/-- What the command is asked to do. -/
structure Options where
  /-- The program itself. -/
  program : Option String
  /-- The file that holds the program. -/
  file : Option String
  width : Nat
  height : Nat
  frames : Nat
  /-- The seconds between two frames. -/
  dt : Float
  seed : Option UInt64
  failOnDivideByZero : Bool
  disassemble : Bool

/-- Why the reading of the arguments ended early. -/
inductive Stop where
  | refused
  | helpWanted
deriving DecidableEq, Repr

/-- The options that can be given. -/
inductive Key where
  | file
  | width
  | height
  | frames
  | dt
  | seed
  | failOnDivideByZero
  | disassemble
  | help
deriving DecidableEq, Repr

namespace Key

/-- The option of a long name. -/
def ofLong? : String → Option Key
  | "file" => some file
  | "width" => some width
  | "height" => some height
  | "frames" => some frames
  | "dt" => some dt
  | "seed" => some seed
  | "fail-on-divide-by-zero" => some failOnDivideByZero
  | "disassemble" => some disassemble
  | "help" => some help
  | _ => none

/-- The option of a short name. -/
def ofShort? : Char → Option Key
  | 'f' => some file
  | 'h' => some help
  | _ => none

/-- Options that stand alone. -/
def isFlag : Key → Bool
  | failOnDivideByZero | disassemble | help => true
  | _ => false

end Key

/-! ## Values -/

/-- A whole number of 64 bits in decimal, perhaps after a plus sign. -/
def readNat? (text : String) : Option Nat :=
  let digits := match text.toList with
    | '+' :: cs => cs
    | cs => cs
  if digits ≠ [] ∧ digits.all Char.isDigit ∧ Decimal.digitsValue digits < UInt64.size then
    some (Decimal.digitsValue digits)
  else none

/-- What has been given so far. -/
structure Given where
  program : Option String
  file : Option String
  width : Option Nat
  height : Option Nat
  frames : Option Nat
  dt : Option Float
  seed : Option Nat
  failOnDivideByZero : Bool
  disassemble : Bool

namespace Given

/-- What has been given before the first argument. -/
def nothing : Given := ⟨none, none, none, none, none, none, none, false, false⟩

/-- A value for something that was not given before. -/
def once {α : Type} (before new : Option α) : Except Stop (Option α) :=
  match before, new with
  | none, some value => .ok (some value)
  | _, _ => .error .refused

/-- A flag that was not raised before. -/
def raise (before : Bool) : Except Stop Bool :=
  if before then .error .refused else .ok true

/-- Give an option its value, or no value if it is a flag. -/
def set (g : Given) (key : Key) (value : String) : Except Stop Given :=
  match key with
  | .file => return { g with file := ← once g.file (if value = "" then none else some value) }
  | .width => return { g with width := ← once g.width (readNat? value) }
  | .height => return { g with height := ← once g.height (readNat? value) }
  | .frames => return { g with frames := ← once g.frames (readNat? value) }
  | .dt => return { g with dt := ← once g.dt (Decimal.read? value) }
  | .seed => return { g with seed := ← once g.seed (readNat? value) }
  | .failOnDivideByZero => return { g with failOnDivideByZero := ← raise g.failOnDivideByZero }
  | .disassemble => return { g with disassemble := ← raise g.disassemble }
  | .help => .error .helpWanted

/-- Give the program. -/
def setProgram (g : Given) (text : String) : Except Stop Given :=
  return { g with program := ← once g.program (some text) }

/-- Give the program by the arguments after a double dash. -/
def setPrograms (g : Given) (texts : List String) : Except Stop Given :=
  texts.foldlM setProgram g

/-- The options, with what was not given at its default. -/
def options (g : Given) : Options where
  program := g.program
  file := g.file
  width := g.width.getD 4
  height := g.height.getD 4
  frames := g.frames.getD 1
  dt := g.dt.getD (1 / 30)
  seed := g.seed.map UInt64.ofNat
  failOnDivideByZero := g.failOnDivideByZero
  disassemble := g.disassemble

end Given

/-! ## Arguments -/

/-- What one argument is. -/
inductive Argument where
  | program (text : String)
  /-- An option, with the value that stands in the same argument. -/
  | option (key : Key) (value : Option String)
  | doubleDash
  | unknown

/-- An option by its long name, and the value after an equals sign. -/
def longArgument (text : List Char) : Argument :=
  let name := text.takeWhile (· ≠ '=')
  match Key.ofLong? (String.ofList name), text.drop name.length with
  | some key, [] => .option key none
  | some key, _ :: value => .option key (some (String.ofList value))
  | none, _ => .unknown

/-- An option by its short name, and the value that follows at once or
after an equals sign. -/
def shortArgument (c : Char) (rest : List Char) : Argument :=
  match Key.ofShort? c, rest with
  | some key, [] => .option key none
  | some .help, _ => .option .help none
  | some key, '=' :: value => .option key (some (String.ofList value))
  | some key, value => .option key (some (String.ofList value))
  | none, _ => .unknown

/-- What an argument is by its dashes; a single dash is a text. -/
def Argument.ofString (text : String) : Argument :=
  match text.toList with
  | ['-', '-'] => .doubleDash
  | '-' :: '-' :: cs => longArgument cs
  | '-' :: c :: cs => shortArgument c cs
  | _ => .program text

/-- Arguments that cannot be the value of the option before them. -/
def looksLikeOption (text : String) : Bool :=
  match text.toList with
  | '-' :: _ :: _ => true
  | _ => false

/-- Read arguments after others have been read. -/
def readFrom (g : Given) (args : List String) : Except Stop Given :=
  match args with
  | [] => .ok g
  | arg :: rest =>
    match Argument.ofString arg with
    | .program text => do readFrom (← g.setProgram text) rest
    | .doubleDash => g.setPrograms rest
    | .unknown => .error .refused
    | .option key none =>
      if key.isFlag then do readFrom (← g.set key "") rest
      else
        match rest with
        | value :: rest =>
          if looksLikeOption value then .error .refused
          else do readFrom (← g.set key value) rest
        | [] => .error .refused
    | .option key (some value) =>
      if key.isFlag then .error .refused else do readFrom (← g.set key value) rest

/-- The options that arguments ask for. -/
def Options.ofArguments (args : List String) : Except Stop Options :=
  (readFrom .nothing args).map Given.options

end Pixelwise.Command
