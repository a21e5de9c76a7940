/-
Outputs — the names that a host expects a program to assign, and what it
finds there.

A channel brings what was assigned into its range; its default is used as
it is.
-/
import Pixelwise.Machine.State

namespace Pixelwise

/-- The range of a channel. -/
inductive ChannelKind where
  /-- Degrees, wrapped at a full turn. -/
  | angular
  /-- From zero to one. -/
  | unit
  /-- Any number. -/
  | raw
deriving DecidableEq, Repr

/-- Bring a number into the range of a channel. -/
def ChannelKind.apply : ChannelKind → Float → Float
  | angular, x => Arithmetic.wrap x 360
  | unit, x => Arithmetic.clamp x 0 1
  | raw, x => x

/-- A name that a host expects to be assigned. -/
structure Channel where
  name : String
  kind : ChannelKind
  default : Float
deriving DecidableEq, Repr

/-- The channel's value after an evaluation. -/
def Channel.read (channel : Channel) (bindings : Bindings) : Float :=
  ((bindings.get? channel.name).map channel.kind.apply).getD channel.default

/-- The values of channels, in the order of the layout. -/
structure Outputs where
  values : List (String × Float)
deriving DecidableEq, Repr

namespace Outputs

/-- The value of the first channel of a name. -/
def get? (outputs : Outputs) (name : String) : Option Float :=
  NameTable.findEntry name outputs.values

/-- The values with their names, on one line. -/
def describe (outputs : Outputs) : String :=
  " ".intercalate (outputs.values.map fun p => p.1 ++ "=" ++ Decimal.write p.2)

end Outputs

/-- The channels that a host expects, in order. -/
structure Layout where
  channels : List Channel
deriving DecidableEq, Repr

namespace Layout

/-- A position and a colour by hue, saturation, lightness and opacity. -/
def pixel : Layout where
  channels := [
    ⟨"x'", .raw, 0⟩,
    ⟨"y'", .raw, 0⟩,
    ⟨"h", .angular, 0⟩,
    ⟨"s", .unit, 1⟩,
    ⟨"l", .unit, 0.5⟩,
    ⟨"a", .unit, 1⟩]

/-- Read all channels. -/
def extract (layout : Layout) (bindings : Bindings) : Outputs :=
  ⟨layout.channels.map fun channel => (channel.name, channel.read bindings)⟩

end Layout

end Pixelwise
