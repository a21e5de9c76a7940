import Pixelwise.Main
import Pixelwise.Environment.Builder
import Pixelwise.Capacity
import Pixelwise.Highlight
import Pixelwise.Proofs.Diagnosis
import Pixelwise.Proofs.Meaning
import Pixelwise.Proofs.Safety
import Pixelwise.Proofs.Rooming
import Pixelwise.Proofs.Reviewing
import Pixelwise.Chunk.Depth
import Pixelwise.Proofs.Executing
import Pixelwise.Proofs.Stacking
import Pixelwise.Engine.Drive
import Pixelwise.Proofs.Driving
import Pixelwise.Proofs.Cascading
import Pixelwise.Engine.Conversation
import Pixelwise.Machine.Supply
import Pixelwise.Proofs.Conversing
import Pixelwise.Proofs.Halting
import Pixelwise.Engine.Company
import Pixelwise.Proofs.Independence
import Pixelwise.Proofs.Joining
import Pixelwise.Proofs.Assigning
import Pixelwise.Proofs.Relocating
import Pixelwise.Proofs.Concatenation
import Pixelwise.Proofs.Spacing
import Pixelwise.Proofs.Covering
import Pixelwise.Proofs.Layout
import Pixelwise.Proofs.Targeting
import Pixelwise.Proofs.Waiting
import Pixelwise.Proofs.Overlooking
import Pixelwise.Proofs.Blaming
import Pixelwise.Proofs.Standing
import Pixelwise.Proofs.Pointing
import Pixelwise.Command.Sweep
import Pixelwise.Proofs.Dividing
import Pixelwise.Proofs.Gridding
import Pixelwise.Proofs.Sweeping
import Pixelwise.Token.Lexicon
import Pixelwise.Token.Scanner
import Pixelwise.Proofs.Munching
import Pixelwise.Proofs.Lexing
import Pixelwise.Proofs.Tiling
import Pixelwise.Proofs.Ordering
import Pixelwise.Proofs.Attribution
import Pixelwise.Command.Dialogue
import Pixelwise.Proofs.Agreeing
import Pixelwise.Proofs.Registering
import Pixelwise.Compiler.Journal
import Pixelwise.Compiler.Logged
import Pixelwise.Proofs.Logging
import Pixelwise.Proofs.Pacing
import Pixelwise.Proofs.Filling
import Pixelwise.Proofs.Effects
import Pixelwise.Proofs.Painting
import Pixelwise.Proofs.Invoking
import Pixelwise.Command.Cells
import Pixelwise.Proofs.Paving
import Pixelwise.Binary64.Value
import Pixelwise.Proofs.Packing
import Pixelwise.Proofs.Comparing
import Pixelwise.Proofs.Rounding
import Pixelwise.Proofs.Wrapping
import Pixelwise.Decimal.Grammar
import Pixelwise.Compiler.Literals
import Pixelwise.Proofs.Valuing
import Pixelwise.Decimal.Value
import Pixelwise.Proofs.Writing
import Pixelwise.Proofs.Scaling
import Pixelwise.Proofs.Carrying
import Pixelwise.Proofs.Listing
