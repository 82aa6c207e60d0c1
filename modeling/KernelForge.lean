import KernelForge.Binary.Basic
import KernelForge.Binary.Power
import KernelForge.Builtin
import KernelForge.Bytes
import KernelForge.Code.Basic
import KernelForge.Code.Outline
import KernelForge.Code.Parse
import KernelForge.Collection.Maps
import KernelForge.CommandLine.Flag
import KernelForge.CommandLine.Request
import KernelForge.CommandLine.Settings
import KernelForge.CommandLine.Task
import KernelForge.CommandLine.Verb
import KernelForge.Decimal.Shortest
import KernelForge.Device.Compile
import KernelForge.Device.Machine
import KernelForge.Device.Options
import KernelForge.Device.ProgramCache
import KernelForge.Device.Queue
import KernelForge.Device.Transfer
import KernelForge.Digest.Blake2b
import KernelForge.Draft.Basic
import KernelForge.Draft.Bundle
import KernelForge.Fault
import KernelForge.Formula.Basic
import KernelForge.Formula.Infer
import KernelForge.Formula.Lower
import KernelForge.Formula.Parse
import KernelForge.Formula.Word
import KernelForge.Host.Basic
import KernelForge.Host.Literal
import KernelForge.Host.Memory
import KernelForge.Host.Outline
import KernelForge.Host.Printed
import KernelForge.Lanes.Arithmetic
import KernelForge.Lanes.Basic
import KernelForge.Lanes.Cell
import KernelForge.Lanes.Word
import KernelForge.Main
import KernelForge.Names
import KernelForge.Numeral.Basic
import KernelForge.Numeral.Real
import KernelForge.Operator
import KernelForge.Outline
import KernelForge.Program.Build
import KernelForge.Program.Call
import KernelForge.Program.CheckError
import KernelForge.Program.Constant
import KernelForge.Program.Crew
import KernelForge.Program.Env
import KernelForge.Program.Eval
import KernelForge.Program.Exec
import KernelForge.Program.Expr
import KernelForge.Program.Memory
import KernelForge.Program.NamedTy
import KernelForge.Program.Run
import KernelForge.Program.Stmt
import KernelForge.Program.Term
import KernelForge.Program.Value
import KernelForge.Proofs.Basic
import KernelForge.Proofs.Binary.Exact
import KernelForge.Proofs.Code.Climbing
import KernelForge.Proofs.Code.Comments
import KernelForge.Proofs.Code.Grammar
import KernelForge.Proofs.Code.Headers
import KernelForge.Proofs.Code.Listings
import KernelForge.Proofs.Code.Phrases
import KernelForge.Proofs.Code.Precedence
import KernelForge.Proofs.Code.Reading
import KernelForge.Proofs.Code.Snippets
import KernelForge.Proofs.Code.TypePhrases
import KernelForge.Proofs.Code.TypeUses
import KernelForge.Proofs.CommandLine.Numbers
import KernelForge.Proofs.Decimal.General
import KernelForge.Proofs.Decimal.Single
import KernelForge.Proofs.Device.Acts
import KernelForge.Proofs.Device.Caching
import KernelForge.Proofs.Device.Compiling
import KernelForge.Proofs.Device.Making
import KernelForge.Proofs.Device.Protocol
import KernelForge.Proofs.Device.Racing
import KernelForge.Proofs.Device.Recency
import KernelForge.Proofs.Device.Registering
import KernelForge.Proofs.Device.Running
import KernelForge.Proofs.Device.Sharing
import KernelForge.Proofs.Device.Stores
import KernelForge.Proofs.Device.Transfers
import KernelForge.Proofs.Device.Values
import KernelForge.Proofs.Draft.Closed
import KernelForge.Proofs.Draft.Kernels
import KernelForge.Proofs.Draft.Registry
import KernelForge.Proofs.Draft.Structures
import KernelForge.Proofs.Draft.Typedefs
import KernelForge.Proofs.Faults
import KernelForge.Proofs.Formula.Accepting
import KernelForge.Proofs.Formula.Checking
import KernelForge.Proofs.Formula.Computing
import KernelForge.Proofs.Formula.Emitting
import KernelForge.Proofs.Formula.Inference
import KernelForge.Proofs.Formula.Legible
import KernelForge.Proofs.Formula.Lowering
import KernelForge.Proofs.Formula.Meaning
import KernelForge.Proofs.Formula.Numerals
import KernelForge.Proofs.Formula.Performing
import KernelForge.Proofs.Formula.Taming
import KernelForge.Proofs.Formula.Trees
import KernelForge.Proofs.Formula.Writing
import KernelForge.Proofs.Host.Codec
import KernelForge.Proofs.Host.Reals
import KernelForge.Proofs.Host.Residues
import KernelForge.Proofs.Lanes.Exact
import KernelForge.Proofs.Lanes.Rows
import KernelForge.Proofs.Names.Supply
import KernelForge.Proofs.Program.Actions
import KernelForge.Proofs.Program.Bounds
import KernelForge.Proofs.Program.Built
import KernelForge.Proofs.Program.BuiltRanges
import KernelForge.Proofs.Program.CheckedRanges
import KernelForge.Proofs.Program.Closures
import KernelForge.Proofs.Program.Codec
import KernelForge.Proofs.Program.Crews
import KernelForge.Proofs.Program.Fits
import KernelForge.Proofs.Program.Independence
import KernelForge.Proofs.Program.Integers
import KernelForge.Proofs.Program.Lenses
import KernelForge.Proofs.Program.Listings
import KernelForge.Proofs.Program.Locations
import KernelForge.Proofs.Program.Moments
import KernelForge.Proofs.Program.NarrowIntegers
import KernelForge.Proofs.Program.Quiet
import KernelForge.Proofs.Program.Ranged
import KernelForge.Proofs.Program.Ranges
import KernelForge.Proofs.Program.ReadOnly
import KernelForge.Proofs.Program.Renamed
import KernelForge.Proofs.Program.Sealed
import KernelForge.Proofs.Program.Spares
import KernelForge.Proofs.Program.Termination
import KernelForge.Proofs.Program.Totality
import KernelForge.Proofs.Program.Updates
import KernelForge.Proofs.Sequence.Assigning
import KernelForge.Proofs.Sequence.Binding
import KernelForge.Proofs.Sequence.Extremum
import KernelForge.Proofs.Sequence.Ranges
import KernelForge.Proofs.Sequence.Searching
import KernelForge.Proofs.Sequence.Sparing
import KernelForge.Proofs.Sequence.Views
import KernelForge.Proofs.Source.Encoding
import KernelForge.Proofs.Token.Comments
import KernelForge.Proofs.Token.Neighbours
import KernelForge.Proofs.Token.Tiles
import KernelForge.Proofs.Ty.Layout
import KernelForge.Scalar
import KernelForge.Sequence.Algorithm
import KernelForge.Sequence.Cursor
import KernelForge.Sequence.Kernel
import KernelForge.Source.Glyph
import KernelForge.Source.Place
import KernelForge.Text.Classes
import KernelForge.Text.Encoded
import KernelForge.Text.Quoted
import KernelForge.Text.Record
import KernelForge.Token.Basic
import KernelForge.Token.Enclosed
import KernelForge.Token.Number
import KernelForge.Token.Scan
import KernelForge.Ty.Basic
import KernelForge.Ty.Layout
import KernelForge.Yaml.Node
import KernelForge.Yaml.Reader
import KernelForge.Yaml.Resolve
import KernelForge.Yaml.Scalar
import KernelForge.Yaml.Scan
import KernelForge.Yaml.Step
