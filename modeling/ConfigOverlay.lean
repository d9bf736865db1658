import ConfigOverlay.Action
import ConfigOverlay.Argument.Basic
import ConfigOverlay.Argument.Render
import ConfigOverlay.CommandLine
import ConfigOverlay.Compile.Basic
import ConfigOverlay.Compile.Trace
import ConfigOverlay.Demo.Config
import ConfigOverlay.Demo.Run
import ConfigOverlay.Diff
import ConfigOverlay.Document.Format
import ConfigOverlay.Document.Toml.Document
import ConfigOverlay.Document.Toml.Lexeme
import ConfigOverlay.Document.Toml.Scalar
import ConfigOverlay.Document.Toml.Table
import ConfigOverlay.Document.Toml.Value
import ConfigOverlay.Document.Yaml.Document
import ConfigOverlay.Document.Yaml.Lexeme
import ConfigOverlay.Document.Yaml.Scalar
import ConfigOverlay.Document.Yaml.Token
import ConfigOverlay.Error
import ConfigOverlay.FileSystem
import ConfigOverlay.Json.Fault
import ConfigOverlay.Json.Reader
import ConfigOverlay.Json.Value
import ConfigOverlay.Json.Writer
import ConfigOverlay.KeyPath.Assign
import ConfigOverlay.KeyPath.Basic
import ConfigOverlay.Literal
import ConfigOverlay.Main
import ConfigOverlay.Merge
import ConfigOverlay.Number.Basic
import ConfigOverlay.Number.Binary64
import ConfigOverlay.Number.Decimal
import ConfigOverlay.Number.Digits
import ConfigOverlay.Number.Shortest
import ConfigOverlay.Policy
import ConfigOverlay.Proofs.Fields
import ConfigOverlay.Registry
import ConfigOverlay.Replay
import ConfigOverlay.Samples
import ConfigOverlay.Schema.Fault
import ConfigOverlay.Schema.Section
import ConfigOverlay.Schema.Shape
import ConfigOverlay.Target
import ConfigOverlay.Text.Visible
import ConfigOverlay.Tree.Basic
import ConfigOverlay.Tree.Edit
import ConfigOverlay.Tree.Fields
import ConfigOverlay.Tree.Same
import ConfigOverlay.World
import ConfigOverlay.Proofs.Tree
import ConfigOverlay.Proofs.Merge
import ConfigOverlay.Proofs.Diff
import ConfigOverlay.Proofs.RoundTrip
import ConfigOverlay.Proofs.Assign
import ConfigOverlay.Proofs.Json.Plain
import ConfigOverlay.Proofs.Compilation
import ConfigOverlay.Proofs.Overwrite
import ConfigOverlay.Proofs.Document
import ConfigOverlay.Proofs.World
import ConfigOverlay.Proofs.Json.RoundTrip
import ConfigOverlay.Proofs.Argument
import ConfigOverlay.Proofs.Decode
import ConfigOverlay.Proofs.Patch
import ConfigOverlay.Proofs.Render
import ConfigOverlay.Proofs.Replay
import ConfigOverlay.Proofs.Commute
import ConfigOverlay.Proofs.FirstFailure
import ConfigOverlay.Proofs.Depth
import ConfigOverlay.Proofs.Accumulator
import ConfigOverlay.Proofs.Modes
import ConfigOverlay.Proofs.Irredundant
import ConfigOverlay.Proofs.Unavoidable
import ConfigOverlay.Proofs.Checked
import ConfigOverlay.Proofs.Section
import ConfigOverlay.Proofs.Defaulted
import ConfigOverlay.Proofs.Minimal
import ConfigOverlay.Proofs.Explain
import ConfigOverlay.Proofs.Position
import ConfigOverlay.Proofs.Justified
import ConfigOverlay.Proofs.Partition
import ConfigOverlay.Proofs.Branch
import ConfigOverlay.Proofs.Navigation
import ConfigOverlay.Proofs.Layers
import ConfigOverlay.Proofs.KeyOrder
import ConfigOverlay.Proofs.Place
import ConfigOverlay.Proofs.Canonical
import ConfigOverlay.Proofs.Rebuild
import ConfigOverlay.Proofs.Unreplayable
import ConfigOverlay.Proofs.Consumption
import ConfigOverlay.Proofs.Json.Value
import ConfigOverlay.Proofs.Json.Characters
import ConfigOverlay.Proofs.Literal
import ConfigOverlay.Proofs.Removal
import ConfigOverlay.Proofs.Strict
import ConfigOverlay.Proofs.Segments
import ConfigOverlay.Proofs.Registration
