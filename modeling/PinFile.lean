import PinFile.Bson.Document
import PinFile.Bson.Manifest
import PinFile.Change
import PinFile.Command.Action
import PinFile.Command.Invocation
import PinFile.Command.Options
import PinFile.Command.Reader
import PinFile.Command.Run
import PinFile.Constraint
import PinFile.Datum
import PinFile.Datum.Manifest
import PinFile.Datum.Report
import PinFile.Files.Tree
import PinFile.Json.Numbers
import PinFile.Json.Reader
import PinFile.Json.Strings
import PinFile.Json.Writer
import PinFile.Line
import PinFile.Line.Reader
import PinFile.Lint.Check
import PinFile.Lint.Finding
import PinFile.Lint.Settings.File
import PinFile.Load
import PinFile.Log
import PinFile.Main
import PinFile.Manifest
import PinFile.Manifest.Layout
import PinFile.Manifest.Listing
import PinFile.Manifest.Reader
import PinFile.Program
import PinFile.Proofs.Bson.Bytes
import PinFile.Proofs.Bson.Manifest
import PinFile.Proofs.Bson.Merged
import PinFile.Proofs.Bson.RoundTrip
import PinFile.Proofs.Change
import PinFile.Proofs.Change.Edits
import PinFile.Proofs.Change.Patch
import PinFile.Proofs.Command.Action
import PinFile.Proofs.Command.Check
import PinFile.Proofs.Command.Files
import PinFile.Proofs.Command.Format
import PinFile.Proofs.Command.Reader
import PinFile.Proofs.Datum
import PinFile.Proofs.Distinct
import PinFile.Proofs.Files.Child
import PinFile.Proofs.Files.Directories
import PinFile.Proofs.Files.Linkless
import PinFile.Proofs.Files.Path
import PinFile.Proofs.Files.Rooted
import PinFile.Proofs.Files.Written
import PinFile.Proofs.Firsts
import PinFile.Proofs.Json.Exported
import PinFile.Proofs.Json.Numbers
import PinFile.Proofs.Json.RoundTrip
import PinFile.Proofs.Json.Strings
import PinFile.Proofs.Line.Accepted
import PinFile.Proofs.Line.Comment
import PinFile.Proofs.Line.Options
import PinFile.Proofs.Line.Sound
import PinFile.Proofs.Line.Spellings
import PinFile.Proofs.Line.Written
import PinFile.Proofs.Lint.Conflicts
import PinFile.Proofs.Lint.Duplicates
import PinFile.Proofs.Lint.Exact
import PinFile.Proofs.Lint.Findings
import PinFile.Proofs.Lint.Ignored
import PinFile.Proofs.Lint.Order
import PinFile.Proofs.Lint.Pins
import PinFile.Proofs.Lint.Placed
import PinFile.Proofs.Lint.Settings
import PinFile.Proofs.Load.Bounds
import PinFile.Proofs.Load.Chain
import PinFile.Proofs.Load.Cycle
import PinFile.Proofs.Load.Reach
import PinFile.Proofs.Load.Tree
import PinFile.Proofs.Load.Visit
import PinFile.Proofs.Load.Way
import PinFile.Proofs.Manifest.Hashes
import PinFile.Proofs.Manifest.Idempotence
import PinFile.Proofs.Manifest.Interleaved
import PinFile.Proofs.Manifest.Invariant
import PinFile.Proofs.Manifest.Kept
import PinFile.Proofs.Manifest.Normal
import PinFile.Proofs.Manifest.NormalForm
import PinFile.Proofs.Manifest.Parts
import PinFile.Proofs.Manifest.Rendered
import PinFile.Proofs.Manifest.RoundTrip
import PinFile.Proofs.Manifest.Shape
import PinFile.Proofs.Manifest.Summary
import PinFile.Proofs.Name
import PinFile.Proofs.Name.Canonical
import PinFile.Proofs.Program
import PinFile.Proofs.Requirement.Accepted
import PinFile.Proofs.Requirement.Constraints
import PinFile.Proofs.Requirement.HashTail
import PinFile.Proofs.Requirement.Hashes
import PinFile.Proofs.Requirement.Head
import PinFile.Proofs.Requirement.Layout
import PinFile.Proofs.Requirement.LayoutRead
import PinFile.Proofs.Requirement.LayoutTail
import PinFile.Proofs.Requirement.OptionStart
import PinFile.Proofs.Requirement.OptionTail
import PinFile.Proofs.Requirement.Sound
import PinFile.Proofs.Requirement.SpecKey
import PinFile.Proofs.Requirement.Stable
import PinFile.Proofs.Requirement.Target
import PinFile.Proofs.Requirement.Written
import PinFile.Proofs.Results
import PinFile.Proofs.Snapshot
import PinFile.Proofs.Snapshot.Files
import PinFile.Proofs.Snapshot.Map
import PinFile.Proofs.Text.Ascending
import PinFile.Proofs.Text.Lines
import PinFile.Proofs.Text.Pieces
import PinFile.Proofs.Text.Trim
import PinFile.Proofs.Text.Value
import PinFile.Requirement
import PinFile.Requirement.Reader
import PinFile.Snapshot
import PinFile.Text
import PinFile.Text.Quoted
import PinFile.Toml.Strings
import PinFile.Toml.Table
