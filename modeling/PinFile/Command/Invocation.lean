import PinFile.Lint.Finding
import PinFile.Manifest.Layout

/-!
# Invocations

What the program can be asked to do.
-/

namespace PinFile

/-- How a result is shown. -/
inductive OutputFormat where
  | text
  | json
  deriving DecidableEq, Repr, Inhabited

inductive ExportFormat where
  | json
  | bson
  deriving DecidableEq, Repr, Inhabited

structure CheckRequest where
  file : String
  /-- The names that are not spelled in UTF-8. -/
  raw : List String
  config : Option String
  followIncludes : Bool
  allowUnpinned : Bool
  denyDuplicates : Bool
  failOn : Option Severity
  format : OutputFormat
  deriving DecidableEq, Repr

/-- What becomes of a formatted text. -/
inductive FormatUse where
  | print
  | write
  | compare
  deriving DecidableEq, Repr, Inhabited

inductive SnapshotRequest where
  | save (name file : String)
  | show (name : String)
  | diff (name file : String) (format : OutputFormat)
  | list
  deriving DecidableEq, Repr

inductive Command where
  | check (request : CheckRequest)
  | format (file : String) (layout : Layout) (use : FormatUse)
  | list (file : String) (format : OutputFormat)
  | write (file output : String) (format : ExportFormat)
  | diff (old new : String) (format : OutputFormat)
  | snapshot (store : String) (request : SnapshotRequest)
  deriving DecidableEq, Repr

structure Invocation where
  verbosity : Nat
  logFile : Option String
  command : Command
  deriving DecidableEq, Repr

end PinFile
