import PinFile.Command.Invocation
import PinFile.Lint.Settings.File
import PinFile.Load
import PinFile.Log
import PinFile.Snapshot

/-!
# Actions

An action works on a file tree, writes output, and leaves log events behind. It may fail; what it
did before stays.
-/

namespace PinFile.Command

open Log Text

/-- What an action works on. -/
structure World where
  files : FileTree
  output : String
  events : List Event
  deriving DecidableEq, Repr

/-- The texts of a fault and of what it comes from, outermost first. -/
abbrev Failure := List String

abbrev Action := ExceptT Failure (StateM World)

namespace Action

def print (text : String) : Action Unit := modify fun w => { w with output := w.output ++ text }

def noteAll (events : List Event) : Action Unit :=
  modify fun w => { w with events := w.events ++ events }

/-- Leaves an event behind. -/
def note (level : Level) (target message : String) : Action Unit :=
  noteAll [⟨level, target, message, []⟩]

def files : Action FileTree := do return (← get).files

def setFiles (t : FileTree) : Action Unit := modify fun w => { w with files := t }

/-- Takes a result, and fails with its fault. -/
def ofExcept {ε α : Type} (messages : ε → Failure) (r : Except ε α) : Action α :=
  match r with
  | .ok a => pure a
  | .error e => throw (messages e)

end Action

/-!
## Trails

The log events that reading, loading and checking leave behind.
-/

def parserPart : String := part "parser"

def loaderPart : String := part "loader"

def lintPart : String := part "lint"

def lineEvent (number : Nat) (body : List Char) : Event :=
  ⟨.trace, parserPart, "parsing line",
    [("line", toString number), ("body", quote (String.ofList body))]⟩

/-- The event of a line; comments and blank lines have none. -/
def lineEvents (line : Numbered) : List Event :=
  let cs := trim line.text
  if cs.isEmpty || cs.head? == some '#' then []
  else [lineEvent line.number (Line.splitComment cs).1]

/-- The events of the lines up to the first one that is refused, and the number of those read
when none is. -/
def linesTrail (read : Nat) : List Numbered → List Event
  | [] => [⟨.debug, parserPart, "Parsed " ++ toString read ++ " manifest lines", []⟩]
  | line :: rest =>
    lineEvents line ++
      match Line.readChars line.text line.number with
      | .ok _ => linesTrail (read + 1) rest
      | .error _ => []

def parseTrail (text : String) : List Event := linesTrail 0 (logicalLines text.toList)

/-- The events of reading a file, when it can be read. -/
def fileTrail (t : FileTree) (path : String) : List Event :=
  match t.readText path with
  | .ok text => parseTrail text
  | .error _ => []

def stepEvents (t : FileTree) (s : Load.Step) : List Event :=
  let note (message : String) : List Event := [⟨.debug, loaderPart, s.path ++ message, []⟩]
  match s.deed with
  | .read => fileTrail t s.path
  | .upgrade => note " reached through -r, upgrading from constraints"
  | .skip => note " already loaded, skipping"
  | .follow includes => note (" includes " ++ toString includes ++ " file(s)")

def walkTrail (t : FileTree) (root : String) (w : Load.Walk) : List Event :=
  w.steps.flatMap (stepEvents t)
    ++ (if w.failure.isSome then []
        else [⟨.info, loaderPart,
          "Loaded " ++ toString w.loaded.length ++ " manifest file(s) from " ++ root, []⟩])

/-- The event of a requirement that the settings leave out. -/
def ignoredEvent? (s : Settings) (o : Lint.Occurrence) : Option Event :=
  if s.isIgnored o.package then
    some ⟨.debug, lintPart, "ignored by configuration", [("package", o.package)]⟩
  else none

def checkTrail (sources : List Source) (s : Settings) (r : Report) : List Event :=
  (Lint.allOccurrences sources).filterMap (ignoredEvent? s)
    ++ [⟨.debug, lintPart, "Lint produced " ++ toString r.findings.length ++ " findings", []⟩]

end PinFile.Command
