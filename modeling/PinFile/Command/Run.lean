import PinFile.Change
import PinFile.Command.Action
import PinFile.Datum.Report
import PinFile.Json.Writer
import PinFile.Manifest.Layout
import PinFile.Manifest.Listing

/-!
# Running commands

Each command is an action that says whether the files passed. Files are written last, after all
that can be refused has been.
-/

namespace PinFile.Command

open PinFile.Command.Action Log Text

def commandsPart : String := part "commands"

def configPart : String := part "config"

def storePart : String := part "store::bson_dir"

/-- Loads one file and leaves its trail. -/
def loadManifest (path : String) : Action Manifest := do
  let t ← files
  noteAll (fileTrail t path)
  ofExcept LoadError.messages (Manifest.load t path)

/-- Prints a datum as JSON, with an end of line. -/
def printJson (d : Datum) : Action Unit := print (Json.render d ++ "\n")

/-! ## Checking -/

def loadSettings (given : Option String) : Action Settings := do
  let t ← files
  let s ← ofExcept SettingsError.messages (Settings.load t given)
  match Settings.file? t given with
  | some path => note .info configPart ("Loaded lint config from " ++ path)
  | none =>
    note .debug configPart
      ("No " ++ Settings.standardFile ++ " found, using default lint config")
  return s

/-- The settings with what the request asks for. -/
def adjust (r : CheckRequest) (s : Settings) : Settings :=
  { s with
    allowUnpinned := s.allowUnpinned || r.allowUnpinned
    denyDuplicates := s.denyDuplicates || r.denyDuplicates
    failOn := r.failOn.getD s.failOn }

def severityWord : Severity → String
  | .info => "Info"
  | .warning => "Warning"
  | .error => "Error"

def describeSettings (s : Settings) : String :=
  "Lint config: LintConfig \x7b allow_unpinned: " ++ toString s.allowUnpinned
    ++ ", deny_duplicates: " ++ toString s.denyDuplicates
    ++ ", fail_on: " ++ severityWord s.failOn
    ++ ", ignore: [" ++ ", ".intercalate (s.ignore.map quote) ++ "] \x7d"

/-- What a check looks at: the file alone, or with all that it includes. -/
def loadSources (r : CheckRequest) : Action (List Source) := do
  if r.followIncludes then
    let t ← files
    let w := Load.walk t r.file
    noteAll (walkTrail t r.file w)
    let sources ← ofExcept LoadError.messages (Load.tree t r.file)
    note .info commandsPart
      ("Loaded " ++ toString sources.length ++ " file(s) from " ++ r.file)
    return sources
  else
    return [⟨none, .requirements, ← loadManifest r.file⟩]

def unspelledPath : Failure :=
  ["Failed to serialize to JSON", "path contains invalid UTF-8 characters"]

/-- Prints a report. JSON has no place for a path that is not spelled in UTF-8. -/
def printReport (report : Report) (raw : List String) : OutputFormat → Action Unit
  | .text => print report.render
  | .json =>
    if report.paths.all (Path.isSpelled raw) then printJson report.toDatum
    else throw unspelledPath

def runCheck (r : CheckRequest) : Action Bool := do
  let s := adjust r (← loadSettings r.config)
  note .debug commandsPart (describeSettings s)
  let sources ← loadSources r
  let report := Lint.check sources s
  noteAll (checkTrail sources s report)
  printReport report r.raw r.format
  return !report.exceeds s.failOn

/-! ## Formatting, listing and exporting -/

def runFormat (file : String) (layout : Layout) (use : FormatUse) : Action Bool := do
  let t ← files
  let text ← ofExcept (fun fault => ["Failed to read " ++ file, fault.message]) (t.readText file)
  noteAll (parseTrail text)
  let m ← ofExcept (fun e => ["Failed to parse " ++ file, e.message]) (Manifest.parse text)
  let rendered := m.render layout
  match use with
  | .print =>
    print rendered
    return true
  | .compare =>
    if rendered = text then return true
    note .warn commandsPart (file ++ " is not formatted")
    return false
  | .write =>
    if rendered = text then
      note .debug commandsPart (file ++ " already formatted")
      return true
    let t ← ofExcept (fun fault => ["Failed to write " ++ file, FileFault.message fault])
      (t.write file (utf8 rendered))
    setFiles t
    note .info commandsPart ("Rewrote " ++ file)
    return true

def runList (file : String) (format : OutputFormat) : Action Bool := do
  let m ← loadManifest file
  match format with
  | .text => print (m.summary.render ++ "\n" ++ m.renderEntries)
  | .json => printJson m.listingDatum
  return true

/-- The content of an exported file. -/
def exported? (m : Manifest) : ExportFormat → Option Bytes
  | .json => some (utf8 (Json.render m.toDatum))
  | .bson => m.toBson?

def runExport (file output : String) (format : ExportFormat) : Action Bool := do
  let m ← loadManifest file
  match exported? m format with
  | none => throw SnapshotError.numberTooLarge.messages
  | some bytes =>
    let t ← ofExcept (fun fault => ["Failed to create " ++ output, FileFault.message fault])
      ((← files).write output bytes)
    setFiles t
    note .info commandsPart
      ("Exported " ++ toString m.lines.length ++ " line(s) to " ++ output ++ " ("
        ++ toString bytes.length ++ " bytes)")
    return true

/-! ## Comparing -/

def printChange (c : Change) : OutputFormat → Action Unit
  | .text => print c.render
  | .json => printJson c.toDatum

def runDiff (old new : String) (format : OutputFormat) : Action Bool := do
  let old ← loadManifest old
  let new ← loadManifest new
  printChange (Change.between old new) format
  return true

/-! ## Snapshots -/

/-- Makes the directory of a store and checks that it is there. -/
def openStore (root : String) : Action SnapshotStore := do
  let (t, opened) := SnapshotStore.create (← files) root
  setFiles t
  let s ← ofExcept SnapshotError.messages opened
  ofExcept SnapshotError.messages (s.check t)
  note .debug commandsPart ("Using " ++ SnapshotStore.title ++ " store at " ++ root)
  return s

def saveSnapshot (s : SnapshotStore) (name file : String) : Action Unit := do
  let m ← loadManifest file
  let (t, size) ← ofExcept SnapshotError.messages (s.insert (← files) name m)
  setFiles t
  note .debug storePart ("Saved snapshot " ++ name ++ " (" ++ toString size ++ " bytes)")
  note .info commandsPart ("Saved " ++ file ++ " as snapshot " ++ name)

def getSnapshot (s : SnapshotStore) (name : String) : Action Manifest := do
  ofExcept SnapshotError.messages (s.get (← files) name)

def runSnapshot (root : String) (request : SnapshotRequest) : Action Bool := do
  let s ← openStore root
  match request with
  | .save name file => saveSnapshot s name file
  | .show name => print ((← getSnapshot s name).render .preserve)
  | .diff name file shown =>
    let old ← getSnapshot s name
    let new ← loadManifest file
    printChange (Change.between old new) shown
  | .list =>
    let names ← ofExcept SnapshotError.messages (s.list (← files))
    print (String.join (names.map (· ++ "\n")))
  return true

/-- Runs a command; the answer says whether the files passed. -/
def run : Command → Action Bool
  | .check request => runCheck request
  | .format file layout use => runFormat file layout use
  | .list file outputFormat => runList file outputFormat
  | .write file output exportFormat => runExport file output exportFormat
  | .diff old new outputFormat => runDiff old new outputFormat
  | .snapshot store request => runSnapshot store request

end PinFile.Command
