import PinFile.Files.Tree
import PinFile.Lint.Finding
import PinFile.Toml.Table

/-!
# Settings files

Settings come from a file that is asked for by name, else from the standard file where there is
one, else they are the standard settings.
-/

namespace PinFile.Settings

/-!
## Tables

Each setting that a table gives replaces the standard one. A key that is no setting, or a value
of the wrong kind, refuses the whole table.
-/

/-- The settings after one entry of a table. -/
def set? (s : Settings) : String × Toml.Value → Option Settings
  | ("allow_unpinned", .flag b) => some { s with allowUnpinned := b }
  | ("deny_duplicates", .flag b) => some { s with denyDuplicates := b }
  | ("fail_on", .text name) | ("fail_on", .choice name) =>
    (Severity.ofName? name).map fun t => { s with failOn := t }
  | ("ignore", .texts names) => some { s with ignore := names }
  | _ => none

def ofTable? (table : Toml.Table) : Option Settings := table.foldlM set? standard

def parse? (text : String) : Option Settings := do
  ofTable? (← Toml.parse? text)

end PinFile.Settings

namespace PinFile

/-! ## Files -/

inductive SettingsError where
  | unreadable (path : String) (fault : FileFault)
  | invalid (path : String)
  deriving DecidableEq, Repr

namespace SettingsError

def message : SettingsError → String
  | unreadable path fault => "failed to read config file " ++ path ++ ": " ++ fault.message
  | invalid path => "invalid config file " ++ path

/-- The fault and what it comes from. -/
def messages (e : SettingsError) : List String :=
  match e with
  | unreadable _ fault => [e.message, fault.message]
  | invalid _ => [e.message]

end SettingsError

namespace Settings

/-- The file that is looked for in the home directory. -/
def standardFile : String := "pin-raider.toml"

/-- The file that the settings come from. -/
def file? (t : FileTree) (given : Option String) : Option String :=
  match given with
  | some path => some path
  | none => if t.isFile standardFile then some standardFile else none

def load (t : FileTree) (given : Option String) : Except SettingsError Settings :=
  match file? t given with
  | none => .ok standard
  | some path =>
    match t.readText path with
    | .error fault => .error (.unreadable path fault)
    | .ok text =>
      match parse? text with
      | some s => .ok s
      | none => .error (.invalid path)

end Settings

end PinFile
