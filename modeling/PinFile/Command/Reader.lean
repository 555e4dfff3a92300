import PinFile.Command.Invocation
import PinFile.Command.Options

/-!
# Reading command lines

The grammar of the program: two options that may stand before and behind every subcommand, and
the options and operands of each subcommand. Of an option given on several levels the innermost
counts.
-/

namespace PinFile.Command

def flag (long : String) : OptionRule := ⟨long, none, .flag⟩

def valued (long : String) (kind : ValueKind) : OptionRule := ⟨long, none, .value kind⟩

/-- The options of every level. -/
def commonRules : List OptionRule :=
  [⟨"verbose", some 'v', .count⟩, valued "log-file" .path, ⟨"help", some 'h', .stop .help⟩]

/-- The common options as the levels so far give them. -/
structure Common where
  verbosity : Nat
  logFile : Option String
  deriving DecidableEq, Repr

def Common.none : Common := ⟨0, Option.none⟩

/-- The common options behind one more level. -/
def Common.after (c : Common) (g : Given) : Common :=
  ⟨if g.has "verbose" then g.count "verbose" else c.verbosity, g.value? "log-file" <|> c.logFile⟩

/-! ## Values -/

/-- An option whose value is one of a few words. -/
structure Choice (α : Type) where
  long : String
  words : List (String × α)

namespace Choice

variable {α : Type}

def rule (choice : Choice α) : OptionRule :=
  valued choice.long (.word (choice.words.map (·.1)))

def value? (choice : Choice α) (g : Given) : Option α :=
  (g.value? choice.long).bind fun value => (choice.words.find? (·.1 == value)).map (·.2)

end Choice

def outputChoice : Choice OutputFormat := ⟨"format", [("text", .text), ("json", .json)]⟩

def exportChoice : Choice ExportFormat := ⟨"format", [("json", .json), ("bson", .bson)]⟩

def severityChoice : Choice Severity := ⟨"fail-on", Severity.all.map fun s => (s.name, s)⟩

def outputFormat (g : Given) : OutputFormat := (outputChoice.value? g).getD .text

def required (g : Given) (long : String) : Except Refusal String :=
  match g.value? long with
  | some value => .ok value
  | none => .error .usage

/-- The only operand. -/
def operand (g : Given) : Except Refusal String :=
  match g.operands with
  | [file] => .ok file
  | _ => .error .usage

/-! ## Commands of one level -/

/-- Reads the options and operands of a last level. -/
def lastLevel (c : Common) (rules : List OptionRule) (operands : Nat) (args : List String) :
    Except Refusal (Common × Given) := do
  let (g, _) ← readOptions ⟨commonRules ++ rules, some operands⟩ .none args
  return (c.after g, g)

def readCheck (c : Common) (raw args : List String) : Except Refusal Invocation := do
  let (c, g) ← lastLevel c
    [valued "config" .path, flag "follow-includes", flag "allow-unpinned", flag "deny-duplicates",
     severityChoice.rule, outputChoice.rule] 1 args
  let request : CheckRequest :=
    { file := ← operand g
      raw := raw
      config := g.value? "config"
      followIncludes := g.has "follow-includes"
      allowUnpinned := g.has "allow-unpinned"
      denyDuplicates := g.has "deny-duplicates"
      failOn := severityChoice.value? g
      format := outputFormat g }
  return ⟨c.verbosity, c.logFile, .check request⟩

def readFormat (c : Common) (args : List String) : Except Refusal Invocation := do
  let (c, g) ← lastLevel c [flag "normalize", flag "write", flag "check"] 1 args
  let file ← operand g
  let layout : Layout := if g.has "normalize" then .normalize else .preserve
  let use : FormatUse ←
    match g.has "write", g.has "check" with
    | true, true => throw .usage
    | true, false => pure .write
    | false, true => pure .compare
    | false, false => pure .print
  return ⟨c.verbosity, c.logFile, .format file layout use⟩

def readList (c : Common) (args : List String) : Except Refusal Invocation := do
  let (c, g) ← lastLevel c [outputChoice.rule] 1 args
  return ⟨c.verbosity, c.logFile, .list (← operand g) (outputFormat g)⟩

def readExport (c : Common) (args : List String) : Except Refusal Invocation := do
  let (c, g) ← lastLevel c [⟨"output", some 'o', .value .path⟩, exportChoice.rule] 1 args
  let format := (exportChoice.value? g).getD .json
  return ⟨c.verbosity, c.logFile, .write (← operand g) (← required g "output") format⟩

def readDiff (c : Common) (args : List String) : Except Refusal Invocation := do
  let (c, g) ← lastLevel c [outputChoice.rule] 2 args
  match g.operands with
  | [old, new] => return ⟨c.verbosity, c.logFile, .diff old new (outputFormat g)⟩
  | _ => throw .usage

def readSave (c : Common) (raw args : List String) :
    Except Refusal (Common × SnapshotRequest) := do
  let (c, g) ← lastLevel c [valued "name" (.text raw)] 1 args
  return (c, .save (← required g "name") (← operand g))

def readShow (c : Common) (raw args : List String) :
    Except Refusal (Common × SnapshotRequest) := do
  let (c, g) ← lastLevel c [valued "name" (.text raw)] 0 args
  return (c, .show (← required g "name"))

def readSnapshotDiff (c : Common) (raw args : List String) :
    Except Refusal (Common × SnapshotRequest) := do
  let (c, g) ← lastLevel c [valued "name" (.text raw), outputChoice.rule] 1 args
  return (c, .diff (← required g "name") (← operand g) (outputFormat g))

def readSnapshotList (c : Common) (args : List String) :
    Except Refusal (Common × SnapshotRequest) := do
  let (c, _) ← lastLevel c [] 0 args
  return (c, .list)

/-! ## Help -/

def commandNames : List String :=
  ["check", "fmt", "list", "export", "diff", "snapshot", "help"]

def snapshotNames : List String := ["save", "show", "diff", "list", "help"]

/-- What asking for help comes to, with the names that lead to a subcommand. -/
def helpOn : List String → Refusal
  | [] => .help
  | [name] => if commandNames.contains name then .help else .usage
  | ["snapshot", name] => if snapshotNames.contains name then .help else .usage
  | _ => .usage

/-! ## Commands of two levels -/

/-- Where snapshots are kept unless another place is given. -/
def standardStore : String := ".pin-raider/snapshots"

/-- Reads a level that a subcommand has to follow. The subcommand is read from the common options
so far, the options of the level, its name, and the arguments behind it. -/
def outerLevel (c : Common) (rules : List OptionRule) (args : List String)
    (subcommand : Common → Given → String → List String → Except Refusal Invocation) :
    Except Refusal Invocation := do
  let (g, rest) ← readOptions ⟨commonRules ++ rules, none⟩ .none args
  match rest with
  | [] => throw .usage
  | name :: rest =>
    let invocation ← subcommand (c.after g) g name rest
    if g.isSound (commonRules ++ rules) then return invocation else throw .usage

def readSnapshot (c : Common) (raw args : List String) : Except Refusal Invocation :=
  outerLevel c [valued "store" .path] args fun c g name rest => do
    let (c, request) ←
      match name with
      | "save" => readSave c raw rest
      | "show" => readShow c raw rest
      | "diff" => readSnapshotDiff c raw rest
      | "list" => readSnapshotList c rest
      | "help" => throw (helpOn ("snapshot" :: rest))
      | _ => throw .usage
    return ⟨c.verbosity, c.logFile, .snapshot ((g.value? "store").getD standardStore) request⟩

/-- Reads the arguments of the program. The names of `raw` are not spelled in UTF-8. -/
def read (args : List String) (raw : List String := []) : Except Refusal Invocation :=
  outerLevel .none [⟨"version", some 'V', .stop .version⟩] args fun c _ name rest =>
    match name with
    | "check" => readCheck c raw rest
    | "fmt" => readFormat c rest
    | "list" => readList c rest
    | "export" => readExport c rest
    | "diff" => readDiff c rest
    | "snapshot" => readSnapshot c raw rest
    | "help" => throw (helpOn rest)
    | _ => throw .usage

end PinFile.Command
