import PinFile.Files.Tree
import PinFile.Line

/-!
# Findings

A finding says what is wrong with a pin file, how grave it is, and on which lines. Findings are
ordered by the first of their places and then by kind. Places without a file come before those
in files, and files are ordered by their paths.
-/

namespace PinFile

inductive Severity where
  | info
  | warning
  | error
  deriving DecidableEq, Repr, Inhabited

namespace Severity

def rank : Severity → Nat
  | info => 0
  | warning => 1
  | error => 2

def name : Severity → String
  | info => "info"
  | warning => "warning"
  | error => "error"

def all : List Severity := [info, warning, error]

def ofName? (name : String) : Option Severity := all.find? (·.name == name)

end Severity

inductive FindingKind where
  | conflictingPin
  | duplicatePin
  | unpinned
  | missingHash
  | editableNotLast
  deriving DecidableEq, Repr, Inhabited

namespace FindingKind

def all : List FindingKind := [conflictingPin, duplicatePin, unpinned, missingHash, editableNotLast]

def rank : FindingKind → Nat
  | conflictingPin => 0
  | duplicatePin => 1
  | unpinned => 2
  | missingHash => 3
  | editableNotLast => 4

/-- The name in a listing. -/
def code : FindingKind → String
  | conflictingPin => "conflicting-pin"
  | duplicatePin => "duplicate-pin"
  | unpinned => "unpinned"
  | missingHash => "missing-hash"
  | editableNotLast => "editable-not-last"

/-- The name in a data format. -/
def name : FindingKind → String
  | conflictingPin => "conflicting_pin"
  | duplicatePin => "duplicate_pin"
  | unpinned => "unpinned"
  | missingHash => "missing_hash"
  | editableNotLast => "editable_not_last"

def ofName? (name : String) : Option FindingKind := all.find? (·.name == name)

end FindingKind

/-- A line of a file, or of the only text there is. -/
structure Location where
  source : Option String
  line : Nat
  deriving DecidableEq, Repr, Inhabited

namespace Location

def render (l : Location) : String :=
  match l.source with
  | some path => path ++ ":" ++ toString l.line
  | none => "line " ++ toString l.line

/-- The order key of a source: none before every path. -/
def sourceKey (l : Location) : List String :=
  match l.source with
  | none => []
  | some path => "" :: Path.key path

/-- The location stands before another one or in the same place. -/
def notAfter (a b : Location) : Bool :=
  a.sourceKey < b.sourceKey || (a.sourceKey == b.sourceKey && a.line ≤ b.line)

end Location

structure Finding where
  severity : Severity
  kind : FindingKind
  package : Option String
  locations : List Location
  message : String
  deriving DecidableEq, Repr, Inhabited

namespace Finding

/-- The order of findings in a report. -/
def notAfter (a b : Finding) : Bool :=
  match a.locations.head?, b.locations.head? with
  | none, none => a.kind.rank ≤ b.kind.rank
  | none, some _ => true
  | some _, none => false
  | some l, some k =>
    if Location.notAfter l k && Location.notAfter k l then a.kind.rank ≤ b.kind.rank
    else Location.notAfter l k

def render (f : Finding) : String :=
  ((f.locations.head?.map Location.render).getD "") ++ ": " ++ f.severity.name
    ++ "[" ++ f.kind.code ++ "]: " ++ f.message ++ "\n"

end Finding

structure Report where
  findings : List Finding
  deriving DecidableEq, Repr, Inhabited

namespace Report

def isClean (r : Report) : Bool := r.findings.isEmpty

/-- The gravest severity in the report. -/
def maxSeverity (r : Report) : Option Severity :=
  Severity.all.reverse.find? fun s => r.findings.any (·.severity == s)

/-- Some finding is at least as grave as a threshold. -/
def exceeds (r : Report) (threshold : Severity) : Bool :=
  r.findings.any fun f => threshold.rank ≤ f.severity.rank

def count (r : Report) (s : Severity) : Nat := r.findings.countP (·.severity == s)

def ofKind (r : Report) (k : FindingKind) : List Finding := r.findings.filter (·.kind == k)

/-- The files that the report points to. -/
def paths (r : Report) : List String :=
  r.findings.flatMap fun f => f.locations.filterMap (·.source)

/-- One row for each finding and a row of totals. -/
def render (r : Report) : String :=
  if r.isClean then "no findings\n"
  else
    String.join (r.findings.map Finding.render) ++ toString r.findings.length ++ " finding(s): "
      ++ toString (r.count .error) ++ " error(s), " ++ toString (r.count .warning)
      ++ " warning(s), " ++ toString (r.count .info) ++ " info\n"

end Report

/-!
## Settings

What a check leaves out, how grave it takes repetitions, and from which severity on it fails.
-/

structure Settings where
  allowUnpinned : Bool
  denyDuplicates : Bool
  failOn : Severity
  ignore : List String
  deriving DecidableEq, Repr, Inhabited

namespace Settings

def standard : Settings := ⟨false, false, .error, []⟩

/-- A package that no check looks at, given by the normal form of its name. -/
def isIgnored (s : Settings) (package : String) : Bool :=
  s.ignore.any fun name => Name.normalize name == package

end Settings

end PinFile
