import PinFile.Datum
import PinFile.Manifest

/-!
# Manifests as data

An entry is a record whose field `kind` says what it is, followed by the fields of that kind. An
inclusion has a field `kind` of its own besides, so its record names that field twice. The reader
takes `kind` away before it reads the other fields, so that no inclusion is ever read.
-/

namespace PinFile

open Datum

def Constraint.toDatum (c : Constraint) : Datum :=
  .record [("operator", .text c.operator.symbol), ("version", .text c.version)]

def Requirement.fields (r : Requirement) : Fields :=
  [("name", .text r.name),
   ("extras", texts r.extras),
   ("constraints", .list (r.constraints.map Constraint.toDatum)),
   ("url", optionalText r.url),
   ("marker", optionalText r.marker),
   ("hashes", texts r.hashes)]

def IncludeKind.name : IncludeKind → String
  | requirements => "requirements"
  | constraints => "constraints"

def IncludeKind.ofName? (name : String) : Option IncludeKind :=
  [requirements, constraints].find? (·.name == name)

def Entry.kindName : Entry → String
  | requirement _ => "requirement"
  | editable _ => "editable"
  | includeFile _ => "include"
  | option _ => "global_option"
  | comment _ => "comment"
  | blank => "blank"

/-- The fields behind the kind. -/
def Entry.fields : Entry → Fields
  | requirement r => r.fields
  | editable e => [("target", .text e.target)]
  | includeFile i => [("kind", .text i.kind.name), ("path", .text i.path)]
  | option o => [("flag", .text o.flag), ("value", optionalText o.value)]
  | comment s => [("text", .text s)]
  | blank => []

def Entry.toDatum (e : Entry) : Datum := .record (("kind", .text e.kindName) :: e.fields)

def Line.toDatum (line : Line) : Datum :=
  .record [("number", .nat line.number), ("entry", line.entry.toDatum),
    ("comment", optionalText line.comment)]

def Manifest.toDatum (m : Manifest) : Datum :=
  .record [("lines", .list (m.lines.map Line.toDatum))]

def Summary.toDatum (s : Summary) : Datum :=
  .record
    [("lines", .nat s.lines),
     ("blank_lines", .nat s.blankLines),
     ("comment_lines", .nat s.commentLines),
     ("requirement_lines", .nat s.requirementLines),
     ("distinct_packages", .nat s.distinctPackages),
     ("editable_installs", .nat s.editableInstalls),
     ("includes", .nat s.includes),
     ("options", .nat s.options),
     ("duplicated_packages", texts s.duplicatedPackages)]

/-- A manifest under its summary. -/
def Manifest.listingDatum (m : Manifest) : Datum :=
  .record [("summary", m.summary.toDatum), ("manifest", m.toDatum)]

def Constraint.ofDatum? (d : Datum) : Option Constraint := do
  let fields ← fields? d
  let operator ← Operator.ofSymbol? (← field? fields "operator" entryChoice?)
  let version ← field? fields "version" text?
  return { operator, version }

def Requirement.ofFields? (fields : Fields) : Option Requirement := do
  let name ← field? fields "name" text?
  let extras ← field? fields "extras" texts?
  let constraints ← field? fields "constraints" (list? Constraint.ofDatum?)
  let url ← optionalField? fields "url" text?
  let marker ← optionalField? fields "marker" text?
  let hashes ← field? fields "hashes" texts?
  return { name, extras, constraints, url, marker, hashes }

def Include.ofFields? (fields : Fields) : Option Include := do
  let kind ← IncludeKind.ofName? (← field? fields "kind" entryChoice?)
  let path ← field? fields "path" text?
  return { kind, path }

/-- Reads the fields of an entry of a kind. -/
def Entry.ofFields? (kind : String) (fields : Fields) : Option Entry :=
  match kind with
  | "requirement" => (Requirement.ofFields? fields).map .requirement
  | "editable" => (field? fields "target" text?).map fun target => .editable ⟨target⟩
  | "include" => (Include.ofFields? fields).map .includeFile
  | "global_option" => do
    let flag ← field? fields "flag" text?
    let value ← optionalField? fields "value" text?
    return .option { flag, value }
  | "comment" => (field? fields "text" text?).map .comment
  | "blank" => some .blank
  | _ => none

/-- An entry is read as a whole first, so that nothing in it may be broken. Its kind is taken away
from the fields that are left to read. -/
def Entry.ofDatum? (d : Datum) : Option Entry := do
  guard d.isSound
  let fields ← fields? d
  let kind ← field? fields "kind" text?
  Entry.ofFields? kind (without fields "kind")

def Line.ofDatum? (d : Datum) : Option Line := do
  let fields ← fields? d
  let number ← field? fields "number" nat?
  let entry ← field? fields "entry" Entry.ofDatum?
  let comment ← optionalField? fields "comment" text?
  return { number, entry, comment }

def Manifest.ofDatum? (d : Datum) : Option Manifest := do
  let fields ← fields? d
  let lines ← field? fields "lines" (list? Line.ofDatum?)
  return { lines }

end PinFile
