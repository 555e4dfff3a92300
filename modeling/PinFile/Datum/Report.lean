import PinFile.Change
import PinFile.Datum
import PinFile.Lint.Finding

/-!
# Reports and changes as data
-/

namespace PinFile

open Datum

def Location.toDatum (l : Location) : Datum :=
  .record [("source", optionalText l.source), ("line", .nat l.line)]

def Finding.toDatum (f : Finding) : Datum :=
  .record
    [("severity", .text f.severity.name),
     ("kind", .text f.kind.name),
     ("package", optionalText f.package),
     ("locations", .list (f.locations.map Location.toDatum)),
     ("message", .text f.message)]

def Report.toDatum (r : Report) : Datum :=
  .record [("findings", .list (r.findings.map Finding.toDatum))]

def PackageChange.toDatum (c : PackageChange) : Datum :=
  .record [("package", .text c.package), ("before", texts c.before), ("after", texts c.after)]

def Change.toDatum (c : Change) : Datum :=
  .record [("added", texts c.added), ("removed", texts c.removed),
    ("changed", .list (c.changed.map PackageChange.toDatum))]

def Location.ofDatum? (d : Datum) : Option Location := do
  let fields ← fields? d
  let source ← optionalField? fields "source" text?
  let line ← field? fields "line" nat?
  return { source, line }

def Finding.ofDatum? (d : Datum) : Option Finding := do
  let fields ← fields? d
  let severity ← Severity.ofName? (← field? fields "severity" choice?)
  let kind ← FindingKind.ofName? (← field? fields "kind" choice?)
  let package ← optionalField? fields "package" text?
  let locations ← field? fields "locations" (list? Location.ofDatum?)
  let message ← field? fields "message" text?
  return { severity, kind, package, locations, message }

def Report.ofDatum? (d : Datum) : Option Report := do
  let fields ← fields? d
  let findings ← field? fields "findings" (list? Finding.ofDatum?)
  return { findings }

def PackageChange.ofDatum? (d : Datum) : Option PackageChange := do
  let fields ← fields? d
  let package ← field? fields "package" text?
  let before ← field? fields "before" texts?
  let after ← field? fields "after" texts?
  return { package, before, after }

def Change.ofDatum? (d : Datum) : Option Change := do
  let fields ← fields? d
  let added ← field? fields "added" texts?
  let removed ← field? fields "removed" texts?
  let changed ← field? fields "changed" (list? PackageChange.ofDatum?)
  return { added, removed, changed }

end PinFile
