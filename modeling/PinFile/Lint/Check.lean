import PinFile.Lint.Finding
import PinFile.Manifest

/-!
# Checks

The checks look at a list of manifests as one set of packages to install. A manifest of
constraints takes part in conflicts only: it does not install anything itself.

* conflicting pin: one package and marker with several targets, each a URL or one version;
* duplicate pin: one specification on several lines;
* unpinned: a requirement without a target;
* missing hash: a requirement without a digest, where digests are required;
* editable not last: requirements on lines after the first editable install.
-/

namespace PinFile

open Text

/-- A manifest with the file it came from and what its lines do. -/
structure Source where
  path : Option String
  kind : IncludeKind
  manifest : Manifest
  deriving DecidableEq, Repr, Inhabited

namespace Lint

/-- A requirement at its place. -/
structure Occurrence where
  place : Location
  kind : IncludeKind
  requirement : Requirement
  deriving DecidableEq, Repr

namespace Occurrence

def package (o : Occurrence) : String := o.requirement.package

/-- The one thing that can be installed: a URL, or a version in lower case. -/
def target? (o : Occurrence) : Option String :=
  match o.requirement.url with
  | some url => some url
  | none => o.requirement.pinnedVersion.map fun v => String.ofList (v.toList.map Char.toLower)

def installs (o : Occurrence) : Bool := o.kind == .requirements

end Occurrence

/-! ## Occurrences -/

def occurrencesIn (source : Source) : List Occurrence :=
  source.manifest.declarations.map fun d => ⟨⟨source.path, d.line⟩, source.kind, d.requirement⟩

def allOccurrences (sources : List Source) : List Occurrence := sources.flatMap occurrencesIn

/-- The occurrences that the checks look at. -/
def occurrences (sources : List Source) (s : Settings) : List Occurrence :=
  (allOccurrences sources).filter fun o => !s.isIgnored o.package

/-- The members of a list under each key, with the keys ascending. -/
def groupBy {α : Type} (key : α → String) (xs : List α) : List (String × List α) :=
  (ascending (xs.map key)).map fun k => (k, xs.filter (key · == k))

/-! ## Conflicts -/

/-- The occurrences that have a target, grouped by it. -/
def byTarget (os : List Occurrence) : List (String × List Occurrence) :=
  groupBy (·.target?.getD "") (os.filter (·.target?.isSome))

def describeTarget (group : String × List Occurrence) : String :=
  group.1 ++ " (" ++ ", ".intercalate (group.2.map (·.place.render)) ++ ")"

/-- The conflict among occurrences of one package with one marker. -/
def conflict? (package : String) (os : List Occurrence) : Option Finding :=
  let targets := byTarget os
  if targets.length ≤ 1 then none
  else some
    { severity := .error
      kind := .conflictingPin
      package := some package
      locations := (targets.flatMap fun g => g.2.map (·.place)).mergeSort Location.notAfter
      message := "`" ++ package ++ "` is pinned to conflicting targets: "
        ++ "; ".intercalate (targets.map describeTarget) }

/-- Different markers select different environments, so only equal ones conflict. -/
def conflicts (package : String) (os : List Occurrence) : List Finding :=
  (groupBy (·.requirement.environment) os).filterMap fun g => conflict? package g.2

/-! ## Repetitions -/

/-- The repetition among occurrences of one specification. -/
def duplicate? (package : String) (s : Settings) : List Occurrence → Option Finding
  | first :: second :: rest => some
    { severity := if s.denyDuplicates then .error else .warning
      kind := .duplicatePin
      package := some package
      locations := (first :: second :: rest).map (·.place)
      message := "`" ++ first.requirement.render ++ "` is declared "
        ++ toString (rest.length + 2)
        ++ " times with identical pins; candidate for deduplication" }
  | _ => none

def duplicates (package : String) (s : Settings) (os : List Occurrence) : List Finding :=
  (groupBy (·.requirement.specKey) (os.filter (·.installs))).filterMap fun g =>
    duplicate? package s g.2

/-! ## Single lines -/

def unpinned? (package : String) (s : Settings) (o : Occurrence) : Option Finding :=
  if s.allowUnpinned || o.target?.isSome then none
  else some
    { severity := .warning
      kind := .unpinned
      package := some package
      locations := [o.place]
      message := "`" ++ o.requirement.render ++ "` has no exact version pin" }

def missingHash? (package : String) (requireHashes : Bool) (o : Occurrence) : Option Finding :=
  if requireHashes && o.requirement.hashes.isEmpty then some
    { severity := .error
      kind := .missingHash
      package := some package
      locations := [o.place]
      message := "`" ++ package ++ "` has no --hash but --require-hashes is set" }
  else none

/-- The findings on single lines of one package. -/
def lineFindings (package : String) (s : Settings) (requireHashes : Bool) (os : List Occurrence) :
    List Finding :=
  (os.filter (·.installs)).flatMap fun o =>
    (unpinned? package s o).toList ++ (missingHash? package requireHashes o).toList

def packageFindings (s : Settings) (requireHashes : Bool) (group : String × List Occurrence) :
    List Finding :=
  conflicts group.1 group.2 ++ duplicates group.1 s group.2
    ++ lineFindings group.1 s requireHashes group.2

/-! ## Editable installs -/

/-- The first editable install with the number of its line. -/
def firstEditable? (m : Manifest) : Option (Nat × Editable) :=
  m.lines.findSome? fun line => line.editable?.map fun e => (line.number, e)

def editableOrder? (source : Source) : Option Finding := do
  guard (source.kind == .requirements)
  let (line, editable) ← firstEditable? source.manifest
  let trailing := source.manifest.declarations.countP (line < ·.line)
  guard (trailing != 0)
  return {
    severity := .info
    kind := .editableNotLast
    package := none
    locations := [⟨source.path, line⟩]
    message := "editable install `" ++ editable.render ++ "` is followed by "
      ++ toString trailing ++ " requirement(s)" }

/-! ## The report -/

/-- Some manifest, of whatever kind, requires digests. -/
def requireHashes (sources : List Source) : Bool := sources.any (·.manifest.requiresHashes)

/-- The findings before they are put in order. -/
def findings (sources : List Source) (s : Settings) : List Finding :=
  sources.filterMap editableOrder?
    ++ (groupBy (·.package) (occurrences sources s)).flatMap
      (packageFindings s (requireHashes sources))

def check (sources : List Source) (s : Settings) : Report :=
  ⟨(findings sources s).mergeSort Finding.notAfter⟩

/-- Checks one manifest that has no file. -/
def checkManifest (m : Manifest) (s : Settings) : Report := check [⟨none, .requirements, m⟩] s

end Lint

end PinFile
