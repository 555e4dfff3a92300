import PinFile.Manifest

/-!
# Changes between manifests

Two manifests differ in a package when the sets of its specification keys differ. A specification
is shown as its first requirement is written; packages and specifications come in ascending order.
-/

namespace PinFile

open Text

/-- A package that both manifests name, with its specifications before and after. -/
structure PackageChange where
  package : String
  before : List String
  after : List String
  deriving DecidableEq, Repr, Inhabited

structure Change where
  added : List String
  removed : List String
  changed : List PackageChange
  deriving DecidableEq, Repr, Inhabited

def PackageChange.render (c : PackageChange) : String :=
  "~ " ++ c.package ++ ": " ++ " | ".intercalate c.before ++ " -> "
    ++ " | ".intercalate c.after ++ "\n"

namespace Manifest

/-- The requirements of a package. -/
def requirementsOf (m : Manifest) (package : String) : List Requirement :=
  m.requirements.filter (·.package == package)

/-- The specification keys of a package, ascending. -/
def specKeys (m : Manifest) (package : String) : List String :=
  ascending ((m.requirementsOf package).map (·.specKey))

/-- The first requirement of each specification of a package, as it is written. -/
def specs (m : Manifest) (package : String) : List String :=
  (m.specKeys package).filterMap fun key =>
    ((m.requirementsOf package).find? (·.specKey == key)).map Requirement.render

/-- The packages, ascending. -/
def sortedPackages (m : Manifest) : List String := ascending m.packages

def names (m : Manifest) (package : String) : Bool := m.requirements.any (·.package == package)

end Manifest

namespace Change

def between (old new : Manifest) : Change where
  added := (new.sortedPackages.filter (!old.names ·)).flatMap new.specs
  removed := (old.sortedPackages.filter (!new.names ·)).flatMap old.specs
  changed :=
    (old.sortedPackages.filter fun p => new.names p && old.specKeys p != new.specKeys p).map
      fun p => ⟨p, old.specs p, new.specs p⟩

def isEmpty (c : Change) : Bool := c.added.isEmpty && c.removed.isEmpty && c.changed.isEmpty

def render (c : Change) : String :=
  if c.isEmpty then "no package changes\n"
  else
    String.join (c.added.map fun spec => "+ " ++ spec ++ "\n")
      ++ String.join (c.removed.map fun spec => "- " ++ spec ++ "\n")
      ++ String.join (c.changed.map PackageChange.render)

end Change

end PinFile
