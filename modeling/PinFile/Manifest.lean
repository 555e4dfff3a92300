import PinFile.Line

/-!
# Manifests

A manifest is a pin file as a list of lines. Packages are told apart by the normal forms of their
names.
-/

namespace PinFile

open Text

structure Manifest where
  lines : List Line
  deriving DecidableEq, Repr, Inhabited

/-- Counts of what a manifest holds. -/
structure Summary where
  lines : Nat
  blankLines : Nat
  commentLines : Nat
  requirementLines : Nat
  distinctPackages : Nat
  editableInstalls : Nat
  includes : Nat
  options : Nat
  duplicatedPackages : List String
  deriving DecidableEq, Repr

/-- A requirement and the number of its line. -/
structure Declaration where
  line : Nat
  requirement : Requirement
  deriving DecidableEq, Repr

namespace Manifest

def declarations (m : Manifest) : List Declaration :=
  m.lines.filterMap fun line => line.requirement?.map (⟨line.number, ·⟩)

def requirements (m : Manifest) : List Requirement := m.lines.filterMap Line.requirement?

def editables (m : Manifest) : List Editable := m.lines.filterMap Line.editable?

def includes (m : Manifest) : List Include := m.lines.filterMap Line.include?

def options (m : Manifest) : List InstallerOption := m.lines.filterMap Line.option?

/-- Every package has to be installed from a file with a known digest. -/
def requiresHashes (m : Manifest) : Bool := m.options.any (·.flag == "--require-hashes")

/-- The packages in the order in which they are first named. -/
def packages (m : Manifest) : List String := (m.requirements.map (·.package)).eraseDups

/-- The numbers of the lines that name a package. -/
def linesOf (m : Manifest) (package : String) : List Nat :=
  (m.declarations.filter (·.requirement.package == package)).map (·.line)

/-- The packages named on more than one line, in ascending order, each with those lines. -/
def duplicates (m : Manifest) : List (String × List Nat) :=
  ((ascending m.packages).map fun package => (package, m.linesOf package)).filter
    (1 < ·.2.length)

def summary (m : Manifest) : Summary where
  lines := m.lines.length
  blankLines := m.lines.countP (·.entry == .blank)
  commentLines := m.lines.countP fun line => match line.entry with | .comment _ => true | _ => false
  requirementLines := m.requirements.length
  distinctPackages := m.packages.length
  editableInstalls := m.editables.length
  includes := m.includes.length
  options := m.options.length
  duplicatedPackages := m.duplicates.map (·.1)

end Manifest

end PinFile
