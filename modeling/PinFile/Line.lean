import PinFile.Requirement

/-!
# Lines

A line of a pin file holds one entry: a requirement, an editable install, the inclusion of
another file, an installer option, a comment, or nothing. It keeps the number of the physical
line it starts on and the comment behind the entry.
-/

namespace PinFile

/-- An install from a working copy. -/
structure Editable where
  target : String
  deriving DecidableEq, Repr, Inhabited

/-- What the lines of an included file do: ask for packages, or only restrict versions. -/
inductive IncludeKind where
  | requirements
  | constraints
  deriving DecidableEq, Repr, Inhabited

structure Include where
  kind : IncludeKind
  path : String
  deriving DecidableEq, Repr, Inhabited

/-- An option for the installer as a whole. -/
structure InstallerOption where
  flag : String
  value : Option String
  deriving DecidableEq, Repr, Inhabited

inductive Entry where
  | requirement (r : Requirement)
  | editable (e : Editable)
  | includeFile (i : Include)
  | option (o : InstallerOption)
  | comment (text : String)
  | blank
  deriving DecidableEq, Repr, Inhabited

structure Line where
  number : Nat
  entry : Entry
  comment : Option String
  deriving DecidableEq, Repr, Inhabited

namespace Editable

def ofTarget (target : String) : Except SpecError Editable :=
  if (Text.trim target.toList).isEmpty then .error .emptyEditableTarget else .ok ⟨target⟩

/-- The target is the project in the working directory. -/
def isLocalProject (e : Editable) : Bool := e.target == "." || e.target == "./"

def render (e : Editable) : String := "-e " ++ e.target

end Editable

def Include.render (i : Include) : String :=
  match i.kind with
  | .requirements => "-r " ++ i.path
  | .constraints => "-c " ++ i.path

def InstallerOption.render (o : InstallerOption) : String :=
  match o.value with
  | some value => o.flag ++ " " ++ value
  | none => o.flag

def Entry.render : Entry → String
  | requirement r => r.render
  | editable e => e.render
  | includeFile i => i.render
  | option o => o.render
  | comment text => text
  | blank => ""

namespace Line

def renderComment : Option String → String
  | none => ""
  | some comment => if comment.isEmpty then " #" else " # " ++ comment

def render (line : Line) : String := line.entry.render ++ renderComment line.comment

def requirement? (line : Line) : Option Requirement :=
  match line.entry with
  | .requirement r => some r
  | _ => none

def editable? (line : Line) : Option Editable :=
  match line.entry with
  | .editable e => some e
  | _ => none

def include? (line : Line) : Option Include :=
  match line.entry with
  | .includeFile i => some i
  | _ => none

def option? (line : Line) : Option InstallerOption :=
  match line.entry with
  | .option o => some o
  | _ => none

end Line

end PinFile
