import PinFile.Constraint
import PinFile.Text

/-!
# Requirements

A requirement names a package and says which versions of it will do: `name[extras]constraints`,
or a direct reference to a URL, with an optional environment marker and the digests of the files
that may be installed. Two requirements ask for the same when their names agree in normal form
and their specification keys are equal.
-/

namespace PinFile.Name

open Text

/-!
## Package names

A name is made of letters, digits and separators, and has a letter or digit at both ends. Two
names mean the same package when their normal forms agree: the normal form is in lower case and
has one hyphen for each run of separators.
-/

def isSeparator (c : Char) : Bool := c == '-' || c == '_' || c == '.'

/-- Folds case and runs of separators; `inRun` tells that a separator stands right before. -/
def fold (inRun : Bool) : List Char → List Char
  | [] => []
  | c :: cs =>
    if isSeparator c then
      if inRun then fold true cs else '-' :: fold true cs
    else c.toLower :: fold false cs

def normalize (name : String) : String := String.ofList (fold false name.toList)

def isValidChars (cs : List Char) : Bool :=
  cs.all isNameChar && cs.head?.any isLetterOrDigit && cs.getLast?.any isLetterOrDigit

def isValid (name : String) : Bool := isValidChars name.toList

theorem toList_normalize (name : String) :
    (normalize name).toList = fold false name.toList := String.toList_ofList

end PinFile.Name

namespace PinFile

open Text

/-! ## The parts of a requirement -/

structure Requirement where
  name : String
  extras : List String
  constraints : List Constraint
  url : Option String
  marker : Option String
  hashes : List String
  deriving DecidableEq, Repr, Inhabited

namespace Requirement

/-- A requirement that asks for nothing but the package. -/
def bare (name : String) : Requirement := ⟨name, [], [], none, none, []⟩

def ofName (name : String) : Except SpecError Requirement :=
  if Name.isValid name then .ok (bare name) else .error (.invalidName name)

def addExtra (r : Requirement) (extra : String) : Except SpecError Requirement :=
  if Name.isValid extra then .ok { r with extras := r.extras ++ [extra] }
  else .error (.invalidExtra extra)

def addConstraint (r : Requirement) (c : Constraint) : Requirement :=
  { r with constraints := r.constraints ++ [c] }

/-- A requirement for exactly one version. -/
def pinned (name version : String) : Except SpecError Requirement := do
  let r ← ofName name
  let c ← Constraint.ofParts .equal version
  return r.addConstraint c

def package (r : Requirement) : String := Name.normalize r.name

/-- The version that is asked for, when exactly one constraint is exact and has no wildcard. -/
def pinnedVersion (r : Requirement) : Option String :=
  match r.constraints.filter (·.operator.isExact) with
  | [c] => if Constraint.hasWildcard c.version then none else some c.version
  | _ => none

def isPinned (r : Requirement) : Bool := r.pinnedVersion.isSome

/-- The marker without blanks around it; no marker is the empty one. -/
def environment (r : Requirement) : String :=
  String.ofList (trim (r.marker.getD "").toList)

/-- What is asked for, up to the spelling of names, the order of extras and constraints, and the
digests. -/
def specKey (r : Requirement) : String :=
  "[" ++ ",".intercalate (ascending (r.extras.map Name.normalize)) ++ "]"
    ++ ",".intercalate (sorted (r.constraints.map Constraint.render))
    ++ "@" ++ r.url.getD "" ++ ";" ++ r.environment

def renderExtras (r : Requirement) : String :=
  if r.extras.isEmpty then "" else "[" ++ ",".intercalate r.extras ++ "]"

def renderTarget (r : Requirement) : String :=
  match r.url, r.marker with
  | some url, some marker => " @ " ++ url ++ " ; " ++ marker
  | some url, none => " @ " ++ url
  | none, some marker => "; " ++ marker
  | none, none => ""

/-- The requirement without its digests. -/
def renderSpec (r : Requirement) : String :=
  r.name ++ r.renderExtras ++ ",".intercalate (r.constraints.map Constraint.render)
    ++ r.renderTarget

def renderHashes (hashes : List String) : String :=
  String.join (hashes.map (" --hash=" ++ ·))

def render (r : Requirement) : String := r.renderSpec ++ renderHashes r.hashes

end Requirement

end PinFile
