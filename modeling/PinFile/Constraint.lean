import PinFile.Text
import PinFile.Text.Quoted

/-!
# Version constraints

A constraint is a comparison operator and a version. What is wrong with one, or with another part
of a specifier, is a `SpecError`.
-/

namespace PinFile

open Text

/-!
## Comparison operators

The eight operators that a version constraint may start with.
-/

inductive Operator where
  | arbitraryEqual
  | equal
  | notEqual
  | compatible
  | atMost
  | atLeast
  | less
  | greater
  deriving DecidableEq, Repr, Inhabited

namespace Operator

def symbol : Operator → String
  | arbitraryEqual => "==="
  | equal => "=="
  | notEqual => "!="
  | compatible => "~="
  | atMost => "<="
  | atLeast => ">="
  | less => "<"
  | greater => ">"

/-- All operators, in the order in which a constraint tries them: one symbol that starts another
comes after it. -/
def byLength : List Operator :=
  [arbitraryEqual, compatible, equal, notEqual, atMost, atLeast, less, greater]

def ofSymbol? (text : String) : Option Operator := byLength.find? (·.symbol == text)

/-- The operator asks for one version. -/
def isExact : Operator → Bool
  | equal | arbitraryEqual => true
  | _ => false

/-- The operator can compare with all versions under one head, such as `1.4.*`. -/
def allowsWildcard : Operator → Bool
  | equal | notEqual => true
  | _ => false

theorem ofSymbol?_symbol (op : Operator) : ofSymbol? op.symbol = some op := by
  cases op <;> decide

end Operator

/-!
## Faults of a specifier's parts

Why a name, an extra, a version, an operator or an editable target is refused.
-/

inductive SpecError where
  | invalidName (name : String)
  | invalidExtra (extra : String)
  | invalidVersion (version : String)
  | wildcardNotAllowed (operator : Operator) (version : String)
  | unknownOperator (text : String)
  | emptyEditableTarget
  deriving DecidableEq, Repr

def SpecError.message : SpecError → String
  | invalidName name => "invalid package name: " ++ Text.quote name
  | invalidExtra extra => "invalid extra name: " ++ Text.quote extra
  | invalidVersion version => "invalid version: " ++ Text.quote version
  | wildcardNotAllowed operator version =>
    "wildcard version " ++ Text.quote version ++ " is only allowed with == or !=, not "
      ++ operator.symbol
  | unknownOperator text => "unknown version operator: " ++ Text.quote text
  | emptyEditableTarget => "editable install target must not be empty"

/-!
## Constraints

The version of a constraint is made of dotted parts of letters, digits and a few signs, with a
final `.*` where the operator allows a wildcard.
-/

structure Constraint where
  operator : Operator
  version : String
  deriving DecidableEq, Repr, Inhabited

namespace Constraint

/-- The dotted parts without a wildcard behind them. -/
def plainParts (parts : List (List Char)) : List (List Char) :=
  if 1 < parts.length && parts.getLast? == some ['*'] then parts.dropLast else parts

def isVersionChars (cs : List Char) : Bool :=
  (plainParts (cs.splitOn '.')).all fun part => !part.isEmpty && part.all isVersionChar

def isVersion (version : String) : Bool := isVersionChars version.toList

def hasWildcard (version : String) : Bool := ['.', '*'].isSuffixOf version.toList

def ofParts (operator : Operator) (version : String) : Except SpecError Constraint :=
  if !isVersion version then .error (.invalidVersion version)
  else if hasWildcard version && !operator.allowsWildcard then
    .error (.wildcardNotAllowed operator version)
  else .ok ⟨operator, version⟩

def ofStrings (operator version : String) : Except SpecError Constraint :=
  match Operator.ofSymbol? operator with
  | none => .error (.unknownOperator operator)
  | some op => ofParts op version

def render (c : Constraint) : String := c.operator.symbol ++ c.version

theorem ofParts_eq_ok {operator : Operator} {version : String} {c : Constraint}
    (h : ofParts operator version = .ok c) : c = ⟨operator, version⟩ := by
  unfold ofParts at h
  split at h
  · cases h
  · split at h
    · cases h
    · cases h; rfl

end Constraint

end PinFile
