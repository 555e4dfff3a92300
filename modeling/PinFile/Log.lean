import PinFile.Text

/-!
# The log

A run leaves events behind, and a filter says which of them are shown.
-/

namespace PinFile.Log

open Text

/-!
## Log events

An event has a level, the part of the program that it comes from, a message, and named values.
-/

/-- From the gravest to the most detailed. -/
inductive Level where
  | error
  | warn
  | info
  | debug
  | trace
  deriving DecidableEq, Repr, Inhabited

namespace Level

/-- How much detail a level stands for. -/
def detail : Level → Nat
  | error => 1
  | warn => 2
  | info => 3
  | debug => 4
  | trace => 5

def name : Level → String
  | error => "ERROR"
  | warn => "WARN"
  | info => "INFO"
  | debug => "DEBUG"
  | trace => "TRACE"

end Level

structure Event where
  level : Level
  target : String
  message : String
  values : List (String × String)
  deriving DecidableEq, Repr

def Event.render (e : Event) : String :=
  e.level.name ++ " " ++ e.target ++ ": " ++ e.message
    ++ String.join (e.values.map fun value => " " ++ value.1 ++ "=" ++ value.2)

/-- The program as a whole. -/
def program : String := "pin_raider"

/-- A part of the program. -/
def part (name : String) : String := program ++ "::" ++ name

/-!
## Log filters

A filter says how much detail is shown of each part of the program. It is written as directives
with commas between them: a level alone is for all parts, `part=level` for those whose name starts
with `part`, and a part alone shows all of it. The longest part that fits decides, and of two
directives for one part the later one. A filter without directives shows errors.
-/

structure Directive where
  /-- The start of the names it is for. -/
  target : Option String
  detail : Nat
  deriving DecidableEq, Repr

namespace Directive

/-- The detail that a word asks for. -/
def detail? (word : String) : Option Nat :=
  match word.toLower with
  | "off" | "0" => some 0
  | "error" | "1" => some 1
  | "warn" | "2" => some 2
  | "info" | "3" => some 3
  | "debug" | "4" => some 4
  | "trace" | "5" => some 5
  | _ => none

def isTargetChar (c : Char) : Bool := c.isAlphanum || c == '_' || c == ':' || c == '-'

def isTarget (cs : List Char) : Bool := !cs.isEmpty && cs.all isTargetChar

/-- Reads one directive. -/
def parse? (cs : List Char) : Option Directive :=
  match detail? (String.ofList cs) with
  | some detail => some ⟨none, detail⟩
  | none =>
    let (target, level) := (cut? (· == '=') cs).getD (cs, [])
    if isTarget target then
      if level.isEmpty then some ⟨some (String.ofList target), 5⟩
      else (detail? (String.ofList level)).map fun detail => ⟨some (String.ofList target), detail⟩
    else none

/-- How long the start is that has to fit; no target is less than an empty one. -/
def weight (d : Directive) : Nat := (d.target.map fun t => t.length + 1).getD 0

def fits (d : Directive) (target : String) : Bool :=
  d.target.all fun start => start.toList.isPrefixOf target.toList

end Directive

structure Filter where
  directives : List Directive
  deriving DecidableEq, Repr

namespace Filter

/-- Errors of all parts. -/
def errors : Filter := ⟨[⟨none, 1⟩]⟩

/-- Warnings, and more of the program itself as it is asked to be more verbose. -/
def ofVerbosity (verbosity : Nat) : Filter :=
  ⟨[⟨none, 2⟩, ⟨some program, min (verbosity + 2) 5⟩]⟩

def parse? (text : String) : Option Filter := do
  let words := (text.toList.splitOn ',').filter (!·.isEmpty)
  if words.isEmpty then return errors
  return ⟨← words.mapM Directive.parse?⟩

/-- The directive that decides about a target: the weightiest, and the last of those. -/
def deciding? (f : Filter) (target : String) : Option Directive :=
  (f.directives.filter (·.fits target)).foldl
    (fun best d => if best.any (d.weight < ·.weight) then best else some d) none

def shows (f : Filter) (e : Event) : Bool :=
  (f.deciding? e.target).any (e.level.detail ≤ ·.detail)

end Filter

end PinFile.Log
