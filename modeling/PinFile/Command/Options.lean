import PinFile.Files.Tree
import PinFile.Text

/-!
# Command-line options

An option is given by its long name, with a value behind `=` or in the next argument, or by a
letter; letters without values may be joined, and a value may be glued to the last one. A value
that starts with a hyphen has to be joined to its option. After `--` all arguments are operands.
Only options that count may be given twice. A value that will not do, or an operand too many, is
refused where it stands, in front of a call for help that comes behind it.
-/

namespace PinFile.Command

open Text

/-- Why the arguments ask for nothing that can be done, or for information alone. -/
inductive Refusal where
  | usage
  | help
  | version
  deriving DecidableEq, Repr

/-- What the value of an option has to be. -/
inductive ValueKind where
  /-- A path, which is not empty. -/
  | path
  /-- A text that is spelled in UTF-8. The names of `raw` are not. -/
  | text (raw : List String)
  | word (words : List String)
  deriving DecidableEq, Repr

def ValueKind.accepts : ValueKind → String → Bool
  | path, value => !value.isEmpty
  | text raw, value => Path.isSpelled raw value
  | word words, value => words.contains value

inductive Arity where
  | flag
  | count
  | value (kind : ValueKind)
  /-- Stops the reading there. -/
  | stop (answer : Refusal)
  deriving DecidableEq, Repr

structure OptionRule where
  long : String
  short : Option Char
  arity : Arity
  deriving DecidableEq, Repr

def OptionRule.accepts (rule : OptionRule) (value : String) : Bool :=
  match rule.arity with
  | .value kind => kind.accepts value
  | _ => true

/-- The options of one level, and how many operands it has at most; without such a number a
subcommand has to follow. -/
structure LevelRules where
  options : List OptionRule
  operands : Option Nat
  deriving DecidableEq, Repr

/-- The options given so far, by their long names, and the operands. -/
structure Given where
  options : List (String × String)
  operands : List String
  deriving DecidableEq, Repr

namespace Given

def none : Given := ⟨[], []⟩

def has (g : Given) (long : String) : Bool := g.options.any (·.1 == long)

def count (g : Given) (long : String) : Nat := g.options.countP (·.1 == long)

def value? (g : Given) (long : String) : Option String :=
  (g.options.find? (·.1 == long)).map (·.2)

def put (g : Given) (rule : OptionRule) (value : String) : Given :=
  { g with options := g.options ++ [(rule.long, value)] }

/-- Adds an option, which must not be there unless it counts. -/
def add (g : Given) (rule : OptionRule) (value : String) : Except Refusal Given :=
  if (rule.arity == .count || !g.has rule.long) && rule.accepts value then .ok (g.put rule value)
  else .error .usage

/-- Adds operands, of which there must not be more than a number. None of them is empty. -/
def addOperands (g : Given) (most : Nat) (operands : List String) : Except Refusal Given :=
  if g.operands.length + operands.length ≤ most && operands.all (!·.isEmpty) then
    .ok { g with operands := g.operands ++ operands }
  else .error .usage

/-- An option that was put could have been added. -/
def isSound (g : Given) (rules : List OptionRule) : Bool :=
  rules.all fun rule => (rule.arity == .count || g.count rule.long ≤ 1) &&
    (g.value? rule.long).all rule.accepts

end Given

/-- The next argument can be the value of an option. -/
def isValue (arg : String) : Bool := arg == "-" || arg.toList.head? != some '-'

/-- Reads joined letters. The rule in the result is of an option that waits for its value. -/
def readLetters (rules : List OptionRule) (g : Given) :
    List Char → Except Refusal (Given × Option OptionRule)
  | [] => .ok (g, none)
  | c :: cs =>
    match rules.find? (·.short == some c) with
    | none => .error .usage
    | some rule =>
      match rule.arity with
      | .stop answer => .error answer
      | .flag | .count => do readLetters rules (← g.add rule "") cs
      | .value _ =>
        match cs with
        | [] => .ok (g, some rule)
        | '=' :: value | value => do return (← g.add rule (String.ofList value), none)

/-- Reads a long name with what stands behind `=`. -/
def readLong (rules : List OptionRule) (g : Given) (cs : List Char) :
    Except Refusal (Given × Option OptionRule) :=
  let (name, value) :=
    match cut? (· == '=') cs with
    | some (name, value) => (name, some (String.ofList value))
    | none => (cs, none)
  match rules.find? (·.long.toList == name) with
  | none => .error .usage
  | some rule =>
    match rule.arity, value with
    | .value _, none => .ok (g, some rule)
    | .value _, some value => do return (← g.add rule value, none)
    | _, some _ => .error .usage
    | .stop answer, none => .error answer
    | .flag, none | .count, none => do return (← g.add rule "", none)

/-- Gives an option the next argument as its value. A value right in front of a subcommand is
looked at behind it. -/
def addNext (level : LevelRules) (g : Given) (rule : OptionRule) (value : String)
    (rest : List String) : Except Refusal Given :=
  if !isValue value then .error .usage
  else if level.operands.isNone && rest.head?.any isValue then .ok (g.put rule value)
  else g.add rule value

/-- Reads options and operands. Where a subcommand has to follow, the first operand is its name,
and the arguments from there on are left over. -/
def readOptions (level : LevelRules) (g : Given) :
    List String → Except Refusal (Given × List String)
  | [] => .ok (g, [])
  | arg :: rest =>
    let read (r : Except Refusal (Given × Option OptionRule)) :
        Except Refusal (Given × List String) :=
      match r, rest with
      | .error e, _ => .error e
      | .ok (g, none), rest => readOptions level g rest
      | .ok (_, some _), [] => .error .usage
      | .ok (g, some rule), value :: rest =>
        match addNext level g rule value rest with
        | .error e => .error e
        | .ok g => readOptions level g rest
    match arg.toList with
    | ['-', '-'] =>
      match level.operands with
      | none => .error .usage
      | some most => do return (← g.addOperands most rest, [])
    | '-' :: '-' :: name => read (readLong level.options g name)
    | '-' :: c :: letters => read (readLetters level.options g (c :: letters))
    | _ =>
      match level.operands with
      | none => .ok (g, arg :: rest)
      | some most =>
        match g.addOperands most [arg] with
        | .error e => .error e
        | .ok g => readOptions level g rest

end PinFile.Command
