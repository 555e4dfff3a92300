import PinFile.Constraint
import PinFile.Requirement
import PinFile.Text

/-!
# Reading requirements

A specifier is a name, extras in brackets, and then either `@` with a URL or a list of
constraints; a marker may follow after `;`. Digests come last, as `--hash` options: the option
tail of a line begins at the first run of blanks before `--` that stands outside quotes.
-/

namespace PinFile

/-!
## Faults of a line

Why a line is refused, and the number of the logical line that a fault was found on.
-/

inductive LineError where
  | malformed (spec : String)
  | part (cause : SpecError)
  | invalidConstraint (text : String)
  | emptyMarker
  | missingUrl
  | trailingText (text : String)
  | unknownOption (flag : String)
  | missingOptionValue (flag : String)
  | unexpectedOptionValue (flag : String)
  | unexpectedRequirementOption (flag : String)
  | invalidHash (text : String)
  deriving DecidableEq, Repr

def LineError.message : LineError → String
  | malformed spec => "malformed requirement: " ++ Text.quote spec
  | part cause => cause.message
  | invalidConstraint text => "invalid version constraint: " ++ Text.quote text
  | emptyMarker => "environment marker after ';' is empty"
  | missingUrl => "direct reference is missing its URL after '@'"
  | trailingText text => "unexpected text after direct reference: " ++ Text.quote text
  | unknownOption flag => "unknown option: " ++ flag
  | missingOptionValue flag => "option " ++ flag ++ " requires a value"
  | unexpectedOptionValue flag => "option " ++ flag ++ " does not take a value"
  | unexpectedRequirementOption flag =>
    "option " ++ flag ++ " is not allowed after a requirement (only --hash is)"
  | invalidHash text =>
    "invalid hash " ++ Text.quote text ++ ", expected <algorithm>:<hex digest>"

structure ParseError where
  line : Nat
  cause : LineError
  deriving DecidableEq, Repr

def ParseError.message (e : ParseError) : String :=
  "line " ++ toString e.line ++ ": " ++ e.cause.message

end PinFile

namespace PinFile.Requirement

open Text

/-! ## Specifiers -/

/-! ## The option tail -/

/-- The quote that is open behind `c`, when `quote` is open before it. -/
def quoteAfter (quote : Option Char) (c : Char) : Option Char :=
  match quote with
  | some q => if c = q then none else some q
  | none => if c = '"' ∨ c = '\'' then some c else none

/-- A blank outside quotes whose run of blanks goes on to `--`. -/
def startsOptions (quote : Option Char) (c : Char) (rest : List Char) : Bool :=
  quote.isNone && isBlank c && ['-', '-'].isPrefixOf (trimStart rest)

/-- Cuts a text before its option tail; `quote` is the quote that is open where it starts. -/
def splitOptions (quote : Option Char) : List Char → List Char × Option (List Char)
  | [] => ([], none)
  | c :: cs =>
    if startsOptions quote c cs then ([], some (c :: cs))
    else
      let (spec, options) := splitOptions (quoteAfter quote c) cs
      (c :: spec, options)

/-! ## The head -/

/-- The parts of a specifier: its name, the text in brackets, and what follows. -/
structure Head where
  name : List Char
  extras : Option (List Char)
  rest : List Char
  deriving DecidableEq, Repr

/-- Cuts a bracket group off the start of a text. -/
def bracketGroup? : List Char → Option (List Char × List Char)
  | '[' :: cs => cut? (· == ']') cs
  | _ => none

/-- A specifier starts with a letter or digit, and what follows its brackets is one line. -/
def head? (cs : List Char) : Option Head :=
  let name := cs.takeWhile isNameChar
  let after := trimStart (cs.dropWhile isNameChar)
  let head : Head :=
    match bracketGroup? after with
    | some (extras, rest) => ⟨name, some extras, trimStart rest⟩
    | none => ⟨name, none, after⟩
  if name.head?.any isLetterOrDigit && !head.rest.contains '\n' then some head else none

/-- The extras between brackets; empty items are skipped. -/
def readExtras (r : Requirement) (cs : List Char) : Except LineError Requirement :=
  (((cs.splitOn ',').map trim).filter (!·.isEmpty)).foldlM
    (fun r extra => (r.addExtra (String.ofList extra)).mapError .part) r

/-! ## Constraints, markers and URLs -/

/-- The first operator that leaves a text without blanks behind it. -/
def operatorSplit? (cs : List Char) : Option (Operator × List Char) :=
  Operator.byLength.findSome? fun op =>
    match op.symbol.toList.isPrefixOf? cs with
    | none => none
    | some rest =>
      let version := trimStart rest
      if version.isEmpty || version.any isBlank then none else some (op, version)

def readConstraint (cs : List Char) : Except LineError Constraint :=
  match operatorSplit? cs with
  | none => .error (.invalidConstraint (String.ofList cs))
  | some (op, version) => (Constraint.ofParts op (String.ofList version)).mapError .part

/-- Takes off one pair of parentheses around a whole text. -/
def dropParens (cs : List Char) : List Char :=
  match cs with
  | '(' :: inner => if inner.getLast? = some ')' then trim inner.dropLast else cs
  | _ => cs

def readConstraints (cs : List Char) : Except LineError (List Constraint) :=
  let spec := trim cs
  if spec.isEmpty then .ok []
  else ((dropParens spec).splitOn ',').mapM fun c => readConstraint (trim c)

/-- The text after `;`, which must not be empty. -/
def readMarker (cs : List Char) : Except LineError String :=
  let marker := trim cs
  if marker.isEmpty then .error .emptyMarker else .ok (String.ofList marker)

/-- Constraints, and a marker behind the first `;`. -/
def readVersions (r : Requirement) (cs : List Char) : Except LineError Requirement :=
  match cut? (· == ';') cs with
  | none => do
    let constraints ← readConstraints cs
    return { r with constraints }
  | some (spec, marker) => do
    let marker ← readMarker marker
    let constraints ← readConstraints (trim spec)
    return { r with constraints, marker := some marker }

/-- A URL up to the first blank, and a marker after `;`. -/
def readReference (r : Requirement) (cs : List Char) : Except LineError Requirement :=
  let (url, rest) := (cut? isBlank cs).getD (cs, [])
  let rest := trim rest
  if url.isEmpty || url.head? == some ';' then .error .missingUrl
  else
    let r := { r with url := some (String.ofList url) }
    match rest with
    | [] => .ok r
    | ';' :: marker => do
      let marker ← readMarker marker
      return { r with marker := some marker }
    | _ => .error (.trailingText (String.ofList rest))

/-! ## Digests -/

/-- An algorithm and a hexadecimal digest with a colon between them. -/
def isHash (cs : List Char) : Bool :=
  match cut? (· == ':') cs with
  | none => false
  | some (algorithm, digest) =>
    !algorithm.isEmpty && algorithm.all isLetterOrDigit && !digest.isEmpty && digest.all isHexDigit

def readHash (cs : List Char) : Except LineError String :=
  if isHash cs then .ok (String.ofList cs) else .error (.invalidHash (String.ofList cs))

/-- The digests in the words of an option tail: `--hash=D` or `--hash` and `D`. -/
def readHashes : List (List Char) → Except LineError (List String)
  | [] => .ok []
  | word :: rest =>
    match "--hash=".toList.isPrefixOf? word with
    | some digest => do
      let hash ← readHash digest
      return hash :: (← readHashes rest)
    | none =>
      if word = "--hash".toList then
        match rest with
        | [] => .error (.missingOptionValue "--hash")
        | digest :: rest => do
          let hash ← readHash digest
          return hash :: (← readHashes rest)
      else
        .error (.unexpectedRequirementOption (String.ofList (word.takeWhile (· != '='))))

/-! ## Whole requirements -/

/-- A specifier without its option tail. -/
def readSpec (cs : List Char) : Except LineError Requirement :=
  match head? cs with
  | none => .error (.malformed (String.ofList cs))
  | some head => do
    let r ← (ofName (String.ofList head.name)).mapError .part
    let r ← readExtras r (head.extras.getD [])
    match trim head.rest with
    | '@' :: reference => readReference r (trim reference)
    | rest => readVersions r rest

def readChars (cs : List Char) : Except LineError Requirement :=
  let (spec, options) := splitOptions none cs
  match options with
  | none => readSpec (trim spec)
  | some options => do
    let r ← readSpec (trim spec)
    let hashes ← readHashes (words options)
    return { r with hashes }

/-- Reads a requirement such as `uvicorn[standard]==0.17.6`. -/
def parse (text : String) : Except LineError Requirement := readChars text.toList

end PinFile.Requirement
