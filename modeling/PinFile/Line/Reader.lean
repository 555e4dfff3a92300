import PinFile.Line
import PinFile.Requirement.Reader
import PinFile.Text

/-!
# Reading lines

A line without its outer blanks is blank, a comment, or an entry: an installer option or a
requirement.
-/

namespace PinFile

open Text

/-!
## Installer options

The options that a line may hold instead of a requirement. A value follows its flag after blanks
or, for a long flag, after `=`; it may be glued to a short flag. Three of the options are entries
of their own: the editable install and the two kinds of inclusion.
-/

/-- An option that the installer knows. -/
structure OptionForm where
  short : Option String
  long : String
  takesValue : Bool
  deriving DecidableEq, Repr

namespace OptionForm

def editable : OptionForm := ⟨some "-e", "--editable", true⟩

def requirement : OptionForm := ⟨some "-r", "--requirement", true⟩

def constraint : OptionForm := ⟨some "-c", "--constraint", true⟩

def known : List OptionForm :=
  [editable, requirement, constraint,
   ⟨some "-i", "--index-url", true⟩,
   ⟨none, "--extra-index-url", true⟩,
   ⟨none, "--no-index", false⟩,
   ⟨some "-f", "--find-links", true⟩,
   ⟨none, "--pre", false⟩,
   ⟨none, "--prefer-binary", false⟩,
   ⟨none, "--only-binary", true⟩,
   ⟨none, "--no-binary", true⟩,
   ⟨none, "--require-hashes", false⟩,
   ⟨none, "--trusted-host", true⟩,
   ⟨none, "--use-feature", true⟩]

def named? (flag : List Char) : Option OptionForm :=
  known.find? fun o => o.long.toList == flag || o.short.any (·.toList == flag)

/-- The option whose short flag a word starts with, when a value is glued to it. -/
def glued? (word : List Char) : Option OptionForm :=
  if ['-', '-'].isPrefixOf word || word.length ≤ 2 then none
  else known.find? fun o => o.takesValue && o.short.any (·.toList.isPrefixOf word)

/-- The entry that the option is with a value, or without one. -/
def entry (o : OptionForm) (value : Option String) : Except LineError Entry :=
  match o.takesValue, value with
  | true, none => .error (.missingOptionValue o.long)
  | false, some _ => .error (.unexpectedOptionValue o.long)
  | false, none => .ok (.option ⟨o.long, none⟩)
  | true, some value =>
    if o = editable then ((Editable.ofTarget value).mapError .part).map .editable
    else if o = requirement then .ok (.includeFile ⟨.requirements, value⟩)
    else if o = constraint then .ok (.includeFile ⟨.constraints, value⟩)
    else .ok (.option ⟨o.long, some value⟩)

/-- A value without the blanks around it; an empty one is none. -/
def value? (cs : List Char) : Option String :=
  let value := trim cs
  if value.isEmpty then none else some (String.ofList value)

/-- Cuts a line into its flag and the text that holds the value: a long flag ends at `=`. -/
def flagAndValue (word rest : List Char) : List Char × List Char :=
  match cut? (· == '=') word with
  | some (flag, value) =>
    if ['-', '-'].isPrefixOf flag then (flag, value ++ rest) else (word, rest)
  | none => (word, rest)

/-- Reads a line that starts with a hyphen. -/
def readEntry (cs : List Char) : Except LineError Entry :=
  let word := cs.takeWhile (!isBlank ·)
  let rest := cs.dropWhile (!isBlank ·)
  let (flag, value) := flagAndValue word rest
  match named? flag with
  | some o => o.entry (value? value)
  | none =>
    match glued? word with
    | some o => o.entry (value? (cs.drop 2))
    | none => .error (.unknownOption (String.ofList flag))

end OptionForm

end PinFile

namespace PinFile.Line

open Text

/-!
## Entries and comments

Behind an entry, the first run of blanks before `#` starts a comment that goes to the end of the
line.
-/

/-- The text of a comment that starts here: `#` and no further end of line. -/
def commentHere? : List Char → Option (List Char)
  | '#' :: cs => if cs.contains '\n' then none else some cs
  | _ => none

/-- Cuts an entry from the comment behind it. -/
def splitComment : List Char → List Char × Option (List Char)
  | [] => ([], none)
  | c :: cs =>
    match if isBlank c then commentHere? (trimStart cs) else none with
    | some comment => ([], some comment)
    | none =>
      let (body, comment) := splitComment cs
      (c :: body, comment)

def readEntry (cs : List Char) : Except LineError Entry :=
  if cs.head? == some '-' then OptionForm.readEntry cs
  else (Requirement.readChars cs).map .requirement

/-- Reads a logical line that starts on the physical line `number`. -/
def readChars (cs : List Char) (number : Nat) : Except ParseError Line :=
  let line := trim cs
  if line.isEmpty then .ok ⟨number, .blank, none⟩
  else if line.head? == some '#' then .ok ⟨number, .comment (String.ofList line), none⟩
  else
    let (body, comment) := splitComment line
    match readEntry body with
    | .error cause => .error ⟨number, cause⟩
    | .ok entry => .ok ⟨number, entry, comment.map fun c => String.ofList (trim c)⟩

def parse (text : String) (number : Nat) : Except ParseError Line :=
  readChars text.toList number

end PinFile.Line
