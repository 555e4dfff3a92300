import PinFile.Datum
import PinFile.Json.Numbers
import PinFile.Json.Strings

/-!
# Reading JSON

Accepts the JSON grammar and nothing behind the value but white space. A string that stands for
no text, a number too large for double precision, and what is too deep are read as broken: they do
no harm where nobody asks for them.
-/

namespace PinFile.Json

open Text

def skipSpace (cs : List Char) : List Char :=
  cs.dropWhile fun c => c == ' ' || c == '\n' || c == '\t' || c == '\r'

def stringDatum (written : List Char) : Datum :=
  match unescape? written with
  | some cs => .text (String.ofList cs)
  | none => .broken

def numberDatum : Number → Datum
  | .natural n => .nat n
  | .fits => .other
  | .tooLarge => .broken

/-- One key that stands for no text breaks the record. -/
def recordDatum (fields : List (List Char × Datum)) : Datum :=
  match fields.mapM fun field =>
    (unescape? field.1).map fun key => (String.ofList key, field.2) with
  | some fields => .record fields
  | none => .broken

mutual

/-- Cuts a value off the start of a text; `steps` bounds the number of nested calls. -/
def value? (steps : Nat) (cs : List Char) : Option (Datum × List Char) :=
  match steps with
  | 0 => none
  | steps + 1 =>
    match skipSpace cs with
    | 'n' :: 'u' :: 'l' :: 'l' :: rest => some (.null, rest)
    | 't' :: 'r' :: 'u' :: 'e' :: rest => some (.other, rest)
    | 'f' :: 'a' :: 'l' :: 's' :: 'e' :: rest => some (.other, rest)
    | '"' :: rest => (literal? rest).map fun (written, rest) => (stringDatum written, rest)
    | '[' :: rest =>
      match skipSpace rest with
      | ']' :: rest => some (.list [], rest)
      | rest => (items? steps rest).map fun (items, rest) => (.list items, rest)
    | '\x7b' :: rest =>
      match skipSpace rest with
      | '\x7d' :: rest => some (.record [], rest)
      | rest => (fields? steps rest).map fun (fields, rest) => (recordDatum fields, rest)
    | rest => (number? rest).map fun (n, rest) => (numberDatum n, rest)

/-- Cuts one item or more and the end of their list off the start of a text. -/
def items? (steps : Nat) (cs : List Char) : Option (List Datum × List Char) :=
  match steps with
  | 0 => none
  | steps + 1 => do
    let (item, rest) ← value? steps cs
    match skipSpace rest with
    | ']' :: rest => return ([item], rest)
    | ',' :: rest =>
      let (items, rest) ← items? steps rest
      return (item :: items, rest)
    | _ => none

/-- Cuts one field or more and the end of their record off the start of a text; keys are kept as
they are written. -/
def fields? (steps : Nat) (cs : List Char) : Option (List (List Char × Datum) × List Char) :=
  match steps with
  | 0 => none
  | steps + 1 =>
    match skipSpace cs with
    | '"' :: rest => do
      let (key, rest) ← literal? rest
      match skipSpace rest with
      | ':' :: rest =>
        let (value, rest) ← value? steps rest
        match skipSpace rest with
        | '\x7d' :: rest => return ([(key, value)], rest)
        | ',' :: rest =>
          let (fields, rest) ← fields? steps rest
          return ((key, value) :: fields, rest)
        | _ => none
      | _ => none
    | _ => none

end

/-- At most two calls stand between one character and the next. -/
def readChars? (cs : List Char) : Option Datum :=
  match value? (2 * cs.length + 2) cs with
  | some (d, rest) => if (skipSpace rest).isEmpty then some d else none
  | none => none

/-- How many lists and records may stand inside one another. -/
def maxLevels : Nat := 127

def parse? (text : String) : Option Datum := (readChars? text.toList).map (Datum.limit maxLevels)

end PinFile.Json
