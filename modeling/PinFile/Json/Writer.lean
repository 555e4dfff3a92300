import PinFile.Datum
import PinFile.Json.Strings
import PinFile.Text

/-!
# Writing JSON

A list or record takes one line for each member, two spaces further in for each level; an empty
one takes no lines of its own. There is no end of line behind the text.
-/

namespace PinFile.Json

open Text

def newline (depth : Nat) : List Char := '\n' :: List.replicate (2 * depth) ' '

def writeString (s : String) : List Char := '"' :: escape s.toList ++ ['"']

mutual

/-- Writes a datum whose first line has the given depth. -/
def write (depth : Nat) : Datum → List Char
  | .null | .other | .broken => ['n', 'u', 'l', 'l']
  | .nat n => decimal n
  | .text s => writeString s
  | .list [] => ['[', ']']
  | .list (item :: items) =>
    '[' :: newline (depth + 1) ++ write (depth + 1) item ++ writeItems depth items
  | .record [] => ['\x7b', '\x7d']
  | .record ((key, value) :: fields) =>
    '\x7b' :: newline (depth + 1) ++ writeString key ++ [':', ' '] ++ write (depth + 1) value
      ++ writeFields depth fields

/-- The items behind the first one, and the end of the list. -/
def writeItems (depth : Nat) : List Datum → List Char
  | [] => newline depth ++ [']']
  | item :: items =>
    ',' :: newline (depth + 1) ++ write (depth + 1) item ++ writeItems depth items

/-- The fields behind the first one, and the end of the record. -/
def writeFields (depth : Nat) : List (String × Datum) → List Char
  | [] => newline depth ++ ['\x7d']
  | (key, value) :: fields =>
    ',' :: newline (depth + 1) ++ writeString key ++ [':', ' '] ++ write (depth + 1) value
      ++ writeFields depth fields

end

def render (d : Datum) : String := String.ofList (write 0 d)

end PinFile.Json
