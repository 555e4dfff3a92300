import PinFile.Datum
import PinFile.Text

/-!
# BSON documents

A document has each key once: a field that is named again replaces the value of the first one
and stays in its place.
-/

namespace PinFile.Bson

open Text

abbrev Fields := List (String × Datum)

/-- Replaces the value of a key that is there, or adds the field at the end. -/
def put (fields : Fields) (key : String) (value : Datum) : Fields :=
  if fields.any (·.1 == key) then
    fields.map fun field => if field.1 == key then (key, value) else field
  else fields ++ [(key, value)]

/-- The fields with each key once. -/
def distinct (fields : Fields) : Fields :=
  fields.foldl (fun fields field => put fields field.1 field.2) []

mutual

/-- The datum with each key once in all of its records. -/
def merge : Datum → Datum
  | .list items => .list (mergeItems items)
  | .record fields => .record (distinct (mergeFields fields))
  | d => d

def mergeItems : List Datum → List Datum
  | [] => []
  | item :: items => merge item :: mergeItems items

def mergeFields : List (String × Datum) → List (String × Datum)
  | [] => []
  | (key, value) :: fields => (key, merge value) :: mergeFields fields

end

theorem put_of_not_mem {fields : Fields} {key : String} {value : Datum}
    (h : ∀ field ∈ fields, field.1 ≠ key) : put fields key value = fields ++ [(key, value)] := by
  have : fields.any (·.1 == key) = false := by simpa using h
  simp [put, this]

/-!
## Writing BSON

A document is its length in bytes, its fields, and a zero byte; a field is a tag for the kind of
its value, its key with a zero byte behind it, and the value. A list is a document whose keys
count from zero. Numbers take eight bytes, the lowest first, and have to stay below `2 ^ 63`.
-/

/-- The lowest `width` bytes of a number, the lowest first. -/
def littleEndian : Nat → Nat → Bytes
  | 0, _ => []
  | width + 1, n => UInt8.ofNat n :: littleEndian width (n / 256)

def writeKey (key : String) : Bytes := utf8 key ++ [0]

/-- A text behind its length, which counts the zero byte at its end. -/
def writeText (s : String) : Bytes := littleEndian 4 ((utf8 s).length + 1) ++ utf8 s ++ [0]

/-- Wraps fields into a document. -/
def wrap (fields : Bytes) : Bytes := littleEndian 4 (fields.length + 5) ++ fields ++ [0]

/-- The largest number that is written. -/
def maxNat : Nat := Nat.pow 2 63 - 1

def tag : Datum → UInt8
  | .text _ => 0x02
  | .record _ => 0x03
  | .list _ => 0x04
  | .nat _ => 0x12
  | .null | .other | .broken => 0x0a

mutual

/-- The bytes of a value, without its tag. -/
def writeValue? : Datum → Option Bytes
  | .null => some []
  | .nat n => if n ≤ maxNat then some (littleEndian 8 n) else none
  | .text s => some (writeText s)
  | .list items => (writeItems? 0 items).map wrap
  | .record fields => (writeFields? fields).map wrap
  | .other | .broken => none

/-- The items of a list as fields with keys from `i` on. -/
def writeItems? (i : Nat) : List Datum → Option Bytes
  | [] => some []
  | item :: items => do
    let value ← writeValue? item
    let rest ← writeItems? (i + 1) items
    return tag item :: writeKey (toString i) ++ value ++ rest

def writeFields? : List (String × Datum) → Option Bytes
  | [] => some []
  | (key, d) :: fields => do
    let value ← writeValue? d
    let rest ← writeFields? fields
    return tag d :: writeKey key ++ value ++ rest

end

/-- The document of a datum, when all its numbers can be written. -/
def write? (d : Datum) : Option Bytes := writeValue? (merge d)

end PinFile.Bson
