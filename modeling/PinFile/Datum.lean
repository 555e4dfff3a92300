/-!
# Data

What a data format holds: numbers, texts, lists and records. A record keeps the order of its
fields and may name one twice. The readers below take a value out of a datum: a record may hold
fields that nobody asks for, but each of those that are asked for at most once; an optional field
may be missing or null.
-/

namespace PinFile

inductive Datum where
  | null
  | nat (n : Nat)
  | text (s : String)
  | list (items : List Datum)
  | record (fields : List (String × Datum))
  /-- Something that no reader asks for, such as a fraction. -/
  | other
  /-- Something that the format has no value for, such as half of a surrogate pair. -/
  | broken
  deriving Inhabited

namespace Datum

def texts (xs : List String) : Datum := list (xs.map text)

def optionalText : Option String → Datum
  | none => null
  | some s => text s

def nat? : Datum → Option Nat
  | nat n => some n
  | _ => none

def text? : Datum → Option String
  | text s => some s
  | _ => none

/-- A list, each item by its reader. -/
def list? {α : Type} (read : Datum → Option α) : Datum → Option (List α)
  | list items => items.mapM read
  | _ => none

def texts? : Datum → Option (List String) := list? text?

/-- The name of a choice: a text, or a record with one field that holds nothing. -/
def choice? : Datum → Option String
  | text s => some s
  | record [(name, null)] => some name
  | _ => none

/-- The name of a choice inside an entry, where an empty record holds nothing either. -/
def entryChoice? : Datum → Option String
  | record [(name, record [])] => some name
  | d => choice? d

abbrev Fields := List (String × Datum)

def fields? : Datum → Option Fields
  | record fields => some fields
  | _ => none

/-- The values of a field, which should be one at most. -/
def valuesOf (fields : Fields) (key : String) : List Datum :=
  (fields.filter (·.1 == key)).map (·.2)

def field? {α : Type} (fields : Fields) (key : String) (read : Datum → Option α) : Option α :=
  match valuesOf fields key with
  | [d] => read d
  | _ => none

/-- The fields behind one that says what kind of record it is. -/
def without (fields : Fields) (key : String) : Fields := fields.filter (·.1 != key)

def optionalField? {α : Type} (fields : Fields) (key : String) (read : Datum → Option α) :
    Option (Option α) :=
  match valuesOf fields key with
  | [] | [null] => some none
  | [d] => (read d).map some
  | _ => none

mutual

/-- Nothing in the datum is broken. -/
def isSound : Datum → Bool
  | broken => false
  | null | nat _ | text _ | other => true
  | list items => areSoundItems items
  | record fields => areSoundFields fields

def areSoundItems : List Datum → Bool
  | [] => true
  | item :: items => isSound item && areSoundItems items

def areSoundFields : List (String × Datum) → Bool
  | [] => true
  | (_, value) :: fields => isSound value && areSoundFields fields

end

mutual

/-- The datum with every list and record broken that stands `levels` deep or deeper. -/
def limit (levels : Nat) : Datum → Datum
  | list items =>
    match levels with
    | 0 => broken
    | levels + 1 => list (limitItems levels items)
  | record fields =>
    match levels with
    | 0 => broken
    | levels + 1 => record (limitFields levels fields)
  | d => d

def limitItems (levels : Nat) : List Datum → List Datum
  | [] => []
  | item :: items => limit levels item :: limitItems levels items

def limitFields (levels : Nat) : List (String × Datum) → List (String × Datum)
  | [] => []
  | (key, value) :: fields => (key, limit levels value) :: limitFields levels fields

end

end Datum

end PinFile
