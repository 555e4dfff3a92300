import PinFile.Bson.Document
import PinFile.Datum.Manifest
import PinFile.Text

/-!
# Manifests as BSON

A file holds one document with the manifest in its field `manifest`.
-/

namespace PinFile.Bson

open Text

/-!
## Reading BSON

A document ends where its length says, with a zero byte; bytes behind it are not looked at. All
kinds of values are accepted, but only texts, numbers, documents, lists and null have a meaning.
-/

/-- Cuts `n` bytes off the start. -/
def take? (n : Nat) (bs : Bytes) : Option (Bytes × Bytes) :=
  if n ≤ bs.length then some (bs.take n, bs.drop n) else none

/-- The number with the given bytes, the lowest first. -/
def ofLittleEndian : Bytes → Nat
  | [] => 0
  | b :: bs => b.toNat + 256 * ofLittleEndian bs

/-- Cuts a length off the start; its highest bit is a sign and has to be zero. -/
def length? (bs : Bytes) : Option (Nat × Bytes) := do
  let (head, rest) ← take? 4 bs
  let n := ofLittleEndian head
  if n < Nat.pow 2 31 then some (n, rest) else none

/-- Cuts a text up to a zero byte off the start. -/
def key? (bs : Bytes) : Option (String × Bytes) :=
  match bs.dropWhile (· != 0) with
  | [] => none
  | _ :: rest => (ofUtf8? (bs.takeWhile (· != 0))).map (·, rest)

/-- Cuts a text behind its length off the start. -/
def text? (bs : Bytes) : Option (String × Bytes) := do
  let (n, rest) ← length? bs
  let (body, rest) ← take? n rest
  if body.getLast? = some 0 then (ofUtf8? body.dropLast).map (·, rest) else none

/-- Skips `n` bytes that nobody asks for. -/
def skip? (n : Nat) (bs : Bytes) : Option (Datum × Bytes) :=
  (take? n bs).map fun (_, rest) => (.other, rest)

/-- A whole number of `width` bytes; a negative one has no meaning. -/
def integer? (width : Nat) (bs : Bytes) : Option (Datum × Bytes) :=
  (take? width bs).map fun (body, rest) =>
    let n := ofLittleEndian body
    (if n < Nat.pow 256 width / 2 then .nat n else .other, rest)

/-- Skips bytes behind their length and a byte for their use; of the use 2, they start with the
length of the others. -/
def binary? (bs : Bytes) : Option (Datum × Bytes) := do
  let (n, rest) ← length? bs
  let (body, rest) ← take? (n + 1) rest
  if body.head? = some 2 && ofLittleEndian ((body.drop 1).take 4) + 4 != n then none
  else some (.other, rest)

mutual

/-- Cuts a value with a tag off the start; `steps` bounds the number of nested calls. -/
def value? (steps : Nat) (tag : UInt8) (bs : Bytes) : Option (Datum × Bytes) :=
  match steps with
  | 0 => none
  | steps + 1 =>
    match tag.toNat with
    | 0x02 => (text? bs).map fun (s, rest) => (.text s, rest)
    | 0x03 => (document? steps bs).map fun (fields, rest) => (.record (distinct fields), rest)
    | 0x04 => (document? steps bs).map fun (fields, rest) => (.list (fields.map (·.2)), rest)
    | 0x05 => binary? bs
    | 0x06 | 0x7f | 0xff => some (.other, bs)
    | 0x07 => skip? 12 bs
    | 0x08 => do
      let (body, rest) ← take? 1 bs
      if body.all (· ≤ 1) then some (.other, rest) else none
    | 0x01 | 0x09 | 0x11 => skip? 8 bs
    | 0x0a => some (.null, bs)
    | 0x0b => do
      let (_, rest) ← key? bs
      let (_, rest) ← key? rest
      return (.other, rest)
    | 0x0c => do
      let (_, rest) ← text? bs
      skip? 12 rest
    | 0x0d | 0x0e => (text? bs).map fun (_, rest) => (.other, rest)
    | 0x0f => do
      let (n, rest) ← length? bs
      let (body, after) ← take? (n - 4) rest
      let (_, scope) ← text? body
      let (_, left) ← document? steps scope
      if left.isEmpty then some (.other, after) else none
    | 0x10 => integer? 4 bs
    | 0x12 => integer? 8 bs
    | 0x13 => skip? 16 bs
    | _ => none

/-- Cuts a document off the start. -/
def document? (steps : Nat) (bs : Bytes) : Option (List (String × Datum) × Bytes) :=
  match steps with
  | 0 => none
  | steps + 1 => do
    let (n, rest) ← length? bs
    let (body, rest) ← take? (n - 4) rest
    let fields ← fields? steps body
    return (fields, rest)

/-- Reads fields up to the zero byte that has to be the last one. -/
def fields? (steps : Nat) (bs : Bytes) : Option (List (String × Datum)) :=
  match steps with
  | 0 => none
  | steps + 1 =>
    match bs with
    | [] => none
    | tag :: rest =>
      if tag = 0 then (if rest.isEmpty then some [] else none)
      else do
        let (key, rest) ← key? rest
        let (value, rest) ← value? steps tag rest
        let fields ← fields? steps rest
        return (key, value) :: fields

end

/-- Reads a document at the start of a file. -/
def parse? (bs : Bytes) : Option Fields :=
  (document? (3 * bs.length + 3) bs).map fun (fields, _) => distinct fields

end PinFile.Bson

namespace PinFile

open Text

/-! ## Manifests -/

inductive BsonError where
  | unreadable
  | missingManifest
  deriving DecidableEq, Repr

def BsonError.message : BsonError → String
  | unreadable => "invalid BSON document"
  | missingManifest => "BSON document has no `manifest` field"

namespace Manifest

def toBson? (m : Manifest) : Option Bytes :=
  Bson.write? (.record [("manifest", m.toDatum)])

def ofBson (bs : Bytes) : Except BsonError Manifest :=
  match Bson.parse? bs with
  | none => .error .unreadable
  | some fields =>
    match fields.find? (·.1 == "manifest") with
    | none => .error .missingManifest
    | some (_, d) =>
      match ofDatum? d with
      | some m => .ok m
      | none => .error .unreadable

end Manifest

end PinFile
