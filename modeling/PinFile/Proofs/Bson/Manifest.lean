import PinFile.Bson.Manifest
import PinFile.Proofs.Bson.RoundTrip
import PinFile.Proofs.Datum

/-!
# Manifests read back from BSON

Merging changes the data of a manifest only in its inclusions, and leaves none of those readable.
So a manifest is read back from its file exactly when it includes nothing (`ofBson_toBson?`).
-/

namespace PinFile

open Text Datum Bson

variable {line : Line} {m : Manifest} {bs : Bytes}

/-! ## Keys -/

theorem Entry.areKeys_fields (e : Entry) : AreKeys ("kind" :: e.fields.map (·.1)) := by
  cases e <;> simp only [fields, Requirement.fields, List.map_cons, List.map_nil] <;> decide

theorem Line.keyed_toDatum (line : Line) : Keyed AreKeys line.toDatum := by
  have he : Keyed AreKeys line.entry.toDatum :=
    line.entry.keyed_toDatum line.entry.areKeys_fields (by decide)
  refine .record ?_ ?_
  · show AreKeys ["number", "entry", "comment"]
    decide
  · simp [Keyed.nat, he, keyed_optionalText]

theorem Manifest.keyed_toDatum (m : Manifest) : Keyed AreKeys m.toDatum := by
  have hl : Keyed AreKeys (.list (m.lines.map Line.toDatum)) :=
    keyed_list_map fun line _ => line.keyed_toDatum
  refine .record ?_ ?_
  · show AreKeys ["lines"]
    decide
  · simp [hl]

/-! ## Merged data -/

theorem Entry.nodup_fields {e : Entry} (h : ∀ i, e ≠ .includeFile i) :
    ("kind" :: e.fields.map (·.1)).Nodup := by
  cases e with
  | includeFile i => exact absurd rfl (h i)
  | requirement | editable | option | comment | blank => simp [fields, Requirement.fields]

theorem Entry.merge_toDatum {e : Entry} (h : ∀ i, e ≠ .includeFile i) :
    merge e.toDatum = e.toDatum :=
  merge_of_nodup (e.keyed_toDatum (nodup_fields h) (by decide))

/-- The kind of the inclusion takes the place of the kind of the entry. -/
theorem Entry.ofDatum?_merge_include (i : Include) :
    ofDatum? (merge (toDatum (.includeFile i))) = none := by
  obtain ⟨kind, path⟩ := i
  cases kind <;> rfl

/-! ## Lines -/

theorem Line.merge_toDatum (line : Line) :
    merge line.toDatum = .record [("number", .nat line.number),
      ("entry", merge line.entry.toDatum), ("comment", optionalText line.comment)] := by
  have hm : mergeFields [("number", .nat line.number), ("entry", line.entry.toDatum),
      ("comment", optionalText line.comment)] = [("number", .nat line.number),
      ("entry", merge line.entry.toDatum), ("comment", optionalText line.comment)] := by
    rw [mergeFields_eq_map]
    simp only [List.map_cons, List.map_nil, merge_of_nodup (keyed_optionalText line.comment)]
    rfl
  unfold toDatum
  rw [merge, hm, distinct_of_nodup (by simp)]

theorem Line.ofDatum?_merge (line : Line) :
    ofDatum? (merge line.toDatum) = if line.include? = none then some line else none := by
  obtain ⟨number, entry, comment⟩ := line
  rw [merge_toDatum, ofDatum?_record]
  cases entry with
  | includeFile i =>
    rw [Entry.ofDatum?_merge_include]
    rfl
  | requirement | editable | option | comment | blank =>
    rw [Entry.merge_toDatum (by simp), Entry.ofDatum?_toDatum (by simp)]
    rfl

theorem Manifest.merge_toDatum (m : Manifest) : merge m.toDatum =
    .record [("lines", .list (m.lines.map fun line => merge line.toDatum))] := by
  unfold toDatum
  rw [merge, mergeFields, mergeFields, merge, mergeItems_eq_map, List.map_map]
  rfl

theorem Manifest.ofDatum?_merge (m : Manifest) :
    ofDatum? (merge m.toDatum) = if m.includes = [] then some m else none := by
  have ho : ofDatum? (merge m.toDatum) =
      ((m.lines.map fun line => merge line.toDatum).mapM Line.ofDatum?).map Manifest.mk := by
    rw [merge_toDatum, ofDatum?]
    dsimp only [Datum.fields?, Option.bind_eq_bind, Option.bind_some]
    rw [field?_eq (d := .list (m.lines.map fun line => merge line.toDatum)) rfl, list?]
    cases (m.lines.map fun line => merge line.toDatum).mapM Line.ofDatum? <;> rfl
  rw [ho]
  split
  · rename_i h
    have hn := List.filterMap_eq_nil_iff.mp h
    rw [mapM_map_eq_pure fun line hl => line.ofDatum?_merge.trans (if_pos (hn line hl))]
    rfl
  · rename_i h
    obtain ⟨line, hl, hi⟩ : ∃ line ∈ m.lines, line.include? ≠ none := by
      by_contra hc
      refine h (List.filterMap_eq_nil_iff.mpr fun line hl => ?_)
      by_contra hi
      exact hc ⟨line, hl, hi⟩
    rw [mapM_eq_none (List.mem_map_of_mem hl) (line.ofDatum?_merge.trans (if_neg hi))]
    rfl

/-- What is read from the file of a manifest. -/
theorem Manifest.ofBson_toBson? (h : m.toBson? = some bs) (hb : bs.length < 2 ^ 31) :
    ofBson bs = if m.includes = [] then .ok m else .error .unreadable := by
  have hn : Keyed AreKeys (.record [("manifest", m.toDatum)]) := by
    refine .record ?_ ?_
    · show AreKeys ["manifest"]
      decide
    · simp [m.keyed_toDatum]
  have hp : Bson.parse? bs = some [("manifest", merge m.toDatum)] := parse?_of_write? hn h hb
  unfold ofBson
  rw [hp]
  dsimp only [List.find?]
  rw [show ("manifest" == "manifest") = true from rfl]
  dsimp only
  rw [ofDatum?_merge]
  by_cases hi : m.includes = [] <;> simp only [hi, ↓reduceIte]

/-!
## What can be written as BSON

Only numbers can be too large to be written, and the only numbers in a manifest are those of its
lines (`isSome_toBson?_iff`).
-/

namespace Bson

variable {items : List Datum} {fields : Fields}

theorem isSome_bind_bind {α β γ : Type} (x : Option α) (y : Option β) (f : α → β → γ) :
    (do let a ← x; let b ← y; return f a b : Option γ).isSome ↔ x.isSome ∧ y.isSome := by
  cases x <;> cases y <;> simp

theorem isSome_writeItems? (i : Nat) :
    (writeItems? i items).isSome ↔ ∀ item ∈ items, (writeValue? item).isSome := by
  induction items generalizing i with
  | nil => simp [writeItems?]
  | cons item items ih => rw [writeItems?, isSome_bind_bind, ih, List.forall_mem_cons]

theorem isSome_writeFields? :
    (writeFields? fields).isSome ↔ ∀ field ∈ fields, (writeValue? field.2).isSome := by
  induction fields with
  | nil => simp [writeFields?]
  | cons field fields ih => rw [writeFields?, isSome_bind_bind, ih, List.forall_mem_cons]

@[simp] theorem isSome_writeValue?_null : (writeValue? .null).isSome := rfl

@[simp] theorem isSome_writeValue?_text (s : String) : (writeValue? (.text s)).isSome := rfl

@[simp] theorem isSome_writeValue?_nat {n : Nat} : (writeValue? (.nat n)).isSome ↔ n ≤ maxNat := by
  unfold writeValue?
  split <;> simp [*]

@[simp] theorem isSome_writeValue?_list :
    (writeValue? (.list items)).isSome ↔ ∀ item ∈ items, (writeValue? item).isSome := by
  rw [writeValue?, Option.isSome_map, isSome_writeItems?]

@[simp] theorem isSome_writeValue?_record :
    (writeValue? (.record fields)).isSome ↔ ∀ field ∈ fields, (writeValue? field.2).isSome := by
  rw [writeValue?, Option.isSome_map, isSome_writeFields?]

@[simp] theorem isSome_writeValue?_texts (xs : List String) : (writeValue? (texts xs)).isSome := by
  simp [texts]

@[simp] theorem isSome_writeValue?_optionalText (o : Option String) :
    (writeValue? (optionalText o)).isSome := by
  cases o <;> rfl

end Bson

open Bson

theorem Entry.isSome_writeValue?_merge (e : Entry) : (writeValue? (merge e.toDatum)).isSome := by
  cases e with
  | includeFile i => rfl
  | requirement | editable | option | comment | blank =>
    rw [merge_toDatum (by simp)]
    simp [toDatum, fields, Requirement.fields, Constraint.toDatum]

theorem Line.isSome_writeValue?_merge {line : Line} :
    (writeValue? (merge line.toDatum)).isSome ↔ line.number ≤ maxNat := by
  simp [merge_toDatum, line.entry.isSome_writeValue?_merge]

/-- A manifest can be written exactly when the numbers of its lines can. -/
theorem Manifest.isSome_toBson?_iff {m : Manifest} :
    m.toBson?.isSome ↔ ∀ line ∈ m.lines, line.number < 2 ^ 63 := by
  have hm : merge (.record [("manifest", m.toDatum)]) =
      .record [("manifest", merge m.toDatum)] := rfl
  have hn {n : Nat} : n ≤ maxNat ↔ n < 2 ^ 63 := by
    have : maxNat = 2 ^ 63 - 1 := rfl
    omega
  rw [toBson?, write?, hm, merge_toDatum]
  simp [Line.isSome_writeValue?_merge, hn]

end PinFile
