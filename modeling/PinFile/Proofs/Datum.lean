import PinFile.Datum.Manifest
import PinFile.Proofs.Results

/-!
# Manifests read back from data

What stands for an entry is read back as that entry unless it is an inclusion
(`Entry.ofDatum?_toDatum`), whose own field `kind` stands beside the kind of the entry.
-/

namespace PinFile

open Datum

/-!
## Data with keyed records

`Keyed p d` says that nothing in `d` is out of place and that the keys of each record in it meet
`p`. What stands for an entry is such a datum as soon as `p` holds for the keys of that kind of
entry (`Entry.keyed_toDatum`).
-/

namespace Datum

variable {p : List String → Prop} {d : Datum} {items : List Datum} {fields : Fields}

inductive Keyed (p : List String → Prop) : Datum → Prop where
  | null : Keyed p .null
  | nat (n : Nat) : Keyed p (.nat n)
  | text (s : String) : Keyed p (.text s)
  | list {items : List Datum} (h : ∀ item ∈ items, Keyed p item) : Keyed p (.list items)
  | record {fields : Fields} (hk : p (fields.map (·.1)))
      (h : ∀ field ∈ fields, Keyed p field.2) : Keyed p (.record fields)

theorem keyed_list_map {α : Type} {f : α → Datum} {xs : List α} (h : ∀ x ∈ xs, Keyed p (f x)) :
    Keyed p (.list (xs.map f)) :=
  .list (List.forall_mem_map.mpr h)

theorem keyed_texts (xs : List String) : Keyed p (texts xs) :=
  keyed_list_map fun s _ => .text s

theorem keyed_optionalText (o : Option String) : Keyed p (optionalText o) := by
  cases o with
  | none => exact .null
  | some s => exact .text s

theorem areSoundItems_eq_true (h : ∀ item ∈ items, item.isSound = true) :
    areSoundItems items = true := by
  induction items with
  | nil => rfl
  | cons item items ih =>
    obtain ⟨hi, h⟩ := List.forall_mem_cons.mp h
    rw [areSoundItems, hi, ih h]
    rfl

theorem areSoundFields_eq_true (h : ∀ field ∈ fields, field.2.isSound = true) :
    areSoundFields fields = true := by
  induction fields with
  | nil => rfl
  | cons field fields ih =>
    obtain ⟨hf, h⟩ := List.forall_mem_cons.mp h
    rw [areSoundFields, hf, ih h]
    rfl

theorem Keyed.isSound (h : Keyed p d) : d.isSound = true := by
  induction h with
  | null | nat | text => rfl
  | list h ih =>
    unfold Datum.isSound
    exact areSoundItems_eq_true ih
  | record hk h ih =>
    unfold Datum.isSound
    exact areSoundFields_eq_true ih

end Datum

open Datum

variable {p : List String → Prop}

theorem Constraint.keyed_toDatum (c : Constraint) (hp : p ["operator", "version"]) :
    Keyed p c.toDatum :=
  .record hp (by simp [Keyed.text])

theorem Entry.keyed_toDatum (e : Entry) (he : p ("kind" :: e.fields.map (·.1)))
    (hc : p ["operator", "version"]) : Keyed p e.toDatum := by
  refine .record he (List.forall_mem_cons.mpr ⟨.text _, ?_⟩)
  cases e with
  | requirement r =>
    have hl : Keyed p (.list (r.constraints.map Constraint.toDatum)) :=
      keyed_list_map fun c _ => c.keyed_toDatum hc
    simp [fields, Requirement.fields, Keyed.text, keyed_texts, keyed_optionalText, hl]
  | option o => simp [fields, Keyed.text, keyed_optionalText]
  | editable | includeFile | comment | blank => simp [fields, Keyed.text]

/-! ## Entries read back -/

variable {fields : Fields} {key : String} {d : Datum}

/-! ## Fields -/

theorem field?_eq {α : Type} {read : Datum → Option α} (h : valuesOf fields key = [d]) :
    field? fields key read = read d := by
  unfold field?
  rw [h]

theorem optionalField?_eq {o : Option String} (h : valuesOf fields key = [optionalText o]) :
    optionalField? fields key Datum.text? = some o := by
  unfold optionalField?
  rw [h]
  cases o <;> rfl

theorem texts?_texts (xs : List String) : texts? (texts xs) = some xs :=
  mapM_map_eq_pure fun _ _ => rfl

/-! ## Entries -/

theorem Constraint.ofDatum?_toDatum (c : Constraint) : ofDatum? c.toDatum = some c := by
  unfold ofDatum? toDatum
  dsimp only [fields?, Option.bind_eq_bind, Option.bind_some]
  rw [field?_eq (d := .text c.operator.symbol) rfl, field?_eq (d := .text c.version) rfl,
    show entryChoice? (.text c.operator.symbol) = some c.operator.symbol from rfl]
  dsimp only [Option.bind_some]
  rw [Operator.ofSymbol?_symbol]
  rfl

theorem Requirement.ofFields?_fields (r : Requirement) : ofFields? r.fields = some r := by
  have hc : list? Constraint.ofDatum? (.list (r.constraints.map Constraint.toDatum)) =
      some r.constraints := mapM_map_eq_pure fun c _ => c.ofDatum?_toDatum
  unfold ofFields?
  rw [field?_eq (d := .text r.name) rfl, field?_eq (d := texts r.extras) rfl, texts?_texts,
    field?_eq (d := .list (r.constraints.map Constraint.toDatum)) rfl, hc,
    optionalField?_eq (o := r.url) rfl, optionalField?_eq (o := r.marker) rfl,
    field?_eq (d := texts r.hashes) rfl, texts?_texts]
  rfl

theorem Entry.ofDatum?_toDatum {e : Entry} (h : ∀ i, e ≠ .includeFile i) :
    ofDatum? e.toDatum = some e := by
  unfold ofDatum?
  rw [(e.keyed_toDatum (p := fun _ => True) trivial trivial).isSound]
  cases e with
  | requirement r => exact congrArg (Option.map Entry.requirement) r.ofFields?_fields
  | option o =>
    have hv : optionalField? (option o).fields "value" Datum.text? = some o.value :=
      optionalField?_eq rfl
    exact congrArg (Option.bind · fun value => some (Entry.option ⟨o.flag, value⟩)) hv
  | includeFile i => exact absurd rfl (h i)
  | editable | comment | blank => rfl

theorem valuesOf_without (fields : Fields) (key : String) :
    valuesOf (without fields key) key = [] := by
  rw [valuesOf, without, List.filter_filter]
  simp

/-- The kind of an inclusion would be read from the field that has been taken away. -/
theorem Include.ofFields?_without (fields : Fields) : ofFields? (without fields "kind") = none := by
  unfold ofFields? field?
  rw [valuesOf_without]
  rfl

theorem Entry.ofDatum?_ne_includeFile (d : Datum) (i : Include) :
    ofDatum? d ≠ some (.includeFile i) := by
  intro h
  unfold ofDatum? at h
  obtain ⟨_, -, h⟩ := Option.bind_eq_some_iff.mp h
  obtain ⟨fields, -, h⟩ := Option.bind_eq_some_iff.mp h
  obtain ⟨kind, -, h⟩ := Option.bind_eq_some_iff.mp h
  unfold Entry.ofFields? at h
  split at h
  case h_3 =>
    rw [Include.ofFields?_without] at h
    cases h
  all_goals simp [Option.bind_eq_some_iff] at h

/-! ## Lines -/

theorem Line.ofDatum?_record {line : Line} {e : Datum} :
    ofDatum? (.record [("number", .nat line.number), ("entry", e),
      ("comment", optionalText line.comment)]) =
      (Entry.ofDatum? e).map fun entry => ⟨line.number, entry, line.comment⟩ := by
  unfold ofDatum?
  dsimp only [fields?, Option.bind_eq_bind, Option.bind_some]
  rw [field?_eq (d := .nat line.number) rfl, field?_eq (d := e) rfl,
    optionalField?_eq (o := line.comment) rfl]
  cases Entry.ofDatum? e <;> rfl

theorem Line.ofDatum?_toDatum {line : Line} (h : line.include? = none) :
    ofDatum? line.toDatum = some line := by
  have he : ∀ i, line.entry ≠ .includeFile i := by
    intro i hi
    rw [include?, hi] at h
    cases h
  unfold toDatum
  rw [ofDatum?_record, Entry.ofDatum?_toDatum he]
  rfl

theorem Manifest.ofDatum?_toDatum {m : Manifest} (h : m.includes = []) :
    ofDatum? m.toDatum = some m := by
  have hl : list? Line.ofDatum? (.list (m.lines.map Line.toDatum)) = some m.lines :=
    mapM_map_eq_pure fun line hm => line.ofDatum?_toDatum (List.filterMap_eq_nil_iff.mp h line hm)
  unfold ofDatum? toDatum
  dsimp only [fields?, Option.bind_eq_bind, Option.bind_some]
  rw [field?_eq (d := .list (m.lines.map Line.toDatum)) rfl, hl]
  rfl

/-! ## What is never read -/

theorem Line.include?_of_ofDatum? {line : Line} (h : ofDatum? d = some line) :
    line.include? = none := by
  simp only [ofDatum?, Option.bind_eq_bind, Option.bind_eq_some_iff] at h
  obtain ⟨fields, -, number, -, entry, he, comment, -, hline⟩ := h
  cases hline
  unfold field? at he
  split at he
  · cases entry with
    | includeFile i => exact absurd he (Entry.ofDatum?_ne_includeFile _ i)
    | requirement | editable | option | comment | blank => rfl
  · cases he

/-- A manifest that was read includes nothing, whatever it was read from. -/
theorem Manifest.includes_of_ofDatum? {m : Manifest} (h : ofDatum? d = some m) :
    m.includes = [] := by
  simp only [ofDatum?, Option.bind_eq_bind, Option.bind_eq_some_iff] at h
  obtain ⟨fields, -, lines, hl, hm⟩ := h
  cases hm
  refine List.filterMap_eq_nil_iff.mpr fun line hline => ?_
  unfold field? at hl
  split at hl
  · rename_i d _
    cases d with
    | list items =>
      obtain ⟨_, _, hread⟩ := exists_mem_of_mapM_eq_some hl hline
      exact Line.include?_of_ofDatum? hread
    | null | nat | text | record | other | broken => cases hl
  · cases hl

end PinFile
