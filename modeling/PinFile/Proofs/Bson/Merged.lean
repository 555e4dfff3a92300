import PinFile.Proofs.Bson.Bytes
import PinFile.Proofs.Datum
import PinFile.Proofs.Distinct

/-!
# Merged documents

Merging leaves each key once. What is merged already stays as it is (`merge_merge`), and merging
adds no key (`keyed_merge`).
-/

namespace PinFile.Bson

open Datum

variable {d : Datum} {fields before : Fields} {key : String} {value : Datum}
  {field : String × Datum}

/-! ## Keys -/

theorem map_fst_put : (put fields key value).map (·.1) =
    if key ∈ fields.map (·.1) then fields.map (·.1) else fields.map (·.1) ++ [key] := by
  by_cases h : key ∈ fields.map (·.1)
  · have ha : fields.any (·.1 == key) = true := by simpa using h
    rw [if_pos h, put, if_pos ha, List.map_map]
    apply List.map_congr_left
    intro field _
    by_cases hk : field.1 = key
    · simp [hk]
    · simp [hk]
  · have hn : ∀ field ∈ fields, field.1 ≠ key := fun field hf e =>
      h (List.mem_map.mpr ⟨field, hf, e⟩)
    rw [if_neg h, put_of_not_mem hn, List.map_append]
    rfl

theorem nodup_put (h : (fields.map (·.1)).Nodup) : ((put fields key value).map (·.1)).Nodup := by
  rw [map_fst_put]
  split
  · exact h
  · rename_i hk
    exact nodup_append_singleton h hk

theorem mem_of_mem_put (h : field ∈ put fields key value) :
    field ∈ fields ∨ field = (key, value) := by
  unfold put at h
  split at h
  · obtain ⟨old, ho, rfl⟩ := List.mem_map.mp h
    split
    · exact .inr rfl
    · exact .inl ho
  · simpa using h

theorem nodup_foldl_put (h : (before.map (·.1)).Nodup) :
    ((fields.foldl (fun fields field => put fields field.1 field.2) before).map (·.1)).Nodup := by
  induction fields generalizing before with
  | nil => exact h
  | cons field fields ih => exact ih (nodup_put h)

theorem mem_of_mem_foldl_put
    (h : field ∈ fields.foldl (fun fields field => put fields field.1 field.2) before) :
    field ∈ before ∨ field ∈ fields := by
  induction fields generalizing before with
  | nil => exact .inl h
  | cons new fields ih =>
    rcases ih h with h | h
    · rcases mem_of_mem_put h with h | rfl
      · exact .inl h
      · exact .inr List.mem_cons_self
    · exact .inr (List.mem_cons_of_mem _ h)

theorem foldl_put_of_nodup (h : ((before ++ fields).map (·.1)).Nodup) :
    fields.foldl (fun fields field => put fields field.1 field.2) before = before ++ fields := by
  induction fields generalizing before with
  | nil => rw [List.append_nil, List.foldl_nil]
  | cons field fields ih =>
    have hn : ∀ old ∈ before, old.1 ≠ field.1 := by
      rw [List.map_append, List.nodup_append] at h
      exact fun old ho => h.2.2 _ (List.mem_map_of_mem ho) _ List.mem_cons_self
    rw [List.foldl_cons, put_of_not_mem hn, ih (by rwa [List.append_assoc]), List.append_assoc]
    rfl

theorem nodup_distinct (fields : Fields) : ((distinct fields).map (·.1)).Nodup :=
  nodup_foldl_put List.nodup_nil

theorem mem_of_mem_distinct (h : field ∈ distinct fields) : field ∈ fields :=
  (mem_of_mem_foldl_put h).resolve_left (by simp)

theorem distinct_of_nodup (h : (fields.map (·.1)).Nodup) : distinct fields = fields :=
  foldl_put_of_nodup h

/-! ## Merging -/

theorem mergeItems_eq_map (items : List Datum) : mergeItems items = items.map merge := by
  induction items with
  | nil => rfl
  | cons item items ih => rw [mergeItems, ih, List.map_cons]

theorem mergeFields_eq_map (fields : Fields) :
    mergeFields fields = fields.map fun field => (field.1, merge field.2) := by
  induction fields with
  | nil => rfl
  | cons field fields ih => rw [mergeFields, ih, List.map_cons]

theorem merge_list {items : List Datum} (h : ∀ item ∈ items, merge item = item) :
    merge (.list items) = .list items := by
  rw [merge, mergeItems_eq_map, List.map_congr_left h, List.map_id']

theorem merge_record (hk : (fields.map (·.1)).Nodup)
    (h : ∀ field ∈ fields, merge field.2 = field.2) :
    merge (.record fields) = .record fields := by
  have hm : mergeFields fields = fields := by
    rw [mergeFields_eq_map]
    refine (List.map_congr_left fun field hf => ?_).trans (List.map_id' _)
    rw [h field hf]
  rw [merge, hm, distinct_of_nodup hk]

/-- A datum without repeated keys stays as it is. -/
theorem merge_of_nodup (h : Keyed List.Nodup d) : merge d = d := by
  induction h with
  | null | nat | text => rfl
  | list h ih => exact merge_list ih
  | record hk h ih => exact merge_record hk ih

theorem mem_of_mem_distinct_mergeFields (h : field ∈ distinct (mergeFields fields)) :
    ∃ old ∈ fields, field = (old.1, merge old.2) := by
  have hm := mem_of_mem_distinct h
  rw [mergeFields_eq_map] at hm
  obtain ⟨old, ho, rfl⟩ := List.mem_map.mp hm
  exact ⟨old, ho, rfl⟩

theorem keyed_merge (h : Keyed AreKeys d) : Keyed AreKeys (merge d) := by
  induction h with
  | null => exact .null
  | nat n => exact .nat n
  | text s => exact .text s
  | list h ih =>
    rw [merge, mergeItems_eq_map]
    exact keyed_list_map ih
  | record hk h ih =>
    rw [merge]
    refine .record (List.forall_mem_map.mpr fun field hf => ?_) fun field hf => ?_
    · obtain ⟨old, ho, rfl⟩ := mem_of_mem_distinct_mergeFields hf
      exact List.forall_mem_map.mp hk old ho
    · obtain ⟨old, ho, rfl⟩ := mem_of_mem_distinct_mergeFields hf
      exact ih old ho

theorem merge_merge {p : List String → Prop} (h : Keyed p d) : merge (merge d) = merge d := by
  induction h with
  | null | nat | text => rfl
  | list h ih =>
    rw [merge, merge, mergeItems_eq_map, mergeItems_eq_map, List.map_map]
    exact congrArg _ (List.map_congr_left ih)
  | @record fields hk h ih =>
    have hf : mergeFields (distinct (mergeFields fields)) = distinct (mergeFields fields) := by
      rw [mergeFields_eq_map]
      refine (List.map_congr_left fun field hf => ?_).trans (List.map_id _)
      obtain ⟨old, ho, rfl⟩ := mem_of_mem_distinct_mergeFields hf
      rw [ih old ho]
      rfl
    rw [merge, merge, hf, distinct_of_nodup (nodup_distinct _)]

end PinFile.Bson
