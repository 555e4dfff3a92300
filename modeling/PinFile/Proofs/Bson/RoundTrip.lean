import PinFile.Proofs.Bson.Merged

/-!
# Reading what was written

A document whose keys can all be named is read back from its bytes with each key once
(`parse?_of_write?`). The induction is on the datum; what it carries is `ReadsBack`, for every
number of steps that is larger than the number of bytes.
-/

namespace PinFile.Bson

open Datum Text

variable {d e : Datum} {bs rest : Bytes} {steps : Nat} {key : String} {items : List Datum}
  {fields : Fields}

/-- The value is read from its bytes, whatever follows them. -/
def ReadsBack (d : Datum) : Prop :=
  ∀ {bs : Bytes}, writeValue? d = some bs → bs.length < 2 ^ 31 →
    ∀ {steps : Nat}, bs.length < steps → ∀ rest : Bytes,
      value? steps (tag d) (bs ++ rest) = some (merge d, rest)

/-! ## One step of the reader -/

theorem tag_ne_zero (d : Datum) : tag d ≠ 0 := by
  cases d <;> exact of_decide_eq_true rfl

theorem value?_text : value? (steps + 1) 0x02 bs =
    (text? bs).map fun (s, rest) => (.text s, rest) :=
  rfl

theorem value?_record : value? (steps + 1) 0x03 bs =
    (document? steps bs).map fun (fields, rest) => (.record (distinct fields), rest) :=
  rfl

theorem value?_list : value? (steps + 1) 0x04 bs =
    (document? steps bs).map fun (fields, rest) => (.list (fields.map (·.2)), rest) :=
  rfl

theorem value?_null : value? (steps + 1) 0x0a bs = some (.null, bs) := rfl

theorem value?_nat : value? (steps + 1) 0x12 bs = integer? 8 bs := rfl

theorem fields?_cons (hk : IsKey key) (hv : value? steps (tag d) (bs ++ rest) = some (e, rest))
    (hf : fields? steps rest = some fields) :
    fields? (steps + 1) (tag d :: writeKey key ++ bs ++ rest) = some ((key, e) :: fields) := by
  rw [List.append_assoc, List.cons_append, fields?, if_neg (tag_ne_zero d), key?_writeKey hk]
  dsimp only [Option.bind_eq_bind, Option.bind_some]
  rw [hv]
  dsimp only [Option.bind_some]
  rw [hf]
  rfl

@[simp] theorem length_wrap (bs : Bytes) : (wrap bs).length = bs.length + 5 := by
  simp [wrap]
  omega

theorem document?_wrap (h : (wrap bs).length < 2 ^ 31)
    (hf : fields? steps (bs ++ [0]) = some fields) (rest : Bytes) :
    document? (steps + 1) (wrap bs ++ rest) = some (fields, rest) := by
  rw [length_wrap] at h
  have ht := take?_append (bs ++ [0]) rest
  rw [List.length_append, List.length_singleton] at ht
  have hw : wrap bs ++ rest = littleEndian 4 (bs.length + 5) ++ (bs ++ [0] ++ rest) := by
    simp only [wrap, List.append_assoc]
  unfold document?
  rw [hw, length?_littleEndian h]
  dsimp only [Option.bind_eq_bind, Option.bind_some]
  rw [Nat.add_sub_assoc (by decide : 4 ≤ 5), ht]
  dsimp only [Option.bind_some]
  rw [hf]
  rfl

/-! ## Fields and items -/

theorem fields?_writeFields (hk : AreKeys (fields.map (·.1)))
    (hr : ∀ field ∈ fields, ReadsBack field.2) (hw : writeFields? fields = some bs)
    (hb : bs.length < 2 ^ 31) (hs : bs.length < steps) :
    fields? (steps + 1) (bs ++ [0]) = some (mergeFields fields) := by
  induction fields generalizing bs steps with
  | nil =>
    cases hw
    rfl
  | cons field fields ih =>
    obtain ⟨key, d⟩ := field
    simp only [writeFields?, Option.bind_eq_bind, Option.bind_eq_some_iff, Option.pure_def,
      Option.some.injEq] at hw
    obtain ⟨value, hv, more, hm, rfl⟩ := hw
    simp only [List.cons_append, List.length_cons, List.length_append] at hb hs
    obtain ⟨hkey, hk⟩ := List.forall_mem_cons.mp hk
    obtain ⟨hread, hr⟩ := List.forall_mem_cons.mp hr
    obtain ⟨n, rfl⟩ : ∃ n, steps = n + 1 := ⟨steps - 1, by omega⟩
    rw [List.append_assoc]
    exact fields?_cons hkey (hread hv (by omega) (by omega) _)
      (ih hk hr hm (by omega) (by omega))

/-- The items of a list are its fields, whatever their keys. -/
theorem fields?_writeItems {i : Nat} (hr : ∀ item ∈ items, ReadsBack item)
    (hw : writeItems? i items = some bs) (hb : bs.length < 2 ^ 31) (hs : bs.length < steps) :
    ∃ fields, fields? (steps + 1) (bs ++ [0]) = some fields ∧
      fields.map (·.2) = mergeItems items := by
  induction items generalizing i bs steps with
  | nil =>
    cases hw
    exact ⟨[], rfl, rfl⟩
  | cons d items ih =>
    simp only [writeItems?, Option.bind_eq_bind, Option.bind_eq_some_iff, Option.pure_def,
      Option.some.injEq] at hw
    obtain ⟨value, hv, more, hm, rfl⟩ := hw
    simp only [List.cons_append, List.length_cons, List.length_append] at hb hs
    obtain ⟨hread, hr⟩ := List.forall_mem_cons.mp hr
    obtain ⟨n, rfl⟩ : ∃ n, steps = n + 1 := ⟨steps - 1, by omega⟩
    have hn : more.length < n := by omega
    obtain ⟨fields, hf, he⟩ := ih hr hm (by omega) hn
    refine ⟨(toString i, merge d) :: fields, ?_, congrArg (merge d :: ·) he⟩
    rw [List.append_assoc]
    exact fields?_cons (isKey_toString i) (hread hv (by omega) (by omega) _) hf

theorem readsBack (h : Keyed AreKeys d) : ReadsBack d := by
  induction h with
  | null =>
    intro bs hw hb steps hs rest
    obtain ⟨n, rfl⟩ : ∃ n, steps = n + 1 := ⟨steps - 1, by omega⟩
    cases hw
    exact value?_null
  | nat n =>
    intro bs hw hb steps hs rest
    obtain ⟨k, rfl⟩ : ∃ k, steps = k + 1 := ⟨steps - 1, by omega⟩
    unfold writeValue? at hw
    split at hw
    · rename_i hn
      cases hw
      exact value?_nat.trans (integer?_littleEndian hn rest)
    · cases hw
  | text s =>
    intro bs hw hb steps hs rest
    obtain ⟨n, rfl⟩ : ∃ n, steps = n + 1 := ⟨steps - 1, by omega⟩
    cases hw
    exact value?_text.trans (congrArg _ (text?_writeText hb rest))
  | list h ih =>
    intro bs hw hb steps hs rest
    obtain ⟨body, hbody, rfl⟩ := Option.map_eq_some_iff.mp hw
    have hl := length_wrap body
    obtain ⟨n, rfl⟩ : ∃ n, steps = n + 1 + 1 + 1 := ⟨steps - 3, by omega⟩
    have hn : body.length < n := by omega
    obtain ⟨fields, hf, he⟩ := fields?_writeItems ih hbody (by omega) hn
    refine value?_list.trans ?_
    rw [document?_wrap hb hf, Option.map_some]
    dsimp only
    rw [he, merge]
  | record hk h ih =>
    intro bs hw hb steps hs rest
    obtain ⟨body, hbody, rfl⟩ := Option.map_eq_some_iff.mp hw
    have hl := length_wrap body
    obtain ⟨n, rfl⟩ : ∃ n, steps = n + 1 + 1 + 1 := ⟨steps - 3, by omega⟩
    refine value?_record.trans ?_
    rw [document?_wrap hb (fields?_writeFields hk ih hbody (by omega) (by omega)),
      Option.map_some]
    rfl

/-! ## Files -/

theorem parse?_of_write? (h : Keyed AreKeys (.record fields))
    (hw : write? (.record fields) = some bs) (hb : bs.length < 2 ^ 31) :
    parse? bs = some (distinct (mergeFields fields)) := by
  have hs : bs.length < 3 * bs.length + 3 + 1 := by omega
  have hr : value? (3 * bs.length + 3 + 1) 0x03 (bs ++ []) = _ :=
    readsBack (keyed_merge h) hw hb hs []
  rw [value?_record, List.append_nil, merge_merge h, merge] at hr
  obtain ⟨⟨read, left⟩, hd, he⟩ := Option.map_eq_some_iff.mp hr
  unfold parse?
  rw [hd, Option.map_some]
  injection he with he
  injection he with he
  exact congrArg some he

end PinFile.Bson
