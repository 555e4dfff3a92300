import PinFile.Json.Reader
import PinFile.Json.Writer
import PinFile.Proofs.Json.Numbers
import PinFile.Proofs.Json.Strings
import PinFile.Proofs.Results

/-!
# Reading the JSON that was written

A datum that fits into JSON is read back from its text (`parse?_render`), whatever keys its records
have and however often. The induction is on the datum; what it carries is `ReadsBack`, for every
depth, every text behind the datum that does not carry on a number, and every number of steps that
is larger than the number of characters.
-/

namespace PinFile.Json

open Text Datum

variable {d item value : Datum} {items : List Datum} {fields : Fields} {key : String}
  {a b cs rest : List Char} {c : Char} {depth levels steps : Nat}

/-- A datum that JSON has room for, with no more than so many lists and records inside one
another. -/
inductive Fits : Nat → Datum → Prop where
  | null {levels : Nat} : Fits levels .null
  | nat {levels n : Nat} (h : n ≤ maxNat) : Fits levels (.nat n)
  | text {levels : Nat} (s : String) : Fits levels (.text s)
  | list {levels : Nat} {items : List Datum} (h : ∀ item ∈ items, Fits levels item) :
    Fits (levels + 1) (.list items)
  | record {levels : Nat} {fields : Fields} (h : ∀ field ∈ fields, Fits levels field.2) :
    Fits (levels + 1) (.record fields)

/-- The value is read from its text, whatever follows it. -/
def ReadsBack (d : Datum) : Prop :=
  ∀ ⦃depth steps : Nat⦄ ⦃rest : List Char⦄, EndsNumber rest → (write depth d).length < steps →
    value? steps (write depth d ++ rest) = some (d, rest)

/-! ## White space -/

def isSpace (c : Char) : Bool := c == ' ' || c == '\n' || c == '\t' || c == '\r'

theorem skipSpace_cons (h : isSpace c = false) : skipSpace (c :: cs) = c :: cs :=
  List.dropWhile_cons_of_neg (by simpa [isSpace] using h)

theorem skipSpace_newline (depth : Nat) (cs : List Char) :
    skipSpace (newline depth ++ cs) = skipSpace cs := by
  refine List.dropWhile_append_of_pos fun c hc => ?_
  rcases List.mem_cons.mp hc with rfl | hc
  · rfl
  · rw [List.eq_of_mem_replicate hc]
    rfl

theorem length_newline (depth : Nat) : (newline depth).length = 2 * depth + 1 := by
  simp [newline]

theorem value?_congr (h : skipSpace a = skipSpace b) : value? steps a = value? steps b := by
  cases steps with
  | zero => rfl
  | succ steps => rw [value?, value?, h]

theorem items?_congr (h : skipSpace a = skipSpace b) : items? steps a = items? steps b := by
  cases steps with
  | zero => rfl
  | succ steps => rw [items?, items?, value?_congr h]

theorem fields?_congr (h : skipSpace a = skipSpace b) : fields? steps a = fields? steps b := by
  cases steps with
  | zero => rfl
  | succ steps => rw [fields?, fields?, h]

/-! ## Starts of values -/

/-- A value starts with a sign that is neither a space nor the end of a list. -/
theorem exists_write_eq_cons (h : Fits levels d) (depth : Nat) :
    ∃ c cs, write depth d = c :: cs ∧ isSpace c = false ∧ c ≠ ']' := by
  cases h with
  | null => exact ⟨_, _, rfl, by decide, by decide⟩
  | text s => exact ⟨_, _, rfl, by decide, by decide⟩
  | @nat _ n h =>
    obtain ⟨c, cs, hc⟩ : ∃ c cs, decimal n = c :: cs :=
      List.exists_cons_of_ne_nil Nat.toDigits_ne_nil
    have hd := isDigit_of_mem_decimal c (hc ▸ List.mem_cons_self)
    have hs : isSpace c = false := by
      cases hs : isSpace c with
      | false => rfl
      | true =>
        simp only [isSpace, Bool.or_eq_true, beq_iff_eq] at hs
        rcases hs with ((rfl | rfl) | rfl) | rfl <;> exact absurd hd (by decide)
    refine ⟨c, cs, hc, hs, ?_⟩
    rintro rfl
    exact absurd hd (by decide)
  | @list _ items h => cases items <;> exact ⟨_, _, rfl, by decide, by decide⟩
  | @record _ fields h => cases fields <;> exact ⟨_, _, rfl, by decide, by decide⟩

/-! ## Ends of values -/

theorem endsNumber_newline (depth : Nat) (cs : List Char) : EndsNumber (newline depth ++ cs) := by
  rintro c ⟨⟩
  exact .inr rfl

theorem endsNumber_comma (cs : List Char) : EndsNumber (',' :: cs) := by
  rintro c ⟨⟩
  exact .inl rfl

/-! ## One step of the reader -/

theorem items?_last (hv : value? steps cs = some (item, a)) (ha : skipSpace a = ']' :: rest) :
    items? (steps + 1) cs = some ([item], rest) := by
  rw [items?, hv]
  dsimp only [Option.bind_eq_bind, Option.bind_some]
  rw [ha]
  rfl

theorem items?_more (hv : value? steps cs = some (item, a)) (ha : skipSpace a = ',' :: b)
    (hi : items? steps b = some (items, rest)) :
    items? (steps + 1) cs = some (item :: items, rest) := by
  rw [items?, hv]
  dsimp only [Option.bind_eq_bind, Option.bind_some]
  rw [ha]
  exact (congrArg (Option.bind · _) hi).trans rfl

/-- A field as the reader keeps it, with its key as it is written. -/
def written (field : String × Datum) : List Char × Datum := (escape field.1.toList, field.2)

/-- The signs of a field, from the quote in front of its key to its value. -/
theorem writeString_append (key : String) (cs : List Char) :
    writeString key ++ ([':', ' '] ++ cs) =
      '"' :: (escape key.toList ++ '"' :: ':' :: ' ' :: cs) := by
  simp [writeString]

theorem value?_space (cs : List Char) : value? steps (' ' :: cs) = value? steps cs :=
  value?_congr (List.dropWhile_cons_of_pos rfl)

theorem fields?_last (hv : value? steps cs = some (value, a)) (ha : skipSpace a = '\x7d' :: rest) :
    fields? (steps + 1) (writeString key ++ ([':', ' '] ++ cs)) =
      some ([written (key, value)], rest) := by
  rw [writeString_append, fields?, skipSpace_cons (by decide)]
  refine (congrArg (Option.bind · _) (literal?_escape _ _)).trans ?_
  refine (congrArg (Option.bind · _) ((value?_space cs).trans hv)).trans ?_
  dsimp only [Option.bind_some]
  rw [ha]
  rfl

theorem fields?_more {more : List (List Char × Datum)} (hv : value? steps cs = some (value, a))
    (ha : skipSpace a = ',' :: b) (hf : fields? steps b = some (more, rest)) :
    fields? (steps + 1) (writeString key ++ ([':', ' '] ++ cs)) =
      some (written (key, value) :: more, rest) := by
  rw [writeString_append, fields?, skipSpace_cons (by decide)]
  refine (congrArg (Option.bind · _) (literal?_escape _ _)).trans ?_
  refine (congrArg (Option.bind · _) ((value?_space cs).trans hv)).trans ?_
  dsimp only [Option.bind_some]
  rw [ha]
  exact (congrArg (Option.bind · _) hf).trans rfl

/-! ## Members -/

/-- The first item of a list, the items behind it, and the end of the list. -/
theorem items?_write (hr : ∀ d ∈ item :: items, ReadsBack d)
    (hs : (write (depth + 1) item).length + (writeItems depth items).length < steps) :
    items? (steps + 1) (write (depth + 1) item ++ (writeItems depth items ++ rest)) =
      some (item :: items, rest) := by
  induction items generalizing item steps with
  | nil =>
    rw [writeItems, List.append_assoc]
    refine items?_last (hr item List.mem_cons_self (endsNumber_newline _ _) (by omega)) ?_
    exact skipSpace_newline _ _
  | cons next items ih =>
    rw [writeItems] at hs ⊢
    simp only [List.cons_append, List.length_append, List.length_cons, length_newline] at hs
    obtain ⟨n, rfl⟩ : ∃ n, steps = n + 1 := ⟨steps - 1, by omega⟩
    simp only [List.cons_append, List.append_assoc]
    refine items?_more (hr item List.mem_cons_self (endsNumber_comma _) (by omega))
      (skipSpace_cons (by decide)) ?_
    rw [items?_congr (skipSpace_newline _ _)]
    exact ih (fun d hd => hr d (List.mem_cons_of_mem _ hd)) (by omega)

/-- The first field of a record, the fields behind it, and the end of the record. -/
theorem fields?_write (hr : ∀ field ∈ (key, value) :: fields, ReadsBack field.2)
    (hs : (writeString key).length + (write (depth + 1) value).length +
      (writeFields depth fields).length < steps) :
    fields? (steps + 1) (writeString key ++ ([':', ' '] ++ (write (depth + 1) value ++
        (writeFields depth fields ++ rest)))) =
      some (((key, value) :: fields).map written, rest) := by
  induction fields generalizing key value steps with
  | nil =>
    have hv : ReadsBack value := hr _ List.mem_cons_self
    rw [writeFields, List.append_assoc]
    refine fields?_last (hv (endsNumber_newline _ _) (by omega)) ?_
    exact skipSpace_newline _ _
  | cons next fields ih =>
    have hv : ReadsBack value := hr _ List.mem_cons_self
    rw [writeFields] at hs ⊢
    simp only [List.cons_append, List.length_append, List.length_cons, List.length_nil,
      length_newline] at hs
    obtain ⟨n, rfl⟩ : ∃ n, steps = n + 1 := ⟨steps - 1, by omega⟩
    rw [List.append_assoc, List.append_assoc, List.append_assoc, List.append_assoc,
      List.cons_append]
    refine fields?_more (hv (endsNumber_comma _) (by omega)) (skipSpace_cons (by decide)) ?_
    exact (fields?_congr (skipSpace_newline _ _)).trans
      (ih (fun d hd => hr d (List.mem_cons_of_mem _ hd)) (by omega))

/-! ## Values -/

theorem recordDatum_written (fields : Fields) :
    recordDatum (fields.map written) = .record fields := by
  have hk : (fields.map written).mapM (fun field => (unescape? field.1).map fun key =>
      (String.ofList key, field.2)) = some fields :=
    mapM_map_eq_pure fun field _ => by simp [written, unescape?_escape]
  unfold recordDatum
  rw [hk]

theorem stringDatum_escape (s : String) : stringDatum (escape s.toList) = .text s := by
  unfold stringDatum
  rw [unescape?_escape]
  exact congrArg Datum.text String.ofList_toList

theorem value?_decimal {n : Nat} (hn : n ≤ maxNat) (hr : EndsNumber rest) :
    value? (steps + 1) (decimal n ++ rest) = some (.nat n, rest) := by
  have hd {c : Char} {cs : List Char} (h : decimal n ++ rest = c :: cs) : c.isDigit = true := by
    have hh := head?_decimal_append n rest
    rw [h] at hh
    exact isDigit_of_mem_decimal c (List.mem_of_mem_head? hh.symm)
  have hs : skipSpace (decimal n ++ rest) = decimal n ++ rest := by
    obtain ⟨c, cs, hw, hc, -⟩ := exists_write_eq_cons (Fits.nat hn : Fits 0 (.nat n)) 0
    rw [show decimal n = c :: cs from hw, List.cons_append, skipSpace_cons hc]
  rw [value?, hs]
  split
  iterate 6
    · rename_i h
      exact absurd (hd h) (by decide)
  · rw [number?_decimal hn hr]
    rfl

theorem value?_text (s : String) : value? (steps + 1) (writeString s ++ rest) =
    some (.text s, rest) := by
  have hw : writeString s ++ rest = '"' :: (escape s.toList ++ '"' :: rest) := by
    simp [writeString]
  rw [hw, value?, skipSpace_cons (by decide)]
  refine (congrArg (Option.map _) (literal?_escape _ _)).trans ?_
  exact congrArg (fun d => some (d, rest)) (stringDatum_escape s)

theorem value?_bracket : value? (steps + 1) ('[' :: a) =
    match skipSpace a with
    | ']' :: rest => some (.list [], rest)
    | rest => (items? steps rest).map fun (items, rest) => (.list items, rest) := rfl

theorem value?_list (ha : skipSpace a = c :: cs) (hc : c ≠ ']')
    (hi : items? steps (c :: cs) = some (items, rest)) :
    value? (steps + 1) ('[' :: a) = some (.list items, rest) := by
  rw [value?_bracket, ha]
  split
  · rename_i h
    injection h with h
    exact absurd h hc
  · rw [hi, Option.map_some]

theorem value?_brace : value? (steps + 1) ('\x7b' :: a) =
    match skipSpace a with
    | '\x7d' :: rest => some (.record [], rest)
    | rest => (fields? steps rest).map fun (fields, rest) => (recordDatum fields, rest) := rfl

theorem value?_record (ha : skipSpace a = '"' :: cs)
    (hf : fields? steps ('"' :: cs) = some (fields.map written, rest)) :
    value? (steps + 1) ('\x7b' :: a) = some (.record fields, rest) := by
  rw [value?_brace, ha]
  refine (congrArg (Option.map _) hf).trans ?_
  exact congrArg (fun d => some (d, rest)) (recordDatum_written fields)

theorem readsBack (h : Fits levels d) : ReadsBack d := by
  induction h with
  | null =>
    intro depth steps rest hr hs
    obtain ⟨n, rfl⟩ : ∃ n, steps = n + 1 := ⟨steps - 1, by omega⟩
    rfl
  | nat hn =>
    intro depth steps rest hr hs
    obtain ⟨n, rfl⟩ : ∃ n, steps = n + 1 := ⟨steps - 1, by omega⟩
    exact value?_decimal hn hr
  | text s =>
    intro depth steps rest hr hs
    obtain ⟨n, rfl⟩ : ∃ n, steps = n + 1 := ⟨steps - 1, by omega⟩
    exact value?_text s
  | @list _ items h ih =>
    intro depth steps rest hr hs
    obtain ⟨n, rfl⟩ : ∃ n, steps = n + 1 := ⟨steps - 1, by omega⟩
    cases items with
    | nil => rfl
    | cons item items =>
      obtain ⟨c, cs, hw, hc, he⟩ :=
        exists_write_eq_cons (h item List.mem_cons_self) (depth + 1)
      rw [write] at hs ⊢
      simp only [List.length_append, List.length_cons, length_newline] at hs
      obtain ⟨k, rfl⟩ : ∃ k, n = k + 1 := ⟨n - 1, by omega⟩
      rw [List.append_assoc, List.append_assoc, List.cons_append]
      have hi : items? (k + 1) (write (depth + 1) item ++ (writeItems depth items ++ rest)) =
          some (item :: items, rest) := items?_write ih (by omega)
      rw [hw, List.cons_append] at hi ⊢
      refine value?_list ?_ he hi
      exact (skipSpace_newline _ _).trans (skipSpace_cons hc)
  | @record _ fields h ih =>
    intro depth steps rest hr hs
    obtain ⟨n, rfl⟩ : ∃ n, steps = n + 1 := ⟨steps - 1, by omega⟩
    cases fields with
    | nil => rfl
    | cons field fields =>
      rw [write] at hs ⊢
      simp only [List.length_append, List.length_cons, length_newline] at hs
      obtain ⟨k, rfl⟩ : ∃ k, n = k + 1 := ⟨n - 1, by omega⟩
      rw [List.append_assoc, List.append_assoc, List.append_assoc, List.append_assoc,
        List.cons_append]
      have hf : fields? (k + 1) (writeString field.1 ++ ([':', ' '] ++ (write (depth + 1) field.2 ++
          (writeFields depth fields ++ rest)))) = some ((field :: fields).map written, rest) :=
        fields?_write ih (by omega)
      exact value?_record (skipSpace_newline _ _) hf

/-! ## Whole texts -/

theorem limitItems_eq_map (levels : Nat) (items : List Datum) :
    limitItems levels items = items.map (limit levels) := by
  induction items with
  | nil => rfl
  | cons item items ih => rw [limitItems, ih, List.map_cons]

theorem limitFields_eq_map (levels : Nat) (fields : Fields) :
    limitFields levels fields = fields.map fun field => (field.1, limit levels field.2) := by
  induction fields with
  | nil => rfl
  | cons field fields ih => rw [limitFields, ih, List.map_cons]

theorem limit_of_fits (h : Fits levels d) : limit levels d = d := by
  induction h with
  | null | nat | text => rfl
  | list h ih =>
    rw [limit, limitItems_eq_map, List.map_congr_left ih, List.map_id']
  | @record levels fields h ih =>
    have hm : ∀ field ∈ fields, (field.1, limit levels field.2) = field :=
      fun field hf => Prod.ext rfl (ih field hf)
    rw [limit, limitFields_eq_map, List.map_congr_left hm, List.map_id']

theorem parse?_render (h : Fits maxLevels d) : parse? (render d) = some d := by
  have hr : EndsNumber [] := nofun
  have hs : (write 0 d).length < 2 * (write 0 d).length + 2 := by omega
  have hv : value? _ (write 0 d ++ []) = some (d, []) := readsBack h hr hs
  rw [List.append_nil] at hv
  unfold parse? render readChars?
  rw [String.toList_ofList, hv]
  exact congrArg some (limit_of_fits h)

end PinFile.Json
