import Mathlib.Data.List.Basic
import PinFile.Text

/-!
# Trimmed texts

`trim` takes a run of blanks off both ends (`exists_trim`) and leaves a text with no blank at
either end (`isTrimmed_trim`). A text is trimmed when its first and its last character are no
blanks (`isTrimmed_iff`); blanks that are put around it are taken off again (`trim_surround`). The
texts at both sides of a visible sign are trimmed on their own (`trim_append_cons`).
-/

namespace PinFile.Text

/-- A run of blanks. -/
def Blanks (cs : List Char) : Prop := ∀ c ∈ cs, isBlank c = true

/-- The text does not start with a blank. -/
def BareStart (cs : List Char) : Prop := ∀ c ∈ cs.head?, isBlank c = false

/-- The text does not end with a blank. -/
def BareEnd (cs : List Char) : Prop := ∀ c ∈ cs.getLast?, isBlank c = false

def IsTrimmed (cs : List Char) : Prop := trim cs = cs

-- Not by instance search, which may find the one that tries every character there is.
instance (cs : List Char) : Decidable (BareStart cs) := Option.decidableForallMem cs.head?

instance (cs : List Char) : Decidable (BareEnd cs) := Option.decidableForallMem cs.getLast?

instance (cs : List Char) : Decidable (IsTrimmed cs) := inferInstanceAs (Decidable (trim cs = cs))

/-- What holds of the characters of a text is decided for those alone. -/
theorem forall_mem_of_all {p : Char → Prop} [DecidablePred p] {cs : List Char}
    (h : cs.all (p ·) = true) : ∀ c ∈ cs, p c := by
  simpa using h

theorem Blanks.nil : Blanks [] := by simp [Blanks]

theorem Blanks.append {a b : List Char} (ha : Blanks a) (hb : Blanks b) : Blanks (a ++ b) := by
  intro c hc
  rcases List.mem_append.mp hc with hc | hc
  · exact ha c hc
  · exact hb c hc

theorem blanks_space : Blanks [' '] := by simp [Blanks]; decide

/-! ## Ends of a text -/

theorem bareStart_cons {c : Char} {cs : List Char} : BareStart (c :: cs) ↔ isBlank c = false := by
  simp [BareStart]

theorem bareEnd_concat {c : Char} {cs : List Char} : BareEnd (cs ++ [c]) ↔ isBlank c = false := by
  simp [BareEnd]

theorem BareStart.append {a b : List Char} (h : BareStart a) (ha : a ≠ []) :
    BareStart (a ++ b) := by
  cases a with
  | nil => exact absurd rfl ha
  | cons c a => exact bareStart_cons.mpr (bareStart_cons.mp h)

theorem BareEnd.append {a b : List Char} (h : BareEnd b) (hb : b ≠ []) : BareEnd (a ++ b) := by
  obtain ⟨init, d, rfl⟩ := List.eq_nil_or_concat' b |>.resolve_left hb
  rw [← List.append_assoc]
  exact bareEnd_concat.mpr (bareEnd_concat.mp h)

theorem BareEnd.of_append {a b : List Char} (h : BareEnd (a ++ b)) : BareEnd b := by
  intro c hc
  apply h c
  rw [List.getLast?_append, Option.mem_def.mp hc, Option.some_or]
  rfl

theorem BareEnd.of_cons {c : Char} {cs : List Char} (h : BareEnd (c :: cs)) : BareEnd cs :=
  BareEnd.of_append (a := [c]) h

theorem bareStart_of_forall {cs : List Char} (h : ∀ c ∈ cs, isBlank c = false) : BareStart cs :=
  fun c hc => h c (List.mem_of_mem_head? hc)

theorem bareEnd_of_forall {cs : List Char} (h : ∀ c ∈ cs, isBlank c = false) : BareEnd cs :=
  fun c hc => h c (List.mem_of_getLast? hc)

/-! ## One end -/

theorem trimStart_eq_self {cs : List Char} (h : BareStart cs) : trimStart cs = cs := by
  cases cs with
  | nil => rfl
  | cons c cs => exact trimStart_of_head (bareStart_cons.mp h)

theorem trimEnd_eq_self {cs : List Char} (h : BareEnd cs) : trimEnd cs = cs := by
  rcases List.eq_nil_or_concat' cs with rfl | ⟨init, c, rfl⟩
  · rfl
  · exact trimEnd_of_getLast (bareEnd_concat.mp h)

theorem trimStart_append {a : List Char} (ha : Blanks a) (cs : List Char) :
    trimStart (a ++ cs) = trimStart cs := List.dropWhile_append_of_pos ha

theorem trimEnd_append (cs : List Char) {b : List Char} (hb : Blanks b) :
    trimEnd (cs ++ b) = trimEnd cs := by
  unfold trimEnd
  rw [List.reverse_append, List.dropWhile_append_of_pos]
  exact fun c hc => hb c (List.mem_reverse.mp hc)

theorem exists_trimStart (cs : List Char) : ∃ a, Blanks a ∧ cs = a ++ trimStart cs :=
  ⟨cs.takeWhile isBlank, fun _ hc => by simpa using List.all_eq_true.mp List.all_takeWhile _ hc,
    List.takeWhile_append_dropWhile.symm⟩

theorem exists_trimEnd (cs : List Char) : ∃ b, Blanks b ∧ cs = trimEnd cs ++ b := by
  refine ⟨(cs.reverse.takeWhile isBlank).reverse, fun c hc => ?_, ?_⟩
  · exact List.all_eq_true.mp List.all_takeWhile c (List.mem_reverse.mp hc)
  · unfold trimEnd
    rw [← List.reverse_append, List.takeWhile_append_dropWhile, List.reverse_reverse]

theorem bareStart_trimStart (cs : List Char) : BareStart (trimStart cs) := by
  intro c hc
  have h := List.head?_dropWhile_not isBlank cs
  unfold trimStart at hc
  rw [Option.mem_def.mp hc] at h
  simpa using h

theorem bareEnd_trimEnd (cs : List Char) : BareEnd (trimEnd cs) := by
  intro c hc
  unfold trimEnd at hc
  rw [List.getLast?_reverse] at hc
  exact bareStart_trimStart cs.reverse c hc

theorem trimStart_eq_nil_iff {cs : List Char} : trimStart cs = [] ↔ Blanks cs := by
  constructor
  · intro h
    obtain ⟨a, ha, hcs⟩ := exists_trimStart cs
    rw [h, List.append_nil] at hcs
    exact hcs ▸ ha
  · intro h
    rw [← List.append_nil cs, trimStart_append h]
    rfl

/-! ## Both ends -/

theorem BareStart.trimEnd {cs : List Char} (h : BareStart cs) : BareStart (trimEnd cs) := by
  obtain ⟨b, -, hcs⟩ := exists_trimEnd cs
  intro c hc
  apply h c
  rw [hcs]
  cases hd : Text.trimEnd cs with
  | nil => simp [hd] at hc
  | cons d ds => simpa [hd] using hc

theorem isTrimmed_iff {cs : List Char} : IsTrimmed cs ↔ BareStart cs ∧ BareEnd cs := by
  constructor
  · intro h
    unfold IsTrimmed trim at h
    rw [← h]
    exact ⟨(bareStart_trimStart cs).trimEnd, bareEnd_trimEnd _⟩
  · rintro ⟨hs, he⟩
    unfold IsTrimmed trim
    rw [trimStart_eq_self hs, trimEnd_eq_self he]

theorem isTrimmed_trim (cs : List Char) : IsTrimmed (trim cs) :=
  isTrimmed_iff.mpr ⟨(bareStart_trimStart cs).trimEnd, bareEnd_trimEnd _⟩

/-- A text is what `trim` leaves of it, between two runs of blanks. -/
theorem exists_trim (cs : List Char) :
    ∃ a b, Blanks a ∧ Blanks b ∧ cs = a ++ trim cs ++ b := by
  obtain ⟨a, ha, hcs⟩ := exists_trimStart cs
  obtain ⟨b, hb, hs⟩ := exists_trimEnd (trimStart cs)
  refine ⟨a, b, ha, hb, ?_⟩
  rw [List.append_assoc, trim, ← hs, ← hcs]

theorem trim_surround {a b cs : List Char} (ha : Blanks a) (hb : Blanks b) (h : IsTrimmed cs) :
    trim (a ++ cs ++ b) = cs := by
  obtain ⟨hs, he⟩ := isTrimmed_iff.mp h
  unfold trim
  rw [List.append_assoc, trimStart_append ha]
  cases cs with
  | nil => rw [List.nil_append, trimStart_eq_nil_iff.mpr hb]; rfl
  | cons c cs =>
    rw [trimStart_eq_self (hs.append (List.cons_ne_nil _ _)), trimEnd_append _ hb,
      trimEnd_eq_self he]

theorem trim_append {a : List Char} (ha : Blanks a) (cs : List Char) :
    trim (a ++ cs) = trim cs := by
  rw [trim, trimStart_append ha, trim]

/-- Blanks around a text do not count. -/
theorem trim_pad {a b : List Char} (ha : Blanks a) (hb : Blanks b) (cs : List Char) :
    trim (a ++ cs ++ b) = trim cs := by
  obtain ⟨a', b', ha', hb', hcs⟩ := exists_trim cs
  have he : a ++ cs ++ b = (a ++ a') ++ trim cs ++ (b' ++ b) := by
    conv_lhs => rw [hcs]
    simp
  rw [he, trim_surround (ha.append ha') (hb'.append hb) (isTrimmed_trim cs)]

theorem trim_trimStart (cs : List Char) : trim (trimStart cs) = trim cs := by
  obtain ⟨a, ha, hcs⟩ := exists_trimStart cs
  conv_rhs => rw [hcs, trim_append ha]

theorem trim_trimEnd (cs : List Char) : trim (trimEnd cs) = trim cs := by
  obtain ⟨b, hb, hcs⟩ := exists_trimEnd cs
  have := trim_pad Blanks.nil hb (trimEnd cs)
  rwa [List.nil_append, ← hcs, eq_comm] at this

/-- The ends can be trimmed in either order. -/
theorem trimStart_trimEnd (cs : List Char) : trimStart (trimEnd cs) = trim cs := by
  obtain ⟨a, -, ha⟩ := exists_trimStart (trimEnd cs)
  have he : BareEnd (trimStart (trimEnd cs)) := .of_append (ha ▸ bareEnd_trimEnd cs)
  rw [← trim_trimEnd, trim, trimEnd_eq_self he]

/-- The first part of a text is not trimmed at its end when that is no blank. -/
theorem trimEnd_append_of_bareEnd {a : List Char} (h : BareEnd a) (b : List Char) :
    trimEnd (a ++ b) = a ++ trimEnd b := by
  obtain ⟨w, hw, hb⟩ := exists_trimEnd b
  conv_lhs => rw [hb, ← List.append_assoc, trimEnd_append _ hw]
  cases ht : trimEnd b with
  | nil => rw [List.append_nil, trimEnd_eq_self h]
  | cons d ds => exact trimEnd_eq_self (.append (ht ▸ bareEnd_trimEnd b) (List.cons_ne_nil d ds))

/-- Each side of a visible sign is trimmed on its own. -/
theorem trim_append_cons {c : Char} (hc : isBlank c = false) (a b : List Char) :
    trim (a ++ c :: b) = trimStart a ++ c :: trimEnd b := by
  have hs : trimStart (a ++ c :: b) = trimStart a ++ c :: b := by
    obtain ⟨w, hw, ha⟩ := exists_trimStart a
    conv_lhs => rw [ha, List.append_assoc, trimStart_append hw]
    cases ht : trimStart a with
    | nil => exact trimStart_of_head hc
    | cons d ds =>
      have hd : isBlank d = false := bareStart_cons.mp (ht ▸ bareStart_trimStart a)
      exact trimStart_of_head hd
  have he : trimStart a ++ c :: b = (trimStart a ++ [c]) ++ b := by simp
  rw [trim, hs, he, trimEnd_append_of_bareEnd (bareEnd_concat.mpr hc)]
  simp

/-- Blanks in front of a visible sign are trimmed. -/
theorem trim_blanks_append_cons {w : List Char} {c : Char} (hw : Blanks w)
    (hc : isBlank c = false) (cs : List Char) : trim (w ++ c :: cs) = c :: trimEnd cs := by
  rw [trim_append_cons hc, trimStart_eq_nil_iff.mpr hw, List.nil_append]

/-- A text in front of which a word stands is trimmed at its end alone. -/
theorem trim_word_append {w x : List Char} (hw : Blanks w) (hx : ∀ c ∈ x, isBlank c = false)
    (hne : x ≠ []) (cs : List Char) : trim (w ++ (x ++ cs)) = x ++ trimEnd cs := by
  rw [trim, trimStart_append hw, trimStart_eq_self ((bareStart_of_forall hx).append hne),
    trimEnd_append_of_bareEnd (bareEnd_of_forall hx)]

theorem trim_space_cons {cs : List Char} (h : IsTrimmed cs) : trim (' ' :: cs) = cs := by
  simpa using trim_surround blanks_space Blanks.nil h

theorem trim_eq_nil_iff {cs : List Char} : trim cs = [] ↔ Blanks cs := by
  constructor
  · intro h
    obtain ⟨a, b, ha, hb, hcs⟩ := exists_trim cs
    rw [hcs, h, List.append_nil]
    exact ha.append hb
  · intro h
    unfold trim
    rw [trimStart_eq_nil_iff.mpr h]
    rfl

theorem trim_sublist (cs : List Char) : (trim cs).Sublist cs := by
  have h : (trimEnd (trimStart cs)).Sublist (trimStart cs) := by
    obtain ⟨b, -, hcs⟩ := exists_trimEnd (trimStart cs)
    exact List.IsPrefix.sublist ⟨b, hcs.symm⟩
  exact h.trans (List.dropWhile_sublist isBlank)

theorem mem_of_mem_trim {c : Char} {cs : List Char} (h : c ∈ trim cs) : c ∈ cs :=
  (trim_sublist cs).subset h

theorem isTrimmed_of_forall {cs : List Char} (h : ∀ c ∈ cs, isBlank c = false) : IsTrimmed cs :=
  isTrimmed_iff.mpr ⟨bareStart_of_forall h, bareEnd_of_forall h⟩

end PinFile.Text
