import Mathlib.Data.List.Find
import PinFile.Proofs.Line.Written

/-!
# Spellings of options

A line gives an option a value in one of three ways: behind a flag and blanks, behind the long flag
and `=`, or right behind the short flag (`Spells`). All of them are read as the same line
(`parse_of_spells`), since a text that touches a short flag makes neither a long flag nor another
option out of it (`readEntry_short_append`).
-/

namespace PinFile.OptionForm

open Text

variable {form : OptionForm} {flag v text : String} {gap cs : List Char}

/-- The texts that give an option a value. -/
inductive Spells (form : OptionForm) (v : String) : String → Prop where
  | apart {flag gap : String} : flag ∈ form.spellings → Blanks gap.toList → gap ≠ "" →
      Spells form v (flag ++ gap ++ v)
  | assigned {gap : String} : Blanks gap.toList → Spells form v (form.long ++ "=" ++ gap ++ v)
  | touching {flag : String} : form.short = some flag → Spells form v (flag ++ v)

/-- The entry of an option that takes a value: an editable install, an inclusion, or the option
itself. -/
def entryWith (form : OptionForm) (v : String) : Entry :=
  if form = editable then .editable ⟨v⟩
  else if form = requirement then .includeFile ⟨.requirements, v⟩
  else if form = constraint then .includeFile ⟨.constraints, v⟩
  else .option ⟨form.long, some v⟩

theorem entry_some (ht : form.takesValue = true) (hv : IsValue v.toList) :
    form.entry (some v) = .ok (form.entryWith v) := by
  have htarget : Editable.ofTarget v = .ok ⟨v⟩ := by
    rw [Editable.ofTarget, hv.trimmed, if_neg (by simpa using hv.ne_nil)]
  unfold entry entryWith
  rw [ht]
  dsimp only
  rw [htarget]
  split
  · rfl
  · split
    · rfl
    · split <;> rfl

/-! ## Flags -/

/-- A short flag is a hyphen and a visible character that is none. -/
theorem exists_short (hf : form ∈ known) (hs : form.short = some flag) :
    ∃ c, flag.toList = ['-', c] ∧ c ≠ '-' ∧ isBlank c = false := by
  have h : ∀ form ∈ known, ∀ flag ∈ form.short, flag.toList.length = 2 ∧
      flag.toList.head? = some '-' ∧
        flag.toList.getLast?.all (fun c => c != '-' && !isBlank c) := by
    decide
  obtain ⟨hlength, hhead, hlast⟩ := h form hf flag hs
  obtain ⟨hyphen, c, hflag⟩ := List.length_eq_two.mp hlength
  rw [hflag] at hhead hlast ⊢
  obtain rfl : hyphen = '-' := Option.some.inj hhead
  exact ⟨c, rfl, by simpa using hlast⟩

theorem prefix_long (hf : form ∈ known) : ['-', '-'] <+: form.long.toList := by
  have h : ∀ form ∈ known, ['-', '-'].isPrefixOf form.long.toList = true := by decide
  exact List.isPrefixOf_iff_prefix.mp (h form hf)

/-- A short flag tells the option. -/
theorem find?_short (hf : form ∈ known) (hs : form.short = some flag) :
    known.find? (fun o => o.takesValue && o.short == some flag) = some form := by
  have h : ∀ form ∈ known, ∀ flag ∈ form.short,
      known.find? (fun o => o.takesValue && o.short == some flag) = some form := by
    decide
  exact h form hf flag hs

/-! ## Reading -/

/-- A long flag ends at `=`. -/
theorem readEntry_assigned (hf : form ∈ known) (cs : List Char) :
    readEntry (form.long.toList ++ '=' :: cs) = form.entry (value? cs) := by
  obtain ⟨-, hc, hn⟩ := forall_spellings form hf form.long List.mem_cons_self
  have hflag : ∀ c ∈ form.long.toList, (!isBlank c) = true := fun c h => by simp [(hc c h).1]
  have hsign : '=' ∉ form.long.toList := fun h => (hc _ h).2.1 rfl
  have hword : (form.long.toList ++ '=' :: cs).takeWhile (!isBlank ·) =
      form.long.toList ++ '=' :: cs.takeWhile (!isBlank ·) := by
    rw [List.takeWhile_append_of_pos hflag, List.takeWhile_cons_of_pos (by decide)]
  have hrest : (form.long.toList ++ '=' :: cs).dropWhile (!isBlank ·) =
      cs.dropWhile (!isBlank ·) := by
    rw [List.dropWhile_append_of_pos hflag, List.dropWhile_cons_of_pos (by decide)]
  have hlong : ['-', '-'].isPrefixOf form.long.toList = true :=
    List.isPrefixOf_iff_prefix.mpr (prefix_long hf)
  rw [readEntry, hword, hrest, flagAndValue, cut?_sign hsign]
  dsimp only
  rw [if_pos hlong, List.takeWhile_append_dropWhile]
  dsimp only
  rw [hn]

/-- No flag is a short one with something right behind it. -/
theorem named?_short_append (hf : form ∈ known) (hs : form.short = some flag) (hcs : cs ≠ []) :
    named? (flag.toList ++ cs) = none := by
  obtain ⟨c, hflag, hc, -⟩ := exists_short hf hs
  rw [named?, List.find?_eq_none]
  intro o ho
  rw [hflag, Bool.or_eq_true, not_or]
  constructor
  · intro hlong
    obtain ⟨rest, hrest⟩ := prefix_long ho
    rw [beq_iff_eq.mp hlong] at hrest
    exact hc (List.cons.inj (List.cons.inj hrest).2).1.symm
  · intro hshort
    obtain ⟨flag', hs', he⟩ := (Option.any_eq_true _ _).mp hshort
    obtain ⟨c', hflag', -⟩ := exists_short ho hs'
    rw [beq_iff_eq, hflag'] at he
    exact hcs (List.cons.inj (List.cons.inj he).2).2.symm

/-- Only one short flag stands at the start of a text. -/
theorem any_prefix_short {o : OptionForm} (hf : form ∈ known) (hs : form.short = some flag)
    (ho : o ∈ known) (cs : List Char) :
    o.short.any (·.toList.isPrefixOf (flag.toList ++ cs)) = (o.short == some flag) := by
  obtain ⟨c, hflag, -⟩ := exists_short hf hs
  cases hs' : o.short with
  | none => rfl
  | some flag' =>
    obtain ⟨c', hflag', -⟩ := exists_short ho hs'
    have heq : flag' = flag ↔ c' = c := by
      rw [← String.toList_inj, hflag, hflag']
      simp
    rw [Bool.eq_iff_iff, Option.any_some, hflag, hflag']
    simp [heq]

theorem glued?_short_append (hf : form ∈ known) (hs : form.short = some flag) (hcs : cs ≠ []) :
    glued? (flag.toList ++ cs) = some form := by
  obtain ⟨c, hflag, hc, -⟩ := exists_short hf hs
  have hshort : ¬ (['-', '-'].isPrefixOf (flag.toList ++ cs) ||
      decide ((flag.toList ++ cs).length ≤ 2)) = true := by
    have hlength : 0 < cs.length := List.length_pos_iff.mpr hcs
    simp [hflag, hc.symm]
    omega
  have hsame : ∀ o ∈ known,
      (o.takesValue && o.short.any (·.toList.isPrefixOf (flag.toList ++ cs))) =
        (o.takesValue && o.short == some flag) :=
    fun o ho => by rw [any_prefix_short hf hs ho]
  rw [glued?, if_neg hshort, List.find?_congr hsame, find?_short hf hs]

/-- A short flag is read with what touches it, also where that is `=` or a hyphen. -/
theorem readEntry_short_append {x : Char} (hf : form ∈ known) (hs : form.short = some flag)
    (hx : isBlank x = false) (cs : List Char) :
    readEntry (flag.toList ++ x :: cs) = form.entry (value? (x :: cs)) := by
  obtain ⟨c, hflag, hc, hb⟩ := exists_short hf hs
  have hblank : ∀ c ∈ flag.toList, (!isBlank c) = true := by
    rw [hflag]
    simpa [hb] using (by decide : isBlank '-' = false)
  have hword : (flag.toList ++ x :: cs).takeWhile (!isBlank ·) =
      flag.toList ++ x :: cs.takeWhile (!isBlank ·) := by
    rw [List.takeWhile_append_of_pos hblank, List.takeWhile_cons_of_pos (by simp [hx])]
  have hflagAndValue (rest : List Char) :
      flagAndValue (flag.toList ++ x :: cs.takeWhile (!isBlank ·)) rest =
        (flag.toList ++ x :: cs.takeWhile (!isBlank ·), rest) := by
    unfold flagAndValue
    split
    · rename_i flag' value hcut
      obtain ⟨sign, -, he, -⟩ := eq_append_of_cut? hcut
      apply if_neg
      intro hlong
      obtain ⟨rest', hrest⟩ := List.isPrefixOf_iff_prefix.mp hlong
      rw [← hrest, hflag] at he
      exact hc (List.cons.inj (List.cons.inj he).2).1
    · rfl
  have hdrop : (flag.toList ++ x :: cs).drop 2 = x :: cs := by rw [hflag]; rfl
  rw [readEntry, hword, hflagAndValue]
  dsimp only
  rw [named?_short_append hf hs (List.cons_ne_nil _ _)]
  dsimp only
  rw [glued?_short_append hf hs (List.cons_ne_nil _ _)]
  dsimp only
  rw [hdrop]

/-! ## Lines -/

namespace Spells

/-- What stands between a flag and the value starts no comment. -/
theorem exists_flag (h : Spells form v text) : ∃ flag ∈ form.spellings, ∃ gap : List Char,
    text.toList = flag.toList ++ gap ++ v.toList ∧ '#' ∉ gap := by
  have hblank {gap : List Char} (hg : Blanks gap) : '#' ∉ gap :=
    fun hm => absurd (hg _ hm) (by decide)
  cases h with
  | @apart flag gap hs hg _ => exact ⟨flag, hs, gap.toList, by simp, hblank hg⟩
  | @assigned gap hg => exact ⟨form.long, List.mem_cons_self, '=' :: gap.toList, by simp,
      by simpa using hblank hg⟩
  | @touching flag hs => exact ⟨flag, by simp [spellings, hs], [], by simp, List.not_mem_nil⟩

variable (h : Spells form v text) (hf : form ∈ known) (hv : IsValue v.toList)
include h hf hv

theorem readEntry_eq : readEntry text.toList = form.entry (some v) := by
  cases h with
  | @apart flag gap hs hg hne =>
    have hgap : ∀ c ∈ (gap.toList ++ v.toList).head?, isBlank c = true := by
      intro c hc
      rw [List.head?_append_of_ne_nil _ (by simpa using hne)] at hc
      exact hg c (List.mem_of_mem_head? hc)
    rw [String.toList_append, String.toList_append, List.append_assoc,
      readEntry_flag_append hf hs hgap, value?_blanks_append hg hv.ne_nil hv.trimmed]
  | @assigned gap hg =>
    have hchars : (form.long ++ "=" ++ gap ++ v).toList =
        form.long.toList ++ '=' :: (gap.toList ++ v.toList) := by simp
    rw [hchars, readEntry_assigned hf, value?_blanks_append hg hv.ne_nil hv.trimmed]
  | @touching flag hs =>
    have hvalue : value? v.toList = some v := value?_blanks_append .nil hv.ne_nil hv.trimmed
    obtain ⟨x, cs, hx⟩ := List.exists_cons_of_ne_nil hv.ne_nil
    have hb : isBlank x = false := bareStart_cons.mp (hx ▸ hv.bareStart)
    rw [String.toList_append, hx, readEntry_short_append hf hs hb, ← hx, hvalue]

theorem isTrimmed : IsTrimmed text.toList := by
  obtain ⟨flag, hs, gap, ht, -⟩ := h.exists_flag
  have hstart : BareStart flag.toList := bareStart_of_forall (isBlank_of_mem_flag hf hs)
  rw [ht]
  refine isTrimmed_iff.mpr ⟨?_, hv.bareEnd.append hv.ne_nil⟩
  rw [List.append_assoc]
  exact hstart.append (ne_nil_of_mem_spellings hf hs)

theorem hasMark_eq (hh : v.toList.head? ≠ some '#') : hasMark text.toList = false := by
  obtain ⟨flag, hs, gap, ht, hg⟩ := h.exists_flag
  have hb := isBlank_of_mem_flag hf hs
  rw [ht]
  exact hasMark_append (hasMark_append (hasMark_of_forall hb) (hasMark_of_not_mem hg)
    (.inl (bareEnd_of_forall hb))) hv.noMark (.inr hh)

omit hv in
theorem head?_eq : text.toList.head? = some '-' := by
  obtain ⟨flag, hs, gap, ht, -⟩ := h.exists_flag
  rw [ht, List.append_assoc, List.head?_append_of_ne_nil _ (ne_nil_of_mem_spellings hf hs)]
  exact (forall_spellings form hf flag hs).1

end Spells

/-- All spellings of an option that takes a value are read as the same line, which carries the
value as it is. -/
theorem parse_of_spells (hf : form ∈ known) (ht : form.takesValue = true)
    (hv : IsValue v.toList) (hh : v.toList.head? ≠ some '#') (hs : form.Spells v text)
    (number : Nat) : Line.parse text number = .ok ⟨number, form.entryWith v, none⟩ := by
  obtain ⟨rest, hrest⟩ := List.head?_eq_some_iff.mp (hs.head?_eq hf)
  have htrim := hs.isTrimmed hf hv
  have hsplit : Line.splitComment text.toList = (text.toList, none) :=
    Line.splitComment_of_noMark (hs.hasMark_eq hf hv hh) (isTrimmed_iff.mp htrim).2
  have hread : Line.readEntry text.toList = .ok (form.entryWith v) := by
    rw [Line.readEntry, if_pos (by rw [hs.head?_eq hf]; rfl), hs.readEntry_eq hf hv,
      entry_some ht hv]
  rw [Line.parse, Line.readChars_of_entry htrim ⟨'-', rest, hrest, by decide⟩, hsplit]
  dsimp only
  rw [hread]
  rfl

/-- A value that looks like the rest of a flag. -/
theorem parse_of_spells_hyphens : IsValue "-=e --pre".toList ∧
    "-=e --pre".toList.head? ≠ some '#' ∧
    Line.parse "-i-=e --pre" 3 = .ok ⟨3, .option ⟨"--index-url", some "-=e --pre"⟩, none⟩ ∧
    Line.parse "--index-url= -=e --pre" 3 =
      .ok ⟨3, .option ⟨"--index-url", some "-=e --pre"⟩, none⟩ ∧
    Line.parse "-e -=e --pre" 3 = .ok ⟨3, .editable ⟨"-=e --pre"⟩, none⟩ := by
  have hv : IsValue "-=e --pre".toList := by decide
  have hh : "-=e --pre".toList.head? ≠ some '#' := by decide
  have htouching : Spells ⟨some "-i", "--index-url", true⟩ "-=e --pre" "-i-=e --pre" :=
    @Spells.touching _ _ "-i" rfl
  have hassigned : Spells ⟨some "-i", "--index-url", true⟩ "-=e --pre"
      "--index-url= -=e --pre" := @Spells.assigned _ _ " " blanks_space
  have hapart : Spells editable "-=e --pre" "-e -=e --pre" :=
    @Spells.apart _ _ "-e" " " (by decide) blanks_space (by decide)
  exact ⟨hv, hh, parse_of_spells (by decide) rfl hv hh htouching 3,
    parse_of_spells (by decide) rfl hv hh hassigned 3,
    parse_of_spells (by decide) rfl hv hh hapart 3⟩

end PinFile.OptionForm
