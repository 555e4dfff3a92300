import PinFile.Proofs.Line.Comment
import PinFile.Proofs.Line.Sound
import PinFile.Proofs.Requirement.Accepted

/-!
# What is read as a line

Every line that is read is sound, and its text has no more backslashes than the text it is read
from (`readChars_eq_ok`).
-/

namespace PinFile

open Text

/-- A requirement in the entry is one that is read from a line. -/
def Entry.Accepted (e : Entry) : Prop := ∀ r, e = .requirement r → r.Accepted

theorem Entry.accepted_of_isRemark {e : Entry} (h : e.isRemark = true) : e.Accepted := by
  rintro r rfl
  cases h

namespace OptionForm

/-- The entry that an option is with a value is sound. -/
theorem sound_of_entry {form : OptionForm} {value : Option String} {e : Entry}
    (hf : form ∈ known) (he : form.entry value = .ok e) (hv : ∀ v ∈ value, IsValue v.toList) :
    e.Sound ∧ e.isRemark = false ∧ e.Accepted := by
  rcases entry_eq_ok he with ⟨v, rfl, ⟨-, rfl⟩ | ⟨-, rfl⟩ | ⟨-, rfl⟩⟩ | ⟨hn, rfl, hs⟩
  · exact ⟨hv v rfl, rfl, fun r h => nomatch h⟩
  · exact ⟨hv v rfl, rfl, fun r h => nomatch h⟩
  · exact ⟨hv v rfl, rfl, fun r h => nomatch h⟩
  · exact ⟨⟨⟨form, hf, hn, rfl, hs⟩, hv⟩, rfl, fun r h => nomatch h⟩

theorem count_optionChars {form : OptionForm} {flag : String} (hf : form ∈ known)
    (hs : flag ∈ form.spellings) (value : Option String) :
    (optionChars flag value).count '\\' = (value.elim [] String.toList).count '\\' := by
  have hz : flag.toList.count '\\' = 0 :=
    List.count_eq_zero.mpr fun hm => ((forall_spellings form hf flag hs).2.1 _ hm).2.2 rfl
  cases value <;> simp [optionChars, hz]

end OptionForm

namespace Line

variable {cs : List Char} {e : Entry} {line : Line} {n : Nat}

/-- The text in front of a comment is read as an entry with no more backslashes. -/
theorem readEntry_eq_ok (h : readEntry cs = .ok e) (hm : hasMark cs = false) (hl : '\n' ∉ cs) :
    e.Sound ∧ e.isRemark = false ∧ e.Accepted ∧ e.render.toList.count '\\' ≤ cs.count '\\' := by
  unfold readEntry at h
  split at h
  · obtain ⟨form, hf, value, he, hv⟩ := OptionForm.readEntry_eq_ok h
    have hvalue : ∀ v ∈ value, IsValue v.toList := fun v hv' =>
      have ⟨hne, ht, hi⟩ := hv v hv'
      ⟨⟨ht, fun hn => hl (hi.subset hn)⟩, hne, hasMark_of_infix hi hm⟩
    obtain ⟨hsound, hr, ha⟩ := OptionForm.sound_of_entry hf he hvalue
    obtain ⟨flag, hs, ht⟩ := OptionForm.exists_spelling he
    refine ⟨hsound, hr, ha, ?_⟩
    rw [ht, OptionForm.count_optionChars hf hs]
    cases value with
    | none => simp
    | some v => exact (hv v rfl).2.2.sublist.count_le _
  · obtain ⟨r, hr, rfl⟩ := map_eq_ok_iff.mp h
    obtain ⟨ha, spec, tail, rfl, hspec, -⟩ := Requirement.readChars_eq_ok hr hm
    refine ⟨ha.toSound, rfl, fun r' h => ?_, ?_⟩
    · cases h
      exact ha
    · have hz : (Requirement.hashesChars r.hashes).count '\\' = 0 := List.count_eq_zero.mpr
        (Requirement.not_mem_hashesChars ha.hashes (by decide) (by decide) (by decide))
      have := hspec.count_le (show '\\' ∉ Requirement.separators by decide)
      unfold Entry.render
      rw [Requirement.toList_render, List.count_append, List.count_append, hz]
      omega

theorem count_renderComment {c : List Char} :
    (renderComment (some (String.ofList (trim c)))).toList.count '\\' ≤ c.count '\\' := by
  have h : (trim c).count '\\' ≤ c.count '\\' := (trim_sublist c).count_le _
  obtain ⟨rest, ht, ⟨rfl, -⟩ | ⟨-, rfl⟩⟩ := toList_renderComment (String.ofList (trim c))
  · simp [ht]
  · simpa [ht] using h

/-- What is read is sound, and nothing is read in a line but what stands in it. -/
theorem readChars_eq_ok (h : readChars cs n = .ok line) (hl : '\n' ∉ cs) :
    line.number = n ∧ line.Sound ∧ line.entry.Accepted ∧
      line.render.toList.count '\\' ≤ cs.count '\\' := by
  have hlt : '\n' ∉ trim cs := fun hm => hl (mem_of_mem_trim hm)
  have hct : (trim cs).count '\\' ≤ cs.count '\\' := (trim_sublist cs).count_le _
  obtain ⟨hm, tail, htail, hcomment⟩ := exists_splitComment hlt
  unfold readChars at h
  dsimp only at h
  split at h
  · cases h
    refine ⟨rfl, ⟨trivial, fun _ => rfl, by simp⟩, Entry.accepted_of_isRemark rfl, ?_⟩
    simp [toList_render, Entry.render, renderComment]
  · split at h
    · rename_i hc
      cases h
      refine ⟨rfl, ⟨⟨?_, ?_⟩, fun _ => rfl, by simp⟩, Entry.accepted_of_isRemark rfl, ?_⟩
      · simpa using hc
      · exact (String.toList_ofList).symm ▸ ⟨isTrimmed_trim cs, hlt⟩
      · simpa [toList_render, Entry.render, renderComment] using hct
    · generalize splitComment (trim cs) = parts at *
      obtain ⟨body, comment⟩ := parts
      dsimp only at *
      split at h
      · cases h
      · rename_i entry he
        cases h
        have hlb : '\n' ∉ body := fun hm => hlt (htail ▸ List.mem_append_left tail hm)
        obtain ⟨hsound, hr, ha, hcount⟩ := readEntry_eq_ok he hm hlb
        rw [htail, List.count_append] at hct
        refine ⟨rfl, ⟨hsound, fun h => ?_, fun c hc => ?_⟩, ha, ?_⟩
        · exact absurd h (by simp [hr])
        · obtain ⟨c', hc', rfl⟩ := Option.map_eq_some_iff.mp hc
          obtain ⟨w, rfl⟩ := hcomment c' hc'
          rw [String.toList_ofList]
          refine ⟨isTrimmed_trim c', fun hm => hlt ?_⟩
          rw [htail]
          simp [mem_of_mem_trim hm]
        · rw [toList_render, List.count_append]
          cases comment with
          | none =>
            simp only [Option.map_none, renderComment, String.toList_empty, List.count_nil]
            omega
          | some c =>
            obtain ⟨w, rfl⟩ := hcomment c rfl
            have hr : (renderComment (some (String.ofList (trim c)))).toList.count '\\' ≤
                c.count '\\' := count_renderComment
            have hw : c.count '\\' ≤ (w ++ '#' :: c).count '\\' :=
              ((List.sublist_cons_self '#' c).trans (List.sublist_append_right w _)).count_le _
            simp only [Option.map_some]
            omega

end Line

end PinFile
