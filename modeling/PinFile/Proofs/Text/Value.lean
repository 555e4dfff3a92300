import Mathlib.Data.List.Infix
import PinFile.Proofs.Text.Trim

/-!
# Values

The texts that an entry carries as they are: a URL is one word, and a value may hold blanks but
has none at its ends. Neither holds a blank in front of `#`, which would start a comment
(`hasMark`).
-/

namespace PinFile.Text

/-- A blank stands right in front of `#`. -/
def hasMark : List Char → Bool
  | c :: d :: cs => isBlank c && d == '#' || hasMark (d :: cs)
  | _ => false

/-- A text that can follow `@`: one word, which a semicolon does not start. -/
structure IsUrl (cs : List Char) : Prop where
  ne_nil : cs ≠ []
  noBlank : ∀ c ∈ cs, isBlank c = false
  head : cs.head? ≠ some ';'

/-- A text that can be a line: it has no blank at its ends and no end of line inside. -/
structure IsLineText (cs : List Char) : Prop where
  trimmed : IsTrimmed cs
  oneLine : '\n' ∉ cs

/-- A text that can be a marker, a target, a path or the value of an option. -/
structure IsValue (cs : List Char) : Prop extends IsLineText cs where
  ne_nil : cs ≠ []
  noMark : hasMark cs = false

instance (cs : List Char) : Decidable (IsUrl cs) :=
  decidable_of_iff (cs ≠ [] ∧ cs.all (!isBlank ·) = true ∧ cs.head? ≠ some ';')
    ⟨fun h => ⟨h.1, by simpa using h.2.1, h.2.2⟩, fun h => ⟨h.1, by simpa using h.2, h.3⟩⟩

instance (cs : List Char) : Decidable (IsLineText cs) :=
  decidable_of_iff (IsTrimmed cs ∧ '\n' ∉ cs) ⟨fun h => ⟨h.1, h.2⟩, fun h => ⟨h.1, h.2⟩⟩

instance (cs : List Char) : Decidable (IsValue cs) :=
  decidable_of_iff (IsLineText cs ∧ cs ≠ [] ∧ hasMark cs = false)
    ⟨fun h => ⟨h.1, h.2.1, h.2.2⟩, fun h => ⟨h.1, h.2, h.3⟩⟩

theorem isLineText_nil : IsLineText [] := ⟨by decide, by simp⟩

theorem hasMark_cons_cons {c d : Char} {cs : List Char} :
    hasMark (c :: d :: cs) = (isBlank c && d == '#' || hasMark (d :: cs)) := rfl

theorem hasMark_iff {cs : List Char} :
    hasMark cs = true ↔ ∃ a c b, cs = a ++ c :: '#' :: b ∧ isBlank c = true := by
  induction cs with
  | nil => simp [hasMark]
  | cons c cs ih =>
    cases cs with
    | nil =>
      simp only [hasMark, Bool.false_eq_true, false_iff]
      rintro ⟨_ | ⟨x, _ | ⟨y, a⟩⟩, c', b, h, -⟩ <;> simp at h
    | cons d cs =>
      rw [hasMark_cons_cons, Bool.or_eq_true, ih, Bool.and_eq_true, beq_iff_eq]
      constructor
      · rintro (⟨hc, rfl⟩ | ⟨a, c', b, h, hc⟩)
        · exact ⟨[], c, cs, rfl, hc⟩
        · exact ⟨c :: a, c', b, by rw [h]; rfl, hc⟩
      · rintro ⟨_ | ⟨x, a⟩, c', b, h, hc⟩
        · simp only [List.nil_append, List.cons.injEq] at h
          obtain ⟨rfl, rfl, -⟩ := h
          exact .inl ⟨hc, rfl⟩
        · simp only [List.cons_append, List.cons.injEq] at h
          exact .inr ⟨a, c', b, h.2, hc⟩

theorem hasMark_of_infix {a b : List Char} (h : a <:+: b) (hb : hasMark b = false) :
    hasMark a = false := by
  obtain ⟨s, t, rfl⟩ := h
  cases ha : hasMark a with
  | false => rfl
  | true =>
    obtain ⟨x, c, y, rfl, hc⟩ := hasMark_iff.mp ha
    rw [hasMark_iff.mpr ⟨s ++ x, c, y ++ t, by simp, hc⟩] at hb
    cases hb

theorem hasMark_of_forall {cs : List Char} (h : ∀ c ∈ cs, isBlank c = false) :
    hasMark cs = false := by
  cases hm : hasMark cs with
  | false => rfl
  | true =>
    obtain ⟨a, c, b, rfl, hc⟩ := hasMark_iff.mp hm
    rw [h c (by simp)] at hc
    cases hc

theorem hasMark_of_not_mem {cs : List Char} (h : '#' ∉ cs) : hasMark cs = false := by
  cases hm : hasMark cs with
  | false => rfl
  | true =>
    obtain ⟨a, c, b, rfl, -⟩ := hasMark_iff.mp hm
    exact absurd (by simp) h

/-- No mark comes from putting texts together, when one does not start in the gap. -/
theorem hasMark_append {a b : List Char} (ha : hasMark a = false) (hb : hasMark b = false)
    (h : BareEnd a ∨ b.head? ≠ some '#') : hasMark (a ++ b) = false := by
  induction a with
  | nil => exact hb
  | cons c a ih =>
    cases a with
    | nil =>
      cases b with
      | nil => rfl
      | cons d b =>
        rw [List.singleton_append, hasMark_cons_cons, hb, Bool.or_false]
        rcases h with h | h
        · rw [h c rfl, Bool.false_and]
        · have : (d == '#') = false := by simpa using h
          rw [this, Bool.and_false]
    | cons d a =>
      rw [hasMark_cons_cons, Bool.or_eq_false_iff] at ha
      rw [List.cons_append, List.cons_append, hasMark_cons_cons, ha.1, Bool.false_or]
      refine ih ha.2 (h.imp_left fun h e he => h e ?_)
      rwa [List.getLast?_cons_cons]

theorem IsUrl.bareStart {cs : List Char} (h : IsUrl cs) : BareStart cs :=
  bareStart_of_forall h.noBlank

theorem IsUrl.bareEnd {cs : List Char} (h : IsUrl cs) : BareEnd cs := bareEnd_of_forall h.noBlank

/-- A character that is no blank ends no line. -/
theorem oneLine_of_forall {cs : List Char} (h : ∀ c ∈ cs, isBlank c = false) : '\n' ∉ cs :=
  fun hm => absurd (h _ hm) (by decide)

theorem IsUrl.oneLine {cs : List Char} (h : IsUrl cs) : '\n' ∉ cs := oneLine_of_forall h.noBlank

theorem IsValue.bareStart {cs : List Char} (h : IsValue cs) : BareStart cs :=
  (isTrimmed_iff.mp h.trimmed).1

theorem IsValue.bareEnd {cs : List Char} (h : IsValue cs) : BareEnd cs :=
  (isTrimmed_iff.mp h.trimmed).2

end PinFile.Text
