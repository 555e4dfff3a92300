import PinFile.Proofs.Text.Trim
import PinFile.Requirement.Reader

/-!
# Option tails

`quoteAt quote cs` is the quote that is open behind `cs`. `NoOptions quote cs` says that no option
tail begins in `cs`: at no place of it, with the quote that is open there, does a run of blanks go
on to `--` (`noOptions_iff`), so no blank outside quotes stands right in front of `--`
(`noOptions_iff_tailFree`). What `splitOptions` cuts off in front of a tail is such a text, and
every quote in it is closed (`splitOptions_eq_some`).
-/

namespace PinFile.Requirement

open Text

def isQuote (c : Char) : Bool := c == '"' || c == '\''

def quoteAt (quote : Option Char) (cs : List Char) : Option Char := cs.foldl quoteAfter quote

def NoOptions (quote : Option Char) (cs : List Char) : Prop := (splitOptions quote cs).2 = none

instance (quote : Option Char) (cs : List Char) : Decidable (NoOptions quote cs) :=
  inferInstanceAs (Decidable ((splitOptions quote cs).2 = none))

variable {quote : Option Char} {c : Char} {cs a b : List Char}

/-! ## Open quotes -/

theorem quoteAt_append : quoteAt quote (a ++ b) = quoteAt (quoteAt quote a) b := List.foldl_append

theorem quoteAt_cons : quoteAt quote (c :: cs) = quoteAt (quoteAfter quote c) cs := rfl

theorem isQuote_of_quoteAfter (hq : ∀ q ∈ quote, isQuote q = true) :
    ∀ q ∈ quoteAfter quote c, isQuote q = true := by
  intro q h
  cases quote with
  | none =>
    simp only [quoteAfter] at h
    split at h
    · rename_i hc
      cases h
      simpa [isQuote] using hc
    · cases h
  | some q' =>
    simp only [quoteAfter] at h
    split at h
    · cases h
    · exact hq q h

theorem quoteAfter_of_not_isQuote (hq : ∀ q ∈ quote, isQuote q = true) (hc : isQuote c = false) :
    quoteAfter quote c = quote := by
  cases quote with
  | none =>
    have : ¬ (c = '"' ∨ c = '\'') := by simpa [isQuote] using hc
    simp [quoteAfter, this]
  | some q =>
    have : c ≠ q := by
      rintro rfl
      rw [hq c rfl] at hc
      cases hc
    simp [quoteAfter, this]

theorem isQuote_of_quoteAt (hq : ∀ q ∈ quote, isQuote q = true) :
    ∀ q ∈ quoteAt quote cs, isQuote q = true := by
  induction cs generalizing quote with
  | nil => exact hq
  | cons c cs ih => exact ih (isQuote_of_quoteAfter hq)

theorem quoteAt_of_forall (hq : ∀ q ∈ quote, isQuote q = true)
    (h : ∀ c ∈ cs, isQuote c = false) : quoteAt quote cs = quote := by
  induction cs with
  | nil => rfl
  | cons c cs ih =>
    rw [quoteAt_cons, quoteAfter_of_not_isQuote hq (h c List.mem_cons_self)]
    exact ih fun d hd => h d (List.mem_cons_of_mem _ hd)

theorem isQuote_of_isBlank (h : isBlank c = true) : isQuote c = false := by
  cases hc : isQuote c with
  | false => rfl
  | true =>
    simp only [isQuote, Bool.or_eq_true, beq_iff_eq] at hc
    rcases hc with rfl | rfl <;> exact absurd h (by decide)

/-! ## Where a tail starts -/

theorem startsOptions_of_not_isBlank (h : isBlank c = false) (rest : List Char) :
    startsOptions quote c rest = false := by
  simp [startsOptions, h]

/-- A tail that starts is not stopped by what follows. -/
theorem startsOptions_append (h : startsOptions quote c a = true) :
    startsOptions quote c (a ++ b) = true := by
  simp only [startsOptions, Bool.and_eq_true, List.isPrefixOf_iff_prefix] at h ⊢
  refine ⟨h.1, ?_⟩
  obtain ⟨w, hw, ha⟩ := exists_trimStart a
  have hne : trimStart a ≠ [] := by
    intro e
    simp [e] at h
  rw [ha, List.append_assoc, trimStart_append hw,
    trimStart_eq_self ((bareStart_trimStart a).append hne)]
  exact h.2.trans (List.prefix_append _ _)

theorem splitOptions_cons (h : startsOptions quote c cs = false) :
    splitOptions quote (c :: cs) =
      (c :: (splitOptions (quoteAfter quote c) cs).1,
        (splitOptions (quoteAfter quote c) cs).2) := by
  rw [splitOptions, if_neg (by simp [h])]

theorem noOptions_nil : NoOptions quote [] := rfl

theorem noOptions_cons : NoOptions quote (c :: cs) ↔
    startsOptions quote c cs = false ∧ NoOptions (quoteAfter quote c) cs := by
  cases h : startsOptions quote c cs with
  | true => simp [NoOptions, splitOptions, h]
  | false => simp [NoOptions, splitOptions_cons h]

theorem noOptions_iff : NoOptions quote cs ↔
    ∀ a c b, cs = a ++ c :: b → startsOptions (quoteAt quote a) c b = false := by
  induction cs generalizing quote with
  | nil => simp [noOptions_nil]
  | cons d cs ih =>
    rw [noOptions_cons, ih]
    constructor
    · rintro ⟨h1, h2⟩ (_ | ⟨x, a⟩) c b h
      · cases h; exact h1
      · cases h; exact h2 a c b rfl
    · intro h
      exact ⟨h [] d cs rfl, fun a c b e => h (d :: a) c b (by rw [e]; rfl)⟩

/-- Outside quotes, no blank stands right in front of two hyphens. -/
def TailFree (quote : Option Char) (cs : List Char) : Prop :=
  ∀ a c b, cs = a ++ c :: '-' :: '-' :: b → isBlank c = true → quoteAt quote a ≠ none

/-- A tail begins with the run of blanks that ends right in front of two hyphens. -/
theorem noOptions_iff_tailFree : NoOptions quote cs ↔ TailFree quote cs := by
  rw [noOptions_iff]
  constructor
  · intro h a c b hcs hc hq
    have := h a c ('-' :: '-' :: b) hcs
    rw [hq] at this
    simp [startsOptions, hc, trimStart_of_head (show isBlank '-' = false by decide)] at this
  · intro h a c b hcs
    cases hs : startsOptions (quoteAt quote a) c b with
    | false => rfl
    | true =>
      simp only [startsOptions, Bool.and_eq_true, Option.isNone_iff_eq_none,
        List.isPrefixOf_iff_prefix] at hs
      obtain ⟨⟨hq, hc⟩, t, ht⟩ := hs
      obtain ⟨w, hw, hb⟩ := exists_trimStart b
      have hcw : Blanks (c :: w) := List.forall_mem_cons.mpr ⟨hc, hw⟩
      obtain ⟨init, d, he⟩ := List.eq_nil_or_concat' (c :: w) |>.resolve_left (by simp)
      rw [he] at hcw
      refine absurd ?_ (h (a ++ init) d t ?_ (hcw d (by simp)))
      · rw [quoteAt_append, hq]
        exact quoteAt_of_forall (by simp) fun x hx =>
          isQuote_of_isBlank (hcw x (List.mem_append_left _ hx))
      · rw [hcs, hb, ← ht, ← List.cons_append, he]
        simp

/-- A part of a text without tail has none, from the quote that is open before it. -/
theorem NoOptions.part {p t : List Char} (h : NoOptions quote (p ++ cs ++ t)) :
    NoOptions (quoteAt quote p) cs := by
  rw [noOptions_iff] at h ⊢
  intro a c b e
  have := h (p ++ a) c (b ++ t) (by rw [e]; simp)
  rw [quoteAt_append] at this
  cases hs : startsOptions (quoteAt (quoteAt quote p) a) c b with
  | false => rfl
  | true => rw [startsOptions_append hs] at this; cases this

/-- No tail starts in front of the first blank. -/
theorem noOptions_append_of_forall (h : ∀ c ∈ a, isBlank c = false) :
    NoOptions quote (a ++ b) ↔ NoOptions (quoteAt quote a) b := by
  induction a generalizing quote with
  | nil => rfl
  | cons c a ih =>
    have hc : startsOptions quote c (a ++ b) = false :=
      startsOptions_of_not_isBlank (h c List.mem_cons_self) (a ++ b)
    rw [List.cons_append, noOptions_cons, ih fun d hd => h d (List.mem_cons_of_mem _ hd),
      quoteAt_cons]
    simp [hc]

theorem noOptions_of_forall (h : ∀ c ∈ cs, isBlank c = false) : NoOptions quote cs := by
  have : NoOptions quote (cs ++ []) := (noOptions_append_of_forall h).mpr noOptions_nil
  rwa [List.append_nil] at this

theorem isPrefixOf_hyphen (h : '-' ∉ cs) (more : List Char) :
    ('-' :: more).isPrefixOf cs = false := by
  cases cs with
  | nil => rfl
  | cons x cs =>
    have : '-' ≠ x := fun e => h (e ▸ List.mem_cons_self)
    simp [List.isPrefixOf, this]

/-- The hyphens that a tail starts with are not in a text without hyphens. -/
theorem startsOptions_append_of_not_mem (h : '-' ∉ b) :
    startsOptions quote c (a ++ b) = startsOptions quote c a := by
  obtain ⟨w, hw, ha⟩ := exists_trimStart a
  cases ht : trimStart a with
  | nil =>
    have hs : trimStart (a ++ b) = trimStart b := by
      rw [ha, ht, List.append_nil, trimStart_append hw]
    have hn : '-' ∉ trimStart b := by
      obtain ⟨w', -, hw'⟩ := exists_trimStart b
      exact fun hm => h (hw' ▸ List.mem_append_right w' hm)
    rw [startsOptions, startsOptions, hs, ht, isPrefixOf_hyphen hn]
    rfl
  | cons x rest =>
    have hx : isBlank x = false := bareStart_cons.mp (ht ▸ bareStart_trimStart a)
    have hs : trimStart (a ++ b) = x :: (rest ++ b) := by
      rw [ha, ht, List.append_assoc, trimStart_append hw, List.cons_append, trimStart_of_head hx]
    rw [startsOptions, startsOptions, hs, ht]
    cases rest with
    | nil => simp [List.isPrefixOf, isPrefixOf_hyphen h]
    | cons y rest => simp [List.isPrefixOf]

theorem NoOptions.append_of_not_mem (ha : NoOptions quote a) (h : '-' ∉ b) :
    NoOptions quote (a ++ b) := by
  induction a generalizing quote with
  | nil =>
    apply noOptions_iff.mpr
    intro x c y e
    have hy : '-' ∉ y := fun hm => h (by rw [List.nil_append] at e; rw [e]; simp [hm])
    have : startsOptions (quoteAt quote x) c ([] ++ y) = startsOptions (quoteAt quote x) c [] :=
      startsOptions_append_of_not_mem hy
    rw [List.nil_append] at this
    rw [this]
    simp [startsOptions, trimStart]
  | cons c a ih =>
    obtain ⟨h1, h2⟩ := noOptions_cons.mp ha
    rw [List.cons_append]
    exact noOptions_cons.mpr ⟨(startsOptions_append_of_not_mem h).trans h1, ih h2⟩

theorem noOptions_sign_cons (hq : ∀ q ∈ quote, isQuote q = true) (hb : isBlank c = false)
    (hc : isQuote c = false) : NoOptions quote (c :: cs) ↔ NoOptions quote cs := by
  rw [noOptions_cons, startsOptions_of_not_isBlank hb, quoteAfter_of_not_isQuote hq hc]
  simp

/-- Blanks in front of anything but two hyphens start no tail. -/
theorem noOptions_blanks_append (hq : ∀ q ∈ quote, isQuote q = true) (ha : Blanks a)
    (hb : ¬ ['-', '-'] <+: trimStart b) : NoOptions quote (a ++ b) ↔ NoOptions quote b := by
  induction a with
  | nil => rfl
  | cons c a ih =>
    obtain ⟨hc, ha⟩ := List.forall_mem_cons.mp ha
    have hs : startsOptions quote c (a ++ b) = false := by
      have : ['-', '-'].isPrefixOf (trimStart b) = false := by
        simpa [← List.isPrefixOf_iff_prefix] using hb
      rw [startsOptions, trimStart_append ha, this, Bool.and_false]
    rw [List.cons_append, noOptions_cons, quoteAfter_of_not_isQuote hq (isQuote_of_isBlank hc),
      ih ha]
    simp [hs]

/-- One space and then a text: a tail starts there, or later on. -/
theorem noOptions_space_cons (hq : ∀ q ∈ quote, isQuote q = true) (hb : BareStart b) :
    NoOptions quote (' ' :: b) ↔ ¬ (quote = none ∧ ['-', '-'] <+: b) ∧ NoOptions quote b := by
  rw [noOptions_cons, quoteAfter_of_not_isQuote hq (by decide)]
  simp [startsOptions, trimStart_eq_self hb, show isBlank ' ' = true by decide,
    ← List.isPrefixOf_iff_prefix]

/-! ## The cut -/

theorem splitOptions_of_noOptions (h : NoOptions quote cs) :
    splitOptions quote cs = (cs, none) := by
  induction cs generalizing quote with
  | nil => rfl
  | cons c cs ih =>
    obtain ⟨h1, h2⟩ := noOptions_cons.mp h
    rw [splitOptions_cons h1, ih h2]

/-- A blank behind a text that ends outside its blanks starts no tail further in front. -/
theorem startsOptions_append_cons (h : startsOptions quote c a = false) (he : BareEnd (c :: a))
    {d : Char} (hd : isBlank d = true) : startsOptions quote c (a ++ d :: b) = false := by
  cases hc : isBlank c with
  | false => exact startsOptions_of_not_isBlank hc _
  | true =>
    obtain ⟨w, hw, ha⟩ := exists_trimStart a
    cases ht : trimStart a with
    | nil =>
      have hx := he _ (List.getLast?_eq_some_getLast (List.cons_ne_nil c a))
      have hb : Blanks (c :: a) := by
        intro x hx
        rcases List.mem_cons.mp hx with rfl | hx
        · exact hc
        · exact trimStart_eq_nil_iff.mp ht x hx
      rw [hb _ (List.getLast_mem _)] at hx
      cases hx
    | cons x rest =>
      have hx : isBlank x = false := bareStart_cons.mp (ht ▸ bareStart_trimStart a)
      have hd' : '-' ≠ d := by
        rintro rfl
        exact absurd hd (by decide)
      have ht' : trimStart (a ++ d :: b) = x :: (rest ++ d :: b) := by
        rw [ha, ht, List.append_assoc, trimStart_append hw, List.cons_append, trimStart_of_head hx]
      unfold startsOptions at h
      rw [ht] at h
      unfold startsOptions
      rw [ht']
      cases rest with
      | nil => simp [List.isPrefixOf, hd']
      | cons y rest => simpa [List.isPrefixOf] using h

/-- A tail behind a text without one is cut off there, when the text ends outside quotes. -/
theorem splitOptions_append_cons (ha : NoOptions quote a) (hq : quoteAt quote a = none)
    (he : BareEnd a) (h : startsOptions none c b = true) :
    splitOptions quote (a ++ c :: b) = (a, some (c :: b)) := by
  induction a generalizing quote with
  | nil =>
    rw [← hq, quoteAt, List.foldl_nil] at h
    rw [List.nil_append, splitOptions, if_pos h]
  | cons d a ih =>
    obtain ⟨h1, h2⟩ := noOptions_cons.mp ha
    have hc : isBlank c = true := by
      simp only [startsOptions, Bool.and_eq_true] at h
      exact h.1.2
    rw [List.cons_append, splitOptions_cons (startsOptions_append_cons h1 he hc),
      ih h2 hq he.of_cons]

/-- What stands in front of a tail has none of its own, and all its quotes are closed. -/
theorem splitOptions_eq_some {spec options : List Char}
    (h : splitOptions quote cs = (spec, some options)) :
    cs = spec ++ options ∧ NoOptions quote spec ∧ quoteAt quote spec = none := by
  induction cs generalizing quote spec with
  | nil => cases h
  | cons c cs ih =>
    cases hs : startsOptions quote c cs with
    | true =>
      unfold splitOptions at h
      rw [if_pos hs] at h
      cases h
      simp only [startsOptions, Bool.and_eq_true, Option.isNone_iff_eq_none] at hs
      exact ⟨rfl, noOptions_nil, hs.1.1⟩
    | false =>
      rw [splitOptions_cons hs] at h
      obtain ⟨rfl, hsnd⟩ := Prod.mk.inj h
      obtain ⟨hcs, hno, hq⟩ := ih (Prod.ext rfl hsnd)
      refine ⟨by rw [List.cons_append, ← hcs], noOptions_cons.mpr ⟨?_, hno⟩, hq⟩
      cases hs' : startsOptions quote c (splitOptions (quoteAfter quote c) cs).1 with
      | false => rfl
      | true =>
        have := startsOptions_append (b := options) hs'
        rw [← hcs, hs] at this
        cases this

theorem splitOptions_eq_none {spec : List Char} (h : splitOptions quote cs = (spec, none)) :
    spec = cs ∧ NoOptions quote cs := by
  have hno : NoOptions quote cs := by rw [NoOptions, h]
  rw [splitOptions_of_noOptions hno] at h
  cases h
  exact ⟨rfl, hno⟩

end PinFile.Requirement
