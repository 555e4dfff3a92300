import Mathlib.Order.Bounds.Basic
import PinFile.Proofs.Requirement.OptionTail

/-!
# Where option tails start

The end of a text lies outside quoted strings when the text falls into characters that are no
quotes and strings that go on to the next quote of their own kind (`EndsOutside`); that is when no
quote is open behind it (`endsOutside_iff`). A tail is led by a run of blanks behind such a text,
right in front of two hyphens (`LeadsTail`). `splitOptions` cuts a text where such a run starts
(`exists_leadsTail_of_splitOptions`) and none starts further in front (`prefix_of_leadsTail`). One
pass that carries the open quote and the start of the run of blanks under way ends at the same byte
(`scanTail_none`).
-/

namespace PinFile.Requirement

open Text

variable {quote : Option Char} {c q : Char} {cs spec run rest options : List Char}

/-! ## Quoted strings -/

/-- The end of the text lies outside quoted strings: each of them is closed by the next quote of its
kind. -/
inductive EndsOutside : List Char → Prop where
  | nil : EndsOutside []
  | plain {c : Char} {cs : List Char} : isQuote c = false → EndsOutside cs → EndsOutside (c :: cs)
  | quoted {q : Char} {body cs : List Char} : isQuote q = true → q ∉ body → EndsOutside cs →
      EndsOutside (q :: (body ++ q :: cs))

theorem quoteAfter_none : quoteAfter none c = if isQuote c then some c else none := by
  simp [quoteAfter, isQuote]

theorem quoteAfter_self : quoteAfter (some q) q = none := if_pos rfl

theorem quoteAfter_of_ne (h : c ≠ q) : quoteAfter (some q) c = some q := if_neg h

/-- A quoted string goes on to the next quote of its kind. -/
theorem quoteAt_of_not_mem (h : q ∉ cs) : quoteAt (some q) cs = some q := by
  induction cs with
  | nil => rfl
  | cons c cs ih =>
    obtain ⟨hc, hcs⟩ := List.ne_and_not_mem_of_not_mem_cons h
    rw [quoteAt_cons, quoteAfter_of_ne (Ne.symm hc), ih hcs]

theorem EndsOutside.quoteAt_eq_none (h : EndsOutside cs) : quoteAt none cs = none := by
  induction h with
  | nil => rfl
  | plain hc _ ih => rw [quoteAt_cons, quoteAfter_none, hc, if_neg Bool.false_ne_true, ih]
  | quoted hq hbody _ ih =>
    rw [quoteAt_cons, quoteAfter_none, if_pos hq, quoteAt_append, quoteAt_of_not_mem hbody,
      quoteAt_cons, quoteAfter_self, ih]

/-- The open quote and no open quote are taken together: the text behind a quote is read with that
quote open, and the text behind its end with none. -/
theorem endsOutside_of_quoteAt (cs : List Char) :
    (quoteAt none cs = none → EndsOutside cs) ∧
      ∀ q, isQuote q = true → quoteAt (some q) cs = none →
        ∃ body rest, cs = body ++ q :: rest ∧ q ∉ body ∧ EndsOutside rest := by
  induction cs with
  | nil => exact ⟨fun _ => .nil, fun q _ h => by cases h⟩
  | cons c cs ih =>
    obtain ⟨ihnone, ihsome⟩ := ih
    constructor
    · intro h
      rw [quoteAt_cons, quoteAfter_none] at h
      cases hc : isQuote c with
      | false => exact .plain hc (ihnone (by simpa [hc] using h))
      | true =>
        obtain ⟨body, rest, rfl, hbody, hrest⟩ := ihsome c hc (by simpa [hc] using h)
        exact .quoted hc hbody hrest
    · intro q hq h
      rw [quoteAt_cons] at h
      by_cases hc : c = q
      · subst hc
        rw [quoteAfter_self] at h
        exact ⟨[], cs, rfl, List.not_mem_nil, ihnone h⟩
      · rw [quoteAfter_of_ne hc] at h
        obtain ⟨body, rest, rfl, hbody, hrest⟩ := ihsome q hq h
        exact ⟨c :: body, rest, rfl, List.not_mem_cons_of_ne_of_not_mem (Ne.symm hc) hbody, hrest⟩

theorem endsOutside_iff : EndsOutside cs ↔ quoteAt none cs = none :=
  ⟨EndsOutside.quoteAt_eq_none, (endsOutside_of_quoteAt cs).1⟩

/-! ## Runs of blanks in front of hyphens -/

/-- All of `run` is blanks between `spec` and `rest`, outside quoted strings: no blank stands in
front of it, and two hyphens end it. -/
structure LeadsTail (spec run rest : List Char) : Prop where
  outside : EndsOutside spec
  starts : BareEnd spec
  blanks : Blanks run
  ne_nil : run ≠ []
  hyphens : ['-', '-'] <+: rest

/-- Such a run, wherever it starts, is what `startsOptions` looks for. -/
theorem startsOptions_iff : startsOptions none c cs = true ↔
    ∃ run rest, c :: cs = run ++ rest ∧ Blanks run ∧ run ≠ [] ∧ ['-', '-'] <+: rest := by
  simp only [startsOptions, Option.isNone_none, Bool.true_and, Bool.and_eq_true,
    List.isPrefixOf_iff_prefix]
  constructor
  · rintro ⟨hc, hrest⟩
    obtain ⟨w, hw, hcs⟩ := exists_trimStart cs
    exact ⟨c :: w, trimStart cs, by rw [List.cons_append, ← hcs],
      List.forall_mem_cons.mpr ⟨hc, hw⟩, List.cons_ne_nil c w, hrest⟩
  · rintro ⟨run, rest, he, hrun, hne, after, rfl⟩
    obtain ⟨d, w, rfl⟩ := List.exists_cons_of_ne_nil hne
    obtain ⟨rfl, rfl⟩ := List.cons.inj he
    obtain ⟨hc, hw⟩ := List.forall_mem_cons.mp hrun
    have hbare : BareStart (['-', '-'] ++ after) := bareStart_cons.mpr (by decide)
    refine ⟨hc, ?_⟩
    show ['-', '-'] <+: trimStart (w ++ (['-', '-'] ++ after))
    rw [trimStart_append hw, trimStart_eq_self hbare]
    exact List.prefix_append ['-', '-'] after

theorem LeadsTail.startsOptions (h : LeadsTail spec run rest) (he : c :: cs = run ++ rest) :
    startsOptions (quoteAt none spec) c cs = true := by
  rw [h.outside.quoteAt_eq_none]
  exact startsOptions_iff.mpr ⟨run, rest, he, h.blanks, h.ne_nil, h.hyphens⟩

/-! ## The first one -/

/-- A cut stands where a tail starts, and none starts further in front. -/
theorem splitOptions_start (h : splitOptions quote cs = (spec, some options)) :
    cs = spec ++ options ∧
      (∃ c rest, options = c :: rest ∧ startsOptions (quoteAt quote spec) c rest = true) ∧
      ∀ a c b, spec = a ++ c :: b → startsOptions (quoteAt quote a) c (b ++ options) = false := by
  induction cs generalizing quote spec with
  | nil => cases h
  | cons d cs ih =>
    cases hs : startsOptions quote d cs with
    | true =>
      rw [splitOptions, if_pos hs] at h
      cases h
      exact ⟨rfl, ⟨d, cs, rfl, hs⟩, fun a c b he => by simp at he⟩
    | false =>
      rw [splitOptions_cons hs] at h
      obtain ⟨rfl, hsnd⟩ := Prod.mk.inj h
      obtain ⟨hcs, hstart, hbefore⟩ := ih (Prod.ext rfl hsnd)
      refine ⟨by rw [List.cons_append, ← hcs], hstart, fun a c b he => ?_⟩
      cases a with
      | nil =>
        obtain ⟨rfl, rfl⟩ := List.cons.inj he
        rwa [← hcs]
      | cons x a =>
        obtain ⟨rfl, he'⟩ := List.cons.inj he
        exact hbefore a c b he'

section Cut

variable (h : splitOptions none cs = (spec, some options))
include h

/-- A blank right in front of the cut would start the tail itself. -/
theorem bareEnd_of_splitOptions : BareEnd spec := by
  obtain ⟨-, ⟨c, tail, rfl, hstart⟩, hbefore⟩ := splitOptions_start h
  obtain ⟨-, -, hquote⟩ := splitOptions_eq_some h
  intro d hd
  obtain ⟨init, rfl⟩ := List.getLast?_eq_some_iff.mp hd
  cases hb : isBlank d with
  | false => rfl
  | true =>
    have hq : ∀ q ∈ quoteAt none init, isQuote q = true := isQuote_of_quoteAt (by simp)
    have hinit : quoteAt none init = none := by
      rwa [quoteAt_append, quoteAt_cons, quoteAfter_of_not_isQuote hq (isQuote_of_isBlank hb)]
        at hquote
    rw [hquote] at hstart
    obtain ⟨run, rest, he, hrun, -, hrest⟩ := startsOptions_iff.mp hstart
    have hd : startsOptions none d (c :: tail) = true :=
      startsOptions_iff.mpr ⟨d :: run, rest, by rw [he]; rfl,
        List.forall_mem_cons.mpr ⟨hb, hrun⟩, List.cons_ne_nil d run, hrest⟩
    have hd' := hbefore init d [] rfl
    rw [hinit, List.nil_append, hd] at hd'
    cases hd'

theorem exists_leadsTail_of_splitOptions :
    ∃ run rest, cs = spec ++ (run ++ rest) ∧ LeadsTail spec run rest := by
  have hend := bareEnd_of_splitOptions h
  obtain ⟨rfl, ⟨c, tail, rfl, hstart⟩, -⟩ := splitOptions_start h
  obtain ⟨-, -, hquote⟩ := splitOptions_eq_some h
  rw [hquote] at hstart
  obtain ⟨run, rest, he, hrun, hne, hrest⟩ := startsOptions_iff.mp hstart
  exact ⟨run, rest, by rw [he], endsOutside_iff.mpr hquote, hend, hrun, hne, hrest⟩

/-- Every run that leads a tail starts at the cut or behind it. -/
theorem prefix_of_leadsTail {before : List Char} (hcs : cs = before ++ (run ++ rest))
    (hlead : LeadsTail before run rest) : spec <+: before := by
  obtain ⟨rfl, -, hbefore⟩ := splitOptions_start h
  rcases List.prefix_or_prefix_of_prefix (List.prefix_append spec options)
    (hcs ▸ List.prefix_append before (run ++ rest)) with hp | ⟨t, rfl⟩
  · exact hp
  · cases t with
    | nil => simp
    | cons d b =>
      have hrun : d :: (b ++ options) = run ++ rest := by
        rw [List.append_assoc] at hcs
        exact List.append_cancel_left hcs
      have hd := hbefore before d b rfl
      rw [hlead.startsOptions hrun] at hd
      cases hd

end Cut

theorem not_leadsTail_of_splitOptions (h : splitOptions none cs = (cs, none))
    (hcs : cs = spec ++ (run ++ rest)) : ¬ LeadsTail spec run rest := by
  intro hlead
  obtain ⟨c, w, hw⟩ := List.exists_cons_of_ne_nil hlead.ne_nil
  have hrun : c :: (w ++ rest) = run ++ rest := by rw [hw, List.cons_append]
  obtain ⟨-, hno⟩ := splitOptions_eq_none h
  have hc := noOptions_iff.mp hno spec c (w ++ rest) (by rw [hcs, hrun])
  rw [hlead.startsOptions hrun] at hc
  cases hc

/-! ## Places in bytes -/

def byteSize (cs : List Char) : Nat := (String.ofList cs).utf8ByteSize

theorem byteSize_cons : byteSize (c :: cs) = c.utf8Size + byteSize cs := by
  rw [byteSize, String.ofList_cons, String.utf8ByteSize_append, String.utf8ByteSize_singleton,
    byteSize]

theorem byteSize_le_of_prefix (h : spec <+: cs) : byteSize spec ≤ byteSize cs := by
  obtain ⟨t, rfl⟩ := h
  rw [byteSize, byteSize, String.ofList_append, String.utf8ByteSize_append]
  omega

/-- The byte at which a text is cut for its options. -/
def cutAt? (quote : Option Char) (cs : List Char) : Option Nat :=
  match splitOptions quote cs with
  | (spec, some _) => some (byteSize spec)
  | (_, none) => none

theorem cutAt?_cons (h : startsOptions quote c cs = false) :
    cutAt? quote (c :: cs) = (cutAt? (quoteAfter quote c) cs).map (c.utf8Size + ·) := by
  rw [cutAt?, splitOptions_cons h, cutAt?]
  rcases splitOptions (quoteAfter quote c) cs with ⟨spec, _ | options⟩
  · rfl
  · simp [byteSize_cons]

/-- At byte `i` of the text starts a run of blanks that leads an option tail. -/
def LeadsTailAt (text : String) (i : Nat) : Prop :=
  ∃ spec run rest, text.toList = spec ++ (run ++ rest) ∧ LeadsTail spec run rest ∧
    byteSize spec = i

/-! ## One pass -/

/-- The pass over a text that keeps the quote that is open and the byte at which the blanks in
front of it start. -/
def scanTail (quote : Option Char) (blanks : Option Nat) (i : Nat) : List Char → Option Nat
  | [] => none
  | c :: cs =>
    match quote with
    | some q => scanTail (quoteAfter (some q) c) blanks (i + c.utf8Size) cs
    | none =>
      if isBlank c then scanTail none (blanks.or (some i)) (i + c.utf8Size) cs
      else if blanks.isSome && ['-', '-'].isPrefixOf (c :: cs) then blanks
      else scanTail (quoteAfter none c) none (i + c.utf8Size) cs

/-- Behind blanks the pass ends where two hyphens follow them, and goes on as without them
elsewhere. -/
theorem scanTail_some {start i : Nat} : scanTail none (some start) i cs =
    if ['-', '-'].isPrefixOf (trimStart cs) then some start else scanTail none none i cs := by
  induction cs generalizing start i with
  | nil => rfl
  | cons c cs ih =>
    cases hc : isBlank c with
    | true =>
      have htrim : trimStart (c :: cs) = trimStart cs :=
        trimStart_append (a := [c]) (by simpa [Blanks] using hc) cs
      simp only [scanTail, hc, if_true, Option.some_or, Option.none_or, ih, htrim]
      split <;> rfl
    | false => simp [scanTail, hc, trimStart_of_head hc]

/-- The pass that has no blanks in front of it ends where a text is cut. -/
theorem scanTail_none {i : Nat} : scanTail quote none i cs = (cutAt? quote cs).map (i + ·) := by
  induction cs generalizing quote i with
  | nil => rfl
  | cons c cs ih =>
    have hgo (hs : startsOptions quote c cs = false) :
        scanTail (quoteAfter quote c) none (i + c.utf8Size) cs =
          (cutAt? quote (c :: cs)).map (i + ·) := by
      rw [ih, cutAt?_cons hs, Option.map_map]
      exact congrArg (Option.map · _) (funext fun n => Nat.add_assoc i c.utf8Size n)
    cases quote with
    | some q => exact hgo rfl
    | none =>
      cases hc : isBlank c with
      | false =>
        rw [← hgo (startsOptions_of_not_isBlank hc cs)]
        simp [scanTail, hc]
      | true =>
        have hpass : scanTail none none i (c :: cs) =
            scanTail none (some i) (i + c.utf8Size) cs := by
          simp [scanTail, hc]
        have hstarts : startsOptions none c cs = ['-', '-'].isPrefixOf (trimStart cs) := by
          simp [startsOptions, hc]
        have hquote : quoteAfter none c = none :=
          quoteAfter_of_not_isQuote (by simp) (isQuote_of_isBlank hc)
        rw [hpass, scanTail_some, ← hstarts]
        cases hs : startsOptions none c cs with
        | false => rw [if_neg Bool.false_ne_true, ← hgo hs, hquote]
        | true =>
          have hcut : cutAt? none (c :: cs) = some 0 := by
            rw [cutAt?, splitOptions, if_pos hs]
            rfl
          rw [if_pos rfl, hcut]
          rfl

/-! ## The first tail -/

/-- A text is cut at the first byte where a run of blanks leads an option tail, and not cut when
none does. One pass over the text finds that byte. -/
theorem optionTail_first (text : String) :
    (∀ i, cutAt? none text.toList = some i ↔ IsLeast {i | LeadsTailAt text i} i) ∧
      (cutAt? none text.toList = none ↔ ∀ i, ¬ LeadsTailAt text i) ∧
      scanTail none none 0 text.toList = cutAt? none text.toList := by
  have hpass : scanTail none none 0 text.toList = cutAt? none text.toList := by
    rw [scanTail_none]
    simp
  rcases hs : splitOptions none text.toList with ⟨spec, _ | options⟩
  · have hcut : cutAt? none text.toList = none := by rw [cutAt?, hs]
    obtain ⟨rfl, -⟩ := splitOptions_eq_none hs
    have hnone : ∀ i, ¬ LeadsTailAt text i := by
      rintro i ⟨spec, run, rest, htext, hlead, -⟩
      exact not_leadsTail_of_splitOptions hs htext hlead
    rw [hcut] at hpass ⊢
    exact ⟨fun i => iff_of_false (by simp) fun h => hnone i h.1, iff_of_true rfl hnone, hpass⟩
  · have hcut : cutAt? none text.toList = some (byteSize spec) := by rw [cutAt?, hs]
    have hleast : IsLeast {i | LeadsTailAt text i} (byteSize spec) := by
      constructor
      · obtain ⟨run, rest, htext, hlead⟩ := exists_leadsTail_of_splitOptions hs
        exact ⟨spec, run, rest, htext, hlead, rfl⟩
      · rintro i ⟨before, run, rest, htext, hlead, rfl⟩
        exact byteSize_le_of_prefix (prefix_of_leadsTail hs htext hlead)
    rw [hcut] at hpass ⊢
    refine ⟨fun i => ⟨?_, fun h => congrArg some (hleast.unique h)⟩,
      iff_of_false (by simp) (fun h => h _ hleast.1), hpass⟩
    rintro ⟨rfl⟩
    exact hleast

example : cutAt? none "é; m == ' --x\"' \u3000--hash=a:0".toList = some 16 := by cbv

end PinFile.Requirement
