import Mathlib.Data.List.Forall2
import Mathlib.Data.List.Infix
import PinFile.Proofs.Name
import PinFile.Proofs.Text.Pieces

/-!
# Canonical names

The segments of a name are what stands between its runs of separators. Its normal form is made of
its segments in lower case, with one hyphen between each two (`fold_eq_intercalate`), and they are
found again in it (`splitOn_fold`): two names have the same normal form when their segments are the
same up to case (`fold_eq_fold_iff`). A normal form has no capitals and no separators but single
hyphens (`isNormal_fold`), and a text like that is its own normal form (`fold_eq_self`).
-/

namespace PinFile.Name

open Text

variable {inRun : Bool} {c d : Char} {a b cs : List Char} {name : String}

/-- The parts of a name between its runs of separators. Where a run stands at an end of the name,
the part at its outer side is empty. -/
def segments (cs : List Char) : List (List Char) :=
  match _h : cut? isSeparator cs with
  | none => [cs]
  | some (segment, rest) => segment :: segments (rest.dropWhile isSeparator)
termination_by cs.length
decreasing_by
  obtain ⟨c, -, rfl, -⟩ := eq_append_of_cut? _h
  have hrest := List.length_dropWhile_le isSeparator rest
  rw [List.length_append, List.length_cons]
  omega

/-- The texts are the same when ASCII case does not count. -/
def SameLetters (a b : List Char) : Prop := List.Forall₂ (fun c d => c.toLower = d.toLower) a b

/-- A text without ASCII capitals whose only separators are single hyphens. -/
structure IsNormal (cs : List Char) : Prop where
  noUnderscore : '_' ∉ cs
  noDot : '.' ∉ cs
  noUpper : ∀ c ∈ cs, c.isUpper = false
  noPair : ¬ ['-', '-'] <:+: cs

/-! ## Lower case -/

theorem isSeparator_of_isLetterOrDigit (h : isLetterOrDigit c = true) : isSeparator c = false := by
  have hhyphen : c ≠ '-' := ne_of_class h (by decide)
  have hunderscore : c ≠ '_' := ne_of_class h (by decide)
  have hdot : c ≠ '.' := ne_of_class h (by decide)
  simp [isSeparator, hhyphen, hunderscore, hdot]

theorem isSeparator_toLower (h : isSeparator c = false) : isSeparator c.toLower = false := by
  cases hu : c.isUpper with
  | false => rwa [toLower_eq_self hu]
  | true =>
    exact isSeparator_of_isLetterOrDigit (isLetterOrDigit_toLower (isLetterOrDigit_of_isUpper hu))

theorem toLower_ne_hyphen (h : isSeparator c = false) : c.toLower ≠ '-' := by
  intro he
  have hlow := isSeparator_toLower h
  rw [he] at hlow
  exact absurd hlow (by decide)

/-! ## Segments -/

theorem segments_ne_nil : segments cs ≠ [] := by
  rw [segments]
  split <;> exact List.cons_ne_nil _ _

theorem isSeparator_of_mem_segments : ∀ segment ∈ segments cs, ∀ c ∈ segment,
    isSeparator c = false := by
  fun_induction segments cs with
  | case1 cs h =>
    intro segment hs
    rw [List.mem_singleton.mp hs]
    exact forall_of_cut?_eq_none h
  | case2 cs segment rest h ih =>
    obtain ⟨c, -, -, hsegment⟩ := eq_append_of_cut? h
    exact List.forall_mem_cons.mpr ⟨hsegment, ih⟩

theorem fold_append (h : ∀ c ∈ a, isSeparator c = false) :
    fold false (a ++ b) = a.map Char.toLower ++ fold false b := by
  induction a with
  | nil => rfl
  | cons c a ih =>
    obtain ⟨hc, ha⟩ := List.forall_mem_cons.mp h
    rw [List.cons_append, fold, hc, if_neg Bool.false_ne_true, ih ha]
    rfl

/-- Behind a separator the rest of its run does not count. -/
theorem fold_true : fold true cs = fold false (cs.dropWhile isSeparator) := by
  induction cs with
  | nil => rfl
  | cons c cs ih =>
    cases hc : isSeparator c with
    | true => rw [List.dropWhile_cons_of_pos hc, ← ih, fold, if_pos hc, if_pos rfl]
    | false => rw [List.dropWhile_cons_of_neg (by simp [hc]), fold, fold]; simp [hc]

theorem fold_eq_intercalate :
    fold false cs = ['-'].intercalate ((segments cs).map (·.map Char.toLower)) := by
  fun_induction segments cs with
  | case1 cs h =>
    have hfold := fold_append (b := []) (forall_of_cut?_eq_none h)
    simpa [fold] using hfold
  | case2 cs segment rest h ih =>
    obtain ⟨c, hc, rfl, hsegment⟩ := eq_append_of_cut? h
    have hne : (segments (rest.dropWhile isSeparator)).map (·.map Char.toLower) ≠ [] := by
      simpa using segments_ne_nil
    rw [fold_append hsegment, fold, if_pos hc, if_neg Bool.false_ne_true, fold_true, ih,
      List.map_cons, List.intercalate_cons_of_ne_nil hne, List.append_assoc]
    rfl

example : segments "-a_.B-".toList = [[], ['a'], ['B'], []] := by cbv

example : normalize "-a_.B-" = "-a-b-" := by decide

theorem splitOn_fold :
    (fold false cs).splitOn '-' = (segments cs).map (·.map Char.toLower) := by
  rw [fold_eq_intercalate]
  refine List.splitOn_intercalate '-' ?_ (by simpa using segments_ne_nil)
  intro lowered hl hm
  obtain ⟨segment, hs, rfl⟩ := List.mem_map.mp hl
  obtain ⟨c, hc, he⟩ := List.mem_map.mp hm
  exact toLower_ne_hyphen (isSeparator_of_mem_segments segment hs c hc) he

/-- Two lists agree item by item in what a function makes of them when it makes the same of both. -/
theorem forall₂_map_eq_iff {α β : Type} {f : α → β} {xs ys : List α} :
    List.Forall₂ (fun x y => f x = f y) xs ys ↔ xs.map f = ys.map f := by
  rw [← List.forall₂_eq_eq_eq, List.forall₂_map_left_iff, List.forall₂_map_right_iff]

theorem sameLetters_eq :
    SameLetters = fun a b => a.map Char.toLower = b.map Char.toLower :=
  funext fun _ => funext fun _ => propext forall₂_map_eq_iff

theorem fold_eq_fold_iff :
    fold false a = fold false b ↔ List.Forall₂ SameLetters (segments a) (segments b) := by
  rw [sameLetters_eq, forall₂_map_eq_iff]
  constructor
  · intro h
    rw [← splitOn_fold, h, splitOn_fold]
  · intro h
    rw [fold_eq_intercalate, h, ← fold_eq_intercalate]

/-! ## Normal texts -/

theorem mem_fold (h : c ∈ fold inRun cs) :
    c = '-' ∨ isSeparator c = false ∧ c.isUpper = false := by
  fun_induction fold inRun cs with
  | case1 => simp at h
  | case2 d cs hd ih => exact ih h
  | case3 inRun d cs hd hr ih =>
    rcases List.mem_cons.mp h with rfl | h
    · exact .inl rfl
    · exact ih h
  | case4 inRun d cs hd ih =>
    rcases List.mem_cons.mp h with rfl | h
    · exact .inr ⟨isSeparator_toLower (by simpa using hd), isUpper_toLower d⟩
    · exact ih h

theorem eq_hyphen_of_mem_fold (h : c ∈ fold inRun cs) (hc : isSeparator c = true) : c = '-' := by
  rcases mem_fold h with he | ⟨hs, -⟩
  · exact he
  · rw [hc] at hs
    cases hs

theorem pair_prefix_cons : ['-', '-'] <+: c :: cs ↔ c = '-' ∧ cs.head? = some '-' := by
  cases cs with
  | nil => simp
  | cons d cs => simp [eq_comm]

/-- Behind a separator comes no hyphen. -/
theorem head?_fold_true : (fold true cs).head? ≠ some '-' := by
  have hhead := List.head?_dropWhile_not isSeparator cs
  rw [fold_true]
  cases hd : cs.dropWhile isSeparator with
  | nil => simp [fold]
  | cons c rest =>
    rw [hd] at hhead
    have hc : isSeparator c = false := by simpa using hhead
    rw [fold, hc, if_neg Bool.false_ne_true, List.head?_cons]
    exact fun he => toLower_ne_hyphen hc (Option.some.inj he)

theorem not_pair_infix_fold : ¬ ['-', '-'] <:+: fold inRun cs := by
  fun_induction fold inRun cs with
  | case1 => simp
  | case2 d cs hd ih => exact ih
  | case3 inRun d cs hd hr ih =>
    intro h
    rcases List.infix_cons_iff.mp h with h | h
    · exact head?_fold_true (pair_prefix_cons.mp h).2
    · exact ih h
  | case4 inRun d cs hd ih =>
    intro h
    rcases List.infix_cons_iff.mp h with h | h
    · exact toLower_ne_hyphen (by simpa using hd) (pair_prefix_cons.mp h).1
    · exact ih h

theorem isNormal_fold : IsNormal (fold inRun cs) where
  noUnderscore h := absurd (eq_hyphen_of_mem_fold h rfl) (by decide)
  noDot h := absurd (eq_hyphen_of_mem_fold h rfl) (by decide)
  noUpper c h := by
    rcases mem_fold h with rfl | h
    · decide
    · exact h.2
  noPair := not_pair_infix_fold

theorem IsNormal.of_cons (h : IsNormal (c :: cs)) : IsNormal cs where
  noUnderscore hm := h.noUnderscore (List.mem_cons_of_mem c hm)
  noDot hm := h.noDot (List.mem_cons_of_mem c hm)
  noUpper d hd := h.noUpper d (List.mem_cons_of_mem c hd)
  noPair hi := h.noPair (List.infix_cons_iff.mpr (.inr hi))

theorem fold_eq_self (h : IsNormal cs) (hrun : inRun = true → cs.head? ≠ some '-') :
    fold inRun cs = cs := by
  induction cs generalizing inRun with
  | nil => rfl
  | cons c cs ih =>
    cases hc : isSeparator c with
    | true =>
      have hhyphen : c = '-' := by
        simp only [isSeparator, Bool.or_eq_true, beq_iff_eq] at hc
        rcases hc with (hc | rfl) | rfl
        · exact hc
        · exact absurd List.mem_cons_self h.noUnderscore
        · exact absurd List.mem_cons_self h.noDot
      subst hhyphen
      have hbefore : inRun = false := by
        cases inRun with
        | false => rfl
        | true => exact absurd rfl (hrun rfl)
      have hbehind : cs.head? ≠ some '-' := fun hhead =>
        h.noPair (List.infix_cons_iff.mpr (.inl (pair_prefix_cons.mpr ⟨rfl, hhead⟩)))
      rw [fold, if_pos hc, hbefore, if_neg Bool.false_ne_true, ih h.of_cons fun _ => hbehind]
    | false =>
      have hlow : c.toLower = c := toLower_eq_self (h.noUpper c List.mem_cons_self)
      rw [fold, hc, if_neg Bool.false_ne_true, hlow, ih h.of_cons (by simp)]

/-! ## Names -/

theorem fold_concat (h : isSeparator d = false) :
    fold inRun (cs ++ [d]) = fold inRun cs ++ [d.toLower] := by
  fun_induction fold inRun cs with
  | case1 inRun => simp [fold, h]
  | case2 c cs hc ih => simp [fold, hc, ih]
  | case3 inRun c cs hc hr ih => simp [fold, hc, hr, ih]
  | case4 inRun c cs hc ih => simp [fold, hc, ih]

/-- The ends of a valid name are kept, in lower case. -/
theorem ends_normalize (h : isValid name = true) :
    (∃ c ∈ (normalize name).toList.head?, isLetterOrDigit c = true) ∧
      ∃ c ∈ (normalize name).toList.getLast?, isLetterOrDigit c = true := by
  simp only [isValid, isValidChars, Bool.and_eq_true, Option.any_eq_true] at h
  obtain ⟨⟨-, c, hhead, hc⟩, d, hlast, hd⟩ := h
  rw [toList_normalize]
  constructor
  · obtain ⟨cs, hcs⟩ := List.head?_eq_some_iff.mp hhead
    refine ⟨c.toLower, ?_, isLetterOrDigit_toLower hc⟩
    rw [hcs, fold, isSeparator_of_isLetterOrDigit hc]
    rfl
  · obtain ⟨init, hinit⟩ := List.getLast?_eq_some_iff.mp hlast
    refine ⟨d.toLower, ?_, isLetterOrDigit_toLower hd⟩
    rw [hinit, fold_concat (isSeparator_of_isLetterOrDigit hd)]
    simp

theorem isValid_normalize (h : isValid name = true) : isValid (normalize name) = true := by
  obtain ⟨⟨c, hhead, hc⟩, d, hlast, hd⟩ := ends_normalize h
  simp only [isValid, isValidChars, Bool.and_eq_true, Option.any_eq_true, List.all_eq_true]
  exact ⟨⟨isNameChar_of_mem_normalize h, c, hhead, hc⟩, d, hlast, hd⟩

theorem normalize_eq_normalize_iff {a b : String} : normalize a = normalize b ↔
    List.Forall₂ SameLetters (segments a.toList) (segments b.toList) := by
  rw [← fold_eq_fold_iff, normalize, normalize, String.ofList_inj]

theorem normalize_normalize : normalize (normalize name) = normalize name := by
  rw [normalize, toList_normalize, fold_eq_self isNormal_fold (by simp), normalize]

/-- Normal forms are canonical: they are normal and stay as they are, names with the same segments
up to case share one and others do not, and the one of a valid name is a valid name. -/
theorem normalize_canonical (a b : String) :
    normalize (normalize a) = normalize a ∧ IsNormal (normalize a).toList ∧
      (normalize a = normalize b ↔
        List.Forall₂ SameLetters (segments a.toList) (segments b.toList)) ∧
      (isValid a = true → isValid (normalize a) = true ∧
        (∃ c ∈ (normalize a).toList.head?, isLetterOrDigit c = true) ∧
        ∃ c ∈ (normalize a).toList.getLast?, isLetterOrDigit c = true) := by
  refine ⟨normalize_normalize, ?_, normalize_eq_normalize_iff,
    fun h => ⟨isValid_normalize h, ends_normalize h⟩⟩
  rw [toList_normalize]
  exact isNormal_fold

/-- A name with capitals, a run of mixed separators and a digit at its end. -/
theorem normalize_canonical_mixed : isValid "Zope_.Interface9" = true ∧
    isValid (normalize "Zope_.Interface9") = true ∧
    (∃ c ∈ (normalize "Zope_.Interface9").toList.head?, isLetterOrDigit c = true) ∧
    ∃ c ∈ (normalize "Zope_.Interface9").toList.getLast?, isLetterOrDigit c = true := by
  have hvalid : isValid "Zope_.Interface9" = true := by decide
  exact ⟨hvalid, (normalize_canonical "Zope_.Interface9" "zope-interface9").2.2.2 hvalid⟩

end PinFile.Name
