import PinFile.Files.Tree
import PinFile.Proofs.Text.Pieces

/-!
# Paths of included files

A path that names a file ends with the name, and what holds the file is named by the parts in
front. A relative path that is joined to them leads on from there (`exists_parts_join`): the parts
of the joined path are those in front, up to silent ones, and then those of the relative path.
-/

namespace PinFile.Path

open Text

variable {path name i : String} {ps before : List String}

/-! ## Parts -/

theorem parts_append (x y : String) : parts (x ++ "/" ++ y) = parts x ++ parts y := by
  rw [parts, String.toList_append, String.toList_append]
  have h : x.toList ++ "/".toList ++ y.toList = x.toList ++ '/' :: y.toList := by simp
  rw [h, List.splitOn_append_cons_self, List.map_append]
  rfl

theorem parts_ne_nil (x : String) : parts x ≠ [] := by
  simp [parts]

theorem not_mem_of_mem_parts {part : String} (h : part ∈ parts path) : '/' ∉ part.toList := by
  obtain ⟨piece, hp, rfl⟩ := List.mem_map.mp h
  rw [String.toList_ofList]
  exact not_mem_of_mem_splitOn piece hp

theorem parts_intercalate (hne : ps ≠ []) (h : ∀ p ∈ ps, '/' ∉ p.toList) :
    parts ("/".intercalate ps) = ps := by
  have hs : (['/'].intercalate (ps.map String.toList)).splitOn '/' = ps.map String.toList := by
    refine List.splitOn_intercalate '/' ?_ (by simpa using hne)
    intro piece hp
    obtain ⟨p, hm, rfl⟩ := List.mem_map.mp hp
    exact h p hm
  unfold parts
  rw [String.toList_intercalate]
  apply (congrArg _ hs).trans
  rw [List.map_map]
  exact (List.map_congr_left fun p _ => String.ofList_toList).trans (List.map_id ps)

theorem isAbsolute_append {x : String} (h : x ≠ "") (y : String) :
    isAbsolute (x ++ y) = isAbsolute x := by
  have hx : x.toList ≠ [] := by simpa using h
  rw [isAbsolute, isAbsolute, String.toList_append, List.head?_append_of_ne_nil _ hx]

theorem exists_parts_of_isAbsolute (h : isAbsolute path = true) :
    ∃ rest, parts path = "" :: rest := by
  obtain ⟨cs, hc⟩ := List.head?_eq_some_iff.mp (beq_iff_eq.mp h)
  refine ⟨(cs.splitOn '/').map String.ofList, ?_⟩
  unfold parts
  rw [hc, show '/' :: cs = [] ++ '/' :: cs from rfl, List.splitOn_append_cons_self]
  rfl

theorem isAbsolute_of_parts (h : parts path = "" :: ps) (hp : ps ≠ []) :
    isAbsolute path = true := by
  obtain ⟨piece, pieces, hs, he, rfl⟩ := List.map_eq_cons_iff.mp h
  have hc : ['/'].intercalate (path.toList.splitOn '/') = path.toList :=
    List.intercalate_splitOn '/'
  rw [hs, List.intercalate_cons_of_ne_nil (by simpa using hp)] at hc
  have hn : piece = [] := by simpa using congrArg String.toList he
  unfold isAbsolute
  rw [← hc, hn]
  rfl

theorem isAbsolute_of_ne {part : String} (h : parts path = part :: ps) (hp : part ≠ "") :
    isAbsolute path = false := by
  cases ha : isAbsolute path with
  | false => rfl
  | true =>
    obtain ⟨rest, hr⟩ := exists_parts_of_isAbsolute ha
    exact absurd (List.cons.inj (h.symm.trans hr)).1 hp

/-! ## Joining -/

/-- A relative path that is joined to a base adds its parts to those of the base, in place of an
empty one at the end. -/
theorem exists_parts_base {base : String} (hb : base ≠ "") (hi : isAbsolute i = false) :
    ∃ ps zs, parts (join base i) = ps ++ parts i ∧ parts base = ps ++ zs ∧
      (∀ z ∈ zs, isSilent z = true) ∧ isAbsolute (join base i) = isAbsolute base := by
  have he : base.isEmpty = false := by simpa using hb
  unfold join
  rw [hi, he, Bool.or_false, if_neg Bool.false_ne_true]
  split
  · rename_i hl
    obtain ⟨cs, hc⟩ := List.getLast?_eq_some_iff.mp (beq_iff_eq.mp hl)
    have hs : base = String.ofList cs ++ "/" := by
      rw [← String.toList_inj, hc]
      simp
    have hp : parts base = parts (String.ofList cs) ++ [""] := by
      rw [hs]
      exact (congrArg parts (by simp)).trans (parts_append (String.ofList cs) "")
    refine ⟨parts (String.ofList cs), [""], ?_, hp, by simp [isSilent], isAbsolute_append hb i⟩
    rw [hs, parts_append]
  · refine ⟨parts base, [], parts_append base i, by simp, by simp, ?_⟩
    rw [String.append_assoc]
    exact isAbsolute_append hb _

theorem exists_parts_join {base : String} (hb : base ≠ "") (hi : isAbsolute i = false) :
    ∃ ps, parts (join base i) = ps ++ parts i ∧
      ps.filter (!isSilent ·) = (parts base).filter (!isSilent ·) ∧
      isAbsolute (join base i) = isAbsolute base := by
  obtain ⟨ps, zs, hps, hbase, hz, ha⟩ := exists_parts_base hb hi
  have hf : zs.filter (!isSilent ·) = [] :=
    List.filter_eq_nil_iff.mpr fun z hm => by simp [hz z hm]
  refine ⟨ps, hps, ?_, ha⟩
  rw [hbase, List.filter_append, hf, List.append_nil]

/-! ## What holds a file -/

theorem filter_dropWhile_isSilent (ps : List String) :
    (ps.dropWhile isSilent).filter (!isSilent ·) = ps.filter (!isSilent ·) := by
  induction ps with
  | nil => rfl
  | cons p ps ih =>
    by_cases hp : isSilent p = true
    · rw [List.dropWhile_cons_of_pos hp, ih, List.filter_cons_of_neg (by simp [hp])]
    · rw [List.dropWhile_cons_of_neg hp]

theorem dropLast_append_singleton (before : List String) (hn : isSilent name = false) :
    dropLast (before ++ [name]) = (before.reverse.dropWhile isSilent).reverse := by
  rw [dropLast, List.reverse_append, List.reverse_singleton, List.singleton_append,
    List.dropWhile_cons_of_neg (by simp [hn]), List.drop_one, List.tail_cons]

theorem filter_dropLast (before : List String) (hn : isSilent name = false) :
    (dropLast (before ++ [name])).filter (!isSilent ·) = before.filter (!isSilent ·) := by
  rw [dropLast_append_singleton before hn, List.filter_reverse, filter_dropWhile_isSilent,
    List.filter_reverse, List.reverse_reverse]

theorem prefix_dropLast (before : List String) (hn : isSilent name = false) :
    dropLast (before ++ [name]) <+: before := by
  rw [dropLast_append_singleton before hn]
  have h := (List.dropWhile_suffix isSilent (l := before.reverse)).reverse
  rwa [List.reverse_reverse] at h

theorem dropLast_cons (ps : List String) {first : String} (hf : isSilent first = false)
    (hn : isSilent name = false) :
    ∃ more, dropLast (first :: ps ++ [name]) = first :: more := by
  obtain ⟨after, ha⟩ := prefix_dropLast (first :: ps) hn
  have hfilter := filter_dropLast (first :: ps) hn
  cases hc : dropLast (first :: ps ++ [name]) with
  | nil =>
    rw [hc, List.filter_cons_of_pos (by simp [hf])] at hfilter
    cases hfilter
  | cons q more =>
    rw [hc] at ha
    exact ⟨more, congrArg (· :: more) (List.cons.inj ha).1⟩

theorem parent_of_absolute (h : parts path = "" :: ps) (hp : ps.all isSilent = false) :
    parent path = "/" ++ "/".intercalate (dropLast ps) := by
  unfold parent
  rw [h]
  exact if_neg (by simp [hp])

theorem parent_of_dot (h : parts path = "." :: ps) (hp : ps.all isSilent = false) :
    parent path = "/".intercalate ("." :: dropLast ps) := by
  unfold parent
  rw [h]
  exact if_neg (by simp [hp])

theorem parent_of_name {first : String} (h : parts path = first :: ps)
    (hf : isSilent first = false) :
    parent path = "/".intercalate (dropLast (first :: ps)) := by
  unfold parent
  split
  · rename_i hp
    rw [← (List.cons.inj (hp.symm.trans h)).1] at hf
    cases hf
  · rename_i hp
    rw [← (List.cons.inj (hp.symm.trans h)).1] at hf
    cases hf
  · rw [h]

theorem filter_parts_intercalate (h : ∀ p ∈ ps, '/' ∉ p.toList) :
    (parts ("/".intercalate ps)).filter (!isSilent ·) = ps.filter (!isSilent ·) := by
  by_cases hp : ps = []
  · subst hp
    rfl
  · rw [parts_intercalate hp h]

/-- The base names what the parts in front of a file's name do, up to silent ones. -/
structure IsHolder (base path : String) (before : List String) : Prop where
  ne_empty : base ≠ ""
  filter_parts : (parts base).filter (!isSilent ·) = before.filter (!isSilent ·)
  isAbsolute_eq : isAbsolute base = isAbsolute path

theorem not_mem_dropLast (h : parts path = before ++ [name]) (hn : isSilent name = false) :
    ∀ part ∈ dropLast (before ++ [name]), '/' ∉ part.toList := fun _ hp =>
  not_mem_of_mem_parts (h ▸ List.mem_append_left _ ((prefix_dropLast before hn).subset hp))

theorem not_mem_dropLast_tail {first : String} (h : parts path = first :: ps ++ [name])
    (hn : isSilent name = false) : ∀ part ∈ dropLast (ps ++ [name]), '/' ∉ part.toList := by
  intro part hp
  have hm : part ∈ parts path := by
    rw [h]
    exact List.mem_cons_of_mem _ (List.mem_append_left _ ((prefix_dropLast ps hn).subset hp))
  exact not_mem_of_mem_parts hm

theorem isHolder_of_absolute (h : parts path = "" :: ps ++ [name]) (hn : isSilent name = false) :
    IsHolder (parent path) path ("" :: ps) := by
  have hp := parent_of_absolute h (by simp [hn])
  have hparts : parts (parent path) = "" :: parts ("/".intercalate (dropLast (ps ++ [name]))) := by
    rw [hp, ← String.empty_append (s := "/"), parts_append]
    rfl
  refine ⟨by simp [hp], ?_, ?_⟩
  · rw [hparts, List.filter_cons_of_neg (by decide),
      filter_parts_intercalate (not_mem_dropLast_tail h hn), filter_dropLast ps hn,
      List.filter_cons_of_neg (by decide)]
  · rw [hp, isAbsolute_append (by decide), isAbsolute_of_parts h (by simp)]
    rfl

theorem isHolder_of_dot (h : parts path = "." :: ps ++ [name]) (hn : isSilent name = false) :
    IsHolder (parent path) path ("." :: ps) := by
  have hparts : parts (parent path) = "." :: dropLast (ps ++ [name]) := by
    rw [parent_of_dot h (by simp [hn])]
    exact parts_intercalate (by simp)
      (List.forall_mem_cons.mpr ⟨by decide, not_mem_dropLast_tail h hn⟩)
  refine ⟨fun hc => ?_, ?_, ?_⟩
  · rw [hc] at hparts
    exact absurd (List.cons.inj hparts).1 (by decide)
  · rw [hparts, List.filter_cons_of_neg (by decide), filter_dropLast ps hn,
      List.filter_cons_of_neg (by decide)]
  · rw [isAbsolute_of_ne hparts (by decide), isAbsolute_of_ne h (by decide)]

theorem isHolder_of_name {first : String} (h : parts path = first :: ps ++ [name])
    (hf : isSilent first = false) (hn : isSilent name = false) :
    IsHolder (parent path) path (first :: ps) := by
  have he : first ≠ "" := by
    rintro rfl
    cases hf
  obtain ⟨more, hm⟩ := dropLast_cons ps hf hn
  have hparts : parts (parent path) = first :: more := by
    rw [parent_of_name h hf]
    exact (parts_intercalate (fun e => List.cons_ne_nil _ _ (hm.symm.trans e))
      (not_mem_dropLast h hn)).trans hm
  refine ⟨fun hc => ?_, ?_, ?_⟩
  · rw [hc] at hparts
    exact he (List.cons.inj hparts).1.symm
  · rw [hparts, ← hm, filter_dropLast (first :: ps) hn]
  · rw [isAbsolute_of_ne hparts he, isAbsolute_of_ne h he]

/-- A file lies in the directory that its path starts from, or its path names what holds it. -/
theorem parent_eq_empty_or (h : parts path = before ++ [name]) (hn : isSilent name = false) :
    (parent path = "" ∧ before = [] ∧ isAbsolute path = false) ∨
      IsHolder (parent path) path before := by
  cases before with
  | nil =>
    refine .inl ⟨?_, rfl, isAbsolute_of_ne h (by rintro rfl; cases hn)⟩
    rw [parent_of_name h hn]
    exact congrArg _ (dropLast_append_singleton [] hn)
  | cons first ps =>
    refine .inr ?_
    cases hf : isSilent first with
    | false => exact isHolder_of_name h hf hn
    | true =>
      rcases (by simpa [isSilent] using hf : first = "" ∨ first = ".") with rfl | rfl
      · exact isHolder_of_absolute h hn
      · exact isHolder_of_dot h hn

/-- A relative path that a file includes leads on from the parts in front of the file's name. -/
theorem exists_parts_join_parent (h : parts path = before ++ [name]) (hn : isSilent name = false)
    (hi : isAbsolute i = false) : ∃ ps, parts (join (parent path) i) = ps ++ parts i ∧
      ps.filter (!isSilent ·) = before.filter (!isSilent ·) ∧
      isAbsolute (join (parent path) i) = isAbsolute path := by
  rcases parent_eq_empty_or h hn with ⟨hp, rfl, ha⟩ | hh
  · have hj : join (parent path) i = i := by
      unfold join
      rw [hp, hi]
      rfl
    exact ⟨[], by rw [hj]; rfl, rfl, by rw [hj, hi, ha]⟩
  · obtain ⟨ps, hps, hf, hj⟩ := exists_parts_join hh.ne_empty hi
    exact ⟨ps, hps, hf.trans hh.filter_parts, hj.trans hh.isAbsolute_eq⟩

end PinFile.Path
