import PinFile.Proofs.Files.Path
import PinFile.Proofs.Files.Rooted

/-!
# Trees without links

Where a path leads in a tree without links depends on the directory that it starts from alone: the
way along some parts goes on from the directory that they end in (`follow_append`). So the place
of an included file depends on the place of the file that includes it, not on the path by which
that file was found (`locate_join_parent`).
-/

namespace PinFile

open Text

def Node.isLink : Node → Bool
  | .link _ => true
  | _ => false

namespace FileTree

def IsLinkless (t : FileTree) : Prop := ∀ entry ∈ t.nodes, entry.2.isLink = false

instance (t : FileTree) : Decidable t.IsLinkless :=
  inferInstanceAs (Decidable (∀ entry ∈ t.nodes, entry.2.isLink = false))

variable {t : FileTree} {a d here : Address} {xs ys ps parts : List String} {content : Bytes}
  {enter : Address → List String → Except FileFault Address}

theorem IsLinkless.node?_ne (h : t.IsLinkless) (a : Address) (target : String) :
    t.node? a ≠ some (.link target) := by
  intro hn
  by_cases ha : a = []
  · subst ha
    cases hn
  · rw [node?_of_ne_nil ha] at hn
    obtain ⟨entry, he, hl⟩ := Option.map_eq_some_iff.mp hn
    have := h entry (List.mem_of_find?_eq_some he)
    rw [hl] at this
    cases this

/-- What is absent is not found. -/
abbrev missing : Address → Except FileFault Address := fun _ => .error .notFound

theorem follow_append (hl : t.IsLinkless) (hd : t.node? d = some .directory)
    (h : follow t enter missing here xs = .ok d) :
    follow t enter missing here (xs ++ ys) = follow t enter missing d ys := by
  fun_induction follow t enter missing here xs with
  | case1 here =>
    cases h
    rfl
  | case2 here part rest hs ih => rw [List.cons_append, follow, if_pos hs, ih h]
  | case3 here rest hs ih => rw [List.cons_append, follow, if_neg hs, if_pos rfl, ih h]
  | case4 | case5 | case6 | case9 => cases h
  | case7 here part rest hs hp hlong next hn ih =>
    rw [List.cons_append, follow_into hs hp hlong hn]
    exact ih h
  | case8 here part rest hs hp hlong next content hn hr =>
    rw [← Except.ok.inj h] at hd
    cases hn.symm.trans hd
  | case10 here part rest hs hp hlong next target hn => exact absurd hn (hl.node?_ne _ _)

/-- Silent parts count for nothing when others follow. -/
theorem follow_filter (hl : t.IsLinkless) (hy : ys ≠ []) :
    follow t enter missing here (ps.filter (!Path.isSilent ·) ++ ys) =
      follow t enter missing here (ps ++ ys) := by
  induction ps generalizing here with
  | nil => rfl
  | cons p ps ih =>
    by_cases hs : Path.isSilent p = true
    · rw [List.filter_cons_of_neg (by simp [hs]), ih, List.cons_append, follow, if_pos hs]
    have he : ∀ zs : List String, (zs ++ ys).isEmpty = false := by simp [hy]
    rw [List.filter_cons_of_pos (by simp [hs])]
    simp only [List.cons_append, follow, hs, he, ih]
    split
    · rfl
    split
    · rfl
    split
    · rfl
    cases hn : t.node? (here ++ [p]) with
    | none => rfl
    | some node =>
      cases node with
      | link target => exact absurd hn (hl.node?_ne _ _)
      | file | directory => rfl

/-- A path that leads to a file ends with the file's name. -/
theorem exists_directory_of_follow (ht : t.IsRooted) (hl : t.IsLinkless)
    (hh : t.node? here = some .directory) (hn : t.node? a = some (.file content))
    (h : follow t enter missing here parts = .ok a) :
    ∃ before name d, parts = before ++ [name] ∧ Path.isSilent name = false ∧
      follow t enter missing here before = .ok d ∧ t.node? d = some .directory ∧
      a = d ++ [name] := by
  fun_induction follow t enter missing here parts with
  | case1 here =>
    cases h
    cases hh.symm.trans hn
  | case2 here part rest hs ih =>
    obtain ⟨before, name, d, hp, hname, hd, hdir, ha⟩ := ih hh h
    exact ⟨part :: before, name, d, congrArg (part :: ·) hp, hname,
      by rw [follow, if_pos hs, hd], hdir, ha⟩
  | case3 here rest hs ih =>
    obtain ⟨before, name, d, hp, hname, hd, hdir, ha⟩ := ih (ht.dropLast hh) h
    exact ⟨".." :: before, name, d, congrArg (".." :: ·) hp, hname,
      by rw [follow, if_neg hs, if_pos rfl, hd], hdir, ha⟩
  | case4 | case5 | case6 | case9 => cases h
  | case7 here part rest hs hp hlong next hnext ih =>
    obtain ⟨before, name, d, hrest, hname, hd, hdir, ha⟩ := ih hnext h
    refine ⟨part :: before, name, d, congrArg (part :: ·) hrest, hname, ?_, hdir, ha⟩
    rw [follow_into hs hp hlong hnext]
    exact hd
  | case8 here part rest hs hp hlong next content hnext hr =>
    refine ⟨[], part, here, ?_, by simpa using hs, rfl, hh, (Except.ok.inj h).symm⟩
    rw [List.isEmpty_iff.mp hr]
    rfl
  | case10 here part rest hs hp hlong next target hnext => exact absurd hnext (hl.node?_ne _ _)

/-! ## Included files -/

theorem locate_of_pathFault? {path : String} (h : pathFault? path = none) :
    t.locate path = walk t missing maxLinks (t.start path) (Path.parts path) :=
  lead_of_pathFault? h

/-- Where a path in a file leads depends on the place of the file alone. -/
theorem locate_join_parent (ht : t.IsRooted) (hl : t.IsLinkless) {path i : String}
    (ha : t.locate path = .ok a) (hn : t.node? a = some (.file content))
    (hf : pathFault? (Path.join (Path.parent path) i) = none) :
    t.locate (Path.join (Path.parent path) i) =
      walk t missing maxLinks (if Path.isAbsolute i then [] else a.dropLast) (Path.parts i) := by
  rw [locate_of_pathFault? hf]
  cases hi : Path.isAbsolute i with
  | true =>
    have hj : Path.join (Path.parent path) i = i := by simp [Path.join, hi]
    rw [hj, start, hi]
    rfl
  | false =>
    obtain ⟨hp, hw⟩ := locate_eq_ok ha
    obtain ⟨before, name, d, hparts, hname, hd, hdir, rfl⟩ :=
      exists_directory_of_follow ht hl (ht.start path) hn hw
    obtain ⟨ps, hps, hfilter, habs⟩ := Path.exists_parts_join_parent hparts hname hi
    have hstart : t.start (Path.join (Path.parent path) i) = t.start path := by
      rw [start, start, habs]
    have hy := Path.parts_ne_nil i
    rw [hps, hstart, maxLinks, walk, ← follow_filter hl hy, hfilter, follow_filter hl hy,
      follow_append hl hdir hd, List.dropLast_concat]
    rfl

end FileTree

end PinFile
