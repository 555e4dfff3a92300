import PinFile.Proofs.Files.Written

/-!
# Rooted trees

In a rooted tree the home directory and what holds a node are directories. A path that ends with a
slash leads to a directory in it (`directory_of_locate`), so the place of a file that is found is
also the place that a write to its path chooses (`write_of_locate`).
-/

namespace PinFile.FileTree

open Text

structure IsRooted (t : FileTree) : Prop where
  home : t.node? t.home = some .directory
  holder : ∀ entry ∈ t.nodes, t.node? entry.1.dropLast = some .directory

instance (t : FileTree) : Decidable t.IsRooted :=
  decidable_of_iff (t.node? t.home = some .directory ∧
      ∀ entry ∈ t.nodes, t.node? entry.1.dropLast = some .directory)
    ⟨fun h => ⟨h.1, h.2⟩, fun h => ⟨h.1, h.2⟩⟩

variable {t : FileTree} {a here : Address} {parts : List String}
  {enter enter' : Address → List String → Except FileFault Address}
  {absent absent' : Address → Except FileFault Address}

theorem IsRooted.dropLast (h : t.IsRooted) (hd : t.node? a = some .directory) :
    t.node? a.dropLast = some .directory := by
  by_cases ha : a = []
  · subst ha
    rfl
  · exact h.holder _ (mem_nodes_of_node? ha hd)

theorem IsRooted.start (h : t.IsRooted) (path : String) :
    t.node? (t.start path) = some .directory := by
  unfold FileTree.start
  split
  · rfl
  · exact h.home

/-- A way whose last part is empty ends in a directory. -/
theorem follow_directory (ht : t.IsRooted) (hh : t.node? here = some .directory)
    (henter : ∀ h ps, t.node? h = some .directory → ps.getLast? = some "" →
      enter h ps = .ok a → t.node? a = some .directory)
    (hp : parts = [] ∨ parts.getLast? = some "")
    (h : follow t enter absent here parts = .ok a) : t.node? a = some .directory := by
  have hrest : ∀ (part : String) (rest : List String), ¬ Path.isSilent part = true →
      (part :: rest = [] ∨ (part :: rest).getLast? = some "") →
      rest ≠ [] ∧ rest.getLast? = some "" := by
    intro part rest hs hp
    have hl := hp.resolve_left (by simp)
    cases rest with
    | nil =>
      rw [List.getLast?_singleton] at hl
      rw [Option.some.inj hl] at hs
      exact absurd rfl hs
    | cons next rest => exact ⟨by simp, by rwa [List.getLast?_cons_cons] at hl⟩
  have htail : ∀ (part : String) (rest : List String),
      (part :: rest = [] ∨ (part :: rest).getLast? = some "") →
      rest = [] ∨ rest.getLast? = some "" := by
    intro part rest hp
    have hl := hp.resolve_left (by simp)
    cases rest with
    | nil => exact .inl rfl
    | cons next rest => exact .inr (by rwa [List.getLast?_cons_cons] at hl)
  fun_induction follow t enter absent here parts with
  | case1 here =>
    cases h
    exact hh
  | case2 here part rest hs ih => exact ih hh (htail _ _ hp) h
  | case3 here rest hs ih => exact ih (ht.dropLast hh) (htail _ _ hp) h
  | case4 => cases h
  | case5 here part rest hs _ _ next hn hr =>
    exact absurd (List.isEmpty_iff.mp hr) (hrest _ _ hs hp).1
  | case6 => cases h
  | case7 here part rest hs _ _ next hn ih => exact ih hn (.inr (hrest _ _ hs hp).2) h
  | case8 here part rest hs _ _ next content hn hr =>
    exact absurd (List.isEmpty_iff.mp hr) (hrest _ _ hs hp).1
  | case9 => cases h
  | case10 here part rest hs _ _ next target hn =>
    obtain ⟨hne, hl⟩ := hrest _ _ hs hp
    refine henter _ _ ?_ ?_ h
    · split
      · rfl
      · exact hh
    · rw [List.getLast?_append_of_ne_nil _ hne, hl]

theorem walk_directory (ht : t.IsRooted) (links : Nat) (hh : t.node? here = some .directory)
    (hp : parts = [] ∨ parts.getLast? = some "")
    (h : walk t absent links here parts = .ok a) : t.node? a = some .directory := by
  induction links generalizing here parts with
  | zero => exact follow_directory ht hh (by simp) hp h
  | succ links ih => exact follow_directory ht hh (fun _ _ hh hl => ih hh (.inr hl)) hp h

/-- A way that ends at a node does not ask what is absent. -/
theorem follow_of_absent (henter : ∀ h ps, enter h ps = .ok a → enter' h ps = .ok a)
    (h : follow t enter (fun _ => .error .notFound) here parts = .ok a) :
    follow t enter' absent here parts = .ok a := by
  fun_induction follow t enter (fun _ => .error .notFound) here parts with
  | case1 here => exact h
  | case2 here part rest hs ih => rw [follow, if_pos hs, ih h]
  | case3 here rest hs ih => rw [follow, if_neg hs, if_pos rfl, ih h]
  | case4 => cases h
  | case5 => cases h
  | case6 => cases h
  | case7 here part rest hs hp hlong next hn ih =>
    rw [follow_into hs hp hlong hn]
    exact ih h
  | case8 here part rest hs hp hlong next content hn hr =>
    rw [follow_file hs hp hlong hn hr]
    exact h
  | case9 => cases h
  | case10 here part rest hs hp hlong next target hn =>
    rw [follow_link hs hp hlong hn]
    exact henter _ _ h

theorem walk_of_absent (links : Nat)
    (h : walk t (fun _ => .error .notFound) links here parts = .ok a) :
    walk t absent links here parts = .ok a := by
  induction links generalizing here parts with
  | zero => exact follow_of_absent (by simp) h
  | succ links ih => exact follow_of_absent (fun _ _ h => ih h) h

theorem locate_eq_ok {path : String} (h : t.locate path = .ok a) : pathFault? path = none ∧
    walk t (fun _ => .error .notFound) maxLinks (t.start path) (Path.parts path) = .ok a := by
  unfold locate lead at h
  split at h
  · cases h
  · rename_i hf
    exact ⟨hf, h⟩

theorem getLast?_parts {path : String} (h : path.toList.getLast? = some '/') :
    (Path.parts path).getLast? = some "" := by
  obtain ⟨cs, hcs⟩ := List.getLast?_eq_some_iff.mp h
  unfold Path.parts
  rw [hcs, List.splitOn_append_cons_self, List.map_append, List.splitOn_nil]
  exact List.getLast?_concat

/-- A file that is found can be written by the same path. -/
theorem write_of_locate (ht : t.IsRooted) {path : String} {old : Bytes} (content : Bytes)
    (h : t.locate path = .ok a) (hn : t.node? a = some (.file old)) :
    t.write path content = .ok (t.put a (.file content)) := by
  obtain ⟨hf, hw⟩ := locate_eq_ok h
  have hd : t.node? a ≠ some .directory := by simp [hn]
  have hs : path.toList.getLast? ≠ some '/' := fun hl =>
    hd (walk_directory ht maxLinks (ht.start path) (.inr (getLast?_parts hl)) hw)
  have htarget : t.target path = .ok a := by
    unfold target
    rw [if_neg hs, lead, hf]
    dsimp only
    rw [walk_of_absent maxLinks hw]
    exact if_neg hd
  unfold write
  rw [htarget]
  rfl

end PinFile.FileTree
