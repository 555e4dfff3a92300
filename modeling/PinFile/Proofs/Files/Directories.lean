import Mathlib.Logic.Function.Iterate
import PinFile.Proofs.Files.Child

/-!
# Directories that are made

A directory that is made is where its path leads from then on (`locate_of_makeDirectory`). Making
a directory and those that should hold it changes nothing but that there are directories where
nothing was, each where the path or one that holds it leads (`grows_makeDirectories`).
-/

namespace PinFile.FileTree

variable {t t' t'' : FileTree} {a b d : Address} {path name : String}

/-! ## One directory -/

theorem parts_eq_namedParts (path : String) :
    ∃ zs, Path.parts path = namedParts path ++ zs ∧ ∀ z ∈ zs, Path.isSilent z = true := by
  have hp := List.takeWhile_append_dropWhile (p := String.isEmpty) (l := (Path.parts path).reverse)
  refine ⟨((Path.parts path).reverse.takeWhile (·.isEmpty)).reverse, ?_, fun z hz => ?_⟩
  · rw [namedParts, ← List.reverse_append, hp, List.reverse_reverse]
  · have he := List.mem_takeWhile_imp (List.mem_reverse.mp hz)
    simp [Path.isSilent, String.isEmpty_iff.mp he]

theorem ne_empty_of_mem_namedParts (h : (namedParts path).getLast? = some name) : name ≠ "" := by
  rw [namedParts, List.getLast?_reverse] at h
  have := List.head?_dropWhile_not (·.isEmpty) (Path.parts path).reverse
  rw [h] at this
  rintro rfl
  cases this

/-- A directory is made where nothing was, under the directory that its path without the last part
leads to. -/
structure IsMade (t : FileTree) (path : String) (d : Address) (name : String) : Prop where
  holder : t.holder path = .ok d
  last : (namedParts path).getLast? = some name
  loud : ¬ Path.isSilent name = true
  ne_up : ¬ name = ".."
  short : ¬ isLongName name = true
  absent : t.node? (d ++ [name]) = none

theorem makeDirectory_eq_ok (h : t.makeDirectory path = .ok t') :
    ∃ d name, t.IsMade path d name ∧ t' = t.put (d ++ [name]) .directory := by
  obtain ⟨d, hd, h⟩ := bind_eq_ok_iff.mp h
  split at h
  · cases h
  · rename_i name hl
    split at h
    · cases h
    · rename_i hup
      split at h
      · cases h
      · rename_i hlong
        split at h
        · cases h
        · rename_i hn
          cases h
          refine ⟨d, name, ⟨hd, hl, ?_, fun he => hup (.inr he), hlong, by simpa using hn⟩, rfl⟩
          have he := ne_empty_of_mem_namedParts hl
          have hdot : name ≠ "." := fun he => hup (.inl he)
          simp [Path.isSilent, he, hdot]

theorem ne_nil_of_node? (h : t.node? a = none) : a ≠ [] := by
  rintro rfl
  cases h

/-- A new node takes the place of none. -/
theorem node?_put_new {n m : Node} (hb : t.node? b = none) (ha : t.node? a = some n) :
    (t.put b m).node? a = some n := by
  rw [node?_put (ne_nil_of_node? hb), if_neg, ha]
  rintro rfl
  rw [hb] at ha
  cases ha

theorem walk_put_new {n : Node} {here : Address} {parts : List String} (hb : t.node? b = none)
    (links : Nat) (h : walk t missing links here parts = .ok d) :
    walk (t.put b n) missing links here parts = .ok d :=
  walk_of_keepsWays (fun _ _ hc _ => node?_put_new hb hc) (fun _ hc => node?_put_new hb hc) links h

theorem locate_put_new {n : Node} (hb : t.node? b = none) (h : t.locate path = .ok a) :
    (t.put b n).locate path = .ok a := by
  obtain ⟨hf, hw⟩ := locate_eq_ok h
  rw [locate_of_pathFault? hf, start_put]
  exact walk_put_new hb maxLinks hw

theorem IsMade.locate (h : t.IsMade path d name) :
    (t.put (d ++ [name]) .directory).locate path = .ok (d ++ [name]) := by
  obtain ⟨zs, hparts, hz⟩ := parts_eq_namedParts path
  have hsplit : Path.parts path = (namedParts path).dropLast ++ (name :: zs) := by
    rw [hparts, ← List.dropLast_append_getLast? name h.last]
    simp
  have hnew : (t.put (d ++ [name]) .directory).node? (d ++ [name]) = some .directory := by
    rw [node?_put (by simp), if_pos rfl]
  have hr : ∀ enter, follow (t.put (d ++ [name]) .directory) enter missing d (name :: zs) =
      .ok (d ++ [name]) := fun enter => by
    rw [follow_into h.loud h.ne_up h.short hnew, follow_silent hz]
  have hholder := h.holder
  unfold FileTree.holder lead at hholder
  cases hf : pathFault? path with
  | some fault =>
    rw [hf] at hholder
    cases hholder
  | none =>
    rw [hf] at hholder
    rw [locate_of_pathFault? hf, start_put, hsplit]
    exact walk_child (by simp) (by simp [Path.isSilent]) hr maxLinks
      (walk_put_new h.absent maxLinks hholder)

theorem locate_of_makeDirectory (h : t.makeDirectory path = .ok t') :
    ∃ a, t.node? a = none ∧ t' = t.put a .directory ∧ t'.locate path = .ok a := by
  obtain ⟨d, name, hm, rfl⟩ := makeDirectory_eq_ok h
  exact ⟨d ++ [name], hm.absent, rfl, hm.locate⟩

/-! ## Directories that hold one another -/

/-- Nothing is different but that there are new directories, each where the path or one that holds
it leads. -/
structure Grows (t t' : FileTree) (path : String) : Prop where
  home : t'.home = t.home
  node? : ∀ a, t'.node? a = t.node? a ∨ (t.node? a = none ∧ t'.node? a = some .directory ∧
    ∃ n, t'.locate (Path.parent^[n] path) = .ok a)

theorem Grows.refl (t : FileTree) (path : String) : t.Grows t path := ⟨rfl, fun _ => .inl rfl⟩

theorem Grows.of_parent (h : t.Grows t' (Path.parent path)) : t.Grows t' path := by
  refine ⟨h.home, fun a => ?_⟩
  rcases h.node? a with h | ⟨hn, hd, n, hl⟩
  · exact .inl h
  · exact .inr ⟨hn, hd, n + 1, hl⟩

/-- One more directory, at the path itself. -/
theorem Grows.makeDirectory (h : t.Grows t' path) (hm : t'.makeDirectory path = .ok t'') :
    t.Grows t'' path := by
  obtain ⟨b, hb, rfl, hlocate⟩ := locate_of_makeDirectory hm
  refine ⟨(home_put _ _ _).trans h.home, fun a => ?_⟩
  by_cases ha : a = b
  · subst ha
    refine .inr ⟨?_, ?_, 0, hlocate⟩
    · rcases h.node? a with h | ⟨hn, -, -⟩
      · rw [← h, hb]
      · exact hn
    · rw [node?_put (ne_nil_of_node? hb), if_pos rfl]
  · rcases h.node? a with h | ⟨hn, hd, n, hl⟩
    · exact .inl (by rw [node?_put (ne_nil_of_node? hb), if_neg ha, h])
    · exact .inr ⟨hn, node?_put_new hb hd, n, locate_put_new hb hl⟩

theorem grows_makeDirectories (t : FileTree) (path : String) (steps : Nat) :
    t.Grows (t.makeDirectories path steps).1 path := by
  induction steps generalizing path with
  | zero => exact .refl t path
  | succ steps ih =>
    have hparent := (ih (Path.parent path)).of_parent
    unfold makeDirectories
    split
    · exact .refl t path
    split
    · rename_i hm
      exact (Grows.refl t path).makeDirectory hm
    · split
      · rename_i hp
        rw [hp] at hparent
        exact hparent
      · rename_i hp
        rw [hp] at hparent
        split
        · rename_i hm
          exact hparent.makeDirectory hm
        · exact hparent
    · exact .refl t path

theorem grows_ensureDirectory (t : FileTree) (path : String) :
    t.Grows (t.ensureDirectory path).1 path :=
  grows_makeDirectories t path _

end PinFile.FileTree
