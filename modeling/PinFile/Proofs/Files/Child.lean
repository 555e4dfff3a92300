import PinFile.Proofs.Files.Linkless

/-!
# Files of a directory

The path of a directory, joined to a name, leads to the child with that name, whatever links the
path of the directory leads through (`locate_join`, `target_join`). The directory is found in the
same place after a file was written to one of its children (`locate_put`), which adds at most that
name to those in it (`children_put`).
-/

namespace PinFile.FileTree

variable {t t' : FileTree} {a b d here : Address} {xs ys zs parts rest : List String}
  {part name root : String} {r : Except FileFault Address} {content : Text.Bytes}
  {enter enter' : Address → List String → Except FileFault Address}
  {absent : Address → Except FileFault Address}

/-- A file can be written at the address: there is a file or nothing. -/
def TakesFile (t : FileTree) (a : Address) : Prop :=
  t.node? a = none ∨ ∃ content, t.node? a = some (.file content)

theorem TakesFile.ne_nil (h : t.TakesFile a) : a ≠ [] := by
  rintro rfl
  rcases h with h | ⟨_, h⟩ <;> cases h

/-! ## The way to a child -/

theorem follow_silent (hz : ∀ z ∈ zs, Path.isSilent z = true) :
    follow t enter absent here zs = .ok here := by
  induction zs with
  | nil => rfl
  | cons z zs ih =>
    obtain ⟨hz, hzs⟩ := List.forall_mem_cons.mp hz
    rw [follow, if_pos hz, ih hzs]

section

variable (hs : ¬ Path.isSilent part = true) (hp : ¬ part = "..")

include hs hp

theorem follow_long (hl : isLongName part = true) :
    follow t enter absent here (part :: rest) = .error .nameTooLong := by
  rw [follow, if_neg hs, if_neg hp, if_pos hl]

variable (hlong : ¬ isLongName part = true)

include hlong

theorem follow_missing (hn : t.node? (here ++ [part]) = none) :
    follow t enter missing here (part :: rest) = .error .notFound := by
  rw [follow, if_neg hs, if_neg hp, if_neg hlong]
  dsimp only
  rw [hn]
  exact ite_self _

theorem follow_absent (hn : t.node? (here ++ [part]) = none) :
    follow t enter absent here [part] = absent (here ++ [part]) := by
  rw [follow, if_neg hs, if_neg hp, if_neg hlong]
  dsimp only
  rw [hn]
  rfl

theorem eq_of_follow_file (hn : t.node? (here ++ [part]) = some (.file content))
    (h : follow t enter absent here (part :: rest) = .ok a) : a = here ++ [part] ∧ rest = [] := by
  rw [follow, if_neg hs, if_neg hp, if_neg hlong] at h
  dsimp only at h
  rw [hn] at h
  dsimp only at h
  split at h
  · rename_i hr
    exact ⟨(Except.ok.inj h).symm, List.isEmpty_iff.mp hr⟩
  · cases h

end

/-- A way that ends in a directory goes on from there, in place of silent parts. -/
theorem follow_child (hd : zs = [] → t.node? d = some .directory)
    (hz : ∀ z ∈ zs, Path.isSilent z = true) (hr : follow t enter' absent d ys = r)
    (henter : ∀ h ps, enter h (ps ++ zs) = .ok d → enter' h (ps ++ ys) = r)
    (h : follow t enter missing here (xs ++ zs) = .ok d) :
    follow t enter' absent here (xs ++ ys) = r := by
  -- The parts in front are the same for both ways. A link changes them, and what follows it is the
  -- matter of `enter`; with `missing`, no other part but a directory leads on to `d`.
  induction xs generalizing here with
  | nil =>
    rw [List.nil_append, follow_silent hz] at h
    rw [Except.ok.inj h]
    exact hr
  | cons x xs ih =>
    rw [List.cons_append] at h ⊢
    by_cases hs : Path.isSilent x = true
    · rw [follow, if_pos hs] at h ⊢
      exact ih h
    by_cases hp : x = ".."
    · rw [follow, if_neg hs, if_pos hp] at h ⊢
      exact ih h
    by_cases hl : isLongName x = true
    · rw [follow_long hs hp hl] at h
      cases h
    cases hn : t.node? (here ++ [x]) with
    | none =>
      rw [follow_missing hs hp hl hn] at h
      cases h
    | some node =>
      cases node with
      | directory =>
        rw [follow_into hs hp hl hn] at h ⊢
        exact ih h
      | link target =>
        rw [follow_link hs hp hl hn, ← List.append_assoc] at h ⊢
        exact henter _ _ h
      | file content =>
        obtain ⟨he, hrest⟩ := eq_of_follow_file hs hp hl hn h
        have hfile := hd (List.append_eq_nil_iff.mp hrest).2
        rw [he, hn] at hfile
        cases hfile

theorem walk_child (hd : zs = [] → t.node? d = some .directory)
    (hz : ∀ z ∈ zs, Path.isSilent z = true)
    (hr : ∀ enter, follow t enter absent d ys = r) (links : Nat)
    (h : walk t missing links here (xs ++ zs) = .ok d) :
    walk t absent links here (xs ++ ys) = r := by
  induction links generalizing here xs with
  | zero => exact follow_child hd hz (hr _) (by simp) h
  | succ links ih => exact follow_child hd hz (hr _) (fun _ _ h => ih h) h

/-! ## Paths of children -/

/-- A name that a file can have. -/
structure IsFileName (name : String) : Prop where
  noSlash : '/' ∉ name.toList
  loud : ¬ Path.isSilent name = true
  ne_up : ¬ name = ".."

theorem IsFileName.parts_eq (h : IsFileName name) : Path.parts name = [name] := by
  unfold Path.parts
  rw [List.splitOn_eq_singleton h.noSlash, List.map_singleton, String.ofList_toList]

theorem IsFileName.ne_empty (h : IsFileName name) : name ≠ "" := by
  rintro rfl
  exact h.loud rfl

theorem IsFileName.isAbsolute_eq (h : IsFileName name) : Path.isAbsolute name = false :=
  Path.isAbsolute_of_ne h.parts_eq h.ne_empty

theorem ne_empty_of_locate (h : t.locate root = .ok d) : root ≠ "" := by
  rintro rfl
  cases h

theorem lead_join (hroot : t.locate root = .ok d) (hd : t.node? d = some .directory)
    (hn : IsFileName name) (hf : pathFault? (Path.join root name) = none)
    (hr : ∀ enter, follow t enter absent d [name] = r) :
    t.lead absent (Path.join root name) (Path.parts (Path.join root name)) = r := by
  obtain ⟨xs, zs, hxs, hroot', hz, habs⟩ :=
    Path.exists_parts_base (ne_empty_of_locate hroot) hn.isAbsolute_eq
  have hw := (locate_eq_ok hroot).2
  have hstart : t.start (Path.join root name) = t.start root := by
    rw [start, start, habs]
  rw [lead_of_pathFault? hf, hxs, hn.parts_eq, hstart]
  exact walk_child (fun _ => hd) hz hr maxLinks (hroot' ▸ hw)

section

variable (hroot : t.locate root = .ok d) (hd : t.node? d = some .directory) (hn : IsFileName name)

include hroot hd hn

/-- A child that is a file is found by the path of the directory and its name. -/
theorem locate_join (hf : pathFault? (Path.join root name) = none) (hl : isLongName name = false)
    (hc : t.node? (d ++ [name]) = some (.file content)) :
    t.locate (Path.join root name) = .ok (d ++ [name]) :=
  lead_join hroot hd hn hf fun _ => follow_file hn.loud hn.ne_up (by simp [hl]) hc rfl

theorem locate_join_absent (hc : t.node? (d ++ [name]) = none) :
    ∃ fault, t.locate (Path.join root name) = .error fault := by
  cases hf : pathFault? (Path.join root name) with
  | some fault =>
    refine ⟨fault, ?_⟩
    unfold locate lead
    rw [hf]
  | none =>
    by_cases hl : isLongName name = true
    · exact ⟨.nameTooLong, lead_join hroot hd hn hf fun _ => follow_long hn.loud hn.ne_up hl⟩
    · exact ⟨.notFound, lead_join hroot hd hn hf fun _ => follow_missing hn.loud hn.ne_up hl hc⟩

/-- A file is written to the child of the directory. -/
theorem target_join (hf : pathFault? (Path.join root name) = none) (hl : isLongName name = false)
    (hc : t.TakesFile (d ++ [name])) : t.target (Path.join root name) = .ok (d ++ [name]) := by
  have hlong : ¬ isLongName name = true := by simp [hl]
  have hlead : t.lead .ok (Path.join root name) (Path.parts (Path.join root name)) =
      .ok (d ++ [name]) := by
    refine lead_join hroot hd hn hf fun _ => ?_
    rcases hc with hc | ⟨content, hc⟩
    · exact follow_absent hn.loud hn.ne_up hlong hc
    · exact follow_file hn.loud hn.ne_up hlong hc rfl
  have hslash : ¬ (Path.join root name).toList.getLast? = some '/' := by
    obtain ⟨xs, -, hxs, -⟩ := Path.exists_parts_base (ne_empty_of_locate hroot) hn.isAbsolute_eq
    intro h
    have hlast := getLast?_parts h
    rw [hxs, hn.parts_eq, List.getLast?_concat] at hlast
    exact hn.ne_empty (Option.some.inj hlast)
  have hdir : ¬ t.node? (d ++ [name]) = some .directory := by
    rcases hc with hc | ⟨content, hc⟩ <;> simp [hc]
  unfold target
  rw [if_neg hslash, hlead]
  exact if_neg hdir

theorem short_of_target (h : t.target (Path.join root name) = .ok a) : isLongName name = false := by
  obtain ⟨hf, hw, -⟩ := target_eq_ok h
  cases hl : isLongName name with
  | false => rfl
  | true =>
    have hlead : t.lead .ok (Path.join root name) (Path.parts (Path.join root name)) =
        .error .nameTooLong :=
      lead_join hroot hd hn hf fun _ => follow_long hn.loud hn.ne_up hl
    rw [lead_of_pathFault? hf] at hlead
    cases hw.symm.trans hlead

end

/-! ## Ways in other trees -/

/-- The directories and links of a tree are in another one too. -/
def KeepsWays (t t' : FileTree) : Prop :=
  ∀ c n, t.node? c = some n → (∀ content, n ≠ .file content) → t'.node? c = some n

theorem keepsWays_put_file (hb : t.TakesFile b) : t.KeepsWays (t.put b (.file content)) := by
  intro c n hn hf
  rw [node?_put hb.ne_nil, if_neg, hn]
  rintro rfl
  rcases hb with hb | ⟨old, hb⟩
  · rw [hb] at hn
    cases hn
  · exact hf old (Option.some.inj (hn.symm.trans hb))

/-- A way leads to the same place in a tree that keeps the ways, if a file at its end is kept. -/
theorem follow_of_keepsWays (hk : t.KeepsWays t')
    (hf : ∀ content, t.node? d = some (.file content) → t'.node? d = some (.file content))
    (henter : ∀ h ps, enter h ps = .ok d → enter' h ps = .ok d)
    (h : follow t enter missing here parts = .ok d) :
    follow t' enter' missing here parts = .ok d := by
  fun_induction follow t enter missing here parts with
  | case1 here => exact h
  | case2 here part rest hs ih => rw [follow, if_pos hs, ih h]
  | case3 here rest hs ih => rw [follow, if_neg hs, if_pos rfl, ih h]
  | case4 | case5 | case6 | case9 => cases h
  | case7 here part rest hs hp hlong next hn ih =>
    rw [follow_into hs hp hlong (hk _ _ hn (by simp))]
    exact ih h
  | case8 here part rest hs hp hlong next old hn hr =>
    obtain rfl := Except.ok.inj h
    exact follow_file hs hp hlong (hf old hn) hr
  | case10 here part rest hs hp hlong next target hn =>
    rw [follow_link hs hp hlong (hk _ _ hn (by simp))]
    exact henter _ _ h

theorem walk_of_keepsWays (hk : t.KeepsWays t')
    (hf : ∀ content, t.node? d = some (.file content) → t'.node? d = some (.file content))
    (links : Nat) (h : walk t missing links here parts = .ok d) :
    walk t' missing links here parts = .ok d := by
  induction links generalizing here parts with
  | zero => exact follow_of_keepsWays hk hf (by simp) h
  | succ links ih => exact follow_of_keepsWays hk hf (fun _ _ h => ih h) h

theorem locate_put (hb : t.TakesFile b) (hd : t.node? d = some .directory)
    (h : t.locate root = .ok d) : (t.put b (.file content)).locate root = .ok d := by
  obtain ⟨hf, hw⟩ := locate_eq_ok h
  rw [locate_of_pathFault? hf, start_put]
  exact walk_of_keepsWays (keepsWays_put_file hb) (by simp [hd]) maxLinks hw

/-- The name of a child, if the address is that of one. -/
def childName? (d a : Address) : Option String :=
  match a.getLast? with
  | some name => if a.dropLast == d then some name else none
  | none => none

theorem children_eq (t : FileTree) (d : Address) :
    t.children d = (t.nodes.map (·.1)).filterMap (childName? d) := by
  rw [List.filterMap_map]
  rfl

theorem childName?_eq_some : childName? d a = some name ↔ a = d ++ [name] := by
  unfold childName?
  constructor
  · intro h
    split at h
    · rename_i last hl
      split at h
      · rename_i hd
        rw [← beq_iff_eq.mp hd, ← Option.some.inj h]
        exact (List.dropLast_append_getLast? last hl).symm
      · cases h
    · cases h
  · rintro rfl
    simp

theorem mem_children : name ∈ t.children d ↔ d ++ [name] ∈ t.nodes.map (·.1) := by
  rw [children_eq, List.mem_filterMap]
  simp [childName?_eq_some]

theorem node?_child_eq_none_iff : t.node? (d ++ [name]) = none ↔ name ∉ t.children d := by
  rw [mem_children, node?_of_ne_nil (by simp), Option.map_eq_none_iff, List.find?_eq_none]
  simp only [beq_iff_eq, List.mem_map, not_exists, not_and]

theorem children_put (t : FileTree) (d : Address) (name : String) (n : Node) :
    (t.put (d ++ [name]) n).children d =
      if name ∈ t.children d then t.children d else t.children d ++ [name] := by
  have hany : (t.nodes.any (·.1 == d ++ [name]) = true) ↔ name ∈ t.children d := by
    rw [mem_children]
    simp
  unfold put
  by_cases h : name ∈ t.children d
  · rw [if_pos h, if_pos (hany.mpr h), children_eq, children_eq, List.map_map]
    congr 1
    refine List.map_congr_left fun entry _ => ?_
    by_cases he : entry.1 = d ++ [name]
    · simp [he]
    · simp [he]
  · rw [if_neg h, if_neg (mt hany.mp h), children_eq, children_eq, List.map_append,
      List.filterMap_append]
    simp [childName?]

end PinFile.FileTree
