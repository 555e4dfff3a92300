import Mathlib.Data.List.Infix
import PinFile.Files.Tree
import PinFile.Proofs.Results

/-!
# Reading what was written

A file that is written is read back by the same path (`read_of_write`): the way to the place that
the write chose is the same in the new tree. It would not be if it led through a link at that
very place, but a way that does never comes back there (`follow_ne_of_link`).
-/

namespace PinFile.FileTree

open Text

variable {t : FileTree} {a here : Address} {parts : List String}
  {enter enter' : Address → List String → Except FileFault Address}
  {absent absent' : Address → Except FileFault Address}

/-! ## Nodes after a node was put -/

theorem node?_of_ne_nil (h : a ≠ []) : t.node? a = (t.nodes.find? (·.1 == a)).map (·.2) := by
  unfold node?
  rw [if_neg (by simpa using h)]

theorem mem_nodes_of_node? {n : Node} (ha : a ≠ []) (h : t.node? a = some n) :
    (a, n) ∈ t.nodes := by
  rw [node?_of_ne_nil ha] at h
  obtain ⟨⟨b, n'⟩, he, rfl⟩ := Option.map_eq_some_iff.mp h
  have hb : b = a := by simpa using List.find?_some he
  exact hb ▸ List.mem_of_find?_eq_some he

theorem mem_nodes_of_file {content : Bytes} (h : t.node? a = some (.file content)) :
    (a, .file content) ∈ t.nodes := by
  refine mem_nodes_of_node? ?_ h
  rintro rfl
  cases h

theorem home_put (t : FileTree) (a : Address) (n : Node) : (t.put a n).home = t.home := by
  unfold put
  split <;> rfl

theorem find?_map_replace (nodes : List (Address × Node)) (a b : Address) (n : Node) :
    (nodes.map fun entry => if entry.1 == a then (a, n) else entry).find? (·.1 == b) =
      if b = a then (nodes.find? (·.1 == a)).map fun _ => (a, n)
      else nodes.find? (·.1 == b) := by
  induction nodes with
  | nil => simp
  | cons entry nodes ih =>
    rw [List.map_cons, List.find?_cons, List.find?_cons, List.find?_cons, ih]
    by_cases hb : b = a
    · subst hb
      cases he : entry.1 == b <;> simp [he]
    · have hab : (a == b) = false := beq_eq_false_iff_ne.mpr fun e => hb e.symm
      cases he : entry.1 == a with
      | true =>
        have heb : (entry.1 == b) = false := by rw [beq_iff_eq.mp he, hab]
        simp [hb, hab, heb]
      | false => simp [hb]

theorem node?_put (ha : a ≠ []) (n : Node) (b : Address) :
    (t.put a n).node? b = if b = a then some n else t.node? b := by
  by_cases hb : b = []
  · subst hb
    rw [if_neg fun e => ha e.symm]
    rfl
  · rw [node?_of_ne_nil hb, node?_of_ne_nil hb]
    unfold put
    split
    · rename_i hany
      obtain ⟨entry, hm⟩ := Option.isSome_iff_exists.mp (List.find?_isSome.mpr
        (List.any_eq_true.mp hany))
      rw [find?_map_replace]
      split
      · rw [hm]
        rfl
      · rfl
    · rename_i hany
      have hnone : t.nodes.find? (·.1 == a) = none := by
        rw [List.find?_eq_none]
        intro entry hentry
        simp only [List.any_eq_true, not_exists, not_and] at hany
        exact hany entry hentry
      rw [List.find?_append]
      split
      · rename_i he
        subst he
        rw [hnone]
        simp
      · rename_i he
        have : a ≠ b := fun e => he e.symm
        simp [this]

/-! ## Steps of a way -/

section

variable {part : String} {rest : List String} (hs : ¬ Path.isSilent part = true)
  (hp : ¬ part = "..")
  (hlong : ¬ isLongName part = true)

include hs hp hlong

theorem follow_into (hn : t.node? (here ++ [part]) = some .directory) :
    follow t enter absent here (part :: rest) = follow t enter absent (here ++ [part]) rest := by
  rw [follow, if_neg hs, if_neg hp, if_neg hlong]
  dsimp only
  rw [hn]

theorem follow_file {content : Bytes} (hn : t.node? (here ++ [part]) = some (.file content))
    (hr : rest.isEmpty = true) :
    follow t enter absent here (part :: rest) = .ok (here ++ [part]) := by
  rw [follow, if_neg hs, if_neg hp, if_neg hlong]
  dsimp only
  rw [hn]
  exact if_pos hr

theorem follow_link {target : String} (hn : t.node? (here ++ [part]) = some (.link target)) :
    follow t enter absent here (part :: rest) =
      enter (if Path.isAbsolute target then [] else here) (Path.parts target ++ rest) := by
  rw [follow, if_neg hs, if_neg hp, if_neg hlong]
  dsimp only
  rw [hn]

end

/-! ## The way to the place -/

/-- A way from outside a link, which may lead through it, does not end there. -/
theorem follow_ne_of_link {target : String} (hl : t.node? a = some (.link target))
    (henter : ∀ h ps, ¬ a <+: h → enter h ps ≠ .ok a) (hh : ¬ a <+: here) :
    follow t enter .ok here parts ≠ .ok a := by
  have ha : a ≠ [] := by
    rintro rfl
    cases hl
  fun_induction follow t enter .ok here parts with
  | case1 here =>
    rintro ⟨⟩
    exact hh (List.prefix_refl _)
  | case2 here part rest hs ih => exact ih hh
  | case3 here rest hs ih => exact ih fun h => hh (h.trans (List.dropLast_prefix here))
  | case4 => nofun
  | case5 here part rest _ _ _ next hn hr =>
    rintro h
    rw [← Except.ok.inj h, hn] at hl
    cases hl
  | case6 => nofun
  | case7 here part rest _ _ _ next hn ih =>
    apply ih
    intro h
    rcases List.prefix_concat_iff.mp h with h | h
    · rw [h, hn] at hl
      cases hl
    · exact hh h
  | case8 here part rest _ _ _ next content hn hr =>
    rintro h
    rw [← Except.ok.inj h, hn] at hl
    cases hl
  | case9 => nofun
  | case10 here part rest _ _ _ next target hn =>
    apply henter _ _
    split
    · exact fun h => ha (List.prefix_nil.mp h)
    · exact hh

theorem walk_ne_of_link {target : String} (hl : t.node? a = some (.link target)) (links : Nat)
    (hh : ¬ a <+: here) : walk t .ok links here parts ≠ .ok a := by
  induction links generalizing here parts with
  | zero => exact follow_ne_of_link hl (by simp) hh
  | succ links ih => exact follow_ne_of_link hl (fun _ _ h => ih h) hh

/-- The way to a place leads there in the tree with a file at the place too. -/
theorem follow_put {content : Bytes} (hd : t.node? a ≠ some .directory)
    (henter : ∀ h ps, enter h ps = .ok a → enter' h ps = .ok a)
    (hlink : ∀ target, t.node? a = some (.link target) →
      ∀ h ps, ¬ a <+: h → enter h ps ≠ .ok a)
    (h : follow t enter .ok here parts = .ok a) :
    follow (t.put a (.file content)) enter' absent' here parts = .ok a := by
  have ha : a ≠ [] := by
    rintro rfl
    exact hd rfl
  have hnode : ∀ b ≠ a, (t.put a (.file content)).node? b = t.node? b := fun b hb => by
    rw [node?_put ha, if_neg hb]
  have hplace : (t.put a (.file content)).node? a = some (.file content) := by
    rw [node?_put ha, if_pos rfl]
  fun_induction follow t enter .ok here parts with
  | case1 here => exact h
  | case2 here part rest hs ih => rw [follow, if_pos hs, ih h]
  | case3 here rest hs ih => rw [follow, if_neg hs, if_pos rfl, ih h]
  | case4 => cases h
  | case5 here part rest hs hp hlong next hn hr =>
    obtain rfl : next = a := Except.ok.inj h
    exact follow_file hs hp hlong hplace hr
  | case6 => cases h
  | case7 here part rest hs hp hlong next hn ih =>
    have hne : next ≠ a := by
      rintro rfl
      exact hd hn
    rw [follow_into hs hp hlong ((hnode next hne).trans hn)]
    exact ih h
  | case8 here part rest hs hp hlong next content' hn hr =>
    obtain rfl : next = a := Except.ok.inj h
    exact follow_file hs hp hlong hplace hr
  | case9 => cases h
  | case10 here part rest hs hp hlong next target hn =>
    have hne : next ≠ a := by
      rintro rfl
      refine hlink target hn _ _ ?_ h
      split
      · exact fun h => ha (List.prefix_nil.mp h)
      · intro h
        have : (here ++ [part]).length ≤ here.length := h.length_le
        rw [List.length_append, List.length_singleton] at this
        omega
    rw [follow_link hs hp hlong ((hnode next hne).trans hn)]
    exact henter _ _ h

theorem walk_put {content : Bytes} (hd : t.node? a ≠ some .directory) (links : Nat)
    (h : walk t .ok links here parts = .ok a) :
    walk (t.put a (.file content)) absent' links here parts = .ok a := by
  induction links generalizing here parts with
  | zero => exact follow_put hd (by simp) (by simp) h
  | succ links ih =>
    exact follow_put hd (fun _ _ h => ih h) (fun _ hl _ _ hh => walk_ne_of_link hl links hh) h

/-! ## Writing and reading -/

theorem read_eq_ok {path : String} {content : Bytes} (h : t.read path = .ok content) :
    ∃ a, t.locate path = .ok a ∧ t.node? a = some (.file content) := by
  obtain ⟨a, hl, h⟩ := bind_eq_ok_iff.mp h
  split at h
  · rename_i content' hn
    cases h
    exact ⟨a, hl, hn⟩
  · cases h
  · cases h
  · cases h

theorem read_of_locate {path : String} {content : Bytes} (hl : t.locate path = .ok a)
    (hn : t.node? a = some (.file content)) : t.read path = .ok content := by
  unfold read
  rw [hl]
  simp only [bind, Except.bind, hn]
  rfl

theorem lead_of_pathFault? {path : String} (h : pathFault? path = none) :
    t.lead absent path parts = walk t absent maxLinks (t.start path) parts := by
  unfold lead
  rw [h]

theorem target_eq_ok {path : String} (h : t.target path = .ok a) :
    pathFault? path = none ∧ walk t .ok maxLinks (t.start path) (Path.parts path) = .ok a ∧
      t.node? a ≠ some .directory := by
  unfold target at h
  dsimp only at h
  split at h
  · obtain ⟨_, _, h⟩ := bind_eq_ok_iff.mp h
    cases h
  · obtain ⟨b, hb, h⟩ := bind_eq_ok_iff.mp h
    split at h
    · cases h
    · rename_i hd
      cases h
      unfold lead at hb
      split at hb
      · cases hb
      · rename_i hf
        exact ⟨hf, hb, hd⟩

theorem start_put (n : Node) (path : String) : (t.put a n).start path = t.start path := by
  rw [start, start, home_put]

/-- A file is written where its path leads from then on. -/
theorem write_eq_ok {t' : FileTree} {path : String} {content : Bytes}
    (h : t.write path content = .ok t') :
    ∃ a, a ≠ [] ∧ t' = t.put a (.file content) ∧ t'.locate path = .ok a := by
  obtain ⟨a, ha, h⟩ := bind_eq_ok_iff.mp h
  cases h
  obtain ⟨hf, hw, hd⟩ := target_eq_ok ha
  refine ⟨a, ?_, rfl, ?_⟩
  · rintro rfl
    exact hd rfl
  · unfold locate
    rw [lead_of_pathFault? hf, start_put]
    exact walk_put hd maxLinks hw

/-- A written file is where its path leads, and has the content that was written. -/
theorem read_of_write {t' : FileTree} {path : String} {content : Bytes}
    (h : t.write path content = .ok t') :
    (∃ a, t'.locate path = .ok a) ∧ t'.read path = .ok content := by
  obtain ⟨a, hne, rfl, hl⟩ := write_eq_ok h
  have hn : (t.put a (.file content)).node? a = some (.file content) := by
    rw [node?_put hne, if_pos rfl]
  exact ⟨⟨a, hl⟩, read_of_locate hl hn⟩

theorem readText_of_read {path text : String} (h : t.read path = .ok (utf8 text)) :
    t.readText path = .ok text := by
  unfold readText
  rw [h]
  simp only [bind, Except.bind, ofUtf8?_utf8]
  rfl

theorem readText_of_write {t' : FileTree} {path text : String}
    (h : t.write path (utf8 text) = .ok t') : t'.readText path = .ok text :=
  readText_of_read (read_of_write h).2

end PinFile.FileTree
