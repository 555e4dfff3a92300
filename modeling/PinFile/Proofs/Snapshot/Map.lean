import Mathlib.Data.List.AList
import PinFile.Proofs.Bson.Manifest
import PinFile.Proofs.Snapshot.Files

/-!
# A store is a finite map

A store whose directory is empty when it is opened answers every sequence of calls as a finite map
from names to manifests does (`run_refines`). The directory holds one file for each name in the
map, and a call that fails leaves everything in its place. The invariant is `Holds`; a call
preserves it (`holds_step`), and so a run does (`holds_run`).
-/

namespace PinFile

open Text FileTree

/-- A manifest that BSON has room for and that can be read back. -/
structure Manifest.IsStorable (m : Manifest) : Prop where
  noIncludes : m.includes = []
  numbers : ∀ line ∈ m.lines, line.number < 2 ^ 63
  size : ∀ bytes ∈ m.toBson?, bytes.length < 2 ^ 31

instance (m : Manifest) : Decidable m.IsStorable :=
  decidable_of_iff (m.includes = [] ∧ (∀ line ∈ m.lines, line.number < 2 ^ 63) ∧
      ∀ bytes ∈ m.toBson?, bytes.length < 2 ^ 31)
    ⟨fun h => ⟨h.1, h.2.1, h.2.2⟩, fun h => ⟨h.1, h.2, h.3⟩⟩

namespace SnapshotStore

/-! ## Calls -/

/-- What a store can be asked to do. -/
inductive Call where
  | insert (name : String) (m : Manifest)
  | get (name : String)
  | list

/-- What comes back from a call. -/
inductive Answer where
  | done
  | manifest (m : Manifest)
  | names (names : List String)
  | failed
  deriving DecidableEq

/-- The store as a machine: one call. -/
def step (s : SnapshotStore) (t : FileTree) : Call → FileTree × Answer
  | .insert name m =>
    match s.insert t name m with
    | .ok (t, _) => (t, .done)
    | .error _ => (t, .failed)
  | .get name =>
    match s.get t name with
    | .ok m => (t, .manifest m)
    | .error _ => (t, .failed)
  | .list =>
    match s.list t with
    | .ok names => (t, .names names)
    | .error _ => (t, .failed)

/-- One call after another, with all answers. -/
def run (s : SnapshotStore) (t : FileTree) : List Call → FileTree × List Answer
  | [] => (t, [])
  | call :: calls =>
    let (t, answer) := s.step t call
    let (t, answers) := s.run t calls
    (t, answer :: answers)

/-- What a call keeps can be kept, and in a file with that name. -/
def Allows (s : SnapshotStore) : Call → Prop
  | .insert name m => isName name = true → s.Accepts name ∧ m.IsStorable
  | .get _ | .list => True

instance (s : SnapshotStore) (call : Call) : Decidable (s.Allows call) :=
  match call with
  | .insert name m =>
    inferInstanceAs (Decidable (isName name = true → s.Accepts name ∧ m.IsStorable))
  | .get _ | .list => inferInstanceAs (Decidable True)

end SnapshotStore

/-! ## The map -/

/-- Manifests under their names. -/
abbrev Snapshots := AList fun _ : String => Manifest

namespace Snapshots

open SnapshotStore

def step (kept : Snapshots) : Call → Snapshots × Answer
  | .insert name m =>
    if isName name then (kept.insert name m, .done) else (kept, .failed)
  | .get name =>
    match kept.lookup name with
    | some m => (kept, .manifest m)
    | none => (kept, .failed)
  | .list => (kept, .names (ascending kept.keys))

def run (kept : Snapshots) : List Call → Snapshots × List Answer
  | [] => (kept, [])
  | call :: calls =>
    let (kept, answer) := kept.step call
    let (kept, answers) := kept.run calls
    (kept, answer :: answers)

end Snapshots

namespace SnapshotStore

variable {s : SnapshotStore} {t t₀ : FileTree} {d : Address} {kept : Snapshots} {call : Call}
  {calls : List Call} {name : String} {m : Manifest} {bytes : Bytes}

theorem lookup_insert_cases {name' : String} {m' : Manifest}
    (h : (kept.insert name m).lookup name' = some m') :
    name' = name ∧ m' = m ∨ name' ≠ name ∧ kept.lookup name' = some m' := by
  by_cases he : name' = name
  · subst he
    rw [AList.lookup_insert] at h
    exact .inl ⟨rfl, (Option.some.inj h).symm⟩
  · rw [AList.lookup_insert_ne he] at h
    exact .inr ⟨he, h⟩

/-! ## The map in the directory -/

/-- The tree is `t₀` with one file in the directory for each name of the map. -/
structure IsStored (d : Address) (t₀ t : FileTree) (kept : Snapshots) : Prop where
  content : ∀ name m, kept.lookup name = some m →
    ∃ bytes, m.toBson? = some bytes ∧ t.node? (place d name) = some (.file bytes)
  frame : ∀ a, (∀ name ∈ kept, a ≠ place d name) → t.node? a = t₀.node? a

/-- What holds between two calls. -/
structure Holds (s : SnapshotStore) (d : Address) (t₀ t : FileTree) (kept : Snapshots) : Prop
    extends s.LiesIn t d, IsStored d t₀ t kept where
  children : (t.children d).Perm (kept.keys.map (· ++ ending))
  allowed : ∀ name m, kept.lookup name = some m →
    isName name = true ∧ s.Accepts name ∧ m.IsStorable

namespace Holds

theorem mem_children (h : s.Holds d t₀ t kept) : name ++ ending ∈ t.children d ↔ name ∈ kept := by
  rw [h.children.mem_iff, AList.mem_keys]
  exact List.mem_map_of_injective append_ending_injective

theorem node?_of_not_mem (h : s.Holds d t₀ t kept) (hn : name ∉ kept) :
    t.node? (place d name) = none :=
  node?_child_eq_none_iff.mpr (mt h.mem_children.mp hn)

theorem takesFile (h : s.Holds d t₀ t kept) (name : String) : t.TakesFile (place d name) := by
  cases hk : kept.lookup name with
  | none => exact .inl (h.node?_of_not_mem (AList.lookup_eq_none.mp hk))
  | some m =>
    obtain ⟨bytes, -, hb⟩ := h.content name m hk
    exact .inr ⟨bytes, hb⟩

theorem get_eq_ok (h : s.Holds d t₀ t kept) (hk : kept.lookup name = some m) :
    s.get t name = .ok m := by
  obtain ⟨bytes, hb, hc⟩ := h.content name m hk
  obtain ⟨hn, ha, hm⟩ := h.allowed name m hk
  rw [h.get_of_file hn ha hc, Manifest.ofBson_toBson? hb (hm.size bytes hb), if_pos hm.noIncludes]
  rfl

theorem list_eq_ok (h : s.Holds d t₀ t kept) : s.list t = .ok (ascending kept.keys) := by
  refine h.list_eq_ascending kept.keys_nodup (fun name hn => ?_) h.children
  obtain ⟨m, hm⟩ := Option.isSome_iff_exists.mp (AList.lookup_isSome.mpr (AList.mem_keys.mpr hn))
  exact ne_empty_of_isName (h.allowed name m hm).1

theorem insert_eq_ok (h : s.Holds d t₀ t kept) (hn : isName name = true) (ha : s.Accepts name)
    (hm : m.IsStorable) : ∃ bytes, m.toBson? = some bytes ∧
      s.insert t name m = .ok (t.put (place d name) (.file bytes), bytes.length) := by
  obtain ⟨bytes, hb⟩ := Option.isSome_iff_exists.mp (Manifest.isSome_toBson?_iff.mpr hm.numbers)
  exact ⟨bytes, hb, h.insert_eq_put hn ha hb (h.takesFile name)⟩

theorem insert (h : s.Holds d t₀ t kept) (hn : isName name = true) (ha : s.Accepts name)
    (hm : m.IsStorable) (hb : m.toBson? = some bytes) :
    s.Holds d t₀ (t.put (place d name) (.file bytes)) (kept.insert name m) where
  toLiesIn := h.toLiesIn.put (h.takesFile name)
  content := by
    intro name' m' hk
    rw [node?_put place_ne_nil]
    rcases lookup_insert_cases hk with ⟨rfl, rfl⟩ | ⟨he, hk⟩
    · exact ⟨bytes, hb, if_pos rfl⟩
    · rw [if_neg fun e => he (place_injective d e)]
      exact h.content name' m' hk
  frame := by
    intro a hf
    rw [node?_put place_ne_nil, if_neg (hf name (by simp))]
    exact h.frame a fun name' hm' => hf name' (by simp [hm'])
  children := by
    rw [place, children_put, AList.keys_insert]
    by_cases hk : name ∈ kept
    · rw [if_pos (h.mem_children.mpr hk)]
      exact h.children.trans ((List.perm_cons_erase hk).map _)
    · rw [if_neg (mt h.mem_children.mp hk), List.erase_of_not_mem hk]
      exact (h.children.append_right _).trans (List.perm_append_singleton _ _)
  allowed := by
    intro name' m' hk
    rcases lookup_insert_cases hk with ⟨rfl, rfl⟩ | ⟨-, hk⟩
    · exact ⟨hn, ha, hm⟩
    · exact h.allowed name' m' hk

end Holds

/-! ## Calls one after another -/

theorem insert_of_not_isName (hn : isName name = false) :
    s.insert t name m = .error (.invalidName name) := by
  unfold SnapshotStore.insert
  rw [hn]
  rfl

/-- A call answers as the map does, and what holds before it holds after it. -/
theorem holds_step (h : s.Holds d t₀ t kept) (hc : s.Allows call) :
    s.Holds d t₀ (s.step t call).1 (kept.step call).1 ∧
      (s.step t call).2 = (kept.step call).2 := by
  unfold step Snapshots.step
  cases call with
  | insert name m =>
    dsimp only
    cases hn : isName name with
    | false =>
      rw [insert_of_not_isName hn]
      exact ⟨h, rfl⟩
    | true =>
      obtain ⟨ha, hm⟩ := hc hn
      obtain ⟨bytes, hb, hi⟩ := h.insert_eq_ok hn ha hm
      rw [hi]
      exact ⟨h.insert hn ha hm hb, rfl⟩
  | get name =>
    dsimp only
    cases hk : kept.lookup name with
    | none =>
      obtain ⟨e, he⟩ := h.exists_get_error (h.node?_of_not_mem (AList.lookup_eq_none.mp hk))
      rw [he]
      exact ⟨h, rfl⟩
    | some m =>
      rw [h.get_eq_ok hk]
      exact ⟨h, rfl⟩
  | list =>
    dsimp only
    rw [h.list_eq_ok]
    exact ⟨h, rfl⟩

theorem holds_run (h : s.Holds d t₀ t kept) (hc : ∀ call ∈ calls, s.Allows call) :
    s.Holds d t₀ (s.run t calls).1 (kept.run calls).1 ∧
      (s.run t calls).2 = (kept.run calls).2 := by
  induction calls generalizing t kept with
  | nil => exact ⟨h, rfl⟩
  | cons call calls ih =>
    obtain ⟨hcall, hcalls⟩ := List.forall_mem_cons.mp hc
    obtain ⟨hstep, ha⟩ := holds_step h hcall
    obtain ⟨hrun, has⟩ := ih hstep hcalls
    exact ⟨hrun, congrArg₂ List.cons ha has⟩

theorem step_cases (s : SnapshotStore) (t : FileTree) (call : Call) :
    (s.step t call).1 = t ∨ ∃ name m t' size, call = .insert name m ∧
      s.insert t name m = .ok (t', size) ∧ s.step t call = (t', .done) := by
  unfold step
  cases call with
  | insert name m =>
    dsimp only
    cases hi : s.insert t name m with
    | ok kept => exact .inr ⟨name, m, kept.1, kept.2, rfl, hi, rfl⟩
    | error e => exact .inl rfl
  | get name =>
    dsimp only
    split <;> exact .inl rfl
  | list =>
    dsimp only
    split <;> exact .inl rfl

theorem step_of_failed (h : (s.step t call).2 = .failed) : (s.step t call).1 = t := by
  rcases step_cases s t call with hs | ⟨_, _, t', _, -, -, hs⟩
  · exact hs
  · rw [hs] at h
    cases h

/-- Only an insertion writes, to the place of its name and nowhere else. -/
theorem node?_step (h : s.Holds d t₀ t kept) (call : Call) (a : Address) :
    (s.step t call).1.node? a = t.node? a ∨
      ∃ name m, call = .insert name m ∧ isName name = true ∧ a = place d name := by
  rcases step_cases s t call with hs | ⟨name, m, t', size, rfl, hi, hs⟩
  · exact .inl (by rw [hs])
  · obtain ⟨hn, bytes, hb, -⟩ := SnapshotStore.insert_eq_ok hi
    have ha := h.accepts_of_insert hi
    cases hi.symm.trans (h.insert_eq_put hn ha hb (h.takesFile name))
    rw [hs, node?_put place_ne_nil]
    split
    · rename_i ha
      exact .inr ⟨name, m, rfl, hn, ha⟩
    · exact .inl rfl

theorem root_of_create {root : String} (h : create t root = (t₀, .ok s)) : s.root = root := by
  unfold create at h
  split at h
  · cases h
    rfl
  · cases h

/-- Before the first call the map is empty. -/
theorem holds_empty (h : t.list s.root = .ok []) : ∃ d, s.Holds d t t ∅ := by
  unfold FileTree.list at h
  obtain ⟨d, hd, h⟩ := bind_eq_ok_iff.mp h
  split at h
  · rename_i hdir
    refine ⟨d, ⟨hd, hdir⟩, ⟨by simp, fun _ _ => rfl⟩, ?_, by simp⟩
    rw [Except.ok.inj h]
    exact .refl _
  · cases h

/-- A store that is opened on an empty directory is a finite map: it answers every sequence of
calls as the map does, and the directory holds the map. A call that fails changes nothing, and
one that does not writes to the place of its own name alone. -/
theorem run_refines {root : String} (ho : create t root = (t₀, .ok s))
    (he : t₀.list root = .ok []) :
    ∃ d, s.LiesIn t₀ d ∧ Function.Injective (place d) ∧
      ∀ calls, (∀ call ∈ calls, s.Allows call) →
        (s.run t₀ calls).2 = (Snapshots.run ∅ calls).2 ∧
        IsStored d t₀ (s.run t₀ calls).1 (Snapshots.run ∅ calls).1 ∧
        ∀ call,
          ((s.step (s.run t₀ calls).1 call).2 = .failed →
            (s.step (s.run t₀ calls).1 call).1 = (s.run t₀ calls).1) ∧
          ∀ a, (s.step (s.run t₀ calls).1 call).1.node? a = (s.run t₀ calls).1.node? a ∨
            ∃ name m, call = .insert name m ∧ isName name = true ∧ a = place d name := by
  have hroot : s.root = root := root_of_create ho
  obtain ⟨d, h⟩ := holds_empty (hroot ▸ he)
  refine ⟨d, h.toLiesIn, place_injective d, fun calls hc => ?_⟩
  obtain ⟨hrun, ha⟩ := holds_run h hc
  exact ⟨ha, hrun.toIsStored, fun call => ⟨step_of_failed, node?_step hrun call⟩⟩

/-- Two names, one of them with the ending of files in it, and a snapshot that is replaced. -/
theorem run_refines_replaced :
    create emptyStore "s" = (emptyStore, .ok ⟨"s"⟩) ∧ emptyStore.list "s" = .ok [] ∧
      (run ⟨"s"⟩ emptyStore
        [.insert "a" ⟨[⟨1, .blank, none⟩]⟩,
          .insert "a.bson" ⟨[⟨1, .requirement (.bare "b"), none⟩]⟩,
          .insert "a" ⟨[⟨2, .comment "c", none⟩]⟩, .insert "../a" ⟨[]⟩, .get "a", .get "b",
          .list]).2 =
        [.done, .done, .done, .failed, .manifest ⟨[⟨2, .comment "c", none⟩]⟩, .failed,
          .names ["a", "a.bson"]] := by
  have ho : create emptyStore "s" = (emptyStore, .ok ⟨"s"⟩) := by rfl
  have he : emptyStore.list "s" = .ok [] := by decide +kernel
  obtain ⟨d, -, -, h⟩ := run_refines ho he
  exact ⟨ho, he, (h _ (by decide +kernel)).1.trans (by decide +kernel)⟩

end SnapshotStore

end PinFile
