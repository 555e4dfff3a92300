import PinFile.Proofs.Files.Child
import PinFile.Proofs.Snapshot
import PinFile.Proofs.Text.Ascending

/-!
# Files of snapshots

What the operations of a store do to the directory that its path leads to. A snapshot lies in a
child of that directory, in a place that it shares with no other (`place_injective`): `insert`
writes to that place (`insert_eq_put`), `get` reads from it (`get_of_file`, `exists_get_error`),
and `list` finds the names in those of the children (`list_eq_ascending`).
-/

namespace PinFile.SnapshotStore

open Text FileTree

variable {s : SnapshotStore} {t t' : FileTree} {d : Address} {name : String} {names : List String}
  {m : Manifest} {bytes : Bytes} {size : Nat}

/-! ## Names of files -/

/-- Where the file of a snapshot is. -/
def place (d : Address) (name : String) : Address := d ++ [name ++ ending]

theorem append_ending_injective : Function.Injective (· ++ ending) := by
  intro name name' h
  simpa [ending] using h

theorem place_injective (d : Address) : Function.Injective (place d) := by
  intro name name' h
  exact append_ending_injective (List.singleton_inj.mp (List.append_cancel_left h))

theorem place_ne_nil : place d name ≠ [] := by
  simp [place]

theorem ne_empty_of_isName (h : isName name = true) : name ≠ "" := by
  rintro rfl
  cases h

theorem length_append_ending (name : String) : (name ++ ending).length = name.length + 5 :=
  String.length_append name ending

theorem isFileName_of_isName (h : isName name = true) : IsFileName (name ++ ending) := by
  unfold isName at h
  rw [Bool.and_eq_true, List.all_eq_true] at h
  have hne {short : String} (hs : short.length < 5) : name ++ ending ≠ short := by
    rintro rfl
    rw [length_append_ending] at hs
    omega
  refine ⟨?_, ?_, hne (by decide)⟩
  · rw [String.toList_append, List.mem_append, not_or]
    exact ⟨fun hm => absurd (h.1 _ hm) (by decide), by decide⟩
  · unfold Path.isSilent
    rw [Bool.or_eq_true, beq_iff_eq, beq_iff_eq, not_or]
    exact ⟨hne (by decide), hne (by decide)⟩

/-- The name is found again in that of the file, also when it has the ending itself. -/
theorem nameOf?_append (h : name ≠ "") : nameOf? (name ++ ending) = some name := by
  have hs : ending.toList.isSuffixOf (name ++ ending).toList = true := by
    rw [List.isSuffixOf_iff_suffix, String.toList_append]
    exact List.suffix_append _ _
  have hl : ending.length < (name ++ ending).toList.length := by
    rw [String.length_toList, length_append_ending]
    have hpos : name.length ≠ 0 := by simpa using h
    have hfive : ending.length = 5 := rfl
    omega
  have ht : (name ++ ending).toList.take ((name ++ ending).toList.length - ending.length) =
      name.toList := by
    rw [String.toList_append, List.length_append, String.length_toList, String.length_toList,
      Nat.add_sub_cancel, ← String.length_toList, List.take_left]
  unfold nameOf?
  dsimp only
  rw [hs, decide_eq_true hl, if_pos (by rfl), ht, String.ofList_toList]

theorem filterMap_nameOf? (h : ∀ name ∈ names, name ≠ "") :
    (names.map (· ++ ending)).filterMap nameOf? = names := by
  rw [List.filterMap_map]
  exact (List.filterMap_congr fun name hm => nameOf?_append (h name hm)).trans List.filterMap_some

/-! ## What the operations do -/

/-- The file system takes a file with the name of the snapshot: neither the name nor the path is
too long for it. -/
structure Accepts (s : SnapshotStore) (name : String) : Prop where
  short : isLongName (name ++ ending) = false
  sane : pathFault? (s.path name) = none

instance (s : SnapshotStore) (name : String) : Decidable (s.Accepts name) :=
  decidable_of_iff (isLongName (name ++ ending) = false ∧ pathFault? (s.path name) = none)
    ⟨fun h => ⟨h.1, h.2⟩, fun h => ⟨h.1, h.2⟩⟩

/-- The path of the store leads to a directory. -/
structure LiesIn (s : SnapshotStore) (t : FileTree) (d : Address) : Prop where
  located : t.locate s.root = .ok d
  directory : t.node? d = some .directory

namespace LiesIn

theorem insert_eq_put (h : s.LiesIn t d) (hn : isName name = true) (ha : s.Accepts name)
    (hb : m.toBson? = some bytes) (hc : t.TakesFile (place d name)) :
    s.insert t name m = .ok (t.put (place d name) (.file bytes), bytes.length) := by
  have ht : t.target (s.path name) = .ok (place d name) :=
    target_join h.located h.directory (isFileName_of_isName hn) ha.sane ha.short hc
  have hw : t.write (s.path name) bytes = .ok (t.put (place d name) (.file bytes)) := by
    unfold write
    rw [ht]
    rfl
  unfold insert
  rw [hn, hb]
  dsimp only
  rw [hw]
  rfl

theorem accepts_of_insert (h : s.LiesIn t d) (hi : s.insert t name m = .ok (t', size)) :
    s.Accepts name := by
  obtain ⟨hn, bytes, -, hw, -⟩ := insert_eq_ok hi
  obtain ⟨a, ha, -⟩ := bind_eq_ok_iff.mp hw
  exact ⟨short_of_target h.located h.directory (isFileName_of_isName hn) ha, (target_eq_ok ha).1⟩

theorem put (h : s.LiesIn t d) (hc : t.TakesFile (place d name)) :
    s.LiesIn (t.put (place d name) (.file bytes)) d where
  located := locate_put hc h.directory h.located
  directory := by
    rw [node?_put place_ne_nil, if_neg, h.directory]
    simp [place]

theorem get_of_file (h : s.LiesIn t d) (hn : isName name = true) (ha : s.Accepts name)
    (hc : t.node? (place d name) = some (.file bytes)) :
    s.get t name = (Manifest.ofBson bytes).mapError fun _ => .invalid (s.path name) := by
  have hl : t.locate (s.path name) = .ok (place d name) :=
    locate_join h.located h.directory (isFileName_of_isName hn) ha.sane ha.short hc
  exact get_eq_ofBson hn rfl ⟨_, hl⟩ (read_of_locate hl hc)

theorem exists_get_error (h : s.LiesIn t d) (hc : t.node? (place d name) = none) :
    ∃ e, s.get t name = .error e := by
  unfold get
  cases hn : isName name with
  | false => exact ⟨_, rfl⟩
  | true =>
    obtain ⟨fault, hf⟩ : ∃ fault, t.locate (s.path name) = .error fault :=
      locate_join_absent h.located h.directory (isFileName_of_isName hn) hc
    rw [hf]
    cases fault <;> exact ⟨_, rfl⟩

theorem list_eq_ascending (h : s.LiesIn t d) (hn : names.Nodup) (hne : ∀ name ∈ names, name ≠ "")
    (hp : (t.children d).Perm (names.map (· ++ ending))) : s.list t = .ok (ascending names) := by
  have hf : t.list s.root = .ok (t.children d) := by
    unfold FileTree.list
    rw [h.located]
    exact if_pos h.directory
  have hs : sorted ((t.children d).filterMap nameOf?) = sorted names := by
    rw [sorted_eq_iff]
    have := hp.filterMap nameOf?
    rwa [filterMap_nameOf? hne] at this
  unfold SnapshotStore.list
  rw [hf]
  dsimp only
  rw [hs, sorted_eq_ascending hn]

end LiesIn

end PinFile.SnapshotStore
