import PinFile.Manifest.Reader
import PinFile.Proofs.Bson.Manifest
import PinFile.Proofs.Files.Written
import PinFile.Snapshot

/-!
# Snapshots read back

A snapshot is read back as the manifest that was kept exactly when that manifest includes no other
file (`get_of_insert`). The bound is that of the format, which counts the bytes of a document in
31 bits.
-/

namespace PinFile.SnapshotStore

open Text

variable {s : SnapshotStore} {t t' : FileTree} {name : String} {m : Manifest} {size : Nat}

theorem insert_eq_ok (h : s.insert t name m = .ok (t', size)) : isName name = true ∧
    ∃ bytes, m.toBson? = some bytes ∧ t.write (s.path name) bytes = .ok t' ∧
      size = bytes.length := by
  unfold insert at h
  split at h
  · cases h
  · rename_i hn
    refine ⟨by simpa using hn, ?_⟩
    split at h
    · cases h
    · rename_i bytes hb
      split at h
      · cases h
      · rename_i hw
        cases h
        exact ⟨bytes, hb, hw, rfl⟩

theorem get_eq_ofBson {path : String} {bytes : Bytes} (hn : isName name = true)
    (hp : s.path name = path) (hl : ∃ a, t.locate path = .ok a) (hr : t.read path = .ok bytes) :
    s.get t name = (Manifest.ofBson bytes).mapError fun _ => .invalid path := by
  obtain ⟨a, ha⟩ := hl
  unfold get
  rw [hn, hp, ha]
  dsimp only
  rw [hr]
  rfl

/-- A snapshot is read back as it was kept exactly when it includes nothing; else its file is said
to be invalid. -/
theorem get_of_insert (h : s.insert t name m = .ok (t', size)) (hs : size < 2 ^ 31) :
    (s.get t' name = .ok m ↔ m.includes = []) ∧
      (m.includes ≠ [] → s.get t' name = .error (.invalid (s.path name))) := by
  obtain ⟨hn, bytes, hb, hw, rfl⟩ := insert_eq_ok h
  obtain ⟨hl, hr⟩ := FileTree.read_of_write hw
  rw [get_eq_ofBson hn rfl hl hr, Manifest.ofBson_toBson? hb hs]
  by_cases hi : m.includes = []
  · simp [hi, Except.mapError]
  · simp [hi, Except.mapError]

/-- The directory of a store. -/
def emptyStore : FileTree := ⟨[(["s"], .directory)], []⟩

/-- A snapshot that is read back, and one that is not. -/
theorem get_of_insert_pin_and_include :
    (∃ t' size, (insert ⟨"s"⟩ emptyStore "a"
        ⟨[⟨1, .requirement ⟨"b", [], [⟨.equal, "1"⟩], none, none, []⟩, some "pin"⟩]⟩ =
          .ok (t', size)) ∧
      get ⟨"s"⟩ t' "a" = .ok
        ⟨[⟨1, .requirement ⟨"b", [], [⟨.equal, "1"⟩], none, none, []⟩, some "pin"⟩]⟩) ∧
    ∃ t' size, insert ⟨"s"⟩ emptyStore "a" ⟨[⟨1, .includeFile ⟨.requirements, "x"⟩, none⟩]⟩ =
        .ok (t', size) ∧
      get ⟨"s"⟩ t' "a" = .error (.invalid "s/a.bson") := by
  have h₁ : (insert ⟨"s"⟩ emptyStore "a"
      ⟨[⟨1, .requirement ⟨"b", [], [⟨.equal, "1"⟩], none, none, []⟩, some "pin"⟩]⟩).map (·.2) =
      .ok 216 := by
    decide +kernel
  have h₂ : (insert ⟨"s"⟩ emptyStore "a" ⟨[⟨1, .includeFile ⟨.requirements, "x"⟩, none⟩]⟩).map
      (·.2) = .ok 112 := by
    decide +kernel
  obtain ⟨⟨t₁, size₁⟩, hi₁, rfl⟩ := map_eq_ok_iff.mp h₁
  obtain ⟨⟨t₂, size₂⟩, hi₂, rfl⟩ := map_eq_ok_iff.mp h₂
  exact ⟨⟨t₁, _, hi₁, (get_of_insert hi₁ (by decide)).1.mpr rfl⟩,
    t₂, _, hi₂, (get_of_insert hi₂ (by decide)).2 (by decide)⟩

/-- Not every manifest that was read and kept is read back. -/
theorem not_forall_get_of_insert : ¬ ∀ (text : String) (m : Manifest), Manifest.parse text = .ok m →
    ∀ (s : SnapshotStore) (t t' : FileTree) (name : String) (size : Nat),
      s.insert t name m = .ok (t', size) → size < 2 ^ 31 → s.get t' name = .ok m := by
  intro h
  have hp : Manifest.parse "-r x\n" = .ok ⟨[⟨1, .includeFile ⟨.requirements, "x"⟩, none⟩]⟩ := by
    decide +kernel
  have hg : ((insert ⟨"s"⟩ emptyStore "a" ⟨[⟨1, .includeFile ⟨.requirements, "x"⟩, none⟩]⟩).map
      fun kept => (kept.2, get ⟨"s"⟩ kept.1 "a")) = .ok (112, .error (.invalid "s/a.bson")) := by
    decide +kernel
  obtain ⟨⟨t', size⟩, hi, he⟩ := map_eq_ok_iff.mp hg
  injection he with hs he
  have hm := h _ _ hp _ _ _ _ _ hi (by omega)
  rw [he] at hm
  cases hm

end PinFile.SnapshotStore
