import Mathlib.Logic.Relation
import PinFile.Load
import PinFile.Proofs.Files.Linkless

/-!
# Reachable files

`Reaches t follows root path`: a chain of inclusions of the kinds that `follows` names leads from
the root to the path. Paths are what the inclusions name; files are told apart by their places.
In a tree without links the place of a file settles what it includes (`includes_iff`), whatever
path leads to it.
-/

namespace PinFile.Load

open Text

/-- The path of an included file. -/
def includedPath (path : String) (i : Include) : String := Path.join (Path.parent path) i.path

inductive Reaches (t : FileTree) (follows : IncludeKind → Prop) (root : String) :
    String → Prop where
  | root : Reaches t follows root root
  | step {path : String} {m : Manifest} {i : Include} : Reaches t follows root path →
      Manifest.load t path = .ok m → i ∈ m.includes → follows i.kind →
      Reaches t follows root (includedPath path i)

/-- Inclusions of any kind lead to the path. -/
abbrev Reachable (t : FileTree) (root : String) : String → Prop := Reaches t (fun _ => True) root

/-- Inclusions of requirements alone lead to the path. -/
abbrev Required (t : FileTree) (root : String) : String → Prop :=
  Reaches t (· = .requirements) root

/-- A reachable file at one place includes the file at another. -/
def Includes (t : FileTree) (root : String) (follows : IncludeKind → Prop) (a b : Address) : Prop :=
  ∃ path m i, Reachable t root path ∧ t.locate path = .ok a ∧ Manifest.load t path = .ok m ∧
    i ∈ m.includes ∧ follows i.kind ∧ t.locate (includedPath path i) = .ok b

/-- Every reachable file can be read, and none includes itself, directly or not. A file is there
when the text that joins the names of the inclusions opens as a path, which also has to be short
enough for a path. -/
structure IsLoadable (t : FileTree) (root : String) : Prop where
  rooted : t.IsRooted
  linkless : t.IsLinkless
  load : ∀ path, Reachable t root path → ∃ m, Manifest.load t path = .ok m
  acyclic : ∀ a, ¬ Relation.TransGen (Includes t root fun _ => True) a a

variable {t : FileTree} {root path path' : String} {m : Manifest} {i : Include} {a b : Address}
  {follows : IncludeKind → Prop}

theorem Reaches.mono {follows' : IncludeKind → Prop} (h : Reaches t follows root path)
    (hf : ∀ k, follows k → follows' k) : Reaches t follows' root path := by
  induction h with
  | root => exact .root
  | step _ hl hi hk ih => exact .step ih hl hi (hf _ hk)

theorem Reaches.reachable (h : Reaches t follows root path) : Reachable t root path :=
  h.mono fun _ _ => trivial

/-! ## Places -/

theorem load_eq_ok (h : Manifest.load t path = .ok m) : ∃ a content text,
    t.locate path = .ok a ∧ t.node? a = some (.file content) ∧ t.readText path = .ok text ∧
      Manifest.parse text = .ok m := by
  unfold Manifest.load at h
  split at h
  · cases h
  · rename_i text ht
    obtain ⟨bytes, hr, -⟩ := bind_eq_ok_iff.mp ht
    obtain ⟨a, ha, hn⟩ := FileTree.read_eq_ok hr
    exact ⟨a, bytes, text, ha, hn, ht, mapError_eq_ok_iff.mp h⟩

theorem load_of_readText {text : String} (ht : t.readText path = .ok text)
    (hp : Manifest.parse text = .ok m) : Manifest.load t path = .ok m := by
  unfold Manifest.load
  rw [ht]
  exact mapError_eq_ok_iff.mpr hp

/-- What is read depends on the place alone. -/
theorem load_congr (ha : t.locate path = t.locate path') (h : Manifest.load t path = .ok m) :
    Manifest.load t path' = .ok m := by
  obtain ⟨a, content, text, hl, hn, ht, hp⟩ := load_eq_ok h
  refine load_of_readText ?_ hp
  rw [← ht]
  simp only [FileTree.readText, FileTree.read, ha]

theorem mem_nodes_of_load (ha : t.locate path = .ok a) (hm : Manifest.load t path = .ok m) :
    a ∈ t.nodes.map (·.1) := by
  obtain ⟨a', content, _, ha', hn, -⟩ := load_eq_ok hm
  cases ha.symm.trans ha'
  exact List.mem_map_of_mem (FileTree.mem_nodes_of_file hn)

/-- Where an inclusion leads depends on the place alone. -/
theorem locate_includedPath_congr (ht : t.IsRooted) (hl : t.IsLinkless)
    (ha : t.locate path = t.locate path') (hm : Manifest.load t path = .ok m)
    {b' : Address} (hb : t.locate (includedPath path i) = .ok b)
    (hb' : t.locate (includedPath path' i) = .ok b') : b = b' := by
  obtain ⟨a, content, _, hla, hn, -⟩ := load_eq_ok hm
  have hw := FileTree.locate_join_parent ht hl hla hn (FileTree.locate_eq_ok hb).1
  have hw' := FileTree.locate_join_parent ht hl (ha ▸ hla) hn (FileTree.locate_eq_ok hb').1
  exact Except.ok.inj ((hb.symm.trans (hw.trans hw'.symm)).trans hb')

namespace IsLoadable

variable (h : IsLoadable t root)

include h

theorem exists_place (hp : Reachable t root path) : ∃ a content m, t.locate path = .ok a ∧
    t.node? a = some (.file content) ∧ Manifest.load t path = .ok m := by
  obtain ⟨m, hm⟩ := h.load path hp
  obtain ⟨a, content, text, ha, hn, -, -⟩ := load_eq_ok hm
  exact ⟨a, content, m, ha, hn, hm⟩

theorem locate_includedPath (hp : Reachable t root path) (hp' : Reachable t root path')
    (ha : t.locate path = t.locate path') (hm : Manifest.load t path = .ok m)
    (hi : i ∈ m.includes) : t.locate (includedPath path i) = t.locate (includedPath path' i) := by
  obtain ⟨b, _, _, hb, -⟩ := h.exists_place (hp.step hm hi trivial)
  obtain ⟨b', _, _, hb', -⟩ := h.exists_place (hp'.step (load_congr ha hm) hi trivial)
  rw [hb, hb', locate_includedPath_congr h.rooted h.linkless ha hm hb hb']

/-- What a place includes can be told from any path to it. -/
theorem includes_iff (hp : Reachable t root path) (ha : t.locate path = .ok a)
    (hm : Manifest.load t path = .ok m) : Includes t root follows a b ↔
      ∃ i ∈ m.includes, follows i.kind ∧ t.locate (includedPath path i) = .ok b := by
  constructor
  · rintro ⟨path', m', i, hp', ha', hm', hi, hk, hb⟩
    have hm'' := load_congr (ha'.trans ha.symm) hm'
    cases hm.symm.trans hm''
    exact ⟨i, hi, hk, h.locate_includedPath hp' hp (ha'.trans ha.symm) hm' hi ▸ hb⟩
  · rintro ⟨i, hi, hk, hb⟩
    exact ⟨path, m, i, hp, ha, hm, hi, hk, hb⟩

end IsLoadable

end PinFile.Load
