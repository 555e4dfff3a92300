import Mathlib.Data.List.Nodup
import PinFile.Proofs.Distinct
import PinFile.Proofs.Load.Reach

/-!
# Ways through inclusions

A chain of files above a path holds no file twice, since none includes itself, so the depth that is
left never runs out (`OnWay.induct`). `DepthFirst t paths places`: the places are those of the
paths in order, each followed by the places of what it includes. A place is in it as often as
there are chains to it.
-/

namespace PinFile.Load

open Text

variable {t : FileTree} {root path : String} {m : Manifest} {i : Include} {a b : Address}
  {depth : Nat} {chain : List Address} {paths more : List String} {places : List Address}

/-- The chain is above the path, and the depth is what is left for it. -/
structure OnWay (t : FileTree) (root : String) (depth : Nat) (chain : List Address)
    (path : String) : Prop where
  reachable : Reachable t root path
  above : ∀ a, t.locate path = .ok a → ∀ c ∈ chain,
    Relation.TransGen (Includes t root fun _ => True) c a
  nodup : chain.Nodup
  nodes : ∀ c ∈ chain, c ∈ t.nodes.map (·.1)
  depth : depth + chain.length = t.nodes.length + 1

namespace OnWay

theorem start (t : FileTree) (root : String) : OnWay t root (t.nodes.length + 1) [] root :=
  ⟨.root, by simp, List.nodup_nil, by simp, rfl⟩

theorem ne_zero (h : OnWay t root depth chain path) : depth ≠ 0 := by
  rintro rfl
  have hl := List.Nodup.length_le_of_subset h.nodup h.nodes
  have := h.depth
  rw [List.length_map] at hl
  omega

theorem not_mem (hl : IsLoadable t root) (h : OnWay t root depth chain path)
    (ha : t.locate path = .ok a) : a ∉ chain := fun hm => hl.acyclic a (h.above a ha a hm)

theorem step (hl : IsLoadable t root) (h : OnWay t root (depth + 1) chain path)
    (ha : t.locate path = .ok a) (hm : Manifest.load t path = .ok m) (hi : i ∈ m.includes) :
    OnWay t root depth (chain ++ [a]) (includedPath path i) where
  reachable := h.reachable.step hm hi trivial
  above b hb c hc := by
    have hab : Includes t root (fun _ => True) a b :=
      ⟨path, m, i, h.reachable, ha, hm, hi, trivial, hb⟩
    rcases List.mem_append.mp hc with hc | hc
    · exact .tail (h.above a ha c hc) hab
    · rw [List.mem_singleton.mp hc]
      exact .single hab
  nodup := nodup_append_singleton h.nodup (h.not_mem hl ha)
  nodes c hc := by
    rcases List.mem_append.mp hc with hc | hc
    · exact h.nodes c hc
    · exact List.mem_singleton.mp hc ▸ mem_nodes_of_load ha hm
  depth := by
    have := h.depth
    rw [List.length_append, List.length_singleton]
    omega

/-- What holds of a path when it holds of all that its file includes. -/
theorem induct (hl : IsLoadable t root) {P : Nat → List Address → String → Prop}
    (hP : ∀ depth chain path a m, OnWay t root (depth + 1) chain path → t.locate path = .ok a →
      Manifest.load t path = .ok m →
      (∀ i ∈ m.includes, P depth (chain ++ [a]) (includedPath path i)) → P (depth + 1) chain path)
    (h : OnWay t root depth chain path) : P depth chain path := by
  induction depth generalizing chain path with
  | zero => exact absurd rfl h.ne_zero
  | succ depth ih =>
    obtain ⟨a, _, m, ha, -, hm⟩ := hl.exists_place h.reachable
    exact hP depth chain path a m h ha hm fun i hi => ih (h.step hl ha hm hi)

end OnWay

/-! ## Depth first -/

inductive DepthFirst (t : FileTree) : List String → List Address → Prop where
  | nil : DepthFirst t [] []
  | cons {path : String} {a : Address} {m : Manifest} {paths : List String}
      {inner outer : List Address} : t.locate path = .ok a → Manifest.load t path = .ok m →
      DepthFirst t (m.includes.map (includedPath path)) inner → DepthFirst t paths outer →
      DepthFirst t (path :: paths) (a :: inner ++ outer)

namespace DepthFirst

theorem append {places' : List Address} (h : DepthFirst t paths places)
    (h' : DepthFirst t more places') : DepthFirst t (paths ++ more) (places ++ places') := by
  induction h with
  | nil => exact h'
  | cons ha hm hi _ _ ih =>
    rw [List.append_assoc]
    exact .cons ha hm hi ih

theorem exists_cons (h : DepthFirst t (path :: paths) places) : ∃ first rest,
    places = first ++ rest ∧ DepthFirst t [path] first ∧ DepthFirst t paths rest := by
  cases h with
  | @cons _ a m _ inner outer ha hm hi ho =>
    have hf := DepthFirst.cons ha hm hi .nil
    rw [List.append_nil] at hf
    exact ⟨a :: inner, outer, rfl, hf, ho⟩

theorem exists_inner (h : DepthFirst t [path] places) (ha : t.locate path = .ok a)
    (hm : Manifest.load t path = .ok m) :
    ∃ inner, places = a :: inner ∧ DepthFirst t (m.includes.map (includedPath path)) inner := by
  cases h with
  | cons ha' hm' hi ho =>
    cases ha.symm.trans ha'
    cases hm.symm.trans hm'
    cases ho
    exact ⟨_, List.append_nil _, hi⟩

theorem mem_of_mem (h : DepthFirst t paths places) (hp : path ∈ paths)
    (ha : t.locate path = .ok a) : a ∈ places := by
  induction h with
  | nil => cases hp
  | cons ha' _ _ _ _ ih =>
    rcases List.mem_cons.mp hp with rfl | hp
    · cases ha.symm.trans ha'
      exact List.mem_cons_self
    · exact List.mem_append_right _ (ih hp)

theorem exists_of_forall (h : ∀ path ∈ paths, ∃ places, DepthFirst t [path] places) :
    ∃ places, DepthFirst t paths places := by
  induction paths with
  | nil => exact ⟨[], .nil⟩
  | cons path paths ih =>
    obtain ⟨⟨first, hf⟩, h⟩ := List.forall_mem_cons.mp h
    obtain ⟨rest, hr⟩ := ih h
    exact ⟨first ++ rest, hf.append hr⟩

theorem exists_of_onWay (hl : IsLoadable t root) (h : OnWay t root depth chain path) :
    ∃ places, DepthFirst t [path] places := by
  refine h.induct hl (P := fun _ _ path => ∃ places, DepthFirst t [path] places)
    fun depth chain path a m _ ha hm ih => ?_
  have hall : ∀ p ∈ m.includes.map (includedPath path), ∃ places, DepthFirst t [p] places := by
    intro p hp
    obtain ⟨i, hi, rfl⟩ := List.mem_map.mp hp
    exact ih i hi
  obtain ⟨inner, hi⟩ := exists_of_forall hall
  exact ⟨_, .cons ha hm hi .nil⟩

end DepthFirst

end PinFile.Load
