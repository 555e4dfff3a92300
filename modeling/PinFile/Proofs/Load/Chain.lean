import Mathlib.Data.List.Chain
import Mathlib.Data.List.Nodup
import PinFile.Proofs.Distinct
import PinFile.Proofs.Load.Reach

/-!
# Chains of files

`Leads t root chain path`: the files of the chain, no two of them the same, include one another
from the root on, and the last of them includes the path. A chain is never longer than there are
nodes (`Leads.length_le`), while a path that goes around a cycle grows without bound. So what a
tree needs in order to be read (`IsReadable`) is said of chains and not of all paths.
-/

namespace PinFile.Load

inductive Leads (t : FileTree) (root : String) : List Address → String → Prop where
  | root : Leads t root [] root
  | step {chain : List Address} {path : String} {a : Address} {m : Manifest} {i : Include} :
      Leads t root chain path → t.locate path = .ok a → a ∉ chain →
      Manifest.load t path = .ok m → i ∈ m.includes →
      Leads t root (chain ++ [a]) (includedPath path i)

/-- Every file that inclusions lead to is there and is accepted: the joined path text opens, which
also bounds its length, and what it opens parses. -/
structure IsReadable (t : FileTree) (root : String) : Prop where
  rooted : t.IsRooted
  linkless : t.IsLinkless
  load : ∀ chain path, Leads t root chain path → ∃ m, Manifest.load t path = .ok m

variable {t : FileTree} {root path : String} {m : Manifest} {i : Include} {a b : Address}
  {chain : List Address} {follows : IncludeKind → Prop}

namespace Leads

theorem reachable (h : Leads t root chain path) : Reachable t root path := by
  induction h with
  | root => exact .root
  | step _ _ _ hm hi ih => exact ih.step hm hi trivial

theorem nodup (h : Leads t root chain path) : chain.Nodup := by
  induction h with
  | root => exact List.nodup_nil
  | step _ _ hc _ _ ih => exact nodup_append_singleton ih hc

theorem subset_nodes (h : Leads t root chain path) : chain ⊆ t.nodes.map (·.1) := by
  induction h with
  | root => exact List.nil_subset _
  | step _ ha _ hm _ ih =>
    exact List.append_subset.mpr ⟨ih, List.cons_subset.mpr
      ⟨mem_nodes_of_load ha hm, List.nil_subset _⟩⟩

theorem length_le (h : Leads t root chain path) : chain.length ≤ t.nodes.length := by
  have hl := List.Nodup.length_le_of_subset h.nodup h.subset_nodes
  rwa [List.length_map] at hl

/-- Each file of a chain includes the next one, and the last the file that the chain leads to. -/
theorem isChain (h : Leads t root chain path) (hb : t.locate path = .ok b) :
    (chain ++ [b]).IsChain (Includes t root fun _ => True) := by
  induction h generalizing b with
  | root => exact .singleton b
  | @step chain path a m i h ha hc hm hi ih =>
    rw [List.append_assoc]
    refine List.isChain_append_cons_cons.mpr ⟨ih ha, ?_, .singleton b⟩
    exact ⟨path, m, i, h.reachable, ha, hm, hi, trivial, hb⟩

/-- A chain starts at the root. -/
theorem exists_head? (h : Leads t root chain path) (hb : t.locate path = .ok b) :
    ∃ r, t.locate root = .ok r ∧ (chain ++ [b]).head? = some r := by
  induction h generalizing b with
  | root => exact ⟨b, hb, rfl⟩
  | step _ ha _ _ _ ih =>
    obtain ⟨r, hr, hh⟩ := ih ha
    exact ⟨r, hr, by rw [List.head?_append, hh]; rfl⟩

end Leads

namespace IsReadable

variable (h : IsReadable t root)
include h

theorem exists_place (hp : Leads t root chain path) :
    ∃ a m, t.locate path = .ok a ∧ Manifest.load t path = .ok m := by
  obtain ⟨m, hm⟩ := h.load chain path hp
  obtain ⟨a, _, _, ha, -⟩ := load_eq_ok hm
  exact ⟨a, m, ha, hm⟩

/-- What a place includes is included by the file that a chain leads to. -/
theorem exists_include (hp : Leads t root chain path) (ha : t.locate path = .ok a)
    (hc : a ∉ chain) (hm : Manifest.load t path = .ok m) (hab : Includes t root follows a b) :
    ∃ i ∈ m.includes, t.locate (includedPath path i) = .ok b := by
  obtain ⟨path', m', i, -, ha', hm', hi, -, hb⟩ := hab
  have hm'' := load_congr (ha'.trans ha.symm) hm'
  cases hm.symm.trans hm''
  obtain ⟨b', _, hb', -⟩ := h.exists_place (hp.step ha hc hm hi)
  cases locate_includedPath_congr h.rooted h.linkless (ha'.trans ha.symm) hm' hb hb'
  exact ⟨i, hi, hb'⟩

end IsReadable

/-! ## A criterion -/

/-- What a file includes, when it is not on the chain above it, is among some ways. -/
def leadsAmong (t : FileTree) (ways : List (List Address × String))
    (way : List Address × String) : Bool :=
  match t.locate way.2, Manifest.load t way.2 with
  | .ok a, .ok m => way.1.contains a ||
      m.includes.all fun i => ways.contains (way.1 ++ [a], includedPath way.2 i)
  | _, _ => false

theorem isReadable_of_leadsAmong (ways : List (List Address × String)) (ht : t.IsRooted)
    (hl : t.IsLinkless) (hr : ([], root) ∈ ways)
    (hs : ∀ way ∈ ways, leadsAmong t ways way = true) : IsReadable t root := by
  have hways : ∀ chain path, Leads t root chain path → (chain, path) ∈ ways := by
    intro chain path hp
    induction hp with
    | root => exact hr
    | step _ ha hc hm hi ih =>
      have h := hs _ ih
      simp only [leadsAmong, ha, hm, Bool.or_eq_true, List.contains_iff_mem, hc, false_or,
        List.all_eq_true] at h
      exact h _ hi
  refine ⟨ht, hl, fun chain path hp => ?_⟩
  have h := hs _ (hways chain path hp)
  unfold leadsAmong at h
  split at h
  · rename_i m _ hm
    exact ⟨m, hm⟩
  · cases h

end PinFile.Load
