import PinFile.Proofs.Load.Chain
import PinFile.Proofs.Load.Visit

/-!
# Cycles of inclusions

A file is grounded when no endless chain of inclusions starts at it. While no cycle is found,
every file that is loaded and is not on the chain is grounded (`Walk.IsSettled`): the walk leaves a
file after all that it includes is grounded, so passing a loaded file by, or following its
inclusions again, cannot miss a cycle. And a file is on the chain again only when the chain has
come back to it. So a tree is refused for a cycle exactly when the files behind the root have one
(`tree_cycle_iff`).
-/

namespace PinFile.Load

open Text

variable {t : FileTree} {root path : String} {m : Manifest} {a b : Address} {depth : Nat}
  {chain : List Address} {kind : IncludeKind} {w : Walk}

/-- No endless chain of inclusions starts at the place. -/
def Grounded (t : FileTree) (root : String) (a : Address) : Prop :=
  Acc (fun b a => Includes t root (fun _ => True) a b) a

namespace Grounded

theorem not_transGen (h : Grounded t root a) :
    ¬ Relation.TransGen (Includes t root fun _ => True) a a := by
  induction h with
  | intro a _ ih =>
    intro hcycle
    obtain ⟨b, hab, hba⟩ := Relation.TransGen.head'_iff.mp hcycle
    exact ih b hab (.tail' hba hab)

theorem of_reflTransGen (h : Grounded t root a)
    (hab : Relation.ReflTransGen (Includes t root fun _ => True) a b) : Grounded t root b := by
  induction hab with
  | refl => exact h
  | tail _ hbc ih => exact ih.inv hbc

end Grounded

/-- A chain of inclusions from the root on that comes back to one of its files, and to none
before. -/
structure IsCycle (t : FileTree) (root : String) (chain : List Address) : Prop where
  starts : ∃ r, t.locate root = .ok r ∧ chain.head? = some r
  linked : chain.IsChain (Includes t root fun _ => True)
  closes : ∃ way last, chain = way ++ [last] ∧ way.Nodup ∧ last ∈ way

theorem IsCycle.exists_transGen (h : IsCycle t root chain) :
    ∃ a, Relation.TransGen (Includes t root fun _ => True) a a := by
  obtain ⟨way, last, rfl, -, hm⟩ := h.closes
  have hp := (h.linked.imp fun _ _ => Relation.TransGen.single).pairwise
  exact ⟨last, (List.pairwise_append.mp hp).2.2 last hm last (List.mem_singleton.mpr rfl)⟩

theorem Leads.isCycle (h : Leads t root chain path) (ha : t.locate path = .ok a)
    (hc : a ∈ chain) : IsCycle t root (chain ++ [a]) :=
  ⟨h.exists_head? ha, h.isChain ha, chain, a, rfl, h.nodup, hc⟩

/-- What is behind the root is reached from its place. -/
theorem reflTransGen_of_reachable {r : Address} (hr : t.locate root = .ok r)
    (hp : Reachable t root path) (ha : t.locate path = .ok a) :
    Relation.ReflTransGen (Includes t root fun _ => True) r a := by
  induction hp generalizing a with
  | root =>
    cases hr.symm.trans ha
    exact .refl
  | step hp hm hi hk ih =>
    obtain ⟨b, _, _, hb, -⟩ := load_eq_ok hm
    exact (ih hb).tail ⟨_, _, _, hp, hb, hm, hi, hk, ha⟩

/-! ## Settled walks -/

namespace Walk

/-- Nothing has failed, and no cycle goes through what is loaded and is not on the chain. -/
structure IsSettled (t : FileTree) (root : String) (chain : List Address) (w : Walk) : Prop where
  failure : w.failure = none
  loaded : IsFaithful t root w
  grounded : ∀ a ∈ w.places, a ∉ chain → Grounded t root a

/-- What visits to some paths come to: the walk is settled and the paths are grounded, or a cycle
was found. -/
inductive Outcome (t : FileTree) (root : String) (chain : List Address) (paths : List String)
    (w : Walk) : Prop where
  | settled : IsSettled t root chain w →
      (∀ path ∈ paths, ∀ a, t.locate path = .ok a → Grounded t root a) →
      Outcome t root chain paths w
  | cycle (found : List Address) : w.failure = some (.cycle found) → IsCycle t root found →
      Outcome t root chain paths w

theorem isSettled_empty (t : FileTree) (root : String) : IsSettled t root [] empty :=
  ⟨rfl, by simp [empty, IsFaithful], by simp [empty, Walk.places]⟩

theorem IsSettled.note (h : IsSettled t root chain w) (a : Address) (path : String)
    (deed : Deed) : IsSettled t root chain (w.note a path deed) :=
  ⟨h.failure, h.loaded, h.grounded⟩

theorem IsSettled.upgrade (h : IsSettled t root chain w) (a : Address) :
    IsSettled t root (chain ++ [a]) (w.upgrade a) where
  failure := h.failure
  loaded := h.loaded.upgrade a
  grounded b hb hc := by
    rw [places_upgrade] at hb
    exact h.grounded b hb fun hm => hc (List.mem_append_left _ hm)

theorem IsSettled.add (h : IsSettled t root chain w) (hp : Reachable t root path)
    (ha : t.locate path = .ok a) (hm : Manifest.load t path = .ok m) :
    IsSettled t root (chain ++ [a]) (w.add ⟨a, path, kind, m⟩) where
  failure := h.failure
  loaded := h.loaded.add hp ha hm
  grounded b hb hc := by
    rw [places_add] at hb
    rcases List.mem_append.mp hb with hb | hb
    · exact h.grounded b hb fun hm => hc (List.mem_append_left _ hm)
    · exact absurd (List.mem_append_right _ hb) hc

/-- A file that is loaded is passed by, or its inclusions are followed with it on the chain. -/
theorem IsSettled.enter (kind : IncludeKind) (h : IsSettled t root chain w)
    (hp : Reachable t root path) (ha : t.locate path = .ok a)
    (hm : Manifest.load t path = .ok m) :
    (a ∈ w.places ∧ enter t a kind path w = (w.note a path .skip, [])) ∨
    ∃ w', IsSettled t root (chain ++ [a]) w' ∧ enter t a kind path w = (w', m.includes) := by
  rcases enter_cases kind h.loaded ha hm with ⟨hold, -, he⟩ | ⟨-, -, he⟩ | ⟨-, he⟩
  · exact .inl ⟨hold, he⟩
  · exact .inr ⟨_, ((h.note a path .upgrade).upgrade a).note _ _ _, he⟩
  · exact .inr ⟨_, ((h.note a path .read).add hp ha hm).note _ _ _, he⟩

/-- A file leaves the chain when all that it includes is grounded. -/
theorem Outcome.leave {w' : Walk} (hl : IsReadable t root) (hp : Leads t root chain path)
    (ha : t.locate path = .ok a) (hc : a ∉ chain) (hm : Manifest.load t path = .ok m)
    (h : Outcome t root (chain ++ [a]) (m.includes.map (includedPath path)) w') :
    Outcome t root chain [path] w' := by
  cases h with
  | cycle found hf hcycle => exact .cycle found hf hcycle
  | settled hs hall =>
    have hg : Grounded t root a := .intro a fun b hab => by
      obtain ⟨i, hi, hb⟩ := hl.exists_include hp ha hc hm hab
      exact hall _ (List.mem_map_of_mem hi) b hb
    refine .settled ⟨hs.failure, hs.loaded, fun b hb hbc => ?_⟩ fun p hmem b hb => ?_
    · by_cases hba : b = a
      · exact hba ▸ hg
      · refine hs.grounded b hb fun hm => ?_
        exact (List.mem_append.mp hm).elim hbc fun hm => hba (List.mem_singleton.mp hm)
    · rw [List.mem_singleton.mp hmem] at hb
      cases ha.symm.trans hb
      exact hg

end Walk

/-! ## Visits -/

open Walk

section Fold

variable {includes : List Include} {visit : Include → Walk → Walk}
  (hf : ∀ i ∈ includes, ∀ w, w.failure ≠ none → visit i w = w)
include hf

theorem foldl_of_failure (h : w.failure ≠ none) :
    includes.foldl (fun w i => visit i w) w = w := by
  induction includes with
  | nil => rfl
  | cons i includes ih =>
    obtain ⟨hi, hf⟩ := List.forall_mem_cons.mp hf
    rw [List.foldl_cons, hi w h, ih hf]

/-- A cycle that is found ends all visits after it. -/
theorem outcome_foldl (hv : ∀ i ∈ includes, ∀ w, IsSettled t root chain w →
      Outcome t root chain [includedPath path i] (visit i w))
    (h : IsSettled t root chain w) : Outcome t root chain (includes.map (includedPath path))
      (includes.foldl (fun w i => visit i w) w) := by
  induction includes generalizing w with
  | nil => exact .settled h (by simp)
  | cons i includes ih =>
    obtain ⟨hi, hv⟩ := List.forall_mem_cons.mp hv
    have hf := (List.forall_mem_cons.mp hf).2
    rw [List.foldl_cons]
    cases hi w h with
    | cycle found hfail hcycle =>
      rw [foldl_of_failure hf (by simp [hfail])]
      exact .cycle found hfail hcycle
    | settled hs hg =>
      cases ih hf hv hs with
      | cycle found hfail hcycle => exact .cycle found hfail hcycle
      | settled hs' hg' =>
        exact .settled hs' (List.forall_mem_cons.mpr ⟨hg _ (List.mem_singleton.mpr rfl), hg'⟩)

end Fold

/-- A visit finds a cycle or leaves the path grounded. -/
theorem visit_outcome (hl : IsReadable t root) (hp : Leads t root chain path)
    (hd : depth + chain.length = t.nodes.length + 1) (h : IsSettled t root chain w) :
    Outcome t root chain [path] (visit t depth chain kind path w) := by
  induction depth generalizing chain path kind w with
  | zero =>
    have := hp.length_le
    omega
  | succ depth ih =>
    obtain ⟨a, m, ha, hm⟩ := hl.exists_place hp
    by_cases hc : a ∈ chain
    · rw [visit_of_mem h.failure ha hc]
      exact .cycle (chain ++ [a]) rfl (hp.isCycle ha hc)
    · rw [visit_succ h.failure ha hc]
      rcases h.enter kind hp.reachable ha hm with ⟨hw, he⟩ | ⟨w', hs, he⟩
      · rw [he]
        refine .settled (h.note a path .skip) fun p hmem b hb => ?_
        rw [List.mem_singleton.mp hmem] at hb
        cases ha.symm.trans hb
        exact h.grounded a hw hc
      · rw [he]
        have hd' : depth + (chain ++ [a]).length = t.nodes.length + 1 := by
          rw [List.length_append, List.length_singleton]
          omega
        have hstep := fun i (hi : i ∈ m.includes) => hp.step ha hc hm hi
        refine Outcome.leave hl hp ha hc hm
          (outcome_foldl (fun i hi w hf => ?_) (fun i hi w hw => ih (hstep i hi) hd' hw) hs)
        obtain ⟨depth, rfl⟩ : ∃ d, depth = d + 1 := by
          have := (hstep i hi).length_le
          exact ⟨depth - 1, by omega⟩
        exact visit_of_failure hf

/-! ## Trees -/

/-- A tree is refused for a cycle exactly when the inclusions behind the root have one, and what
is reported is one. -/
theorem tree_cycle_iff (hl : IsReadable t root) :
    ((∃ chain, tree t root = .error (.cycle chain)) ↔
      ∃ a, Relation.TransGen (Includes t root fun _ => True) a a) ∧
    ∀ chain, tree t root = .error (.cycle chain) → IsCycle t root chain := by
  have hvisit : Outcome t root [] [root] (walk t root) :=
    visit_outcome hl .root (by simp) (isSettled_empty t root)
  unfold tree
  cases hvisit with
  | cycle found hf hcycle =>
    simp only [hf]
    refine ⟨⟨fun _ => hcycle.exists_transGen, fun _ => ⟨found, rfl⟩⟩, fun chain hc => ?_⟩
    cases hc
    exact hcycle
  | settled hs hg =>
    obtain ⟨r, _, hr, -⟩ := hl.exists_place .root
    have hroot : Grounded t root r := hg root (List.mem_singleton.mpr rfl) r hr
    simp only [hs.failure]
    refine ⟨⟨nofun, fun ⟨a, ha⟩ => ?_⟩, nofun⟩
    obtain ⟨_, ⟨path, _, _, hp, hpa, -⟩, -⟩ := Relation.TransGen.head'_iff.mp ha
    exact absurd ha (hroot.of_reflTransGen (reflTransGen_of_reachable hr hp hpa)).not_transGen

/-- A file that constrains itself with one in a directory, which requires it in turn. -/
def loopedTree : FileTree where
  nodes := [(["r"], .file (utf8 "-c d/a\n")), (["d"], .directory),
    (["d", "a"], .file (utf8 "x==1\n-r ../r\n"))]
  home := []

theorem isReadable_loopedTree : IsReadable loopedTree "r" := by
  refine isReadable_of_leadsAmong [([], "r"), ([["r"]], "d/a"),
    ([["r"], ["d", "a"]], "d/../r")] ?_ ?_ ?_ ?_ <;> decide +kernel

theorem tree_cycle_looped : IsReadable loopedTree "r" ∧
    tree loopedTree "r" = .error (.cycle [["r"], ["d", "a"], ["r"]]) ∧
    (∃ a, Relation.TransGen (Includes loopedTree "r" fun _ => True) a a) ∧
    IsCycle loopedTree "r" [["r"], ["d", "a"], ["r"]] := by
  have htree : tree loopedTree "r" = .error (.cycle [["r"], ["d", "a"], ["r"]]) := by
    decide +kernel
  obtain ⟨hiff, hcycle⟩ := tree_cycle_iff isReadable_loopedTree
  exact ⟨isReadable_loopedTree, htree, hiff.mp ⟨_, htree⟩, hcycle _ htree⟩

end PinFile.Load
