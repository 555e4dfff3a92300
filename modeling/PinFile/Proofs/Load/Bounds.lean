import PinFile.Proofs.Load.Visit

/-!
# How far a walk goes

`Visits t chain calls w w' depth` is the walk with nothing that bounds it: visits one inside the
other, as deep as it takes. From any root there is exactly one way to visit it, and it is the walk
(`walk_bounded`), with whatever links and cycles the tree has. The files on a chain differ and are
loaded, so there are never more visits under way than files that are loaded, and one. A file is
read once at most, and its inclusions are followed when it is read and when it is upgraded
(`IsHistory`).
-/

namespace PinFile.Load

variable {t : FileTree} {root path : String} {m : Manifest} {a b : Address} {depth d d' : Nat}
  {chain : List Address} {kind : IncludeKind} {w w' w₁ w₂ : Walk} {l : Loaded}
  {includes : List Include}

/-- A kind and a path to visit. -/
abbrev Call := IncludeKind × String

variable {call : Call} {calls : List Call}

/-- The visits to what a file includes. -/
def callsOf (kind : IncludeKind) (path : String) (includes : List Include) : List Call :=
  includes.map fun i => (childKind kind i.kind, includedPath path i)

/-- Visits along a chain, one after another, and how many are under way at once. A fault ends
them. -/
inductive Visits (t : FileTree) : List Address → List Call → Walk → Walk → Nat → Prop where
  | nil {chain : List Address} {w : Walk} : Visits t chain [] w w 0
  | ended {chain : List Address} {call : Call} {calls : List Call} {w : Walk} :
      w.failure ≠ none → Visits t chain (call :: calls) w w 0
  | missing {chain : List Address} {kind : IncludeKind} {path : String} {calls : List Call}
      {w : Walk} {fault : FileFault} : w.failure = none → t.locate path = .error fault →
      Visits t chain ((kind, path) :: calls) w (w.fail (.unreadable path fault)) 1
  | cycle {chain : List Address} {kind : IncludeKind} {path : String} {calls : List Call}
      {w : Walk} {a : Address} : w.failure = none → t.locate path = .ok a → a ∈ chain →
      Visits t chain ((kind, path) :: calls) w (w.fail (.cycle (chain ++ [a]))) 1
  | entered {chain : List Address} {kind : IncludeKind} {path : String} {calls : List Call}
      {w w₁ w₂ : Walk} {a : Address} {inner outer : Nat} :
      w.failure = none → t.locate path = .ok a → a ∉ chain →
      Visits t (chain ++ [a]) (callsOf kind path (enter t a kind path w).2)
        (enter t a kind path w).1 w₁ inner →
      Visits t chain calls w₁ w₂ outer →
      Visits t chain ((kind, path) :: calls) w w₂ (max (inner + 1) outer)

/-- After a fault nothing is visited. -/
theorem Visits.of_failure (h : Visits t chain calls w w' d) (hf : w.failure ≠ none) :
    w' = w ∧ d = 0 := by
  cases h with
  | nil | ended => exact ⟨rfl, rfl⟩
  | missing hn | cycle hn | entered hn => exact absurd hn hf

theorem Visits.cons (h : Visits t chain [call] w w₁ d) (h' : Visits t chain calls w₁ w₂ d') :
    ∃ depth, Visits t chain (call :: calls) w w₂ depth := by
  cases h with
  | ended hf =>
    obtain ⟨rfl, rfl⟩ := h'.of_failure hf
    exact ⟨0, .ended hf⟩
  | missing hn hl =>
    obtain ⟨rfl, rfl⟩ := h'.of_failure (by simp [Walk.fail])
    exact ⟨1, .missing hn hl⟩
  | cycle hn ha hc =>
    obtain ⟨rfl, rfl⟩ := h'.of_failure (by simp [Walk.fail])
    exact ⟨1, .cycle hn ha hc⟩
  | entered hn ha hc hi ho =>
    cases ho
    exact ⟨_, .entered hn ha hc hi h'⟩

/-- There is one way at most to visit. -/
theorem Visits.unique (h : Visits t chain calls w w₁ d) (h' : Visits t chain calls w w₂ d') :
    w₁ = w₂ ∧ d = d' := by
  induction h generalizing w₂ d' with
  | nil =>
    cases h'
    exact ⟨rfl, rfl⟩
  | ended hf =>
    obtain ⟨rfl, rfl⟩ := h'.of_failure hf
    exact ⟨rfl, rfl⟩
  | missing hn hl =>
    cases h' with
    | ended hf => exact absurd hn hf
    | missing _ hl' =>
      cases hl.symm.trans hl'
      exact ⟨rfl, rfl⟩
    | cycle _ ha | entered _ ha => cases hl.symm.trans ha
  | cycle hn ha hc =>
    cases h' with
    | ended hf => exact absurd hn hf
    | missing _ hl => cases ha.symm.trans hl
    | cycle _ ha' =>
      cases ha.symm.trans ha'
      exact ⟨rfl, rfl⟩
    | entered _ ha' hc' =>
      cases ha.symm.trans ha'
      exact absurd hc hc'
  | entered hn ha hc _ _ ihi iho =>
    cases h' with
    | ended hf => exact absurd hn hf
    | missing _ hl => cases ha.symm.trans hl
    | cycle _ ha' hc' =>
      cases ha.symm.trans ha'
      exact absurd hc' hc
    | entered _ ha' _ hi ho =>
      cases ha.symm.trans ha'
      obtain ⟨rfl, rfl⟩ := ihi hi
      obtain ⟨rfl, rfl⟩ := iho ho
      exact ⟨rfl, rfl⟩

/-! ## What is done with a file -/

/-- What has been done with the file at a place, but for passing it by. -/
def Walk.deeds (w : Walk) (a : Address) : List Deed :=
  (w.steps.filter fun s => s.place = a ∧ s.deed ≠ .skip).map Step.deed

/-- All that may be done with a file: it is read, and when it is accepted its inclusions are
followed; when it is upgraded, they are followed once more. -/
inductive IsHistory : List Deed → Prop where
  | unseen : IsHistory []
  | refused : IsHistory [.read]
  | opened (includes : Nat) : IsHistory [.read, .follow includes]
  | upgraded (includes : Nat) : IsHistory [.read, .follow includes, .upgrade, .follow includes]

namespace Walk

@[simp] theorem deeds_upgrade (w : Walk) (a b : Address) : (w.upgrade a).deeds b = w.deeds b := rfl

@[simp] theorem deeds_add (w : Walk) (l : Loaded) (b : Address) : (w.add l).deeds b = w.deeds b :=
  rfl

@[simp] theorem deeds_fail (w : Walk) (e : LoadError) (b : Address) :
    (w.fail e).deeds b = w.deeds b := rfl

@[simp] theorem deeds_skip (w : Walk) (a b : Address) (path : String) :
    (w.note a path .skip).deeds b = w.deeds b := by
  simp [deeds, note, List.filter_append]

theorem deeds_note_self {deed : Deed} (hd : deed ≠ .skip) (w : Walk) (a : Address)
    (path : String) : (w.note a path deed).deeds a = w.deeds a ++ [deed] := by
  simp [deeds, note, List.filter_append, hd]

theorem deeds_note_of_ne (hab : a ≠ b) (w : Walk) (path : String) (deed : Deed) :
    (w.note a path deed).deeds b = w.deeds b := by
  simp [deeds, note, List.filter_append, hab]

/-- What a loaded file has been through, with the kind that it has now. -/
def HasHistory (w : Walk) (l : Loaded) : Prop :=
  w.deeds l.place = [.read, .follow l.manifest.includes.length] ∨
    l.kind = .requirements ∧ w.deeds l.place =
      [.read, .follow l.manifest.includes.length, .upgrade, .follow l.manifest.includes.length]

theorem HasHistory.of_deeds_eq (h : w.HasHistory l) (hd : w'.deeds l.place = w.deeds l.place) :
    w'.HasHistory l := by
  unfold HasHistory
  rw [hd]
  exact h

theorem place_ne (ha : a ∉ w.places) (hl : l ∈ w.loaded) : a ≠ l.place := by
  rintro rfl
  exact ha (List.mem_map_of_mem hl)

/-- What is loaded are different files of the tree, each with its history. Any other place was left
alone, unless it was read and that ended the walk. -/
structure IsOrderly (t : FileTree) (w : Walk) : Prop where
  nodup : w.places.Nodup
  files : ∀ a ∈ w.places, ∃ content, t.node? a = some (.file content)
  opened : ∀ l ∈ w.loaded, w.HasHistory l
  unopened : ∀ a ∉ w.places, w.deeds a = [] ∨ w.failure ≠ none ∧ w.deeds a = [.read]

theorem isOrderly_empty (t : FileTree) : IsOrderly t empty :=
  ⟨List.nodup_nil, by simp [empty, places], by simp [empty], fun _ _ => .inl rfl⟩

namespace IsOrderly

theorem isHistory (h : w.IsOrderly t) (a : Address) : IsHistory (w.deeds a) := by
  by_cases ha : a ∈ w.places
  · obtain ⟨l, hl, rfl⟩ := List.mem_map.mp ha
    rcases h.opened l hl with hd | ⟨-, hd⟩
    · exact hd ▸ .opened _
    · exact hd ▸ .upgraded _
  · rcases h.unopened a ha with hd | ⟨-, hd⟩
    · exact hd ▸ .unseen
    · exact hd ▸ .refused

theorem subset_nodes (h : w.IsOrderly t) : w.places ⊆ t.nodes.map (·.1) := by
  intro a ha
  obtain ⟨content, hn⟩ := h.files a ha
  exact List.mem_map_of_mem (FileTree.mem_nodes_of_file hn)

theorem length_places_le (h : w.IsOrderly t) :
    w.places.length ≤ (t.files.map (·.1)).eraseDups.length := by
  refine h.nodup.length_le_of_subset fun a ha => List.mem_eraseDups.mpr ?_
  obtain ⟨content, hn⟩ := h.files a ha
  have hfile : (a, content) ∈ t.files :=
    List.mem_filterMap.mpr ⟨_, FileTree.mem_nodes_of_file hn, rfl⟩
  exact List.mem_map_of_mem hfile

theorem fail (h : w.IsOrderly t) (e : LoadError) : (w.fail e).IsOrderly t :=
  ⟨h.nodup, h.files, h.opened, fun a ha => (h.unopened a ha).imp_right fun hd => ⟨nofun, hd.2⟩⟩

end IsOrderly

end Walk

open Walk

/-- An entered file is loaded, or nothing is followed from it; no other file is added. -/
theorem places_enter (t : FileTree) (a : Address) (kind : IncludeKind) (path : String)
    (w : Walk) : w.places <+: (enter t a kind path w).1.places ∧
      (a ∈ (enter t a kind path w).1.places ∨ (enter t a kind path w).2 = []) := by
  rcases enter_outcomes t a kind path w with ⟨-, -, -, -, he⟩ | ⟨l, hl, hla, -, -, he⟩ |
    ⟨-, e, -, he⟩ | ⟨-, m, -, he⟩ <;> rw [he]
  · exact ⟨List.prefix_refl _, .inr rfl⟩
  · simpa using .inl (List.mem_map.mpr ⟨l, hl, hla⟩)
  · exact ⟨List.prefix_refl _, .inr rfl⟩
  · simp

namespace Walk.IsOrderly

theorem skip (h : w.IsOrderly t) (a : Address) (path : String) :
    (w.note a path .skip).IsOrderly t where
  nodup := h.nodup
  files := h.files
  opened l hl := (h.opened l hl).of_deeds_eq (deeds_skip w a l.place path)
  unopened b hb := by
    rw [deeds_skip]
    exact h.unopened b hb

theorem deeds_eq_nil (h : w.IsOrderly t) (hf : w.failure = none) (ha : a ∉ w.places) :
    w.deeds a = [] :=
  (h.unopened a ha).resolve_right fun hd => hd.1 hf

theorem upgrade (h : w.IsOrderly t) (hl : l ∈ w.loaded) (hk : l.kind = .constraints)
    (path : String) : (((w.note l.place path .upgrade).upgrade l.place).note l.place path
      (.follow l.manifest.includes.length)).IsOrderly t := by
  have hpast : w.deeds l.place = [.read, .follow l.manifest.includes.length] := by
    refine (h.opened l hl).resolve_right fun hr => ?_
    cases hk.symm.trans hr.1
  refine ⟨by simpa using h.nodup, by simpa using h.files, fun l' hl' => ?_, fun b hb => ?_⟩
  · obtain ⟨old, ho, rfl⟩ := List.mem_map.mp hl'
    by_cases hp : old.place = l.place
    · obtain rfl : old = l := List.inj_on_of_nodup_map h.nodup ho hl hp
      refine .inr ?_
      rw [if_pos (by simp)]
      refine ⟨rfl, ?_⟩
      dsimp only
      rw [deeds_note_self (by simp), deeds_upgrade, deeds_note_self (by simp), hpast]
      rfl
    · rw [if_neg (by simpa using hp)]
      refine (h.opened old ho).of_deeds_eq ?_
      rw [deeds_note_of_ne (Ne.symm hp), deeds_upgrade, deeds_note_of_ne (Ne.symm hp)]
  · have hb' : b ∉ w.places := by simpa using hb
    have hne : l.place ≠ b := (place_ne hb' hl).symm
    rw [deeds_note_of_ne hne, deeds_upgrade, deeds_note_of_ne hne]
    exact h.unopened b hb'

theorem refuse (h : w.IsOrderly t) (hf : w.failure = none) (ha : a ∉ w.places) (path : String)
    (e : LoadError) : ((w.note a path .read).fail e).IsOrderly t := by
  refine ⟨h.nodup, h.files, fun l hl => ?_, fun b hb => ?_⟩
  · refine (h.opened l hl).of_deeds_eq ?_
    rw [deeds_fail, deeds_note_of_ne (place_ne ha hl)]
  · by_cases hab : a = b
    · subst hab
      refine .inr ⟨nofun, ?_⟩
      rw [deeds_fail, deeds_note_self (by simp), h.deeds_eq_nil hf ha]
      rfl
    · left
      rw [deeds_fail, deeds_note_of_ne hab]
      exact h.deeds_eq_nil hf hb

theorem add (h : w.IsOrderly t) (hf : w.failure = none) (ha : a ∉ w.places)
    (hn : ∃ content, t.node? a = some (.file content)) (path : String) (kind : IncludeKind)
    (m : Manifest) : (((w.note a path .read).add ⟨a, path, kind, m⟩).note a path
      (.follow m.includes.length)).IsOrderly t := by
  refine ⟨?_, ?_, fun l hl => ?_, fun b hb => ?_⟩
  · simpa using nodup_append_singleton h.nodup ha
  · intro b hb
    rw [places_note, places_add, places_note] at hb
    rcases List.mem_append.mp hb with hb | hb
    · exact h.files b hb
    · exact List.mem_singleton.mp hb ▸ hn
  · rcases List.mem_append.mp hl with hl | hl
    · have hne : a ≠ l.place := place_ne ha hl
      refine (h.opened l hl).of_deeds_eq ?_
      rw [deeds_note_of_ne hne, deeds_add, deeds_note_of_ne hne]
    · rw [List.mem_singleton.mp hl]
      left
      dsimp only
      rw [deeds_note_self (by simp), deeds_add, deeds_note_self (by simp), h.deeds_eq_nil hf ha]
      rfl
  · have hb' : b ∉ w.places ∧ b ≠ a := by simpa using hb
    left
    rw [deeds_note_of_ne (Ne.symm hb'.2), deeds_add, deeds_note_of_ne (Ne.symm hb'.2)]
    exact h.deeds_eq_nil hf hb'.1

/-- A walk that enters a file stays in order. -/
theorem enter (h : w.IsOrderly t) (hf : w.failure = none) (ha : t.locate path = .ok a)
    (kind : IncludeKind) : (Load.enter t a kind path w).1.IsOrderly t := by
  rcases enter_outcomes t a kind path w with ⟨-, -, -, -, he⟩ | ⟨l, hl, rfl, hk, -, he⟩ |
    ⟨hn, e, -, he⟩ | ⟨hn, m, hm, he⟩ <;> rw [he]
  · exact h.skip a path
  · exact h.upgrade hl hk path
  · exact h.refuse hf hn path e
  · obtain ⟨b, content, _, hb, hfile, -⟩ := load_eq_ok hm
    cases ha.symm.trans hb
    exact h.add hf hn ⟨content, hfile⟩ path kind m

end Walk.IsOrderly

/-! ## Chains and depth -/

/-- A chain of different files that are loaded. -/
structure IsChainIn (chain : List Address) (w : Walk) : Prop where
  nodup : chain.Nodup
  loaded : chain ⊆ w.places

theorem IsChainIn.length_le (h : IsChainIn chain w) : chain.length ≤ w.places.length :=
  h.nodup.length_le_of_subset h.loaded

theorem IsChainIn.mono (h : IsChainIn chain w) (hp : w.places <+: w'.places) :
    IsChainIn chain w' :=
  ⟨h.nodup, fun _ ha => hp.subset (h.loaded ha)⟩

theorem IsChainIn.concat (h : IsChainIn chain w) (ha : a ∈ w.places) (hc : a ∉ chain) :
    IsChainIn (chain ++ [a]) w :=
  ⟨nodup_append_singleton h.nodup hc, List.append_subset.mpr ⟨h.loaded, by simpa using ha⟩⟩

/-- What visits along a chain come to: a walk in order that has as many files as the chain and
the visits are deep, but for one. -/
structure Ranges (t : FileTree) (chain : List Address) (w w' : Walk) (depth : Nat) : Prop where
  orderly : w'.IsOrderly t
  places : w.places <+: w'.places
  depth : chain.length + depth ≤ w'.places.length + 1

theorem Visits.ranges (hv : Visits t chain calls w w' d) (h : w.IsOrderly t)
    (hc : IsChainIn chain w) : Ranges t chain w w' d := by
  have hlength := hc.length_le
  induction hv with
  | nil | ended => exact ⟨h, List.prefix_refl _, by omega⟩
  | missing | cycle =>
    exact ⟨h.fail _, List.prefix_refl _, by simpa [Walk.fail, places] using hlength⟩
  | @entered chain kind path calls w w₁ w₂ a inner outer hf ha hn hi ho ihi iho =>
    obtain ⟨hkeeps, hopen⟩ := places_enter t a kind path w
    have hentered := h.enter hf ha kind
    -- A file that is refused is not loaded, but then nothing is visited from it.
    have hinner : w₁.IsOrderly t ∧ (Load.enter t a kind path w).1.places <+: w₁.places ∧
        chain.length + (inner + 1) ≤ w₁.places.length + 1 := by
      rcases hopen with hopen | hclosed
      · have hc' := (hc.mono hkeeps).concat hopen hn
        obtain ⟨h₁, hp, hd⟩ := ihi hentered hc' hc'.length_le
        rw [List.length_append, List.length_singleton] at hd
        exact ⟨h₁, hp, by omega⟩
      · rw [hclosed] at hi
        cases hi
        have := hkeeps.length_le
        exact ⟨hentered, List.prefix_refl _, by omega⟩
    obtain ⟨h₁, hp₁, hd₁⟩ := hinner
    have hc₁ := hc.mono (hkeeps.trans hp₁)
    obtain ⟨h₂, hp₂, hd₂⟩ := iho h₁ hc₁ hc₁.length_le
    have := hp₂.length_le
    exact ⟨h₂, (hkeeps.trans hp₁).trans hp₂, by omega⟩

/-! ## Walks -/

theorem exists_visits_foldl {visit : Include → Walk → Walk}
    (hv : ∀ i ∈ includes, ∀ w, w.IsOrderly t → IsChainIn chain w →
      ∃ d, Visits t chain [(childKind kind i.kind, includedPath path i)] w (visit i w) d)
    (h : w.IsOrderly t) (hc : IsChainIn chain w) :
    ∃ d, Visits t chain (callsOf kind path includes) w
      (includes.foldl (fun w i => visit i w) w) d := by
  induction includes generalizing w with
  | nil => exact ⟨0, .nil⟩
  | cons i includes ih =>
    obtain ⟨hi, hv⟩ := List.forall_mem_cons.mp hv
    obtain ⟨d, hfirst⟩ := hi w h hc
    have hr := hfirst.ranges h hc
    obtain ⟨d', hrest⟩ := ih hv hr.orderly (hc.mono hr.places)
    exact hfirst.cons hrest

/-- The depth that is left never runs out. -/
theorem exists_visits (hd : t.nodes.length < depth + chain.length) (h : w.IsOrderly t)
    (hc : IsChainIn chain w) :
    ∃ d, Visits t chain [(kind, path)] w (visit t depth chain kind path w) d := by
  induction depth generalizing chain kind path w with
  | zero =>
    have hn := hc.nodup.length_le_of_subset (List.Subset.trans hc.loaded h.subset_nodes)
    rw [List.length_map] at hn
    omega
  | succ depth ih =>
    by_cases hf : w.failure = none
    · cases ha : t.locate path with
      | error fault =>
        refine ⟨1, ?_⟩
        rw [visit, hf, if_neg (by simp), ha]
        exact .missing hf ha
      | ok a =>
        by_cases hm : a ∈ chain
        · rw [visit_of_mem hf ha hm]
          exact ⟨1, .cycle hf ha hm⟩
        · rw [visit_succ hf ha hm]
          obtain ⟨hkeeps, hopen⟩ := places_enter t a kind path w
          obtain ⟨d, hinner⟩ : ∃ d, Visits t (chain ++ [a])
              (callsOf kind path (enter t a kind path w).2) (enter t a kind path w).1
              ((enter t a kind path w).2.foldl (fun w i => visit t depth (chain ++ [a])
                (childKind kind i.kind) (includedPath path i) w) (enter t a kind path w).1) d := by
            rcases hopen with hopen | hclosed
            · have hdepth : t.nodes.length < depth + (chain ++ [a]).length := by
                rw [List.length_append, List.length_singleton]
                omega
              exact exists_visits_foldl (fun i _ w h hc => ih hdepth h hc) (h.enter hf ha kind)
                ((hc.mono hkeeps).concat hopen hm)
            · rw [hclosed]
              exact ⟨0, .nil⟩
          exact ⟨_, .entered hf ha hm hinner .nil⟩
    · rw [visit_of_failure hf]
      exact ⟨0, .ended hf⟩

/-- A root is visited in exactly one way, whatever links and cycles there are: as the walk. It
nests no deeper than there are loaded files, and one more, and each of them is a different file of
the tree. A file is read once at most, and its inclusions are followed once when it was read and
once when it was upgraded. -/
theorem walk_bounded (t : FileTree) (root : String) : ∃ depth,
    (∀ w d, Visits t [] [(.requirements, root)] .empty w d ↔ w = walk t root ∧ d = depth) ∧
    depth ≤ (walk t root).places.length + 1 ∧
    (walk t root).places.length ≤ (t.files.map (·.1)).eraseDups.length ∧
    (∀ a, IsHistory ((walk t root).deeds a)) ∧
    ∀ l ∈ (walk t root).loaded, (walk t root).HasHistory l := by
  have hempty := isOrderly_empty t
  have hchain : IsChainIn [] Walk.empty := ⟨List.nodup_nil, List.nil_subset _⟩
  obtain ⟨depth, hwalk⟩ : ∃ depth,
      Visits t [] [(.requirements, root)] .empty (walk t root) depth :=
    exists_visits (by simp) hempty hchain
  obtain ⟨horderly, -, hdepth⟩ := hwalk.ranges hempty hchain
  refine ⟨depth, fun w d => ⟨fun h => h.unique hwalk, ?_⟩, by simpa using hdepth,
    horderly.length_places_le, horderly.isHistory, horderly.opened⟩
  rintro ⟨rfl, rfl⟩
  exact hwalk

end PinFile.Load
