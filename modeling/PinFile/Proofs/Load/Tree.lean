import PinFile.Proofs.Load.Visit

/-!
# Loading a tree of files

A root all of whose files can be read is loaded with every file that it reaches, once each, in the
order in which a depth-first walk finds them. A file counts as requirements exactly when
inclusions of requirements alone lead to it (`tree_spec`).
-/

namespace PinFile.Load

open Text Walk

variable {t : FileTree} {root path : String} {a : Address} {w : Walk}

theorem mem_places_of_reachable (hl : IsLoadable t root) (h : IsClosed t root [] w)
    (hr : ∀ a, t.locate root = .ok a → a ∈ w.places) (hp : Reachable t root path)
    (ha : t.locate path = .ok a) : a ∈ w.places := by
  induction hp generalizing a with
  | root => exact hr a ha
  | step hp hm hi hk ih =>
    obtain ⟨b, _, _, hb, -⟩ := hl.exists_place hp
    exact h.places b (ih hb) (by simp) a ⟨_, _, _, hp, hb, hm, hi, hk, ha⟩

theorem mem_required_of_required (hl : IsLoadable t root) (h : IsClosed t root [] w)
    (hr : ∀ a, t.locate root = .ok a → a ∈ w.required) (hp : Required t root path)
    (ha : t.locate path = .ok a) : a ∈ w.required := by
  induction hp generalizing a with
  | root => exact hr a ha
  | step hp hm hi hk ih =>
    obtain ⟨b, _, _, hb, -⟩ := hl.exists_place hp.reachable
    exact h.required b (ih hb) (by simp) a ⟨_, _, _, hp.reachable, hb, hm, hi, hk, ha⟩

theorem mem_required_iff (h : w.places.Nodup) {l : Loaded} (hl : l ∈ w.loaded) :
    l.place ∈ w.required ↔ l.kind = .requirements := by
  constructor
  · intro hm
    obtain ⟨l', hl', he⟩ := List.mem_map.mp hm
    obtain ⟨hl', hk⟩ := List.mem_filter.mp hl'
    rw [← List.inj_on_of_nodup_map h hl' hl he]
    simpa using hk
  · exact fun hk => List.mem_map.mpr ⟨l, List.mem_filter.mpr ⟨hl, by simpa using hk⟩, rfl⟩

/-! ## A criterion -/

/-- The inclusions of a file stay among some paths, and the places get smaller. -/
def staysBelow (t : FileTree) (paths : List String) (rank : Address → Nat) (path : String) : Bool :=
  match Manifest.load t path, t.locate path with
  | .ok m, .ok a => m.includes.all fun i => paths.contains (includedPath path i) &&
      match t.locate (includedPath path i) with
      | .ok b => rank b < rank a
      | .error _ => false
  | _, _ => false

theorem isLoadable_of_staysBelow (paths : List String) (rank : Address → Nat) (ht : t.IsRooted)
    (hl : t.IsLinkless) (hr : root ∈ paths)
    (hs : ∀ path ∈ paths, staysBelow t paths rank path = true) : IsLoadable t root := by
  have hstep : ∀ {path a m i}, path ∈ paths → t.locate path = .ok a →
      Manifest.load t path = .ok m → i ∈ m.includes → includedPath path i ∈ paths ∧
        ∀ b, t.locate (includedPath path i) = .ok b → rank b < rank a := by
    intro path a m i hp ha hm hi
    have h := hs path hp
    unfold staysBelow at h
    rw [hm, ha] at h
    obtain ⟨hmem, hrank⟩ := Bool.and_eq_true_iff.mp (List.all_eq_true.mp h i hi)
    refine ⟨by simpa using hmem, fun b hb => ?_⟩
    rw [hb] at hrank
    simpa using hrank
  have hpaths : ∀ path, Reachable t root path → path ∈ paths := by
    intro path hp
    induction hp with
    | root => exact hr
    | step _ hm hi _ ih =>
      obtain ⟨a, _, _, ha, -⟩ := load_eq_ok hm
      exact (hstep ih ha hm hi).1
  have hrank : ∀ a b, Relation.TransGen (Includes t root fun _ => True) a b → rank b < rank a := by
    intro a b hab
    induction hab with
    | single h =>
      obtain ⟨path, m, i, hp, ha, hm, hi, -, hb⟩ := h
      exact (hstep (hpaths path hp) ha hm hi).2 _ hb
    | tail _ h ih =>
      obtain ⟨path, m, i, hp, ha, hm, hi, -, hb⟩ := h
      exact ((hstep (hpaths path hp) ha hm hi).2 _ hb).trans ih
  refine ⟨ht, hl, fun path hp => ?_, fun a h => absurd (hrank a a h) (Nat.lt_irrefl _)⟩
  have h := hs path (hpaths path hp)
  unfold staysBelow at h
  split at h
  · rename_i m _ hm _
    exact ⟨m, hm⟩
  · cases h

/-! ## Trees -/

/-- A loadable root is loaded: every reachable file once and no other, in the order of a
depth-first walk from the root; requirements are what inclusions of requirements alone reach. -/
theorem tree_spec (hl : IsLoadable t root) : ∃ (loaded : List Loaded) (order : List Address),
    tree t root = .ok (loaded.map Loaded.source) ∧
    DepthFirst t [root] order ∧ loaded.map Loaded.place = order.eraseDups ∧
    (loaded.map Loaded.place).Nodup ∧
    (∀ a, a ∈ loaded.map Loaded.place ↔ ∃ path, Reachable t root path ∧ t.locate path = .ok a) ∧
    ∀ l ∈ loaded, t.locate l.path = .ok l.place ∧ Manifest.load t l.path = .ok l.manifest ∧
      (l.kind = .requirements ↔ ∃ path, Required t root path ∧ t.locate path = .ok l.place) := by
  have hway := OnWay.start t root
  obtain ⟨order, horder⟩ := DepthFirst.exists_of_onWay hl hway
  obtain ⟨hclosed, hgain, harrives⟩ :=
    visit_spec hl hway .requirements .empty (isClosed_empty t root) fun _ => .root
  have hplaces : (walk t root).places = order.eraseDups := hgain.places order horder
  have hroot : ∀ a, t.locate root = .ok a → a ∈ (walk t root).places := by
    intro a ha
    rw [hplaces, List.mem_eraseDups]
    exact horder.mem_of_mem (List.mem_singleton.mpr rfl) ha
  refine ⟨(walk t root).loaded, order, ?_, horder, hplaces, hclosed.nodup,
    fun a => ⟨fun h => ?_, ?_⟩, fun l h => ?_⟩
  · have hf : (walk t root).failure = none := hclosed.failure
    rw [tree, hf]
  · obtain ⟨l, hm, rfl⟩ := List.mem_map.mp h
    obtain ⟨hp, ha, -⟩ := hclosed.loaded l hm
    exact ⟨l.path, hp, ha⟩
  · rintro ⟨path, hp, ha⟩
    exact mem_places_of_reachable hl hclosed hroot hp ha
  · obtain ⟨-, ha, hm⟩ := hclosed.loaded l h
    refine ⟨ha, hm, ?_⟩
    rw [← mem_required_iff hclosed.nodup h]
    refine ⟨hclosed.sound l.place, ?_⟩
    rintro ⟨path, hp, hpa⟩
    exact mem_required_of_required hl hclosed (harrives rfl) hp hpa

/-- A root that meets `c` as constraints first and then requires it through `a`. -/
def upgradeTree : FileTree where
  nodes := [(["r"], .file (utf8 "-c c\n-r a\n")), (["a"], .file (utf8 "-r c\n")),
    (["c"], .file (utf8 "x==1\n"))]
  home := []

theorem tree_upgrades : ∃ loaded : List Loaded,
    tree upgradeTree "r" = .ok (loaded.map Loaded.source) ∧
    ∃ l ∈ loaded, l.place = ["c"] ∧ l.kind = .requirements := by
  have hl : IsLoadable upgradeTree "r" := by
    refine isLoadable_of_staysBelow ["r", "a", "c"]
      (fun a => if a = ["r"] then 2 else if a = ["a"] then 1 else 0) ?_ ?_ ?_ ?_ <;> decide +kernel
  obtain ⟨loaded, order, htree, -, -, -, hreach, hkind⟩ := tree_spec hl
  have hr : Manifest.load upgradeTree "r" = .ok ⟨[⟨1, .includeFile ⟨.constraints, "c"⟩, none⟩,
      ⟨2, .includeFile ⟨.requirements, "a"⟩, none⟩]⟩ := by
    decide +kernel
  have ha : Manifest.load upgradeTree "a" =
      .ok ⟨[⟨1, .includeFile ⟨.requirements, "c"⟩, none⟩]⟩ := by
    decide +kernel
  have hc : upgradeTree.locate "c" = .ok ["c"] := by decide +kernel
  have hra : Required upgradeTree "r" (includedPath "r" ⟨.requirements, "a"⟩) :=
    .step .root hr (by decide) rfl
  have hrc : Required upgradeTree "r" (includedPath "a" ⟨.requirements, "c"⟩) :=
    .step hra ha (by decide) rfl
  obtain ⟨l, hm, hlc⟩ := List.mem_map.mp ((hreach ["c"]).mpr ⟨"c", hrc.reachable, hc⟩)
  exact ⟨loaded, htree, l, hm, hlc, (hkind l hm).2.2.mpr ⟨"c", hrc, hlc ▸ hc⟩⟩

end PinFile.Load
