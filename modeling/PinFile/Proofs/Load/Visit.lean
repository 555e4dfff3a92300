import PinFile.Proofs.Load.Way

/-!
# Visiting files

What a walk has loaded stays closed under inclusion, apart from the files on the chain
(`Walk.IsClosed`): the files that a loaded file includes are loaded, and those that requirements
require are requirements. So a file that is passed by has nothing left to find, and one that is
upgraded passes that on. A visit keeps this up and adds the places behind the path that are new
(`visit_spec`).
-/

namespace PinFile.Load

open Text

variable {t : FileTree} {root path : String} {m : Manifest} {i : Include} {a b : Address}
  {depth : Nat} {chain : List Address} {kind : IncludeKind} {w w' : Walk}

namespace Walk

def places (w : Walk) : List Address := w.loaded.map Loaded.place

/-- The places of the files that count as requirements. -/
def required (w : Walk) : List Address :=
  (w.loaded.filter (·.kind = .requirements)).map Loaded.place

@[simp] theorem places_note (w : Walk) (a : Address) (path : String) (deed : Deed) :
    (w.note a path deed).places = w.places := rfl

@[simp] theorem required_note (w : Walk) (a : Address) (path : String) (deed : Deed) :
    (w.note a path deed).required = w.required := rfl

@[simp] theorem places_add (w : Walk) (l : Loaded) : (w.add l).places = w.places ++ [l.place] :=
  List.map_append

theorem mem_required_add {l : Loaded} : a ∈ (w.add l).required ↔
    a ∈ w.required ∨ l.kind = .requirements ∧ l.place = a := by
  simp only [required, add, List.filter_append, List.map_append, List.mem_append]
  apply or_congr Iff.rfl
  by_cases hk : l.kind = .requirements
  · simp [hk, eq_comm]
  · simp [hk]

@[simp] theorem places_upgrade (w : Walk) (a : Address) : (w.upgrade a).places = w.places := by
  unfold places upgrade
  rw [List.map_map]
  apply List.map_congr_left
  intro l _
  rw [Function.comp_apply]
  split <;> rfl

theorem mem_required_upgrade : b ∈ (w.upgrade a).required ↔
    b ∈ w.required ∨ b = a ∧ a ∈ w.places := by
  simp only [required, upgrade, places, List.mem_map, List.mem_filter]
  constructor
  · rintro ⟨_, ⟨⟨l, hl, rfl⟩, hk⟩, rfl⟩
    by_cases hp : l.place = a
    · refine .inr ⟨?_, l, hl, hp⟩
      rw [if_pos (by simpa using hp), hp]
    · rw [if_neg (by simpa using hp)] at hk ⊢
      exact .inl ⟨l, ⟨hl, hk⟩, rfl⟩
  · rintro (⟨l, ⟨hl, hk⟩, rfl⟩ | ⟨rfl, l, hl, rfl⟩)
    · refine ⟨_, ⟨⟨l, hl, rfl⟩, ?_⟩, ?_⟩
      · split
        · rfl
        · exact hk
      · split <;> rfl
    · exact ⟨_, ⟨⟨l, hl, rfl⟩, by simp⟩, by simp⟩

theorem required_subset (w : Walk) : w.required ⊆ w.places :=
  List.map_subset _ List.filter_sublist.subset

theorem mem_places_of_find? {l : Loaded} (h : w.find? a = some l) : l ∈ w.loaded ∧ l.place = a :=
  ⟨List.mem_of_find?_eq_some h, by simpa using List.find?_some h⟩

theorem not_mem_places_of_find? (h : w.find? a = none) : a ∉ w.places := by
  intro hm
  obtain ⟨l, hl, rfl⟩ := List.mem_map.mp hm
  exact List.find?_eq_none.mp h l hl (by simp)

/-- What is loaded lies behind the root, at the places and with the manifests that are kept. -/
def IsFaithful (t : FileTree) (root : String) (w : Walk) : Prop :=
  ∀ l ∈ w.loaded, Reachable t root l.path ∧ t.locate l.path = .ok l.place ∧
    Manifest.load t l.path = .ok l.manifest

theorem IsFaithful.upgrade (h : IsFaithful t root w) (a : Address) :
    IsFaithful t root (w.upgrade a) := by
  intro l hl
  obtain ⟨old, ho, rfl⟩ := List.mem_map.mp hl
  split <;> exact h old ho

theorem IsFaithful.add (h : IsFaithful t root w) (hp : Reachable t root path)
    (ha : t.locate path = .ok a) (hm : Manifest.load t path = .ok m) :
    IsFaithful t root (w.add ⟨a, path, kind, m⟩) := by
  intro l hl
  rcases List.mem_append.mp hl with hl | hl
  · exact h l hl
  · rw [List.mem_singleton.mp hl]
    exact ⟨hp, ha, hm⟩

/-- What is loaded is closed under inclusion, apart from the files on the chain. -/
structure IsClosed (t : FileTree) (root : String) (chain : List Address) (w : Walk) : Prop where
  failure : w.failure = none
  nodup : w.places.Nodup
  loaded : ∀ l ∈ w.loaded, Reachable t root l.path ∧ t.locate l.path = .ok l.place ∧
    Manifest.load t l.path = .ok l.manifest
  places : ∀ a ∈ w.places, a ∉ chain → ∀ b, Includes t root (fun _ => True) a b → b ∈ w.places
  required : ∀ a ∈ w.required, a ∉ chain → ∀ b, Includes t root (· = .requirements) a b →
    b ∈ w.required
  sound : ∀ a ∈ w.required, ∃ path, Required t root path ∧ t.locate path = .ok a

/-- What a walk has gained after it came to some paths, along a chain that it left alone. -/
structure Extends (t : FileTree) (chain : List Address) (paths : List String) (w w' : Walk) :
    Prop where
  places : ∀ places, DepthFirst t paths places → w'.places = (w.places ++ places).eraseDups
  required : w.required ⊆ w'.required
  chain : ∀ a ∈ chain, a ∈ w'.required → a ∈ w.required

theorem isClosed_empty (t : FileTree) (root : String) : IsClosed t root [] empty :=
  ⟨rfl, List.nodup_nil, by simp [empty], by simp [empty, Walk.places],
    by simp [empty, Walk.required], by simp [empty, Walk.required]⟩

theorem IsClosed.note (h : IsClosed t root chain w) (a : Address) (path : String) (deed : Deed) :
    IsClosed t root chain (w.note a path deed) :=
  ⟨h.failure, h.nodup, h.loaded, h.places, h.required, h.sound⟩

theorem Extends.refl (h : w.places.Nodup) : Extends t chain [] w w where
  places places hp := by
    cases hp
    rw [List.append_nil, eraseDups_of_nodup h]
  required := List.Subset.refl _
  chain _ _ := id

theorem Extends.trans {w₁ : Walk} {paths : List String} (h : Extends t chain [path] w w₁)
    (h' : Extends t chain paths w₁ w') : Extends t chain (path :: paths) w w' where
  places places hp := by
    obtain ⟨first, rest, rfl, hf, hr⟩ := hp.exists_cons
    rw [h'.places rest hr, h.places first hf, eraseDups_eraseDups_append, List.append_assoc]
  required _ hb := h'.required (h.required hb)
  chain a ha hm := h.chain a ha (h'.chain a ha hm)

/-- Behind a loaded file that is under the chain there is nothing left to find. -/
theorem IsClosed.subset_of_depthFirst {paths : List String} {places : List Address}
    (hl : IsLoadable t root) (h : IsClosed t root chain w) (hd : DepthFirst t paths places)
    (hp : ∀ path ∈ paths, Reachable t root path ∧ ∀ a, t.locate path = .ok a → a ∈ w.places ∧
      ∀ c ∈ chain, Relation.TransGen (Includes t root fun _ => True) c a) :
    places ⊆ w.places := by
  induction hd with
  | nil => exact List.nil_subset _
  | @cons path a m paths inner outer ha hm _ _ hinner houter =>
    obtain ⟨⟨hr, hat⟩, hp⟩ := List.forall_mem_cons.mp hp
    obtain ⟨hw, habove⟩ := hat a ha
    have hc : a ∉ chain := fun hc => hl.acyclic a (habove a hc)
    refine List.cons_subset.mpr ⟨hw, List.append_subset.mpr ⟨hinner fun _ hchild => ?_, houter hp⟩⟩
    obtain ⟨i, hi, rfl⟩ := List.mem_map.mp hchild
    refine ⟨hr.step hm hi trivial, fun b hb => ?_⟩
    have hab : Includes t root (fun _ => True) a b :=
      ⟨path, m, i, hr, ha, hm, hi, trivial, hb⟩
    exact ⟨h.places a hw hc b hab, fun c hc => (habove c hc).tail hab⟩

/-! ## Opening a file -/

/-- The walk after it has opened the file at a place. -/
structure Opens (t : FileTree) (root : String) (chain : List Address) (a : Address)
    (kind : IncludeKind) (w w' : Walk) : Prop where
  closed : IsClosed t root (chain ++ [a]) w'
  places : w'.places = (w.places ++ [a]).eraseDups
  required : ∀ b, b ∈ w'.required ↔ b ∈ w.required ∨ kind = .requirements ∧ b = a
  new : kind = .constraints → a ∉ w.places

theorem opens_upgrade (h : IsClosed t root chain w) (hw : a ∈ w.places)
    (hr : Required t root path) (ha : t.locate path = .ok a) :
    Opens t root chain a .requirements w (w.upgrade a) where
  closed :=
    { failure := h.failure
      nodup := by rw [places_upgrade]; exact h.nodup
      loaded := IsFaithful.upgrade h.loaded a
      places := by
        rw [places_upgrade]
        exact fun b hb hc => h.places b hb fun hm => hc (List.mem_append_left _ hm)
      required := by
        intro b hb hc d hd
        refine mem_required_upgrade.mpr (.inl (h.required b ?_ (fun hm => hc ?_) d hd))
        · exact (mem_required_upgrade.mp hb).resolve_right fun e =>
            hc (List.mem_append_right _ (List.mem_singleton.mpr e.1))
        · exact List.mem_append_left _ hm
      sound := by
        intro b hb
        rcases mem_required_upgrade.mp hb with hb | ⟨rfl, -⟩
        · exact h.sound b hb
        · exact ⟨path, hr, ha⟩ }
  places := by
    rw [places_upgrade, eraseDups_append_of_subset h.nodup (by simpa using hw)]
  required b := by simp [mem_required_upgrade, hw]
  new := nofun

theorem opens_add (h : IsClosed t root chain w) (hw : a ∉ w.places) (hp : Reachable t root path)
    (ha : t.locate path = .ok a) (hm : Manifest.load t path = .ok m)
    (hr : kind = .requirements → Required t root path) :
    Opens t root chain a kind w (w.add ⟨a, path, kind, m⟩) where
  closed :=
    { failure := h.failure
      nodup := by
        rw [places_add]
        exact nodup_append_singleton h.nodup hw
      loaded := IsFaithful.add h.loaded hp ha hm
      places := by
        intro b hb hc d hd
        rw [places_add] at hb ⊢
        rcases List.mem_append.mp hb with hb | hb
        · exact List.mem_append_left _
            (h.places b hb (fun hm => hc (List.mem_append_left _ hm)) d hd)
        · exact absurd (List.mem_append_right _ hb) hc
      required := by
        intro b hb hc d hd
        rcases mem_required_add.mp hb with hb | ⟨-, rfl⟩
        · exact mem_required_add.mpr
            (.inl (h.required b hb (fun hm => hc (List.mem_append_left _ hm)) d hd))
        · exact absurd (List.mem_append_right _ (List.mem_singleton.mpr rfl)) hc
      sound := by
        intro b hb
        rcases mem_required_add.mp hb with hb | ⟨hk, rfl⟩
        · exact h.sound b hb
        · exact ⟨path, hr hk, ha⟩ }
  places := by
    rw [places_add, eraseDups_of_nodup (nodup_append_singleton h.nodup hw)]
  required b := by simp [mem_required_add, eq_comm]
  new _ := hw

theorem Opens.note {deed : Deed} (h : Opens t root chain a kind (w.note a path deed) w')
    (deed' : Deed) : Opens t root chain a kind w (w'.note a path deed') :=
  ⟨h.closed.note a path deed', h.places, h.required, h.new⟩

/-- A file that was loaded is passed by or upgraded; another is read, and added when it is
accepted. -/
theorem enter_outcomes (t : FileTree) (a : Address) (kind : IncludeKind) (path : String)
    (w : Walk) :
    (∃ l ∈ w.loaded, l.place = a ∧ (kind = .requirements → l.kind = .requirements) ∧
      enter t a kind path w = (w.note a path .skip, [])) ∨
    (∃ l ∈ w.loaded, l.place = a ∧ l.kind = .constraints ∧ kind = .requirements ∧
      enter t a kind path w =
        (((w.note a path .upgrade).upgrade a).note a path (.follow l.manifest.includes.length),
          l.manifest.includes)) ∨
    (a ∉ w.places ∧ ∃ e, Manifest.load t path = .error e ∧
      enter t a kind path w = ((w.note a path .read).fail e, [])) ∨
    (a ∉ w.places ∧ ∃ m, Manifest.load t path = .ok m ∧ enter t a kind path w =
      (((w.note a path .read).add ⟨a, path, kind, m⟩).note a path (.follow m.includes.length),
        m.includes)) := by
  unfold enter
  cases hf : w.find? a with
  | some l =>
    obtain ⟨hl, hla⟩ := mem_places_of_find? hf
    dsimp only
    split
    · rename_i hk
      exact .inr (.inl ⟨l, hl, hla, hk.2, hk.1, rfl⟩)
    · rename_i hk
      refine .inl ⟨l, hl, hla, fun hkind => ?_, rfl⟩
      cases hlk : l.kind with
      | requirements => rfl
      | constraints => exact absurd ⟨hkind, hlk⟩ hk
  | none =>
    have ha := not_mem_places_of_find? hf
    dsimp only
    cases hm : Manifest.load t path with
    | error e => exact .inr (.inr (.inl ⟨ha, e, rfl, rfl⟩))
    | ok m => exact .inr (.inr (.inr ⟨ha, m, rfl, rfl⟩))

/-- A file that can be read is passed by, upgraded, or read and added; all that it includes is
followed then. -/
theorem enter_cases (kind : IncludeKind) (h : IsFaithful t root w) (ha : t.locate path = .ok a)
    (hm : Manifest.load t path = .ok m) :
    (a ∈ w.places ∧ (kind = .requirements → a ∈ w.required) ∧
      enter t a kind path w = (w.note a path .skip, [])) ∨
    (a ∈ w.places ∧ kind = .requirements ∧ enter t a kind path w =
      (((w.note a path .upgrade).upgrade a).note a path (.follow m.includes.length), m.includes)) ∨
    (a ∉ w.places ∧ enter t a kind path w =
      (((w.note a path .read).add ⟨a, path, kind, m⟩).note a path (.follow m.includes.length),
        m.includes)) := by
  rcases enter_outcomes t a kind path w with ⟨l, hl, rfl, hk, he⟩ | ⟨l, hl, rfl, -, hkind, he⟩ |
    ⟨-, e, hload, -⟩ | ⟨hnew, m', hload, he⟩
  · refine .inl ⟨List.mem_map_of_mem hl, fun hkind => ?_, he⟩
    exact List.mem_map_of_mem (List.mem_filter.mpr ⟨hl, by simpa using hk hkind⟩)
  · obtain ⟨-, hlocate, hold⟩ := h l hl
    cases (load_congr (hlocate.trans ha.symm) hold).symm.trans hm
    exact .inr (.inl ⟨List.mem_map_of_mem hl, hkind, he⟩)
  · cases hload.symm.trans hm
  · cases hload.symm.trans hm
    exact .inr (.inr ⟨hnew, he⟩)

/-- A file is passed by that was loaded and, when requirements are asked for, is one of them; any
other file is opened. -/
theorem enter_spec (h : IsClosed t root chain w) (hp : Reachable t root path)
    (ha : t.locate path = .ok a) (hm : Manifest.load t path = .ok m)
    (hr : kind = .requirements → Required t root path) :
    (a ∈ w.places ∧ (kind = .requirements → a ∈ w.required) ∧
      enter t a kind path w = (w.note a path .skip, [])) ∨
    ∃ w', Opens t root chain a kind w w' ∧ enter t a kind path w = (w', m.includes) := by
  rcases enter_cases kind h.loaded ha hm with hskip | ⟨hold, rfl, he⟩ | ⟨hnew, he⟩
  · exact .inl hskip
  · exact .inr ⟨_, (opens_upgrade (h.note a path .upgrade) hold (hr rfl) ha).note _, he⟩
  · exact .inr ⟨_, (opens_add (h.note a path .read) hnew hp ha hm hr).note _, he⟩

end Walk

/-! ## Visits -/

open Walk

/-- What a visit leaves. -/
structure Visited (t : FileTree) (root : String) (chain : List Address) (kind : IncludeKind)
    (path : String) (w w' : Walk) : Prop where
  closed : IsClosed t root chain w'
  gain : Extends t chain [path] w w'
  arrives : kind = .requirements → ∀ a, t.locate path = .ok a → a ∈ w'.required

theorem visit_of_failure (hf : w.failure ≠ none) :
    visit t (depth + 1) chain kind path w = w := by
  rw [visit, if_pos (Option.isSome_iff_ne_none.mpr hf)]

theorem visit_of_mem (hf : w.failure = none) (ha : t.locate path = .ok a) (hc : a ∈ chain) :
    visit t (depth + 1) chain kind path w = w.fail (.cycle (chain ++ [a])) := by
  rw [visit, hf, if_neg (by simp), ha]
  dsimp only
  rw [if_pos hc]

theorem visit_succ (hf : w.failure = none) (ha : t.locate path = .ok a) (hc : a ∉ chain) :
    visit t (depth + 1) chain kind path w =
      (enter t a kind path w).2.foldl (fun w i => visit t depth (chain ++ [a])
        (childKind kind i.kind) (includedPath path i) w) (enter t a kind path w).1 := by
  rw [visit, hf, if_neg (by simp), ha]
  dsimp only
  rw [if_neg hc]
  rfl

/-- Visits to some paths, one after another. -/
structure AllVisited (t : FileTree) (root : String) (chain : List Address) (kind : IncludeKind)
    (path : String) (includes : List Include) (w w' : Walk) : Prop where
  closed : IsClosed t root chain w'
  gain : Extends t chain (includes.map (includedPath path)) w w'
  arrives : kind = .requirements → ∀ i ∈ includes, i.kind = .requirements →
    ∀ b, t.locate (includedPath path i) = .ok b → b ∈ w'.required

theorem childKind_eq_requirements {parent child : IncludeKind} :
    childKind parent child = .requirements ↔ parent = .requirements ∧ child = .requirements := by
  cases parent <;> cases child <;> decide

theorem allVisited_foldl {includes : List Include} {visit : Include → Walk → Walk}
    (hv : ∀ i ∈ includes, ∀ w, IsClosed t root chain w →
      Visited t root chain (childKind kind i.kind) (includedPath path i) w (visit i w))
    (h : IsClosed t root chain w) : AllVisited t root chain kind path includes w
      (includes.foldl (fun w i => visit i w) w) := by
  induction includes generalizing w with
  | nil => exact ⟨h, .refl h.nodup, by simp⟩
  | cons i includes ih =>
    obtain ⟨hi, hv⟩ := List.forall_mem_cons.mp hv
    have hfirst := hi w h
    have hrest := ih hv hfirst.closed
    refine ⟨hrest.closed, hfirst.gain.trans hrest.gain, fun hk j hj hjk b hb => ?_⟩
    rcases List.mem_cons.mp hj with rfl | hj
    · exact hrest.gain.required (hfirst.arrives (childKind_eq_requirements.mpr ⟨hk, hjk⟩) b hb)
    · exact hrest.arrives hk j hj hjk b hb

/-- A file whose inclusions were all visited leaves the chain. -/
theorem AllVisited.leave {w₁ : Walk} (hl : IsLoadable t root)
    (hway : OnWay t root depth chain path) (ha : t.locate path = .ok a)
    (hm : Manifest.load t path = .ok m) (ho : Opens t root chain a kind w w₁)
    (h : AllVisited t root (chain ++ [a]) kind path m.includes w₁ w') :
    Visited t root chain kind path w w' := by
  have hp := hway.reachable
  have hac : a ∈ chain ++ [a] := by simp
  have hchain : ∀ {b}, b ≠ a → b ∉ chain → b ∉ chain ++ [a] := fun hb hc hm =>
    (List.mem_append.mp hm).elim hc fun hm => hb (List.mem_singleton.mp hm)
  refine ⟨⟨h.closed.failure, h.closed.nodup, h.closed.loaded, ?_, ?_, h.closed.sound⟩,
    ⟨?_, ?_, ?_⟩, ?_⟩
  · intro b hb hc d hd
    by_cases hba : b = a
    · subst hba
      obtain ⟨i, hi, -, hid⟩ := (hl.includes_iff hp ha hm).mp hd
      obtain ⟨order, horder⟩ := DepthFirst.exists_of_onWay hl hway
      obtain ⟨inner, -, hinner⟩ := horder.exists_inner ha hm
      rw [h.gain.places inner hinner, List.mem_eraseDups]
      exact List.mem_append_right _ (hinner.mem_of_mem (List.mem_map_of_mem hi) hid)
    · exact h.closed.places b hb (hchain hba hc) d hd
  · intro b hb hc d hd
    by_cases hba : b = a
    · subst hba
      obtain ⟨i, hi, hik, hid⟩ := (hl.includes_iff hp ha hm).mp hd
      cases kind with
      | requirements => exact h.arrives rfl i hi hik d hid
      | constraints =>
        rcases (ho.required b).mp (h.gain.chain b hac hb) with hw | ⟨hk, -⟩
        · exact absurd (w.required_subset hw) (ho.new rfl)
        · cases hk
    · exact h.closed.required b hb (hchain hba hc) d hd
  · intro order horder
    obtain ⟨inner, rfl, hinner⟩ := horder.exists_inner ha hm
    rw [h.gain.places inner hinner, ho.places, eraseDups_eraseDups_append, List.append_assoc]
    rfl
  · exact fun b hb => h.gain.required ((ho.required b).mpr (.inl hb))
  · intro b hb hw
    rcases (ho.required b).mp (h.gain.chain b (List.mem_append_left _ hb) hw) with hw | ⟨-, rfl⟩
    · exact hw
    · exact absurd hb (hway.not_mem hl ha)
  · intro hk b hb
    cases ha.symm.trans hb
    exact h.gain.required ((ho.required a).mpr (.inr ⟨hk, rfl⟩))

theorem visit_spec (hl : IsLoadable t root) (hway : OnWay t root depth chain path) :
    ∀ kind w, IsClosed t root chain w → (kind = .requirements → Required t root path) →
      Visited t root chain kind path w (visit t depth chain kind path w) := by
  refine hway.induct hl (P := fun depth chain path => ∀ kind w, IsClosed t root chain w →
    (kind = .requirements → Required t root path) →
      Visited t root chain kind path w (visit t depth chain kind path w)) ?_
  intro depth chain path a m hway ha hm ih kind w h hr
  rw [visit_succ h.failure ha (hway.not_mem hl ha)]
  rcases enter_spec h hway.reachable ha hm hr with ⟨hw, hreq, he⟩ | ⟨w₁, ho, he⟩
  · rw [he]
    refine ⟨h.note a path .skip, ⟨fun order horder => ?_, List.Subset.refl _, fun _ _ => id⟩,
      fun hk b hb => ?_⟩
    · have hsub : order ⊆ w.places := by
        apply h.subset_of_depthFirst hl horder
        intro p hp
        rw [List.mem_singleton.mp hp]
        refine ⟨hway.reachable, fun b hb => ⟨?_, hway.above b hb⟩⟩
        cases ha.symm.trans hb
        exact hw
      exact (eraseDups_append_of_subset h.nodup hsub).symm
    · cases ha.symm.trans hb
      exact hreq hk
  · rw [he]
    refine AllVisited.leave hl hway ha hm ho (allVisited_foldl (fun i hi w hw => ?_) ho.closed)
    apply ih i hi _ w hw
    intro hk
    obtain ⟨hk, hik⟩ := childKind_eq_requirements.mp hk
    exact (hr hk).step hm hi hik

end PinFile.Load
