import PinFile.Lint.Check
import PinFile.Proofs.Text.Ascending

/-!
# Groups

The groups of a list are its parts with equal keys. Together they are the list (`perm_groupBy`),
and the groups of a part that was chosen by the keys are those groups of the whole list that have
such keys (`groupBy_filter`). Groups of groups come to one group for each pair of keys
(`flatMap_groupBy_groupBy`).
-/

namespace PinFile.Lint

open Text

variable {α : Type} {key : α → String} {xs : List α} {group : String × List α} {k : String}

theorem flatMap_filter {β : Type} (p : α → Bool) (f : α → List β) (xs : List α) :
    (xs.filter p).flatMap f = xs.flatMap fun x => if p x then f x else [] := by
  induction xs with
  | nil => rfl
  | cons x xs ih =>
    rw [List.filter_cons, List.flatMap_cons, ← ih]
    split <;> rfl

theorem mem_groupBy (h : group ∈ groupBy key xs) : group.2 = xs.filter (key · == group.1) := by
  obtain ⟨k, -, rfl⟩ := List.mem_map.mp h
  rfl

/-- Members with different keys are each alone in their group. -/
theorem length_le_one_of_pairwise (h : xs.Pairwise fun a b => key a ≠ key b) :
    (xs.filter (key · == k)).length ≤ 1 := by
  have hk : ∀ x ∈ xs.filter (key · == k), key x = k := fun x hx => by
    simpa using (List.mem_filter.mp hx).2
  have hp := h.filter (key · == k)
  generalize xs.filter (key · == k) = ys at hk hp
  match ys with
  | [] | [_] => simp
  | a :: b :: ys =>
    have hab := (List.pairwise_cons.mp hp).1 b List.mem_cons_self
    rw [hk a List.mem_cons_self, hk b (by simp)] at hab
    exact absurd rfl hab

/-- Choosing members by their keys is choosing groups. -/
theorem groupBy_filter (q : String → Bool) (xs : List α) :
    groupBy key (xs.filter fun x => q (key x)) =
      (groupBy key xs).filter fun group => q group.1 := by
  have hkeys : (xs.filter fun x => q (key x)).map key = (xs.map key).filter q := by
    rw [List.filter_map]
    rfl
  unfold groupBy
  rw [hkeys, ← filter_ascending, List.filter_map]
  refine List.map_congr_left fun k hk => ?_
  have hq : q k = true := (List.mem_filter.mp hk).2
  have hmembers : (xs.filter fun x => q (key x)).filter (key · == k) = xs.filter (key · == k) := by
    rw [List.filter_filter]
    refine List.filter_congr fun x _ => ?_
    by_cases hx : key x = k
    · simp [hx, hq]
    · simp [hx]
  rw [hmembers]

/-! ## All groups together -/

theorem perm_flatMap_filter {ks : List String} (hk : ks.Nodup) (hx : ∀ x ∈ xs, key x ∈ ks) :
    (ks.flatMap fun k => xs.filter (key · == k)).Perm xs := by
  induction ks generalizing xs with
  | nil =>
    rw [List.eq_nil_iff_forall_not_mem.mpr fun x hm => List.not_mem_nil (hx x hm)]
    rfl
  | cons k ks ih =>
    obtain ⟨hnot, hks⟩ := List.nodup_cons.mp hk
    have hothers : (ks.flatMap fun k' => xs.filter (key · == k')) =
        ks.flatMap fun k' => (xs.filter fun x => !key x == k).filter (key · == k') := by
      refine List.flatMap_congr fun k' hk' => ?_
      rw [List.filter_filter]
      refine List.filter_congr fun x _ => ?_
      by_cases he : key x = k'
      · have hne : k' ≠ k := fun e => hnot (e ▸ hk')
        simp [he, hne]
      · simp [he]
    rw [List.flatMap_cons, hothers]
    refine .trans (.append_left _ (ih hks fun x hm => ?_)) (List.filter_append_perm _ xs)
    obtain ⟨hm, hne⟩ := List.mem_filter.mp hm
    exact (List.mem_cons.mp (hx x hm)).resolve_left (by simpa using hne)

/-- The groups of a list are its members. -/
theorem perm_groupBy (key : α → String) (xs : List α) :
    ((groupBy key xs).flatMap (·.2)).Perm xs := by
  unfold groupBy
  rw [List.flatMap_map]
  exact perm_flatMap_filter (nodup_ascending _) fun x hx =>
    mem_ascending.mpr (List.mem_map_of_mem hx)

/-- What is found for each member of each group is what is found for each member. -/
theorem perm_filterMap_groupBy {β : Type} (find : String → α → Option β) (xs : List α) :
    ((groupBy key xs).flatMap fun group => group.2.filterMap (find group.1)).Perm
      (xs.filterMap fun x => find (key x) x) := by
  have hmembers : ((groupBy key xs).flatMap fun group => group.2.filterMap (find group.1)) =
      ((groupBy key xs).flatMap (·.2)).filterMap fun x => find (key x) x := by
    rw [List.filterMap_flatMap]
    refine List.flatMap_congr fun group hg => List.filterMap_congr fun x hx => ?_
    rw [mem_groupBy hg] at hx
    rw [beq_iff_eq.mp (List.mem_filter.mp hx).2]
  rw [hmembers]
  exact (perm_groupBy key xs).filterMap _

/-- Members may be chosen before the groups are made, where nothing comes of an empty group. -/
theorem flatMap_groupBy_filter {β : Type} (key : α → String) (p : α → Bool)
    (find : String → List α → List β) (hnil : ∀ k, find k [] = []) (xs : List α) :
    ((groupBy key xs).flatMap fun group => find group.1 (group.2.filter p)) =
      (groupBy key (xs.filter p)).flatMap fun group => find group.1 group.2 := by
  -- a key without chosen members has no group on the right, and an empty one on the left
  have hkeys : ascending ((xs.filter p).map key) = (ascending (xs.map key)).filter fun k =>
      !((xs.filter p).filter (key · == k)).isEmpty := by
    refine (eq_ascending ((pairwise_ascending _).filter _) fun k => ?_).symm
    rw [List.mem_filter, mem_ascending, List.mem_map, List.mem_map]
    simp only [Bool.not_eq_true', List.isEmpty_eq_false_iff_exists_mem, List.mem_filter,
      beq_iff_eq]
    constructor
    · rintro ⟨-, x, hx, hk⟩
      exact ⟨x, hx, hk⟩
    · rintro ⟨x, hx, hk⟩
      exact ⟨⟨x, hx.1, hk⟩, x, hx, hk⟩
  unfold groupBy
  rw [List.flatMap_map, List.flatMap_map, hkeys, flatMap_filter]
  refine List.flatMap_congr fun k _ => ?_
  rw [List.filter_comm]
  split
  · rfl
  · rename_i he
    rw [Bool.not_eq_true', Bool.not_eq_false] at he
    rw [List.isEmpty_iff.mp he, hnil]

/-! ## Groups of groups -/

variable {key' : α → String}

/-- The pairs of keys that members have. -/
def keyPairs (key key' : α → String) (xs : List α) : List (String × String) :=
  (ascending (xs.map key)).flatMap fun k =>
    (ascending ((xs.filter (key · == k)).map key')).map fun k' => (k, k')

theorem mem_keyPairs {pair : String × String} :
    pair ∈ keyPairs key key' xs ↔ ∃ x ∈ xs, key x = pair.1 ∧ key' x = pair.2 := by
  unfold keyPairs
  rw [List.mem_flatMap]
  constructor
  · rintro ⟨k, -, h⟩
    obtain ⟨k', hk', rfl⟩ := List.mem_map.mp h
    obtain ⟨x, hx, rfl⟩ := List.mem_map.mp (mem_ascending.mp hk')
    obtain ⟨hx, hk⟩ := List.mem_filter.mp hx
    exact ⟨x, hx, beq_iff_eq.mp hk, rfl⟩
  · rintro ⟨x, hx, hk, hk'⟩
    refine ⟨pair.1, ?_, List.mem_map.mpr ⟨pair.2, ?_, rfl⟩⟩
    · exact mem_ascending.mpr (List.mem_map.mpr ⟨x, hx, hk⟩)
    · exact mem_ascending.mpr
        (List.mem_map.mpr ⟨x, List.mem_filter.mpr ⟨hx, beq_iff_eq.mpr hk⟩, hk'⟩)

theorem nodup_keyPairs (key key' : α → String) (xs : List α) : (keyPairs key key' xs).Nodup := by
  refine List.nodup_flatMap.mpr ⟨fun k _ => ?_, ?_⟩
  · exact (nodup_ascending _).map fun _ _ h => (Prod.mk.inj h).2
  · refine (nodup_ascending _).imp fun {a b} hab => ?_
    intro pair ha hb
    obtain ⟨_, _, rfl⟩ := List.mem_map.mp ha
    obtain ⟨_, _, he⟩ := List.mem_map.mp hb
    exact hab (Prod.mk.inj he).1.symm

theorem flatMap_groupBy_groupBy {β : Type} (g : String → List α → Option β) (xs : List α) :
    ((groupBy key xs).flatMap fun p => (groupBy key' p.2).filterMap fun q => g p.1 q.2) =
      (keyPairs key key' xs).filterMap fun pair =>
        g pair.1 (xs.filter fun x => key x == pair.1 && key' x == pair.2) := by
  unfold groupBy keyPairs
  rw [List.flatMap_map, List.filterMap_flatMap]
  refine List.flatMap_congr fun k _ => ?_
  rw [List.filterMap_map, List.filterMap_map]
  refine List.filterMap_congr fun k' _ => ?_
  simp only [Function.comp_apply, List.filter_filter, Bool.and_comm]

/-- The results of a function correspond to the items that have one. -/
theorem forall₂_filterMap {β γ : Type} {f : β → Option γ} {R : β → γ → Prop}
    (h : ∀ x y, f x = some y → R x y) (xs : List β) :
    List.Forall₂ R (xs.filter fun x => (f x).isSome) (xs.filterMap f) := by
  induction xs with
  | nil => exact .nil
  | cons x xs ih =>
    cases hx : f x with
    | none => simpa [hx] using ih
    | some y => simpa [hx] using ⟨h x y hx, ih⟩

end PinFile.Lint
