import Mathlib.Data.List.Nodup

/-!
# Lists without repetitions

`eraseDups` keeps the first of equal items. What is left has no two equal items, and a list
without equal items stays as it is.
-/

namespace PinFile

variable {α β : Type}

theorem length_filter_lt_length_cons (p : β → Bool) (x : β) (xs : List β) :
    (xs.filter p).length < (x :: xs).length := by
  have := List.length_filter_le p xs
  rw [List.length_cons]
  omega

theorem eraseDups_sublist [BEq β] (xs : List β) : xs.eraseDups.Sublist xs := by
  match xs with
  | [] => exact .slnil
  | x :: xs =>
    rw [List.eraseDups_cons]
    exact ((eraseDups_sublist _).trans List.filter_sublist).cons_cons x
termination_by xs.length
decreasing_by exact length_filter_lt_length_cons _ x xs

theorem nodup_eraseDups [BEq β] [LawfulBEq β] (xs : List β) : xs.eraseDups.Nodup := by
  match xs with
  | [] => exact List.nodup_nil
  | x :: xs =>
    rw [List.eraseDups_cons]
    refine List.nodup_cons.mpr ⟨fun h => ?_, nodup_eraseDups _⟩
    simp [List.mem_eraseDups] at h
termination_by xs.length
decreasing_by exact length_filter_lt_length_cons _ x xs

theorem eraseDups_of_nodup [BEq β] [LawfulBEq β] {xs : List β} (h : xs.Nodup) :
    xs.eraseDups = xs := by
  induction xs with
  | nil => rfl
  | cons x xs ih =>
    obtain ⟨hx, hxs⟩ := List.nodup_cons.mp h
    rw [List.eraseDups_cons, List.filter_eq_self.mpr, ih hxs]
    intro y hy
    have : y ≠ x := fun e => hx (e ▸ hy)
    simpa using this

theorem eraseDups_eraseDups_append [BEq β] [LawfulBEq β] (xs ys : List β) :
    (xs.eraseDups ++ ys).eraseDups = (xs ++ ys).eraseDups := by
  have hr : ys.removeAll xs.eraseDups = ys.removeAll xs :=
    List.filter_congr fun y _ => by simp [List.mem_eraseDups]
  rw [List.eraseDups_append, List.eraseDups_append, hr, eraseDups_of_nodup (nodup_eraseDups xs)]

theorem eraseDups_append_of_subset [BEq β] [LawfulBEq β] {xs ys : List β} (hx : xs.Nodup)
    (hy : ys ⊆ xs) : (xs ++ ys).eraseDups = xs := by
  have hr : ys.removeAll xs = [] :=
    List.filter_eq_nil_iff.mpr fun y hm => by simpa using hy hm
  rw [List.eraseDups_append, hr, List.eraseDups_nil, List.append_nil, eraseDups_of_nodup hx]

theorem nodup_append_singleton {xs : List β} {x : β} (h : xs.Nodup) (hx : x ∉ xs) :
    (xs ++ [x]).Nodup :=
  List.nodup_append.mpr ⟨h, by simp, fun y hy z hz e => hx (List.mem_singleton.mp hz ▸ e ▸ hy)⟩

theorem one_lt_length_iff {xs : List β} (h : xs.Nodup) :
    1 < xs.length ↔ ∃ x ∈ xs, ∃ y ∈ xs, x ≠ y := by
  match xs, h with
  | [], _ => simp
  | [x], _ => simp
  | x :: y :: xs, h =>
    have hxy : x ≠ y := fun e => (List.nodup_cons.mp h).1 (e ▸ List.mem_cons_self)
    simp only [List.length_cons, Nat.lt_add_left_iff_pos, Nat.zero_lt_succ, true_iff]
    exact ⟨x, List.mem_cons_self, y, by simp, hxy⟩

/-- The distinct images of a list are the images of some of its items. -/
theorem exists_map_eq {f : α → β} {xs : List α} {ys : List β} (h : ys ⊆ xs.map f) :
    ∃ zs, zs ⊆ xs ∧ zs.map f = ys := by
  induction ys with
  | nil => exact ⟨[], by simp, rfl⟩
  | cons y ys ih =>
    obtain ⟨hy, hys⟩ := List.cons_subset.mp h
    obtain ⟨x, hx, rfl⟩ := List.mem_map.mp hy
    obtain ⟨zs, hzs, rfl⟩ := ih hys
    exact ⟨x :: zs, List.cons_subset.mpr ⟨hx, hzs⟩, rfl⟩

end PinFile
