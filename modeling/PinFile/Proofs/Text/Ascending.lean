import Mathlib.Data.List.Nodup
import Mathlib.Data.List.Perm.Basic
import Mathlib.Data.String.Basic
import PinFile.Text

/-!
# Ascending texts

`ascending` is a normal form of lists of texts: its result is strictly ascending
(`pairwise_ascending`), so it is the same for two lists exactly when they have the same members
(`ascending_eq_iff`). `sorted` is one up to repetitions (`sorted_eq_iff`).
-/

namespace PinFile.Text

variable {x : String} {xs ys : List String}

theorem pairwise_insertAscending (h : ys.Pairwise (· < ·)) :
    (insertAscending x ys).Pairwise (· < ·) := by
  induction ys with
  | nil => exact List.pairwise_singleton _ _
  | cons y ys ih =>
    obtain ⟨hy, hys⟩ := List.pairwise_cons.mp h
    unfold insertAscending
    split
    · rename_i hxy
      exact List.pairwise_cons.mpr
        ⟨List.forall_mem_cons.mpr ⟨hxy, fun z hz => hxy.trans (hy z hz)⟩, h⟩
    · split
      · exact h
      · rename_i hxy hne
        refine List.pairwise_cons.mpr ⟨fun z hz => ?_, ih hys⟩
        rcases mem_insertAscending.mp hz with rfl | hz
        · exact lt_of_le_of_ne (not_lt.mp hxy) (Ne.symm hne)
        · exact hy z hz

theorem pairwise_ascending (xs : List String) : (ascending xs).Pairwise (· < ·) := by
  induction xs with
  | nil => exact .nil
  | cons x xs ih => exact pairwise_insertAscending ih

theorem nodup_ascending (xs : List String) : (ascending xs).Nodup :=
  (pairwise_ascending xs).imp ne_of_lt

/-- A strictly ascending list is determined by its members. -/
theorem eq_ascending (h : ys.Pairwise (· < ·)) (hm : ∀ x, x ∈ ys ↔ x ∈ xs) : ys = ascending xs := by
  have hp : ys.Perm (ascending xs) :=
    (List.perm_ext_iff_of_nodup (h.imp ne_of_lt) (nodup_ascending xs)).mpr
      fun x => by rw [mem_ascending, hm]
  exact hp.eq_of_pairwise (fun _ _ _ _ hab hba => absurd hba hab.asymm) h (pairwise_ascending xs)

/-- Strictly ascending lists with the same members are equal. -/
theorem eq_of_pairwise_lt (hx : xs.Pairwise (· < ·)) (hy : ys.Pairwise (· < ·))
    (hm : ∀ x, x ∈ xs ↔ x ∈ ys) : xs = ys :=
  (eq_ascending hx hm).trans (eq_ascending hy fun _ => Iff.rfl).symm

/-- Neither order nor repetitions matter. -/
theorem ascending_congr (h : ∀ x, x ∈ xs ↔ x ∈ ys) : ascending xs = ascending ys :=
  eq_ascending (pairwise_ascending xs) fun x => by rw [mem_ascending, h]

theorem ascending_eq_iff : ascending xs = ascending ys ↔ ∀ x, x ∈ xs ↔ x ∈ ys := by
  refine ⟨fun h x => ?_, ascending_congr⟩
  rw [← mem_ascending, h, mem_ascending]

theorem filter_ascending (p : String → Bool) (xs : List String) :
    (ascending xs).filter p = ascending (xs.filter p) :=
  eq_ascending ((pairwise_ascending xs).filter p) fun x => by
    rw [List.mem_filter, List.mem_filter, mem_ascending]

/-! ## With repetitions -/

theorem sorted_perm (xs : List String) : (sorted xs).Perm xs := List.mergeSort_perm xs _

theorem pairwise_sorted (xs : List String) : (sorted xs).Pairwise (· ≤ ·) := by
  have htrans : ∀ a b c : String, decide (a ≤ b) = true → decide (b ≤ c) = true →
      decide (a ≤ c) = true := by
    simpa using fun a b c => le_trans
  have htotal : ∀ a b : String, (decide (a ≤ b) || decide (b ≤ a)) = true := by
    simpa using le_total
  simpa [sorted] using List.pairwise_mergeSort htrans htotal xs

/-- A sorted list is determined by its members and how often it has them. -/
theorem sorted_eq_iff : sorted xs = sorted ys ↔ xs.Perm ys := by
  constructor
  · intro h
    exact (sorted_perm xs).symm.trans (h ▸ sorted_perm ys)
  · intro h
    have hp := (sorted_perm xs).trans (h.trans (sorted_perm ys).symm)
    exact hp.eq_of_pairwise (fun _ _ _ _ => le_antisymm) (pairwise_sorted xs) (pairwise_sorted ys)

theorem sorted_eq_ascending (h : xs.Nodup) : sorted xs = ascending xs := by
  have hs := (sorted_perm xs).nodup_iff.mpr h
  refine eq_ascending ?_ fun x => (sorted_perm xs).mem_iff
  exact ((pairwise_sorted xs).and hs).imp fun h => lt_of_le_of_ne h.1 h.2

end PinFile.Text
