import Mathlib

namespace Soong

variable {α : Type} [LinearOrder α]

/-- The keys of a map filled with the elements of `l`, in increasing order: what a loop over the
map followed by a sort on the keys returns. The loop may visit the keys in any order and the sort
may be any sort; since the keys are distinct, every sorted list of them is this one
(`eq_sortedKeys_of_pairwise`). -/
def sortedKeys (l : List α) : List α :=
  l.dedup.insertionSort (· ≤ ·)

@[simp] theorem mem_sortedKeys {a : α} {l : List α} : a ∈ sortedKeys l ↔ a ∈ l := by
  simp [sortedKeys, List.mem_insertionSort]

/-- Sorted without repeats: each key is below the next. -/
theorem pairwise_sortedKeys (l : List α) : (sortedKeys l).Pairwise (· < ·) := by
  have sorted := List.pairwise_insertionSort (· ≤ ·) l.dedup
  have distinct : (sortedKeys l).Nodup := (List.perm_insertionSort _ _).nodup_iff.mpr (List.nodup_dedup l)
  refine (sorted.and (distinct.pairwise_of_forall_ne fun a _ b _ ne => ne)).imp ?_
  intro a b both
  exact lt_of_le_of_ne both.1 both.2

theorem nodup_sortedKeys (l : List α) : (sortedKeys l).Nodup :=
  (pairwise_sortedKeys l).imp ne_of_lt

/-- A list sorted without repeats is the sorted keys of any list with its elements. -/
theorem eq_sortedKeys_of_pairwise {l l' : List α} (sorted : l'.Pairwise (· < ·)) (same : ∀ a, a ∈ l' ↔ a ∈ l) :
    l' = sortedKeys l := by
  have perm : l'.Perm (sortedKeys l) :=
    (List.perm_ext_iff_of_nodup (sorted.imp ne_of_lt) (nodup_sortedKeys l)).mpr fun a => by simp [same a]
  exact perm.eq_of_pairwise (fun a b _ _ ab ba => absurd (lt_trans ab ba) (lt_irrefl a)) sorted
    (pairwise_sortedKeys l)

/-- Two lists with the same elements fill maps with the same sorted keys, whatever their order
and repeats. -/
theorem sortedKeys_congr {l l' : List α} (same : ∀ a, a ∈ l ↔ a ∈ l') : sortedKeys l = sortedKeys l' :=
  eq_sortedKeys_of_pairwise (pairwise_sortedKeys l) fun a => by simp [same a]

end Soong
