import Mathlib

namespace Go.Sorting

/-- The loop of `sort.Search(n, f)`: the answer is in `[i, j]`. `f` is only asked about indices
below `n`. -/
def searchLoop (n : Nat) (f : Fin n → Bool) (i j : Nat) (bound : j ≤ n) : Nat :=
  if inside : i < j then
    let h := (i + j) / 2
    if !f ⟨h, by omega⟩ then searchLoop n f (h + 1) j bound
    else searchLoop n f i h (by omega)
  else i
termination_by j - i

/-- `sort.Search`: the binary search for the first index a test holds at, for a test that holds
from some index on. The midpoint `int(uint(i+j) >> 1)` is `(i + j) / 2`, as `uint` holds the sum of
two `int`s. The package is `Sorting` here, since Lean keeps `Sort` for universes.

`sort.Search(n, f)`. -/
def search (n : Nat) (f : Fin n → Bool) : Nat := searchLoop n f 0 n (Nat.le_refl n)

section Spec

variable {n : Nat} {f : Fin n → Bool}

/-- The loop keeps the test false below `i` and true from `j` on, and ends where they meet. -/
theorem searchLoop_spec (mono : ∀ a b : Fin n, a ≤ b → f a = true → f b = true) (i j : Nat) (bound : j ≤ n)
    (ordered : i ≤ j) (below : ∀ m : Fin n, m.val < i → f m = false) (above : ∀ m : Fin n, j ≤ m.val → f m = true) :
    searchLoop n f i j bound ≤ n ∧ (∀ m : Fin n, m.val < searchLoop n f i j bound → f m = false) ∧
      ∀ m : Fin n, searchLoop n f i j bound ≤ m.val → f m = true := by
  fun_induction searchLoop n f i j bound with
  | case1 i j bound inside h fails ih =>
    -- the test fails at the midpoint, so it fails everywhere below it
    refine ih (by omega) (fun m lt => ?_) above
    by_cases before : m.val < i
    · exact below m before
    · cases holds : f m
      · rfl
      · have atMid := mono m ⟨h, by omega⟩ (Fin.mk_le_mk.mpr (by omega)) holds
        simp only [Bool.not_eq_true'] at fails
        rw [fails] at atMid
        exact absurd atMid Bool.false_ne_true
  | case2 i j bound inside h holds ih =>
    -- the test holds at the midpoint, so it holds everywhere above it
    refine ih (by omega) below (fun m ge => mono ⟨h, by omega⟩ m (Fin.mk_le_mk.mpr ge) ?_)
    simpa using holds
  | case3 i j bound outside =>
    exact ⟨by omega, below, fun m ge => above m (by omega)⟩

/-- For a test that holds from some index on, `Search` returns the first index it holds at, or `n`. -/
theorem search_spec (mono : ∀ a b : Fin n, a ≤ b → f a = true → f b = true) :
    search n f ≤ n ∧ (∀ m : Fin n, m.val < search n f → f m = false) ∧
      ∀ m : Fin n, search n f ≤ m.val → f m = true :=
  searchLoop_spec mono 0 n (Nat.le_refl n) (Nat.zero_le n) (fun _ lt => absurd lt (Nat.not_lt_zero _))
    (fun m ge => absurd m.isLt (by omega))

end Spec

/-- Over the indices of a list, for a test that holds of every element after one it holds of,
`Search` splits the list where the test starts holding. -/
theorem search_split {α : Type} (l : List α) (g : α → Bool)
    (mono : l.Pairwise fun a b => g a = true → g b = true) :
    (∀ x ∈ l.take (search l.length fun i => g l[i]), g x = false) ∧
      ∀ x ∈ l.drop (search l.length fun i => g l[i]), g x = true := by
  have monoIdx : ∀ a b : Fin l.length, a ≤ b → g l[a] = true → g l[b] = true := by
    intro a b le holds
    rcases Nat.lt_or_eq_of_le (Fin.le_def.mp le) with lt | same
    · exact List.pairwise_iff_getElem.mp mono a b a.isLt b.isLt lt holds
    · rw [← Fin.ext same]
      exact holds
  obtain ⟨-, below, above⟩ := search_spec monoIdx
  refine ⟨fun x mem => ?_, fun x mem => ?_⟩
  · obtain ⟨m, lt, rfl⟩ := List.mem_iff_getElem.mp mem
    rw [List.length_take] at lt
    rw [List.getElem_take]
    exact below ⟨m, by omega⟩ (by dsimp only; omega)
  · obtain ⟨m, lt, rfl⟩ := List.mem_iff_getElem.mp mem
    rw [List.length_drop] at lt
    rw [List.getElem_drop]
    exact above ⟨_, by omega⟩ (Nat.le_add_right _ _)

end Go.Sorting
