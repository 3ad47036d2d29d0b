import Mathlib

namespace Go

/-- Go slices over a heap of backing arrays: a slice header views the start of an array, and
`append` writes into that array while it has room and copies into a fresh one when it does not.
Two slices share elements exactly when they view one array.

The backing arrays, by address, and the next address `make` and `append` hand out. -/
structure Heap (α : Type) where
  arrays : Nat → List α
  next : Nat

/-- A slice header: the array it views from its start, its length and its capacity. -/
structure Slice where
  array : Nat
  len : Nat
  cap : Nat
  deriving DecidableEq, Repr

variable {α : Type}

namespace Heap

def write (heap : Heap α) (a i : Nat) (x : α) : Heap α :=
  { heap with arrays := Function.update heap.arrays a ((heap.arrays a).set i x) }

/-- A fresh array holding `xs`. -/
def alloc (heap : Heap α) (xs : List α) : Heap α :=
  { arrays := Function.update heap.arrays heap.next xs, next := heap.next + 1 }

@[simp] theorem arrays_write_self (heap : Heap α) (a i : Nat) (x : α) :
    (heap.write a i x).arrays a = (heap.arrays a).set i x := Function.update_self _ _ _

@[simp] theorem next_write (heap : Heap α) (a i : Nat) (x : α) : (heap.write a i x).next = heap.next := rfl

/-- `after` differs from `heap` at most in the array `a` and in arrays allocated since. -/
def Keeps (heap after : Heap α) (a : Nat) : Prop :=
  heap.next ≤ after.next ∧ ∀ b < heap.next, b ≠ a → after.arrays b = heap.arrays b

theorem Keeps.refl (heap : Heap α) (a : Nat) : heap.Keeps heap a :=
  ⟨Nat.le_refl _, fun _ _ _ => rfl⟩

/-- Keeping composes while the array written next is the same one or a fresh one. -/
theorem Keeps.trans {heap mid after : Heap α} {a a' : Nat} (first : heap.Keeps mid a)
    (second : mid.Keeps after a') (same : a' = a ∨ heap.next ≤ a') : heap.Keeps after a := by
  refine ⟨Nat.le_trans first.1 second.1, fun b allocated other => ?_⟩
  have notWritten : b ≠ a' := by
    rintro rfl
    rcases same with rfl | fresh
    · exact other rfl
    · omega
  rw [second.2 b (Nat.lt_of_lt_of_le allocated first.1) notWritten, first.2 b allocated other]

theorem keeps_write (heap : Heap α) (a i : Nat) (x : α) : heap.Keeps (heap.write a i x) a :=
  ⟨Nat.le_refl _, fun _ _ other => Function.update_of_ne other _ _⟩

theorem keeps_alloc (heap : Heap α) (xs : List α) (a : Nat) : heap.Keeps (heap.alloc xs) a :=
  ⟨Nat.le_succ _, fun _ allocated _ => Function.update_of_ne (Nat.ne_of_lt allocated) _ _⟩

end Heap

namespace Slice

/-- The elements a slice views. -/
def elems (s : Slice) (heap : Heap α) : List α := (heap.arrays s.array).take s.len

/-- A slice whose array is allocated and long enough for its capacity. -/
structure Fits (s : Slice) (heap : Heap α) : Prop where
  allocated : s.array < heap.next
  len_le_cap : s.len ≤ s.cap
  cap_le : s.cap ≤ (heap.arrays s.array).length

theorem length_elems {s : Slice} {heap : Heap α} (fits : s.Fits heap) : (s.elems heap).length = s.len := by
  have long := Nat.le_trans fits.len_le_cap fits.cap_le
  simp only [elems, List.length_take]
  omega

/-- A slice reads only its own array. -/
theorem elems_of_keeps {s : Slice} {heap after : Heap α} {a : Nat} (keeps : heap.Keeps after a)
    (allocated : s.array < heap.next) (other : s.array ≠ a) : s.elems after = s.elems heap := by
  rw [elems, elems, keeps.2 s.array allocated other]

end Slice

/-- A fresh slice of the same length holding the elements of `s`: `make([]T, len(s))` and a copy
loop. -/
def copyOf (heap : Heap α) (s : Slice) : Heap α × Slice :=
  (heap.alloc (s.elems heap), ⟨heap.next, s.len, s.len⟩)

theorem copyOf_elems {heap : Heap α} {s : Slice} (fits : s.Fits heap) :
    (copyOf heap s).2.elems (copyOf heap s).1 = s.elems heap := by
  have lenElems := Slice.length_elems fits
  simp only [copyOf, Heap.alloc, Slice.elems, Function.update_self] at lenElems ⊢
  rw [List.take_of_length_le (Nat.le_of_eq lenElems)]

theorem copyOf_fits {heap : Heap α} {s : Slice} (fits : s.Fits heap) : (copyOf heap s).2.Fits (copyOf heap s).1 :=
  ⟨by simp [copyOf, Heap.alloc], Nat.le_refl _, by simp [copyOf, Heap.alloc, Slice.length_elems fits]⟩

section CopyWithin

/-- `copy(array[dst:], array[src:src+count])` inside one backing array, for `dst ≤ src`: Go's
`copy` reads the elements of an overlapping source before it writes them. -/
def copyWithin (array : List α) (dst src count : Nat) : List α :=
  array.take dst ++ (array.drop src).take count ++ array.drop (dst + count)

variable {array : List α} {dst src count : Nat}

theorem length_copyWithin (ordered : dst ≤ src) (fits : src + count ≤ array.length) :
    (copyWithin array dst src count).length = array.length := by
  simp only [copyWithin, List.length_append, List.length_take, List.length_drop]
  omega

/-- Up to the end of the copy: the elements before `dst`, then the copied ones. -/
theorem take_copyWithin (ordered : dst ≤ src) (fits : src + count ≤ array.length) :
    (copyWithin array dst src count).take (dst + count) = array.take dst ++ (array.drop src).take count :=
  List.take_left' (by simp only [List.length_append, List.length_take, List.length_drop]; omega)

/-- From the end of the source on, the array is as it was. -/
theorem drop_copyWithin (ordered : dst ≤ src) (fits : src + count ≤ array.length) :
    (copyWithin array dst src count).drop (src + count) = array.drop (src + count) := by
  have front : (array.take dst ++ (array.drop src).take count).length = dst + count := by
    simp only [List.length_append, List.length_take, List.length_drop]; omega
  have gone : (array.take dst ++ (array.drop src).take count).drop (src + count) = [] :=
    List.drop_eq_nil_of_le (by rw [front]; omega)
  rw [copyWithin, List.drop_append, gone, List.nil_append, front, List.drop_drop]
  congr 1
  omega

end CopyWithin

/-- An operation on `s` that wrote only in `s`'s array and in arrays allocated since, and left its
result in one of those. -/
def Confined (heap : Heap α) (s : Slice) (after : Heap α) (s' : Slice) : Prop :=
  heap.Keeps after s.array ∧ (s'.array = s.array ∨ heap.next ≤ s'.array)

theorem Confined.refl (heap : Heap α) (s : Slice) : Confined heap s heap s :=
  ⟨Heap.Keeps.refl _ _, .inl rfl⟩

theorem Confined.trans {heap mid after : Heap α} {s s' s'' : Slice} (first : Confined heap s mid s')
    (second : Confined mid s' after s'') : Confined heap s after s'' := by
  refine ⟨first.1.trans second.1 first.2, ?_⟩
  rcases second.2 with same | fresh
  · rw [same]
    exact first.2
  · exact .inr (Nat.le_trans first.1.1 fresh)

/-- Whatever is done to a copy in a confined way leaves the original's elements as they were. -/
theorem Confined.elems_of_copyOf {heap after : Heap α} {s s' : Slice} (allocated : s.array < heap.next)
    (confined : Confined (copyOf heap s).1 (copyOf heap s).2 after s') : s.elems after = s.elems heap := by
  have other : s.array ≠ heap.next := Nat.ne_of_lt allocated
  have copied : s.elems (copyOf heap s).1 = s.elems heap :=
    Slice.elems_of_keeps (heap.keeps_alloc _ heap.next) allocated other
  rw [← copied]
  exact Slice.elems_of_keeps confined.1 (Nat.lt_succ_of_lt allocated) other

variable [Inhabited α]

/-- The capacity `append` grows a full slice to: `growslice` doubles a small slice and adds a
quarter to a large one; the rounding up to a size class is left out. -/
def growCap (cap needed : Nat) : Nat :=
  max needed (if cap < 1024 then 2 * cap else cap + cap / 4)

/-- `append(s, x)`. -/
def append (heap : Heap α) (s : Slice) (x : α) : Heap α × Slice :=
  if s.len < s.cap then (heap.write s.array s.len x, { s with len := s.len + 1 })
  else
    let cap := growCap s.cap (s.len + 1)
    (heap.alloc (s.elems heap ++ x :: List.replicate (cap - (s.len + 1)) default), ⟨heap.next, s.len + 1, cap⟩)

theorem append_of_room {heap : Heap α} {s : Slice} (room : s.len < s.cap) (x : α) :
    append heap s x = (heap.write s.array s.len x, { s with len := s.len + 1 }) := if_pos room

section Append

variable {heap : Heap α} {s : Slice} (fits : s.Fits heap) (x : α)
include fits

theorem append_elems : (append heap s x).2.elems (append heap s x).1 = s.elems heap ++ [x] := by
  have long := Nat.le_trans fits.len_le_cap fits.cap_le
  unfold append
  split
  · rename_i room
    have inside : s.len < (heap.arrays s.array).length := Nat.lt_of_lt_of_le room fits.cap_le
    simp only [Slice.elems, Heap.write, Function.update_self]
    rw [List.take_add_one, List.take_set, List.set_eq_of_length_le (by rw [List.length_take]; omega),
      List.getElem?_set_self inside]
    rfl
  · have lenTake : ((heap.arrays s.array).take s.len).length = s.len := by
      rw [List.length_take]
      omega
    simp only [Slice.elems, Heap.alloc, Function.update_self]
    rw [List.take_append, lenTake, List.take_of_length_le (by omega), Nat.add_sub_cancel_left]
    rfl

theorem append_fits : (append heap s x).2.Fits (append heap s x).1 := by
  have long := Nat.le_trans fits.len_le_cap fits.cap_le
  unfold append
  split
  · rename_i room
    exact ⟨fits.allocated, room, by simp [Heap.write, fits.cap_le]⟩
  · have grown : s.len + 1 ≤ growCap s.cap (s.len + 1) := Nat.le_max_left _ _
    refine ⟨by simp [Heap.alloc], grown, ?_⟩
    have lenElems := Slice.length_elems fits
    simp only [Heap.alloc, Function.update_self, List.length_append, List.length_cons, List.length_replicate]
    omega

end Append

/-- `append` writes in the slice's array or allocates a fresh one. -/
theorem append_keeps (heap : Heap α) (s : Slice) (x : α) : heap.Keeps (append heap s x).1 s.array := by
  unfold append
  split
  · exact heap.keeps_write _ _ _
  · exact heap.keeps_alloc _ _

theorem append_array (heap : Heap α) (s : Slice) (x : α) : (append heap s x).2.array = s.array ∨ heap.next ≤ (append heap s x).2.array := by
  unfold append
  split
  · exact .inl rfl
  · exact .inr (Nat.le_refl _)

theorem append_confined (heap : Heap α) (s : Slice) (x : α) :
    Confined heap s (append heap s x).1 (append heap s x).2 :=
  ⟨append_keeps heap s x, append_array heap s x⟩

/-- Filtering without allocating: `out := s[:0]; for _, x := range s { if keep(x) { out =
append(out, x) } }`. The loop writes over the array it reads, always at or behind the element it
reads next, so it never reads an element it has written.

One round of the loop: read element `i` of the array and append it to `out` when it stays. -/
def filterStep (keep : α → Bool) (array : Nat) (state : Heap α × Slice) (i : Nat) : Heap α × Slice :=
  let x := (state.1.arrays array).getD i default
  if keep x then append state.1 state.2 x else state

def filterInPlace (keep : α → Bool) (heap : Heap α) (s : Slice) : Heap α × Slice :=
  (List.range s.len).foldl (filterStep keep s.array) (heap, { s with len := 0 })

/-- The loop after reading the first `j` elements of `s`: the ones that stay fill the start of
its array, and the elements still to be read are those `start` had. -/
structure Filtering (keep : α → Bool) (start : Heap α) (s : Slice) (j : Nat) (heap : Heap α)
    (out : Slice) : Prop where
  array : out.array = s.array
  cap : out.cap = s.cap
  len_le : out.len ≤ j
  keeps : start.Keeps heap s.array
  length : (heap.arrays s.array).length = (start.arrays s.array).length
  kept : out.elems heap = ((start.arrays s.array).take j).filter keep
  unread : (heap.arrays s.array).drop j = (start.arrays s.array).drop j

section Filter

variable {keep : α → Bool} {start : Heap α} {s : Slice} (fits : s.Fits start)
include fits

omit [Inhabited α] in
theorem Filtering.out_fits {j : Nat} {heap : Heap α} {out : Slice}
    (inv : Filtering keep start s j heap out) (within : j ≤ s.len) : out.Fits heap := by
  refine ⟨?_, ?_, ?_⟩
  · rw [inv.array]
    exact Nat.lt_of_lt_of_le fits.allocated inv.keeps.1
  · rw [inv.cap]
    exact Nat.le_trans inv.len_le (Nat.le_trans within fits.len_le_cap)
  · rw [inv.cap, inv.array, inv.length]
    exact fits.cap_le

/-- The step lemma: one round keeps the invariant, one element further on. -/
theorem Filtering.step {j : Nat} {heap : Heap α} {out : Slice} (inv : Filtering keep start s j heap out)
    (within : j < s.len) :
    Filtering keep start s (j + 1) (filterStep keep s.array (heap, out) j).1
      (filterStep keep s.array (heap, out) j).2 := by
  have outFits := inv.out_fits fits (Nat.le_of_lt within)
  have bound : j < (start.arrays s.array).length :=
    Nat.lt_of_lt_of_le within (Nat.le_trans fits.len_le_cap fits.cap_le)
  obtain ⟨x, atJ⟩ : ∃ x, (start.arrays s.array)[j]? = some x := ⟨_, List.getElem?_eq_getElem bound⟩
  -- the element read is still the one `start` had, since the loop only wrote behind it
  have read : (heap.arrays s.array).getD j default = x := by
    rw [List.getD_eq_getElem?_getD, ← List.head?_drop, inv.unread, List.head?_drop, atJ]
    rfl
  have taken : (start.arrays s.array).take (j + 1) = (start.arrays s.array).take j ++ [x] := by
    rw [List.take_add_one, atJ]
    rfl
  have unread : (heap.arrays s.array).drop (j + 1) = (start.arrays s.array).drop (j + 1) := by
    rw [← List.drop_drop, inv.unread, List.drop_drop]
  unfold filterStep
  dsimp only
  rw [read]
  by_cases stays : keep x
  · have room : out.len < out.cap := by
      have := inv.len_le
      rw [inv.cap]
      exact Nat.lt_of_le_of_lt this (Nat.lt_of_lt_of_le within fits.len_le_cap)
    have elems := append_elems outFits x
    rw [if_pos stays]
    rw [append_of_room room] at elems ⊢
    refine ⟨inv.array, inv.cap, Nat.succ_le_succ inv.len_le, ?_, ?_, ?_, ?_⟩
    · exact inv.keeps.trans (heap.keeps_write _ _ _) (.inl inv.array)
    · rw [← inv.array, Heap.arrays_write_self, List.length_set, inv.array, inv.length]
    · rw [elems, inv.kept, taken, List.filter_append, List.filter_singleton, stays]
      rfl
    · rw [← inv.array, Heap.arrays_write_self, List.drop_set_of_lt (Nat.lt_succ_of_le inv.len_le),
        inv.array, unread]
  · rw [if_neg stays]
    refine ⟨inv.array, inv.cap, Nat.le_succ_of_le inv.len_le, inv.keeps, inv.length, ?_, unread⟩
    have dropped : keep x = false := by simpa using stays
    rw [inv.kept, taken, List.filter_append, List.filter_singleton, dropped]
    simp

/-- The run lemma: after `j` rounds the invariant holds at `j`. -/
theorem filtering_range {j : Nat} (within : j ≤ s.len) :
    Filtering keep start s j ((List.range j).foldl (filterStep keep s.array) (start, { s with len := 0 })).1
      ((List.range j).foldl (filterStep keep s.array) (start, { s with len := 0 })).2 := by
  induction j with
  | zero => exact ⟨rfl, rfl, Nat.le_refl _, Heap.Keeps.refl _ _, rfl, by simp [Slice.elems], rfl⟩
  | succ j ih =>
    rw [List.range_succ, List.foldl_append, List.foldl_cons, List.foldl_nil]
    exact (ih (Nat.le_of_succ_le within)).step fits within

theorem filterInPlace_filtering :
    Filtering keep start s s.len (filterInPlace keep start s).1 (filterInPlace keep start s).2 :=
  filtering_range fits (Nat.le_refl _)

theorem filterInPlace_elems :
    (filterInPlace keep start s).2.elems (filterInPlace keep start s).1 = (s.elems start).filter keep :=
  (filterInPlace_filtering fits).kept

theorem filterInPlace_fits : (filterInPlace keep start s).2.Fits (filterInPlace keep start s).1 :=
  (filterInPlace_filtering fits).out_fits fits (Nat.le_refl _)

theorem filterInPlace_confined : Confined start s (filterInPlace keep start s).1 (filterInPlace keep start s).2 :=
  ⟨(filterInPlace_filtering fits).keeps, .inl (filterInPlace_filtering fits).array⟩

end Filter

end Go
