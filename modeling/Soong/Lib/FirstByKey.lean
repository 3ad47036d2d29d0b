import Mathlib

namespace Soong

open List

variable {α β : Type} [DecidableEq β] (key : α → β)

/-- The elements of a list whose key no earlier element has, in order: what a map filled
first-wins keeps, listed in insertion order. -/
def firstByKey (l : List α) : List α :=
  l.foldl (fun kept a => if kept.any (fun b => key b = key a) then kept else kept ++ [a]) []

/-- A key occurs in `l`: some element has it. -/
def HasKey (l : List α) (k : β) : Prop := ∃ b ∈ l, key b = k

instance (l : List α) (k : β) : Decidable (HasKey key l k) :=
  inferInstanceAs (Decidable (∃ b ∈ l, key b = k))

variable {key}

@[simp] theorem firstByKey_nil : firstByKey key ([] : List α) = [] := rfl

theorem firstByKey_append_singleton (l : List α) (a : α) :
    firstByKey key (l ++ [a]) =
      if HasKey key (firstByKey key l) (key a) then firstByKey key l else firstByKey key l ++ [a] := by
  simp only [firstByKey, foldl_append, foldl_cons, foldl_nil]
  congr 1
  simp [HasKey]

omit [DecidableEq β] in
theorem hasKey_append_singleton {l : List α} {a : α} {k : β} :
    HasKey key (l ++ [a]) k ↔ HasKey key l k ∨ key a = k := by
  simp [HasKey, or_and_right, exists_or]

/-- The first elements keep every key of the list. -/
theorem hasKey_firstByKey {l : List α} {k : β} : HasKey key (firstByKey key l) k ↔ HasKey key l k := by
  induction l using List.reverseRecOn with
  | nil => simp [HasKey]
  | append_singleton l a ih =>
    rw [firstByKey_append_singleton, hasKey_append_singleton]
    split_ifs with seen
    · constructor
      · exact fun kept => .inl (ih.mp kept)
      · rintro (old | rfl)
        · exact ih.mpr old
        · exact seen
    · rw [hasKey_append_singleton, ih]

theorem firstByKey_sublist (l : List α) : firstByKey key l <+ l := by
  induction l using List.reverseRecOn with
  | nil => simp
  | append_singleton l a ih =>
    rw [firstByKey_append_singleton]
    split_ifs
    · exact ih.trans (sublist_append_left l [a])
    · exact ih.append_right [a]

/-- No two of the first elements share a key. -/
theorem nodup_map_firstByKey (l : List α) : ((firstByKey key l).map key).Nodup := by
  induction l using List.reverseRecOn with
  | nil => simp
  | append_singleton l a ih =>
    rw [firstByKey_append_singleton]
    split_ifs with seen
    · exact ih
    · rw [map_append, nodup_append]
      refine ⟨ih, by simp, ?_⟩
      intro k kept k' single same
      obtain ⟨b, member, rfl⟩ := mem_map.mp kept
      rw [mem_map] at single
      obtain ⟨a', a'_mem, rfl⟩ := single
      rw [mem_singleton.mp a'_mem] at same
      exact seen ⟨b, member, same⟩

/-- Any reordering of the first elements holds exactly one element with each key of the list. -/
theorem existsUnique_of_perm_firstByKey {l out : List α} {k : β} (perm : out.Perm (firstByKey key l))
    (has : HasKey key l k) : ∃! b, b ∈ out ∧ key b = k := by
  obtain ⟨b, kept, same⟩ := hasKey_firstByKey.mpr has
  have nodup : (out.map key).Nodup := (perm.map key).nodup_iff.mpr (nodup_map_firstByKey l)
  refine ⟨b, ⟨perm.mem_iff.mpr kept, same⟩, ?_⟩
  rintro other ⟨member, same'⟩
  exact inj_on_of_nodup_map nodup member (perm.mem_iff.mpr kept) (same'.trans same.symm)

theorem find?_append_singleton_of_some {l : List α} {a first : α} {k : β}
    (found : l.find? (fun b => key b = k) = some first) :
    (l ++ [a]).find? (fun b => key b = k) = some first := by
  rw [find?_append, found, Option.some_or]

theorem find?_append_singleton_of_ne {l : List α} {a : α} {k : β} (other : key a ≠ k) :
    (l ++ [a]).find? (fun b => key b = k) = l.find? fun b => key b = k := by
  rw [find?_append]
  simp [other]

section LookupFirst

variable {γ : Type} (key) (val : α → γ)

/-- `seen` maps every key to `val` of the first element of `l` with that key: the map a loop
over `l` fills first-wins. -/
def LookupFirst (seen : List (β × γ)) (l : List α) : Prop :=
  ∀ k, seen.lookup k = (l.find? fun b => key b = k).map val

variable {key val}

theorem LookupFirst.nil : LookupFirst key val [] ([] : List α) := fun _ => rfl

/-- An element whose key was seen leaves the map as it is. -/
theorem LookupFirst.append_of_isSome {seen : List (β × γ)} {l : List α} {a : α}
    (rep : LookupFirst key val seen l) (found : (l.find? fun b => key b = key a).isSome) :
    LookupFirst key val seen (l ++ [a]) := by
  intro k
  rw [rep k]
  by_cases same : key a = k
  · obtain ⟨first, first_eq⟩ := Option.isSome_iff_exists.mp found
    rw [← same, find?_append_singleton_of_some first_eq, first_eq]
  · rw [find?_append_singleton_of_ne same]

/-- An element with a new key is filed under it. -/
theorem LookupFirst.append_of_none {seen : List (β × γ)} {l : List α} {a : α}
    (rep : LookupFirst key val seen l) (unseen : l.find? (fun b => key b = key a) = none) :
    LookupFirst key val ((key a, val a) :: seen) (l ++ [a]) := by
  intro k
  by_cases same : key a = k
  · subst same
    rw [find?_append, unseen]
    simp [lookup]
  · have other : (k == key a) = false := beq_false_of_ne (Ne.symm same)
    rw [find?_append_singleton_of_ne same, ← rep k]
    simp only [lookup, other]

end LookupFirst

end Soong
