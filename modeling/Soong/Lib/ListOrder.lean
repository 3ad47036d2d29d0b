import Mathlib

namespace List

variable {α : Type}

theorem exists_split_last {x : α} {l : List α} (present : x ∈ l) :
    ∃ front back, l = front ++ x :: back ∧ x ∉ back := by
  induction l with
  | nil => simp at present
  | cons head tail ih =>
    by_cases later : x ∈ tail
    · obtain ⟨front, back, split, last⟩ := ih later
      exact ⟨head :: front, back, by simp [split], last⟩
    · have same : x = head := by simpa [later] using present
      exact ⟨[], tail, by simp [same], later⟩

/-- Joining two nonempty runs of parts is joining each and putting the separator between. -/
theorem intercalate_append_of_ne_nil (sep : List α) {front back : List (List α)} (hasFront : front ≠ [])
    (hasBack : back ≠ []) : sep.intercalate (front ++ back) = sep.intercalate front ++ sep ++ sep.intercalate back := by
  induction front with
  | nil => exact absurd rfl hasFront
  | cons line front ih =>
    cases front with
    | nil => rw [singleton_append, intercalate_cons_of_ne_nil hasBack, intercalate_singleton]
    | cons next front =>
      rw [cons_append, cons_append, intercalate_cons_cons, ← cons_append, ih (cons_ne_nil _ _),
        intercalate_cons_cons]
      simp only [append_assoc]

/-- Zipping a list with its own image pairs each element with its value. -/
theorem mem_zip_map_self {β : Type} {l : List α} {f : α → β} {p : α × β} (mem : p ∈ l.zip (l.map f)) :
    p.1 ∈ l ∧ p.2 = f p.1 := by
  nth_rewrite 1 [← map_id l] at mem
  rw [zip_map'] at mem
  obtain ⟨a, inside, rfl⟩ := mem_map.mp mem
  exact ⟨inside, rfl⟩

/-- `mapM` in `Option` succeeds when it succeeds on every element. -/
theorem exists_mapM_eq_some {β : Type} {f : α → Option β} :
    ∀ {l : List α}, (∀ a ∈ l, ∃ b, f a = some b) → ∃ bs, l.mapM f = some bs
  | [], _ => ⟨[], rfl⟩
  | a :: l, each => by
    obtain ⟨b, made⟩ := each a mem_cons_self
    obtain ⟨bs, rest⟩ := exists_mapM_eq_some fun x mem => each x (mem_cons_of_mem a mem)
    exact ⟨b :: bs, by rw [mapM_cons, made, rest]; rfl⟩

section Lex

variable [LT α]

/-- A list above `pre` that does not start with it is above every list that does: in
lexicographic order the lists with a given prefix form one run. -/
theorem lt_of_prefix_of_lt {pre x y : List α} (above : pre < x) (other : ¬pre <+: x) (start : pre <+: y) :
    y < x := by
  induction pre generalizing x y with
  | nil => exact absurd nil_prefix other
  | cons a pre ih =>
    cases x with
    | nil => exact absurd above (not_lt_nil _)
    | cons b x =>
      cases y with
      | nil => exact absurd (prefix_nil.mp start) (cons_ne_nil _ _)
      | cons c y =>
        obtain ⟨rfl, startRest⟩ := cons_prefix_cons.mp start
        rcases cons_lt_cons_iff.mp above with first | ⟨rfl, rest⟩
        · exact cons_lt_cons_iff.mpr (.inl first)
        · have otherRest : ¬pre <+: x := fun more => other (cons_prefix_cons.mpr ⟨rfl, more⟩)
          exact cons_lt_cons_iff.mpr (.inr ⟨rfl, ih rest otherRest startRest⟩)

theorem lt_append_of_ne_nil (pre : List α) {rest : List α} (more : rest ≠ []) : pre < pre ++ rest := by
  induction pre with
  | nil =>
    obtain ⟨b, rest, rfl⟩ := exists_cons_of_ne_nil more
    exact nil_lt_cons b rest
  | cons a pre ih => exact cons_lt_cons_iff.mpr (.inr ⟨rfl, ih⟩)

/-- A list that starts with `pre` is above it exactly when it is longer. -/
theorem lt_of_prefix_of_ne {pre x : List α} (start : pre <+: x) (longer : pre ≠ x) : pre < x := by
  obtain ⟨rest, rfl⟩ := start
  exact lt_append_of_ne_nil pre (fun empty => longer (by rw [empty, append_nil]))

end Lex

variable [DecidableEq α]

/-- The elements before the first `stop`, when `stop` comes right after `k`. -/
theorem takeWhile_append_stop {stop : α} {k s : List α} (before : stop ∉ k) (stops : ∀ c ∈ s.head?, c = stop) :
    (k ++ s).takeWhile (· ≠ stop) = k := by
  have kept : ∀ c ∈ k, decide (c ≠ stop) = true := by
    intro c mem
    rw [decide_eq_true_iff]
    rintro rfl
    exact before mem
  rw [takeWhile_append_of_pos kept]
  cases s with
  | nil => simp
  | cons c s => simp [stops c rfl]

theorem dedup_append_singleton (l : List α) (x : α) :
    (l ++ [x]).dedup = (l.filter (· ≠ x)).dedup ++ [x] := by
  induction l with
  | nil => simp
  | cons head tail ih =>
    by_cases later : head ∈ tail ++ [x]
    · rw [cons_append, dedup_cons_of_mem later, ih]
      by_cases same : head = x
      · simp [same]
      · have kept : head ∈ tail.filter (· ≠ x) := by
          simp only [mem_append, mem_singleton, same, or_false] at later
          simpa [same] using later
        rw [filter_cons_of_pos (by simpa using same), dedup_cons_of_mem kept]
    · simp only [mem_append, mem_singleton, not_or] at later
      have dropped : head ∉ tail.filter (· ≠ x) := by simp [later.1]
      rw [cons_append, dedup_cons_of_notMem (by simpa using later), ih]
      rw [filter_cons_of_pos (by simpa using later.2), dedup_cons_of_notMem dropped, cons_append]

end List

namespace Soong

open List

variable {α : Type}

/-- Every occurrence of `x` in `l` has an occurrence of `y` somewhere after it. -/
def Follows (x y : α) (l : List α) : Prop :=
  ∀ front back, l = front ++ x :: back → y ∈ back

theorem Follows.of_not_mem {x y : α} {l : List α} (absent : x ∉ l) : Follows x y l := by
  intro front back split
  exact absurd (split ▸ mem_append_right front mem_cons_self) absent

theorem Follows.append {x y : α} {l₁ l₂ : List α} (left : Follows x y l₁) (right : Follows x y l₂) :
    Follows x y (l₁ ++ l₂) := by
  intro front back split
  rcases append_eq_append_iff.mp split with ⟨middle, first, rest⟩ | ⟨middle, first, rest⟩
  · exact right middle back rest
  · cases middle with
    | nil => exact right [] back (by simpa using rest.symm)
    | cons head more =>
      obtain ⟨rfl, rfl⟩ := cons_eq_cons.mp rest
      exact mem_append_left _ (left front more first)

theorem Follows.head {x y : α} {l : List α} (fresh : x ∉ l) (later : y ∈ l) :
    Follows x y (x :: l) := by
  intro front back split
  cases front with
  | nil => exact (cons_eq_cons.mp split).2 ▸ later
  | cons first more =>
    have inTail : x ∈ l := (cons_eq_cons.mp split).2 ▸ mem_append_right more mem_cons_self
    exact absurd inTail fresh

theorem Follows.cons {x y a : α} {l : List α} (other : x ≠ a) (rest : Follows x y l) :
    Follows x y (a :: l) := by
  intro front back split
  cases front with
  | nil => exact absurd (cons_eq_cons.mp split).1.symm other
  | cons first more => exact rest more back (cons_eq_cons.mp split).2

theorem Follows.flatMap {β : Type} {x y : α} {f : β → List α} {items : List β}
    (each : ∀ item ∈ items, Follows x y (f item)) : Follows x y (items.flatMap f) := by
  induction items with
  | nil => exact Follows.of_not_mem (by simp)
  | cons item items ih =>
    rw [flatMap_cons]
    exact (each item mem_cons_self).append (ih fun other member => each other (mem_cons_of_mem _ member))

/-- In a duplicate-free list that has `x` before `y`, every occurrence of `x` is followed by `y`. -/
theorem Follows.of_sublist {x y : α} {l : List α} (distinct : l.Nodup) (order : [x, y] <+ l) :
    Follows x y l := by
  induction l with
  | nil => simp at order
  | cons head tail ih =>
    intro front back split
    obtain ⟨fresh, distinctTail⟩ := nodup_cons.mp distinct
    cases front with
    | nil =>
      obtain ⟨rfl, rfl⟩ := cons_eq_cons.mp split
      rcases sublist_cons_iff.mp order with inTail | ⟨rest, same, later⟩
      · exact absurd (inTail.subset mem_cons_self) fresh
      · obtain ⟨-, rfl⟩ := cons_eq_cons.mp same
        exact later.subset mem_cons_self
    | cons first more =>
      obtain ⟨same, layout⟩ := cons_eq_cons.mp split
      subst same
      have other : x ≠ head := by
        rintro rfl
        exact fresh (layout ▸ mem_append_right more mem_cons_self)
      rcases sublist_cons_iff.mp order with inTail | ⟨rest, same, -⟩
      · exact ih distinctTail inTail more back layout
      · exact absurd (cons_eq_cons.mp same).1 other

variable [DecidableEq α]

/-- If every occurrence of `x` is followed by `y`, the last copy of `x` precedes the last copy
of `y`, so `dedup` keeps `x` before `y`. -/
theorem sublist_dedup_of_follows {x y : α} {l : List α} (present : x ∈ l) (order : Follows x y l) :
    [x, y] <+ l.dedup := by
  obtain ⟨front, back, split, last⟩ := exists_split_last present
  have inBack := order front back split
  have tail : x :: back.dedup <:+ l.dedup := by
    rw [split, dedup_append, dedup_cons_of_notMem last]
    exact suffix_union_right front _
  exact (cons_sublist_cons.mpr (singleton_sublist.mpr (mem_dedup.mpr inBack))).trans tail.sublist

section Copies

/-- `l` with every element removed that occurred earlier, the elements of `seen` counting as
earlier ones. -/
def keepFirstCopiesAfter (seen : List α) : List α → List α
  | [] => []
  | x :: xs => (if x ∈ seen then [] else [x]) ++ keepFirstCopiesAfter (seen ++ [x]) xs

/-- `l` with every element removed that occurred earlier in it: the first copy of each stays. -/
def keepFirstCopies (l : List α) : List α := keepFirstCopiesAfter [] l

/-- `l` with every element removed that occurs again later in it: the last copy of each stays. -/
def keepLastCopies : List α → List α
  | [] => []
  | x :: xs => (if x ∈ xs then [] else [x]) ++ keepLastCopies xs

@[simp] theorem keepFirstCopies_nil : keepFirstCopies ([] : List α) = [] := rfl

theorem keepFirstCopiesAfter_append_singleton (xs : List α) (x : α) :
    ∀ seen : List α, keepFirstCopiesAfter seen (xs ++ [x]) =
      keepFirstCopiesAfter seen xs ++ (if x ∈ seen ++ xs then [] else [x]) := by
  induction xs with
  | nil => intro seen; simp [keepFirstCopiesAfter]
  | cons y ys ih =>
    intro seen
    rw [cons_append, keepFirstCopiesAfter, keepFirstCopiesAfter, ih, append_assoc]
    simp

/-- The element after a prefix is kept exactly when the prefix does not hold it. -/
theorem keepFirstCopies_append_singleton (xs : List α) (x : α) :
    keepFirstCopies (xs ++ [x]) = keepFirstCopies xs ++ (if x ∈ xs then [] else [x]) := by
  rw [keepFirstCopies, keepFirstCopiesAfter_append_singleton, nil_append, keepFirstCopies]

@[simp] theorem mem_keepFirstCopies {y : α} {l : List α} : y ∈ keepFirstCopies l ↔ y ∈ l := by
  induction l using reverseRecOn with
  | nil => simp [keepFirstCopies, keepFirstCopiesAfter]
  | append_singleton xs x ih =>
    rw [keepFirstCopies_append_singleton]
    by_cases earlier : x ∈ xs
    · simp only [if_pos earlier, append_nil, ih, mem_append, mem_singleton]
      constructor
      · exact Or.inl
      · rintro (inXs | rfl)
        · exact inXs
        · exact earlier
    · simp [if_neg earlier, ih]

theorem keepLastCopies_eq_dedup (l : List α) : keepLastCopies l = l.dedup := by
  induction l with
  | nil => rfl
  | cons x xs ih =>
    by_cases later : x ∈ xs
    · rw [keepLastCopies, if_pos later, nil_append, ih, dedup_cons_of_mem later]
    · rw [keepLastCopies, if_neg later, ih, dedup_cons_of_notMem later, singleton_append]

/-- Keeping first copies of the reversed list keeps the last copies of `l`, reversed. -/
theorem keepFirstCopies_reverse (l : List α) : keepFirstCopies l.reverse = (keepLastCopies l).reverse := by
  induction l with
  | nil => rfl
  | cons x xs ih =>
    rw [reverse_cons, keepFirstCopies_append_singleton, ih, keepLastCopies, reverse_append]
    by_cases later : x ∈ xs <;> simp [later]

end Copies

end Soong
