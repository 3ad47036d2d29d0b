import Soong.Go.Filepath
import Soong.Lib.ListOrder

namespace Go.Filepath

section Compose

/-- `Join` and `Rel` over paths that stay inside their directory: relative paths of which `Clean`
keeps no `..`. `Clean` of `a/b` for such a `b` keeps what it keeps of `a` and then the elements of
`b`; so `Join` of such parts is such a path, and `Rel` from any directory to it joined below the
directory walks past the directory's elements and returns it cleaned.

A relative path of which `Clean` keeps no `..`. -/
def Inward (path : List Char) : Prop := path.head? ≠ some '/' ∧ ['.', '.'] ∉ cleanElems path

/-- Once on the stack of kept elements, a `..` stays there. -/
theorem dots_mem_cleanStep (rooted : Bool) {kept : List (List Char)} (e : List Char) (mem : ['.', '.'] ∈ kept) :
    ['.', '.'] ∈ cleanStep rooted kept e := by
  cases kept with
  | nil => exact absurd mem List.not_mem_nil
  | cons top rest =>
    by_cases skipped : e = [] ∨ e = ['.']
    · rw [cleanStep, if_pos skipped]
      exact mem
    by_cases dots : e = ['.', '.']
    · rw [cleanStep, if_neg skipped, if_pos dots]
      by_cases topDots : top = ['.', '.']
      · rw [if_pos topDots]
        exact List.mem_cons_of_mem _ mem
      · -- the top is not `..`, so the `..` lies below it
        rw [if_neg topDots]
        rcases List.mem_cons.mp mem with same | below
        · exact absurd same.symm topDots
        · exact below
    · rw [cleanStep, if_neg skipped, if_neg dots]
      exact List.mem_cons_of_mem _ mem

theorem dots_mem_foldl_cleanStep (rooted : Bool) (segs : List (List Char)) :
    ∀ {kept : List (List Char)}, ['.', '.'] ∈ kept → ['.', '.'] ∈ segs.foldl (cleanStep rooted) kept := by
  induction segs with
  | nil => exact fun mem => mem
  | cons s segs ih => exact fun mem => ih (dots_mem_cleanStep rooted s mem)

/-- An element that leaves no `..` on a stack acts on it alone, whatever lies below the stack and
whether the path is rooted. -/
theorem cleanStep_append (rooted : Bool) {done : List (List Char)} (kept : List (List Char)) (e : List Char)
    (noDots : ['.', '.'] ∉ cleanStep false done e) :
    cleanStep rooted (done ++ kept) e = cleanStep false done e ++ kept := by
  by_cases skipped : e = [] ∨ e = ['.']
  · simp only [cleanStep, if_pos skipped]
  by_cases dots : e = ['.', '.']
  · -- a `..` pops the top of `done`, which is there and is not `..`
    cases done with
    | nil => exact absurd (by simp [cleanStep, dots]) noDots
    | cons top rest =>
      by_cases topDots : top = ['.', '.']
      · exact absurd (by simp [cleanStep, dots, topDots]) noDots
      · simp [cleanStep, dots, topDots]
  · simp only [cleanStep, if_neg skipped, if_neg dots, List.cons_append]

theorem foldl_cleanStep_append (rooted : Bool) (kept : List (List Char)) :
    ∀ (segs done : List (List Char)), ['.', '.'] ∉ segs.foldl (cleanStep false) done →
      segs.foldl (cleanStep rooted) (done ++ kept) = segs.foldl (cleanStep false) done ++ kept
  | [], _, _ => rfl
  | s :: segs, done, noDots => by
    have stepNoDots : ['.', '.'] ∉ cleanStep false done s := fun mem =>
      noDots (dots_mem_foldl_cleanStep false segs mem)
    rw [List.foldl_cons, List.foldl_cons, cleanStep_append rooted kept s stepNoDots]
    exact foldl_cleanStep_append rooted kept segs _ noDots

/-- `Clean` of `a/b` for an inward `b`: what it keeps of `a`, then what it keeps of `b`. -/
theorem cleanElems_append_inward {a b : List Char} (nonempty : a ≠ []) (inward : Inward b) :
    cleanElems (a ++ '/' :: b) = cleanElems a ++ cleanElems b := by
  obtain ⟨relative, noDots⟩ := inward
  have start : (a ++ '/' :: b).head? = a.head? := List.head?_append_of_ne_nil _ nonempty
  have unrooted : ['.', '.'] ∉ (b.splitOn '/').foldl (cleanStep false) [] := by
    rw [cleanElems, List.mem_reverse, decide_eq_false relative] at noDots
    exact noDots
  have onTop := foldl_cleanStep_append (decide (a.head? = some '/'))
    ((a.splitOn '/').foldl (cleanStep (decide (a.head? = some '/'))) []) (b.splitOn '/') [] unrooted
  rw [List.nil_append] at onTop
  unfold cleanElems
  rw [start, List.splitOn_append_cons_self, List.foldl_append, onTop, List.reverse_append, decide_eq_false relative]

/-- What `Clean` keeps is `..` or a proper element. -/
theorem proper_of_mem_cleanElems {path e : List Char} (mem : e ∈ cleanElems path) (notDots : e ≠ ['.', '.']) :
    ProperElem e := by
  obtain ⟨k, rest, split, proper, -⟩ := normal_cleanElems path
  rw [split] at mem
  rcases List.mem_append.mp mem with dots | kept
  · exact absurd (List.eq_of_mem_replicate dots) notDots
  · exact proper e kept

theorem cleanElems_intercalate_proper {elems : List (List Char)} (proper : ∀ e ∈ elems, ProperElem e) :
    cleanElems (List.intercalate ['/'] elems) = elems := by
  cases elems with
  | nil => rfl
  | cons e rest =>
    unfold cleanElems
    rw [List.splitOn_intercalate '/' (fun x mem => (proper x mem).2.2.2) (List.cons_ne_nil _ _),
      foldl_cleanStep_proper [] proper, List.append_nil, List.reverse_reverse]

/-- Inward parts joined after a nonempty first part: `Clean` keeps the elements of each in turn. -/
theorem cleanElems_intercalate_inward {first : List Char} (nonempty : first ≠ []) (rest : List (List Char))
    (inward : ∀ b ∈ rest, Inward b) :
    cleanElems (List.intercalate ['/'] (first :: rest)) = cleanElems first ++ rest.flatMap cleanElems := by
  induction rest using List.reverseRecOn with
  | nil => simp
  | append_singleton rest b ih =>
    have front : List.intercalate ['/'] (first :: rest) ≠ [] := by
      intro empty
      have head := @head?_intercalate first rest nonempty
      rw [empty, List.head?_nil] at head
      exact nonempty (List.head?_eq_none_iff.mp head.symm)
    rw [← List.cons_append, List.intercalate_append_of_ne_nil _ (List.cons_ne_nil _ _) (List.cons_ne_nil b []),
      List.intercalate_singleton, List.append_assoc, List.singleton_append,
      cleanElems_append_inward front (inward b (by simp)), ih fun c mem => inward c (by simp [mem]),
      List.flatMap_append, List.flatMap_singleton, List.append_assoc]

end Compose

section Relative

theorem head?_cleanChars (path : List Char) : (cleanChars path).head? = some '/' ↔ path.head? = some '/' := by
  rw [cleanChars_eq]
  by_cases rooted : path.head? = some '/'
  · simp [rooted]
  · rw [if_neg rooted, iff_false_intro rooted, iff_false]
    split_ifs with nothing
    · simp
    · -- the first kept element is not empty and has no separator
      obtain ⟨e, rest, first⟩ := List.exists_cons_of_ne_nil nothing
      have mem : e ∈ cleanElems path := first ▸ List.mem_cons_self
      obtain ⟨c, cs, rfl⟩ := List.exists_cons_of_ne_nil (ne_nil_of_mem_cleanElems mem)
      rw [first, head?_intercalate (List.cons_ne_nil c cs), List.head?_cons, Option.some.injEq]
      intro sep
      exact noSep_of_mem_cleanElems mem (sep ▸ List.mem_cons_self)

/-- Joined elements of which the first is `..`: the path `..`, or one that starts with `../`. -/
theorem intercalate_dots_cons (more : List (List Char)) :
    List.intercalate ['/'] (['.', '.'] :: more) = ['.', '.'] ∨
      ['.', '.', '/'] <+: List.intercalate ['/'] (['.', '.'] :: more) := by
  cases more with
  | nil => exact .inl rfl
  | cons next more =>
    rw [List.intercalate_cons_cons]
    exact .inr ⟨List.intercalate ['/'] (next :: more), by simp⟩

/-- Joined proper elements neither are `..` nor start with `../`. -/
theorem not_dots_intercalate_proper {elems : List (List Char)} (proper : ∀ e ∈ elems, ProperElem e) :
    List.intercalate ['/'] elems ≠ ['.', '.'] ∧ ¬['.', '.', '/'] <+: List.intercalate ['/'] elems := by
  have split : ∀ {x : List Char}, List.intercalate ['/'] elems = x → elems ≠ [] → x.splitOn '/' = elems :=
    fun same nonempty => same ▸ List.splitOn_intercalate '/' (fun e mem => (proper e mem).2.2.2) nonempty
  have notDots : ['.', '.'] ∉ elems := fun mem => (proper _ mem).2.2.1 rfl
  refine ⟨fun same => ?_, fun ⟨t, start⟩ => ?_⟩
  · cases elems with
    | nil => cases same
    | cons e rest =>
      have parts := split same (List.cons_ne_nil e rest)
      rw [List.splitOn_eq_singleton (by decide)] at parts
      exact notDots (parts ▸ List.mem_singleton_self _)
  · cases elems with
    | nil => simp at start
    | cons e rest =>
      have parts := split start.symm (List.cons_ne_nil e rest)
      rw [show ['.', '.', '/'] ++ t = ['.', '.'] ++ '/' :: t from rfl,
        List.splitOn_append_cons_self_of_not_mem (by decide)] at parts
      exact notDots (parts ▸ List.mem_cons_self)

/-- A path is inward exactly when its cleaned form is not `..`, does not start with `../` and is not
rooted. -/
theorem inward_iff (path : List Char) :
    Inward path ↔ cleanChars path ≠ ['.', '.'] ∧ ¬['.', '.', '/'] <+: cleanChars path ∧ ¬['/'] <+: cleanChars path := by
  constructor
  · rintro ⟨relative, noDots⟩
    have proper : ∀ e ∈ cleanElems path, ProperElem e := fun e mem =>
      proper_of_mem_cleanElems mem (fun same => noDots (same ▸ mem))
    have notRoot : ¬['/'] <+: cleanChars path := fun ⟨t, start⟩ =>
      relative ((head?_cleanChars path).mp (by rw [← start]; rfl))
    rw [cleanChars_eq, if_neg relative] at notRoot ⊢
    split_ifs at notRoot ⊢
    · exact ⟨by decide, by decide, by decide⟩
    · exact ⟨(not_dots_intercalate_proper proper).1, (not_dots_intercalate_proper proper).2, notRoot⟩
  · rintro ⟨notUp, notUpPrefix, notRoot⟩
    have relative : path.head? ≠ some '/' := fun rooted =>
      notRoot (by rw [cleanChars_eq, if_pos rooted]; exact ⟨_, rfl⟩)
    refine ⟨relative, fun mem => ?_⟩
    -- a kept `..` comes first, and then the cleaned path is `..` or starts with `../`
    obtain ⟨k, rest, split, proper, -⟩ := normal_cleanElems path
    obtain ⟨k, rfl⟩ : ∃ j, k = j + 1 := by
      cases k with
      | zero =>
        rw [split, List.replicate_zero, List.nil_append] at mem
        exact absurd rfl (proper _ mem).2.2.1
      | succ j => exact ⟨j, rfl⟩
    have kept : cleanElems path = ['.', '.'] :: (List.replicate k ['.', '.'] ++ rest) := by
      rw [split, List.replicate_succ, List.cons_append]
    rw [cleanChars_eq, if_neg relative, kept, if_neg (List.cons_ne_nil _ _)] at notUp notUpPrefix
    rcases intercalate_dots_cons (List.replicate k ['.', '.'] ++ rest) with same | start
    · exact notUp same
    · exact notUpPrefix start

/-- `Join` of inward parts: empty when every part is, and otherwise an inward clean path. -/
theorem join_inward : ∀ {elems : List String}, (∀ c ∈ elems, Inward c.toList) →
    (join elems = "" ∧ ∀ c ∈ elems, c = "") ∨
      (join elems ≠ "" ∧ clean (join elems) = join elems ∧ Inward (join elems).toList)
  | [], _ => .inl ⟨rfl, by simp⟩
  | c :: cs, inward => by
    have rest := @join_inward cs fun d mem => inward d (List.mem_cons_of_mem c mem)
    by_cases empty : c = ""
    · rw [join, if_pos empty]
      rcases rest with ⟨joined, others⟩ | kept
      · exact .inl ⟨joined, fun d mem => (List.mem_cons.mp mem).elim (· ▸ empty) (others d)⟩
      · exact .inr kept
    · -- from the first part that is not empty, `Join` cleans the parts joined
      have nonempty : c.toList ≠ [] := fun chars => empty (String.toList_inj.mp chars)
      have parts : (String.intercalate "/" (c :: cs)).toList =
          List.intercalate ['/'] (c.toList :: cs.map String.toList) := by
        have slash : "/".toList = ['/'] := by decide
        rw [String.toList_intercalate, List.map_cons, slash]
      have relative : (List.intercalate ['/'] (c.toList :: cs.map String.toList)).head? ≠ some '/' := by
        rw [head?_intercalate nonempty]
        exact (inward c List.mem_cons_self).1
      have kept := cleanElems_intercalate_inward nonempty (cs.map String.toList)
        (fun d mem => by
          obtain ⟨e, member, rfl⟩ := List.mem_map.mp mem
          exact inward e (List.mem_cons_of_mem c member))
      have noDots : ['.', '.'] ∉ cleanElems (List.intercalate ['/'] (c.toList :: cs.map String.toList)) := by
        rw [kept, List.mem_append, List.mem_flatMap, not_or]
        refine ⟨(inward c List.mem_cons_self).2, ?_⟩
        rintro ⟨d, member, dots⟩
        obtain ⟨e, inCs, rfl⟩ := List.mem_map.mp member
        exact (inward e (List.mem_cons_of_mem c inCs)).2 dots
      refine .inr ⟨?_, clean_join_cons cs empty, ?_⟩
      · rw [join, if_neg empty]
        intro cleared
        have chars := congrArg String.toList cleared
        rw [clean, String.toList_ofList] at chars
        exact cleanChars_ne_nil _ chars
      · rw [join, if_neg empty, clean, String.toList_ofList, parts]
        refine ⟨fun rooted => relative ((head?_cleanChars _).mp rooted), fun dots => noDots ?_⟩
        rw [cleanChars_eq, if_neg relative] at dots
        split_ifs at dots with nothing
        · exact absurd dots (by decide)
        · have proper : ∀ e ∈ cleanElems (List.intercalate ['/'] (c.toList :: cs.map String.toList)), ProperElem e :=
            fun e mem => proper_of_mem_cleanElems mem (fun same => noDots (same ▸ mem))
          rwa [cleanElems_intercalate_proper proper] at dots

end Relative

section Rel

theorem takeWhile_ne_nil {R : List Char} (more : R ≠ []) (relative : R.head? ≠ some '/') :
    R.takeWhile (· ≠ '/') ≠ [] := by
  obtain ⟨c, cs, rfl⟩ := List.exists_cons_of_ne_nil more
  have notSep : c ≠ '/' := fun same => relative (by rw [same]; rfl)
  simp [notSep]

theorem takeWhile_append_sep (xs rest : List Char) :
    (xs ++ '/' :: rest).takeWhile (· ≠ '/') = xs.takeWhile (· ≠ '/') := by
  induction xs with
  | nil => simp
  | cons x xs ih =>
    by_cases sep : x = '/'
    · rw [List.cons_append, List.takeWhile_cons_of_neg (by simp [sep]), List.takeWhile_cons_of_neg (by simp [sep])]
    · rw [List.cons_append, List.takeWhile_cons_of_pos (by simpa using sep),
        List.takeWhile_cons_of_pos (by simpa using sep), ih]

/-- The loop stops where the base has no element left and the target has one. -/
theorem relLoop_stop {base targ : List Char} {b0 t0 : Nat} (fuel : Nat) (baseDone : b0 = base.length)
    (targWord : (targ.drop t0).takeWhile (· ≠ '/') ≠ []) :
    relLoop base targ (fuel + 1) b0 t0 = some (b0, b0, t0, elemEnd targ t0) := by
  have noWord : elemEnd base b0 = b0 := by
    rw [elemEnd, baseDone, List.drop_length, List.takeWhile_nil, List.length_nil, Nat.add_zero]
  have word : (targ.drop t0).take (elemEnd targ t0 - t0) = (targ.drop t0).takeWhile (· ≠ '/') := by
    rw [elemEnd, Nat.add_sub_cancel_left]
    exact (List.prefix_iff_eq_take.mp (List.takeWhile_prefix _)).symm
  rw [relLoop]
  simp only [noWord, Nat.sub_self, List.take_zero, word]
  rw [if_pos targWord]

/-- From an element start `b0` of `base`, the loop walks along `base` and `base/rest` in step and
stops right after the separator. -/
theorem relLoop_walk {base rest : List Char} (more : rest ≠ []) (relative : rest.head? ≠ some '/') :
    ∀ fuel b0, b0 ≤ base.length → base.length - b0 + 2 ≤ fuel →
      relLoop base (base ++ '/' :: rest) fuel b0 b0 =
        some (base.length, base.length, base.length + 1, elemEnd (base ++ '/' :: rest) (base.length + 1))
  | 0, _, _, enough => by omega
  | fuel + 1, b0, within, enough => by
    have targTail : (base ++ '/' :: rest).drop b0 = base.drop b0 ++ '/' :: rest :=
      List.drop_append_of_le_length within
    -- the element at `b0` ends at the same place in both
    have sameEnd : elemEnd (base ++ '/' :: rest) b0 = elemEnd base b0 := by
      rw [elemEnd, elemEnd, targTail, takeWhile_append_sep]
    have endWithin : b0 ≤ elemEnd base b0 ∧ elemEnd base b0 ≤ base.length := by
      have short := (List.takeWhile_prefix (· ≠ '/') (l := base.drop b0)).length_le
      rw [List.length_drop] at short
      rw [elemEnd]
      omega
    have word : ((base ++ '/' :: rest).drop b0).take (elemEnd base b0 - b0) =
        (base.drop b0).take (elemEnd base b0 - b0) := by
      rw [targTail, List.take_append_of_le_length (by rw [List.length_drop]; omega)]
    have targLonger : elemEnd base b0 < (base ++ '/' :: rest).length := by
      rw [List.length_append, List.length_cons]
      omega
    rw [relLoop, sameEnd, if_neg (not_not.mpr word), if_pos targLonger]
    by_cases inside : elemEnd base b0 < base.length
    · rw [if_pos inside]
      exact relLoop_walk more relative fuel (elemEnd base b0 + 1) (by omega) (by omega)
    · -- the base's last element: the next round is past it
      have atEnd : elemEnd base b0 = base.length := by omega
      have past : (base ++ '/' :: rest).drop (base.length + 1) = rest := by
        rw [← List.drop_drop, List.drop_left]
        rfl
      rw [if_neg inside, atEnd]
      obtain ⟨fuel, rfl⟩ : ∃ f, fuel = f + 1 := ⟨fuel - 1, by omega⟩
      exact relLoop_stop fuel rfl (by rw [past]; exact takeWhile_ne_nil more relative)

/-- `Rel` where the loop stops at the end of the base: what follows in the target. -/
theorem rel_of_relLoop {basepath targpath : String} {base targ : List Char} {t0 ti : Nat}
    (targChars : (clean targpath).toList = targ) (differ : targ ≠ (clean basepath).toList)
    (baseChars : (if (clean basepath).toList = ['.'] then [] else (clean basepath).toList) = base)
    (sameRoot : (targ.head? = some '/') = (base.head? = some '/'))
    (loop : relLoop base targ (base.length + targ.length + 1) 0 0 = some (base.length, base.length, t0, ti)) :
    rel basepath targpath = .ok (String.ofList (targ.drop t0)) := by
  unfold rel
  simp only [targChars]
  rw [if_neg differ, baseChars, if_neg (fun differs => differs sameRoot.symm), loop]
  simp

theorem rel_self {basepath targpath : String} (same : (clean targpath).toList = (clean basepath).toList) :
    rel basepath targpath = .ok "." := by
  unfold rel
  simp only [same, if_true]

/-- `Rel` from `.` to a relative path that starts with an element: the path. -/
theorem rel_from_dot {basepath targpath : String} {R : List Char} (baseDot : (clean basepath).toList = ['.'])
    (targChars : (clean targpath).toList = R) (notDot : R ≠ ['.']) (more : R ≠ [])
    (relative : R.head? ≠ some '/') : rel basepath targpath = .ok (String.ofList R) := by
  have loop : relLoop [] R (([] : List Char).length + R.length + 1) 0 0 =
      some (([] : List Char).length, ([] : List Char).length, 0, elemEnd R 0) :=
    relLoop_stop _ rfl (by rw [List.drop_zero]; exact takeWhile_ne_nil more relative)
  have result := rel_of_relLoop targChars (by rw [baseDot]; exact notDot) (by rw [baseDot, if_pos rfl])
    (by simp [relative]) loop
  rwa [List.drop_zero] at result

/-- `Rel` from `/` to a path below it. -/
theorem rel_from_root {basepath targpath : String} {R : List Char} (baseRoot : (clean basepath).toList = ['/'])
    (targChars : (clean targpath).toList = '/' :: R) (more : R ≠ []) (relative : R.head? ≠ some '/') :
    rel basepath targpath = .ok (String.ofList R) := by
  -- the empty element before the root matches, and the loop stops after it
  have loop : relLoop ['/'] ('/' :: R) (['/'].length + ('/' :: R).length + 1) 0 0 =
      some (['/'].length, ['/'].length, 1, elemEnd ('/' :: R) 1) := by
    rw [show ['/'].length + ('/' :: R).length + 1 = (R.length + 2) + 1 by
      simp only [List.length_cons, List.length_nil]; omega, relLoop]
    have first : elemEnd ['/'] 0 = 0 ∧ elemEnd ('/' :: R) 0 = 0 := by simp [elemEnd]
    simp only [first.1, first.2, Nat.sub_self, List.take_zero, ne_eq, not_true_eq_false, if_false]
    rw [if_pos (by simp), if_pos (by simp)]
    exact relLoop_stop _ rfl (by simpa using takeWhile_ne_nil more relative)
  have sameRoot : (('/' :: R).head? = some '/') = (['/'].head? = some '/') := rfl
  have result := rel_of_relLoop targChars (by rw [baseRoot]; simp [more]) (by rw [baseRoot]; rfl) sameRoot loop
  rwa [List.drop_one, List.tail_cons] at result

/-- `Rel` from a directory other than `.` to a path below it: the rest of the path. -/
theorem rel_below {basepath targpath : String} {X R : List Char} (baseChars : (clean basepath).toList = X)
    (nonempty : X ≠ []) (notDot : X ≠ ['.']) (targChars : (clean targpath).toList = X ++ '/' :: R)
    (more : R ≠ []) (relative : R.head? ≠ some '/') : rel basepath targpath = .ok (String.ofList R) := by
  have differ : X ++ '/' :: R ≠ X := fun same => by
    have lengths := congrArg List.length same
    simp at lengths
  have loop := @relLoop_walk X R more relative (X.length + (X ++ '/' :: R).length + 1) 0 (Nat.zero_le _)
    (by simp only [List.length_append, List.length_cons]; omega)
  have past : (X ++ '/' :: R).drop (X.length + 1) = R := by
    rw [← List.drop_drop, List.drop_left]
    rfl
  have result := rel_of_relLoop targChars (by rw [baseChars]; exact differ) (by rw [baseChars, if_neg notDot])
    (by rw [List.head?_append_of_ne_nil _ nonempty]) loop
  rwa [past] at result

theorem intercalate_cleanElems_ne_dot (path : List Char) : List.intercalate ['/'] (cleanElems path) ≠ ['.'] := by
  intro same
  by_cases nothing : cleanElems path = []
  · rw [nothing] at same
    cases same
  -- splitting the path back gives `.` as a kept element, which `Clean` never keeps
  have parts := List.splitOn_intercalate '/' (fun e mem => noSep_of_mem_cleanElems mem) nothing
  rw [same, List.splitOn_eq_singleton (by decide)] at parts
  have mem : ['.'] ∈ cleanElems path := parts ▸ List.mem_singleton_self _
  exact (proper_of_mem_cleanElems mem (by decide)).2.1 rfl

/-- `Clean` of `a/b` for an inward `b` that keeps an element, by what `Clean` keeps of `a`: after
`.` just `b`, after the root `/b`, and otherwise `a/b`. -/
theorem cleanChars_append_inward {a b : List Char} (nonempty : a ≠ []) (inward : Inward b)
    (kept : cleanElems b ≠ []) :
    (cleanChars a = ['.'] ∧ cleanChars (a ++ '/' :: b) = cleanChars b) ∨
      (cleanChars a = ['/'] ∧ cleanChars (a ++ '/' :: b) = '/' :: cleanChars b) ∨
      (cleanChars a ≠ ['.'] ∧ cleanChars (a ++ '/' :: b) = cleanChars a ++ '/' :: cleanChars b) := by
  have start : (a ++ '/' :: b).head? = a.head? := List.head?_append_of_ne_nil _ nonempty
  have cleanB : cleanChars b = List.intercalate ['/'] (cleanElems b) := by
    rw [cleanChars_eq, if_neg inward.1, if_neg kept]
  have both : cleanElems a ++ cleanElems b ≠ [] := fun empty => kept (List.append_eq_nil_iff.mp empty).2
  rw [cleanChars_eq (a ++ '/' :: b), start, cleanElems_append_inward nonempty inward, cleanB, cleanChars_eq a]
  by_cases noA : cleanElems a = []
  · by_cases rooted : a.head? = some '/'
    · exact .inr (.inl ⟨by simp [rooted, noA], by simp [rooted, noA]⟩)
    · exact .inl ⟨by simp [rooted, noA], by simp [rooted, noA, kept]⟩
  · -- both keep elements: the joined elements are those of `a`, a separator, those of `b`
    have joined := List.intercalate_append_of_ne_nil ['/'] noA kept
    refine .inr (.inr ⟨?_, ?_⟩)
    · split_ifs
      · simp
      · exact intercalate_cleanElems_ne_dot a
    · split_ifs <;> simp [joined]

/-- `Clean` of `a/b` for an inward `b` that keeps nothing: `Clean` of `a`. -/
theorem cleanChars_append_of_nil {a b : List Char} (nonempty : a ≠ []) (inward : Inward b)
    (nothing : cleanElems b = []) : cleanChars (a ++ '/' :: b) = cleanChars a := by
  rw [cleanChars_eq, cleanChars_eq a, List.head?_append_of_ne_nil _ nonempty,
    cleanElems_append_inward nonempty inward, nothing, List.append_nil]

theorem toList_clean (path : String) : (clean path).toList = cleanChars path.toList := String.toList_ofList

theorem join_pair {b : String} (r : String) (nonempty : b ≠ "") :
    (join [b, r]).toList = cleanChars (b.toList ++ '/' :: r.toList) := by
  have slash : "/".toList = ['/'] := by decide
  rw [join, if_neg nonempty, clean, String.intercalate_cons_cons, String.intercalate_singleton, String.toList_ofList,
    String.toList_append, String.toList_append, slash, List.append_assoc, List.singleton_append]

theorem clean_join_empty_left (r : String) : clean (join ["", r]) = clean r := by
  rw [join, if_pos rfl]
  by_cases empty : r = ""
  · rw [empty, join, if_pos rfl, join]
  · rw [join, if_neg empty, String.intercalate_singleton, clean_clean]

/-- `Rel` from any directory to an inward path joined below it: the path, cleaned. -/
theorem rel_join_inward (b : String) {r : String} (inward : Inward r.toList) :
    rel b (join [b, r]) = .ok (clean r) := by
  have emptyDot : (clean "").toList = ['.'] := by decide
  by_cases nothing : cleanElems r.toList = []
  · -- `r` cleans to `.`, and the target to the directory itself
    have dot : clean r = "." := by
      rw [← String.toList_inj, toList_clean, cleanChars_eq, if_neg inward.1, if_pos nothing]
      rfl
    rw [dot]
    apply rel_self
    by_cases empty : b = ""
    · rw [empty, clean_join_empty_left, dot, emptyDot]
      rfl
    · have nonempty : b.toList ≠ [] := fun chars => empty (String.toList_inj.mp chars)
      rw [clean_join_cons [r] empty, join_pair r empty, cleanChars_append_of_nil nonempty inward nothing,
        toList_clean]
  · have more := cleanChars_ne_nil r.toList
    have relative : (cleanChars r.toList).head? ≠ some '/' := fun rooted =>
      inward.1 ((head?_cleanChars _).mp rooted)
    have notDot : cleanChars r.toList ≠ ['.'] := by
      rw [cleanChars_eq, if_neg inward.1, if_neg nothing]
      exact intercalate_cleanElems_ne_dot _
    by_cases empty : b = ""
    · rw [empty]
      exact rel_from_dot emptyDot (by rw [clean_join_empty_left, toList_clean]) notDot more relative
    · have nonempty : b.toList ≠ [] := fun chars => empty (String.toList_inj.mp chars)
      have targ : (clean (join [b, r])).toList = cleanChars (b.toList ++ '/' :: r.toList) := by
        rw [clean_join_cons [r] empty, join_pair r empty]
      rcases cleanChars_append_inward nonempty inward nothing with ⟨baseDot, same⟩ | ⟨baseRoot, below⟩ |
        ⟨notDotB, below⟩
      · exact rel_from_dot (by rw [toList_clean, baseDot]) (by rw [targ, same]) notDot more relative
      · exact rel_from_root (by rw [toList_clean, baseRoot]) (by rw [targ, below]) more relative
      · exact rel_below (toList_clean b) (cleanChars_ne_nil _) notDotB (by rw [targ, below]) more
          relative

theorem inward_nil : Inward [] := ⟨nofun, by decide⟩

/-- A clean inward path has no `..` element. -/
theorem dots_not_mem_splitOn {r : String} (cleaned : clean r = r) (inward : Inward r.toList) :
    ['.', '.'] ∉ r.toList.splitOn '/' := by
  have chars : cleanChars r.toList = r.toList := by rw [← toList_clean, cleaned]
  rw [← chars, cleanChars_eq, if_neg inward.1]
  split_ifs with nothing
  · decide
  · rw [List.splitOn_intercalate '/' (fun e mem => noSep_of_mem_cleanElems mem) nothing]
    exact inward.2

/-- An inward path joined below a directory is rooted exactly when the directory is. -/
theorem isAbs_join_inward (b : String) {r : String} (inward : Inward r.toList) :
    isAbs (join [b, r]) = isAbs b := by
  unfold isAbs
  by_cases empty : b = ""
  · rw [empty, join, if_pos rfl, join]
    by_cases nothing : r = ""
    · rw [if_pos nothing, join]
    · rw [if_neg nothing, String.intercalate_singleton, toList_clean, decide_eq_decide, head?_cleanChars]
      refine ⟨fun rooted => absurd rooted inward.1, ?_⟩
      intro rooted
      cases rooted
  · have nonempty : b.toList ≠ [] := fun chars => empty (String.toList_inj.mp chars)
    rw [join_pair r empty, decide_eq_decide, head?_cleanChars, List.head?_append_of_ne_nil _ nonempty]

end Rel

end Go.Filepath
