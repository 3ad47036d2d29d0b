import Soong.Lib.ListOrder
import Soong.Go.Filepath
import Soong.Go.FilepathJoin
import Soong.Go.Runtime
import Soong.Go.Sort
import Soong.Go.Strings

namespace Soong.Android

variable {α : Type} [DecidableEq α]

/-- The assignment `list[dst] = list[src]` of a Go slice whose indices are in range. -/
def moveElem (list : List α) (src dst : Nat) : List α :=
  match list[src]? with
  | some value => list.set dst value
  | none => list

/-- The inner loop of `LastUniquePaths`: `j` runs down from `i - 1` to `totalSkip`, and `n`
counts the iterations left, so the current index is `totalSkip + n`. -/
def lastUniqueInner (i totalSkip : Nat) : (n skip : Nat) → List α → List α × Nat
  | 0, skip, list => (list, skip)
  | n + 1, skip, list =>
    if list[i]? = list[totalSkip + n]? then
      lastUniqueInner i totalSkip n (skip + 1) list
    else
      lastUniqueInner i totalSkip n skip (moveElem list (totalSkip + n) (totalSkip + n + skip))

/-- The outer loop of `LastUniquePaths`, with `k = i + 1` so that it runs while `i ≥ totalSkip`. -/
def lastUniqueOuter : (k totalSkip : Nat) → List α → List α × Nat
  | 0, totalSkip, list => (list, totalSkip)
  | k + 1, totalSkip, list =>
    if totalSkip ≤ k then
      let (list', skip) := lastUniqueInner k totalSkip (k - totalSkip) 0 list
      lastUniqueOuter k (totalSkip + skip) list'
    else (list, totalSkip)

/-- `LastUniquePaths`: the unique elements of `list`, keeping the last copy of each, computed in
place and returned as the subslice `list[totalSkip:]`. -/
def lastUniquePaths (list : List α) : List α :=
  let (list', totalSkip) := lastUniqueOuter list.length 0 list
  list'.drop totalSkip

/-- The outer loop of `FirstUniquePaths` from index `i`, with `n` rounds left: `list[i]` is copied
down to `list[k]` unless the inner loop finds it among `list[0:k]`. -/
def firstUniqueLoop : (n i k : Nat) → List α → List α × Nat
  | 0, _, k, list => (list, k)
  | n + 1, i, k, list =>
    if (List.range k).any fun j => list[i]? = list[j]? then firstUniqueLoop n (i + 1) k list
    else firstUniqueLoop n (i + 1) (k + 1) (moveElem list i k)

/-- `FirstUniquePaths`: the unique elements of `list`, keeping the first copy of each, computed in
place and returned as the subslice `list[:k]`. -/
def firstUniquePaths (list : List α) : List α :=
  let (list', k) := firstUniqueLoop list.length 0 0 list
  list'.take k

/-- The loop of `indexPathList` from index `i`: the index of the first element equal to `s`,
or `-1`. -/
def indexPathListFrom (s : α) (i : Nat) : List α → Int
  | [] => -1
  | l :: list => if l = s then i else indexPathListFrom s (i + 1) list

def indexPathList (s : α) (list : List α) : Int :=
  indexPathListFrom s 0 list

def inPathList (p : α) (list : List α) : Bool :=
  indexPathList p list ≠ -1

/-- One iteration of the loop of `FilterPathList`, on the pair `(remainder, filtered)`. -/
def filterPathStep (filter : List α) (acc : List α × List α) (l : α) : List α × List α :=
  if inPathList l filter then (acc.1, acc.2 ++ [l]) else (acc.1 ++ [l], acc.2)

/-- `FilterPathList`: splits `list` into the elements not in `filter` and those in it. -/
def filterPathList (list filter : List α) : List α × List α :=
  list.foldl (filterPathStep filter) ([], [])

omit [DecidableEq α] in
theorem set_last_append {v : α} {front rest : List α} (nonempty : front ≠ []) :
    (front ++ rest).set (front.length - 1) v = front.dropLast ++ v :: rest := by
  obtain ⟨init, last, rfl⟩ := (List.eq_nil_or_concat front).resolve_left nonempty
  simp

/-- The layout the inner loop of `LastUniquePaths` keeps: the untouched prefix up to `totalSkip + n`,
`junk` of length `skip`, the elements already scanned that differ from `x`, and the rest from `i`. -/
def InnerLayout (list : List α) (i totalSkip : Nat) (x : α) (n : Nat) (junk cur : List α) : Prop :=
  cur = list.take (totalSkip + n) ++ junk ++ ((list.take i).drop (totalSkip + n)).filter (· ≠ x) ++
      list.drop i ∧
    totalSkip + n + junk.length + (((list.take i).drop (totalSkip + n)).filter (· ≠ x)).length = i

theorem lastUniqueInner_spec {list : List α} {i totalSkip : Nat} {x : α} (bound : i < list.length)
    (atI : list[i]? = some x) :
    ∀ n junk cur, totalSkip + n ≤ i → InnerLayout list i totalSkip x n junk cur →
      ∃ junk', lastUniqueInner i totalSkip n junk.length cur = (list.take totalSkip ++ junk' ++
        ((list.take i).drop totalSkip).filter (· ≠ x) ++ list.drop i, junk'.length) ∧
        InnerLayout list i totalSkip x 0 junk' (list.take totalSkip ++ junk' ++
          ((list.take i).drop totalSkip).filter (· ≠ x) ++ list.drop i) := by
  intro n
  induction n with
  | zero =>
    intro junk cur _ layout
    rw [InnerLayout, Nat.add_zero] at layout
    obtain ⟨shape, aligned⟩ := layout
    subst shape
    exact ⟨junk, rfl, by rw [InnerLayout, Nat.add_zero]; exact ⟨rfl, aligned⟩⟩
  | succ n ih =>
    intro junk cur within ⟨shape, aligned⟩
    rw [← Nat.add_assoc] at within shape aligned
    obtain ⟨v, atJ⟩ : ∃ v, list[totalSkip + n]? = some v :=
      ⟨list[totalSkip + n], List.getElem?_eq_getElem (by omega)⟩
    have scanned : (list.take i).drop (totalSkip + n) = v :: (list.take i).drop (totalSkip + n + 1) := by
      rw [List.drop_eq_getElem_cons (by simp only [List.length_take]; omega)]
      simp only [List.getElem_take]
      rw [(List.getElem?_eq_some_iff.mp atJ).2]
    have prefixSplit : list.take (totalSkip + n + 1) = list.take (totalSkip + n) ++ [v] := by
      rw [List.take_add_one, atJ]
      rfl
    have lengthFront : (list.take (totalSkip + n)).length = totalSkip + n := by
      simp only [List.length_take]; omega
    have readI : cur[i]? = some x := by
      rw [shape, List.getElem?_append_right (by simp only [List.length_append, List.length_take]; omega)]
      simp only [List.length_append, List.length_take]
      have offset : i - (min (totalSkip + n + 1) list.length + junk.length +
          (((list.take i).drop (totalSkip + n + 1)).filter (· ≠ x)).length) = 0 := by omega
      rw [offset, List.getElem?_drop, Nat.add_zero, atI]
    have readJ : cur[totalSkip + n]? = some v := by
      rw [shape, List.append_assoc, List.append_assoc,
        List.getElem?_append_left (by simp only [List.length_take]; omega),
        List.getElem?_take_of_lt (by omega), atJ]
    by_cases same : v = x
    · subst same
      have dropped : ((list.take i).drop (totalSkip + n)).filter (· ≠ v) =
          ((list.take i).drop (totalSkip + n + 1)).filter (· ≠ v) := by
        rw [scanned, List.filter_cons_of_neg (by simp)]
      have next : InnerLayout list i totalSkip v n (v :: junk) cur := by
        refine ⟨?_, ?_⟩
        · rw [shape, prefixSplit, dropped]
          simp only [List.append_assoc, List.cons_append, List.nil_append]
        · rw [dropped, List.length_cons]
          omega
      obtain ⟨junk', run, final⟩ := ih (v :: junk) cur (by omega) next
      refine ⟨junk', ?_, final⟩
      rw [lastUniqueInner, if_pos (by rw [readI, readJ])]
      exact run
    · have kept : ((list.take i).drop (totalSkip + n)).filter (· ≠ x) =
          v :: ((list.take i).drop (totalSkip + n + 1)).filter (· ≠ x) := by
        rw [scanned, List.filter_cons_of_pos (by simpa using same)]
      have layout : cur = list.take (totalSkip + n) ++ ((v :: junk) ++
          (((list.take i).drop (totalSkip + n + 1)).filter (· ≠ x) ++ list.drop i)) := by
        rw [shape, prefixSplit]
        simp only [List.append_assoc, List.cons_append, List.nil_append]
      have moved : moveElem cur (totalSkip + n) (totalSkip + n + junk.length) =
          list.take (totalSkip + n) ++ (v :: junk).dropLast ++
            ((list.take i).drop (totalSkip + n)).filter (· ≠ x) ++ list.drop i := by
        have lastIndex : totalSkip + n + junk.length - (list.take (totalSkip + n)).length =
            (v :: junk).length - 1 := by
          rw [lengthFront, List.length_cons]; omega
        rw [moveElem, readJ]
        dsimp only
        rw [layout, List.set_append, if_neg (by omega), lastIndex,
          set_last_append (List.cons_ne_nil v junk), kept]
        simp only [List.append_assoc, List.cons_append]
      have next : InnerLayout list i totalSkip x n (v :: junk).dropLast
          (list.take (totalSkip + n) ++ (v :: junk).dropLast ++
            ((list.take i).drop (totalSkip + n)).filter (· ≠ x) ++ list.drop i) := by
        refine ⟨rfl, ?_⟩
        rw [kept, List.length_cons, List.length_dropLast, List.length_cons]
        omega
      have sameLength : (v :: junk).dropLast.length = junk.length := by simp
      obtain ⟨junk', run, final⟩ := ih _ _ (by omega) next
      refine ⟨junk', ?_, final⟩
      rw [lastUniqueInner, if_neg (by rw [readI, readJ]; simpa [eq_comm] using same), moved,
        ← sameLength]
      exact run

theorem lastUniqueOuter_spec :
    ∀ k totalSkip (cur junk pending rest : List α), cur = junk ++ pending ++ rest →
      junk.length = totalSkip → (junk ++ pending).length = k →
      (lastUniqueOuter k totalSkip cur).1.drop (lastUniqueOuter k totalSkip cur).2 =
        pending.dedup ++ rest := by
  intro k
  induction k with
  | zero =>
    intro totalSkip cur junk pending rest shape sized total
    obtain ⟨rfl, rfl⟩ : junk = [] ∧ pending = [] := by simpa using total
    subst shape sized
    simp [lastUniqueOuter]
  | succ k ih =>
    intro totalSkip cur junk pending rest shape sized total
    by_cases running : totalSkip ≤ k
    · obtain ⟨front, x, rfl⟩ := (List.eq_nil_or_concat pending).resolve_left (by
        rintro rfl; simp at total; omega)
      rw [List.concat_eq_append] at shape total ⊢
      have lengths : junk.length + front.length = k := by simp at total; omega
      have atK : cur[k]? = some x := by
        rw [shape, List.getElem?_append_left (by simp; omega), List.getElem?_append_right (by omega)]
        simp [← lengths]
      have start : InnerLayout cur k totalSkip x (k - totalSkip) [] cur := by
        refine ⟨?_, ?_⟩
        · rw [Nat.add_sub_cancel' running, List.drop_take_self]
          simp
        · rw [Nat.add_sub_cancel' running, List.drop_take_self]
          simp
      obtain ⟨junk', run, ⟨-, aligned⟩⟩ :=
        lastUniqueInner_spec (by rw [shape]; simp; omega) atK (k - totalSkip) [] cur (by omega) start
      have regroup : cur = (junk ++ front) ++ (x :: rest) := by simp [shape]
      have takeJunk : cur.take totalSkip = junk := by
        rw [shape, List.append_assoc, List.take_left' sized]
      have scanned : (cur.take k).drop totalSkip = front := by
        rw [regroup, List.take_left' (by simp [lengths]), List.drop_left' sized]
      have after : cur.drop k = x :: rest := by
        rw [regroup, List.drop_left' (by simp [lengths])]
      rw [takeJunk, scanned, after] at run
      rw [Nat.add_zero, scanned] at aligned
      have unfold : lastUniqueOuter (k + 1) totalSkip cur =
          lastUniqueOuter k (totalSkip + junk'.length)
            (junk ++ junk' ++ front.filter (· ≠ x) ++ x :: rest) := by
        rw [lastUniqueOuter, if_pos running]
        exact congrArg (fun result => lastUniqueOuter k (totalSkip + result.2) result.1) run
      rw [unfold, ih _ _ (junk ++ junk') (front.filter (· ≠ x)) (x :: rest) rfl (by simp [sized])
        (by simp only [List.length_append]; omega), List.dedup_append_singleton]
      simp
    · have done : totalSkip = k + 1 := by simp at total; omega
      obtain rfl : pending = [] := by
        apply List.eq_nil_of_length_eq_zero
        simp at total; omega
      rw [lastUniqueOuter, if_neg running, shape]
      simp [← sized]

/-- `LastUniquePaths` keeps exactly the last copy of each element: it is Mathlib's `List.dedup`. -/
theorem lastUniquePaths_eq_dedup (list : List α) : lastUniquePaths list = list.dedup := by
  simpa [lastUniquePaths] using lastUniqueOuter_spec list.length 0 list [] list [] (by simp) rfl rfl

/-- The inner loop of `FirstUniquePaths` over a kept prefix finds `x` exactly when the prefix
holds it. -/
theorem any_range_getElem? {kept rest : List α} {x : α} :
    ((List.range kept.length).any fun j => some x = (kept ++ rest)[j]?) = decide (x ∈ kept) := by
  rw [Bool.eq_iff_iff, List.any_eq_true, decide_eq_true_iff, List.mem_iff_getElem?]
  constructor
  · rintro ⟨j, inRange, same⟩
    rw [List.mem_range] at inRange
    rw [decide_eq_true_iff, List.getElem?_append_left inRange] at same
    exact ⟨j, same.symm⟩
  · rintro ⟨j, atJ⟩
    have inRange : j < kept.length := (List.getElem?_eq_some_iff.mp atJ).1
    refine ⟨j, List.mem_range.mpr inRange, ?_⟩
    rw [decide_eq_true_iff, List.getElem?_append_left inRange, atJ]

omit [DecidableEq α] in
/-- Copying the first cell of `junk ++ x :: rest` over with `x`. -/
theorem set_zero_append_cons (junk rest : List α) (x : α) :
    (junk ++ x :: rest).set 0 x = x :: ((junk ++ [x]).tail ++ rest) := by
  cases junk <;> simp

/-- The loop of `FirstUniquePaths` keeps the first copies of the scanned prefix in `list[0:k]`,
leftovers up to `i`, and the unscanned rest as it was. -/
theorem firstUniqueLoop_spec (list : List α) :
    ∀ n i (junk cur : List α), i + n = list.length →
      cur = keepFirstCopies (list.take i) ++ (junk ++ list.drop i) →
      (keepFirstCopies (list.take i)).length + junk.length = i →
      ((firstUniqueLoop n i (keepFirstCopies (list.take i)).length cur).1.take
        (firstUniqueLoop n i (keepFirstCopies (list.take i)).length cur).2) = keepFirstCopies list := by
  intro n
  -- the induction follows the rounds left; each round scans `list[i]`
  induction n with
  | zero =>
    intro i junk cur total shape _
    have all : i = list.length := by omega
    subst all
    rw [firstUniqueLoop, shape, List.take_length, List.drop_length, List.append_nil, List.take_left]
  | succ n ih =>
    intro i junk cur total shape aligned
    have inside : i < list.length := by omega
    set kept := keepFirstCopies (list.take i) with keptDef
    set x := list[i] with xDef
    have split : list.drop i = x :: list.drop (i + 1) := List.drop_eq_getElem_cons inside
    have grown : list.take (i + 1) = list.take i ++ [x] := by
      rw [List.take_add_one, List.getElem?_eq_getElem inside]; rfl
    have readI : cur[i]? = some x := by
      rw [shape, List.getElem?_append_right (by omega), List.getElem?_append_right (by omega), split,
        show i - kept.length - junk.length = 0 by omega, List.getElem?_cons_zero]
    have scan : ((List.range kept.length).any fun j => cur[i]? = cur[j]?) = decide (x ∈ list.take i) := by
      rw [readI, shape, any_range_getElem?]
      exact decide_eq_decide.mpr mem_keepFirstCopies
    by_cases earlier : x ∈ list.take i
    · -- a copy came earlier: `list[i]` stays behind as a leftover
      have same : keepFirstCopies (list.take (i + 1)) = kept := by
        rw [grown, keepFirstCopies_append_singleton, if_pos earlier, List.append_nil]
      have next := ih (i + 1) (junk ++ [x]) cur (by omega) (by rw [same, shape, split]; simp)
        (by rw [same, List.length_append, List.length_singleton]; omega)
      rw [same] at next
      rw [firstUniqueLoop, if_pos (by rw [scan]; simpa using earlier)]
      exact next
    · -- the first copy: it moves down to `list[k]`
      have more : keepFirstCopies (list.take (i + 1)) = kept ++ [x] := by
        rw [grown, keepFirstCopies_append_singleton, if_neg earlier]
      have moved : moveElem cur i kept.length = kept ++ [x] ++ ((junk ++ [x]).tail ++ list.drop (i + 1)) := by
        rw [moveElem, readI]
        dsimp only
        rw [shape, split, List.set_append, if_neg (by omega), Nat.sub_self, set_zero_append_cons]
        simp
      have next := ih (i + 1) (junk ++ [x]).tail (moveElem cur i kept.length) (by omega)
        (by rw [more, moved])
        (by rw [more]; simp only [List.length_append, List.length_tail, List.length_singleton]; omega)
      rw [more, List.length_append, List.length_singleton] at next
      rw [firstUniqueLoop, if_neg (by rw [scan]; simpa using earlier)]
      exact next

/-- `FirstUniquePaths` keeps the first copy of each element. -/
theorem firstUniquePaths_eq_keepFirstCopies (list : List α) :
    firstUniquePaths list = keepFirstCopies list := by
  have start := firstUniqueLoop_spec list list.length 0 [] list (by omega) (by simp) (by simp)
  simpa [firstUniquePaths] using start

theorem indexPathListFrom_ne_neg {s : α} {i : Nat} {list : List α} :
    indexPathListFrom s i list ≠ -1 ↔ s ∈ list := by
  induction list generalizing i with
  | nil => simp [indexPathListFrom]
  | cons l list ih =>
    by_cases same : l = s
    · simp only [indexPathListFrom, same, if_true, List.mem_cons, true_or, iff_true]
      omega
    · have other : s ≠ l := fun h => same h.symm
      simp only [indexPathListFrom, same, if_false, List.mem_cons, other, false_or, ih]

@[simp] theorem inPathList_iff {p : α} {list : List α} : inPathList p list = true ↔ p ∈ list := by
  simp [inPathList, indexPathList, indexPathListFrom_ne_neg]

theorem filterPathList_fold (list filter remainder filtered : List α) :
    list.foldl (filterPathStep filter) (remainder, filtered) =
      (remainder ++ list.filter (· ∉ filter), filtered ++ list.filter (· ∈ filter)) := by
  induction list generalizing remainder filtered with
  | nil => simp
  | cons l list ih =>
    by_cases member : l ∈ filter
    · simp [filterPathStep, member, ih]
    · simp [filterPathStep, member, ih]

theorem filterPathList_eq (list filter : List α) :
    filterPathList list filter = (list.filter (· ∉ filter), list.filter (· ∈ filter)) := by
  rw [filterPathList, filterPathList_fold]
  simp

section DirectorySorted

open Go

variable {Path : Type} (str : Path → String)

/-- `DirectorySortedPaths.PathsInDirectory(dir)` over paths whose `String()` is `str`: two binary
searches cut out the names above `filepath.Clean(dir) + "/"` that start with it. The source's
`prefix` and `end` are `pre` and `stop` here. -/
def pathsInDirectory (p : List Path) (dir : String) : List Path :=
  let pre := Filepath.clean dir ++ "/"
  let start := Sorting.search p.length fun i => decide (pre < str (p.get i))
  let ret := p.drop start
  let stop := Sorting.search ret.length fun i => !Strings.hasPrefix (str (ret.get i)) pre
  ret.take stop

variable {str}

/-- The two searches of `PathsInDirectory` with any prefix: on names sorted, they cut out the names
that start with the prefix and are longer. -/
theorem searches_eq_filter (p : List Path) (pre : String) (sorted : p.Pairwise fun a b => str a ≤ str b) :
    let start := Sorting.search p.length fun i => decide (pre < str (p.get i))
    let ret := p.drop start
    let stop := Sorting.search ret.length fun i => !Strings.hasPrefix (str (ret.get i)) pre
    ret.take stop = p.filter fun q => Strings.hasPrefix (str q) pre && str q != pre := by
  intro start ret stop
  -- the first search: the names above `pre` are a suffix of the sorted list
  obtain ⟨notAbove, isAbove⟩ := Sorting.search_split p (fun q => decide (pre < str q))
    (sorted.imp fun le above => decide_eq_true (lt_of_lt_of_le (of_decide_eq_true above) le))
  -- the second: above `pre`, a name that does not start with it is followed by no name that does
  have monoOut : ret.Pairwise fun a b =>
      (!Strings.hasPrefix (str a) pre) = true → (!Strings.hasPrefix (str b) pre) = true := by
    refine (sorted.sublist (List.drop_sublist start p)).imp_of_mem @fun a b memA _ le out => ?_
    have aboveA : pre < str a := of_decide_eq_true (isAbove a memA)
    have otherA : Strings.hasPrefix (str a) pre = false := by simpa using out
    cases startB : Strings.hasPrefix (str b) pre
    · rfl
    · exact absurd le (not_le.mpr (Strings.lt_of_hasPrefix_of_lt aboveA otherA startB))
  obtain ⟨inside, outside⟩ := Sorting.search_split ret (fun q => !Strings.hasPrefix (str q) pre) monoOut
  -- the list in three parts: below `pre`, the run that starts with it, and past the run
  have below : (p.take start).filter (fun q => Strings.hasPrefix (str q) pre && str q != pre) = [] := by
    refine List.filter_eq_nil_iff.mpr fun q mem => ?_
    have notLt := of_decide_eq_false (notAbove q mem)
    cases startQ : Strings.hasPrefix (str q) pre
    · simp
    · have same : str q = pre := by
        by_contra other
        exact notLt (Strings.lt_of_hasPrefix startQ other)
      simp [same]
  have run : (ret.take stop).filter (fun q => Strings.hasPrefix (str q) pre && str q != pre) = ret.take stop := by
    refine List.filter_eq_self.mpr fun q mem => ?_
    have startQ : Strings.hasPrefix (str q) pre = true := by simpa using inside q mem
    have longer : pre < str q := of_decide_eq_true (isAbove q (List.mem_of_mem_take mem))
    simp [startQ, ne_of_gt longer]
  have past : (ret.drop stop).filter (fun q => Strings.hasPrefix (str q) pre && str q != pre) = [] := by
    refine List.filter_eq_nil_iff.mpr fun q mem => ?_
    have otherQ : Strings.hasPrefix (str q) pre = false := by simpa using outside q mem
    simp [otherQ]
  have whole : p = p.take start ++ (ret.take stop ++ ret.drop stop) := by
    rw [List.take_append_drop, List.take_append_drop]
  conv_rhs => rw [whole]
  rw [List.filter_append, List.filter_append, below, run, past, List.nil_append, List.append_nil]

/-- On paths sorted by name, as `PathsToDirectorySortedPaths` leaves them, `PathsInDirectory`
returns the paths whose names start with the directory's prefix and are longer, in order. -/
theorem pathsInDirectory_eq_filter (p : List Path) (dir : String) (sorted : p.Pairwise fun a b => str a ≤ str b) :
    pathsInDirectory str p dir =
      p.filter fun q => Strings.hasPrefix (str q) (Filepath.clean dir ++ "/") && str q != Filepath.clean dir ++ "/" :=
  searches_eq_filter p _ sorted

/-- Siblings that sort on both sides of `a/b/`, and a trailing slash on the directory. -/
theorem pathsInDirectory_siblings :
    ["a/b", "a/b-c", "a/b/c", "a/bc", "b"].Pairwise (fun a b => id a ≤ id b) ∧
      pathsInDirectory id ["a/b", "a/b-c", "a/b/c", "a/bc", "b"] "a/b/" = ["a/b/c"] := by
  have sorted : ["a/b", "a/b-c", "a/b/c", "a/bc", "b"].Pairwise (fun a b => id a ≤ id b) := by decide
  refine ⟨sorted, ?_⟩
  refine (pathsInDirectory_eq_filter _ _ sorted).trans ?_
  decide

end DirectorySorted

section Validate

open Go Go.Filepath Go.Strings

/-- The test `rel == ".." || strings.HasPrefix(rel, "../") || strings.HasPrefix(rel, "/")` that
`validateSafePath` makes of each cleaned component and `maybeRelErr` of the relative path. -/
def outsideDirectory (path : String) : Bool :=
  path == ".." || hasPrefix path "../" || hasPrefix path "/"

/-- `validateSafePath`: each component, cleaned, must not leave its directory; the result is
`filepath.Join` of the components as given. -/
def validateSafePath (pathComponents : List String) : Except String String := do
  pathComponents.forM fun path => do
    let path := clean path
    if outsideDirectory path then throw ("Path is outside directory: " ++ path)
  pure (join pathComponents)

/-- `validatePath` and `maybeRelErr`: the components of a source path are checked one by one,
each cleaned, and joined as given; joined below any directory the result stays under it.

`validatePath`: no component may hold a ninja variable, then `validateSafePath`. -/
def validatePath (pathComponents : List String) : Except String String := do
  pathComponents.forM fun path => do
    if contains path "$" then throw ("Path contains invalid character($): " ++ path)
  validateSafePath pathComponents

/-- `maybeRelErr`: `targetPath` relative to `basePath`, and whether it lies under it. -/
def maybeRelErr (basePath targetPath : String) : Except String (String × Bool) :=
  if isAbs basePath != isAbs targetPath then pure ("", false)
  else do
    let rel ← rel basePath targetPath
    if outsideDirectory rel then pure ("", false) else pure (rel, true)

/-- A cleaned path passes the test exactly when `Clean` leaves it relative with no `..`. -/
theorem outsideDirectory_clean (path : String) : outsideDirectory (clean path) = false ↔ Inward path.toList := by
  have dots : ("..".toList = ['.', '.']) ∧ "../".toList = ['.', '.', '/'] ∧ "/".toList = ['/'] :=
    ⟨by decide, by decide, by decide⟩
  have notUp : (clean path == "..") = false ↔ cleanChars path.toList ≠ ['.', '.'] := by
    rw [beq_eq_false_iff_ne, ne_eq, ← String.toList_inj, toList_clean, dots.1]
  rw [inward_iff, outsideDirectory, Bool.or_eq_false_iff, Bool.or_eq_false_iff, notUp, Bool.eq_false_iff,
    Bool.eq_false_iff]
  simp only [ne_eq, hasPrefix_iff, toList_clean, dots.2.1, dots.2.2, and_assoc]

/-- What `validateSafePath` accepts: components that `Clean` keeps inward, joined. -/
theorem validateSafePath_eq_ok {pathComponents : List String} {r : String}
    (ok : validateSafePath pathComponents = .ok r) :
    r = join pathComponents ∧ ∀ c ∈ pathComponents, Inward c.toList := by
  obtain ⟨⟨⟩, checked, joined⟩ := bind_eq_ok ok
  refine ⟨(Except.ok.inj joined).symm, fun c mem => (outsideDirectory_clean c).mp ?_⟩
  have passed := forM_eq_ok checked c mem
  cases outside : outsideDirectory (clean c)
  · rfl
  · -- the component's check throws
    simp only [outside, if_true, throw_eq_error] at passed
    cases passed

theorem validateSafePath_of_validatePath {pathComponents : List String} {r : String}
    (ok : validatePath pathComponents = .ok r) : validateSafePath pathComponents = .ok r := by
  obtain ⟨⟨⟩, -, safe⟩ := bind_eq_ok ok
  exact safe

/-- An inward path joined below any directory is under it, as itself cleaned. -/
theorem maybeRelErr_join_inward (b : String) {r : String} (inward : Inward r.toList) :
    maybeRelErr b (join [b, r]) = .ok (clean r, true) := by
  have inside : outsideDirectory (clean r) = false := (outsideDirectory_clean r).mpr inward
  rw [maybeRelErr, isAbs_join_inward b inward, bne_self_eq_false, if_neg Bool.false_ne_true,
    rel_join_inward b inward, ok_bind, inside, if_neg Bool.false_ne_true, pure_eq_ok]

/-- A path `validatePath` or `validateSafePath` accepts is `Join` of its components, relative,
without a `..` element and clean unless empty; joined below any directory it stays under it. -/
theorem validatePath_stays_under {pathComponents : List String} {r : String}
    (ok : validatePath pathComponents = .ok r ∨ validateSafePath pathComponents = .ok r) :
    r = join pathComponents ∧ isAbs r = false ∧ ['.', '.'] ∉ r.toList.splitOn '/' ∧ (r = "" ∨ clean r = r) ∧
      ∀ b, maybeRelErr b (join [b, r]) = .ok (clean r, true) := by
  obtain ⟨joined, inward⟩ := validateSafePath_eq_ok (ok.elim validateSafePath_of_validatePath id)
  rcases join_inward inward with ⟨empty, -⟩ | ⟨-, cleaned, inwardR⟩
  · -- every component is empty, and so is the path
    rw [← joined] at empty
    subst empty
    exact ⟨joined, rfl, by decide, .inl rfl, fun b => maybeRelErr_join_inward b inward_nil⟩
  · rw [← joined] at cleaned inwardR
    exact ⟨joined, decide_eq_false inwardR.1, dots_not_mem_splitOn cleaned inwardR, .inr cleaned,
      fun b => maybeRelErr_join_inward b inwardR⟩

/-- Components that climb and come back in, as given and as `Join` cleans them. -/
theorem validatePath_climbs_back :
    validatePath ["a/../b", "./c//"] = .ok "b/c" ∧ maybeRelErr "out" (join ["out", "b/c"]) = .ok ("b/c", true) :=
  ⟨by decide, (validatePath_stays_under (.inl (by decide : validatePath ["a/../b", "./c//"] = .ok "b/c"))).2.2.2.2 "out"⟩

/-- With no component, or only empty ones, the accepted path is empty, which `Clean` makes `.`. -/
theorem validatePath_empty_not_clean : validatePath [""] = .ok "" ∧ clean "" ≠ "" := by decide

end Validate

end Soong.Android
