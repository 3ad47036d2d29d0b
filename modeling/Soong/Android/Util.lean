import Soong.Android.Paths
import Soong.Go.Io
import Soong.Go.Strings

namespace Soong.Android

open Go.Strings

/-- `FirstUniqueStrings` has the body of `FirstUniquePaths`. -/
def firstUniqueStrings (list : List String) : List String := firstUniquePaths list

/-- `LastUniqueStrings` has the body of `LastUniquePaths`. -/
def lastUniqueStrings (list : List String) : List String := lastUniquePaths list

/-- The `Paths` helpers against their references, at any element type with `==`. -/
theorem uniquePaths_reference {α : Type} [DecidableEq α] (list : List α) :
    firstUniquePaths list = keepFirstCopies list ∧ lastUniquePaths list = keepLastCopies list ∧
      lastUniquePaths list = (firstUniquePaths list.reverse).reverse := by
  have last : lastUniquePaths list = keepLastCopies list := by
    rw [lastUniquePaths_eq_dedup, keepLastCopies_eq_dedup]
  refine ⟨firstUniquePaths_eq_keepFirstCopies list, last, ?_⟩
  rw [last, firstUniquePaths_eq_keepFirstCopies, keepFirstCopies_reverse, List.reverse_reverse]

/-- The in-place helpers equal their references: `FirstUniqueStrings` and `FirstUniquePaths`
remove every element that occurred earlier, `LastUniqueStrings` and `LastUniquePaths` every
element that occurs again later, which is keeping first copies of the reversed list, reversed. -/
theorem uniqueHelpers_reference :
    (∀ list : List String, firstUniqueStrings list = keepFirstCopies list ∧
      lastUniqueStrings list = keepLastCopies list ∧
      lastUniqueStrings list = (firstUniqueStrings list.reverse).reverse) ∧
    ∀ (α : Type) [DecidableEq α] (list : List α), firstUniquePaths list = keepFirstCopies list ∧
      lastUniquePaths list = keepLastCopies list ∧ lastUniquePaths list = (firstUniquePaths list.reverse).reverse :=
  ⟨fun list => uniquePaths_reference list, fun _ _ list => uniquePaths_reference list⟩

section Shard

variable {α : Type}

/-- The loop of `ShardPaths`: while more than `shardSize` elements are left, the first
`shardSize` of them make a shard, and the rest, if any, makes the last one. -/
def shardLoop (shardSize : Nat) (positive : 0 < shardSize) (paths : List α) (ret : List (List α)) :
    List (List α) :=
  if paths.length > shardSize then
    shardLoop shardSize positive (paths.drop shardSize) (ret ++ [paths.take shardSize])
  else if paths.length > 0 then ret ++ [paths]
  else ret
termination_by paths.length
decreasing_by simp only [List.length_drop]; omega

/-- `ShardPaths`. The capacity `(len(paths)+shardSize-1)/shardSize` of the result is computed
in `int`, wrapping around; `make` panics on a negative one, the division on a zero
`shardSize`, and `paths[0:shardSize]` on a negative one. -/
def shardPaths (paths : List α) (shardSize : Int) : Go.Outcome (List (List α)) :=
  if paths.length = 0 then .ok []
  else if shardSize = 0 then .panic Go.integerDivideByZero
  else if (Go.int64 (paths.length + shardSize - 1)).tdiv shardSize < 0 then .panic Go.makesliceCapOutOfRange
  else if positive : 0 < shardSize then .ok (shardLoop shardSize.toNat (by omega) paths [])
  else .panic (Go.sliceBoundsOutOfRange shardSize)

/-- `ShardStrings` has the body of `ShardPaths`. -/
def shardStrings (s : List String) (shardSize : Int) : Go.Outcome (List (List String)) :=
  shardPaths s shardSize

/-- `shards` cut `paths` in order into runs of `shardSize` elements, the last run between one
and `shardSize` long. -/
structure Sharded (shardSize : Nat) (paths : List α) (shards : List (List α)) : Prop where
  flatten_eq : shards.flatten = paths
  nonempty : ∀ shard ∈ shards, shard ≠ []
  full : ∀ shard ∈ shards.dropLast, shard.length = shardSize
  last : ∀ shard ∈ shards.getLast?, shard.length ≤ shardSize
  count : shards.length = (paths.length + shardSize - 1) / shardSize

theorem sharded_nil {shardSize : Nat} (positive : 0 < shardSize) : Sharded shardSize ([] : List α) [] :=
  ⟨rfl, nofun, nofun, nofun, (Nat.div_eq_of_lt (by simp only [List.length_nil]; omega)).symm⟩

theorem sharded_single {shardSize : Nat} {paths : List α} (nonempty : paths ≠ [])
    (short : paths.length ≤ shardSize) : Sharded shardSize paths [paths] := by
  have positive : 0 < paths.length := List.length_pos_of_ne_nil nonempty
  refine ⟨by simp, by simpa using nonempty, by simp, by simpa using short, ?_⟩
  rw [List.length_singleton, eq_comm, Nat.div_eq_iff (by omega)]
  omega

/-- A full shard in front of the shards of the rest. -/
theorem Sharded.cons {shardSize : Nat} {paths : List α} {shards : List (List α)}
    (long : shardSize < paths.length) (positive : 0 < shardSize)
    (rest : Sharded shardSize (paths.drop shardSize) shards) :
    Sharded shardSize paths (paths.take shardSize :: shards) := by
  have moreLeft : shards ≠ [] := by
    rintro rfl
    simpa [List.drop_eq_nil_iff, Nat.not_le.mpr long] using rest.flatten_eq.symm
  refine ⟨by rw [List.flatten_cons, rest.flatten_eq, List.take_append_drop], ?_, ?_, ?_, ?_⟩
  · intro shard mem
    rcases List.mem_cons.mp mem with rfl | later
    · intro empty
      have lengths := congrArg List.length empty
      rw [List.length_take, List.length_nil] at lengths
      omega
    · exact rest.nonempty shard later
  · intro shard mem
    rw [List.dropLast_cons_of_ne_nil moreLeft] at mem
    rcases List.mem_cons.mp mem with rfl | later
    · simp only [List.length_take]; omega
    · exact rest.full shard later
  · intro shard mem
    obtain ⟨first, more, rfl⟩ := List.exists_cons_of_ne_nil moreLeft
    rw [List.getLast?_cons_cons] at mem
    exact rest.last shard mem
  · have counted := rest.count
    rw [List.length_drop] at counted
    have regroup : paths.length + shardSize - 1 = (paths.length - shardSize + shardSize - 1) + shardSize := by
      omega
    rw [List.length_cons, counted, regroup, Nat.add_div_right _ positive]

/-- The loop appends the shards of what is left. -/
theorem shardLoop_sharded (shardSize : Nat) (positive : 0 < shardSize) (paths : List α) (ret : List (List α)) :
    ∃ shards, shardLoop shardSize positive paths ret = ret ++ shards ∧ Sharded shardSize paths shards := by
  fun_induction shardLoop shardSize positive paths ret with
  | case1 paths ret long ih =>
    obtain ⟨shards, run, sharded⟩ := ih
    exact ⟨paths.take shardSize :: shards, by rw [run]; simp, sharded.cons long positive⟩
  | case2 paths ret short nonempty =>
    exact ⟨[paths], rfl, sharded_single (List.ne_nil_of_length_pos nonempty) (by omega)⟩
  | case3 paths ret short empty =>
    have none : paths = [] := List.eq_nil_of_length_eq_zero (by omega)
    exact ⟨[], by simp, none ▸ sharded_nil positive⟩

/-- Without overflow in the capacity, `ShardPaths` with a positive `shardSize` returns the shards. -/
theorem shardPaths_sharded (paths : List α) {shardSize : Int} (positive : 1 ≤ shardSize)
    (noOverflow : paths.length + shardSize ≤ 2 ^ 63) :
    ∃ shards, shardPaths paths shardSize = .ok shards ∧ Sharded shardSize.toNat paths shards := by
  by_cases empty : paths.length = 0
  · exact ⟨[], by simp [shardPaths, empty], List.eq_nil_of_length_eq_zero empty ▸ sharded_nil (by omega)⟩
  · have wrapped : Go.int64 (paths.length + shardSize - 1) = paths.length + shardSize - 1 :=
      Go.int64_of_lt (by omega) (by omega)
    have capacity : 0 ≤ (Go.int64 (paths.length + shardSize - 1)).tdiv shardSize := by
      rw [wrapped]
      exact Int.tdiv_nonneg (by omega) (by omega)
    obtain ⟨shards, run, sharded⟩ := shardLoop_sharded shardSize.toNat (by omega) paths []
    refine ⟨shards, ?_, sharded⟩
    rw [shardPaths, if_neg empty, if_neg (by omega), if_neg (by omega), dif_pos (by omega), run, List.nil_append]

/-- Where the capacity does not overflow, `ShardStrings` and `ShardPaths` with a positive
`shardSize` cut the list in order into full shards and a last one of one to `shardSize`
elements, `⌈len / shardSize⌉` in all. -/
theorem shard_partitions :
    (∀ (s : List String) (shardSize : Int), 1 ≤ shardSize → s.length + shardSize ≤ 2 ^ 63 →
      ∃ shards, shardStrings s shardSize = .ok shards ∧ Sharded shardSize.toNat s shards) ∧
    ∀ (α : Type) (paths : List α) (shardSize : Int), 1 ≤ shardSize → paths.length + shardSize ≤ 2 ^ 63 →
      ∃ shards, shardPaths paths shardSize = .ok shards ∧ Sharded shardSize.toNat paths shards :=
  ⟨fun s _ positive noOverflow => shardPaths_sharded s positive noOverflow,
    fun _ paths _ positive noOverflow => shardPaths_sharded paths positive noOverflow⟩

/-- Two strings shard by `2^62`, but with `shardSize` the largest `int` their capacity wraps
around to `-1`, and `make` panics. -/
theorem shardStrings_overflow_panics :
    (∃ shards, shardStrings ["a", "b"] (2 ^ 62) = .ok shards ∧ Sharded (2 ^ 62 : Int).toNat ["a", "b"] shards) ∧
      shardStrings ["a", "b"] (2 ^ 63 - 1) = .panic Go.makesliceCapOutOfRange :=
  ⟨shard_partitions.1 ["a", "b"] (2 ^ 62) (by norm_num) (by norm_num), by decide⟩

end Shard

section Pattern

/-- The end of `substPattern`: `repl` split at its first `%`, around `trimed`. -/
def substInto (repl trimed : String) : String :=
  match splitN repl '%' 2 with
  | [rs0, rs1] => rs0 ++ trimed ++ rs1
  | _ => repl

/-- `substPattern` (copied from kati): `str` with the pattern's `%` part put in place of the
first `%` of `repl`, when `str` has the pattern's prefix and, after it, the suffix. -/
def substPattern (pat repl str : String) : String :=
  match splitN pat '%' 2 with
  | [ps0, ps1] =>
    let trimmedPrefix := if ps0 ≠ "" then trimPrefix str ps0 else str
    if ps0 ≠ "" ∧ trimmedPrefix = str then str
    else
      let trimmed := if ps1 ≠ "" then trimSuffix trimmedPrefix ps1 else trimmedPrefix
      if ps1 ≠ "" ∧ trimmed = trimmedPrefix then str
      else substInto repl trimmed
  | _ => if str = pat then repl else str

/-- `matchPattern` (copied from kati): the prefix and the suffix around the pattern's first `%`
are tested on `str` each on its own. -/
def matchPattern (pat str : String) : Bool :=
  match pat.toList.idxOf? '%' with
  | none => pat == str
  | some i => hasPrefix str (String.ofList (pat.toList.take i)) && hasSuffix str (String.ofList (pat.toList.drop (i + 1)))

/-- `findOverrideValue`: the value the first override rule matching `name` gives it. A rule
that is not one `:`-separated pair panics. -/
def findOverrideValue (overrides : List String) (name errorMsg : String) : Go.Outcome (String × Bool) :=
  match overrides with
  | [] => .ok ("", false)
  | o :: rest =>
    match split o ':' with
    | [pattern, value] =>
      if matchPattern pattern name then .ok (substPattern pattern value name, true)
      else findOverrideValue rest name errorMsg
    | _ => .panic (errorfQ errorMsg o)

/-- The stem a `%` with prefix `a` and suffix `b` stands for in `s`: the text between them. -/
def stem (a b : List Char) (s : String) : String :=
  String.ofList ((s.toList.drop a.length).take (s.length - a.length - b.length))

/-- `repl` with its first `%` replaced by `stem`, or `repl` when it has none. -/
def replaceFirstPercent (repl stem : String) : String :=
  match repl.toList.span (· ≠ '%') with
  | (before, _ :: after) => String.ofList (before ++ stem.toList ++ after)
  | (_, []) => repl

theorem substInto_eq (repl trimed : String) : substInto repl trimed = replaceFirstPercent repl trimed := by
  unfold substInto replaceFirstPercent
  rw [splitN]
  rcases repl.toList.span (· ≠ '%') with ⟨before, _ | ⟨c, after⟩⟩
  · rfl
  · simp [splitN, String.ext_iff]

theorem matchPattern_of_split {pat s : String} {a b : List Char} (parts : pat.toList = a ++ '%' :: b)
    (first : '%' ∉ a) : matchPattern pat s = (hasPrefix s (String.ofList a) && hasSuffix s (String.ofList b)) := by
  have dropped : (a ++ '%' :: b).drop (a.length + 1) = b := by simp [List.drop_append]
  rw [matchPattern, parts, idxOf?_split first]
  dsimp only
  rw [List.take_left, dropped]

variable {pat repl s : String} {a b : List Char}

/-- After a match the prefix comes off as it is: `TrimPrefix` shortens `s` whenever the
prefix is not empty, so the first early return is never taken. -/
theorem substPattern_trimPrefix (hasA : a <+: s.toList) :
    (if String.ofList a ≠ "" then trimPrefix s (String.ofList a) else s) = String.ofList (s.toList.drop a.length) ∧
      ¬(String.ofList a ≠ "" ∧ String.ofList (s.toList.drop a.length) = s) := by
  have shorter : a.length ≤ s.toList.length := hasA.length_le
  constructor
  · by_cases emptyA : a = []
    · simp [emptyA]
    · rw [if_pos (by simpa using emptyA), trimPrefix_of_prefix hasA]
  · rintro ⟨nonempty, same⟩
    have lengths := congrArg String.length same
    rw [String.length_ofList, List.length_drop, ← String.length_toList] at lengths
    rw [Ne, String.ofList_eq_empty_iff, ← List.length_eq_zero_iff] at nonempty
    omega

/-- What `substPattern` does with a string the pattern matches: the substitution when prefix
and suffix do not overlap in `s`, and `s` unchanged when they do. -/
theorem substPattern_of_matchPattern (parts : pat.toList = a ++ '%' :: b) (first : '%' ∉ a)
    (matched : matchPattern pat s = true) :
    substPattern pat repl s =
      if a.length + b.length ≤ s.length then replaceFirstPercent repl (stem a b s) else s := by
  rw [matchPattern_of_split parts first, Bool.and_eq_true, hasPrefix_iff, hasSuffix_iff, String.toList_ofList,
    String.toList_ofList] at matched
  obtain ⟨hasA, hasB⟩ := matched
  obtain ⟨trimmedA, keptA⟩ := substPattern_trimPrefix hasA
  have shorterA : a.length ≤ s.length := by rw [← String.length_toList]; exact hasA.length_le
  rw [substPattern, splitN_two_of_split parts first]
  dsimp only
  rw [trimmedA, if_neg keptA]
  by_cases emptyB : b = []
  · -- no suffix to take off: the stem is everything after the prefix
    subst emptyB
    rw [if_neg (by simp), if_neg (by simp), if_pos (by omega), substInto_eq, stem, List.length_nil, Nat.sub_zero,
      ← String.length_toList, ← List.length_drop, List.take_length]
  · have nonempty : String.ofList b ≠ "" := by simpa using emptyB
    by_cases fits : a.length + b.length ≤ s.length
    · -- the suffix lies after the prefix, and `TrimSuffix` takes it off
      have suffixAfter : b <:+ s.toList.drop a.length := by
        obtain ⟨front, shape⟩ := hasB
        have frontLong : a.length ≤ front.length := by
          have := congrArg List.length shape
          rw [List.length_append, String.length_toList] at this
          omega
        refine ⟨front.drop a.length, ?_⟩
        rw [← shape, List.drop_append_of_le_length frontLong]
      have trimmedB := @trimSuffix_of_suffix (String.ofList (s.toList.drop a.length)) b (by
        rwa [String.toList_ofList])
      have changed : trimSuffix (String.ofList (s.toList.drop a.length)) (String.ofList b) ≠
          String.ofList (s.toList.drop a.length) := by
        intro same
        have lengths := congrArg String.length same
        rw [trimmedB] at lengths
        simp only [String.length_ofList, String.toList_ofList, List.length_take, List.length_drop,
          String.length_toList] at lengths
        have positive : 0 < b.length := List.length_pos_of_ne_nil emptyB
        omega
      rw [if_pos nonempty, if_neg (fun both => changed both.2), if_pos fits, substInto_eq, trimmedB, stem]
      simp only [String.toList_ofList, String.length_ofList, List.length_drop, String.length_toList]
    · -- the suffix overlaps the prefix: what is left after the prefix cannot end with it
      have notAfter : ¬b <:+ (String.ofList (s.toList.drop a.length)).toList := by
        intro suffixed
        have := suffixed.length_le
        rw [String.toList_ofList, List.length_drop, String.length_toList] at this
        have positive : 0 < b.length := List.length_pos_of_ne_nil emptyB
        omega
      rw [if_pos nonempty, trimSuffix_of_not_suffix notAfter, if_pos ⟨nonempty, rfl⟩, if_neg fits]

theorem findOverrideValue_skipped {pre : List String} {name errorMsg : String} (rest : List String)
    (skipped : ∀ p ∈ pre, ∃ pat repl, split p ':' = [pat, repl] ∧ matchPattern pat name = false) :
    findOverrideValue (pre ++ rest) name errorMsg = findOverrideValue rest name errorMsg := by
  induction pre with
  | nil => rfl
  | cons p pre ih =>
    obtain ⟨pat, repl, rule, missed⟩ := skipped p List.mem_cons_self
    rw [List.cons_append, findOverrideValue, rule]
    dsimp only
    rw [if_neg (by rw [missed]; exact Bool.false_ne_true)]
    exact ih fun q mem => skipped q (List.mem_cons_of_mem p mem)

/-- `findOverrideValue` returns at the first rule that matches, with `substPattern`'s value. -/
theorem findOverrideValue_first_match {pre : List String} {name errorMsg o : String} (rest : List String)
    (skipped : ∀ p ∈ pre, ∃ pat repl, split p ':' = [pat, repl] ∧ matchPattern pat name = false)
    (rule : split o ':' = [pat, repl]) (matched : matchPattern pat name = true) :
    findOverrideValue (pre ++ o :: rest) name errorMsg = .ok (substPattern pat repl name, true) := by
  rw [findOverrideValue_skipped _ skipped, findOverrideValue, rule]
  dsimp only
  rw [if_pos matched]

/-- Where `matchPattern` finds a match, `substPattern` substitutes the stem only when the pattern's
prefix and suffix do not overlap in the name, and returns the name unchanged when they do; and
`findOverrideValue` reports the first matching rule's `substPattern` as the override either way. -/
theorem matchPattern_substPattern (parts : pat.toList = a ++ '%' :: b) (first : '%' ∉ a)
    (matched : matchPattern pat s = true) :
    substPattern pat repl s =
        (if a.length + b.length ≤ s.length then replaceFirstPercent repl (stem a b s) else s) ∧
      ∀ (pre rest : List String) (o errorMsg : String),
        (∀ p ∈ pre, ∃ pat' repl', split p ':' = [pat', repl'] ∧ matchPattern pat' s = false) →
        split o ':' = [pat, repl] →
        findOverrideValue (pre ++ o :: rest) s errorMsg = .ok (substPattern pat repl s, true) :=
  ⟨substPattern_of_matchPattern parts first matched,
    fun _ rest _ _ skipped rule => findOverrideValue_first_match rest skipped rule matched⟩

/-- The rule `ab%bc:x%y` on the name `abc`: the prefix `ab` and the suffix `bc` overlap, the
pattern matches, and the override is `abc` itself. -/
theorem matchPattern_substPattern_overlap :
    matchPattern "ab%bc" "abc" = true ∧ substPattern "ab%bc" "x%y" "abc" = "abc" ∧
      findOverrideValue ["ab%bc:x%y"] "abc" "invalid override rule %q" = .ok ("abc", true) := by
  obtain ⟨subst, find⟩ := @matchPattern_substPattern "ab%bc" "x%y" "abc" ['a', 'b'] ['b', 'c']
    (by decide) (by decide) (by decide)
  have overlap : substPattern "ab%bc" "x%y" "abc" = "abc" := by
    rw [subst, if_neg (by decide)]
  refine ⟨by decide, overlap, ?_⟩
  rw [← overlap]
  exact find [] [] "ab%bc:x%y" _ nofun (by decide)

end Pattern

end Soong.Android
