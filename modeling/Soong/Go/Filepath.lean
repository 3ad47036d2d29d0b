import Mathlib

namespace Go.Filepath

/-- One element of `filepath.Clean`, on the reversed list of elements kept so far: empty and
`.` elements vanish, `..` removes the element before it, or stays when there is none to
remove and the path is relative. -/
def cleanStep (rooted : Bool) (kept : List (List Char)) (elem : List Char) : List (List Char) :=
  if elem = [] ∨ elem = ['.'] then kept
  else if elem = ['.', '.'] then
    match kept with
    | top :: rest => if top = ['.', '.'] then elem :: kept else rest
    | [] => if rooted then [] else [elem]
  else elem :: kept

/-- `filepath.Clean` on the characters of a path (the Unix separator `/`). -/
def cleanChars (path : List Char) : List Char :=
  let rooted := path.head? = some '/'
  let body := List.intercalate ['/'] ((path.splitOn '/').foldl (cleanStep rooted) []).reverse
  if rooted then '/' :: body else if body = [] then ['.'] else body

/-- `filepath.Clean`: the shortest path name lexically equivalent to `path`. -/
def clean (path : String) : String :=
  String.ofList (cleanChars path.toList)

/-- `filepath.Dir`: everything up to the last separator, cleaned. -/
def dir (path : String) : String :=
  String.ofList (cleanChars (path.toList.reverse.dropWhile (· ≠ '/')).reverse)

/-- `filepath.Base`: the last element after trailing separators are removed. -/
def base (path : String) : String :=
  if path = "" then "." else
    let stripped := (path.toList.reverse.dropWhile (· = '/')).reverse
    let last := (stripped.reverse.takeWhile (· ≠ '/')).reverse
    if last = [] then "/" else String.ofList last

/-- `filepath.Ext`: the suffix of the final element from its last `.`, or nothing. -/
def ext (path : String) : String :=
  let seg := path.toList.reverse.takeWhile (· ≠ '/')
  match seg.idxOf? '.' with
  | some i => String.ofList (seg.take (i + 1)).reverse
  | none => ""

/-- `filepath.Join`: the elements from the first non-empty one, separated and cleaned. -/
def join : List String → String
  | [] => ""
  | elem :: elems =>
    if elem = "" then join elems
    else clean (String.intercalate "/" (elem :: elems))

/-- `for bi < bl && base[bi] != Separator { bi++ }`: the end of the element that starts at `i`. -/
def elemEnd (path : List Char) (i : Nat) : Nat :=
  i + ((path.drop i).takeWhile (· ≠ '/')).length

/-- The loop of `filepath.Rel` from the elements at `b0` and `t0`: it stops at the first
elements that differ and returns `b0`, `bi`, `t0` and `ti` there. Each round that goes on moves
past an element of one of the paths (two equal paths are handled before the loop), so
`base.length + targ.length + 1` rounds are enough; `none` is the fuel running out. -/
def relLoop (base targ : List Char) : Nat → Nat → Nat → Option (Nat × Nat × Nat × Nat)
  | 0, _, _ => none
  | fuel + 1, b0, t0 =>
    let bi := elemEnd base b0
    let ti := elemEnd targ t0
    if (targ.drop t0).take (ti - t0) ≠ (base.drop b0).take (bi - b0) then some (b0, bi, t0, ti)
    else relLoop base targ fuel (if bi < base.length then bi + 1 else bi) (if ti < targ.length then ti + 1 else ti)

/-- `filepath.Rel`: the path to `targpath` from `basepath`, climbing with `..` past the
elements of `basepath` the two do not share. -/
def rel (basepath targpath : String) : Except String String :=
  let cantRel : Except String String := .error ("Rel: can't make " ++ targpath ++ " relative to " ++ basepath)
  let base := (clean basepath).toList
  let targ := (clean targpath).toList
  if targ = base then .ok "."
  else
    let base := if base = ['.'] then [] else base
    if (base.head? = some '/') ≠ (targ.head? = some '/') then cantRel
    else
      match relLoop base targ (base.length + targ.length + 1) 0 0 with
      | none => cantRel
      | some (b0, bi, t0, _) =>
        if (base.drop b0).take (bi - b0) = ['.', '.'] then cantRel
        else if b0 ≠ base.length then
          let seps := ((base.drop b0).filter (· = '/')).length
          .ok (String.ofList (['.', '.'] ++ (List.replicate seps ['/', '.', '.']).flatten ++
            (if t0 ≠ targ.length then '/' :: targ.drop t0 else [])))
        else .ok (String.ofList (targ.drop t0))

example : rel "a/b" "a/c/d" = .ok "../c/d" := by decide
example : rel "../a" "b" = .error "Rel: can't make b relative to ../a" := by decide

/-- A path element that `Clean` keeps as it is: not empty, not `.` or `..`, and without a
separator. -/
def ProperElem (e : List Char) : Prop :=
  e ≠ [] ∧ e ≠ ['.'] ∧ e ≠ ['.', '.'] ∧ '/' ∉ e

theorem cleanStep_proper {rooted : Bool} {kept : List (List Char)} {e : List Char}
    (proper : ProperElem e) : cleanStep rooted kept e = e :: kept := by
  obtain ⟨nonempty, notDot, notDotDot, -⟩ := proper
  simp [cleanStep, nonempty, notDot, notDotDot]

theorem foldl_cleanStep_proper {rooted : Bool} (kept : List (List Char)) {elems : List (List Char)}
    (proper : ∀ e ∈ elems, ProperElem e) : elems.foldl (cleanStep rooted) kept = elems.reverse ++ kept := by
  induction elems generalizing kept with
  | nil => rfl
  | cons e rest ih =>
    rw [List.foldl_cons, cleanStep_proper (proper e (by simp)), ih _ (fun e' m => proper e' (by simp [m]))]
    simp

theorem head?_intercalate {e : List Char} {rest : List (List Char)} (nonempty : e ≠ []) :
    (List.intercalate ['/'] (e :: rest)).head? = e.head? := by
  cases rest with
  | nil => simp
  | cons e' rest => rw [List.intercalate_cons_cons, List.append_assoc, List.head?_append_of_ne_nil _ nonempty]

theorem intercalate_append_singleton {sep x : List Char} : ∀ {l : List (List Char)}, l ≠ [] →
    List.intercalate sep (l ++ [x]) = List.intercalate sep l ++ sep ++ x
  | [a], _ => by simp [List.intercalate_cons_cons]
  | a :: b :: rest, _ => by
    rw [List.cons_append, List.cons_append, List.intercalate_cons_cons, ← List.cons_append,
      intercalate_append_singleton (List.cons_ne_nil b rest), List.intercalate_cons_cons]
    simp

theorem dropWhile_reverse_sep : ∀ {last : List Char}, '/' ∉ last → ∀ rest : List Char,
    (last.reverse ++ rest).dropWhile (· ≠ '/') = rest.dropWhile (· ≠ '/')
  | [], _, _ => rfl
  | c :: cs, noSep, rest => by
    have notSep : c ≠ '/' := fun h => noSep (h ▸ List.mem_cons_self)
    rw [List.reverse_cons, List.append_assoc, List.singleton_append,
      dropWhile_reverse_sep (fun m => noSep (List.mem_cons_of_mem c m)) (c :: rest),
      List.dropWhile_cons_of_pos (by simpa using notSep)]

/-- The final element of a path, what follows its last separator. `Clean` keeps a proper final
element as it is, so the names `Join` builds keep the element they end with.

The characters after the last separator. -/
def finalElem (path : List Char) : List Char := (path.reverse.takeWhile (· ≠ '/')).reverse

theorem finalElem_append (x : List Char) {y : List Char} (noSep : '/' ∉ y) :
    finalElem (x ++ y) = finalElem x ++ y := by
  have inside : ∀ c ∈ y.reverse, decide (c ≠ '/') = true := by
    intro c mem
    simpa using fun same : c = '/' => noSep (List.mem_reverse.mp (same ▸ mem))
  rw [finalElem, finalElem, List.reverse_append, List.takeWhile_append_of_pos inside, List.reverse_append,
    List.reverse_reverse]

theorem finalElem_sep (x : List Char) {e : List Char} (noSep : '/' ∉ e) : finalElem (x ++ '/' :: e) = e := by
  have stop : finalElem (x ++ ['/']) = [] := by simp [finalElem]
  rw [← List.singleton_append, ← List.append_assoc, finalElem_append _ noSep, stop, List.nil_append]

theorem finalElem_of_noSep {e : List Char} (noSep : '/' ∉ e) : finalElem e = e := by
  simpa [finalElem] using finalElem_append [] noSep

theorem ext_suffix (path : String) : (ext path).toList <:+ path.toList := by
  unfold ext
  dsimp only
  split
  · rename_i i _
    rw [String.toList_ofList, ← List.reverse_prefix, List.reverse_reverse]
    exact (List.take_prefix _ _).trans (List.takeWhile_prefix _)
  · exact List.nil_suffix

theorem noSep_ext (path : String) : '/' ∉ (ext path).toList := by
  unfold ext
  dsimp only
  split
  · rw [String.toList_ofList, List.mem_reverse]
    intro mem
    have := List.all_eq_true.mp List.all_takeWhile '/' (List.mem_of_mem_take mem)
    simp at this
  · simp

/-- A name `Clean` ends with `e`: the split ends with `e`, and perhaps an empty element after it. -/
theorem finalElem_cleanChars {path e : List Char} {segs : List (List Char)} (proper : ProperElem e)
    (split : path.splitOn '/' = segs ++ [e] ∨ path.splitOn '/' = segs ++ [e, []]) :
    finalElem (cleanChars path) = e := by
  have noSep : '/' ∉ e := proper.2.2.2
  have kept : ∀ r, (path.splitOn '/').foldl (cleanStep r) [] = e :: segs.foldl (cleanStep r) [] := by
    intro r
    rcases split with split | split
    · rw [split, List.foldl_append, List.foldl_cons, List.foldl_nil, cleanStep_proper proper]
    · rw [split, List.foldl_append, List.foldl_cons, List.foldl_cons, List.foldl_nil, cleanStep_proper proper]
      simp [cleanStep]
  -- the kept elements end with `e`, after a separator unless it is the only one
  have shape : ∀ r, ∃ pre, List.intercalate ['/'] ((path.splitOn '/').foldl (cleanStep r) []).reverse = e ∨
      List.intercalate ['/'] ((path.splitOn '/').foldl (cleanStep r) []).reverse = pre ++ '/' :: e := by
    intro r
    rw [kept, List.reverse_cons]
    by_cases atTop : (segs.foldl (cleanStep r) []).reverse = []
    · exact ⟨[], .inl (by rw [atTop, List.nil_append, List.intercalate_singleton])⟩
    · exact ⟨_, .inr (by rw [intercalate_append_singleton atTop, List.append_assoc, List.singleton_append])⟩
  unfold cleanChars
  dsimp only
  split
  · obtain ⟨pre, same | same⟩ := shape (decide (path.head? = some '/'))
    · rw [same]
      exact finalElem_sep [] noSep
    · rw [same, ← List.cons_append]
      exact finalElem_sep _ noSep
  · obtain ⟨pre, same | same⟩ := shape (decide (path.head? = some '/'))
    · rw [same, if_neg proper.1]
      exact finalElem_of_noSep noSep
    · rw [same, if_neg (by simp)]
      exact finalElem_sep _ noSep

theorem splitOn_elem {e t : List Char} (noSep : '/' ∉ e) (trail : t = [] ∨ t = ['/']) :
    (e ++ t).splitOn '/' = [e] ∨ (e ++ t).splitOn '/' = [e, []] := by
  rcases trail with rfl | rfl
  · exact .inl (by rw [List.append_nil, List.splitOn_eq_singleton noSep])
  · exact .inr (by rw [List.splitOn_append_cons_self, List.splitOn_eq_singleton noSep, List.splitOn_nil]; rfl)

/-- `Join` of a directory and a proper element, perhaps with a trailing separator, ends with that
element. -/
theorem finalElem_join (d : String) {e t : List Char} (proper : ProperElem e) (trail : t = [] ∨ t = ['/']) :
    finalElem (join [d, String.ofList (e ++ t)]).toList = e := by
  have nonempty : String.ofList (e ++ t) ≠ "" := by
    rw [ne_eq, ← String.toList_inj, String.toList_ofList]
    exact fun empty => proper.1 (List.append_eq_nil_iff.mp empty).1
  have split := splitOn_elem proper.2.2.2 trail
  unfold join
  split
  · simp only [join, nonempty, if_false, clean, String.intercalate_singleton, String.toList_ofList]
    rcases split with split | split
    · exact finalElem_cleanChars proper (.inl (split.trans (List.nil_append _).symm))
    · exact finalElem_cleanChars proper (.inr (split.trans (List.nil_append _).symm))
  · have path : d.toList ++ "/".toList ++ (e ++ t) = d.toList ++ '/' :: (e ++ t) := by simp
    simp only [clean, String.intercalate_cons_cons, String.intercalate_singleton, String.toList_append,
      String.toList_ofList]
    rw [path]
    rcases split with split | split
    · exact finalElem_cleanChars proper (.inl (by rw [List.splitOn_append_cons_self, split]))
    · exact finalElem_cleanChars proper (.inr (by rw [List.splitOn_append_cons_self, split]))

/-- `Base` has no separator unless it is the root. -/
theorem noSep_base {path : String} (notRoot : base path ≠ "/") : '/' ∉ (base path).toList := by
  unfold base at notRoot ⊢
  split
  · decide
  · rename_i nonempty
    rw [if_neg nonempty] at notRoot
    dsimp only at notRoot ⊢
    split
    · rename_i atRoot
      rw [if_pos atRoot] at notRoot
      exact absurd rfl notRoot
    · rw [String.toList_ofList, List.mem_reverse]
      intro mem
      have := List.all_eq_true.mp List.all_takeWhile '/' mem
      simp at this

/-- `Base` of a path whose final element is not empty is that element. -/
theorem base_eq_finalElem {path : String} (nonempty : finalElem path.toList ≠ []) :
    base path = String.ofList (finalElem path.toList) := by
  obtain ⟨last, rest, reversed⟩ : ∃ last rest, path.toList.reverse = last :: rest := by
    cases h : path.toList.reverse with
    | nil => simp [finalElem, h] at nonempty
    | cons last rest => exact ⟨last, rest, rfl⟩
  have notSep : last ≠ '/' := by
    intro same
    apply nonempty
    simp [finalElem, reversed, same]
  have notEmpty : path ≠ "" := by
    rintro rfl
    simp at reversed
  have stripped : (path.toList.reverse.dropWhile (· = '/')).reverse = path.toList := by
    rw [reversed, List.dropWhile_cons_of_neg (by simpa using notSep), ← reversed, List.reverse_reverse]
  simp only [base, notEmpty, if_false, stripped, finalElem] at nonempty ⊢
  rw [if_neg nonempty]

/-- The final element of a path counts no more of a character than its `Base`: they are equal
unless the path is empty or ends with a separator, where the final element is empty. -/
theorem count_finalElem_le_base (c : Char) (path : String) :
    (finalElem path.toList).count c ≤ (base path).toList.count c := by
  by_cases empty : finalElem path.toList = []
  · rw [empty, List.count_nil]
    exact Nat.zero_le _
  · rw [base_eq_finalElem empty, String.toList_ofList]

section Climb

open scoped List

/-- `Dir` climbs: each step that moves shortens the path or reaches `.` or `/`, so repeated `Dir`
stops at one of them, and a relative path climbs to `.`.

No element of `splitOn a` holds `a`. -/
theorem not_mem_of_mem_splitOn {α : Type} [BEq α] [LawfulBEq α] {a : α} :
    ∀ {xs s : List α}, s ∈ xs.splitOn a → a ∉ s
  | [], s, mem => by
    rw [List.splitOn_nil, List.mem_singleton] at mem
    simp [mem]
  | x :: xs, s, mem => by
    rw [List.splitOn_cons_eq_if_modifyHead] at mem
    obtain ⟨first, rest, split⟩ := List.exists_cons_of_ne_nil (List.splitOn_ne_nil a xs)
    have inTail : ∀ t ∈ first :: rest, a ∉ t := fun t m => not_mem_of_mem_splitOn (split ▸ m)
    split at mem
    · rename_i sep
      rcases List.mem_cons.mp mem with rfl | later
      · simp
      · exact not_mem_of_mem_splitOn later
    · rename_i notSep
      rw [split, List.modifyHead_cons] at mem
      rcases List.mem_cons.mp mem with rfl | later
      · intro inHead
        rcases List.mem_cons.mp inHead with same | inFirst
        · exact notSep (by simp [same])
        · exact inTail first List.mem_cons_self inFirst
      · exact inTail s (List.mem_cons_of_mem first later)

/-- One element of `Clean`: what it keeps stays among the path's non-empty elements, in order. -/
theorem cleanStep_sublist (rooted : Bool) {kept done : List (List Char)} (e : List Char)
    (sub : kept.reverse <+ done.filter (· ≠ [])) :
    (cleanStep rooted kept e).reverse <+ (done ++ [e]).filter (· ≠ []) := by
  rw [List.filter_append]
  by_cases skipped : e = [] ∨ e = ['.']
  · unfold cleanStep
    rw [if_pos skipped]
    exact sub.trans (List.sublist_append_left _ _)
  · have nonempty : e ≠ [] := fun empty => skipped (.inl empty)
    have keptE : [e].filter (· ≠ []) = [e] := by simp [nonempty]
    have pushed : (e :: kept).reverse <+ done.filter (· ≠ []) ++ [e] := by
      rw [List.reverse_cons]
      exact sub.append (List.Sublist.refl _)
    rw [keptE]
    by_cases dots : e = ['.', '.']
    · -- `..` removes the element before it, unless that is `..` too or there is none
      subst dots
      cases kept with
      | nil => cases rooted <;> simp [cleanStep]
      | cons top rest =>
        by_cases twice : top = ['.', '.']
        · simpa [cleanStep, twice] using pushed
        · rw [List.reverse_cons] at sub
          simpa [cleanStep, twice] using
            ((List.sublist_append_left _ _).trans sub).trans (List.sublist_append_left _ [['.', '.']])
    · unfold cleanStep
      rw [if_neg skipped, if_neg dots]
      exact pushed

theorem foldl_cleanStep_sublist (rooted : Bool) (segs : List (List Char)) :
    ∀ kept done : List (List Char), kept.reverse <+ done.filter (· ≠ []) →
      (segs.foldl (cleanStep rooted) kept).reverse <+ (done ++ segs).filter (· ≠ []) := by
  induction segs with
  | nil => simp
  | cons e rest ih =>
    intro kept done sub
    rw [List.foldl_cons, ← List.singleton_append, ← List.append_assoc]
    exact ih _ _ (cleanStep_sublist rooted e sub)

/-- How long `intercalate` makes a non-empty list: each element with one separator, less one. -/
theorem length_intercalate_add {α : Type} (sep : List α) :
    ∀ {l : List (List α)}, l ≠ [] →
      (List.intercalate sep l).length + sep.length = (l.map fun e => e.length + sep.length).sum
  | [e], _ => by simp
  | e :: f :: rest, _ => by
    rw [List.intercalate_cons_cons, List.length_append, List.length_append, List.map_cons,
      List.sum_cons, ← length_intercalate_add sep (List.cons_ne_nil f rest)]
    omega

theorem length_intercalate_le {α : Type} (sep : List α) {l₁ l₂ : List (List α)} (sub : l₁ <+ l₂)
    (nonempty : l₁ ≠ []) : (List.intercalate sep l₁).length ≤ (List.intercalate sep l₂).length := by
  have nonempty₂ : l₂ ≠ [] := fun empty => nonempty (List.eq_nil_of_sublist_nil (empty ▸ sub))
  have sums := (sub.map fun e => e.length + sep.length).sum_le_sum fun _ _ => Nat.zero_le _
  have first := length_intercalate_add sep nonempty
  have second := length_intercalate_add sep nonempty₂
  omega

/-- `Clean` of a path that ends in a separator gives `.`, `/`, or something no longer than the
path without that separator. -/
theorem cleanChars_trailing (y : List Char) :
    cleanChars (y ++ ['/']) = ['.'] ∨ cleanChars (y ++ ['/']) = ['/'] ∨
      (cleanChars (y ++ ['/'])).length ≤ y.length := by
  have emptyGone : ((y ++ ['/']).splitOn '/').filter (· ≠ []) = (y.splitOn '/').filter (· ≠ []) := by
    rw [List.splitOn_append_cons_self, List.splitOn_nil, List.filter_append]
    simp
  unfold cleanChars
  dsimp only
  set rooted := decide ((y ++ ['/']).head? = some '/')
  set kept := (((y ++ ['/']).splitOn '/').foldl (cleanStep rooted) []).reverse
  have sub : kept <+ (y.splitOn '/').filter (· ≠ []) := by
    have all := foldl_cleanStep_sublist rooted ((y ++ ['/']).splitOn '/') [] [] List.Sublist.slnil
    rw [List.nil_append, emptyGone] at all
    exact all
  -- the kept elements, joined, are no longer than any path with the same non-empty elements
  have bounded : ∀ w : List Char, (w.splitOn '/').filter (· ≠ []) = (y.splitOn '/').filter (· ≠ []) →
      kept ≠ [] → (List.intercalate ['/'] kept).length ≤ w.length := by
    intro w same nonempty
    rw [← same] at sub
    have toFilter := length_intercalate_le ['/'] sub nonempty
    have filtered := length_intercalate_le ['/'] (List.filter_sublist (l := w.splitOn '/'))
      (fun empty => nonempty (List.eq_nil_of_sublist_nil (empty ▸ sub)))
    rw [List.intercalate_splitOn] at filtered
    omega
  by_cases nothing : kept = []
  · rw [nothing]
    split_ifs <;> simp
  · cases y with
    | nil => simp at sub; exact absurd sub nothing
    | cons c z =>
      by_cases atRoot : c = '/'
      · subst atRoot
        have same : (z.splitOn '/').filter (· ≠ []) = (('/' :: z).splitOn '/').filter (· ≠ []) := by
          rw [List.splitOn_cons_eq_if_modifyHead, if_pos (by simp)]
          simp
        rw [if_pos (by simp)]
        right; right
        simpa using bounded z same nothing
      · rw [if_neg (by simpa using atRoot)]
        split_ifs
        · exact .inl rfl
        · exact .inr (.inr (bounded _ rfl nothing))

/-- Where `Dir` goes from `path`: to `.`, to `/`, or to a shorter path. -/
theorem dir_cases (path : String) :
    dir path = "." ∨ dir path = "/" ∨ (dir path).length < path.length := by
  unfold dir
  cases climbed : path.toList.reverse.dropWhile (· ≠ '/') with
  | nil => exact .inl rfl
  | cons c rest =>
    have sep : c = '/' := by
      have stopped := List.head?_dropWhile_not (fun x => decide (x ≠ '/')) path.toList.reverse
      rw [climbed] at stopped
      simpa using stopped
    subst sep
    have shorter : rest.length < path.length := by
      have suffix := (List.dropWhile_suffix (fun x => decide (x ≠ '/')) (l := path.toList.reverse)).length_le
      rw [climbed] at suffix
      simp only [List.length_cons, List.length_reverse, String.length_toList] at suffix
      omega
    rw [List.reverse_cons]
    rcases cleanChars_trailing rest.reverse with dot | root | le
    · exact .inl (by rw [dot])
    · exact .inr (.inl (by rw [root]))
    · right; right
      rw [String.length_ofList]
      simp only [List.length_reverse] at le
      omega

theorem dir_dot : dir "." = "." := by decide

theorem dir_slash : dir "/" = "/" := by decide

/-- How far `Dir` can still climb from `path`: nothing from `.` and `/`. -/
def dirMeasure (path : String) : Nat :=
  if path = "." ∨ path = "/" then 0 else path.length + 1

theorem dirMeasure_dir_lt {path : String} (moved : dir path ≠ path) :
    dirMeasure (dir path) < dirMeasure path := by
  have climbing : ¬(path = "." ∨ path = "/") := by
    rintro (rfl | rfl)
    · exact moved dir_dot
    · exact moved dir_slash
  unfold dirMeasure
  rw [if_neg climbing]
  rcases dir_cases path with dot | root | shorter
  · rw [if_pos (.inl dot)]
    omega
  · rw [if_pos (.inr root)]
    omega
  · split_ifs <;> omega

theorem dirMeasure_le (path : String) : dirMeasure path ≤ path.length + 1 := by
  unfold dirMeasure
  split_ifs <;> omega

/-- The only directories `Dir` stays at are `.` and `/`. -/
theorem eq_dot_or_slash_of_dir_eq {path : String} (fixed : dir path = path) : path = "." ∨ path = "/" := by
  rcases dir_cases path with dot | root | shorter
  · exact .inl (fixed.symm.trans dot)
  · exact .inr (fixed.symm.trans root)
  · rw [fixed] at shorter
    exact absurd shorter (Nat.lt_irrefl _)

/-- `filepath.IsAbs` on Unix: the path starts with the separator. -/
def isAbs (path : String) : Bool := path.toList.head? = some '/'

/-- `Dir` of a relative path is relative: what it keeps starts with an element of the path. -/
theorem dir_relative {path : String} (relative : isAbs path = false) : isAbs (dir path) = false := by
  unfold isAbs at relative ⊢
  unfold dir
  rw [String.toList_ofList]
  set front := (path.toList.reverse.dropWhile (· ≠ '/')).reverse
  have isPrefix : front <+: path.toList := by
    rw [← List.reverse_suffix, List.reverse_reverse]
    exact List.dropWhile_suffix _
  have notRooted : front.head? ≠ some '/' := by
    rw [List.prefix_iff_eq_take.mp isPrefix, List.head?_take]
    split_ifs
    · simp
    · simpa using relative
  unfold cleanChars
  dsimp only
  rw [if_neg notRooted, decide_eq_false notRooted]
  set kept := ((front.splitOn '/').foldl (cleanStep false) []).reverse
  have sub : kept <+ (front.splitOn '/').filter (· ≠ []) := by
    simpa using foldl_cleanStep_sublist false (front.splitOn '/') [] [] List.Sublist.slnil
  split_ifs with empty
  · decide
  · obtain ⟨e, rest, split⟩ := List.exists_cons_of_ne_nil (fun none : kept = [] => empty (by rw [none]; rfl))
    obtain ⟨inSegs, nonempty⟩ := List.mem_filter.mp (sub.subset (split ▸ List.mem_cons_self))
    obtain ⟨c, cs, rfl⟩ := List.exists_cons_of_ne_nil (by simpa using nonempty)
    have notSep : c ≠ '/' := fun same => not_mem_of_mem_splitOn inSegs (by rw [same]; exact List.mem_cons_self)
    rw [split, head?_intercalate (List.cons_ne_nil c cs)]
    simpa using notSep

/-- `path` and the directories `Dir` climbs to from it, up to `.` or `/`. -/
def ancestors (path : String) : List String :=
  path :: if dir path = path then [] else ancestors (dir path)
termination_by dirMeasure path
decreasing_by exact dirMeasure_dir_lt ‹_›

theorem ancestors_of_dir_eq {path : String} (fixed : dir path = path) : ancestors path = [path] := by
  rw [ancestors, if_pos fixed]

theorem ancestors_of_dir_ne {path : String} (moved : dir path ≠ path) :
    ancestors path = path :: ancestors (dir path) := by
  rw [ancestors, if_neg moved]

theorem mem_ancestors_self (path : String) : path ∈ ancestors path := by
  rw [ancestors]
  exact List.mem_cons_self

theorem mem_ancestors_dir {path : String} (moved : dir path ≠ path) : dir path ∈ ancestors path := by
  rw [ancestors_of_dir_ne moved]
  exact List.mem_cons_of_mem path (mem_ancestors_self (dir path))

theorem mem_ancestors_trans {a b c : String} (ab : a ∈ ancestors b) (bc : b ∈ ancestors c) :
    a ∈ ancestors c := by
  induction c using ancestors.induct with
  | case1 c ih =>
    by_cases moved : dir c = c
    · rw [ancestors_of_dir_eq moved, List.mem_singleton] at bc
      exact bc ▸ ab
    · rw [ancestors_of_dir_ne moved] at bc
      rcases List.mem_cons.mp bc with same | above
      · exact same ▸ ab
      · rw [ancestors_of_dir_ne moved]
        exact List.mem_cons_of_mem c (ih moved above)

/-- A relative path climbs to `.`. -/
theorem dot_mem_ancestors {path : String} (relative : isAbs path = false) : "." ∈ ancestors path := by
  induction path using ancestors.induct with
  | case1 path ih =>
    by_cases moved : dir path = path
    · rcases eq_dot_or_slash_of_dir_eq moved with rfl | rfl
      · exact mem_ancestors_self "."
      · exact absurd relative (by decide)
    · rw [ancestors_of_dir_ne moved]
      exact List.mem_cons_of_mem path (ih moved (dir_relative relative))

end Climb

section CleanPaths

open scoped List

/-- What `Clean` keeps is in normal form: some `..` elements (none under the root), then proper
elements. Cleaning it again keeps it, so `Clean` and `Dir` give clean paths; a clean directory
joined with a proper element is the two with a separator between them; and `Dir` of a name that
ends in a proper element does not change when the name is cleaned.

The elements `Clean` keeps of `path`, in order. -/
def cleanElems (path : List Char) : List (List Char) :=
  ((path.splitOn '/').foldl (cleanStep (path.head? = some '/')) []).reverse

/-- Elements in the order `Clean` keeps them: `..` elements, none under the root, then proper
ones. -/
def NormalElems (rooted : Bool) (elems : List (List Char)) : Prop :=
  ∃ k rest, elems = List.replicate k ['.', '.'] ++ rest ∧ (∀ e ∈ rest, ProperElem e) ∧ (rooted = true → k = 0)

theorem cleanElems_sublist (path : List Char) : cleanElems path <+ (path.splitOn '/').filter (· ≠ []) := by
  unfold cleanElems
  simpa using foldl_cleanStep_sublist (path.head? = some '/') (path.splitOn '/') [] [] List.Sublist.slnil

theorem ne_nil_of_mem_cleanElems {path e : List Char} (mem : e ∈ cleanElems path) : e ≠ [] := by
  simpa using (List.mem_filter.mp ((cleanElems_sublist path).subset mem)).2

theorem noSep_of_mem_cleanElems {path e : List Char} (mem : e ∈ cleanElems path) : '/' ∉ e :=
  not_mem_of_mem_splitOn (List.mem_filter.mp ((cleanElems_sublist path).subset mem)).1

theorem intercalate_cleanElems_eq_nil (path : List Char) :
    List.intercalate ['/'] (cleanElems path) = [] ↔ cleanElems path = [] := by
  cases kept : cleanElems path with
  | nil => simp
  | cons e rest =>
    have nonempty := ne_nil_of_mem_cleanElems (show e ∈ cleanElems path from kept ▸ List.mem_cons_self)
    obtain ⟨c, cs, rfl⟩ := List.exists_cons_of_ne_nil nonempty
    have head := @head?_intercalate (c :: cs) rest (List.cons_ne_nil c cs)
    simp only [reduceCtorEq, iff_false]
    intro empty
    rw [empty] at head
    simp at head

theorem cleanChars_eq (path : List Char) :
    cleanChars path = if path.head? = some '/' then '/' :: List.intercalate ['/'] (cleanElems path)
      else if cleanElems path = [] then ['.'] else List.intercalate ['/'] (cleanElems path) := by
  unfold cleanChars
  simp only [← intercalate_cleanElems_eq_nil path]
  rfl

theorem replicate_append_singleton {α : Type} (k : Nat) (a : α) :
    List.replicate k a ++ [a] = a :: List.replicate k a := by
  rw [← List.replicate_succ', List.replicate_succ]

theorem cleanStep_normal {rooted : Bool} {kept : List (List Char)} {e : List Char} (noSep : '/' ∉ e)
    (normal : NormalElems rooted kept.reverse) : NormalElems rooted (cleanStep rooted kept e).reverse := by
  obtain ⟨k, rest, split, proper, atRoot⟩ := normal
  by_cases skipped : e = [] ∨ e = ['.']
  · unfold cleanStep
    rw [if_pos skipped]
    exact ⟨k, rest, split, proper, atRoot⟩
  by_cases dots : e = ['.', '.']
  · subst dots
    -- `..` drops the last proper element, and otherwise joins the `..` elements
    rcases List.eq_nil_or_concat rest with rfl | ⟨front, last, rfl⟩
    · rw [List.append_nil] at split
      have stack : kept = List.replicate k ['.', '.'] := by
        rw [← List.reverse_reverse kept, split, List.reverse_replicate]
      subst stack
      cases k with
      | zero =>
        cases rooted
        · exact ⟨1, [], by simp [cleanStep], by simp, by simp⟩
        · exact ⟨0, [], by simp [cleanStep], by simp, fun _ => rfl⟩
      | succ k =>
        have notRooted : rooted = false := by
          cases rooted
          · rfl
          · exact absurd (atRoot rfl) (Nat.succ_ne_zero k)
        subst notRooted
        exact ⟨k + 2, [], by simp [cleanStep, List.replicate_succ, replicate_append_singleton], by simp, by simp⟩
    · have notDots : last ≠ ['.', '.'] := (proper last (by simp)).2.2.1
      have stack : kept = last :: (List.replicate k ['.', '.'] ++ front).reverse := by
        rw [← List.reverse_reverse kept, split]
        simp
      subst stack
      refine ⟨k, front, ?_, fun x mem => proper x (by simp [mem]), atRoot⟩
      simp [cleanStep, notDots]
  · have pushed : cleanStep rooted kept e = e :: kept := by
      unfold cleanStep
      rw [if_neg skipped, if_neg dots]
    have eProper : ProperElem e := ⟨fun h => skipped (.inl h), fun h => skipped (.inr h), dots, noSep⟩
    refine ⟨k, rest ++ [e], ?_, ?_, atRoot⟩
    · rw [pushed, List.reverse_cons, split, List.append_assoc]
    · intro x mem
      rcases List.mem_append.mp mem with old | added
      · exact proper x old
      · rw [List.mem_singleton.mp added]
        exact eProper

theorem foldl_cleanStep_normal (rooted : Bool) (segs : List (List Char)) (noSep : ∀ s ∈ segs, '/' ∉ s) :
    ∀ kept : List (List Char), NormalElems rooted kept.reverse →
      NormalElems rooted (segs.foldl (cleanStep rooted) kept).reverse := by
  induction segs with
  | nil => exact fun _ normal => normal
  | cons s rest ih =>
    intro kept normal
    exact ih (fun t mem => noSep t (List.mem_cons_of_mem s mem)) _
      (cleanStep_normal (noSep s List.mem_cons_self) normal)

theorem normal_cleanElems (path : List Char) : NormalElems (path.head? = some '/') (cleanElems path) :=
  foldl_cleanStep_normal _ _ (fun _ mem => not_mem_of_mem_splitOn mem) [] ⟨0, [], rfl, by simp, fun _ => rfl⟩

theorem foldl_cleanStep_dots (k : Nat) :
    (List.replicate k ['.', '.']).foldl (cleanStep false) [] = List.replicate k ['.', '.'] := by
  induction k with
  | zero => rfl
  | succ k ih =>
    rw [List.replicate_succ', List.foldl_append, ih]
    cases k with
    | zero => simp [cleanStep]
    | succ k => simp [cleanStep, List.replicate_succ, replicate_append_singleton]

/-- Folding `Clean` over elements in normal form gives them back. -/
theorem foldl_cleanStep_of_normal {rooted : Bool} {elems : List (List Char)} (normal : NormalElems rooted elems) :
    (elems.foldl (cleanStep rooted) []).reverse = elems := by
  obtain ⟨k, rest, rfl, proper, atRoot⟩ := normal
  have dots : (List.replicate k ['.', '.']).foldl (cleanStep rooted) [] = List.replicate k ['.', '.'] := by
    cases rooted
    · exact foldl_cleanStep_dots k
    · rw [atRoot rfl]
      rfl
  rw [List.foldl_append, dots, foldl_cleanStep_proper _ proper, List.reverse_append, List.reverse_reverse,
    List.reverse_replicate]

/-- `Clean` keeps a clean path. -/
theorem cleanChars_cleanChars (path : List Char) : cleanChars (cleanChars path) = cleanChars path := by
  set kept := cleanElems path with keptDef
  have normal := normal_cleanElems path
  by_cases nothing : kept = []
  · rw [cleanChars_eq path, ← keptDef, nothing]
    by_cases rooted : path.head? = some '/'
    · rw [if_pos rooted]
      decide
    · rw [if_neg rooted, if_pos rfl]
      decide
  · obtain ⟨e, rest, first⟩ := List.exists_cons_of_ne_nil nothing
    have split : (List.intercalate ['/'] kept).splitOn '/' = kept :=
      List.splitOn_intercalate '/' (fun _ mem => noSep_of_mem_cleanElems mem) nothing
    have body : List.intercalate ['/'] kept ≠ [] := (intercalate_cleanElems_eq_nil path).not.mpr nothing
    -- the body starts with the first kept element, which has no separator
    have relative : (List.intercalate ['/'] kept).head? ≠ some '/' := by
      have firstKept : e ∈ cleanElems path := keptDef ▸ first ▸ List.mem_cons_self
      have nonempty := ne_nil_of_mem_cleanElems firstKept
      obtain ⟨c, cs, rfl⟩ := List.exists_cons_of_ne_nil nonempty
      have notSep : c ≠ '/' := fun same =>
        noSep_of_mem_cleanElems firstKept (same ▸ List.mem_cons_self)
      rw [first, head?_intercalate (List.cons_ne_nil c cs)]
      simpa using notSep
    by_cases rooted : path.head? = some '/'
    · have again : cleanElems ('/' :: List.intercalate ['/'] kept) = kept := by
        unfold cleanElems
        rw [List.splitOn_cons_eq_if_modifyHead, if_pos (by simp), split]
        simp only [List.head?_cons, decide_true, List.foldl_cons]
        rw [show cleanStep true [] [] = [] by simp [cleanStep]]
        have normalRooted : NormalElems true kept := by simpa [rooted] using normal
        exact foldl_cleanStep_of_normal normalRooted
      rw [cleanChars_eq path, if_pos rooted, ← keptDef, cleanChars_eq, again]
      simp
    · have again : cleanElems (List.intercalate ['/'] kept) = kept := by
        unfold cleanElems
        rw [split, decide_eq_false relative]
        have normalRelative : NormalElems false kept := by simpa [rooted] using normal
        exact foldl_cleanStep_of_normal normalRelative
      rw [cleanChars_eq path, if_neg rooted, ← keptDef, if_neg nothing, cleanChars_eq, again, if_neg relative,
        if_neg nothing]

/-- A separator at the end of a path changes nothing. -/
theorem cleanElems_append_sep {q : List Char} (nonempty : q ≠ []) : cleanElems (q ++ ['/']) = cleanElems q := by
  unfold cleanElems
  rw [List.head?_append_of_ne_nil _ nonempty, List.splitOn_append_cons_self, List.splitOn_nil, List.foldl_append]
  simp [cleanStep]

theorem cleanChars_append_sep {q : List Char} (nonempty : q ≠ []) : cleanChars (q ++ ['/']) = cleanChars q := by
  rw [cleanChars_eq, cleanChars_eq q, cleanElems_append_sep nonempty, List.head?_append_of_ne_nil _ nonempty]

/-- A proper element after a separator is kept after the elements kept before it. -/
theorem cleanElems_append_elem (q : List Char) {e : List Char} (proper : ProperElem e) :
    cleanElems (q ++ '/' :: e) = cleanElems (q ++ ['/']) ++ [e] := by
  have start : (q ++ '/' :: e).head? = (q ++ ['/']).head? := by cases q <;> rfl
  unfold cleanElems
  rw [start, List.splitOn_append_cons_self, List.splitOn_append_cons_self, List.splitOn_eq_singleton proper.2.2.2,
    List.splitOn_nil, List.foldl_append, List.foldl_append, List.foldl_cons, List.foldl_cons, List.foldl_nil,
    List.foldl_nil, cleanStep_proper proper, List.reverse_cons]
  simp [cleanStep]

theorem cleanChars_append_elem {q e : List Char} (proper : ProperElem e) (kept : cleanElems (q ++ ['/']) ≠ []) :
    cleanChars (q ++ '/' :: e) = cleanChars (q ++ ['/']) ++ '/' :: e := by
  have start : (q ++ '/' :: e).head? = (q ++ ['/']).head? := by cases q <;> rfl
  have nonempty : cleanElems (q ++ ['/']) ++ [e] ≠ [] := by simp
  rw [cleanChars_eq, cleanChars_eq (q ++ ['/']), cleanElems_append_elem q proper, start,
    intercalate_append_singleton kept, if_neg nonempty, if_neg kept]
  split_ifs <;> simp

theorem cleanChars_append_elem_of_nil {q e : List Char} (proper : ProperElem e) (nothing : cleanElems (q ++ ['/']) = []) :
    cleanChars (q ++ '/' :: e) = if (q ++ ['/']).head? = some '/' then '/' :: e else e := by
  have start : (q ++ '/' :: e).head? = (q ++ ['/']).head? := by cases q <;> rfl
  have single : ([e] : List (List Char)) ≠ [] := by simp
  rw [cleanChars_eq, cleanElems_append_elem q proper, start, nothing, List.nil_append, List.intercalate_singleton,
    if_neg single]

/-- Where `Clean` keeps an element before the separator, the path is not `.` or `/`. -/
theorem cleanElems_ne_nil {q : List Char} (notDot : cleanChars q ≠ ['.']) (notRoot : cleanChars q ≠ ['/']) :
    cleanElems q ≠ [] := by
  intro nothing
  rw [cleanChars_eq, nothing] at notDot notRoot
  by_cases rooted : q.head? = some '/'
  · rw [if_pos rooted] at notRoot
    exact notRoot rfl
  · rw [if_neg rooted, if_pos rfl] at notDot
    exact notDot rfl

theorem cleanChars_ne_nil (path : List Char) : cleanChars path ≠ [] := by
  rw [cleanChars_eq]
  split_ifs with rooted nothing
  · simp
  · simp
  · exact (intercalate_cleanElems_eq_nil path).not.mpr nothing

theorem clean_clean (path : String) : clean (clean path) = clean path := by
  simp only [clean, String.toList_ofList, cleanChars_cleanChars]

theorem clean_dir (path : String) : clean (dir path) = dir path := by
  simp only [dir, clean, String.toList_ofList, cleanChars_cleanChars]

/-- `Dir` of a name that ends in a separator and an element without one. -/
theorem dir_append_elem (q : List Char) {e : List Char} (noSep : '/' ∉ e) :
    dir (String.ofList (q ++ '/' :: e)) = String.ofList (cleanChars (q ++ ['/'])) := by
  unfold dir
  rw [String.toList_ofList, List.reverse_append, List.reverse_cons, List.append_assoc, dropWhile_reverse_sep noSep,
    List.singleton_append, List.dropWhile_cons_of_neg (by simp), List.reverse_cons, List.reverse_reverse]

theorem dir_of_noSep {e : List Char} (noSep : '/' ∉ e) : dir (String.ofList e) = "." := by
  unfold dir
  rw [String.toList_ofList, ← List.append_nil e.reverse, dropWhile_reverse_sep noSep]
  rfl

/-- `Join` of a clean directory other than `.` and `/` and a proper element puts one separator
between them. -/
theorem join_elem {p : String} {e : List Char} (cleaned : clean p = p) (notDot : p ≠ ".") (notRoot : p ≠ "/")
    (proper : ProperElem e) : join [p, String.ofList e] = p ++ "/" ++ String.ofList e := by
  have chars : cleanChars p.toList = p.toList := by
    simpa [clean] using congrArg String.toList cleaned
  have nonempty : p ≠ "" := by
    rintro rfl
    exact absurd cleaned (by decide)
  have listNonempty : p.toList ≠ [] := by simpa using nonempty
  have kept : cleanElems (p.toList ++ ['/']) ≠ [] := by
    rw [cleanElems_append_sep listNonempty]
    refine cleanElems_ne_nil ?_ ?_
    · rw [chars]
      simpa [← String.toList_inj] using notDot
    · rw [chars]
      simpa [← String.toList_inj] using notRoot
  simp only [join, nonempty, if_false, clean, String.intercalate_cons_cons, String.intercalate_singleton]
  rw [← String.toList_inj]
  simp only [String.toList_ofList, String.toList_append]
  rw [show "/".toList = ['/'] from rfl, List.append_assoc, List.singleton_append, cleanChars_append_elem proper kept,
    cleanChars_append_sep listNonempty, chars]

theorem dir_join_elem {p : String} {e : List Char} (cleaned : clean p = p) (notDot : p ≠ ".") (notRoot : p ≠ "/")
    (proper : ProperElem e) : dir (join [p, String.ofList e]) = p := by
  have chars : cleanChars p.toList = p.toList := by
    simpa [clean] using congrArg String.toList cleaned
  have listNonempty : p.toList ≠ [] := by
    intro empty
    rw [empty] at chars
    exact cleanChars_ne_nil [] chars
  have joined : join [p, String.ofList e] = String.ofList (p.toList ++ '/' :: e) := by
    rw [join_elem cleaned notDot notRoot proper, ← String.toList_inj]
    simp
  rw [joined, dir_append_elem _ proper.2.2.2, cleanChars_append_sep listNonempty, chars, String.ofList_toList]

/-- A name that ends in a separator and a proper element, below a directory other than `.` and
`/`: `Clean` gives `Join` of its `Dir` and that element. -/
theorem clean_eq_join_dir {q e : List Char} (proper : ProperElem e)
    (notDot : dir (String.ofList (q ++ '/' :: e)) ≠ ".") (notRoot : dir (String.ofList (q ++ '/' :: e)) ≠ "/") :
    clean (String.ofList (q ++ '/' :: e)) = join [dir (String.ofList (q ++ '/' :: e)), String.ofList e] := by
  have parent := dir_append_elem q proper.2.2.2
  have kept : cleanElems (q ++ ['/']) ≠ [] := by
    rw [parent] at notDot notRoot
    refine cleanElems_ne_nil ?_ ?_
    · simpa [← String.toList_inj] using notDot
    · simpa [← String.toList_inj] using notRoot
  rw [join_elem (clean_dir _) notDot notRoot proper, parent, ← String.toList_inj]
  simp only [clean, String.toList_ofList, String.toList_append]
  rw [cleanChars_append_elem proper kept]
  simp

/-- `Dir` of a name that ends in a proper element does not change when the name is cleaned. -/
theorem dir_clean_append_elem (q : List Char) {e : List Char} (proper : ProperElem e) :
    dir (clean (String.ofList (q ++ '/' :: e))) = dir (String.ofList (q ++ '/' :: e)) := by
  rw [dir_append_elem q proper.2.2.2]
  unfold clean
  rw [String.toList_ofList]
  by_cases kept : cleanElems (q ++ ['/']) = []
  · rw [cleanChars_append_elem_of_nil proper kept, cleanChars_eq (q ++ ['/']), kept]
    by_cases rooted : (q ++ ['/']).head? = some '/'
    · rw [if_pos rooted, if_pos rooted, ← List.nil_append ('/' :: e), dir_append_elem [] proper.2.2.2]
      decide
    · rw [if_neg rooted, if_neg rooted, if_pos rfl]
      exact dir_of_noSep proper.2.2.2
  · have nonempty : q ++ ['/'] ≠ [] := by simp
    rw [cleanChars_append_elem proper kept, dir_append_elem _ proper.2.2.2,
      cleanChars_append_sep (cleanChars_ne_nil _), cleanChars_cleanChars]

/-- A path is its final element, after everything up to its last separator if it has one. -/
theorem eq_finalElem_or (path : List Char) : path = finalElem path ∨ ∃ q, path = q ++ '/' :: finalElem path := by
  have whole := List.takeWhile_append_dropWhile (p := fun c => decide (c ≠ '/')) (l := path.reverse)
  have stopped := List.head?_dropWhile_not (fun c => decide (c ≠ '/')) path.reverse
  have final : finalElem path = (path.reverse.takeWhile fun c => decide (c ≠ '/')).reverse := rfl
  generalize path.reverse.takeWhile (fun c => decide (c ≠ '/')) = front at whole final
  generalize path.reverse.dropWhile (fun c => decide (c ≠ '/')) = back at whole stopped
  have full : path = (front ++ back).reverse := by rw [whole, List.reverse_reverse]
  cases back with
  | nil =>
    left
    rw [final, full, List.append_nil]
  | cons c after =>
    have sep : c = '/' := by simpa using stopped
    subst sep
    right
    exact ⟨after.reverse, by rw [final, full]; simp⟩

theorem dir_ne_empty (path : String) : dir path ≠ "" := by
  unfold dir
  rw [Ne, ← String.toList_inj, String.toList_ofList]
  exact cleanChars_ne_nil _

/-- No directory `Dir` climbs to from a non-empty path is empty. -/
theorem ne_empty_of_mem_ancestors {path a : String} (nonempty : path ≠ "") (mem : a ∈ ancestors path) :
    a ≠ "" := by
  induction path using ancestors.induct with
  | case1 path ih =>
    by_cases moved : dir path = path
    · rw [ancestors_of_dir_eq moved, List.mem_singleton] at mem
      exact mem ▸ nonempty
    · rw [ancestors_of_dir_ne moved] at mem
      rcases List.mem_cons.mp mem with rfl | above
      · exact nonempty
      · exact ih moved (dir_ne_empty path) above

/-- `Clean` keeps the proper element a name ends with. -/
theorem finalElem_clean_append_elem (q : List Char) {e : List Char} (proper : ProperElem e) :
    finalElem (clean (String.ofList (q ++ '/' :: e))).toList = e := by
  unfold clean
  rw [String.toList_ofList, String.toList_ofList]
  exact finalElem_cleanChars proper
    (.inl (by rw [List.splitOn_append_cons_self, List.splitOn_eq_singleton proper.2.2.2]))

theorem clean_join_cons {elem : String} (elems : List String) (nonempty : elem ≠ "") :
    clean (join (elem :: elems)) = join (elem :: elems) := by
  rw [join, if_neg nonempty, clean_clean]

/-- `Dir` of an absolute path is absolute: what it keeps starts with the path's separator. -/
theorem dir_absolute {path : String} (absolute : isAbs path = true) : isAbs (dir path) = true := by
  unfold isAbs at absolute ⊢
  unfold dir
  rw [String.toList_ofList, cleanChars_eq]
  set front := (path.toList.reverse.dropWhile (· ≠ '/')).reverse
  have isPrefix : front <+: path.toList := by
    rw [← List.reverse_suffix, List.reverse_reverse]
    exact List.dropWhile_suffix _
  -- the separator the path starts with is one `dropWhile` stops at
  have kept : front ≠ [] := by
    have sep : '/' ∈ path.toList.reverse := List.mem_reverse.mpr (List.mem_of_head? (of_decide_eq_true absolute))
    rw [ne_eq, List.reverse_eq_nil_iff, List.dropWhile_eq_nil_iff]
    intro all
    simpa using all '/' sep
  have rooted : front.head? = some '/' := by
    rw [List.prefix_iff_eq_take.mp isPrefix, List.head?_take, if_neg (by simpa using kept)]
    exact of_decide_eq_true absolute
  rw [if_pos rooted]
  rfl

end CleanPaths

end Go.Filepath
