import Mathlib

namespace Soong.Finder

open scoped List

/-- `joinCleanPaths`. -/
def joinCleanPaths (base leaf : String) : String :=
  if base = "" then leaf
  else if base = "/" then base ++ leaf
  else if leaf = "" then base
  else base ++ "/" ++ leaf

/-- The fields of `DirEntries` that `listMatches` fills in; it leaves `Path` empty. -/
structure DirEntries where
  dirNames : List String
  fileNames : List String
  deriving DecidableEq, Repr

/-- A `pathMap` node: its path, the file names of its `mapNode`, its children by name and its
`approximateNumDescendents`. -/
structure PathMap where
  path : String
  fileNames : List String
  children : List (String × PathMap)
  approximateNumDescendents : Int

/-- `listMatches`, given the order in which `range` visited the names of the children: the
children the filter descends into and the paths of the files it keeps. -/
def listMatches (node : PathMap) (filter : DirEntries → List String × List String)
    (dirNames : List String) : List PathMap × List String :=
  let kept := filter ⟨dirNames, node.fileNames⟩
  (kept.1.filterMap fun name => node.children.lookup name, kept.2.map (joinCleanPaths node.path))

/-- The runs of the loop `for len(nodes) > 0` of `findInCacheSinglethreaded`, from the queue and
the matches so far to what it returns. -/
inductive SearchLoop (filter : DirEntries → List String × List String) :
    List PathMap → List String → List String → Prop
  | done (found : List String) : SearchLoop filter [] found found
  | round {node : PathMap} {nodes : List PathMap} {found out : List String} (dirNames : List String)
      (ranged : dirNames.Perm (node.children.map Prod.fst))
      (rest : SearchLoop filter (nodes ++ (listMatches node filter dirNames).1)
        (found ++ (listMatches node filter dirNames).2) out) :
      SearchLoop filter (node :: nodes) found out

/-- The runs of `findInCacheSinglethreaded`. -/
def FindInCacheSinglethreaded (filter : DirEntries → List String × List String) (node : PathMap)
    (out : List String) : Prop :=
  SearchLoop filter [node] [] out

/-- `totalWork`: the sum of the children's `approximateNumDescendents`. -/
def totalWork (node : PathMap) : Int :=
  (node.children.map fun child => child.2.approximateNumDescendents).sum

/-- `numChildThreads`: Go's `/` on `int` truncates toward zero. -/
def numChildThreads (approxNumThreads : Int) (node child : PathMap) : Int :=
  (approxNumThreads * child.approximateNumDescendents).tdiv (totalWork node)

/-- The finder's search of its cache: `findInCacheSinglethreaded` runs a queue of directories,
`findInCacheMultithreaded` splits a thread budget over the children and collects their results
from a channel. Two choices are the runtime's: the order in which `range` visits the children of
a node, and the order in which the goroutines deliver their results. The runs are relations that
allow every such choice. What a search finds is `allMatches`, the matches of a node followed by
those below it, and each run finds a permutation of it when the filter does not depend on the
order of the names it is given.

The runs of `findInCacheMultithreaded`. Below two threads it is the single-threaded search;
otherwise each child the filter keeps is searched by a goroutine with its share of the budget,
which divides by `totalWork` (and panics on zero), and the results arrive in any order. -/
inductive FindInCacheMultithreaded (filter : DirEntries → List String × List String) :
    PathMap → Int → List String → Prop
  | single {node : PathMap} {approxNumThreads : Int} {out : List String} (few : approxNumThreads < 2)
      (run : FindInCacheSinglethreaded filter node out) :
      FindInCacheMultithreaded filter node approxNumThreads out
  | spawn {node : PathMap} {approxNumThreads : Int} (dirNames : List String)
      (ranged : dirNames.Perm (node.children.map Prod.fst)) (many : ¬approxNumThreads < 2)
      (divides : (listMatches node filter dirNames).1 ≠ [] → totalWork node ≠ 0)
      (childrenResults : List (List String))
      (sent : childrenResults.length = (listMatches node filter dirNames).1.length)
      (children : ∀ p ∈ (listMatches node filter dirNames).1.zip childrenResults,
        FindInCacheMultithreaded filter p.1 (numChildThreads approxNumThreads node p.1) p.2)
      (received : List (List String)) (arrival : received.Perm childrenResults) :
      FindInCacheMultithreaded filter node approxNumThreads ((listMatches node filter dirNames).2 ++ received.flatten)

theorem sizeOf_child {node : PathMap} {name : String} {child : PathMap} (mem : (name, child) ∈ node.children) :
    sizeOf child < sizeOf node := by
  obtain ⟨path, fileNames, children, approx⟩ := node
  have inside := List.sizeOf_lt_of_mem mem
  simp only [Prod.mk.sizeOf_spec, PathMap.mk.sizeOf_spec] at inside ⊢
  omega

theorem mem_listMatches {node : PathMap} {filter : DirEntries → List String × List String}
    {dirNames : List String} {child : PathMap} (mem : child ∈ (listMatches node filter dirNames).1) :
    ∃ name, (name, child) ∈ node.children := by
  obtain ⟨name, -, found⟩ := List.mem_filterMap.mp mem
  obtain ⟨before, after, split, -⟩ := List.lookup_eq_some_iff.mp found
  exact ⟨name, split ▸ List.mem_append_right _ List.mem_cons_self⟩

/-- What a search finds, visiting the children in the order they are stored.

The matches of `node` and of every directory below it that the filter descends into. -/
def allMatches (filter : DirEntries → List String × List String) (node : PathMap) : List String :=
  (listMatches node filter (node.children.map Prod.fst)).2 ++
    (listMatches node filter (node.children.map Prod.fst)).1.attach.flatMap fun ⟨child, _kept⟩ =>
      allMatches filter child
termination_by sizeOf node
decreasing_by
  obtain ⟨name, mem⟩ := mem_listMatches _kept
  exact sizeOf_child mem

theorem allMatches_eq (filter : DirEntries → List String × List String) (node : PathMap) :
    allMatches filter node = (listMatches node filter (node.children.map Prod.fst)).2 ++
      (listMatches node filter (node.children.map Prod.fst)).1.flatMap (allMatches filter) := by
  rw [allMatches]
  simp

/-- The number of rounds the single-threaded loop spends on `node` and below it, when `range`
visits the children in the order they are stored. -/
def visits (filter : DirEntries → List String × List String) (node : PathMap) : Nat :=
  1 + ((listMatches node filter (node.children.map Prod.fst)).1.attach.map fun ⟨child, _kept⟩ =>
    visits filter child).sum
termination_by sizeOf node
decreasing_by
  obtain ⟨name, mem⟩ := mem_listMatches _kept
  exact sizeOf_child mem

theorem visits_eq (filter : DirEntries → List String × List String) (node : PathMap) :
    visits filter node = 1 + ((listMatches node filter (node.children.map Prod.fst)).1.map (visits filter)).sum := by
  rw [visits]
  simp

/-- A tree whose `approximateNumDescendents` are all at least one, as `newPathMap` starts them. -/
inductive Positive : PathMap → Prop
  | mk {node : PathMap} (own : 1 ≤ node.approximateNumDescendents)
      (children : ∀ c ∈ node.children, Positive c.2) : Positive node

/-- A filter whose choices, taken as multisets, do not depend on the order of the directory
names it is given. -/
def OrderInsensitive (filter : DirEntries → List String × List String) : Prop :=
  ∀ names names' fileNames, names.Perm names' →
    (filter ⟨names, fileNames⟩).1.Perm (filter ⟨names', fileNames⟩).1 ∧
      (filter ⟨names, fileNames⟩).2.Perm (filter ⟨names', fileNames⟩).2

theorem flatten_perm_of_zip {α β : Type} (f : α → List β) :
    ∀ {xs : List α} {ys : List (List β)}, ys.length = xs.length → (∀ p ∈ xs.zip ys, p.2.Perm (f p.1)) →
      ys.flatten.Perm (xs.flatMap f)
  | [], [], _, _ => List.Perm.refl _
  | x :: xs, y :: ys, lengths, each => by
    have head : y.Perm (f x) := each (x, y) List.mem_cons_self
    have tail := flatten_perm_of_zip f (Nat.succ.inj lengths)
      (fun p mem => each p (List.mem_cons_of_mem _ mem))
    rw [List.flatten_cons, List.flatMap_cons]
    exact head.append tail

theorem exists_forall₂ {α β : Type} {R : α → β → Prop} :
    ∀ {xs : List α}, (∀ x ∈ xs, ∃ y, R x y) → ∃ ys, List.Forall₂ R xs ys
  | [], _ => ⟨[], .nil⟩
  | x :: xs, each => by
    obtain ⟨y, head⟩ := each x List.mem_cons_self
    obtain ⟨ys, tail⟩ := exists_forall₂ fun x' mem => each x' (List.mem_cons_of_mem x mem)
    exact ⟨y :: ys, .cons head tail⟩

section Agree

variable {filter : DirEntries → List String × List String} (insensitive : OrderInsensitive filter)
include insensitive

/-- Whatever order `range` picks, the filter keeps the same children and files up to order. -/
theorem listMatches_perm {node : PathMap} {dirNames : List String}
    (ranged : dirNames.Perm (node.children.map Prod.fst)) :
    (listMatches node filter dirNames).1.Perm (listMatches node filter (node.children.map Prod.fst)).1 ∧
      (listMatches node filter dirNames).2.Perm (listMatches node filter (node.children.map Prod.fst)).2 := by
  obtain ⟨dirs, files⟩ := insensitive dirNames _ node.fileNames ranged
  exact ⟨dirs.filterMap _, files.map _⟩

theorem allMatches_perm_of_ranged {node : PathMap} {dirNames : List String}
    (ranged : dirNames.Perm (node.children.map Prod.fst)) :
    ((listMatches node filter dirNames).2 ++ (listMatches node filter dirNames).1.flatMap (allMatches filter)).Perm
      (allMatches filter node) := by
  obtain ⟨dirs, files⟩ := listMatches_perm insensitive ranged
  rw [allMatches_eq]
  exact files.append (dirs.flatMap_right _)

/-- The run lemma of the single-threaded loop: it finds the matches so far and everything below
the nodes in its queue. -/
theorem searchLoop_perm {nodes : List PathMap} {found out : List String} (run : SearchLoop filter nodes found out) :
    out.Perm (found ++ nodes.flatMap (allMatches filter)) := by
  induction run with
  | done found => simp
  | @round node nodes found out dirNames ranged rest ih =>
    have own := allMatches_perm_of_ranged insensitive ranged
    -- the queue holds the children of `node` behind the other nodes; a permutation moves them
    calc out ~ found ++ (listMatches node filter dirNames).2 ++
            (nodes ++ (listMatches node filter dirNames).1).flatMap (allMatches filter) := ih
      _ = found ++ ((listMatches node filter dirNames).2 ++
            (nodes.flatMap (allMatches filter) ++ (listMatches node filter dirNames).1.flatMap (allMatches filter))) := by
        simp [List.flatMap_append]
      _ ~ found ++ (((listMatches node filter dirNames).2 ++
            (listMatches node filter dirNames).1.flatMap (allMatches filter)) ++ nodes.flatMap (allMatches filter)) := by
        rw [List.append_assoc]
        exact ((List.perm_append_comm).append_left _).append_left _
      _ ~ found ++ (allMatches filter node ++ nodes.flatMap (allMatches filter)) :=
        (own.append_right _).append_left _
      _ = found ++ (node :: nodes).flatMap (allMatches filter) := by simp

theorem findInCacheSinglethreaded_perm {node : PathMap} {out : List String}
    (run : FindInCacheSinglethreaded filter node out) : out.Perm (allMatches filter node) := by
  simpa using searchLoop_perm insensitive run

/-- By induction over the goroutines' runs: each child's results are a permutation of what lies
below it, and the channel only permutes whole results. -/
theorem findInCacheMultithreaded_perm {node : PathMap} {approxNumThreads : Int} {out : List String}
    (run : FindInCacheMultithreaded filter node approxNumThreads out) : out.Perm (allMatches filter node) := by
  induction run with
  | single few run => exact findInCacheSinglethreaded_perm insensitive run
  | @spawn node approxNumThreads dirNames ranged many divides childrenResults sent children received arrival ih =>
    have gathered : childrenResults.flatten.Perm ((listMatches node filter dirNames).1.flatMap (allMatches filter)) :=
      flatten_perm_of_zip _ sent ih
    exact ((arrival.flatten.trans gathered).append_left _).trans (allMatches_perm_of_ranged insensitive ranged)

end Agree

variable {filter : DirEntries → List String × List String}

/-- Both searches return: the loop runs out of nodes, and with positive counts no division is by
zero. -/
theorem searchLoop_exists : ∀ (n : Nat) (nodes : List PathMap) (found : List String),
    (nodes.map (visits filter)).sum = n → ∃ out, SearchLoop filter nodes found out := by
  intro n
  induction n using Nat.strong_induction_on with
  | _ n ih =>
    intro nodes found total
    cases nodes with
    | nil => exact ⟨found, .done found⟩
    | cons node nodes =>
      have fewer : ((nodes ++ (listMatches node filter (node.children.map Prod.fst)).1).map (visits filter)).sum < n := by
        rw [← total, List.map_cons, List.sum_cons, visits_eq, List.map_append, List.sum_append]
        omega
      obtain ⟨out, rest⟩ := ih _ fewer _
        (found ++ (listMatches node filter (node.children.map Prod.fst)).2) rfl
      exact ⟨out, .round _ (List.Perm.refl _) rest⟩

theorem findInCacheSinglethreaded_exists (node : PathMap) : ∃ out, FindInCacheSinglethreaded filter node out :=
  searchLoop_exists _ [node] [] rfl

theorem totalWork_pos {node : PathMap} (positive : Positive node) (dirNames : List String)
    (spawned : (listMatches node filter dirNames).1 ≠ []) : 0 < totalWork node := by
  obtain ⟨child, kept⟩ := List.exists_mem_of_ne_nil _ spawned
  obtain ⟨name, mem⟩ := mem_listMatches kept
  cases positive with
  | mk own children =>
    apply List.sum_pos
    · intro x listed
      obtain ⟨c, inside, rfl⟩ := List.mem_map.mp listed
      have := children c inside
      cases this with
      | mk own' _ => omega
    · exact List.map_eq_nil_iff.not.mpr (List.ne_nil_of_mem mem)

theorem findInCacheMultithreaded_exists {node : PathMap} (positive : Positive node) :
    ∀ approxNumThreads, ∃ out, FindInCacheMultithreaded filter node approxNumThreads out := by
  induction positive with
  | @mk node own children ih =>
    intro approxNumThreads
    by_cases few : approxNumThreads < 2
    · obtain ⟨out, run⟩ : ∃ out, FindInCacheSinglethreaded filter node out := findInCacheSinglethreaded_exists node
      exact ⟨out, .single few run⟩
    · -- one run for each child the filter keeps, delivered in the order they were spawned
      have each : ∀ child ∈ (listMatches node filter (node.children.map Prod.fst)).1, ∃ out,
          FindInCacheMultithreaded filter child (numChildThreads approxNumThreads node child) out := by
        intro child kept
        obtain ⟨name, mem⟩ := mem_listMatches kept
        exact ih (name, child) mem _
      obtain ⟨childrenResults, runs⟩ := exists_forall₂ each
      obtain ⟨sent, zipped⟩ := List.forall₂_iff_zip.mp runs
      have divides : (listMatches node filter (node.children.map Prod.fst)).1 ≠ [] → totalWork node ≠ 0 :=
        fun spawned => Int.ne_of_gt (totalWork_pos (.mk own children) _ spawned)
      exact ⟨_, .spawn _ (List.Perm.refl _) few divides childrenResults sent.symm
        (fun p mem => zipped mem) childrenResults (List.Perm.refl _)⟩

theorem findInCache_agree {filter : DirEntries → List String × List String} (insensitive : OrderInsensitive filter)
    {node : PathMap} (positive : Positive node) (approxNumThreads : Int) :
    (∃ out, FindInCacheMultithreaded filter node approxNumThreads out) ∧
      (∃ out, FindInCacheSinglethreaded filter node out) ∧
      ∀ out out', FindInCacheMultithreaded filter node approxNumThreads out →
        FindInCacheSinglethreaded filter node out' → out ~ out' :=
  ⟨findInCacheMultithreaded_exists positive approxNumThreads, findInCacheSinglethreaded_exists node,
    fun _ _ multi single =>
      (findInCacheMultithreaded_perm insensitive multi).trans (findInCacheSinglethreaded_perm insensitive single).symm⟩

/-- A source tree with a build file at the top and in each of two subdirectories. -/
def sourceTree : PathMap :=
  ⟨"src", ["Android.bp"], [("a", ⟨"src/a", ["Android.bp"], [], 1⟩), ("b", ⟨"src/b", ["Android.bp", "main.c"], [], 1⟩)], 3⟩

theorem positive_sourceTree : Positive sourceTree := by
  refine .mk (by decide) ?_
  intro c mem
  simp only [sourceTree, List.mem_cons, List.not_mem_nil, or_false] at mem
  rcases mem with rfl | rfl <;> exact .mk (by decide) (by simp)

/-- The filter of `FindNamedAt`-style searches: every directory, and the files called
`Android.bp`. -/
def androidBpFiles (entries : DirEntries) : List String × List String :=
  (entries.dirNames, entries.fileNames.filter (· == "Android.bp"))

theorem findInCache_agree_sourceTree :
    OrderInsensitive androidBpFiles ∧ Positive sourceTree ∧
      ((∃ out, FindInCacheMultithreaded androidBpFiles sourceTree 4 out) ∧
        (∃ out, FindInCacheSinglethreaded androidBpFiles sourceTree out) ∧
        ∀ out out', FindInCacheMultithreaded androidBpFiles sourceTree 4 out →
          FindInCacheSinglethreaded androidBpFiles sourceTree out' → out ~ out') :=
  have insensitive : OrderInsensitive androidBpFiles := fun _ _ _ ranged => ⟨ranged, List.Perm.refl _⟩
  ⟨insensitive, positive_sourceTree, findInCache_agree insensitive positive_sourceTree 4⟩

/-- A filter that descends only into the first directory it is given. -/
def firstDirOnly (entries : DirEntries) : List String × List String :=
  (entries.dirNames.take 1, entries.fileNames)

/-- With an order-sensitive filter the two searches can find different files, because `range`
over the children map visits them in the order the runtime picks. -/
theorem findInCache_first_dir_only :
    FindInCacheSinglethreaded firstDirOnly sourceTree ["src/Android.bp", "src/a/Android.bp"] ∧
      FindInCacheMultithreaded firstDirOnly sourceTree 4 ["src/Android.bp", "src/b/Android.bp", "src/b/main.c"] ∧
      ¬ ["src/Android.bp", "src/a/Android.bp"] ~ ["src/Android.bp", "src/b/Android.bp", "src/b/main.c"] := by
  refine ⟨?_, ?_, by decide⟩
  · refine .round ["a", "b"] (by decide) ?_
    refine .round [] (by decide) ?_
    exact .done _
  · refine .spawn ["b", "a"] (by decide) (by decide) (fun _ => by decide) [["src/b/Android.bp", "src/b/main.c"]] rfl ?_
      [["src/b/Android.bp", "src/b/main.c"]] (List.Perm.refl _)
    intro p mem
    have kept : (listMatches sourceTree firstDirOnly ["b", "a"]).1 = [⟨"src/b", ["Android.bp", "main.c"], [], 1⟩] :=
      rfl
    have child : p = (⟨"src/b", ["Android.bp", "main.c"], [], 1⟩, ["src/b/Android.bp", "src/b/main.c"]) := by
      simpa [kept] using mem
    subst child
    exact .spawn [] (by decide) (by decide) (fun spawned => (spawned rfl).elim) [] rfl (by simp) []
      (List.Perm.refl _)

end Soong.Finder
