import Soong.Finder.Search
import Soong.Go.Strings
import Soong.Go.Filepath

namespace Soong.Finder

open Go.Strings Go.Filepath

/-- `statResponse`: `ModTime` is an `int64`, `Inode` and `Device` are `uint64`s. -/
structure StatResponse where
  modTime : Int
  inode : Nat
  device : Nat
  deriving DecidableEq, Repr

/-- A `[]string` as `encoding/json` writes it: `none` is the nil slice, written `null`. -/
abbrev Names := Option (List String)

/-- A `pathMap` node as `dumpInto` reads it: the `mapNode`'s stats and file names, and the
children by name. -/
structure MapNode where
  stat : StatResponse
  fileNames : Names
  children : List (String × MapNode)

/-- `dirFullInfo`. -/
structure DirFullInfo where
  stat : StatResponse
  path : String
  fileNames : Names
  deriving DecidableEq, Repr

section Dump

/-- The path `dumpInto` gives the child `key` of the directory at `path`. -/
def childPath (path key : String) : String :=
  let childPath := joinCleanPaths path key
  if childPath.toList.head? = some '/' then childPath else "/" ++ childPath

/-- The runs of `dumpInto`: the node's own entry, then the dump of each child in the order in
which `range` visits them. -/
inductive DumpInto : String → MapNode → List DirFullInfo → Prop
  | visit {path : String} {node : MapNode} (order : List (String × MapNode)) (ranged : order.Perm node.children)
      (dumps : List (List DirFullInfo)) (sent : dumps.length = order.length)
      (children : ∀ p ∈ order.zip dumps, DumpInto (childPath path p.1.1) p.1.2 p.2) :
      DumpInto path node (⟨node.stat, path, node.fileNames⟩ :: dumps.flatten)

theorem sizeOf_mapNode_child {node : MapNode} {child : String × MapNode} (mem : child ∈ node.children) :
    sizeOf child.2 < sizeOf node := by
  obtain ⟨stat, fileNames, children⟩ := node
  obtain ⟨name, child⟩ := child
  have inside := List.sizeOf_lt_of_mem mem
  simp only [Prod.mk.sizeOf_spec, MapNode.mk.sizeOf_spec] at inside ⊢
  omega

/-- Induction on a tree, each node after its children. -/
@[elab_as_elim]
theorem MapNode.induction {motive : MapNode → Prop}
    (visit : ∀ node : MapNode, (∀ child ∈ node.children, motive child.2) → motive node) (node : MapNode) :
    motive node :=
  visit node fun child _mem => MapNode.induction visit child.2
termination_by sizeOf node
decreasing_by exact sizeOf_mapNode_child _mem

/-- `dumpInto` visiting the children in the order they are stored. -/
def dump (path : String) (node : MapNode) : List DirFullInfo :=
  ⟨node.stat, path, node.fileNames⟩ :: node.children.attach.flatMap fun ⟨child, _mem⟩ =>
    dump (childPath path child.1) child.2
termination_by sizeOf node
decreasing_by exact sizeOf_mapNode_child _mem

theorem dump_eq (path : String) (node : MapNode) :
    dump path node = ⟨node.stat, path, node.fileNames⟩ :: node.children.flatMap fun child =>
      dump (childPath path child.1) child.2 := by
  rw [dump, List.flatMap, List.flatMap, List.map_attach_eq_pmap]
  simp

/-- Whatever order `range` visits the children in, `dumpInto` dumps the same entries. -/
theorem DumpInto.perm_dump {path : String} {node : MapNode} {out : List DirFullInfo} (run : DumpInto path node out) :
    out.Perm (dump path node) := by
  induction run with
  | @visit path node order ranged dumps sent children ih =>
    have visited := flatten_perm_of_zip (fun child : String × MapNode => dump (childPath path child.1) child.2) sent ih
    rw [dump_eq]
    exact (visited.trans (ranged.flatMap_right _)).cons _

theorem dumpInto_dump (node : MapNode) : ∀ path, DumpInto path node (dump path node) := by
  induction node using MapNode.induction with
  | visit node ih =>
    intro path
    rw [dump_eq, List.flatMap_def]
    refine .visit node.children (List.Perm.refl _) _ (List.length_map _) fun p mem => ?_
    obtain ⟨inside, dumped⟩ := List.mem_zip_map_self mem
    rw [dumped]
    exact ih p.1 inside _

/-- The children of every node as the finder names them: non-empty names without a separator,
each once. -/
inductive WellKeyed : MapNode → Prop
  | mk {node : MapNode} (names : ∀ child ∈ node.children, child.1 ≠ "" ∧ '/' ∉ child.1.toList)
      (distinct : (node.children.map Prod.fst).Nodup) (children : ∀ child ∈ node.children, WellKeyed child.2) :
      WellKeyed node

/-- The paths `dumpInto` reaches from `DumpAll`'s `""`: the empty one, and absolute ones other
than `/`. -/
def Rooted (path : String) : Prop := path = "" ∨ (path.toList.head? = some '/' ∧ path ≠ "/")

theorem childPath_eq {path key : String} (rooted : Rooted path) (nonempty : key ≠ "") (noSep : '/' ∉ key.toList) :
    childPath path key = path ++ "/" ++ key := by
  rcases rooted with rfl | ⟨absolute, notRoot⟩
  · -- `joinCleanPaths` keeps the bare name, and `dumpInto` puts the separator in front
    have relative : key.toList.head? ≠ some '/' := fun first => noSep (List.mem_of_head? first)
    simp [childPath, joinCleanPaths, relative]
  · have notEmpty : path ≠ "" := by
      rintro rfl
      cases absolute
    have joined : (path ++ "/" ++ key).toList.head? = some '/' := by
      rw [String.toList_append, String.toList_append, List.head?_append, List.head?_append, absolute]
      rfl
    simp only [childPath, joinCleanPaths, if_neg notEmpty, if_neg notRoot, if_neg nonempty, if_pos joined]

theorem rooted_childPath {path key : String} (rooted : Rooted path) (nonempty : key ≠ "") :
    Rooted (path ++ "/" ++ key) := by
  have first : (path ++ "/" ++ key).toList.head? = some '/' := by
    rcases rooted with rfl | ⟨absolute, -⟩
    · simp
    · rw [String.toList_append, String.toList_append, List.head?_append, List.head?_append, absolute]
      rfl
  have notRoot : path ++ "/" ++ key ≠ "/" := by
    intro same
    have lengths := congrArg (fun s : String => s.toList.length) same
    have keyChars : key.toList ≠ [] := by simpa using nonempty
    simp at lengths
    exact keyChars (List.eq_nil_of_length_eq_zero (by omega))
  exact .inr ⟨first, notRoot⟩

/-- The paths below `path`: `path` itself and those that go on after a separator. -/
def Below (path q : List Char) : Prop := ∃ s, q = path ++ s ∧ ∀ c ∈ s.head?, c = '/'

/-- Below a directory, the name after its path runs up to the next separator: two children's
names meet nowhere below them. -/
theorem key_eq_of_below {pre k₁ k₂ q : List Char} (noSep₁ : '/' ∉ k₁) (noSep₂ : '/' ∉ k₂)
    (below₁ : Below (pre ++ '/' :: k₁) q) (below₂ : Below (pre ++ '/' :: k₂) q) : k₁ = k₂ := by
  have front : ∀ {k : List Char}, '/' ∉ k → Below (pre ++ '/' :: k) q →
      (q.drop (pre.length + 1)).takeWhile (· ≠ '/') = k := by
    rintro k noSep ⟨s, rfl, sep⟩
    have rest : (pre ++ '/' :: k ++ s).drop (pre.length + 1) = k ++ s := by simp
    rw [rest, List.takeWhile_append_stop noSep sep]
  rw [← front noSep₁ below₁, front noSep₂ below₂]

/-- Every entry `dumpInto` makes below a rooted path lies below it. -/
theorem below_dump {node : MapNode} (keyed : WellKeyed node) :
    ∀ {path : String}, Rooted path → ∀ entry ∈ dump path node, Below path.toList entry.path.toList := by
  induction keyed with
  | @mk node names distinct children ih =>
    intro path rooted entry mem
    rw [dump_eq, List.mem_cons, List.mem_flatMap] at mem
    rcases mem with rfl | ⟨child, inside, mem⟩
    · exact ⟨[], by simp, by simp⟩
    · obtain ⟨nonempty, noSep⟩ := names child inside
      rw [childPath_eq rooted nonempty noSep] at mem
      obtain ⟨s, below, -⟩ := ih child inside (rooted_childPath rooted nonempty) entry mem
      refine ⟨'/' :: child.1.toList ++ s, ?_, by simp⟩
      rw [below]
      simp

/-- The paths of a well-keyed tree are distinct. -/
theorem nodup_paths_dump {node : MapNode} (keyed : WellKeyed node) :
    ∀ {path : String}, Rooted path → ((dump path node).map DirFullInfo.path).Nodup := by
  induction keyed with
  | @mk node names distinct children ih =>
    intro path rooted
    -- the entries of the child `key` lie below `path ++ "/" ++ key`
    have underChild : ∀ child ∈ node.children, ∀ entry ∈ dump (childPath path child.1) child.2,
        Below (path.toList ++ '/' :: child.1.toList) entry.path.toList := by
      intro child inside entry mem
      obtain ⟨nonempty, noSep⟩ := names child inside
      rw [childPath_eq rooted nonempty noSep] at mem
      simpa using below_dump (children child inside) (rooted_childPath rooted nonempty) entry mem
    rw [dump_eq, List.map_cons, List.map_flatMap, List.nodup_cons, List.nodup_flatMap]
    refine ⟨?own, ?each, ?apart⟩
    case own =>
      rw [List.mem_flatMap]
      rintro ⟨child, inside, mem⟩
      obtain ⟨entry, mem, same⟩ := List.mem_map.mp mem
      obtain ⟨s, below, -⟩ := underChild child inside entry mem
      have lengths := congrArg List.length below
      rw [same] at lengths
      simp at lengths
    case each =>
      intro child inside
      obtain ⟨nonempty, noSep⟩ := names child inside
      rw [childPath_eq rooted nonempty noSep]
      exact ih child inside (rooted_childPath rooted nonempty)
    case apart =>
      have keysApart : node.children.Pairwise fun a b => a.1 ≠ b.1 := List.pairwise_map.mp distinct
      refine keysApart.imp_of_mem fun {a b} memA memB differ q inA inB => differ ?_
      obtain ⟨entryA, entryA_mem, rfl⟩ := List.mem_map.mp inA
      obtain ⟨entryB, entryB_mem, same⟩ := List.mem_map.mp inB
      have belowB := underChild b memB entryB entryB_mem
      rw [same] at belowB
      exact String.toList_inj.mp (key_eq_of_below (names a memA).2 (names b memB).2
        (underChild a memA entryA entryA_mem) belowB)

/-- The runs of `sortedDirEntries`: the directories of a run of `DumpAll` that were read
(`ModTime` not zero), in an order `sort.Slice` may leave them in: sorted by path, with equal paths
in any order. -/
def SortedDirEntries (root : MapNode) (nodes : List DirFullInfo) : Prop :=
  ∃ dumped, DumpInto "" root dumped ∧ nodes.Perm (dumped.filter fun node => node.stat.modTime ≠ 0) ∧
    nodes.Pairwise fun a b => ¬b.path < a.path

/-- The directories of the tree that were read, sorted by path. -/
def sortedEntries (root : MapNode) : List DirFullInfo :=
  ((dump "" root).filter fun node => node.stat.modTime ≠ 0).mergeSort fun a b => decide (a.path ≤ b.path)

theorem pairwise_sortedEntries (root : MapNode) :
    (sortedEntries root).Pairwise fun a b => ¬b.path < a.path := by
  have sorted := @List.pairwise_mergeSort _ (fun a b : DirFullInfo => decide (a.path ≤ b.path))
    (fun a b c ab bc => by
      rw [decide_eq_true_iff] at ab bc ⊢
      exact le_trans ab bc)
    (fun a b => by simpa using le_total a.path b.path)
    ((dump "" root).filter fun node => node.stat.modTime ≠ 0)
  exact sorted.imp fun ordered => not_lt.mpr (of_decide_eq_true ordered)

theorem sortedDirEntries_sortedEntries (root : MapNode) : SortedDirEntries root (sortedEntries root) :=
  ⟨dump "" root, dumpInto_dump root "", List.mergeSort_perm _ _, pairwise_sortedEntries root⟩

/-- Every run of `sortedDirEntries` on a well-keyed tree gives the same list: the sort on the path
undoes the order in which `range` visited the children. -/
theorem sortedDirEntries_eq {root : MapNode} (keyed : WellKeyed root) {nodes : List DirFullInfo}
    (sorted : SortedDirEntries root nodes) : nodes = sortedEntries root := by
  obtain ⟨dumped, run, perm, ordered⟩ := sorted
  have sameEntries : nodes.Perm (sortedEntries root) :=
    perm.trans ((run.perm_dump.filter _).trans (List.mergeSort_perm _ _).symm)
  have distinct := nodup_paths_dump keyed (.inl rfl)
  have inDump : ∀ {entry}, entry ∈ sortedEntries root → entry ∈ dump "" root := fun mem =>
    (List.mem_filter.mp ((List.mergeSort_perm _ _).subset mem)).1
  -- two entries of one path are one entry, as both come from the dump
  refine sameEntries.eq_of_pairwise (fun a b memA memB ab ba => ?_) ordered (pairwise_sortedEntries root)
  exact List.inj_on_of_nodup_map distinct (inDump (sameEntries.subset memA)) (inDump memB)
    (le_antisymm (not_lt.mp ab) (not_lt.mp ba))

end Dump

section Serialize

/-- `PersistedDirInfo`. -/
structure PersistedDirInfo where
  p : String
  t : Int
  i : Nat
  f : Names
  deriving DecidableEq, Repr

/-- `PersistedDirs`. -/
structure PersistedDirs where
  device : Nat
  root : String
  dirs : List PersistedDirInfo
  deriving DecidableEq, Repr

/-- The `PersistedDirInfo` that `serializeCacheEntry` makes of an entry. -/
def DirFullInfo.persisted (entry : DirFullInfo) : PersistedDirInfo :=
  ⟨entry.path, entry.stat.modTime, entry.stat.inode, entry.fileNames⟩

/-- The loop of `serializeCacheEntry` that climbs the common root (`prefix`, here `common`) with
`filepath.Dir` until `p + "/"` starts with `common + "/"`, or `common` has reached `/`. From `.`,
where `Dir` stays, the Go loop runs for ever: `none`. -/
def climb (p common : String) : Option String :=
  if hasPrefix (p ++ "/") (common ++ "/") then some common
  else if dir common = "/" then some "/"
  else if dir common = common then none
  else climb p (dir common)
termination_by dirMeasure common
decreasing_by exact dirMeasure_dir_lt ‹_›

/-- The common root of a device's directories: the first one's path, climbed for each of them. -/
def commonRoot (infos : List PersistedDirInfo) : Option String :=
  infos.foldlM (fun common info => climb info.p common) ((infos.head?.map PersistedDirInfo.p).getD "")

/-- What `serializeCacheEntry` keeps of a path below the common root:
`strings.Replace(P, prefix, "", 1)`, without one leading separator. -/
def stripRoot (common p : String) : String :=
  let suffix := replaceFirst p common ""
  match suffix.toList with
  | '/' :: rest => String.ofList rest
  | _ => suffix

/-- The `PersistedDirs` of one device: the common root of its directories, and their paths below
it. -/
def persistDevice (device : Nat) (infos : List PersistedDirInfo) : Option PersistedDirs := do
  let common ← commonRoot infos
  pure ⟨device, common, infos.map fun info => { info with p := stripRoot common info.p }⟩

/-- `encoding/json` on a slice: the elements between brackets, separated by commas. -/
def jsonArray (elems : List String) : String := "[" ++ ",".intercalate elems ++ "]"

/-- `encoding/json` on a `[]string`. -/
def jsonNames (encodeString : String → String) : Names → String
  | none => "null"
  | some names => jsonArray (names.map encodeString)

/-- `encoding/json` on a `PersistedDirInfo`: its fields in order, under their Go names. -/
def PersistedDirInfo.json (encodeString : String → String) (info : PersistedDirInfo) : String :=
  "\x7b\"P\":" ++ encodeString info.p ++ ",\"T\":" ++ toString info.t ++ ",\"I\":" ++ toString info.i ++
    ",\"F\":" ++ jsonNames encodeString info.f ++ "\x7d"

/-- `encoding/json` on a `PersistedDirs`. -/
def PersistedDirs.json (encodeString : String → String) (dirs : PersistedDirs) : String :=
  "\x7b\"Device\":" ++ toString dirs.device ++ ",\"Root\":" ++ encodeString dirs.root ++ ",\"Dirs\":" ++
    jsonArray (dirs.dirs.map (PersistedDirInfo.json encodeString)) ++ "\x7d"

/-- `serializeCacheEntry`, given the order `devices` in which `range` visits the keys of
`dirsByDevice`; each device's directories keep their order in the block. `none` where the
climbing loop would not end. -/
def serializeCacheEntry (encodeString : String → String) (dirInfos : List DirFullInfo) (devices : List Nat) :
    Option String := do
  let cacheEntry ← devices.mapM fun device =>
    persistDevice device ((dirInfos.filter fun entry => entry.stat.device = device).map DirFullInfo.persisted)
  pure (jsonArray (cacheEntry.map (PersistedDirs.json encodeString)))

/-- The blocks `serializeDb` cuts the sorted entries into: as many as loading threads, but at
most one an entry; block `i` (counted from one) ends at `len(entryList) * i / numBlocks`. -/
def dbBlocks (numDbLoadingThreads : Nat) (entryList : List DirFullInfo) : List (List DirFullInfo) :=
  let numBlocks := min numDbLoadingThreads entryList.length
  (List.range numBlocks).map fun i =>
    (entryList.take (entryList.length * (i + 1) / numBlocks)).drop (entryList.length * i / numBlocks)

/-- The finder's database file. `dumpInto` flattens the tree, `sortedDirEntries` keeps the
directories that were read and sorts them by path, `serializeDb` cuts them into one block a
loading thread, and `serializeCacheEntry` groups each block by device, strips each group's common
root and writes the block as JSON. Two orders are the runtime's: the order in which `range` visits
the children of a node, and the order in which it visits the keys of `dirsByDevice`. The sort on
the path removes the first, as the paths of a tree are distinct; nothing removes the second.

`encoding/json`'s encoder of strings is a parameter `encodeString`: the results hold for every
function of the string, Go's included. The header (`Version`, a line separator and the dump of the
cache parameters) is a parameter too.

`serializeDb` after `sortedDirEntries`, given the order in which each block visits its
devices: the header and each block's JSON, joined by the line separator. -/
def serializeDb (encodeString : String → String) (header : String) (numDbLoadingThreads : Nat)
    (entryList : List DirFullInfo) (devices : List (List Nat)) : Option String := do
  let blocks ← ((dbBlocks numDbLoadingThreads entryList).zip devices).mapM fun block =>
    serializeCacheEntry encodeString block.1 block.2
  pure ("\n".intercalate (header :: blocks))

/-- The keys of a block's `dirsByDevice`: its devices, each once. -/
def devicesOf (block : List DirFullInfo) : List Nat := (block.map fun entry => entry.stat.device).dedup

/-- The runs of `serializeDb` on a finder whose tree is `root`, where the `range` over
`dirsByDevice` of block `i` visits the devices in the order `devices[i]`. -/
def SerializeDb (encodeString : String → String) (header : String) (numDbLoadingThreads : Nat)
    (root : MapNode) (devices : List (List Nat)) (content : String) : Prop :=
  ∃ entryList, SortedDirEntries root entryList ∧
    List.Forall₂ (fun block order => order.Perm (devicesOf block)) (dbBlocks numDbLoadingThreads entryList) devices ∧
    serializeDb encodeString header numDbLoadingThreads entryList devices = some content

/-- Every run writes a database: from `""` or an absolute path the climbing loop stops, and each
block's JSON shows the device its `range` visited first.

The paths the climbing loop starts from and reaches: empty, or absolute. -/
def Anchored (path : String) : Prop := path = "" ∨ isAbs path = true

theorem isAbs_childPath (path key : String) : isAbs (childPath path key) = true := by
  simp only [childPath, isAbs]
  split_ifs with first
  · exact decide_eq_true first
  · simp

/-- Below `""`, `dumpInto` makes absolute paths only. -/
theorem anchored_dump (node : MapNode) : ∀ {path : String}, Anchored path → ∀ entry ∈ dump path node,
    Anchored entry.path := by
  induction node using MapNode.induction with
  | visit node ih =>
    intro path anchored entry mem
    rw [dump_eq, List.mem_cons, List.mem_flatMap] at mem
    rcases mem with rfl | ⟨child, inside, mem⟩
    · exact anchored
    · exact ih child inside (.inr (isAbs_childPath path child.1)) entry mem

theorem anchored_sortedEntries {root : MapNode} {entry : DirFullInfo} (mem : entry ∈ sortedEntries root) :
    Anchored entry.path :=
  anchored_dump root (.inl rfl) entry (List.mem_filter.mp ((List.mergeSort_perm _ _).subset mem)).1

theorem mem_of_mem_dbBlocks {numDbLoadingThreads : Nat} {entryList block : List DirFullInfo}
    (inBlocks : block ∈ dbBlocks numDbLoadingThreads entryList) {entry : DirFullInfo} (mem : entry ∈ block) :
    entry ∈ entryList := by
  obtain ⟨i, -, rfl⟩ := List.mem_map.mp inBlocks
  exact List.mem_of_mem_take (List.mem_of_mem_drop mem)

/-- An anchored path goes on below `""`. -/
theorem hasPrefix_anchored {p : String} (anchored : Anchored p) : hasPrefix (p ++ "/") ("" ++ "/") = true := by
  rw [hasPrefix_iff]
  rcases anchored with rfl | absolute
  · simp
  · obtain ⟨rest, split⟩ := List.head?_eq_some_iff.mp (of_decide_eq_true absolute)
    simp [split]

/-- From an anchored root, the climbing loop stops for an anchored path, at an anchored root: `""`
comes before every such path, and `Dir` keeps an absolute root absolute until it reaches `/`. -/
theorem climb_anchored {p : String} (anchoredP : Anchored p) {common : String} (anchored : Anchored common) :
    ∃ r, climb p common = some r ∧ Anchored r := by
  fun_induction climb p common with
  | case1 common found => exact ⟨common, rfl, anchored⟩
  | case2 common missed top => exact ⟨"/", rfl, .inr (by decide)⟩
  | case3 common missed notTop fixed =>
    -- `Dir` stays only at `.` and `/`, and neither is a root the loop can hold here
    exfalso
    rcases eq_dot_or_slash_of_dir_eq fixed with rfl | rfl
    · rcases anchored with dot | dot <;> revert dot <;> decide
    · exact notTop dir_slash
  | case4 common missed notTop moved ih =>
    apply ih
    rcases anchored with rfl | absolute
    · exact absurd (hasPrefix_anchored anchoredP) missed
    · exact .inr (dir_absolute absolute)

theorem foldlM_climb {infos : List PersistedDirInfo} (anchoredP : ∀ info ∈ infos, Anchored info.p) :
    ∀ {common : String}, Anchored common →
      ∃ r, infos.foldlM (fun common info => climb info.p common) common = some r := by
  induction infos with
  | nil => exact fun _ => ⟨_, rfl⟩
  | cons info infos ih =>
    intro common anchored
    obtain ⟨r, climbed, anchoredR⟩ := climb_anchored (anchoredP info List.mem_cons_self) anchored
    rw [List.foldlM_cons, climbed]
    exact ih (fun other mem => anchoredP other (List.mem_cons_of_mem info mem)) anchoredR

theorem commonRoot_some {infos : List PersistedDirInfo} (anchoredP : ∀ info ∈ infos, Anchored info.p) :
    ∃ common, commonRoot infos = some common := by
  apply foldlM_climb anchoredP
  cases infos with
  | nil => exact .inl rfl
  | cons info infos => exact anchoredP info List.mem_cons_self

theorem persistDevice_some (device : Nat) {infos : List PersistedDirInfo}
    (anchoredP : ∀ info ∈ infos, Anchored info.p) :
    ∃ dirs, persistDevice device infos = some dirs ∧ dirs.device = device := by
  obtain ⟨common, found⟩ := commonRoot_some anchoredP
  exact ⟨_, by rw [persistDevice, found]; rfl, rfl⟩

/-- On anchored paths `serializeCacheEntry` writes one group a device, in the order `range`
visited them. -/
theorem serializeCacheEntry_some (encodeString : String → String) {dirInfos : List DirFullInfo}
    (anchoredP : ∀ entry ∈ dirInfos, Anchored entry.path) (devices : List Nat) :
    ∃ groups : List PersistedDirs, groups.map PersistedDirs.device = devices ∧
      serializeCacheEntry encodeString dirInfos devices = some (jsonArray (groups.map (PersistedDirs.json encodeString))) := by
  suffices persisted : ∃ groups : List PersistedDirs, groups.map PersistedDirs.device = devices ∧
      devices.mapM (fun device => persistDevice device
        ((dirInfos.filter fun entry => entry.stat.device = device).map DirFullInfo.persisted)) = some groups by
    obtain ⟨groups, named, made⟩ := persisted
    refine ⟨groups, named, ?_⟩
    rw [serializeCacheEntry, made]
    rfl
  induction devices with
  | nil => exact ⟨[], rfl, rfl⟩
  | cons device devices ih =>
    obtain ⟨groups, named, made⟩ := ih
    obtain ⟨dirs, persisted, labelled⟩ := @persistDevice_some device
      ((dirInfos.filter fun entry => entry.stat.device = device).map DirFullInfo.persisted) (by
        intro info mem
        obtain ⟨entry, inside, rfl⟩ := List.mem_map.mp mem
        exact anchoredP entry (List.mem_filter.mp inside).1)
    refine ⟨dirs :: groups, by rw [List.map_cons, named, labelled], ?_⟩
    rw [List.mapM_cons, persisted, made]
    rfl

/-- Blocks of anchored entries serialize, whatever orders they visit their devices in. -/
theorem mapM_serializeCacheEntry_some (encodeString : String → String) {blocks : List (List DirFullInfo)}
    (anchored : ∀ block ∈ blocks, ∀ entry ∈ block, Anchored entry.path) (orders : List (List Nat)) :
    ∃ outs, (blocks.zip orders).mapM (fun block => serializeCacheEntry encodeString block.1 block.2) = some outs := by
  apply List.exists_mapM_eq_some
  intro block mem
  obtain ⟨groups, -, made⟩ := serializeCacheEntry_some encodeString (anchored block.1 (List.of_mem_zip mem).1) block.2
  exact ⟨_, made⟩

theorem anchored_dbBlocks {numDbLoadingThreads : Nat} {entryList : List DirFullInfo}
    (anchoredP : ∀ entry ∈ entryList, Anchored entry.path) :
    ∀ block ∈ dbBlocks numDbLoadingThreads entryList, ∀ entry ∈ block, Anchored entry.path :=
  fun _ inBlocks entry mem => anchoredP entry (mem_of_mem_dbBlocks inBlocks mem)

/-- On anchored paths `serializeDb` writes a database, whatever orders the blocks visit their
devices in. -/
theorem serializeDb_some (encodeString : String → String) (header : String) (numDbLoadingThreads : Nat)
    {entryList : List DirFullInfo} (anchoredP : ∀ entry ∈ entryList, Anchored entry.path) (devices : List (List Nat)) :
    ∃ content, serializeDb encodeString header numDbLoadingThreads entryList devices = some content := by
  obtain ⟨outs, made⟩ := mapM_serializeCacheEntry_some encodeString (anchored_dbBlocks anchoredP) devices
  exact ⟨_, by rw [serializeDb, made]; rfl⟩

theorem comma_not_mem_toString (n : Nat) : ',' ∉ (toString n).toList := by
  rw [Nat.toString_eq_repr, Nat.toList_repr]
  intro mem
  exact absurd (Nat.isDigit_of_mem_toDigits (by decide) (by decide) mem) (by decide)

/-- A block's JSON starts with the device its `range` visited first, and a comma after it. -/
theorem jsonArray_front (encodeString : String → String) (dirs : PersistedDirs) (groups : List PersistedDirs) :
    ∃ tail, jsonArray ((dirs :: groups).map (PersistedDirs.json encodeString)) =
      "[" ++ ("\x7b\"Device\":" ++ (toString dirs.device ++ tail)) ∧ tail.toList.head? = some ',' := by
  obtain ⟨after, joined⟩ := exists_intercalate_cons "," (groups.map (PersistedDirs.json encodeString))
  refine ⟨",\"Root\":" ++ encodeString dirs.root ++ ",\"Dirs\":" ++
    jsonArray (dirs.dirs.map (PersistedDirInfo.json encodeString)) ++ "\x7d" ++ after ++ "]", ?_, ?_⟩
  · rewrite [jsonArray, List.map_cons, joined]
    unfold PersistedDirs.json
    simp only [String.append_assoc]
  · simp only [String.toList_append, List.head?_append]
    rfl

/-- Two blocks whose `range` visited different devices first are different texts. -/
theorem device_eq_of_jsonArray {encodeString : String → String} {dirs₁ dirs₂ : PersistedDirs}
    {groups₁ groups₂ : List PersistedDirs}
    (same : jsonArray ((dirs₁ :: groups₁).map (PersistedDirs.json encodeString)) =
      jsonArray ((dirs₂ :: groups₂).map (PersistedDirs.json encodeString))) :
    dirs₁.device = dirs₂.device := by
  obtain ⟨tail₁, front₁, comma₁⟩ := jsonArray_front encodeString dirs₁ groups₁
  obtain ⟨tail₂, front₂, comma₂⟩ := jsonArray_front encodeString dirs₂ groups₂
  rw [front₁, front₂, String.append_right_inj, String.append_right_inj] at same
  have digits := congrArg (fun text : String => text.toList.takeWhile (· ≠ ',')) same
  simp only [String.toList_append] at digits
  have stops : ∀ {tail : String}, tail.toList.head? = some ',' → ∀ c ∈ tail.toList.head?, c = ',' := by
    intro tail comma c first
    rw [Option.mem_def, comma] at first
    exact (Option.some.inj first).symm
  rw [List.takeWhile_append_stop (comma_not_mem_toString _) (stops comma₁),
    List.takeWhile_append_stop (comma_not_mem_toString _) (stops comma₂), Nat.toString_eq_repr, Nat.toString_eq_repr,
    Nat.toList_repr, Nat.toList_repr] at digits
  rw [← Nat.ofDigitChars_ten_toDigits (n := dirs₁.device), digits, Nat.ofDigitChars_ten_toDigits]

/-- Around one block, whatever the orders of the other blocks, the database changes only where
that block's JSON does. -/
theorem serializeDb_split (encodeString : String → String) (header : String) (numDbLoadingThreads : Nat)
    {entryList : List DirFullInfo} (anchoredP : ∀ entry ∈ entryList, Anchored entry.path)
    {bpre bpost : List (List DirFullInfo)} {block : List DirFullInfo}
    (split : dbBlocks numDbLoadingThreads entryList = bpre ++ block :: bpost)
    (dpre dpost : List (List Nat)) (lengths : dpre.length = bpre.length) :
    ∃ before after, ∀ order x, serializeCacheEntry encodeString block order = some x →
      serializeDb encodeString header numDbLoadingThreads entryList (dpre ++ order :: dpost) =
        some (before ++ (x ++ after)) := by
  -- the blocks before and after serialize, whatever the orders of their devices
  have anchored : ∀ other ∈ dbBlocks numDbLoadingThreads entryList, ∀ entry ∈ other, Anchored entry.path :=
    anchored_dbBlocks anchoredP
  rw [split] at anchored
  obtain ⟨outPre, madePre⟩ := mapM_serializeCacheEntry_some encodeString
    (fun other mem => anchored other (List.mem_append_left _ mem)) dpre
  obtain ⟨outPost, madePost⟩ := mapM_serializeCacheEntry_some encodeString
    (fun other mem => anchored other (List.mem_append_right _ (List.mem_cons_of_mem _ mem))) dpost
  obtain ⟨before, after, joined⟩ := intercalate_split "\n" header outPre outPost
  refine ⟨before, after, fun order x made => ?_⟩
  rw [serializeDb, split, List.zip_append lengths.symm, List.zip_cons_cons, List.mapM_append, madePre,
    List.mapM_cons, made, madePost]
  exact congrArg some (joined x)

theorem forall₂_devicesOf (blocks : List (List DirFullInfo)) :
    List.Forall₂ (fun block order => order.Perm (devicesOf block)) blocks (blocks.map devicesOf) :=
  List.forall₂_map_right_iff.mpr (List.forall₂_same.mpr fun _ _ => List.Perm.refl _)

end Serialize

section Determinism

variable (encodeString : String → String) (header : String) (numDbLoadingThreads : Nat)

/-- On a well-keyed tree, the runs of `serializeDb` are those on its sorted entries: the order in
which `range` visited the children leaves no trace, and what is left is the order in which each
block visits its devices. -/
theorem serializeDb_iff {root : MapNode} (keyed : WellKeyed root) (devices : List (List Nat)) (content : String) :
    SerializeDb encodeString header numDbLoadingThreads root devices content ↔
      List.Forall₂ (fun block order => order.Perm (devicesOf block))
        (dbBlocks numDbLoadingThreads (sortedEntries root)) devices ∧
      serializeDb encodeString header numDbLoadingThreads (sortedEntries root) devices = some content := by
  constructor
  · rintro ⟨entryList, sorted, ranged, made⟩
    rw [sortedDirEntries_eq keyed sorted] at ranged made
    exact ⟨ranged, made⟩
  · rintro ⟨ranged, made⟩
    exact ⟨sortedEntries root, sortedDirEntries_sortedEntries root, ranged, made⟩

/-- Where every block lies on one device, `range` has one order to visit each block's devices in. -/
theorem orders_eq_of_one_device :
    ∀ {blocks : List (List DirFullInfo)} {devices₁ devices₂ : List (List Nat)},
      (∀ block ∈ blocks, ∀ a ∈ block, ∀ b ∈ block, a.stat.device = b.stat.device) →
      List.Forall₂ (fun block order => order.Perm (devicesOf block)) blocks devices₁ →
      List.Forall₂ (fun block order => order.Perm (devicesOf block)) blocks devices₂ → devices₁ = devices₂
  | [], _, _, _, .nil, .nil => rfl
  | block :: blocks, order₁ :: devices₁, order₂ :: devices₂, oneDevice, .cons ranged₁ rest₁, .cons ranged₂ rest₂ => by
    have device_of_mem : ∀ {order : List Nat}, order.Perm (devicesOf block) → ∀ d ∈ order,
        ∃ entry ∈ block, entry.stat.device = d := by
      intro order ranged d mem
      exact List.mem_map.mp (List.mem_dedup.mp (ranged.subset mem))
    have same : order₁ = order₂ := by
      refine (ranged₁.trans ranged₂.symm).eq_of_pairwise (fun d₁ d₂ mem₁ mem₂ _ _ => ?_)
        (List.pairwise_of_forall fun _ _ => trivial) (List.pairwise_of_forall fun _ _ => trivial)
      obtain ⟨a, memA, rfl⟩ := device_of_mem ranged₁ d₁ mem₁
      obtain ⟨b, memB, rfl⟩ := device_of_mem ranged₂ d₂ mem₂
      exact oneDevice block List.mem_cons_self a memA b memB
    rw [same, orders_eq_of_one_device (fun other mem => oneDevice other (List.mem_cons_of_mem block mem)) rest₁ rest₂]

/-- When each block of a well-keyed tree lies on one device, every run of `serializeDb` writes the
same database. -/
theorem serializeDb_one_device {root : MapNode} (keyed : WellKeyed root)
    (oneDevice : ∀ block ∈ dbBlocks numDbLoadingThreads (sortedEntries root), ∀ a ∈ block, ∀ b ∈ block,
      a.stat.device = b.stat.device)
    {devices₁ devices₂ : List (List Nat)} {content₁ content₂ : String}
    (run₁ : SerializeDb encodeString header numDbLoadingThreads root devices₁ content₁)
    (run₂ : SerializeDb encodeString header numDbLoadingThreads root devices₂ content₂) : content₁ = content₂ := by
  obtain ⟨ranged₁, made₁⟩ := (serializeDb_iff encodeString header numDbLoadingThreads keyed _ _).mp run₁
  obtain ⟨ranged₂, made₂⟩ := (serializeDb_iff encodeString header numDbLoadingThreads keyed _ _).mp run₂
  rw [orders_eq_of_one_device oneDevice ranged₁ ranged₂, made₂] at made₁
  exact (Option.some.inj made₁).symm

/-- For each device of a block there is a run of `serializeDb` in which that block's `range` over
`dirsByDevice` visits it first, with the text around the block the same in all of them. -/
theorem serializeDb_visit_first {root : MapNode} {bpre bpost : List (List DirFullInfo)} {block : List DirFullInfo}
    (split : dbBlocks numDbLoadingThreads (sortedEntries root) = bpre ++ block :: bpost) :
    ∃ before after, ∀ d ∈ devicesOf block, ∃ dirs groups, dirs.device = d ∧
      SerializeDb encodeString header numDbLoadingThreads root
        (bpre.map devicesOf ++ (d :: (devicesOf block).erase d) :: bpost.map devicesOf)
        (before ++ (jsonArray ((dirs :: groups).map (PersistedDirs.json encodeString)) ++ after)) := by
  have inBlocks : block ∈ dbBlocks numDbLoadingThreads (sortedEntries root) := by
    rw [split]
    exact List.mem_append_right bpre List.mem_cons_self
  have anchoredBlock : ∀ entry ∈ block, Anchored entry.path :=
    anchored_dbBlocks (fun _ mem => anchored_sortedEntries mem) block inBlocks
  obtain ⟨before, after, made⟩ := serializeDb_split encodeString header numDbLoadingThreads
    (fun _ mem => anchored_sortedEntries mem) split (bpre.map devicesOf) (bpost.map devicesOf) (List.length_map _)
  refine ⟨before, after, fun d mem => ?_⟩
  obtain ⟨groups, named, serialized⟩ := serializeCacheEntry_some encodeString anchoredBlock
    (d :: (devicesOf block).erase d)
  have nonempty : groups ≠ [] := by
    rintro rfl
    cases named
  obtain ⟨dirs, groups, rfl⟩ := List.exists_cons_of_ne_nil nonempty
  rw [List.map_cons, List.cons.injEq] at named
  refine ⟨dirs, groups, named.1, sortedEntries root, sortedDirEntries_sortedEntries root, ?_, made _ _ serialized⟩
  -- the other blocks keep the order `devicesOf` gives them
  rw [split]
  exact List.rel_append (forall₂_devicesOf bpre) (.cons (List.perm_cons_erase mem).symm (forall₂_devicesOf bpost))

/-- A block that holds two devices is written in two ways: whatever the tree, the string encoder
and the header, two runs of `serializeDb` differ, where that block's `range` over `dirsByDevice`
visits one device or the other first. -/
theorem serializeDb_device_order {root : MapNode} {block : List DirFullInfo}
    (inBlocks : block ∈ dbBlocks numDbLoadingThreads (sortedEntries root)) {a b : DirFullInfo} (memA : a ∈ block)
    (memB : b ∈ block) (apart : a.stat.device ≠ b.stat.device) :
    ∃ devices₁ devices₂ content₁ content₂, SerializeDb encodeString header numDbLoadingThreads root devices₁ content₁ ∧
      SerializeDb encodeString header numDbLoadingThreads root devices₂ content₂ ∧ content₁ ≠ content₂ := by
  obtain ⟨bpre, bpost, split⟩ := List.append_of_mem inBlocks
  obtain ⟨before, after, run⟩ := serializeDb_visit_first encodeString header numDbLoadingThreads split
  have visited : ∀ entry ∈ block, entry.stat.device ∈ devicesOf block := fun entry mem =>
    List.mem_dedup.mpr (List.mem_map_of_mem mem)
  obtain ⟨dirs₁, groups₁, first₁, run₁⟩ := run _ (visited a memA)
  obtain ⟨dirs₂, groups₂, first₂, run₂⟩ := run _ (visited b memB)
  refine ⟨_, _, _, _, run₁, run₂, fun same => apart ?_⟩
  -- the two texts agree around the block, so the blocks' texts agree, and with them their first devices
  rw [← first₁, ← first₂]
  exact device_eq_of_jsonArray ((String.append_left_inj after).mp ((String.append_right_inj before).mp same))

/-- A root on device 1 whose one child `a` lies on device 2, both read. -/
def twoDevices : MapNode := ⟨⟨1, 1, 1⟩, none, [("a", ⟨⟨1, 2, 2⟩, none, []⟩)]⟩

theorem wellKeyed_twoDevices : WellKeyed twoDevices := by
  refine .mk (by decide) (by decide) fun child mem => ?_
  rw [twoDevices, List.mem_singleton] at mem
  subst mem
  exact .mk (by simp) (by simp) (by simp)

theorem sortedEntries_twoDevices :
    sortedEntries twoDevices = [⟨⟨1, 1, 1⟩, "", none⟩, ⟨⟨1, 2, 2⟩, "/a", none⟩] := by
  have dumped : dump "" twoDevices = [⟨⟨1, 1, 1⟩, "", none⟩, ⟨⟨1, 2, 2⟩, "/a", none⟩] := by
    rw [dump_eq]
    simp only [twoDevices, List.flatMap_cons, List.flatMap_nil, List.append_nil]
    rw [dump_eq, List.flatMap_nil]
    decide
  refine (sortedDirEntries_eq wellKeyed_twoDevices ⟨dump "" twoDevices, dumpInto_dump _ _, ?_, by decide⟩).symm
  rw [dumped]
  decide

theorem serializeDb_twoDevices :
    ∃ devices₁ devices₂ content₁ content₂, SerializeDb quote "" 1 twoDevices devices₁ content₁ ∧
      SerializeDb quote "" 1 twoDevices devices₂ content₂ ∧ content₁ ≠ content₂ :=
  serializeDb_device_order quote "" 1
    (show [⟨⟨1, 1, 1⟩, "", none⟩, ⟨⟨1, 2, 2⟩, "/a", none⟩] ∈ dbBlocks 1 (sortedEntries twoDevices) by
      rw [sortedEntries_twoDevices]
      decide)
    List.mem_cons_self (List.mem_cons_of_mem _ List.mem_cons_self) (by decide)

/-- With two loading threads each block of `twoDevices` holds one directory, so every run writes
what the run with the one order of devices writes. -/
theorem serializeDb_one_device_twoBlocks :
    WellKeyed twoDevices ∧
      (∀ block ∈ dbBlocks 2 (sortedEntries twoDevices), ∀ a ∈ block, ∀ b ∈ block, a.stat.device = b.stat.device) ∧
      ∃ content, SerializeDb quote "" 2 twoDevices [[1], [2]] content ∧
        ∀ devices other, SerializeDb quote "" 2 twoDevices devices other → other = content := by
  have oneDevice : ∀ block ∈ dbBlocks 2 (sortedEntries twoDevices), ∀ a ∈ block, ∀ b ∈ block,
      a.stat.device = b.stat.device := by
    rw [sortedEntries_twoDevices]
    decide
  obtain ⟨content, made⟩ := serializeDb_some quote "" 2 (fun _ mem => anchored_sortedEntries mem) [[1], [2]]
  have run : SerializeDb quote "" 2 twoDevices [[1], [2]] content := by
    refine ⟨sortedEntries twoDevices, sortedDirEntries_sortedEntries _, ?_, made⟩
    rw [sortedEntries_twoDevices]
    decide
  exact ⟨wellKeyed_twoDevices, oneDevice, content, run, fun devices other run' =>
    serializeDb_one_device quote "" 2 wellKeyed_twoDevices oneDevice run' run⟩

end Determinism

end Soong.Finder
