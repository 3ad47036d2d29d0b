import Soong.Cmd.MergeZipsFirstWins

namespace Soong.MergeZips

open Go

/-- The directories from `dir` up, short of `.` and `/`: the packages of an entry in `dir`. -/
def packageChain (dir : String) : List String :=
  (Filepath.ancestors dir).filter fun d => d ≠ "." ∧ d ≠ "/"

/-- A directory `populateNewPyPkgs` can mark: a clean one other than `.` and `/`. -/
def PkgDir (d : String) : Prop := Filepath.clean d = d ∧ d ≠ "." ∧ d ≠ "/"

section Chain

theorem packageChain_of_root {d : String} (root : d = "." ∨ d = "/") : packageChain d = [] := by
  rcases root with rfl | rfl
  · simp [packageChain, Filepath.ancestors_of_dir_eq Filepath.dir_dot]
  · simp [packageChain, Filepath.ancestors_of_dir_eq Filepath.dir_slash]

theorem packageChain_of_not_root {d : String} (inner : ¬(d = "." ∨ d = "/")) :
    packageChain d = d :: packageChain (Filepath.dir d) := by
  have moved : Filepath.dir d ≠ d := fun fixed => inner (Filepath.eq_dot_or_slash_of_dir_eq fixed)
  rw [packageChain, Filepath.ancestors_of_dir_ne moved, List.filter_cons_of_pos (by simpa [not_or] using inner)]
  rfl

theorem pathBeforeLastSlash_of_not_root {p : String} (inner : ¬(Filepath.dir p = "." ∨ Filepath.dir p = "/")) :
    pathBeforeLastSlash p = Filepath.dir p := if_neg inner

/-- `pathBeforeLastSlash` gives `""` at the top and otherwise `Dir`, a directory it can mark. -/
theorem pathBeforeLastSlash_cases (p : String) :
    pathBeforeLastSlash p = "" ∨ PkgDir (pathBeforeLastSlash p) ∧ pathBeforeLastSlash p = Filepath.dir p := by
  by_cases root : Filepath.dir p = "." ∨ Filepath.dir p = "/"
  · exact .inl (if_pos root)
  · rw [pathBeforeLastSlash_of_not_root root]
    exact .inr ⟨⟨Filepath.clean_dir p, (not_or.mp root).1, (not_or.mp root).2⟩, rfl⟩

theorem length_pathBeforeLastSlash_lt {p : String} (nonempty : p ≠ "") :
    (pathBeforeLastSlash p).length < p.length := by
  rcases pathBeforeLastSlash_cases p with top | ⟨⟨-, notDot, notRoot⟩, climbed⟩
  · rw [top]
    exact Nat.pos_of_ne_zero fun zero => nonempty (String.length_eq_zero_iff.mp zero)
  · rw [climbed] at notDot notRoot ⊢
    rcases Filepath.dir_cases p with dot | root | shorter
    · exact absurd dot notDot
    · exact absurd root notRoot
    · exact shorter

/-- Where `pathBeforeLastSlash` of a name is marked or at the top, so is `Dir` of it. -/
theorem dir_root_or_mem {p : String} {marked : List String}
    (parent : pathBeforeLastSlash p = "" ∨ pathBeforeLastSlash p ∈ marked) :
    Filepath.dir p = "." ∨ Filepath.dir p = "/" ∨ Filepath.dir p ∈ marked := by
  by_cases root : Filepath.dir p = "." ∨ Filepath.dir p = "/"
  · exact root.elim .inl (.inr ∘ .inl)
  · rw [pathBeforeLastSlash_of_not_root root] at parent
    rcases parent with empty | mem
    · exact absurd empty (Filepath.dir_ne_empty p)
    · exact .inr (.inr mem)

/-- In a set of directories whose parent packages it holds, the packages above a member are
members. -/
theorem packageChain_subset {marked : List String}
    (closed : ∀ q ∈ marked, pathBeforeLastSlash q = "" ∨ pathBeforeLastSlash q ∈ marked) {d : String}
    (start : d = "." ∨ d = "/" ∨ d ∈ marked) : ∀ a ∈ packageChain d, a ∈ marked := by
  induction d using Filepath.ancestors.induct with
  | case1 d ih =>
    by_cases root : d = "." ∨ d = "/"
    · rw [packageChain_of_root root]
      intro a none
      cases none
    · have member : d ∈ marked := by
        rcases start with dot | slash | member
        · exact absurd (.inl dot) root
        · exact absurd (.inr slash) root
        · exact member
      have moved : Filepath.dir d ≠ d := fun fixed => root (Filepath.eq_dot_or_slash_of_dir_eq fixed)
      rw [packageChain_of_not_root root]
      intro a onChain
      rcases List.mem_cons.mp onChain with rfl | above
      · exact member
      · exact ih moved (dir_root_or_mem (closed d member)) a above

end Chain

section Populate

/-- What one climb of `populateNewPyPkgs` adds to both lists, given a round for each step: fresh
directories it can mark, each with its parent package marked or at the top, and the start. -/
theorem populateNewPyPkgs_spec : ∀ (fuel : Nat) (pkgPath : String) (existing new : List String),
    pkgPath.length < fuel → (pkgPath = "" ∨ PkgDir pkgPath) →
    ∃ added, populateNewPyPkgs fuel pkgPath (existing, new) = (existing ++ added, new ++ added) ∧
      (∀ a ∈ added, a ∉ existing ∧ PkgDir a ∧
        (pathBeforeLastSlash a = "" ∨ pathBeforeLastSlash a ∈ existing ++ added)) ∧
      (pkgPath = "" ∨ pkgPath ∈ existing ++ added)
  | 0, _, _, _, enough, _ => absurd enough (Nat.not_lt_zero _)
  | fuel + 1, pkgPath, existing, new, enough, shape => by
    by_cases stop : pkgPath = "" ∨ pkgPath ∈ existing
    · refine ⟨[], by simp [populateNewPyPkgs, stop], by simp, ?_⟩
      rw [List.append_nil]
      exact stop
    · obtain ⟨nonempty, unmarked⟩ := not_or.mp stop
      have pkg : PkgDir pkgPath := shape.resolve_left nonempty
      -- the climb goes on from the parent, with `pkgPath` marked
      obtain ⟨added, run, fresh, parent⟩ := populateNewPyPkgs_spec fuel (pathBeforeLastSlash pkgPath)
        (existing ++ [pkgPath]) (new ++ [pkgPath]) (by have := length_pathBeforeLastSlash_lt nonempty; omega)
        ((pathBeforeLastSlash_cases pkgPath).imp_right And.left)
      refine ⟨pkgPath :: added, ?_, ?_, .inr (by simp)⟩
      · simp only [populateNewPyPkgs, if_neg stop, run, List.append_assoc, List.singleton_append]
      · intro a mem
        rcases List.mem_cons.mp mem with rfl | later
        · refine ⟨unmarked, pkg, ?_⟩
          simpa using parent
        · obtain ⟨notMarked, pkgA, above⟩ := fresh a later
          refine ⟨fun old => notMarked (List.mem_append_left _ old), pkgA, ?_⟩
          simpa using above

theorem parentPath_cases (name : String) : parentPath name = "" ∨ PkgDir (parentPath name) := by
  unfold parentPath
  split
  · exact (pathBeforeLastSlash_cases _).imp_right And.left
  · exact (pathBeforeLastSlash_cases _).imp_right And.left

/-- The `__init__.py` files of a merged par. Under `emulatePar` the second loop climbs from the
package of each input file with `populateNewPyPkgs` and stops at the first directory already
marked. The directories marked when the loop is over are closed under `pathBeforeLastSlash`:
an `__init__.py` of the inputs marks its package before the loop, and the climb from it, when the
loop reaches it, marks the package above. So every directory above a written entry has an
`__init__.py`, the input's own where the inputs have one. That needs every `__init__.py` of the
inputs to be written: one that a strip option drops still marks its package.

The two lists of the second loop once it has handled `done`, with `rest` to go, where
`seeds` are the packages of the inputs' `__init__.py` files. A seed whose own `__init__.py` is
still to come may lack its parent package. -/
structure PkgSets (seeds : List String) (done rest : List File) (sets : List String × List String) : Prop where
  existing : sets.1 = seeds ++ sets.2
  fresh : ∀ a ∈ sets.2, a ∉ seeds ∧ PkgDir a
  closed : ∀ q ∈ sets.1, pathBeforeLastSlash q = "" ∨ pathBeforeLastSlash q ∈ sets.1 ∨
    ∃ file ∈ rest, IsInit file ∧ pyPkg file = q
  covered : ∀ file ∈ done, parentPath file.name = "" ∨ parentPath file.name ∈ sets.1

theorem PkgSets.init (files : List File) :
    PkgSets ((files.filter IsInit).map pyPkg) [] files ((files.filter IsInit).map pyPkg, []) where
  existing := by simp
  fresh := by simp
  closed q mem := by
    obtain ⟨file, kept, rfl⟩ := List.mem_map.mp mem
    obtain ⟨member, init⟩ := List.mem_filter.mp kept
    exact .inr (.inr ⟨file, member, by simpa using init, rfl⟩)
  covered := by simp

/-- One round of the second loop. -/
theorem PkgSets.step {seeds : List String} {done rest : List File} {file : File}
    {sets : List String × List String} (inv : PkgSets seeds done (file :: rest) sets) :
    PkgSets seeds (done ++ [file]) rest
      (populateNewPyPkgs ((parentPath file.name).length + 1) (parentPath file.name) sets) := by
  obtain ⟨existing, new⟩ := sets
  obtain ⟨added, run, fresh, marked⟩ := populateNewPyPkgs_spec ((parentPath file.name).length + 1)
    (parentPath file.name) existing new (Nat.lt_succ_self _) (parentPath_cases file.name)
  have seeded : existing = seeds ++ new := inv.existing
  rw [run]
  constructor
  · show existing ++ added = seeds ++ (new ++ added)
    rw [seeded, List.append_assoc]
  · intro a mem
    rcases List.mem_append.mp mem with old | this
    · exact inv.fresh a old
    · obtain ⟨notMarked, pkg, -⟩ := fresh a this
      exact ⟨fun seed => notMarked (by rw [seeded]; exact List.mem_append_left _ seed), pkg⟩
  · intro q mem
    rcases List.mem_append.mp mem with old | this
    · rcases inv.closed q old with top | parent | ⟨other, pending, init, pkg⟩
      · exact .inl top
      · exact .inr (.inl (List.mem_append_left _ parent))
      · rcases List.mem_cons.mp pending with rfl | later
        · -- `q` is the package of this `__init__.py`: the climb from it marked the one above
          have above : pathBeforeLastSlash q = parentPath other.name := by
            rw [← pkg, pyPkg, parentPath, if_pos (show Filepath.base other.name = "__init__.py" from init)]
          rw [above]
          exact marked.imp_right .inl
        · exact .inr (.inr ⟨other, later, init, pkg⟩)
    · obtain ⟨-, -, parent⟩ := fresh q this
      exact parent.imp_right .inl
  · intro other mem
    rcases List.mem_append.mp mem with old | this
    · exact (inv.covered other old).imp_right (List.mem_append_left _)
    · rw [List.mem_singleton.mp this]
      exact marked

/-- The whole second loop, from any round on. -/
theorem PkgSets.foldl {seeds : List String} : ∀ (rest done : List File) (sets : List String × List String),
    PkgSets seeds done rest sets →
    PkgSets seeds (done ++ rest) [] (rest.foldl (fun sets file =>
      populateNewPyPkgs ((parentPath file.name).length + 1) (parentPath file.name) sets) sets)
  | [], done, sets, inv => by simpa using inv
  | file :: rest, done, sets, inv => by
    have later := PkgSets.foldl rest (done ++ [file]) _ inv.step
    simpa using later

/-- What the second loop marks: packages apart from the seeds, closed with the seeds under the
parent package, that hold the package of every input file. -/
theorem newPyPkgs_spec (files : List File) :
    let seeds := (files.filter IsInit).map pyPkg
    (∀ a ∈ newPyPkgs files seeds, a ∉ seeds ∧ PkgDir a) ∧
      (∀ q ∈ seeds ++ newPyPkgs files seeds,
        pathBeforeLastSlash q = "" ∨ pathBeforeLastSlash q ∈ seeds ++ newPyPkgs files seeds) ∧
      ∀ file ∈ files, parentPath file.name = "" ∨ parentPath file.name ∈ seeds ++ newPyPkgs files seeds := by
  intro seeds
  have run := PkgSets.foldl files [] (seeds, []) (PkgSets.init files)
  rw [List.nil_append] at run
  have marked : _ = seeds ++ newPyPkgs files seeds := run.existing
  refine ⟨run.fresh, fun q mem => ?_, fun file mem => ?_⟩
  · rw [← marked] at mem ⊢
    rcases run.closed q mem with top | parent | ⟨file, none, -⟩
    · exact .inl top
    · exact .inr parent
    · cases none
  · rw [← marked]
    exact run.covered file mem

end Populate

section InitNames

theorem PkgDir.ne_empty {d : String} (pkg : PkgDir d) : d ≠ "" := by
  rintro rfl
  exact absurd pkg.1 (by decide)

theorem properElem_init : Filepath.ProperElem "__init__.py".toList := by
  unfold Filepath.ProperElem
  decide

/-- An `__init__.py` entry named as a file is `__init__.py` itself or ends in a separator and
`__init__.py`. -/
theorem initName_cases {file : File} (init : IsInit file) (notDirName : file.name.toList.getLast? ≠ some '/') :
    file.name = "__init__.py" ∨ ∃ q, file.name = String.ofList (q ++ '/' :: "__init__.py".toList) := by
  obtain ⟨front, last, split⟩ : ∃ front last, file.name.toList = front ++ [last] := by
    rcases List.eq_nil_or_concat file.name.toList with empty | ⟨front, last, split⟩
    · rw [IsInit, String.toList_eq_nil_iff.mp empty] at init
      exact absurd init (by decide)
    · exact ⟨front, last, by rw [split, List.concat_eq_append]⟩
  have notSep : last ≠ '/' := by
    rintro rfl
    rw [split, List.getLast?_concat] at notDirName
    exact notDirName rfl
  have final : Filepath.finalElem file.name.toList ≠ [] := by
    rw [split, Filepath.finalElem_append front (by simpa using notSep.symm)]
    simp
  -- `Base` of the name is its final element
  have elem : Filepath.finalElem file.name.toList = "__init__.py".toList := by
    have named := Filepath.base_eq_finalElem final
    rw [show Filepath.base file.name = "__init__.py" from init] at named
    rw [named, String.toList_ofList]
  rcases Filepath.eq_finalElem_or file.name.toList with whole | ⟨q, sep⟩
  · left
    rw [← String.toList_inj, whole, elem]
  · right
    refine ⟨q, ?_⟩
    rw [← String.toList_inj, String.toList_ofList, sep, elem]

theorem dir_join_init {g : String} (pkg : PkgDir g) : Filepath.dir (Filepath.join [g, "__init__.py"]) = g := by
  have climbed := Filepath.dir_join_elem pkg.1 pkg.2.1 pkg.2.2 properElem_init
  rwa [String.ofList_toList] at climbed

theorem pathBeforeLastSlash_join_init {g : String} (pkg : PkgDir g) :
    pathBeforeLastSlash (Filepath.join [g, "__init__.py"]) = g := by
  rw [pathBeforeLastSlash_of_not_root (by rw [dir_join_init pkg]; exact not_or.mpr pkg.2), dir_join_init pkg]

theorem mapKey_pyPkgMapping {g : String} (pkg : PkgDir g) :
    mapKey (pyPkgMapping g) = Filepath.join [g, "__init__.py"] :=
  Filepath.clean_join_cons _ pkg.ne_empty

/-- The key of an input `__init__.py` below the top is `Join` of its package and `__init__.py`. -/
theorem clean_init_eq_join {file : File} (init : IsInit file) (notDirName : file.name.toList.getLast? ≠ some '/')
    (nonroot : pyPkg file ≠ "") : Filepath.clean file.name = Filepath.join [pyPkg file, "__init__.py"] := by
  rcases pathBeforeLastSlash_cases file.name with top | ⟨⟨-, notDot, notRoot⟩, climbed⟩
  · exact absurd top nonroot
  · rw [pyPkg, climbed]
    rw [climbed] at notDot notRoot
    rcases initName_cases init notDirName with whole | ⟨q, split⟩
    · rw [whole] at notDot
      exact absurd (by decide) notDot
    · rw [split] at notDot notRoot ⊢
      rw [Filepath.clean_eq_join_dir properElem_init notDot notRoot, String.ofList_toList]

/-- A generated `__init__.py` has the key of an input one only in the input's package. -/
theorem eq_pyPkg_of_join_eq_clean {file : File} (init : IsInit file)
    (notDirName : file.name.toList.getLast? ≠ some '/') {g : String} (pkg : PkgDir g)
    (same : Filepath.join [g, "__init__.py"] = Filepath.clean file.name) : g = pyPkg file := by
  rcases initName_cases init notDirName with whole | ⟨q, split⟩
  · have top : Filepath.dir (Filepath.clean "__init__.py") = "." := by decide
    rw [← whole, ← same, dir_join_init pkg] at top
    exact absurd top pkg.2.1
  · -- `Dir` does not see the cleaning, so `g` is `Dir` of the name
    have kept := Filepath.dir_clean_append_elem q properElem_init
    rw [← split, ← same, dir_join_init pkg] at kept
    rw [pyPkg, pathBeforeLastSlash_of_not_root (by rw [← kept]; exact not_or.mpr pkg.2), ← kept]

theorem clean_init_ne_main {file : File} (init : IsInit file) (notDirName : file.name.toList.getLast? ≠ some '/') :
    Filepath.clean file.name ≠ "__main__.py" := by
  intro same
  have final : Filepath.finalElem (Filepath.clean file.name).toList = "__init__.py".toList := by
    rcases initName_cases init notDirName with whole | ⟨q, split⟩
    · rw [whole]
      decide
    · rw [split]
      exact Filepath.finalElem_clean_append_elem q properElem_init
  rw [same] at final
  exact absurd final (by decide)

end InitNames

section Output

variable {checksumIEEE : List UInt8 → UInt32} {readFile : String → Except String (List UInt8)}
  {pathtoolsMatch : String → String → Except String Bool} {quote : String → String}
  {readers : List NamedZipReader} {pyMain : String}
  {sortEntries emulateJar stripDirEntries ignoreDuplicates : Bool}
  {stripFiles stripDirs zipsToNotStrip : List String} {manifestBytes pyMainBytes : List UInt8}

/-- Under `emulatePar` and with no manifest, `mergeZips` hands `addMapping` `__main__.py`, the
generated `__init__.py` files and entries of the inputs. -/
theorem mem_candidates_par {c : FileMapping}
    (mem : c ∈ candidates pathtoolsMatch readers "" pyMain emulateJar true stripDirEntries stripFiles stripDirs
      zipsToNotStrip manifestBytes pyMainBytes) :
    c = pyMainMapping pyMainBytes ∨
      (∃ g ∈ newPyPkgs (readers.flatMap (·.files)) (((readers.flatMap (·.files)).filter IsInit).map pyPkg),
        c = pyPkgMapping g) ∨
      ∃ r ∈ readers, ∃ file ∈ r.files, c = inputMapping r.path file := by
  simp only [candidates, synthetic, keptInputs, ne_eq, not_true_eq_false, if_false, if_true, List.nil_append,
    List.mem_append, List.mem_map, List.mem_flatMap, List.mem_filter] at mem
  rcases mem with (main | ⟨g, generated, rfl⟩) | ⟨r, reader, file, ⟨member, -⟩, rfl⟩
  · split_ifs at main
    · cases main
    · exact .inl (List.mem_singleton.mp main)
  · exact .inr (.inl ⟨g, generated, rfl⟩)
  · exact .inr (.inr ⟨r, reader, file, member, rfl⟩)

theorem inputMapping_mem_candidates {manifest : String} {emulatePar : Bool} {r : NamedZipReader} {file : File}
    (reader : r ∈ readers) (member : file ∈ r.files)
    (written : Kept pathtoolsMatch emulateJar stripDirEntries stripFiles stripDirs (r.path ∈ zipsToNotStrip) file) :
    inputMapping r.path file ∈ candidates pathtoolsMatch readers manifest pyMain emulateJar emulatePar stripDirEntries
      stripFiles stripDirs zipsToNotStrip manifestBytes pyMainBytes :=
  List.mem_append_right _
    (List.mem_flatMap.mpr ⟨r, reader, List.mem_map_of_mem (List.mem_filter.mpr ⟨member, decide_eq_true written⟩)⟩)

/-- Every mapping `mergeZips` hands `addMapping` under `emulatePar` is at the top or in a
marked package. -/
theorem pathBeforeLastSlash_candidate {c : FileMapping}
    (mem : c ∈ candidates pathtoolsMatch readers "" pyMain emulateJar true stripDirEntries stripFiles stripDirs
      zipsToNotStrip manifestBytes pyMainBytes) :
    let seeds := ((readers.flatMap (·.files)).filter IsInit).map pyPkg
    pathBeforeLastSlash c.dest = "" ∨
      pathBeforeLastSlash c.dest ∈ seeds ++ newPyPkgs (readers.flatMap (·.files)) seeds := by
  intro seeds
  obtain ⟨fresh, -, covered⟩ := newPyPkgs_spec (readers.flatMap (·.files))
  rcases mem_candidates_par mem with rfl | ⟨g, generated, rfl⟩ | ⟨r, reader, file, member, rfl⟩
  · exact .inl (show pathBeforeLastSlash "__main__.py" = "" by decide)
  · right
    rw [pyPkgMapping, pathBeforeLastSlash_join_init (fresh g generated).2]
    exact List.mem_append_right _ generated
  · have inFiles : file ∈ readers.flatMap (·.files) := List.mem_flatMap.mpr ⟨r, reader, member⟩
    by_cases init : IsInit file
    · right
      exact List.mem_append_left _ (List.mem_map_of_mem (List.mem_filter.mpr ⟨inFiles, by simpa using init⟩))
    · have parent := covered file inFiles
      rwa [parentPath, if_neg (show ¬Filepath.base file.name = "__init__.py" from init)] at parent

/-- A marked package has an `__init__.py` among the mappings: the generated one, or the input's
own when every input `__init__.py` is written. -/
theorem hasKey_marked
    (initsWritten : ∀ r ∈ readers, ∀ file ∈ r.files, IsInit file →
      Kept pathtoolsMatch emulateJar stripDirEntries stripFiles stripDirs (r.path ∈ zipsToNotStrip) file ∧
        file.name.toList.getLast? ≠ some '/')
    {d : String} (nonempty : d ≠ "")
    (marked : d ∈ ((readers.flatMap (·.files)).filter IsInit).map pyPkg ++
      newPyPkgs (readers.flatMap (·.files)) (((readers.flatMap (·.files)).filter IsInit).map pyPkg)) :
    HasKey mapKey (candidates pathtoolsMatch readers "" pyMain emulateJar true stripDirEntries stripFiles
      stripDirs zipsToNotStrip manifestBytes pyMainBytes) (Filepath.join [d, "__init__.py"]) := by
  obtain ⟨fresh, -, -⟩ := newPyPkgs_spec (readers.flatMap (·.files))
  rcases List.mem_append.mp marked with seed | generated
  · obtain ⟨file, kept, rfl⟩ := List.mem_map.mp seed
    obtain ⟨inFiles, init⟩ := List.mem_filter.mp kept
    obtain ⟨r, reader, member⟩ := List.mem_flatMap.mp inFiles
    have init : IsInit file := by simpa using init
    obtain ⟨written, notDirName⟩ := initsWritten r reader file member init
    exact ⟨inputMapping r.path file, inputMapping_mem_candidates reader member written,
      clean_init_eq_join init notDirName nonempty⟩
  · unfold candidates
    refine ⟨pyPkgMapping d, List.mem_append_left _ (List.mem_append_right _ ?_), mapKey_pyPkgMapping (fresh d generated).2⟩
    rw [if_pos rfl]
    exact List.mem_map_of_mem generated

/-- Only entries of the inputs have the key of an input `__init__.py`. -/
theorem zipEntry_of_init_key {r : NamedZipReader} {file : File} (reader : r ∈ readers) (member : file ∈ r.files)
    (init : IsInit file) (notDirName : file.name.toList.getLast? ≠ some '/') {c : FileMapping}
    (mem : c ∈ candidates pathtoolsMatch readers "" pyMain emulateJar true stripDirEntries stripFiles stripDirs
      zipsToNotStrip manifestBytes pyMainBytes)
    (same : mapKey c = Filepath.clean file.name) : ∃ zipName input, c.source = .zipEntry zipName input := by
  obtain ⟨fresh, -, -⟩ := newPyPkgs_spec (readers.flatMap (·.files))
  rcases mem_candidates_par mem with rfl | ⟨g, generated, rfl⟩ | ⟨r', -, input, -, rfl⟩
  · have main : mapKey (pyMainMapping pyMainBytes) = "__main__.py" :=
      show Filepath.clean "__main__.py" = "__main__.py" by decide
    exact absurd (same.symm.trans main) (clean_init_ne_main init notDirName)
  · -- the package of the input is a seed, and no generated package is
    obtain ⟨unseeded, pkg⟩ := fresh g generated
    have seeded := eq_pyPkg_of_join_eq_clean init notDirName pkg ((mapKey_pyPkgMapping pkg).symm.trans same)
    have inFiles : file ∈ readers.flatMap (·.files) := List.mem_flatMap.mpr ⟨r, reader, member⟩
    exact absurd (seeded ▸ List.mem_map_of_mem (List.mem_filter.mpr ⟨inFiles, by simpa using init⟩)) unseeded
  · exact ⟨r'.path, input, rfl⟩

theorem perm_of_sorted {out l : List FileMapping}
    (sorted : out = if emulateJar then jarSort l else if sortEntries then alphanumericSort l else l) :
    out.Perm l := by
  split_ifs at sorted
  · rw [sorted]
    exact sliceStable_perm _ l
  · rw [sorted]
    exact sliceStable_perm _ l
  · rw [sorted]

theorem pyMain_read_of_ok {emulatePar : Bool} {out : List FileMapping}
    (merged : mergeZips checksumIEEE readFile pathtoolsMatch quote readers "" pyMain sortEntries emulateJar emulatePar
      stripDirEntries ignoreDuplicates stripFiles stripDirs zipsToNotStrip = .ok out) :
    ∃ bytes, pyMain ≠ "" → readFile pyMain = .ok bytes := by
  cases read : readFile pyMain with
  | ok bytes => exact ⟨bytes, fun _ => rfl⟩
  | error err =>
    refine ⟨[], fun given => ?_⟩
    simp [mergeZips, addSynthetic, addPyMain, given, read] at merged

/-- With `-p` and no manifest, where every `__init__.py` of the inputs is written and named as a
file: every directory above a written entry, short of `.` and `/`, has exactly one `__init__.py`
among the entries written, and the one with the key of an input `__init__.py` is an input's. -/
theorem mergeZips_par_init_files {manifest : String}
    (matchOk : ∀ pattern name, ∃ b, pathtoolsMatch pattern name = .ok b) (noManifest : manifest = "")
    (initsWritten : ∀ r ∈ readers, ∀ file ∈ r.files, IsInit file →
      Kept pathtoolsMatch emulateJar stripDirEntries stripFiles stripDirs (r.path ∈ zipsToNotStrip) file ∧
        file.name.toList.getLast? ≠ some '/')
    {out : List FileMapping}
    (merged : mergeZips checksumIEEE readFile pathtoolsMatch quote readers manifest pyMain sortEntries emulateJar true
      stripDirEntries ignoreDuplicates stripFiles stripDirs zipsToNotStrip = .ok out) :
    (∀ fm ∈ out, ∀ d ∈ packageChain (Filepath.dir fm.dest),
      ∃! fm', fm' ∈ out ∧ mapKey fm' = Filepath.join [d, "__init__.py"]) ∧
    ∀ r ∈ readers, ∀ file ∈ r.files, IsInit file →
      (∃ fm ∈ out, mapKey fm = Filepath.clean file.name) ∧
        ∀ fm ∈ out, mapKey fm = Filepath.clean file.name → ∃ zipName input, fm.source = .zipEntry zipName input := by
  subst noManifest
  obtain ⟨pyMainBytes, pyMainRead⟩ := pyMain_read_of_ok merged
  have outcome := mergeZips_outcome checksumIEEE readFile pathtoolsMatch quote readers "" pyMain sortEntries
    emulateJar true stripDirEntries ignoreDuplicates stripFiles stripDirs zipsToNotStrip [] pyMainBytes matchOk
    (fun given => absurd rfl given) pyMainRead
  rw [merged] at outcome
  obtain ⟨-, -, sorted⟩ := outcome
  have perm := perm_of_sorted sorted
  -- everything written is among the mappings handed to `addMapping`
  have fromAll : ∀ fm ∈ out, fm ∈ candidates pathtoolsMatch readers "" pyMain emulateJar true stripDirEntries
      stripFiles stripDirs zipsToNotStrip [] pyMainBytes :=
    fun fm mem => (firstByKey_sublist _).subset (perm.subset mem)
  obtain ⟨-, closed, -⟩ := newPyPkgs_spec (readers.flatMap (·.files))
  refine ⟨fun fm mem d onChain => ?_, fun r reader file member init => ⟨?_, fun fm mem same => ?_⟩⟩
  · have nonempty : d ≠ "" :=
      Filepath.ne_empty_of_mem_ancestors (Filepath.dir_ne_empty _) (List.mem_of_mem_filter onChain)
    have marked := packageChain_subset closed
      (dir_root_or_mem (pathBeforeLastSlash_candidate (fromAll fm mem))) d onChain
    exact existsUnique_of_perm_firstByKey perm (hasKey_marked initsWritten nonempty marked)
  · obtain ⟨written, -⟩ := initsWritten r reader file member init
    obtain ⟨fm, ⟨mem, same⟩, -⟩ := existsUnique_of_perm_firstByKey perm
      ⟨_, inputMapping_mem_candidates reader member written, rfl⟩
    exact ⟨fm, mem, same⟩
  · exact zipEntry_of_init_key reader member init (initsWritten r reader file member init).2 (fromAll fm mem) same

theorem mergeZips_par_init_files_nested :
    (∀ pattern name, ∃ b, (fun _ _ => .ok false : String → String → Except String Bool) pattern name = .ok b) ∧
    (∀ r ∈ ([⟨"in.zip", [⟨"a/__init__.py", false, 0, 0⟩, ⟨"a/b/c.py", false, 0, 0⟩]⟩] : List NamedZipReader),
      ∀ file ∈ r.files, IsInit file →
        Kept (fun _ _ => .ok false) false false [] [] (r.path ∈ ([] : List String)) file ∧
          file.name.toList.getLast? ≠ some '/') ∧
    mergeZips (fun _ => 0) (fun _ => .error "open: no such file") (fun _ _ => .ok false) (fun s => "\"" ++ s ++ "\"")
        [⟨"in.zip", [⟨"a/__init__.py", false, 0, 0⟩, ⟨"a/b/c.py", false, 0, 0⟩]⟩] "" "" false false true false false
        [] [] [] =
      .ok [⟨"a/b/__init__.py", .bufferEntry "a/b/__init__.py" false []⟩,
        ⟨"a/__init__.py", .zipEntry "in.zip" ⟨"a/__init__.py", false, 0, 0⟩⟩,
        ⟨"a/b/c.py", .zipEntry "in.zip" ⟨"a/b/c.py", false, 0, 0⟩⟩] ∧
    (∀ fm ∈ ([⟨"a/b/__init__.py", .bufferEntry "a/b/__init__.py" false []⟩,
        ⟨"a/__init__.py", .zipEntry "in.zip" ⟨"a/__init__.py", false, 0, 0⟩⟩,
        ⟨"a/b/c.py", .zipEntry "in.zip" ⟨"a/b/c.py", false, 0, 0⟩⟩] : List FileMapping),
      ∀ d ∈ packageChain (Filepath.dir fm.dest),
        ∃! fm', fm' ∈ ([⟨"a/b/__init__.py", .bufferEntry "a/b/__init__.py" false []⟩,
          ⟨"a/__init__.py", .zipEntry "in.zip" ⟨"a/__init__.py", false, 0, 0⟩⟩,
          ⟨"a/b/c.py", .zipEntry "in.zip" ⟨"a/b/c.py", false, 0, 0⟩⟩] : List FileMapping) ∧
          mapKey fm' = Filepath.join [d, "__init__.py"]) ∧
    ∀ r ∈ ([⟨"in.zip", [⟨"a/__init__.py", false, 0, 0⟩, ⟨"a/b/c.py", false, 0, 0⟩]⟩] : List NamedZipReader),
      ∀ file ∈ r.files, IsInit file →
        (∃ fm ∈ ([⟨"a/b/__init__.py", .bufferEntry "a/b/__init__.py" false []⟩,
          ⟨"a/__init__.py", .zipEntry "in.zip" ⟨"a/__init__.py", false, 0, 0⟩⟩,
          ⟨"a/b/c.py", .zipEntry "in.zip" ⟨"a/b/c.py", false, 0, 0⟩⟩] : List FileMapping),
            mapKey fm = Filepath.clean file.name) ∧
        ∀ fm ∈ ([⟨"a/b/__init__.py", .bufferEntry "a/b/__init__.py" false []⟩,
          ⟨"a/__init__.py", .zipEntry "in.zip" ⟨"a/__init__.py", false, 0, 0⟩⟩,
          ⟨"a/b/c.py", .zipEntry "in.zip" ⟨"a/b/c.py", false, 0, 0⟩⟩] : List FileMapping),
          mapKey fm = Filepath.clean file.name → ∃ zipName input, fm.source = .zipEntry zipName input := by
  have matchOk : ∀ pattern name, ∃ b, (fun _ _ => .ok false : String → String → Except String Bool) pattern name = .ok b :=
    fun _ _ => ⟨false, rfl⟩
  have initsWritten : ∀ r ∈ ([⟨"in.zip", [⟨"a/__init__.py", false, 0, 0⟩, ⟨"a/b/c.py", false, 0, 0⟩]⟩] :
      List NamedZipReader), ∀ file ∈ r.files, IsInit file →
        Kept (fun _ _ => .ok false) false false [] [] (r.path ∈ ([] : List String)) file ∧
          file.name.toList.getLast? ≠ some '/' := by
    decide
  have merged : mergeZips (fun _ => 0) (fun _ => .error "open: no such file") (fun _ _ => .ok false)
      (fun s => "\"" ++ s ++ "\"") [⟨"in.zip", [⟨"a/__init__.py", false, 0, 0⟩, ⟨"a/b/c.py", false, 0, 0⟩]⟩] "" ""
      false false true false false [] [] [] =
    .ok [⟨"a/b/__init__.py", .bufferEntry "a/b/__init__.py" false []⟩,
      ⟨"a/__init__.py", .zipEntry "in.zip" ⟨"a/__init__.py", false, 0, 0⟩⟩,
      ⟨"a/b/c.py", .zipEntry "in.zip" ⟨"a/b/c.py", false, 0, 0⟩⟩] := by
    decide
  exact ⟨matchOk, initsWritten, merged, mergeZips_par_init_files matchOk rfl initsWritten merged⟩

/-- A strip option that drops `a/__init__.py` leaves package `a` without one, as it was marked
before the strip; and under `-m` the `META-INF/` directory written for the manifest gets none. -/
theorem mergeZips_par_counterexample :
    mergeZips (fun _ => 0) (fun _ => .error "open: no such file") (fun pattern name => .ok (pattern == name))
        (fun s => "\"" ++ s ++ "\"") [⟨"in.zip", [⟨"a/__init__.py", false, 0, 0⟩, ⟨"a/b.py", false, 0, 0⟩]⟩]
        "" "" false false true false false ["a/__init__.py"] [] [] =
      .ok [⟨"a/b.py", .zipEntry "in.zip" ⟨"a/b.py", false, 0, 0⟩⟩] ∧
    mergeZips (fun _ => 0) (fun _ => .ok []) (fun _ _ => .ok false) (fun s => "\"" ++ s ++ "\"")
        [⟨"in.zip", [⟨"a.py", false, 0, 0⟩]⟩] "MANIFEST.MF" "" false false true false false [] [] [] =
      .ok [⟨Jar.metaDir, .bufferEntry Jar.metaDir true []⟩,
        ⟨Jar.manifestFile, .bufferEntry Jar.manifestFile false (Jar.manifestContents [])⟩,
        ⟨"a.py", .zipEntry "in.zip" ⟨"a.py", false, 0, 0⟩⟩] := by
  refine ⟨?_, ?_⟩
  · decide
  · decide

end Output

end Soong.MergeZips
