import Soong.Cmd.MergeZips

namespace Soong.MergeZips

open Go

/-- What `mergeZips` writes: the first mapping of every key among those it is given, failing
exactly on a clash with the first mapping of a key, and panicking on a second `__init__.py` of
a package under `-p`. The state of the `addMapping` closure is described by the list of
mappings it was given (`Represents`), and the input loop by what it yields over a list of
mappings (`LoopResult`), which composes along the loops.

`m` is the state `addMapping` leaves once given the mappings `done` in order. -/
structure Represents (m : Mappings) (done : List FileMapping) : Prop where
  ordered : m.orderedMappings = firstByKey mapKey done
  lookup : ∀ k, m.sourceByDest.lookup k = (done.find? fun fm => mapKey fm = k).map (·.source)

theorem Represents.empty : Represents ⟨[], []⟩ [] := ⟨rfl, fun _ => rfl⟩

/-- `addMapping` returns the source of the first earlier mapping with the key of `dest`. -/
theorem Represents.addMapping {m : Mappings} {done : List FileMapping} (rep : Represents m done)
    (dest : String) (source : ZipSource) :
    (m.addMapping dest source).1 =
        (done.find? fun fm => mapKey fm = Filepath.clean dest).map (·.source) ∧
      Represents (m.addMapping dest source).2 (done ++ [⟨dest, source⟩]) := by
  have key : mapKey ⟨dest, source⟩ = Filepath.clean dest := rfl
  -- `sourceByDest` is the first-wins map of the mappings given so far
  have lookupFirst : LookupFirst mapKey (·.source) m.sourceByDest done := rep.lookup
  unfold Mappings.addMapping
  rw [rep.lookup]
  cases found : done.find? fun fm => mapKey fm = Filepath.clean dest with
  | some first =>
    have seen : HasKey mapKey (firstByKey mapKey done) (mapKey ⟨dest, source⟩) := by
      rw [hasKey_firstByKey, key]
      exact ⟨first, List.mem_of_find?_eq_some found, by simpa using List.find?_some found⟩
    simp only [Option.map_some]
    refine ⟨trivial, ?_, ?_⟩
    · rw [rep.ordered, firstByKey_append_singleton, if_pos seen]
    · exact lookupFirst.append_of_isSome (a := ⟨dest, source⟩) (by rw [key, found]; rfl)
  | none =>
    have unseen : ¬HasKey mapKey (firstByKey mapKey done) (mapKey ⟨dest, source⟩) := by
      rw [hasKey_firstByKey, key]
      rintro ⟨b, member, same⟩
      have := List.find?_eq_none.mp found b member
      simp_all
    simp only [Option.map_none]
    refine ⟨trivial, ?_, ?_⟩
    · rw [rep.ordered, firstByKey_append_singleton, if_neg unseen]
    · have filed := lookupFirst.append_of_none (a := ⟨dest, source⟩) (by rw [key]; exact found)
      rw [key] at filed
      exact filed

section Loop

variable (checksumIEEE : List UInt8 → UInt32) (emulateJar ignoreDuplicates : Bool)

def inputMapping (zipName : String) (file : File) : FileMapping :=
  ⟨file.name, .zipEntry zipName file⟩

/-- What makes the input loop fail on an entry whose key the source `first` has. The
exemption looks at the raw name of the later entry. -/
def Clash (first : ZipSource) (file : File) : Prop :=
  first.isDir ≠ file.isDir ∨
    ¬ignoreDuplicates ∧ ¬file.isDir ∧
      ¬((emulateJar ∧ file.name = Jar.manifestFile) ∨ file.name = Jar.moduleInfoClass) ∧
      ¬(first.crc32 checksumIEEE = file.crc32 ∧ first.size = file.uncompressedSize64)

theorem checkDuplicate_eq_none_iff {zipName : String} {file : File} {first : ZipSource} :
    checkDuplicate checksumIEEE emulateJar ignoreDuplicates file first (.zipEntry zipName file) = none ↔
      ¬Clash checksumIEEE emulateJar ignoreDuplicates first file := by
  unfold checkDuplicate Clash
  simp only [ZipSource.isDir, ZipSource.crc32, ZipSource.size]
  split_ifs <;> simp_all
  tauto

/-- An input mapping clashes with the first of the mappings `before` it that has its key;
the mappings made by `mergeZips` itself are never checked. -/
def ClashesWith (before : List FileMapping) (fm : FileMapping) : Prop :=
  match fm.source, before.find? (fun b => mapKey b = mapKey fm) with
  | .zipEntry _ file, some first => Clash checksumIEEE emulateJar ignoreDuplicates first.source file
  | _, _ => False

/-- Some mapping of `l` clashes with those before it, after `done`. -/
def AnyClash (done l : List FileMapping) : Prop :=
  ∃ front fm back, l = front ++ fm :: back ∧ ClashesWith checksumIEEE emulateJar ignoreDuplicates (done ++ front) fm

/-- What the input loop yields over the mappings `l` after `done`: a failure exactly on a
clash, and otherwise the state of `done ++ l`. -/
def LoopResult (r : Except String Mappings) (done l : List FileMapping) : Prop :=
  match r with
  | .ok m => ¬AnyClash checksumIEEE emulateJar ignoreDuplicates done l ∧ Represents m (done ++ l)
  | .error _ => AnyClash checksumIEEE emulateJar ignoreDuplicates done l

variable {checksumIEEE emulateJar ignoreDuplicates}

@[simp] theorem loopResult_ok {m : Mappings} {done l : List FileMapping} :
    LoopResult checksumIEEE emulateJar ignoreDuplicates (.ok m) done l ↔
      ¬AnyClash checksumIEEE emulateJar ignoreDuplicates done l ∧ Represents m (done ++ l) := Iff.rfl

@[simp] theorem loopResult_error {err : String} {done l : List FileMapping} :
    LoopResult checksumIEEE emulateJar ignoreDuplicates (.error err) done l ↔
      AnyClash checksumIEEE emulateJar ignoreDuplicates done l := Iff.rfl

theorem not_anyClash_nil (done : List FileMapping) :
    ¬AnyClash checksumIEEE emulateJar ignoreDuplicates done [] := by
  rintro ⟨front, fm, back, split, -⟩
  simp at split

theorem anyClash_singleton {done : List FileMapping} {fm : FileMapping} :
    AnyClash checksumIEEE emulateJar ignoreDuplicates done [fm] ↔
      ClashesWith checksumIEEE emulateJar ignoreDuplicates done fm := by
  constructor
  · rintro ⟨front, fm', back, split, clash⟩
    obtain ⟨rfl, rfl, -⟩ : front = [] ∧ fm' = fm ∧ back = [] := by
      cases front with
      | nil => simp_all
      | cons a rest => simp at split
    simpa using clash
  · exact fun clash => ⟨[], fm, [], rfl, by simpa using clash⟩

theorem anyClash_append {done l l' : List FileMapping} :
    AnyClash checksumIEEE emulateJar ignoreDuplicates done (l ++ l') ↔
      AnyClash checksumIEEE emulateJar ignoreDuplicates done l ∨
        AnyClash checksumIEEE emulateJar ignoreDuplicates (done ++ l) l' := by
  constructor
  · rintro ⟨front, fm, back, split, clash⟩
    rcases List.append_eq_append_iff.mp split with ⟨middle, rfl, rest⟩ | ⟨middle, first, rest⟩
    · exact .inr ⟨middle, fm, back, rest, by simpa using clash⟩
    · cases middle with
      | nil =>
        simp only [List.nil_append] at rest
        exact .inr ⟨[], fm, back, by simpa using rest.symm, by simpa [first] using clash⟩
      | cons head more =>
        obtain ⟨rfl, rfl⟩ := List.cons_eq_cons.mp rest
        exact .inl ⟨front, fm, more, first, clash⟩
  · rintro (⟨front, fm, back, rfl, clash⟩ | ⟨front, fm, back, rfl, clash⟩)
    · exact ⟨front, fm, back ++ l', by simp, clash⟩
    · exact ⟨l ++ front, fm, back, by simp, by simpa using clash⟩

theorem LoopResult.ok_nil {m : Mappings} {done : List FileMapping} (rep : Represents m done) :
    LoopResult checksumIEEE emulateJar ignoreDuplicates (.ok m) done [] :=
  ⟨not_anyClash_nil done, by simpa using rep⟩

/-- The input loop composes: a run over `l` followed, from the state it reaches, by a run
over `l'` is a run over `l ++ l'`. -/
theorem LoopResult.bind {r : Except String Mappings} {f : Mappings → Except String Mappings}
    {done l l' : List FileMapping} (first : LoopResult checksumIEEE emulateJar ignoreDuplicates r done l)
    (rest : ∀ m, Represents m (done ++ l) →
      LoopResult checksumIEEE emulateJar ignoreDuplicates (f m) (done ++ l) l') :
    LoopResult checksumIEEE emulateJar ignoreDuplicates (r >>= f) done (l ++ l') := by
  cases r with
  | error err => exact anyClash_append.mpr (.inl first)
  | ok m =>
    have later := rest m first.2
    simp only [ok_bind]
    cases result : f m with
    | error err =>
      rw [result] at later
      exact anyClash_append.mpr (.inr later)
    | ok m' =>
      rw [result] at later
      refine ⟨fun clash => ?_, by simpa using later.2⟩
      rcases anyClash_append.mp clash with early | late
      · exact first.1 early
      · exact later.1 late

theorem ClashesWith.input {before : List FileMapping} {zipName : String} {file : File} :
    ClashesWith checksumIEEE emulateJar ignoreDuplicates before (inputMapping zipName file) ↔
      ∃ first, (before.find? fun b => mapKey b = Filepath.clean file.name) = some first ∧
        Clash checksumIEEE emulateJar ignoreDuplicates first.source file := by
  have key : mapKey (inputMapping zipName file) = Filepath.clean file.name := rfl
  unfold ClashesWith
  rw [key]
  cases before.find? fun b => mapKey b = Filepath.clean file.name <;> simp [inputMapping]

/-- One checked round: the mapping is filed, dropped as a duplicate, or fails on a clash. -/
theorem addChecked_loopResult {m : Mappings} {done : List FileMapping} (rep : Represents m done)
    (zipName : String) (file : File) :
    LoopResult checksumIEEE emulateJar ignoreDuplicates
      (addChecked checksumIEEE emulateJar ignoreDuplicates zipName m file) done
      [inputMapping zipName file] := by
  obtain ⟨existing, next⟩ := rep.addMapping file.name (.zipEntry zipName file)
  unfold addChecked
  dsimp only
  cases added : m.addMapping file.name (.zipEntry zipName file) with
  | mk found m' =>
    rw [added] at existing next
    cases found with
    | none =>
      have unseen : (done.find? fun b => mapKey b = Filepath.clean file.name) = none := by
        cases search : done.find? fun b => mapKey b = Filepath.clean file.name <;> simp_all
      rw [loopResult_ok]
      refine ⟨fun clash => ?_, next⟩
      obtain ⟨first, found, -⟩ := ClashesWith.input.mp (anyClash_singleton.mp clash)
      simp [unseen] at found
    | some existingSource =>
      obtain ⟨first, found, rfl⟩ : ∃ first, (done.find? fun b => mapKey b = Filepath.clean file.name) =
          some first ∧ first.source = existingSource := by
        cases search : done.find? fun b => mapKey b = Filepath.clean file.name <;> simp_all
      have clash : AnyClash checksumIEEE emulateJar ignoreDuplicates done [inputMapping zipName file] ↔
          Clash checksumIEEE emulateJar ignoreDuplicates first.source file := by
        rw [anyClash_singleton, ClashesWith.input]
        simp [found]
      dsimp only
      cases check : checkDuplicate checksumIEEE emulateJar ignoreDuplicates file first.source
          (.zipEntry zipName file) with
      | some err =>
        rw [loopResult_error, clash]
        by_contra fine
        have dropped := (@checkDuplicate_eq_none_iff checksumIEEE emulateJar ignoreDuplicates zipName
          file first.source).mpr fine
        rw [check] at dropped
        cases dropped
      | none =>
        rw [loopResult_ok, clash]
        exact ⟨(@checkDuplicate_eq_none_iff checksumIEEE emulateJar ignoreDuplicates zipName
          file first.source).mp check, next⟩

end Loop

section Strip

variable (pathtoolsMatch : String → String → Except String Bool)

/-- `pathtools.Match` reports that one of `patterns` matches `name`. -/
def MatchesAny (patterns : List String) (name : String) : Prop :=
  ∃ pattern ∈ patterns, pathtoolsMatch pattern name = .ok true

instance (patterns : List String) (name : String) : Decidable (MatchesAny pathtoolsMatch patterns name) :=
  inferInstanceAs (Decidable (∃ pattern ∈ patterns, pathtoolsMatch pattern name = .ok true))

variable {pathtoolsMatch}

theorem matchAny_eq (matchOk : ∀ pattern name, ∃ b, pathtoolsMatch pattern name = .ok b)
    (name : String) (patterns : List String) :
    matchAny pathtoolsMatch name patterns = .ok (decide (MatchesAny pathtoolsMatch patterns name)) := by
  induction patterns with
  | nil => simp [matchAny, MatchesAny]
  | cons pattern rest ih =>
    obtain ⟨b, result⟩ := matchOk pattern name
    cases b with
    | true => simp [matchAny, result, MatchesAny]
    | false =>
      simp only [matchAny, result, ih, Except.ok.injEq, decide_eq_decide]
      simp [MatchesAny, result]

/-- Whether `shouldStripEntry` strips `name`, when no pattern makes `pathtools.Match` fail:
it strips what matches a pattern of a directory to strip or a file pattern. For
`META-INF/` and `META-INF/MANIFEST.MF` under `emulateJar` this says nothing. -/
theorem shouldStripEntry_ok (matchOk : ∀ pattern name, ∃ b, pathtoolsMatch pattern name = .ok b)
    (emulateJar : Bool) (stripFiles stripDirs : List String) (name : String) :
    ∃ strip, shouldStripEntry pathtoolsMatch emulateJar stripFiles stripDirs name = .ok strip ∧
      (¬(emulateJar ∧ (name = Jar.metaDir ∨ name = Jar.manifestFile)) →
        (strip = true ↔ MatchesAny pathtoolsMatch (stripDirs.flatMap dirPatterns) name ∨
          MatchesAny pathtoolsMatch stripFiles name)) := by
  unfold shouldStripEntry
  rw [matchAny_eq matchOk]
  by_cases inDir : MatchesAny pathtoolsMatch (stripDirs.flatMap dirPatterns) name
  · refine ⟨true, ?_, fun _ => by simp [inDir]⟩
    simp only [inDir, decide_true]
    split_ifs <;> rfl
  · rw [decide_eq_false inDir, matchAny_eq matchOk]
    exact ⟨_, rfl, fun _ => by simp [inDir]⟩

end Strip

section Inputs

variable (checksumIEEE : List UInt8 → UInt32) (pathtoolsMatch : String → String → Except String Bool)
  (emulateJar stripDirEntries ignoreDuplicates : Bool) (stripFiles stripDirs : List String)

/-- The input loop hands `file` to the duplicate check: its zip is exempt from stripping or
`shouldStripEntry` keeps it, and `-D` does not drop it. -/
def Kept (skipStripThisZip : Bool) (file : File) : Prop :=
  (skipStripThisZip ∨ shouldStripEntry pathtoolsMatch emulateJar stripFiles stripDirs file.name = .ok false) ∧
    ¬(stripDirEntries ∧ file.isDir)

instance (skipStripThisZip : Bool) : DecidablePred
    (Kept pathtoolsMatch emulateJar stripDirEntries stripFiles stripDirs skipStripThisZip) :=
  fun file => inferInstanceAs (Decidable ((skipStripThisZip ∨
    shouldStripEntry pathtoolsMatch emulateJar stripFiles stripDirs file.name = .ok false) ∧
      ¬(stripDirEntries ∧ file.isDir)))

/-- The mappings of the input entries that reach the duplicate check, in order. -/
def keptInputs (zipsToNotStrip : List String) (readers : List NamedZipReader) : List FileMapping :=
  readers.flatMap fun namedReader =>
    (namedReader.files.filter (Kept pathtoolsMatch emulateJar stripDirEntries stripFiles stripDirs
      (namedReader.path ∈ zipsToNotStrip))).map (inputMapping namedReader.path)

variable {checksumIEEE pathtoolsMatch emulateJar stripDirEntries ignoreDuplicates stripFiles stripDirs}

theorem addInput_loopResult (matchOk : ∀ pattern name, ∃ b, pathtoolsMatch pattern name = .ok b)
    {m : Mappings} {done : List FileMapping} (rep : Represents m done) (skipStripThisZip : Bool)
    (zipName : String) (file : File) :
    LoopResult checksumIEEE emulateJar ignoreDuplicates
      (addInput checksumIEEE pathtoolsMatch emulateJar stripDirEntries ignoreDuplicates skipStripThisZip
        stripFiles stripDirs zipName m file) done
      (if Kept pathtoolsMatch emulateJar stripDirEntries stripFiles stripDirs skipStripThisZip file
        then [inputMapping zipName file] else []) := by
  obtain ⟨strip, stripped, -⟩ := shouldStripEntry_ok matchOk emulateJar stripFiles stripDirs file.name
  have checked : LoopResult checksumIEEE emulateJar ignoreDuplicates
      (addChecked checksumIEEE emulateJar ignoreDuplicates zipName m file) done
      [inputMapping zipName file] := addChecked_loopResult rep zipName file
  have decision : (if skipStripThisZip then .ok false
      else shouldStripEntry pathtoolsMatch emulateJar stripFiles stripDirs file.name) =
      (.ok (!skipStripThisZip && strip) : Except String Bool) := by
    cases skipStripThisZip <;> simp [stripped]
  have kept : Kept pathtoolsMatch emulateJar stripDirEntries stripFiles stripDirs skipStripThisZip file ↔
      (!skipStripThisZip && strip) = false ∧ ¬(stripDirEntries ∧ file.isDir) := by
    cases skipStripThisZip <;> simp [Kept, stripped]
  unfold addInput
  dsimp only
  rw [decision]
  cases dropped : (!skipStripThisZip && strip)
  · by_cases emptyDir : stripDirEntries ∧ file.isDir
    · have notKept : ¬Kept pathtoolsMatch emulateJar stripDirEntries stripFiles stripDirs
          skipStripThisZip file := fun both => (kept.mp both).2 emptyDir
      rw [if_pos emptyDir, if_neg notKept]
      exact LoopResult.ok_nil rep
    · rw [if_neg emptyDir, if_pos (kept.mpr ⟨dropped, emptyDir⟩)]
      exact checked
  · have notKept : ¬Kept pathtoolsMatch emulateJar stripDirEntries stripFiles stripDirs
        skipStripThisZip file := fun both => by simp [dropped] at kept; exact absurd both kept
    rw [if_neg notKept]
    exact LoopResult.ok_nil rep

theorem filter_map_cons {β : Type} {p : File → Prop} [DecidablePred p] (f : File → β)
    (file : File) (rest : List File) :
    ((file :: rest).filter p).map f = (if p file then [f file] else []) ++ (rest.filter p).map f := by
  by_cases keep : p file <;> simp [keep]

/-- The loop over the entries of one zip: a failure exactly on a clash among its kept
entries, and otherwise the state after them. -/
theorem foldlM_addInput_loopResult (matchOk : ∀ pattern name, ∃ b, pathtoolsMatch pattern name = .ok b)
    (skipStripThisZip : Bool) (zipName : String) :
    ∀ (files : List File) {m : Mappings} {done : List FileMapping}, Represents m done →
      LoopResult checksumIEEE emulateJar ignoreDuplicates
        (files.foldlM (addInput checksumIEEE pathtoolsMatch emulateJar stripDirEntries ignoreDuplicates
          skipStripThisZip stripFiles stripDirs zipName) m) done
        ((files.filter (Kept pathtoolsMatch emulateJar stripDirEntries stripFiles stripDirs
          skipStripThisZip)).map (inputMapping zipName))
  | [], _, _, rep => LoopResult.ok_nil rep
  | file :: rest, _, _, rep => by
    rw [List.foldlM_cons, filter_map_cons]
    exact LoopResult.bind (addInput_loopResult matchOk rep skipStripThisZip zipName file)
      fun _ next => foldlM_addInput_loopResult matchOk skipStripThisZip zipName rest next

theorem addInputs_loopResult (matchOk : ∀ pattern name, ∃ b, pathtoolsMatch pattern name = .ok b)
    (zipsToNotStrip : List String) :
    ∀ (readers : List NamedZipReader) {m : Mappings} {done : List FileMapping}, Represents m done →
      LoopResult checksumIEEE emulateJar ignoreDuplicates
        (addInputs checksumIEEE pathtoolsMatch emulateJar stripDirEntries ignoreDuplicates stripFiles
          stripDirs zipsToNotStrip readers m) done
        (keptInputs pathtoolsMatch emulateJar stripDirEntries stripFiles stripDirs zipsToNotStrip readers)
  | [], _, _, rep => LoopResult.ok_nil rep
  | namedReader :: rest, _, _, rep => by
    unfold addInputs keptInputs
    rw [List.foldlM_cons, List.flatMap_cons]
    exact LoopResult.bind (foldlM_addInput_loopResult matchOk (namedReader.path ∈ zipsToNotStrip)
      namedReader.path namedReader.files rep)
      fun _ next => addInputs_loopResult matchOk zipsToNotStrip rest next

end Inputs

section Synthetic

/-- The mappings `mergeZips` makes for a manifest with bytes `contents`: `META-INF/` unless
directory entries are dropped, then the manifest. -/
def manifestMappings (stripDirEntries : Bool) (contents : List UInt8) : List FileMapping :=
  (if stripDirEntries then [] else [⟨Jar.metaDir, .bufferEntry Jar.metaDir true []⟩]) ++
    [⟨Jar.manifestFile, .bufferEntry Jar.manifestFile false (Jar.manifestContents contents)⟩]

def pyMainMapping (buf : List UInt8) : FileMapping :=
  ⟨"__main__.py", .bufferEntry "__main__.py" false buf⟩

def pyPkgMapping (pkg : String) : FileMapping :=
  ⟨Filepath.join [pkg, "__init__.py"], .bufferEntry (Filepath.join [pkg, "__init__.py"]) false []⟩

/-- The mappings made before the input loop, for a manifest and a `__main__.py` read as
`manifestBytes` and `pyMainBytes`. -/
def synthetic (manifest pyMain : String) (stripDirEntries : Bool) (manifestBytes pyMainBytes : List UInt8) :
    List FileMapping :=
  (if manifest ≠ "" then manifestMappings stripDirEntries manifestBytes else []) ++
    (if pyMain ≠ "" then [pyMainMapping pyMainBytes] else [])

theorem Represents.addMapping_snd {m : Mappings} {done : List FileMapping} (rep : Represents m done)
    (dest : String) (source : ZipSource) :
    Represents (m.addMapping dest source).2 (done ++ [⟨dest, source⟩]) :=
  (rep.addMapping dest source).2

theorem addManifestMappings_represents (readFile : String → Except String (List UInt8))
    {manifest : String} {bytes : List UInt8} (read : readFile manifest = .ok bytes)
    (stripDirEntries : Bool) {m : Mappings} {done : List FileMapping} (rep : Represents m done) :
    ∃ m', addManifestMappings readFile manifest stripDirEntries m = .ok m' ∧
      Represents m' (done ++ manifestMappings stripDirEntries bytes) := by
  unfold addManifestMappings manifestMappings
  rw [read]
  cases stripDirEntries
  · exact ⟨_, rfl, by simpa using (rep.addMapping_snd _ _).addMapping_snd _ _⟩
  · exact ⟨_, rfl, by simpa using rep.addMapping_snd _ _⟩

theorem addPyMain_represents (readFile : String → Except String (List UInt8))
    {pyMain : String} {bytes : List UInt8} (read : readFile pyMain = .ok bytes)
    {m : Mappings} {done : List FileMapping} (rep : Represents m done) :
    ∃ m', addPyMain readFile pyMain m = .ok m' ∧ Represents m' (done ++ [pyMainMapping bytes]) :=
  ⟨_, by rw [addPyMain, read]; rfl, rep.addMapping_snd _ _⟩

theorem addSynthetic_represents (readFile : String → Except String (List UInt8))
    {manifest pyMain : String} {manifestBytes pyMainBytes : List UInt8} (stripDirEntries : Bool)
    (manifestRead : manifest ≠ "" → readFile manifest = .ok manifestBytes)
    (pyMainRead : pyMain ≠ "" → readFile pyMain = .ok pyMainBytes) :
    ∃ m, addSynthetic readFile manifest pyMain stripDirEntries ⟨[], []⟩ = .ok m ∧
      Represents m (synthetic manifest pyMain stripDirEntries manifestBytes pyMainBytes) := by
  -- after the manifest's mappings, if any, comes `__main__.py`
  have rest : ∀ {m : Mappings} {done : List FileMapping}, Represents m done →
      ∃ m', (if pyMain ≠ "" then addPyMain readFile pyMain m else pure m) = .ok m' ∧
        Represents m' (done ++ if pyMain ≠ "" then [pyMainMapping pyMainBytes] else []) := by
    intro m done rep
    split_ifs with hasMain
    · exact addPyMain_represents readFile (pyMainRead hasMain) rep
    · exact ⟨m, rfl, by simpa using rep⟩
  unfold addSynthetic synthetic
  by_cases given : manifest ≠ ""
  · obtain ⟨m, first, rep⟩ := addManifestMappings_represents readFile (manifestRead given)
      stripDirEntries Represents.empty
    simp only [if_pos given, first, ok_bind]
    exact rest (by simpa using rep)
  · simp only [if_neg given, List.nil_append]
    exact rest Represents.empty

theorem addPyPkgs_represents : ∀ (pkgs : List String) {m : Mappings} {done : List FileMapping},
    Represents m done → Represents (addPyPkgs pkgs m) (done ++ pkgs.map pyPkgMapping)
  | [], _, _, rep => by simpa [addPyPkgs] using rep
  | pkg :: rest, _, _, rep => by
    have next := rep.addMapping_snd (Filepath.join [pkg, "__init__.py"])
      (.bufferEntry (Filepath.join [pkg, "__init__.py"]) false [])
    simpa [addPyPkgs, pyPkgMapping] using addPyPkgs_represents rest next

end Synthetic

section PyPkgs

def IsInit (file : File) : Prop := Filepath.base file.name = "__init__.py"

instance : DecidablePred IsInit :=
  fun file => inferInstanceAs (Decidable (Filepath.base file.name = "__init__.py"))

def pyPkg (file : File) : String := pathBeforeLastSlash file.name

/-- An `__init__.py` of `files` whose package is in `taken` or has an `__init__.py` earlier. -/
def PkgTaken (taken : List String) (files : List File) : Prop :=
  ∃ front file back, files = front ++ file :: back ∧ IsInit file ∧
    pyPkg file ∈ taken ++ (front.filter IsInit).map pyPkg

/-- Two `__init__.py` entries of the inputs belong to one package. -/
def InitTwice (files : List File) : Prop := PkgTaken [] files

theorem pkgTaken_cons {taken : List String} {file : File} {rest : List File} :
    PkgTaken taken (file :: rest) ↔ (IsInit file ∧ pyPkg file ∈ taken) ∨
      PkgTaken (if IsInit file then taken ++ [pyPkg file] else taken) rest := by
  constructor
  · rintro ⟨front, found, back, split, init, taken'⟩
    cases front with
    | nil =>
      obtain ⟨rfl, rfl⟩ := List.cons_eq_cons.mp split
      exact .inl ⟨init, by simpa using taken'⟩
    | cons first front =>
      obtain ⟨rfl, rfl⟩ := List.cons_eq_cons.mp split
      refine .inr ⟨front, found, back, rfl, init, ?_⟩
      rw [filter_map_cons] at taken'
      split_ifs at taken' ⊢ <;> simpa using taken'
  · rintro (⟨init, mem⟩ | ⟨front, found, back, rfl, init, taken'⟩)
    · exact ⟨[], file, rest, rfl, init, by simpa using mem⟩
    · refine ⟨file :: front, found, back, rfl, init, ?_⟩
      rw [filter_map_cons]
      split_ifs at taken' ⊢ <;> simpa using taken'

theorem existingPyPkgs_ok : ∀ (files : List File) (taken : List String), ¬PkgTaken taken files →
    existingPyPkgs files taken = .ok (taken ++ (files.filter IsInit).map pyPkg)
  | [], taken, _ => by simp [existingPyPkgs]
  | file :: rest, taken, free => by
    rw [pkgTaken_cons, not_or] at free
    unfold existingPyPkgs
    by_cases init : IsInit file
    · have fresh : pyPkg file ∉ taken := fun mem => free.1 ⟨init, mem⟩
      have later := existingPyPkgs_ok rest (taken ++ [pyPkg file]) (by simpa [init] using free.2)
      simp only [IsInit, pyPkg] at init fresh later
      simp [init, fresh, later, IsInit, pyPkg]
    · have later := existingPyPkgs_ok rest taken (by simpa [init] using free.2)
      simp only [IsInit] at init
      simp [init, later, IsInit]

theorem existingPyPkgs_error : ∀ (files : List File) (taken : List String), PkgTaken taken files →
    ∃ name, existingPyPkgs files taken = .error name
  | [], taken, ⟨front, file, back, split, _⟩ => by simp at split
  | file :: rest, taken, clash => by
    rw [pkgTaken_cons] at clash
    unfold existingPyPkgs
    by_cases init : IsInit file
    · by_cases seen : pyPkg file ∈ taken
      · simp only [IsInit, pyPkg] at init seen
        simp [init, seen]
      · have later := existingPyPkgs_error rest (taken ++ [pyPkg file])
          (by simpa [init, seen] using clash)
        simp only [IsInit, pyPkg] at init seen later
        simpa [init, seen] using later
    · have later := existingPyPkgs_error rest taken (by simpa [init] using clash)
      simp only [IsInit] at init
      simpa [init] using later

end PyPkgs

section FirstWins

/-- A mapping made by `mergeZips` itself holds a buffer. -/
def IsBuffer (fm : FileMapping) : Prop := ∃ name isDir content, fm.source = .bufferEntry name isDir content

theorem not_anyClash_of_buffers {checksumIEEE : List UInt8 → UInt32} {emulateJar ignoreDuplicates : Bool}
    {done l : List FileMapping} (buffers : ∀ fm ∈ l, IsBuffer fm) :
    ¬AnyClash checksumIEEE emulateJar ignoreDuplicates done l := by
  rintro ⟨front, fm, back, rfl, clash⟩
  obtain ⟨name, isDir, content, buffer⟩ := buffers fm (by simp)
  unfold ClashesWith at clash
  rw [buffer] at clash
  exact clash

theorem synthetic_buffers {manifest pyMain : String} {stripDirEntries : Bool}
    {manifestBytes pyMainBytes : List UInt8} {pkgs : List String} :
    ∀ fm ∈ synthetic manifest pyMain stripDirEntries manifestBytes pyMainBytes ++ pkgs.map pyPkgMapping,
      IsBuffer fm := by
  intro fm member
  simp only [synthetic, manifestMappings, List.mem_append, List.mem_map] at member
  rcases member with (made | made) | ⟨pkg, -, rfl⟩
  · split_ifs at made <;> simp at made <;> rcases made with rfl | rfl <;> exact ⟨_, _, _, rfl⟩
  · split_ifs at made <;> simp [pyMainMapping] at made
    subst made
    exact ⟨_, _, _, rfl⟩
  · exact ⟨_, _, _, rfl⟩

variable (checksumIEEE : List UInt8 → UInt32) (readFile : String → Except String (List UInt8))
  (pathtoolsMatch : String → String → Except String Bool) (quote : String → String)
  (readers : List NamedZipReader) (manifest pyMain : String)
  (sortEntries emulateJar emulatePar stripDirEntries ignoreDuplicates : Bool)
  (stripFiles stripDirs zipsToNotStrip : List String) (manifestBytes pyMainBytes : List UInt8)

/-- Every mapping `mergeZips` hands to `addMapping`, in order: the manifest's, `__main__.py`,
the generated `__init__.py` files, and the input entries that are neither stripped nor dropped. -/
def candidates : List FileMapping :=
  let files := readers.flatMap (·.files)
  synthetic manifest pyMain stripDirEntries manifestBytes pyMainBytes ++
    (if emulatePar then (newPyPkgs files ((files.filter IsInit).map pyPkg)).map pyPkgMapping else []) ++
    keptInputs pathtoolsMatch emulateJar stripDirEntries stripFiles stripDirs zipsToNotStrip readers

/-- What `mergeZips` returns, from the mappings it hands to `addMapping`. -/
theorem mergeZips_outcome (matchOk : ∀ pattern name, ∃ b, pathtoolsMatch pattern name = .ok b)
    (manifestRead : manifest ≠ "" → readFile manifest = .ok manifestBytes)
    (pyMainRead : pyMain ≠ "" → readFile pyMain = .ok pyMainBytes) :
    let all := candidates pathtoolsMatch readers manifest pyMain emulateJar emulatePar stripDirEntries
      stripFiles stripDirs zipsToNotStrip manifestBytes pyMainBytes
    match mergeZips checksumIEEE readFile pathtoolsMatch quote readers manifest pyMain sortEntries
        emulateJar emulatePar stripDirEntries ignoreDuplicates stripFiles stripDirs zipsToNotStrip with
    | .panic _ => emulatePar ∧ InitTwice (readers.flatMap (·.files))
    | .error _ => ¬(emulatePar ∧ InitTwice (readers.flatMap (·.files))) ∧
        AnyClash checksumIEEE emulateJar ignoreDuplicates [] all
    | .ok out => ¬(emulatePar ∧ InitTwice (readers.flatMap (·.files))) ∧
        ¬AnyClash checksumIEEE emulateJar ignoreDuplicates [] all ∧
        out = if emulateJar then jarSort (firstByKey mapKey all)
          else if sortEntries then alphanumericSort (firstByKey mapKey all) else firstByKey mapKey all := by
  intro all
  obtain ⟨m, made, rep⟩ := addSynthetic_represents readFile stripDirEntries manifestRead pyMainRead
  unfold mergeZips
  rw [made]
  dsimp only
  -- the packages to generate, or the name that makes `-p` panic; the rest of the run depends on them only
  generalize pkgsDef : (if emulatePar then
    (existingPyPkgs (readers.flatMap (·.files)) []).map (newPyPkgs (readers.flatMap (·.files))) else .ok []) =
      pkgsResult
  cases pkgsResult with
  | error name =>
    -- only `existingPyPkgs` fails, and only on two `__init__.py` files of one package
    by_cases par : emulatePar
    · refine ⟨par, ?_⟩
      by_contra once
      rw [if_pos par, existingPyPkgs_ok _ [] once] at pkgsDef
      cases pkgsDef
    · rw [if_neg par] at pkgsDef
      cases pkgsDef
  | ok pkgs =>
    dsimp only
    have noPanic : ¬(emulatePar ∧ InitTwice (readers.flatMap (·.files))) := by
      rintro ⟨par, twice⟩
      obtain ⟨name, failed⟩ := existingPyPkgs_error _ [] twice
      rw [if_pos par, failed] at pkgsDef
      cases pkgsDef
    have generated : (if emulatePar then
        (newPyPkgs (readers.flatMap (·.files)) (((readers.flatMap (·.files)).filter IsInit).map pyPkg)).map
          pyPkgMapping else []) = pkgs.map pyPkgMapping := by
      by_cases par : emulatePar
      · have once : ¬InitTwice (readers.flatMap (·.files)) := fun twice => noPanic ⟨par, twice⟩
        rw [if_pos par, existingPyPkgs_ok _ [] once, List.nil_append] at pkgsDef
        simp only [Except.map] at pkgsDef
        cases pkgsDef
        rw [if_pos par]
      · rw [if_neg par] at pkgsDef ⊢
        cases pkgsDef
        rfl
    -- from the packages to generate, the input loop decides the outcome
    have made := @synthetic_buffers manifest pyMain stripDirEntries manifestBytes pyMainBytes pkgs
    have split : all = (synthetic manifest pyMain stripDirEntries manifestBytes pyMainBytes ++
        pkgs.map pyPkgMapping) ++ keptInputs pathtoolsMatch emulateJar stripDirEntries stripFiles stripDirs
          zipsToNotStrip readers := by
      simp only [all, candidates, generated]
    have run : LoopResult checksumIEEE emulateJar ignoreDuplicates
        (addInputs checksumIEEE pathtoolsMatch emulateJar stripDirEntries ignoreDuplicates stripFiles
          stripDirs zipsToNotStrip readers (addPyPkgs pkgs m))
        (synthetic manifest pyMain stripDirEntries manifestBytes pyMainBytes ++ pkgs.map pyPkgMapping)
        (keptInputs pathtoolsMatch emulateJar stripDirEntries stripFiles stripDirs zipsToNotStrip readers) :=
      addInputs_loopResult matchOk zipsToNotStrip readers (addPyPkgs_represents pkgs rep)
    have clash : AnyClash checksumIEEE emulateJar ignoreDuplicates [] all ↔
        AnyClash checksumIEEE emulateJar ignoreDuplicates
          (synthetic manifest pyMain stripDirEntries manifestBytes pyMainBytes ++ pkgs.map pyPkgMapping)
          (keptInputs pathtoolsMatch emulateJar stripDirEntries stripFiles stripDirs zipsToNotStrip readers) := by
      rw [split, anyClash_append, List.nil_append]
      exact or_iff_right (not_anyClash_of_buffers made)
    cases result : addInputs checksumIEEE pathtoolsMatch emulateJar stripDirEntries ignoreDuplicates
        stripFiles stripDirs zipsToNotStrip readers (addPyPkgs pkgs m) with
    | error err =>
      rw [result, loopResult_error] at run
      exact ⟨noPanic, clash.mpr run⟩
    | ok m' =>
      rw [result, loopResult_ok] at run
      refine ⟨noPanic, fun fails => run.1 (clash.mp fails), ?_⟩
      rw [run.2.ordered, ← split]

theorem mergeZips_first_wins (matchOk : ∀ pattern name, ∃ b, pathtoolsMatch pattern name = .ok b)
    (manifestRead : manifest ≠ "" → readFile manifest = .ok manifestBytes)
    (pyMainRead : pyMain ≠ "" → readFile pyMain = .ok pyMainBytes) :
    (∀ name, ∃ strip, shouldStripEntry pathtoolsMatch emulateJar stripFiles stripDirs name = .ok strip ∧
      (¬(emulateJar ∧ (name = Jar.metaDir ∨ name = Jar.manifestFile)) →
        (strip = true ↔ MatchesAny pathtoolsMatch (stripDirs.flatMap dirPatterns) name ∨
          MatchesAny pathtoolsMatch stripFiles name))) ∧
    let all := candidates pathtoolsMatch readers manifest pyMain emulateJar emulatePar stripDirEntries
      stripFiles stripDirs zipsToNotStrip manifestBytes pyMainBytes
    match mergeZips checksumIEEE readFile pathtoolsMatch quote readers manifest pyMain sortEntries
        emulateJar emulatePar stripDirEntries ignoreDuplicates stripFiles stripDirs zipsToNotStrip with
    | .panic _ => emulatePar ∧ InitTwice (readers.flatMap (·.files))
    | .error _ => ¬(emulatePar ∧ InitTwice (readers.flatMap (·.files))) ∧
        AnyClash checksumIEEE emulateJar ignoreDuplicates [] all
    | .ok out => ¬(emulatePar ∧ InitTwice (readers.flatMap (·.files))) ∧
        ¬AnyClash checksumIEEE emulateJar ignoreDuplicates [] all ∧
        out = if emulateJar then jarSort (firstByKey mapKey all)
          else if sortEntries then alphanumericSort (firstByKey mapKey all) else firstByKey mapKey all := by
  exact ⟨shouldStripEntry_ok matchOk emulateJar stripFiles stripDirs,
    mergeZips_outcome checksumIEEE readFile pathtoolsMatch quote readers manifest pyMain sortEntries emulateJar
      emulatePar stripDirEntries ignoreDuplicates stripFiles stripDirs zipsToNotStrip manifestBytes pyMainBytes
      matchOk manifestRead pyMainRead⟩

/-- `-D` drops an input directory entry that no strip pattern names; `-p` panics on an
`__init__.py` of one package in two zips, identical as they are; and a later
`./module-info.class` is checked against the first `module-info.class`, whose name the
exemption does not look at. -/
theorem mergeZips_counterexample :
    mergeZips (fun _ => 0) (fun _ => .error "open: no such file") (fun _ _ => .ok false)
        (fun s => "\"" ++ s ++ "\"")
        [⟨"in.zip", [⟨"a/", true, 0, 0⟩]⟩] "" "" false false false true false [] [] [] = .ok [] ∧
      mergeZips (fun _ => 0) (fun _ => .error "open: no such file") (fun _ _ => .ok false)
        (fun s => "\"" ++ s ++ "\"")
        [⟨"x.zip", [⟨"a/__init__.py", false, 0, 0⟩]⟩, ⟨"y.zip", [⟨"a/__init__.py", false, 0, 0⟩]⟩]
        "" "" false false true false true [] [] [] =
        .panic "found __init__.py path duplicates during pars merging: \"a/__init__.py\"." ∧
      mergeZips (fun _ => 0) (fun _ => .error "open: no such file") (fun _ _ => .ok false)
        (fun s => "\"" ++ s ++ "\"")
        [⟨"x.zip", [⟨"module-info.class", false, 1, 4⟩]⟩, ⟨"y.zip", [⟨"./module-info.class", false, 2, 4⟩]⟩]
        "" "" false false false false false [] [] [] =
        .error "Duplicate path ./module-info.class found in x.zip/module-info.class and y.zip/./module-info.class\n" := by
  refine ⟨?_, ?_, ?_⟩
  · decide
  · decide
  · decide

theorem mergeZips_first_wins_one_zip :
    (∀ pattern name, ∃ b, (fun _ _ => .ok false : String → String → Except String Bool) pattern name = .ok b) ∧
    ("" ≠ "" → (fun _ => .error "open: no such file" : String → Except String (List UInt8)) "" = .ok []) ∧
    ((∀ name, ∃ strip, shouldStripEntry (fun _ _ => .ok false) false [] [] name = .ok strip ∧
      (¬(false = true ∧ (name = Jar.metaDir ∨ name = Jar.manifestFile)) →
        (strip = true ↔ MatchesAny (fun _ _ => .ok false) ([].flatMap dirPatterns) name ∨
          MatchesAny (fun _ _ => .ok false) [] name))) ∧
    let all := candidates (fun _ _ => .ok false) [⟨"in.zip", [⟨"a/b", false, 0, 0⟩, ⟨"a/./b", false, 0, 0⟩]⟩]
      "" "" false false false [] [] [] [] []
    match mergeZips (fun _ => 0) (fun _ => .error "open: no such file") (fun _ _ => .ok false)
        (fun s => "\"" ++ s ++ "\"") [⟨"in.zip", [⟨"a/b", false, 0, 0⟩, ⟨"a/./b", false, 0, 0⟩]⟩]
        "" "" false false false false false [] [] [] with
    | .panic _ => false = true ∧ InitTwice (([⟨"in.zip", [⟨"a/b", false, 0, 0⟩, ⟨"a/./b", false, 0, 0⟩]⟩] :
        List NamedZipReader).flatMap (·.files))
    | .error _ => ¬(false = true ∧ InitTwice (([⟨"in.zip", [⟨"a/b", false, 0, 0⟩, ⟨"a/./b", false, 0, 0⟩]⟩] :
        List NamedZipReader).flatMap (·.files))) ∧ AnyClash (fun _ => 0) false false [] all
    | .ok out => ¬(false = true ∧ InitTwice (([⟨"in.zip", [⟨"a/b", false, 0, 0⟩, ⟨"a/./b", false, 0, 0⟩]⟩] :
        List NamedZipReader).flatMap (·.files))) ∧ ¬AnyClash (fun _ => 0) false false [] all ∧
        out = if false = true then jarSort (firstByKey mapKey all)
          else if false = true then alphanumericSort (firstByKey mapKey all) else firstByKey mapKey all) :=
  ⟨fun _ _ => ⟨false, rfl⟩, fun given => absurd rfl given,
    mergeZips_first_wins (fun _ => 0) (fun _ => .error "open: no such file") (fun _ _ => .ok false)
      (fun s => "\"" ++ s ++ "\"") [⟨"in.zip", [⟨"a/b", false, 0, 0⟩, ⟨"a/./b", false, 0, 0⟩]⟩]
      "" "" false false false false false [] [] [] [] [] (fun _ _ => ⟨false, rfl⟩)
      (fun given => absurd rfl given) (fun given => absurd rfl given)⟩

end FirstWins

end Soong.MergeZips
