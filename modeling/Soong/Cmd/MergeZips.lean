import Soong.Jar.Jar
import Soong.Go.Filepath
import Soong.Go.Runtime
import Soong.Lib.FirstByKey

namespace Soong.MergeZips

open Go

/-- The header fields of a `*zip.File` of an input that `mergeZips` reads; `isDir` is
`FileInfo().IsDir()`. -/
structure File where
  name : String
  isDir : Bool
  crc32 : UInt32
  uncompressedSize64 : UInt64
  deriving DecidableEq, Repr

structure NamedZipReader where
  path : String
  files : List File
  deriving DecidableEq, Repr

/-- A `zipSource`: an entry of an input zip, or a `bufferEntry` made by `mergeZips` (its
header's name and directory bit, and its bytes). -/
inductive ZipSource where
  | zipEntry (zipName : String) (content : File)
  | bufferEntry (name : String) (isDir : Bool) (content : List UInt8)
  deriving DecidableEq, Repr

structure FileMapping where
  dest : String
  source : ZipSource
  deriving DecidableEq, Repr

namespace ZipSource

def isDir : ZipSource → Bool
  | zipEntry _ content => content.isDir
  | bufferEntry _ isDir _ => isDir

/-- `CRC32()`: read from the header, or computed by `crc32.ChecksumIEEE` over the buffer. -/
def crc32 (checksumIEEE : List UInt8 → UInt32) : ZipSource → UInt32
  | zipEntry _ content => content.crc32
  | bufferEntry _ _ content => checksumIEEE content

def size : ZipSource → UInt64
  | zipEntry _ content => content.uncompressedSize64
  | bufferEntry _ _ content => content.length.toUInt64

/-- `String()`, which `%v` prints in the errors. -/
def string : ZipSource → String
  | zipEntry zipName content => zipName ++ "/" ++ content.name
  | bufferEntry .. => "internal buffer"

end ZipSource

/-- The key `addMapping` files a destination under. -/
def mapKey (fm : FileMapping) : String := Filepath.clean fm.dest

/-- The two variables the `addMapping` closure updates. -/
structure Mappings where
  sourceByDest : List (String × ZipSource)
  orderedMappings : List FileMapping
  deriving DecidableEq, Repr

/-- `addMapping`: the source already filed under the key of `dest`, if any; otherwise the
mapping is filed and appended. -/
def Mappings.addMapping (m : Mappings) (dest : String) (source : ZipSource) :
    Option ZipSource × Mappings :=
  match m.sourceByDest.lookup (Filepath.clean dest) with
  | some existingSource => (some existingSource, m)
  | none => (none, ⟨(Filepath.clean dest, source) :: m.sourceByDest,
      m.orderedMappings ++ [⟨dest, source⟩]⟩)

def pathBeforeLastSlash (path : String) : String :=
  let ret := Filepath.dir path
  if ret = "." ∨ ret = "/" then "" else ret

/-- `populateNewPyPkgs`: marks `pkgPath` and its ancestors as packages, up to the first one
already marked. Each round shortens the path, so `pkgPath.length + 1` rounds are enough. -/
def populateNewPyPkgs : Nat → String → List String × List String → List String × List String
  | 0, _, sets => sets
  | fuel + 1, pkgPath, (existingPyPkgSet, newPyPkgs) =>
    if pkgPath = "" ∨ pkgPath ∈ existingPyPkgSet then (existingPyPkgSet, newPyPkgs)
    else populateNewPyPkgs fuel (pathBeforeLastSlash pkgPath)
      (existingPyPkgSet ++ [pkgPath], newPyPkgs ++ [pkgPath])

/-- The first loop of the `emulatePar` branch: the packages that hold an `__init__.py`, or the
name of an `__init__.py` whose package already has one, on which `mergeZips` panics. -/
def existingPyPkgs : List File → List String → Except String (List String)
  | [], existingPyPkgSet => .ok existingPyPkgSet
  | file :: rest, existingPyPkgSet =>
    if Filepath.base file.name ≠ "__init__.py" then existingPyPkgs rest existingPyPkgSet
    else if pathBeforeLastSlash file.name ∈ existingPyPkgSet then .error file.name
    else existingPyPkgs rest (existingPyPkgSet ++ [pathBeforeLastSlash file.name])

/-- The package an input file belongs to: the directory above an `__init__.py`'s own. -/
def parentPath (name : String) : String :=
  if Filepath.base name = "__init__.py" then pathBeforeLastSlash (pathBeforeLastSlash name)
  else pathBeforeLastSlash name

/-- The second loop: the packages that get a generated `__init__.py`, in order. -/
def newPyPkgs (files : List File) (existingPyPkgSet : List String) : List String :=
  (files.foldl (fun sets file =>
    populateNewPyPkgs ((parentPath file.name).length + 1) (parentPath file.name) sets)
    (existingPyPkgSet, [])).2

section Merge

variable (checksumIEEE : List UInt8 → UInt32) (readFile : String → Except String (List UInt8))
  (pathtoolsMatch : String → String → Except String Bool) (quote : String → String)

/-- The loops of `shouldStripEntry` over a list of patterns: whether one matches `name`; a
failing `pathtools.Match` ends the search with its error. -/
def matchAny (name : String) : List String → Except String Bool
  | [] => .ok false
  | pattern :: rest =>
    match pathtoolsMatch pattern name with
    | .error err => .error (err ++ ": " ++ pattern)
    | .ok true => .ok true
    | .ok false => matchAny name rest

/-- The patterns of a directory to strip: the directory, the files below it and the
directories below it. -/
def dirPatterns (dir : String) : List String :=
  let dir := Filepath.clean dir
  [dir ++ "/", dir ++ "/**/*", dir ++ "/**/*/"]

/-- `shouldStripEntry`. The test for `META-INF/` and `META-INF/MANIFEST.MF` under `emulateJar`
returns `true` on both of its branches, as the source does. -/
def shouldStripEntry (emulateJar : Bool) (stripFiles stripDirs : List String) (name : String) :
    Except String Bool :=
  match matchAny pathtoolsMatch name (stripDirs.flatMap dirPatterns) with
  | .error err => .error err
  | .ok true =>
    if emulateJar then
      if name ≠ Jar.metaDir ∧ name ≠ Jar.manifestFile then .ok true else .ok true
    else .ok true
  | .ok false => matchAny pathtoolsMatch name stripFiles

/-- The mappings for the manifest of `-m`: `META-INF/` unless `-D` drops directories, then
the manifest itself. -/
def addManifestMappings (manifest : String) (stripDirEntries : Bool) (m : Mappings) :
    Except String Mappings := do
  let m := if ¬stripDirEntries then
    (m.addMapping Jar.metaDir (.bufferEntry Jar.metaDir true [])).2 else m
  let contents ← readFile manifest
  pure (m.addMapping Jar.manifestFile
    (.bufferEntry Jar.manifestFile false (Jar.manifestContents contents))).2

def addPyMain (pyMain : String) (m : Mappings) : Except String Mappings := do
  let buf ← readFile pyMain
  pure (m.addMapping "__main__.py" (.bufferEntry "__main__.py" false buf)).2

/-- The mappings `mergeZips` makes for the manifest and for `__main__.py`. -/
def addSynthetic (manifest pyMain : String) (stripDirEntries : Bool) (m : Mappings) :
    Except String Mappings := do
  let m ← if manifest ≠ "" then addManifestMappings readFile manifest stripDirEntries m else pure m
  if pyMain ≠ "" then addPyMain readFile pyMain m else pure m

/-- The `__init__.py` files generated for the packages `pkgs`. -/
def addPyPkgs (pkgs : List String) (m : Mappings) : Mappings :=
  pkgs.foldl (fun m pkg =>
    let name := Filepath.join [pkg, "__init__.py"]
    (m.addMapping name (.bufferEntry name false [])).2) m

/-- The duplicate check of the input loop, for an entry whose key is taken by `existingSource`:
`none` when the entry is dropped, or the error. The `&&` binds tighter than the `||` in the
exemption of the manifest and of `module-info.class`. -/
def checkDuplicate (emulateJar ignoreDuplicates : Bool) (file : File) (existingSource source : ZipSource) :
    Option String :=
  if existingSource.isDir ≠ source.isDir then
    some ("Directory/file mismatch at " ++ file.name ++ " from " ++ existingSource.string ++
      " and " ++ source.string ++ "\n")
  else if ignoreDuplicates then none
  else if (emulateJar ∧ file.name = Jar.manifestFile) ∨ file.name = Jar.moduleInfoClass then none
  else if source.isDir then none
  else if existingSource.crc32 checksumIEEE = source.crc32 checksumIEEE ∧
    existingSource.size = source.size then none
  else some ("Duplicate path " ++ file.name ++ " found in " ++ existingSource.string ++ " and " ++
    source.string ++ "\n")

/-- The end of a round of the input loop, for an entry neither stripped nor dropped by `-D`. -/
def addChecked (emulateJar ignoreDuplicates : Bool) (zipName : String) (m : Mappings) (file : File) :
    Except String Mappings :=
  let source := ZipSource.zipEntry zipName file
  match m.addMapping file.name source with
  | (none, m) => .ok m
  | (some existingSource, m) =>
    match checkDuplicate checksumIEEE emulateJar ignoreDuplicates file existingSource source with
    | some err => .error err
    | none => .ok m

/-- One round of the input loop, for `file` of the zip `zipName`. -/
def addInput (emulateJar stripDirEntries ignoreDuplicates skipStripThisZip : Bool)
    (stripFiles stripDirs : List String) (zipName : String) (m : Mappings) (file : File) :
    Except String Mappings :=
  let strip := if skipStripThisZip then .ok false
    else shouldStripEntry pathtoolsMatch emulateJar stripFiles stripDirs file.name
  match strip with
  | .error err => .error err
  | .ok true => .ok m
  | .ok false =>
    if stripDirEntries ∧ file.isDir then .ok m
    else addChecked checksumIEEE emulateJar ignoreDuplicates zipName m file

def addInputs (emulateJar stripDirEntries ignoreDuplicates : Bool) (stripFiles stripDirs : List String)
    (zipsToNotStrip : List String) (readers : List NamedZipReader) (m : Mappings) :
    Except String Mappings :=
  readers.foldlM (fun m namedReader =>
    namedReader.files.foldlM
      (addInput checksumIEEE pathtoolsMatch emulateJar stripDirEntries ignoreDuplicates
        (namedReader.path ∈ zipsToNotStrip) stripFiles stripDirs namedReader.path) m) m

def jarSort (files : List FileMapping) : List FileMapping :=
  sliceStable (fun a b => Jar.entryNamesLess a.dest b.dest) files

def alphanumericSort (files : List FileMapping) : List FileMapping :=
  sliceStable (fun a b => decide (a.dest < b.dest)) files

/-- `mergeZips`: the mappings it writes, in order. A second `__init__.py` of a package under
`emulatePar` panics. -/
def mergeZips (readers : List NamedZipReader) (manifest pyMain : String)
    (sortEntries emulateJar emulatePar stripDirEntries ignoreDuplicates : Bool)
    (stripFiles stripDirs zipsToNotStrip : List String) : Outcome (List FileMapping) :=
  match addSynthetic readFile manifest pyMain stripDirEntries ⟨[], []⟩ with
  | .error err => .error err
  | .ok m =>
    let files := readers.flatMap (·.files)
    let pkgs := if emulatePar then (existingPyPkgs files []).map (newPyPkgs files) else .ok []
    match pkgs with
    | .error name =>
      .panic ("found __init__.py path duplicates during pars merging: " ++ quote name ++ ".")
    | .ok pkgs =>
      match addInputs checksumIEEE pathtoolsMatch emulateJar stripDirEntries ignoreDuplicates
          stripFiles stripDirs zipsToNotStrip readers (addPyPkgs pkgs m) with
      | .error err => .error err
      | .ok m =>
        .ok (if emulateJar then jarSort m.orderedMappings
          else if sortEntries then alphanumericSort m.orderedMappings else m.orderedMappings)

end Merge

end Soong.MergeZips
