import Soong.Jar.Jar
import Soong.Go.Filepath
import Soong.Go.Runtime

namespace Soong.Zip

open Go

/-- What `Stat` or `Lstat` reports about a source, as far as `addFile` reads it. -/
inductive FileMode where
  | dir
  | symlink
  | regular (executable : Bool)
  | irregular
  deriving DecidableEq, Repr

/-- A failed `Stat` or `Lstat`: its `Error()` text, and whether `os.IsNotExist` holds of it. -/
structure PathError where
  notExist : Bool
  message : String
  deriving DecidableEq, Repr

/-- The `pathtools.FileSystem` of a `ZipWriter`. `readFile` is `Open` together with the reads
that follow it; the compression goroutines report a failed read through `z.errors`, which
`write` returns. -/
structure FileSystem where
  stat : String → Except PathError FileMode
  lstat : String → Except PathError FileMode
  readFile : String → Except String (List UInt8)
  readlink : String → Except String String

structure PathMapping where
  dest : String
  src : String
  deriving DecidableEq, Repr

/-- What follows the header of an entry: nothing for a directory (whose header may carry
`Extra` bytes), the bytes of a file and whether its mode is `0700`, or a symlink's target. -/
inductive Body where
  | directory (extra : List UInt8)
  | file (contents : List UInt8) (executable : Bool)
  | symlink (target : String)
  deriving DecidableEq, Repr

/-- An entry sent on `writeOps`: the `Name` of its header, and its body. -/
structure Entry where
  name : String
  body : Body
  deriving DecidableEq, Repr

/-- The settings of a `ZipWriter` that `write` reads. -/
structure Options where
  directories : Bool
  followSymlinks : Bool
  ignoreMissingFiles : Bool
  deriving DecidableEq, Repr

/-- The state `write` builds up: the two maps from a destination to the source that created
it, the entries sent on `writeOps` in order, and the warnings printed on `stderr`. -/
structure ZipWriter where
  createdDirs : List (String × String)
  createdFiles : List (String × String)
  writeOps : List Entry
  warnings : List String
  deriving DecidableEq, Repr

namespace ZipWriter

def empty : ZipWriter := ⟨[], [], [], []⟩

def recordDir (z : ZipWriter) (dir src : String) : ZipWriter :=
  { z with createdDirs := (dir, src) :: z.createdDirs }

def recordFile (z : ZipWriter) (dest src : String) : ZipWriter :=
  { z with createdFiles := (dest, src) :: z.createdFiles }

def send (z : ZipWriter) (entry : Entry) : ZipWriter :=
  { z with writeOps := z.writeOps ++ [entry] }

def warn (z : ZipWriter) (line : String) : ZipWriter :=
  { z with warnings := z.warnings ++ [line] }

@[simp] theorem recordDir_writeOps (z : ZipWriter) (dir src : String) :
    (z.recordDir dir src).writeOps = z.writeOps := rfl

@[simp] theorem recordFile_writeOps (z : ZipWriter) (dest src : String) :
    (z.recordFile dest src).writeOps = z.writeOps := rfl

@[simp] theorem send_writeOps (z : ZipWriter) (entry : Entry) :
    (z.send entry).writeOps = z.writeOps ++ [entry] := rfl

end ZipWriter

section Writer

variable (quote : String → String) (opts : Options) (fs : FileSystem)

def bothDirAndFile (dest dir file : String) : String :=
  "destination " ++ quote dest ++ " is both a directory " ++ quote dir ++ " and a file " ++
    quote file

def twoFiles (dest first second : String) : String :=
  "destination " ++ quote dest ++ " has two files " ++ quote first ++ " and " ++ quote second

/-- The loop of `writeDirectory`: from `dir` up, every directory not created yet is recorded
for `src` and put in front of `zipDirs`, until a created one, `""` or `"."`. A file in the
way fails. Each round drops an element of the cleaned path, so `dir.length + 1` rounds are
enough. -/
def climbDirs (src : String) : Nat → String → List String → ZipWriter →
    Except String (ZipWriter × List String)
  | 0, _, zipDirs, z => .ok (z, zipDirs)
  | fuel + 1, dir, zipDirs, z =>
    if dir = "" ∨ dir = "." then .ok (z, zipDirs)
    else if (z.createdDirs.lookup dir).isSome then .ok (z, zipDirs)
    else match z.createdFiles.lookup dir with
      | some prev => .error (bothDirAndFile quote dir src prev)
      | none => climbDirs src fuel (Filepath.dir dir) (dir :: zipDirs) (z.recordDir dir src)

/-- The entry `writeDirectory` sends for a new directory; `META-INF/` of a jar gets the header
of `jar.MetaDirFileHeader`. -/
def dirEntry (emulateJar : Bool) (cleanDir : String) : Entry :=
  if emulateJar ∧ cleanDir ++ "/" = Jar.metaDir then ⟨Jar.metaDir, .directory Jar.metaDirExtra⟩
  else ⟨cleanDir ++ "/", .directory []⟩

def writeDirectory (dir src : String) (emulateJar : Bool) (z : ZipWriter) :
    Except String ZipWriter := do
  let dir := Filepath.clean dir
  let (z, zipDirs) ← climbDirs quote src (dir.length + 1) dir [] z
  if opts.directories then
    return zipDirs.foldl (fun z cleanDir => z.send (dirEntry emulateJar cleanDir)) z
  else return z

def writeSymlink (rel file : String) (z : ZipWriter) : Except String ZipWriter := do
  let dest ← fs.readlink file
  return z.send ⟨rel, .symlink dest⟩

def addFile (dest src : String) (emulateJar : Bool) (z : ZipWriter) : Except String ZipWriter :=
  match (if opts.followSymlinks then fs.stat src else fs.lstat src) with
  | .error err =>
    if err.notExist ∧ opts.ignoreMissingFiles then .ok (z.warn ("warning: " ++ err.message))
    else .error err.message
  | .ok .dir =>
    if opts.directories then writeDirectory quote opts dest src emulateJar z else .ok z
  | .ok mode => do
    let z ← writeDirectory quote opts (Filepath.dir dest) src emulateJar z
    if let some prev := z.createdDirs.lookup dest then throw (bothDirAndFile quote dest prev src)
    if let some prev := z.createdFiles.lookup dest then throw (twoFiles quote dest prev src)
    let z := z.recordFile dest src
    match mode with
    | .symlink => writeSymlink fs dest src z
    | .regular executable => do
      let contents ← fs.readFile src
      return z.send ⟨dest, .file contents executable⟩
    | _ => throw (src ++ " is not a file, directory, or symlink")

/-- `addManifest` checks both maps, but, unlike `addFile`, records nothing in `createdFiles`.
The entry is named `jar.ManifestFile` whatever `dest` is. -/
def addManifest (dest src : String) (z : ZipWriter) : Except String ZipWriter := do
  if let some prev := z.createdDirs.lookup dest then throw (bothDirAndFile quote dest prev src)
  if let some prev := z.createdFiles.lookup dest then throw (twoFiles quote dest prev src)
  let z ← writeDirectory quote opts (Filepath.dir dest) src true z
  let contents ← if src ≠ "" then fs.readFile src else pure []
  return z.send ⟨Jar.manifestFile, .file (Jar.manifestContents contents) true⟩

/-- The goroutine of `write` that feeds `writeOps`, stopping at the first error. -/
def feedWriteOps (emulateJar : Bool) : List PathMapping → ZipWriter → Except String ZipWriter
  | [], z => .ok z
  | ele :: rest, z => do
    let z ← if emulateJar ∧ ele.dest = Jar.manifestFile then addManifest quote opts fs ele.dest ele.src z
      else addFile quote opts fs ele.dest ele.src emulateJar z
    feedWriteOps emulateJar rest z

def jarSort (mappings : List PathMapping) : List PathMapping :=
  sliceStable (fun a b => Jar.entryNamesLess a.dest b.dest) mappings

/-- `ZipWriter.write`: the entries it writes, in the order they were sent on `writeOps`. -/
def write (pathMappings : List PathMapping) (manifest : String) (emulateJar : Bool) :
    Except String (List Entry) := do
  if manifest ≠ "" ∧ ¬emulateJar then throw "must specify --jar when specifying a manifest via -m"
  let pathMappings :=
    if emulateJar then jarSort (pathMappings ++ [⟨Jar.manifestFile, manifest⟩]) else pathMappings
  let z ← feedWriteOps quote opts fs emulateJar pathMappings ZipWriter.empty
  return z.writeOps

end Writer

/-- The mapping `write` appends for the manifest stays after one with the same destination. -/
theorem jarSort_manifest_pair (manifest : String) (a : PathMapping) (dest : a.dest = Jar.manifestFile) :
    jarSort [a, ⟨Jar.manifestFile, manifest⟩] = [a, ⟨Jar.manifestFile, manifest⟩] := by
  apply List.mergeSort_of_pairwise
  simp [dest, Jar.entryNamesLess_self]

/-- A jar whose file list has its own `META-INF/MANIFEST.MF` gets two entries of that name:
both mappings reach `addManifest`, which never records the first in `createdFiles`. -/
theorem write_manifest_twice (quote : String → String) (opts : Options) (contents : List UInt8) :
    (write quote opts ⟨fun _ => .ok (.regular false), fun _ => .ok (.regular false),
        fun _ => .ok contents, fun _ => .error "invalid argument"⟩
      [⟨Jar.manifestFile, "MANIFEST.MF"⟩] "" true).map (List.map Entry.name) =
      .ok ((if opts.directories then [Jar.metaDir] else []) ++ [Jar.manifestFile, Jar.manifestFile]) := by
  have sorted := jarSort_manifest_pair "" ⟨Jar.manifestFile, "MANIFEST.MF"⟩ rfl
  obtain ⟨directories, followSymlinks, ignoreMissingFiles⟩ := opts
  unfold write
  rw [if_neg (by simp), if_pos rfl, List.singleton_append, sorted]
  cases directories <;> rfl

end Soong.Zip
