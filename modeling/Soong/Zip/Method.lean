import Soong.Zip.Writer
import Soong.Go.Strings

namespace Soong.Zip

open Go

/-- `zip.Store` and `zip.Deflate`. -/
inductive ZipMethod where
  | store
  | deflate
  deriving DecidableEq, Repr

/-- A `FileArg`: where its sources go in the zip, and which sources they are. -/
structure FileArg where
  pathPrefixInZip : String
  sourcePrefixToStrip : String
  sourceFiles : List String
  junkPaths : Bool
  globDir : String
  deriving DecidableEq, Repr

/-- `IncorrectRelativeRootError.Error()`. -/
def incorrectRelativeRoot (quote : String → String) (path relativeRoot : String) : String :=
  "path " ++ quote path ++ " is outside relative root " ++ quote relativeRoot

set_option linter.unusedVariables false in
/-- `fillPathPairs`: the mapping of `src`, with the method it is written with. -/
def fillPathPairs (quote : String → String) (fa : FileArg) (src : String) (nonDeflatedFiles : List String)
    (noCompression : Bool) : Except String (PathMapping × ZipMethod) := do
  let dest ←
    if fa.junkPaths then pure (Filepath.base src)
    else do
      let dest ← Filepath.rel fa.sourcePrefixToStrip src
      if Strings.hasPrefix dest "../" then throw (incorrectRelativeRoot quote src fa.sourcePrefixToStrip)
      pure dest
  let dest := Filepath.join [fa.pathPrefixInZip, dest]
  let zipMethod := ZipMethod.store
  pure (⟨dest, src⟩, zipMethod)

/-- The loop of `ZipTo` over the file arguments, each with the sources its globs found: the
mappings `write` is given, or the first error. -/
def fillAllPathPairs (quote : String → String) (nonDeflatedFiles : List String) (noCompression : Bool) :
    List (FileArg × List String) → Except String (List (PathMapping × ZipMethod))
  | [] => pure []
  | (fa, srcs) :: rest => do
    let mappings ← srcs.mapM fun src => fillPathPairs quote fa src nonDeflatedFiles noCompression
    let others ← fillAllPathPairs quote nonDeflatedFiles noCompression rest
    pure (mappings ++ others)

/-- `minParallelFileSize`: six blocks of 1 MiB. -/
def minParallelFileSize : Nat := 6 * (1 * 1024 * 1024)

/-- `compressWholeFile`: `Deflate` stays only when the deflated file is shorter. -/
def compressWholeFile (method : ZipMethod) (compressed contents : List UInt8) : ZipMethod :=
  if method = .deflate then
    if compressed.length < contents.length then .deflate else .store
  else .store

/-- The method `writeFileContents` leaves in the header of a file with `contents`, given
`deflate`, the output of `compressBlock` on them: a large file to deflate is compressed in blocks
in parallel and keeps `Deflate` whatever its size. -/
def writeFileContents (method : ZipMethod) (deflate : List UInt8 → List UInt8) (contents : List UInt8) :
    ZipMethod :=
  if method = .deflate ∧ contents.length ≥ minParallelFileSize then .deflate
  else compressWholeFile method (deflate contents) contents

/-- Whatever `NonDeflatedFiles` and the compression level are, a mapping is `Store`. -/
theorem fillPathPairs_store {quote : String → String} {fa : FileArg} {src : String} {nonDeflatedFiles : List String}
    {noCompression : Bool} {mapping : PathMapping × ZipMethod}
    (filled : fillPathPairs quote fa src nonDeflatedFiles noCompression = .ok mapping) : mapping.2 = .store := by
  unfold fillPathPairs at filled
  -- both ways of computing `dest` end in the same join point, which sets `Store`
  split at filled
  · cases filled
    rfl
  · obtain ⟨dest, -, checked⟩ := bind_eq_ok filled
    split at checked
    · cases checked
    · cases checked
      rfl

theorem writeFileContents_store (deflate : List UInt8 → List UInt8) (contents : List UInt8) :
    writeFileContents .store deflate contents = .store := by
  simp [writeFileContents, compressWholeFile]

/-- Every mapping the loop of `ZipTo` makes is `Store`. -/
theorem fillAllPathPairs_store {quote : String → String} {nonDeflatedFiles : List String} {noCompression : Bool}
    {args : List (FileArg × List String)} {mappings : List (PathMapping × ZipMethod)}
    (filled : fillAllPathPairs quote nonDeflatedFiles noCompression args = .ok mappings) :
    ∀ m ∈ mappings, m.2 = .store := by
  induction args generalizing mappings with
  | nil => cases filled; simp
  | cons arg rest ih =>
    obtain ⟨made, madeOk, restDone⟩ := bind_eq_ok filled
    obtain ⟨others, othersOk, joined⟩ := bind_eq_ok restDone
    cases joined
    intro m mem
    rcases List.mem_append.mp mem with fromArg | fromRest
    · obtain ⟨src, -, ok⟩ := mapM_eq_ok_mem madeOk m fromArg
      exact fillPathPairs_store ok
    · exact ih othersOk m fromRest

/-- The compression method of each entry `soong_zip` writes. `fillPathPairs` gives every mapping
a method, `addFile` puts it in the entry's header, and `writeFileContents` keeps `Deflate` for a
large file and otherwise lets `compressWholeFile` fall back to `Store` when deflating does not
shrink the file. `fillPathPairs` is handed `NonDeflatedFiles` and whether the compression level
is zero, but reads neither: every mapping it makes is `Store`, so no entry is deflated.

The method in the header of each regular file `write` adds for `mappings`, where `contents`
gives each source's bytes: `addFile` hands the mapping's method to `writeFileContents`. -/
def writtenMethods (deflate : List UInt8 → List UInt8) (contents : String → List UInt8)
    (mappings : List (PathMapping × ZipMethod)) : List (String × ZipMethod) :=
  mappings.map fun m => (m.1.dest, writeFileContents m.2 deflate (contents m.1.src))

/-- Whatever the options and the compressor, every regular file `soong_zip` writes is stored. -/
theorem writtenMethods_store {quote : String → String} {nonDeflatedFiles : List String} {noCompression : Bool}
    {args : List (FileArg × List String)} {mappings : List (PathMapping × ZipMethod)}
    (filled : fillAllPathPairs quote nonDeflatedFiles noCompression args = .ok mappings)
    (deflate : List UInt8 → List UInt8) (contents : String → List UInt8) :
    ∀ entry ∈ writtenMethods deflate contents mappings, entry.2 = .store := by
  intro entry mem
  obtain ⟨m, fromMappings, rfl⟩ := List.mem_map.mp mem
  rw [fillAllPathPairs_store filled m fromMappings]
  exact writeFileContents_store deflate (contents m.1.src)

/-- `fileA` and `fileB` of the tests: 64 bytes `A` and 62 bytes `B`. -/
def fileA : List UInt8 := List.replicate 64 65

def fileB : List UInt8 := List.replicate 62 66

/-- The files of the tests' `mockFs` the cases below read. -/
def mockContents (src : String) : List UInt8 :=
  if src = "a/a/a" then fileA else if src = "a/a/b" then fileB else []

/-- The test `non deflated files`: at level 9 with only `a/a/a` kept from deflate, `a/a/b` is
still stored, with any compressor, also one that shrinks it. -/
theorem zipTo_non_deflated_files_stored (quote : String → String) (deflate : List UInt8 → List UInt8) :
    (fillAllPathPairs quote ["a/a/a"] false [(⟨"", "", ["a/a/a", "a/a/b"], false, ""⟩, ["a/a/a", "a/a/b"])]).map
        (writtenMethods deflate mockContents) =
      .ok [("a/a/a", .store), ("a/a/b", .store)] := by
  have filled : fillAllPathPairs quote ["a/a/a"] false
      [(⟨"", "", ["a/a/a", "a/a/b"], false, ""⟩, ["a/a/a", "a/a/b"])] =
      .ok [(⟨"a/a/a", "a/a/a"⟩, .store), (⟨"a/a/b", "a/a/b"⟩, .store)] := rfl
  -- whatever `deflate` makes of the files, both are written with the method of their mapping
  have stored := writtenMethods_store filled deflate mockContents
  have first : writeFileContents .store deflate fileA = .store := stored _ List.mem_cons_self
  have second : writeFileContents .store deflate fileB = .store :=
    stored _ (List.mem_cons_of_mem _ List.mem_cons_self)
  rw [filled]
  change Except.ok [("a/a/a", writeFileContents .store deflate fileA),
    ("a/a/b", writeFileContents .store deflate fileB)] = _
  rw [first, second]

end Soong.Zip
