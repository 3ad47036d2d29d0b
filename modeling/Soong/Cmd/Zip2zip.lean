import Soong.Jar.Jar
import Soong.Go.Filepath
import Soong.Go.Runtime
import Soong.Lib.FirstByKey

namespace Soong.Zip2zip

open Go

/-- The header fields of an input `*zip.File` that `zip2zip` reads. -/
structure File where
  name : String
  method : UInt16
  deriving DecidableEq, Repr

/-- `zip.Store`. -/
def store : UInt16 := 0

/-- A `pair`: an input entry, with its position in the input standing for the identity of its
`*zip.File`, its new name and whether it is to be stored uncompressed. -/
structure Pair where
  index : Nat
  file : File
  newName : String
  uncompress : Bool
  deriving DecidableEq, Repr

/-- What the last loop of `zip2zip` writes for a pair: the input entry whose contents it
copies, the name, and the method of the header. -/
structure Written where
  index : Nat
  name : String
  method : UInt16
  deriving DecidableEq, Repr

/-- `includeSplit`: a filespec `input:output`, split at its first colon. -/
def includeSplit (s : String) : String × String :=
  if ':' ∈ s.toList then
    (String.ofList (s.toList.takeWhile (· ≠ ':')), String.ofList ((s.toList.dropWhile (· ≠ ':')).drop 1))
  else (s, "")

/-- The entries of the input, each with its position, which stands for the `*zip.File`. -/
def numbered (files : List File) : List (Nat × File) :=
  files.zipIdx.map fun (file, index) => (index, file)

section Zip2zip

variable (pathtoolsMatch : String → String → Except String Bool) (isGlob : String → Bool)
  (rel : String → String → Except String String) (quote : String → String)

/-- `constantPartOfPattern`: the elements before the first one with a glob character, joined.
`splitFirst` hands the loop the elements of the pattern one by one. -/
def constantPartOfPattern (pattern : String) : String :=
  go "" (pattern.toList.splitOn '/')
where
  go (ret : String) : List (List Char) → String
    | [] => ret
    | first :: rest =>
      if isGlob (String.ofList first) then ret else go (Filepath.join [ret, String.ofList first]) rest

/-- `multiFlag.Match`. -/
def multiMatch (patterns : List String) (s : String) : Except String Bool :=
  match patterns with
  | [] => .ok false
  | f :: rest =>
    match pathtoolsMatch f s with
    | .error err => .error err
    | .ok true => .ok true
    | .ok false => multiMatch rest s

def sortMatches (sortOutput sortJava : Bool) (pairs : List Pair) : List Pair :=
  if sortJava then sliceStable (fun a b => Jar.entryNamesLess a.newName b.newName) pairs
  else if sortOutput then sliceStable (fun a b => decide (a.newName < b.newName)) pairs
  else pairs

/-- The new name of an entry that the input pattern of a filespec matches. The check after
`filepath.Rel` passes `"../"` as the string and `rel` as the prefix, as the source does. -/
def newName (input output : String) (file : File) : Except String String :=
  if output = "" then .ok file.name
  else if isGlob input then
    match rel (constantPartOfPattern isGlob input) file.name with
    | .error err => .error err
    | .ok r =>
      if Strings.hasPrefix "../" r then
        .error ("globbed path " ++ quote file.name ++ " was not in " ++
          quote (constantPartOfPattern isGlob input))
      else .ok (Filepath.join [output, r])
  else .ok output

/-- The loop over the input entries for one filespec. -/
def includeMatches (input output : String) : List (Nat × File) → Except String (List Pair)
  | [] => .ok []
  | (index, file) :: rest =>
    match pathtoolsMatch input file.name with
    | .error err => .error err
    | .ok false => includeMatches input output rest
    | .ok true => do
      let name ← newName isGlob rel quote input output file
      let later ← includeMatches input output rest
      pure (⟨index, file, name, false⟩ :: later)

/-- The loop over the filespecs, each one's matches sorted on their own. -/
def selectMatches (sortOutput sortJava : Bool) (entries : List (Nat × File)) :
    List String → Except String (List Pair)
  | [] => .ok []
  | arg :: rest =>
    if '\\' ∈ arg.toList then .error "\\ characters are not currently supported"
    else do
      let m ← includeMatches pathtoolsMatch isGlob rel quote (includeSplit arg).1 (includeSplit arg).2 entries
      let later ← selectMatches sortOutput sortJava entries rest
      pure (sortMatches sortOutput sortJava m ++ later)

/-- One round of the loop over the matches: the excluded ones are skipped, a name taken by
the same entry is skipped, one taken by another entry fails. The state is
`matchesAfterExcludes` and `seen`. -/
def filterMatch (excludes includes uncompresses : List String)
    (state : List Pair × List (String × Nat)) (m : Pair) :
    Except String (List Pair × List (String × Nat)) := do
  let exclude ← multiMatch pathtoolsMatch excludes m.file.name
  let included ← (if exclude then multiMatch pathtoolsMatch includes m.file.name else pure true)
  if ¬included then return state
  match state.2.lookup m.newName with
  | some prev =>
    if prev ≠ m.index then
      throw ("multiple entries for " ++ quote m.newName ++ " with different contents")
    else return state
  | none =>
    -- the loop over `uncompresses` is the loop of `multiFlag.Match`
    let uncompress ← multiMatch pathtoolsMatch uncompresses m.newName
    return (state.1 ++ [{ m with uncompress := uncompress }], (m.newName, m.index) :: state.2)

/-- What the last loop writes for a pair: `CopyFrom` keeps the method, and a pair to store
uncompressed that is compressed is written again as stored. -/
def written (m : Pair) : Written :=
  ⟨m.index, m.newName, if m.uncompress ∧ m.file.method ≠ store then store else m.file.method⟩

/-- `zip2zip`: the entries it writes, in order. -/
def zip2zip (files : List File) (sortOutput sortJava : Bool)
    (args excludes includes uncompresses : List String) : Except String (List Written) := do
  let entries := numbered files
  let allMatches ← (if args = [] then
      pure (sortMatches sortOutput sortJava (entries.map fun (index, file) => ⟨index, file, file.name, false⟩))
    else selectMatches pathtoolsMatch isGlob rel quote sortOutput sortJava entries args)
  let (matchesAfterExcludes, _) ←
    allMatches.foldlM (filterMatch pathtoolsMatch quote excludes includes uncompresses) ([], [])
  return matchesAfterExcludes.map written

end Zip2zip

end Soong.Zip2zip
