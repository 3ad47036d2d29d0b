import Soong.Go.Runtime

namespace Go

/-- Go's conversion of an integer to `int64`: two's complement wrap-around. -/
def int64 (x : Int) : Int :=
  (x + 2 ^ 63) % 2 ^ 64 - 2 ^ 63

theorem int64_of_lt {x : Int} (lower : -2 ^ 63 ≤ x) (upper : x < 2 ^ 63) : int64 x = x := by
  unfold int64
  omega

@[simp] theorem int64_zero : int64 0 = 0 := int64_of_lt (by norm_num) (by norm_num)

/-- Adding to a wrapped value and wrapping again is wrapping the exact sum. -/
theorem int64_int64_add (a b : Int) : int64 (int64 a + b) = int64 (a + b) := by
  unfold int64
  omega

/-- `io.Copy` from `io.NewSectionReader(r, off, n)` over a `bytes.Reader` holding `r`, into a
writer that takes everything. The section ends at `off + n`, wrapped as an `int64` the way
`NewSectionReader` computes it. `io.Copy` treats the end of `r` as success, so a section that
runs past it is cut short without an error. -/
def copySection (r : List UInt8) (off n : Int) : Except String (List UInt8) :=
  let limit := int64 (off + n)
  if off ≥ limit then .ok []
  else if off < 0 then .error "bytes.Reader.ReadAt: negative offset"
  else .ok ((r.drop off.toNat).take (limit - off).toNat)

/-- `binary.LittleEndian.PutUint64` into a fresh 8-byte buffer. -/
def putUint64 (v : UInt64) : List UInt8 :=
  [v.toUInt8, (v >>> 8).toUInt8, (v >>> 16).toUInt8, (v >>> 24).toUInt8,
   (v >>> 32).toUInt8, (v >>> 40).toUInt8, (v >>> 48).toUInt8, (v >>> 56).toUInt8]

theorem copySection_of_fits {r : List UInt8} {off n : Int} (start : 0 ≤ off) (positive : 0 < n)
    (fits : off + n < 2 ^ 63) : copySection r off n = .ok ((r.drop off.toNat).take n.toNat) := by
  have limit : int64 (off + n) = off + n := int64_of_lt (by omega) fits
  simp only [copySection, limit]
  rw [if_neg (by omega), if_neg (by omega)]
  congr 3
  omega

theorem copySection_empty {r : List UInt8} {off : Int} (start : 0 ≤ off) (fits : off < 2 ^ 63) :
    copySection r off 0 = .ok [] := by
  have limit : int64 (off + 0) = off := by rw [Int.add_zero]; exact int64_of_lt (by omega) fits
  simp only [copySection, limit]
  rw [if_pos (Int.le_refl off)]

theorem length_putUint64 (v : UInt64) : (putUint64 v).length = 8 := rfl

end Go
