import Soong.Go.Io

namespace Soong.SymbolInject

open Go

/-- A `*Section` of a `File`; the extractors copy its name too, which nothing reads. -/
structure Section where
  addr : UInt64
  offset : UInt64
  size : UInt64
  deriving DecidableEq, Repr

/-- A `*Symbol`. Go strings are byte strings. `sectionIndex` is the identity of the `*Section`
pointer (its position in `File.Sections`), which `findSymbol` compares; `sect` is the
section it points to. -/
structure Symbol where
  name : List UInt8
  addr : UInt64
  size : UInt64
  sectionIndex : Nat
  sect : Section
  deriving DecidableEq, Repr

structure File where
  symbols : List Symbol
  sections : List Section
  deriving DecidableEq, Repr

/-- `%x` of a `uint64`. -/
def hex (x : UInt64) : String :=
  String.ofList (Nat.toDigits 16 x.toNat)

/-- The inner loop of `findSymbol`, run on the symbols from the found one on: the address of
the first one above `addr`, or `none` once the section changes or the list ends. -/
def nextAddr (sectionIndex : Nat) (addr : UInt64) : List Symbol → Option UInt64
  | [] => none
  | symbol :: rest =>
    if symbol.sectionIndex ≠ sectionIndex then none
    else if symbol.addr > addr then some symbol.addr
    else nextAddr sectionIndex addr rest

/-- `end` in `findSymbol`: where a sizeless symbol is taken to stop. -/
def symbolEnd (symbol : Symbol) (following : List Symbol) : UInt64 :=
  (nextAddr symbol.sectionIndex symbol.addr following).getD symbol.sect.size

/-- The size `findSymbol` gives `symbol`: its own, or for a sizeless symbol the distance to
the next symbol of its section, or else to the section's end. -/
def symbolSize (symbol : Symbol) (following : List Symbol) : Except String UInt64 :=
  if symbol.size = 0 then
    let stop := symbolEnd symbol following
    if stop ≤ symbol.addr ∨ stop > symbol.addr + 4096 then
      .error ("symbol end address does not seem valid, " ++ hex symbol.addr ++ ":" ++ hex stop)
    else .ok (stop - symbol.addr)
  else .ok symbol.size

def findSymbolFrom (symbolName : List UInt8) : List Symbol → Except String (UInt64 × UInt64)
  | [] => .error "symbol not found"
  | symbol :: rest =>
    if symbol.name = symbolName then
      (symbolSize symbol (symbol :: rest)).map fun size => (symbol.sect.offset + symbol.addr, size)
    else findSymbolFrom symbolName rest

/-- `findSymbol`: the file offset and size of the first symbol named `symbolName`. -/
def findSymbol (file : File) (symbolName : List UInt8) : Except String (UInt64 × UInt64) :=
  findSymbolFrom symbolName file.symbols

/-- `copyAndInject` over a `bytes.Reader` holding `r`, into an in-memory writer. -/
def copyAndInject (r : List UInt8) (offset : UInt64) (buf : List UInt8) : Except String (List UInt8) := do
  let front ← copySection r 0 (int64 offset.toNat)
  -- `err == io.EOF` never holds here: `io.Copy` reports the end of its input as success
  let pos := int64 (int64 offset.toNat + buf.length)
  let back ← copySection r pos (int64 (2 ^ 63 - 1 - pos))
  pure (front ++ buf ++ back)

section Inject

variable (quote : List UInt8 → String)

/-- `InjectUint64Symbol` into an in-memory writer. -/
def injectUint64Symbol (file : File) (r : List UInt8) (symbol : List UInt8) (value : UInt64) :
    Except String (List UInt8) := do
  let (offset, size) ← findSymbol file symbol
  if size ≠ 8 then
    throw ("symbol " ++ quote symbol ++ " is not a uint64, it is " ++ toString size.toNat ++ " bytes long")
  copyAndInject r offset (putUint64 value)

end Inject

section CopyAndInject

variable {r : List UInt8} {offset : UInt64} {buf : List UInt8}

/-- Within `int64` range, `copyAndInject` writes the input with `buf` over the bytes from
`offset` on. Nothing checks that those bytes exist: past the end of the input the copies just
stop short. -/
theorem copyAndInject_eq (short : r.length < 2 ^ 63) (fits : offset.toNat + buf.length < 2 ^ 63) :
    copyAndInject r offset buf = .ok (r.take offset.toNat ++ buf ++ r.drop (offset.toNat + buf.length)) := by
  have front : copySection r 0 (int64 offset.toNat) = .ok (r.take offset.toNat) := by
    rw [int64_of_lt (by omega) (by omega)]
    by_cases zero : offset.toNat = 0
    · rw [zero, Int.natCast_zero, copySection_empty (Int.le_refl 0) (by decide), List.take_zero]
    · rw [copySection_of_fits (Int.le_refl 0) (by omega) (by omega)]
      simp
  have pos : int64 (int64 offset.toNat + buf.length) = ((offset.toNat + buf.length : Nat) : Int) := by
    rw [int64_of_lt (x := offset.toNat) (by omega) (by omega), int64_of_lt (by omega) (by omega)]
    push_cast
    rfl
  -- the rest of the input is read up to the largest `int64`, which lies past its end
  have back : copySection r (offset.toNat + buf.length : Nat)
      (int64 (2 ^ 63 - 1 - ((offset.toNat + buf.length : Nat) : Int))) =
      .ok (r.drop (offset.toNat + buf.length)) := by
    rw [int64_of_lt (by omega) (by omega)]
    by_cases last : offset.toNat + buf.length = 2 ^ 63 - 1
    · have nothing : (2 : Int) ^ 63 - 1 - ((offset.toNat + buf.length : Nat) : Int) = 0 := by omega
      rw [nothing, List.drop_eq_nil_of_le (by omega)]
      exact copySection_empty (by omega) (by omega)
    · rw [copySection_of_fits (by omega) (by omega) (by omega), Int.toNat_natCast,
        List.take_of_length_le (by simp; omega)]
  simp only [copyAndInject, front, pos, back]
  rfl

end CopyAndInject

section FindSymbol

/-- Symbols grouped by section and sorted by address within each, as the Mach-O and PE
extractors order them. -/
def Grouped (symbols : List Symbol) : Prop :=
  symbols.Pairwise fun a b => a.sectionIndex < b.sectionIndex ∨ a.sectionIndex = b.sectionIndex ∧ a.addr ≤ b.addr

variable {idx : Nat} {addr stop : UInt64} {l : List Symbol}

/-- On grouped symbols from section `idx` on, the scan stops at the lowest address above
`addr` in section `idx`. -/
theorem nextAddr_some (grouped : Grouped l) (from_ : ∀ x ∈ l, idx ≤ x.sectionIndex)
    (next : nextAddr idx addr l = some stop) :
    addr < stop ∧ (∃ x ∈ l, x.sectionIndex = idx ∧ x.addr = stop) ∧
      ∀ other ∈ l, other.sectionIndex = idx → addr < other.addr → stop ≤ other.addr := by
  induction l with
  | nil => simp [nextAddr] at next
  | cons x rest ih =>
    obtain ⟨first, grouped⟩ := List.pairwise_cons.mp grouped
    by_cases other : x.sectionIndex ≠ idx
    · simp [nextAddr, other] at next
    · have same : x.sectionIndex = idx := not_not.mp other
      by_cases above : x.addr > addr
      · simp only [nextAddr, other, above, if_false, if_true, Option.some.injEq] at next
        subst next
        refine ⟨above, ⟨x, List.mem_cons_self, same, rfl⟩, ?_⟩
        intro y member sameSection _
        rcases List.mem_cons.mp member with rfl | later
        · exact UInt64.le_refl _
        · rcases first y later with lower | ⟨-, le⟩
          · omega
          · exact le
      · simp only [nextAddr, other, above, if_false] at next
        have fromRest : ∀ y ∈ rest, idx ≤ y.sectionIndex := fun y later => by
          rcases first y later with lower | ⟨eq, -⟩ <;> omega
        obtain ⟨lt, ⟨y, later, ys⟩, least⟩ := ih grouped fromRest next
        refine ⟨lt, ⟨y, List.mem_cons_of_mem _ later, ys⟩, ?_⟩
        intro z member sameSection zAbove
        rcases List.mem_cons.mp member with rfl | later
        · exact absurd zAbove above
        · exact least z later sameSection zAbove

/-- On grouped symbols from section `idx` on, the scan finds nothing only when no symbol of
section `idx` lies above `addr`. -/
theorem nextAddr_none (grouped : Grouped l) (from_ : ∀ x ∈ l, idx ≤ x.sectionIndex)
    (next : nextAddr idx addr l = none) :
    ∀ other ∈ l, other.sectionIndex = idx → other.addr ≤ addr := by
  induction l with
  | nil => simp
  | cons x rest ih =>
    obtain ⟨first, grouped⟩ := List.pairwise_cons.mp grouped
    intro y member sameSection
    by_cases other : x.sectionIndex ≠ idx
    · -- the section changed at `x`, and the later symbols lie in later sections still
      have later : x.sectionIndex < y.sectionIndex ∨ x = y := by
        rcases List.mem_cons.mp member with rfl | later
        · exact Or.inr rfl
        · rcases first y later with lower | ⟨eq, -⟩
          · exact Or.inl lower
          · exact absurd (eq.trans sameSection) other
      have low := from_ x List.mem_cons_self
      rcases later with lower | rfl <;> omega
    · have same : x.sectionIndex = idx := not_not.mp other
      by_cases above : x.addr > addr
      · simp [nextAddr, same, above] at next
      · simp only [nextAddr, other, above, if_false] at next
        have fromRest : ∀ y ∈ rest, idx ≤ y.sectionIndex := fun y later => by
          rcases first y later with lower | ⟨eq, -⟩ <;> omega
        rcases List.mem_cons.mp member with rfl | later
        · exact UInt64.not_lt.mp above
        · exact ih grouped fromRest next y later sameSection

theorem symbolSize_of_ne_zero {symbol : Symbol} {following : List Symbol} (sized : symbol.size ≠ 0) :
    symbolSize symbol following = .ok symbol.size := by
  simp [symbolSize, sized]

/-- A sizeless symbol's size reaches exactly to `end`, which lies above its address and at
most 4096 bytes on, with no wrap-around. -/
theorem symbolSize_sizeless {symbol : Symbol} {following : List Symbol} {size : UInt64}
    (sizeless : symbol.size = 0) (sized : symbolSize symbol following = .ok size) :
    symbol.addr.toNat + size.toNat = (symbolEnd symbol following).toNat ∧ 0 < size.toNat ∧
      size.toNat ≤ 4096 := by
  simp only [symbolSize, sizeless, if_true] at sized
  split at sized
  · cases sized
  · rename_i valid
    cases sized
    have page : (4096 : UInt64).toNat = 4096 := rfl
    simp only [not_or, UInt64.lt_iff_toNat_lt, UInt64.le_iff_toNat_le, UInt64.toNat_add, page] at valid
    have endBound := (symbolEnd symbol following).toNat_lt
    rw [UInt64.toNat_sub_of_le _ _ (UInt64.le_iff_toNat_le.mpr (by omega))]
    omega

theorem findSymbolFrom_ok {name : List UInt8} {offset size : UInt64} :
    ∀ {l : List Symbol}, findSymbolFrom name l = .ok (offset, size) →
      ∃ front symbol back, l = front ++ symbol :: back ∧ (∀ s ∈ front, s.name ≠ name) ∧
        symbol.name = name ∧ offset = symbol.sect.offset + symbol.addr ∧
        symbolSize symbol (symbol :: back) = .ok size
  | [], found => by simp [findSymbolFrom] at found
  | symbol :: rest, found => by
    by_cases named : symbol.name = name
    · simp only [findSymbolFrom, named, if_true] at found
      cases sized : symbolSize symbol (symbol :: rest) with
      | error message => simp [sized, Except.map] at found
      | ok got =>
        simp only [sized, Except.map, Except.ok.injEq, Prod.mk.injEq] at found
        obtain ⟨rfl, rfl⟩ := found
        exact ⟨[], symbol, rest, rfl, by simp, named, rfl, sized⟩
    · rw [findSymbolFrom, if_neg named] at found
      obtain ⟨front, found, back, split, before, rest⟩ := findSymbolFrom_ok found
      refine ⟨symbol :: front, found, back, by rw [split, List.cons_append], ?_, rest⟩
      intro s member
      rcases List.mem_cons.mp member with rfl | earlier
      · exact named
      · exact before s earlier

/-- On grouped symbols, the extent `findSymbol` gives a sizeless symbol runs up to the next
symbol of its section at most, and with every symbol inside its section, inside the section. -/
theorem findSymbol_extent {file : File} {name : List UInt8} {offset size : UInt64}
    (grouped : Grouped file.symbols) (found : findSymbol file name = .ok (offset, size)) :
    ∃ symbol ∈ file.symbols, symbol.name = name ∧ offset = symbol.sect.offset + symbol.addr ∧
      (symbol.size ≠ 0 → size = symbol.size) ∧
      (symbol.size = 0 → 0 < size.toNat ∧ size.toNat ≤ 4096 ∧ symbol.addr.toNat + size.toNat < 2 ^ 64 ∧
        (∀ other ∈ file.symbols, other.sectionIndex = symbol.sectionIndex → symbol.addr < other.addr →
          symbol.addr.toNat + size.toNat ≤ other.addr.toNat) ∧
        ((∀ s ∈ file.symbols, s.addr ≤ s.sect.size) →
          (∀ s ∈ file.symbols, s.sectionIndex = symbol.sectionIndex → s.sect = symbol.sect) →
          symbol.addr.toNat + size.toNat ≤ symbol.sect.size.toNat)) := by
  obtain ⟨front, symbol, back, split, -, named, atOffset, sized⟩ := findSymbolFrom_ok found
  have member : symbol ∈ file.symbols := by rw [split]; simp
  refine ⟨symbol, member, named, atOffset, fun nonzero => ?_, fun sizeless => ?_⟩
  · rw [symbolSize_of_ne_zero nonzero] at sized
    exact (Except.ok.inj sized).symm
  obtain ⟨reach, positive, small⟩ := symbolSize_sizeless sizeless sized
  have endBound := (symbolEnd symbol (symbol :: back)).toNat_lt
  -- the scan runs over `symbol :: back`; grouping keeps `front` below it in its section
  rw [split] at grouped
  obtain ⟨-, groupedTail, beforeAll⟩ := List.pairwise_append.mp grouped
  have fromTail : ∀ x ∈ symbol :: back, symbol.sectionIndex ≤ x.sectionIndex := by
    intro x member
    rcases List.mem_cons.mp member with rfl | later
    · exact Nat.le_refl _
    · rcases List.rel_of_pairwise_cons groupedTail later with lower | ⟨eq, -⟩ <;> omega
  have frontBelow : ∀ x ∈ front, x.sectionIndex = symbol.sectionIndex → x.addr ≤ symbol.addr := by
    intro x early sameSection
    rcases beforeAll x early symbol List.mem_cons_self with lower | ⟨-, le⟩
    · omega
    · exact le
  refine ⟨positive, small, by omega, ?_, ?_⟩
  · intro other otherMember sameSection above
    rw [split] at otherMember
    rcases List.mem_append.mp otherMember with early | later
    · exact absurd (frontBelow other early sameSection) (UInt64.not_le.mpr above)
    · cases next : nextAddr symbol.sectionIndex symbol.addr (symbol :: back) with
      | none =>
        exact absurd (nextAddr_none groupedTail fromTail next other later sameSection)
          (UInt64.not_le.mpr above)
      | some stop =>
        have least := (nextAddr_some groupedTail fromTail next).2.2 other later sameSection above
        simp only [symbolEnd, next, Option.getD_some] at reach
        rw [reach]
        exact UInt64.le_iff_toNat_le.mp least
  · intro within shared
    cases next : nextAddr symbol.sectionIndex symbol.addr (symbol :: back) with
    | none =>
      simp only [symbolEnd, next, Option.getD_none] at reach
      omega
    | some stop =>
      obtain ⟨x, later, sameSection, atStop⟩ := (nextAddr_some groupedTail fromTail next).2.1
      have xMember : x ∈ file.symbols := by rw [split]; exact List.mem_append_right _ later
      have xWithin := UInt64.le_iff_toNat_le.mp (within x xMember)
      simp only [symbolEnd, next, Option.getD_some] at reach
      rw [shared x xMember sameSection, atStop] at xWithin
      omega

/-- The bytes `findSymbol` gives a sizeless symbol named `name`: from its file offset, 1 to 4096
bytes without wrap-around, and up to the next higher symbol of its section at most. -/
def SizelessExtent (file : File) (name : List UInt8) (offset size : UInt64) : Prop :=
  ∃ symbol ∈ file.symbols, symbol.name = name ∧ offset = symbol.sect.offset + symbol.addr ∧
    0 < size.toNat ∧ size.toNat ≤ 4096 ∧ symbol.addr.toNat + size.toNat < 2 ^ 64 ∧
    ∀ other ∈ file.symbols, other.sectionIndex = symbol.sectionIndex → symbol.addr < other.addr →
      symbol.addr.toNat + size.toNat ≤ other.addr.toNat

theorem findSymbol_sizelessExtent {file : File} {name : List UInt8} {offset size : UInt64}
    (grouped : Grouped file.symbols) (sizeless : ∀ s ∈ file.symbols, s.size = 0)
    (found : findSymbol file name = .ok (offset, size)) : SizelessExtent file name offset size := by
  obtain ⟨symbol, member, named, atOffset, -, extent⟩ := findSymbol_extent grouped found
  obtain ⟨positive, small, noWrap, below, -⟩ := extent (sizeless symbol member)
  exact ⟨symbol, member, named, atOffset, positive, small, noWrap, below⟩

/-- Sizeless symbols `a` and `b`, 16 bytes apart in one section that starts at file offset `0x20`. -/
def twoSymbols : File :=
  ⟨[⟨[97], 0x10, 0, 0, ⟨0x1000, 0x20, 0x400⟩⟩, ⟨[98], 0x20, 0, 0, ⟨0x1000, 0x20, 0x400⟩⟩], [⟨0x1000, 0x20, 0x400⟩]⟩

theorem findSymbol_twoSymbols : findSymbol twoSymbols [97] = .ok (0x30, 0x10) := by decide

end FindSymbol

section Inject

variable (quote : List UInt8 → String) {file : File} {r symbol : List UInt8} {offset size : UInt64}

/-- `InjectUint64Symbol` on an 8-byte symbol writes the value's little-endian bytes over it. -/
theorem injectUint64Symbol_eq (value : UInt64) (found : findSymbol file symbol = .ok (offset, 8))
    (short : r.length < 2 ^ 63) (fits : offset.toNat + 8 < 2 ^ 63) :
    injectUint64Symbol quote file r symbol value =
      .ok (r.take offset.toNat ++ putUint64 value ++ r.drop (offset.toNat + 8)) := by
  unfold injectUint64Symbol
  rw [found, ok_bind]
  simp only [ne_eq, not_true_eq_false, if_false]
  have written := @copyAndInject_eq r offset (putUint64 value) short (by rw [length_putUint64]; exact fits)
  rwa [length_putUint64] at written

end Inject

end Soong.SymbolInject
