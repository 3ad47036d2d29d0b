import Soong.SymbolInject.Inject

namespace Soong.SymbolInject

open Go

/-- `strings.TrimPrefix` on byte strings. -/
def trimPrefix (s pre : List UInt8) : List UInt8 :=
  if pre.isPrefixOf s then s.drop pre.length else s

/-- ELF: the fields of `elf.Symbol`, `elf.SectionHeader` and the file that
`extractElfSymbols` reads through `mockableElfFile`. -/
structure ElfSymbol where
  name : List UInt8
  info : UInt8
  sectionIndex : UInt16
  value : UInt64
  size : UInt64
  deriving DecidableEq, Repr

structure ElfSectionHeader where
  addr : UInt64
  offset : UInt64
  size : UInt64
  deriving DecidableEq, Repr

structure ElfFile where
  symbols : Except String (List ElfSymbol)
  sections : List ElfSectionHeader
  type : UInt16

/-- The symbol's address within its section, by file type: `ET_REL` (1) stores it as it is,
`ET_EXEC` (2) and `ET_DYN` (3) as a virtual address. -/
def elfSymbolAddr (type : UInt16) (sect : Section) (symbol : ElfSymbol) : Except String UInt64 :=
  if type = 1 then .ok symbol.value
  else if type = 2 ∨ type = 3 then
    if symbol.value < sect.addr then .error "symbol starts before the start of its section"
    else if symbol.value - sect.addr + symbol.size > sect.size then
      .error "symbol extends past the end of its section"
    else .ok (symbol.value - sect.addr)
  else .error ("unsupported elf file type " ++ toString type.toNat)

/-- The loop of `extractElfSymbols`: `STT_OBJECT` (1) symbols with a section index below
`SHN_LORESERVE` (`0xff00`) other than `SHN_UNDEF` (0), in the file's order. -/
def extractElfSymbolsFrom (type : UInt16) (sections : List Section) : List ElfSymbol → Except String (List Symbol)
  | [] => .ok []
  | symbol :: rest =>
    if symbol.info &&& 0xf ≠ 1 then extractElfSymbolsFrom type sections rest
    else if symbol.sectionIndex = 0 ∨ symbol.sectionIndex ≥ 0xff00 then extractElfSymbolsFrom type sections rest
    else match sections[symbol.sectionIndex.toNat]? with
      | none => .error ("invalid section index " ++ toString symbol.sectionIndex.toNat)
      | some sect => do
        let addr ← elfSymbolAddr type sect symbol
        let symbols ← extractElfSymbolsFrom type sections rest
        pure (⟨symbol.name, addr, symbol.size, symbol.sectionIndex.toNat, sect⟩ :: symbols)

def extractElfSymbols (elfFile : ElfFile) : Except String File := do
  let symbols ← elfFile.symbols
  let sections := elfFile.sections.map fun header => (⟨header.addr, header.offset, header.size⟩ : Section)
  let symbols ← extractElfSymbolsFrom elfFile.type sections symbols
  pure ⟨symbols, sections⟩

/-- The loop that the Mach-O and PE extractors share: a symbol whose section number is
positive gets the section `sectionOf` names, and indexing past the last section panics. -/
def extractFrom {α : Type} (sectionOf : α → Option Nat) (toSymbol : Section → α → Symbol)
    (sections : List Section) : List α → Outcome (List Symbol)
  | [] => .ok []
  | symbol :: rest =>
    match sectionOf symbol with
    | none => extractFrom sectionOf toSymbol sections rest
    | some index =>
      match sections[index]? with
      | none => .panic "runtime error: index out of range"
      | some sect =>
        match extractFrom sectionOf toSymbol sections rest with
        | .ok symbols => .ok (toSymbol sect symbol :: symbols)
        | failed => failed

/-- PE: the fields of `pe.Symbol`, `pe.Section` and `pe.File` that `extractPESymbols` reads. -/
structure PeSymbol where
  name : List UInt8
  value : UInt32
  sectionNumber : Int16
  deriving DecidableEq, Repr

structure PeSection where
  virtualAddress : UInt32
  virtualSize : UInt32
  offset : UInt32
  deriving DecidableEq, Repr

structure PeFile where
  machine : UInt16
  symbols : List PeSymbol
  sections : List PeSection

def peLess (a b : PeSymbol) : Bool :=
  if a.sectionNumber ≠ b.sectionNumber then a.sectionNumber < b.sectionNumber else a.value < b.value

def peSort (symbols : List PeSymbol) : List PeSymbol :=
  symbols.mergeSort fun a b => !peLess b a

def peSymbol (pfx : List UInt8) (sect : Section) (symbol : PeSymbol) : Symbol :=
  ⟨trimPrefix symbol.name pfx, symbol.value.toUInt64, 0, (symbol.sectionNumber.toInt - 1).toNat, sect⟩

/-- `SectionNumber` counts sections from 1; 0 and the negative special values are no section. -/
def peSectionOf (symbol : PeSymbol) : Option Nat :=
  if symbol.sectionNumber > 0 then some (symbol.sectionNumber.toInt - 1).toNat else none

def extractPESymbolsFrom (sections : List Section) (pfx : List UInt8) : List PeSymbol → Outcome (List Symbol) :=
  extractFrom peSectionOf (peSymbol pfx) sections

/-- `extractPESymbols`; win32 (`IMAGE_FILE_MACHINE_I386`, `0x14c`) names lose a leading `_`. -/
def extractPESymbols (peFile : PeFile) : Outcome File :=
  let pfx : List UInt8 := if peFile.machine = 0x14c then [95] else []
  let sections := peFile.sections.map fun s =>
    (⟨s.virtualAddress.toUInt64, s.offset.toUInt64, s.virtualSize.toUInt64⟩ : Section)
  match extractPESymbolsFrom sections pfx (peSort peFile.symbols) with
  | .ok symbols => .ok ⟨symbols, sections⟩
  | .error message => .error message
  | .panic message => .panic message

section Order

variable {α : Type} {sectionOf : α → Option Nat} {toSymbol : Section → α → Symbol} {sections : List Section}

theorem extractFrom_sources : ∀ {l : List α} {symbols : List Symbol},
    extractFrom sectionOf toSymbol sections l = .ok symbols →
      ∀ s ∈ symbols, ∃ x ∈ l, ∃ index sect, sectionOf x = some index ∧ sections[index]? = some sect ∧
        s = toSymbol sect x
  | [], _, extracted => by
    simp only [extractFrom, Outcome.ok.injEq] at extracted
    simp [← extracted]
  | x :: rest, symbols, extracted => by
    unfold extractFrom at extracted
    split at extracted
    · intro s member
      obtain ⟨y, later, found⟩ := extractFrom_sources extracted s member
      exact ⟨y, List.mem_cons_of_mem _ later, found⟩
    · rename_i index named
      split at extracted
      · cases extracted
      · rename_i sect located
        split at extracted
        · rename_i others restExtracted
          simp only [Outcome.ok.injEq] at extracted
          subst extracted
          intro s member
          rcases List.mem_cons.mp member with rfl | later
          · exact ⟨x, List.mem_cons_self, index, sect, named, located, rfl⟩
          · obtain ⟨y, yLater, found⟩ := extractFrom_sources restExtracted s later
            exact ⟨y, List.mem_cons_of_mem _ yLater, found⟩
        · rename_i failed notOk
          exact (notOk symbols extracted).elim

/-- A property of every symbol `toSymbol` builds holds of everything the shared loop returns. -/
theorem extractFrom_forall {P : Symbol → Prop} (built : ∀ sect x, P (toSymbol sect x)) {l : List α}
    {symbols : List Symbol} (extracted : extractFrom sectionOf toSymbol sections l = .ok symbols) :
    ∀ s ∈ symbols, P s := by
  intro s member
  obtain ⟨x, -, index, sect, -, -, rfl⟩ := extractFrom_sources extracted s member
  exact built sect x

/-- The shared loop keeps the order of its input: a relation that holds between the
symbols built from any two inputs in order holds pairwise in its output. -/
theorem extractFrom_pairwise {le : α → α → Prop} {R : Symbol → Symbol → Prop} :
    ∀ {l : List α} {symbols : List Symbol}, l.Pairwise le →
      (∀ a ∈ l, ∀ b ∈ l, ∀ ia ib sa sb, le a b → sectionOf a = some ia → sectionOf b = some ib →
        sections[ia]? = some sa → sections[ib]? = some sb → R (toSymbol sa a) (toSymbol sb b)) →
      extractFrom sectionOf toSymbol sections l = .ok symbols → symbols.Pairwise R
  | [], _, _, _, extracted => by
    simp only [extractFrom, Outcome.ok.injEq] at extracted
    simp [← extracted]
  | x :: rest, symbols, sorted, lift, extracted => by
    obtain ⟨first, sortedRest⟩ := List.pairwise_cons.mp sorted
    have liftRest : ∀ a ∈ rest, ∀ b ∈ rest, ∀ ia ib sa sb, le a b → sectionOf a = some ia →
        sectionOf b = some ib → sections[ia]? = some sa → sections[ib]? = some sb →
        R (toSymbol sa a) (toSymbol sb b) := fun a aLater b bLater =>
      lift a (List.mem_cons_of_mem _ aLater) b (List.mem_cons_of_mem _ bLater)
    unfold extractFrom at extracted
    split at extracted
    · exact extractFrom_pairwise sortedRest liftRest extracted
    · rename_i index named
      split at extracted
      · cases extracted
      · rename_i sect located
        split at extracted
        · rename_i others restExtracted
          simp only [Outcome.ok.injEq] at extracted
          subst extracted
          refine List.pairwise_cons.mpr ⟨fun s member => ?_, extractFrom_pairwise sortedRest liftRest restExtracted⟩
          obtain ⟨y, later, iy, sy, yNamed, yLocated, rfl⟩ := extractFrom_sources restExtracted s member
          exact lift x List.mem_cons_self y (List.mem_cons_of_mem _ later) index iy sect sy (first y later)
            named yNamed located yLocated
        · rename_i failed notOk
          exact (notOk symbols extracted).elim

theorem peLess_iff (a b : PeSymbol) :
    peLess a b = true ↔ a.sectionNumber.toInt < b.sectionNumber.toInt ∨
      a.sectionNumber.toInt = b.sectionNumber.toInt ∧ a.value.toNat < b.value.toNat := by
  by_cases same : a.sectionNumber = b.sectionNumber
  · simp [peLess, same, UInt32.lt_iff_toNat_lt]
  · have apart : a.sectionNumber.toInt ≠ b.sectionNumber.toInt := fun eq => same (Int16.toInt_inj.mp eq)
    simp [peLess, same, Int16.lt_iff_toInt_lt, apart]

theorem peSort_pairwise (symbols : List PeSymbol) :
    (peSort symbols).Pairwise fun a b => (!peLess b a) = true := by
  have sorted := @pairwise_sliceStable_lex _ peLess (fun a => a.sectionNumber.toInt) (fun a => (a.value.toNat : Int))
    (fun a b => by rw [peLess_iff]; omega) symbols
  simpa [peSort, sliceStable] using sorted

end Order

theorem extractPESymbols_ok {peFile : PeFile} {file : File} (extracted : extractPESymbols peFile = .ok file) :
    ∃ pfx, extractPESymbolsFrom file.sections pfx (peSort peFile.symbols) = .ok file.symbols := by
  dsimp only [extractPESymbols] at extracted
  generalize (if peFile.machine = 0x14c then ([95] : List UInt8) else []) = pfx at extracted
  split at extracted
  · rename_i symbols loop
    cases extracted
    exact ⟨pfx, loop⟩
  · cases extracted
  · cases extracted

/-- PE symbols always come out grouped by section and sorted by address: a PE symbol's
value is already its offset in the section. -/
theorem extractPESymbols_grouped {peFile : PeFile} {file : File} (extracted : extractPESymbols peFile = .ok file) :
    Grouped file.symbols := by
  obtain ⟨pfx, loop⟩ := extractPESymbols_ok extracted
  refine extractFrom_pairwise (peSort_pairwise _) ?_ loop
  intro a _ b _ ia ib sa sb order aNamed bNamed _ _
  simp only [peSectionOf] at aNamed bNamed
  split at aNamed <;> split at bNamed <;> simp only [Option.some.injEq, reduceCtorEq] at aNamed bNamed
  rename_i aPositive bPositive
  subst aNamed bNamed
  rw [gt_iff_lt, Int16.lt_iff_toInt_lt] at aPositive bPositive
  simp only [Bool.not_eq_true', Bool.eq_false_iff, ne_eq, peLess_iff] at order
  simp only [peSymbol, UInt64.le_iff_toNat_le, UInt32.toNat_toUInt64]
  have zero : (0 : Int16).toInt = 0 := rfl
  omega

theorem extractPESymbols_sizeless {peFile : PeFile} {file : File} (extracted : extractPESymbols peFile = .ok file) :
    ∀ s ∈ file.symbols, s.size = 0 := by
  obtain ⟨pfx, loop⟩ := extractPESymbols_ok extracted
  exact extractFrom_forall (P := (·.size = 0)) (fun _ _ => rfl) loop

/-- A PE symbol carries no size either, and the PE extractor always orders the symbols as
`findSymbol` needs: the bytes written over a symbol run 1 to 4096 bytes from its file offset,
up to the next symbol of its section. -/
theorem extractPESymbols_findSymbol_extent {peFile : PeFile} {file : File} {name : List UInt8}
    {offset size : UInt64} (extracted : extractPESymbols peFile = .ok file)
    (found : findSymbol file name = .ok (offset, size)) : SizelessExtent file name offset size :=
  findSymbol_sizelessExtent (extractPESymbols_grouped extracted) (extractPESymbols_sizeless extracted) found

theorem extractPESymbols_findSymbol_extent_two :
    extractPESymbols ⟨0x8664, [⟨[98], 0x20, 1⟩, ⟨[97], 0x10, 1⟩], [⟨0x1000, 0x400, 0x20⟩]⟩ = .ok twoSymbols ∧
      findSymbol twoSymbols [97] = .ok (0x30, 0x10) ∧ SizelessExtent twoSymbols [97] 0x30 0x10 := by
  have sorted : peSort [⟨[98], 0x20, 1⟩, ⟨[97], 0x10, 1⟩] = [⟨[97], 0x10, 1⟩, ⟨[98], 0x20, 1⟩] := by
    simp [peSort, List.mergeSort, peLess]
  have extracted : extractPESymbols ⟨0x8664, [⟨[98], 0x20, 1⟩, ⟨[97], 0x10, 1⟩], [⟨0x1000, 0x400, 0x20⟩]⟩ =
      .ok twoSymbols := by
    simp only [extractPESymbols, sorted]
    decide
  exact ⟨extracted, findSymbol_twoSymbols, extractPESymbols_findSymbol_extent extracted findSymbol_twoSymbols⟩

/-- Injecting into a symbol whose bytes lie past the end of the input is no error: the
output is the whole input with the value appended. Here an executable's 8-byte object at
file offset `0x40` and a 16-byte input. -/
theorem injectUint64Symbol_past_input_end : ∀ quote : List UInt8 → String, ∃ file,
    extractElfSymbols ⟨.ok [⟨[118], 1, 1, 0x1000, 8⟩], [⟨0, 0, 0⟩, ⟨0x1000, 0x40, 8⟩], 2⟩ = .ok file ∧
    findSymbol file [118] = .ok (0x40, 8) ∧
    injectUint64Symbol quote file (List.replicate 16 0) [118] 7 = .ok (List.replicate 16 0 ++ putUint64 7) := by
  intro quote
  have found : findSymbol ⟨[⟨[118], 0, 8, 1, ⟨0x1000, 0x40, 8⟩⟩], [⟨0, 0, 0⟩, ⟨0x1000, 0x40, 8⟩]⟩ [118] =
      .ok (0x40, 8) := by
    decide
  refine ⟨_, by decide, found, ?_⟩
  rw [injectUint64Symbol_eq quote 7 found (by decide) (by decide)]
  decide

end Soong.SymbolInject
