import Mathlib

namespace Go.Utf8

/-- `utf8.RuneError`. -/
def runeError : Nat := 0xFFFD

/-- `utf8.RuneSelf`. -/
def runeSelf : Nat := 0x80

/-- The `first` and `acceptRanges` tables for a byte at or above `RuneSelf`: the size of the
sequence it starts and the range of the byte after it, or `none` for a byte that starts none. -/
def first (b : Nat) : Option (Nat × Nat × Nat) :=
  if 0xC2 ≤ b ∧ b ≤ 0xDF then some (2, 0x80, 0xBF)
  else if b = 0xE0 then some (3, 0xA0, 0xBF)
  else if 0xE1 ≤ b ∧ b ≤ 0xEC then some (3, 0x80, 0xBF)
  else if b = 0xED then some (3, 0x80, 0x9F)
  else if 0xEE ≤ b ∧ b ≤ 0xEF then some (3, 0x80, 0xBF)
  else if b = 0xF0 then some (4, 0x90, 0xBF)
  else if 0xF1 ≤ b ∧ b ≤ 0xF3 then some (4, 0x80, 0xBF)
  else if b = 0xF4 then some (4, 0x80, 0x8F)
  else none

/-- A continuation byte, from `locb` to `hicb`. -/
def continuation (b : Nat) : Bool := 0x80 ≤ b && b ≤ 0xBF

/-- `utf8.DecodeRune`: the first rune of `p` and its width. A sequence cut short is `RuneError`
of width one, as the source's `n < sz` check returns. -/
def decodeRune : List UInt8 → Nat × Nat
  | [] => (runeError, 0)
  | p0 :: rest =>
    if p0.toNat < runeSelf then (p0.toNat, 1)
    else
      match first p0.toNat, rest with
      | some (sz, lo, hi), b1 :: rest =>
        if b1.toNat < lo ∨ hi < b1.toNat then (runeError, 1)
        else if sz ≤ 2 then (p0.toNat % 0x20 * 0x40 + b1.toNat % 0x40, 2)
        else
          match rest with
          | b2 :: rest =>
            if !continuation b2.toNat then (runeError, 1)
            else if sz ≤ 3 then (p0.toNat % 0x10 * 0x1000 + b1.toNat % 0x40 * 0x40 + b2.toNat % 0x40, 3)
            else
              match rest with
              | b3 :: _ =>
                if !continuation b3.toNat then (runeError, 1)
                else
                  (p0.toNat % 0x08 * 0x40000 + b1.toNat % 0x40 * 0x1000 + b2.toNat % 0x40 * 0x40 +
                    b3.toNat % 0x40, 4)
              | [] => (runeError, 1)
          | [] => (runeError, 1)
      | _, _ => (runeError, 1)

/-- The rune at `s[start:]` as the loop of `indexFunc` reads it, and its width. -/
def runeAt (s : List UInt8) (start : Nat) : Nat × Nat :=
  match s.drop start with
  | b :: rest => if b.toNat < runeSelf then (b.toNat, 1) else decodeRune (b :: rest)
  | [] => (runeError, 0)

/-- What the tables say of a first byte: a size of two to four, a range of continuation
bytes, and the bounds that make the rune at least `RuneSelf`. -/
theorem first_spec {b sz lo hi : Nat} (found : first b = some (sz, lo, hi)) :
    0x80 ≤ lo ∧ hi ≤ 0xBF ∧
      (sz = 2 ∧ 0xC2 ≤ b ∧ b ≤ 0xDF ∨
        sz = 3 ∧ 0xE0 ≤ b ∧ b ≤ 0xEF ∧ (b = 0xE0 → lo = 0xA0) ∨
        sz = 4 ∧ 0xF0 ≤ b ∧ b ≤ 0xF4 ∧ (b = 0xF0 → lo = 0x90)) := by
  unfold first at found
  split_ifs at found <;> simp only [Option.some.injEq, Prod.mk.injEq] at found <;>
    obtain ⟨rfl, rfl, rfl⟩ := found <;> omega

/-- A byte at or above `RuneSelf` decodes to a rune at or above it, and the bytes its width
covers are all at or above it too. -/
theorem decodeRune_high {b : UInt8} {rest : List UInt8} (high : runeSelf ≤ b.toNat) :
    runeSelf ≤ (decodeRune (b :: rest)).1 ∧ 1 ≤ (decodeRune (b :: rest)).2 ∧
      (decodeRune (b :: rest)).2 ≤ (b :: rest).length ∧
      ∀ c ∈ (b :: rest).take (decodeRune (b :: rest)).2, runeSelf ≤ c.toNat := by
  have notAscii : ¬b.toNat < runeSelf := by omega
  have single : ∀ c ∈ (b :: rest).take 1, runeSelf ≤ c.toNat := by simpa using high
  have errorHigh : runeSelf ≤ runeError := by decide
  cases found : first b.toNat with
  | none =>
    simp only [decodeRune, if_neg notAscii, found]
    exact ⟨errorHigh, Nat.le_refl 1, by simp, single⟩
  | some info =>
    obtain ⟨sz, lo, hi⟩ := info
    obtain ⟨loBound, hiBound, sizes⟩ := first_spec found
    cases rest with
    | nil =>
      simp only [decodeRune, if_neg notAscii, found]
      exact ⟨errorHigh, Nat.le_refl 1, by simp, single⟩
    | cons b1 rest =>
      simp only [decodeRune, if_neg notAscii, found]
      by_cases outside : b1.toNat < lo ∨ hi < b1.toNat
      · rw [if_pos outside]
        exact ⟨errorHigh, Nat.le_refl 1, by simp, single⟩
      · rw [if_neg outside]
        unfold runeSelf at high ⊢
        by_cases two : sz ≤ 2
        · -- a two-byte sequence
          rw [if_pos two]
          refine ⟨by dsimp only; omega, by dsimp only; omega, by simp, ?_⟩
          simp only [List.take_succ_cons, List.take_zero, List.mem_cons, List.not_mem_nil, or_false]
          rintro c (rfl | rfl) <;> omega
        · rw [if_neg two]
          cases rest with
          | nil => exact ⟨errorHigh, Nat.le_refl 1, by simp, single⟩
          | cons b2 rest =>
            dsimp only
            by_cases broken2 : (!continuation b2.toNat) = true
            · rw [if_pos broken2]
              exact ⟨errorHigh, Nat.le_refl 1, by simp, single⟩
            · rw [if_neg broken2]
              simp only [continuation, Bool.not_eq_true', Bool.not_eq_false, Bool.and_eq_true,
                decide_eq_true_eq] at broken2
              by_cases three : sz ≤ 3
              · -- a three-byte sequence
                rw [if_pos three]
                refine ⟨by dsimp only; omega, by dsimp only; omega, by simp, ?_⟩
                simp only [List.take_succ_cons, List.take_zero, List.mem_cons, List.not_mem_nil, or_false]
                rintro c (rfl | rfl | rfl) <;> omega
              · rw [if_neg three]
                cases rest with
                | nil => exact ⟨errorHigh, Nat.le_refl 1, by simp, single⟩
                | cons b3 rest =>
                  dsimp only
                  by_cases broken3 : (!continuation b3.toNat) = true
                  · rw [if_pos broken3]
                    exact ⟨errorHigh, Nat.le_refl 1, by simp, single⟩
                  · -- a four-byte sequence
                    rw [if_neg broken3]
                    simp only [continuation, Bool.not_eq_true', Bool.not_eq_false, Bool.and_eq_true,
                      decide_eq_true_eq] at broken3
                    refine ⟨by dsimp only; omega, by dsimp only; omega, by simp, ?_⟩
                    simp only [List.take_succ_cons, List.take_zero, List.mem_cons, List.not_mem_nil, or_false]
                    rintro c (rfl | rfl | rfl | rfl) <;> omega

theorem runeAt_width_pos {s : List UInt8} {start : Nat} (inside : start < s.length) : 1 ≤ (runeAt s start).2 := by
  obtain ⟨b, rest, split⟩ : ∃ b rest, s.drop start = b :: rest :=
    List.exists_cons_of_ne_nil (by simpa [List.drop_eq_nil_iff] using inside)
  rw [runeAt, split]
  dsimp only
  split
  · exact Nat.le_refl 1
  · exact (decodeRune_high (by omega)).2.1

/-- The loop of `bytes.IndexFunc(s, f)` from byte `start`. -/
def indexFuncFrom (f : Nat → Bool) (s : List UInt8) (start : Nat) : Int :=
  if inside : start < s.length then
    if f (runeAt s start).1 then start
    else indexFuncFrom f s (start + (runeAt s start).2)
  else -1
termination_by s.length - start
decreasing_by have := runeAt_width_pos inside; omega

/-- `utf8.DecodeRune` and `bytes.IndexFunc`, which searches a byte slice rune by rune. A byte
below `RuneSelf` is a rune of its own; any other byte starts a sequence that `DecodeRune`
checks against the tables of `utf8.go`, and a sequence that fails the check is `RuneError` of
width one. Masks and shifts of disjoint bit fields are written as remainders and products.

`bytes.IndexFunc`: the byte index of the first rune that satisfies `f`, or `-1`. -/
def indexFunc (f : Nat → Bool) (s : List UInt8) : Int := indexFuncFrom f s 0

/-- Searching past bytes a test fails on. -/
theorem findIdx?_of_take {p : UInt8 → Bool} {l : List UInt8} {w : Nat} (within : w ≤ l.length)
    (skipped : ∀ c ∈ l.take w, p c = false) :
    l.findIdx? p = ((l.drop w).findIdx? p).map (· + w) := by
  have none : (l.take w).findIdx? p = none := by
    rw [List.findIdx?_eq_none_iff]
    exact skipped
  conv_lhs => rw [← List.take_append_drop w l]
  rw [List.findIdx?_append, none, Option.none_or, List.length_take, Nat.min_eq_left within]

/-- For a test that only ASCII runes pass, `IndexFunc` from `start` finds the first byte the
test holds of: a rune of several bytes fails it, and so do all the bytes it covers. -/
theorem indexFuncFrom_ascii {f : Nat → Bool} (asciiOnly : ∀ r, f r = true → r < runeSelf) (s : List UInt8) :
    ∀ start, indexFuncFrom f s start =
      match (s.drop start).findIdx? fun b => f b.toNat with
      | some k => ((start + k : Nat) : Int)
      | none => -1 := by
  intro start
  -- the induction is on the bytes left, which every round shortens
  induction h : s.length - start using Nat.strongRecOn generalizing start with
  | ind n ih =>
  by_cases inside : start < s.length
  · obtain ⟨b, rest, split⟩ : ∃ b rest, s.drop start = b :: rest :=
      List.exists_cons_of_ne_nil (by simpa [List.drop_eq_nil_iff] using inside)
    have after : s.drop (start + 1) = rest := by
      rw [← List.drop_drop, split, List.drop_one, List.tail_cons]
    rw [indexFuncFrom, dif_pos inside, split]
    by_cases ascii : b.toNat < runeSelf
    · -- a byte below `RuneSelf` is its own rune
      have rune : runeAt s start = (b.toNat, 1) := by rw [runeAt, split]; simp [ascii]
      rw [rune, List.findIdx?_cons]
      dsimp only
      by_cases holds : f b.toNat = true
      · simp [holds]
      · rw [if_neg holds, if_neg holds, ih (s.length - (start + 1)) (by omega) (start + 1) rfl, after]
        cases (rest.findIdx? fun b => f b.toNat) with
        | none => rfl
        | some k => simp only [Option.map_some]; congr 1; omega
    · -- a multi-byte rune, or `RuneError`, fails the test, and so do the bytes it covers
      obtain ⟨high, wide, within, covered⟩ := @decodeRune_high b rest (by omega)
      have rune : runeAt s start = decodeRune (b :: rest) := by rw [runeAt, split]; simp [ascii]
      have fails : f (decodeRune (b :: rest)).1 = false := by
        cases holds : f (decodeRune (b :: rest)).1
        · rfl
        · exact absurd (asciiOnly _ holds) (by omega)
      have skipped : ∀ c ∈ (b :: rest).take (decodeRune (b :: rest)).2, f c.toNat = false := by
        intro c mem
        cases holds : f c.toNat
        · rfl
        · exact absurd (asciiOnly _ holds) (by have := covered c mem; omega)
      have next : s.drop (start + (decodeRune (b :: rest)).2) = (b :: rest).drop (decodeRune (b :: rest)).2 := by
        rw [← List.drop_drop, split]
      have shorter : (b :: rest).length = s.length - start := by rw [← split, List.length_drop]
      rw [rune, if_neg (by rw [fails]; exact Bool.false_ne_true),
        ih (s.length - (start + (decodeRune (b :: rest)).2)) (by omega) _ rfl, next,
        findIdx?_of_take within skipped]
      cases ((b :: rest).drop (decodeRune (b :: rest)).2).findIdx? (fun b => f b.toNat) with
      | none => rfl
      | some k => simp only [Option.map_some]; congr 1; omega
  · have done : s.drop start = [] := List.drop_eq_nil_of_le (by omega)
    rw [indexFuncFrom, dif_neg inside, done]
    rfl

/-- `IndexFunc` with a test that only ASCII runes pass is the index of the first byte it holds of. -/
theorem indexFunc_ascii {f : Nat → Bool} (asciiOnly : ∀ r, f r = true → r < runeSelf) (s : List UInt8) :
    indexFunc f s =
      match s.findIdx? fun b => f b.toNat with
      | some k => (k : Int)
      | none => -1 := by
  rw [indexFunc, indexFuncFrom_ascii asciiOnly s 0, List.drop_zero]
  cases s.findIdx? fun b => f b.toNat <;> simp

end Go.Utf8
