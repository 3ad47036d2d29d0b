import Soong.Go.Slice
import Soong.Go.Utf8

namespace Soong.Ui.Terminal

open Go

/-- The test that ends a CSI sequence: `(r >= 'a' && r <= 'z') || (r >= 'A' && r <= 'Z')`. -/
def isLetter (r : Nat) : Bool := (0x61 ≤ r && r ≤ 0x7A) || (0x41 ≤ r && r ≤ 0x5A)

/-- The loop of `stripAnsiEscapes`. `write` and `read` are where the two slices start in the
backing array `array` (both run to its end), and `len` is what `input` has been cut to; ESC is
`0x1b` and `[` is `0x5b`. Every round moves `read` on, so one round more than the array has bytes
is enough fuel. -/
def stripLoop : (fuel : Nat) → (array : List UInt8) → (write read len : Nat) → List UInt8
  | 0, array, _, _, len => array.take len
  | fuel + 1, array, write, read, len =>
    let rest := array.drop read
    match rest.idxOf? 0x1b with
    | some i =>
      if room : i + 1 < rest.length then
        if rest[i + 1] ≠ 0x5b then
          -- not a CSI code: the bytes through the ESC are kept
          stripLoop fuel (copyWithin array write read (i + 1)) (write + (i + 1)) (read + (i + 1)) len
        else
          let array := copyWithin array write read i
          let rest := array.drop (read + i)
          let found := Utf8.indexFunc isLetter rest
          -- the end marker goes too, or the rest of the input if there is none
          let skip := (if found = -1 then (rest.length : Int) - 1 else found) + 1
          stripLoop fuel array (write + i) (read + i + skip.toNat) (len - skip.toNat)
      else (copyWithin array write read rest.length).take len
    | none => (copyWithin array write read rest.length).take len

/-- `stripAnsiEscapes` of `ui/terminal/util.go`, which deletes the CSI sequences of a byte slice
in place. The slices `read` and `write` view one backing array from two offsets, `write` never
ahead of `read`; what `read` has passed is, stripped, below `write`, and `input` is cut short by
every byte that was skipped.

`stripAnsiEscapes(input)`. -/
def stripAnsiEscapes (input : List UInt8) : List UInt8 :=
  stripLoop (input.length + 1) input 0 0 input.length

/-- `s` with its CSI sequences deleted from left to right: an ESC right before `[`, with all
after it up to and including the first ASCII letter, or to the end of `s`. -/
def withoutCsi (s : List UInt8) : List UInt8 :=
  match s with
  | [] => []
  | b :: rest =>
    if b = 0x1b ∧ rest.head? = some 0x5b then
      withoutCsi ((rest.dropWhile fun c => !isLetter c.toNat).drop 1)
    else b :: withoutCsi rest
termination_by s.length
decreasing_by
  all_goals simp only [List.length_drop, List.length_cons]
  · have := List.length_dropWhile_le (fun c => !isLetter c.toNat) rest
    omega
  · omega

section Reference

@[simp] theorem withoutCsi_nil : withoutCsi [] = [] := by
  rw [withoutCsi]

theorem withoutCsi_cons_of_ne {b : UInt8} (other : b ≠ 0x1b) (rest : List UInt8) :
    withoutCsi (b :: rest) = b :: withoutCsi rest := by
  rw [withoutCsi, if_neg (fun csi => other csi.1)]

theorem withoutCsi_esc_nil : withoutCsi [0x1b] = [0x1b] := by
  rw [withoutCsi, if_neg (by simp), withoutCsi_nil]

theorem withoutCsi_esc_of_ne {c : UInt8} (other : c ≠ 0x5b) (rest : List UInt8) :
    withoutCsi (0x1b :: c :: rest) = 0x1b :: withoutCsi (c :: rest) := by
  rw [withoutCsi, if_neg (by simpa using other)]

/-- Bytes before the first ESC stay as they are. -/
theorem withoutCsi_append_of_not_mem {pre : List UInt8} (noEsc : 0x1b ∉ pre) (rest : List UInt8) :
    withoutCsi (pre ++ rest) = pre ++ withoutCsi rest := by
  induction pre with
  | nil => rfl
  | cons b pre ih =>
    rw [List.mem_cons, not_or] at noEsc
    rw [List.cons_append, withoutCsi_cons_of_ne (Ne.symm noEsc.1), ih noEsc.2, List.cons_append]

theorem withoutCsi_of_not_mem {s : List UInt8} (noEsc : 0x1b ∉ s) : withoutCsi s = s := by
  simpa using withoutCsi_append_of_not_mem noEsc []

/-- A CSI sequence goes up to the first letter of the whole, which is after its ESC and `[`:
`findIdx` is the length when there is none, and then nothing is left. -/
theorem withoutCsi_csi (rest : List UInt8) :
    withoutCsi (0x1b :: 0x5b :: rest) =
      withoutCsi ((0x1b :: 0x5b :: rest).drop
        ((0x1b :: 0x5b :: rest).findIdx (fun c => isLetter c.toNat) + 1)) := by
  have ends : ((0x5b :: rest).dropWhile fun c => !isLetter c.toNat) =
      (0x5b :: rest).drop ((0x5b :: rest).findIdx fun c => isLetter c.toNat) := by
    rw [List.dropWhile_eq_drop_findIdx_not]
    simp only [Bool.not_not]
  have esc : isLetter (0x1b : UInt8).toNat = false := by decide
  have bracket : isLetter (0x5b : UInt8).toNat = false := by decide
  rw [withoutCsi, if_pos (by simp), ends]
  simp only [List.drop_drop, List.findIdx_cons, esc, bracket, cond_false, List.drop_succ_cons]

/-- How many bytes the CSI code at the start of `r` takes: through its first letter, or all of
`r`. -/
def csiLength (r : List UInt8) : Nat := min (r.findIdx (fun c => isLetter c.toNat) + 1) r.length

theorem drop_csiLength (r : List UInt8) :
    r.drop (csiLength r) = r.drop (r.findIdx (fun c => isLetter c.toNat) + 1) := by
  rw [csiLength]
  by_cases within : r.findIdx (fun c => isLetter c.toNat) + 1 ≤ r.length
  · rw [Nat.min_eq_left within]
  · rw [Nat.min_eq_right (by omega), List.drop_length, List.drop_eq_nil_of_le (by omega)]

theorem csiLength_pos {r : List UInt8} (nonempty : r ≠ []) : 1 ≤ csiLength r := by
  have := List.length_pos_of_ne_nil nonempty
  rw [csiLength]
  omega

/-- Everything before the first ESC is kept as it is. -/
theorem withoutCsi_split {s : List UInt8} {i : Nat} (noEsc : 0x1b ∉ s.take i) :
    withoutCsi s = s.take i ++ withoutCsi (s.drop i) := by
  conv_lhs => rw [← List.take_append_drop i s]
  exact withoutCsi_append_of_not_mem noEsc _

end Reference

/-- The first `b` at `i` splits `l` into bytes without it, `b` itself, and what follows. -/
theorem split_at_idxOf? {l : List UInt8} {b : UInt8} {i : Nat} (found : l.idxOf? b = some i) :
    i < l.length ∧ b ∉ l.take i ∧ l.take (i + 1) = l.take i ++ [b] ∧ l.drop i = b :: l.drop (i + 1) := by
  obtain ⟨inside, atI, before⟩ := List.idxOf?_eq_some_iff.mp found
  have atEsc : l.drop i = b :: l.drop (i + 1) := by rw [List.drop_eq_getElem_cons inside, atI]
  refine ⟨inside, fun mem => ?_, by rw [List.take_add, atEsc]; rfl, atEsc⟩
  obtain ⟨j, lt, same⟩ := List.mem_iff_getElem.mp mem
  rw [List.length_take] at lt
  rw [List.getElem_take] at same
  exact before j (by omega) same

/-- `IndexFunc` finds only ASCII letters, so the skip the loop computes is `csiLength`. -/
theorem skip_toNat {r : List UInt8} (nonempty : r ≠ []) :
    ((if Utf8.indexFunc isLetter r = -1 then (r.length : Int) - 1 else Utf8.indexFunc isLetter r) + 1).toNat =
      csiLength r := by
  have ascii : ∀ c, isLetter c = true → c < Utf8.runeSelf := by
    intro c letter
    simp only [isLetter, Bool.or_eq_true, Bool.and_eq_true, decide_eq_true_eq] at letter
    rw [Utf8.runeSelf]
    omega
  have := List.length_pos_of_ne_nil nonempty
  rw [Utf8.indexFunc_ascii ascii, csiLength]
  cases found : r.findIdx? fun c => isLetter c.toNat with
  | none =>
    rw [List.findIdx?_eq_none_iff_findIdx_eq.mp found]
    simp only [if_true]
    omega
  | some k =>
    obtain ⟨inside, rfl⟩ := List.findIdx?_eq_some_iff_findIdx_eq.mp found
    dsimp only
    rw [if_neg (by omega)]
    omega

section Loop

variable {input array : List UInt8} {write read len i : Nat}

/-- Where the loop stands: the array is as long as `input` and still `input` from `read` on,
`write` is not ahead of `read`, the bytes below `write` followed by the stripped unread bytes are
the stripped input, and `input` has been cut by every byte skipped. -/
structure Inv (input array : List UInt8) (write read len : Nat) : Prop where
  length : array.length = input.length
  ordered : write ≤ read
  bounded : read ≤ input.length
  unread : array.drop read = input.drop read
  kept : array.take write ++ withoutCsi (input.drop read) = withoutCsi input
  cut : len + read = input.length + write

theorem Inv.start (input : List UInt8) : Inv input input 0 0 input.length :=
  ⟨rfl, Nat.le_refl 0, Nat.zero_le _, rfl, by simp, rfl⟩

/-- With no CSI code left, the final `copy(write, read)` and the cut give the stripped input. -/
theorem Inv.finish (inv : Inv input array write read len)
    (plain : withoutCsi (array.drop read) = array.drop read) :
    (copyWithin array write read (array.drop read).length).take len = withoutCsi input := by
  obtain ⟨length, ordered, bounded, unread, kept, cut⟩ := inv
  have rest : (array.drop read).length = input.length - read := by rw [List.length_drop, length]
  have all : len = write + (array.drop read).length := by omega
  rw [all, take_copyWithin ordered (by omega), List.take_length, ← kept, ← unread, plain]

/-- Past an ESC that does not start a CSI code, everything through it is kept. -/
theorem Inv.keep (inv : Inv input array write read len) (found : (array.drop read).idxOf? 0x1b = some i)
    (room : i + 1 < (array.drop read).length) (other : (array.drop read)[i + 1] ≠ 0x5b) :
    Inv input (copyWithin array write read (i + 1)) (write + (i + 1)) (read + (i + 1)) len := by
  obtain ⟨length, ordered, bounded, unread, kept, cut⟩ := inv
  obtain ⟨_, noEsc, front, atEsc⟩ := split_at_idxOf? found
  have fits : read + (i + 1) ≤ array.length := by rw [List.length_drop] at room; omega
  have passed : withoutCsi (array.drop read) =
      (array.drop read).take (i + 1) ++ withoutCsi ((array.drop read).drop (i + 1)) := by
    rw [withoutCsi_split noEsc, atEsc, List.drop_eq_getElem_cons room, withoutCsi_esc_of_ne other, front,
      List.append_assoc]
    rfl
  have tail : input.drop (read + (i + 1)) = (array.drop read).drop (i + 1) := by
    rw [unread, List.drop_drop]
  refine ⟨by rw [length_copyWithin ordered fits, length], by omega, by omega, ?_, ?_, by omega⟩
  · rw [drop_copyWithin ordered fits, ← List.drop_drop, unread, List.drop_drop]
  · rw [take_copyWithin ordered fits, tail, ← kept, ← unread, passed, List.append_assoc]

/-- A CSI code is skipped through its end marker, or to the end of the input. -/
theorem Inv.skip (inv : Inv input array write read len) (found : (array.drop read).idxOf? 0x1b = some i)
    (room : i + 1 < (array.drop read).length) (csi : (array.drop read)[i + 1] = 0x5b) :
    Inv input (copyWithin array write read i) (write + i) (read + i + csiLength (input.drop (read + i)))
      (len - csiLength (input.drop (read + i))) := by
  obtain ⟨length, ordered, bounded, unread, kept, cut⟩ := inv
  obtain ⟨_, noEsc, _, atEsc⟩ := split_at_idxOf? found
  have fits : read + i ≤ array.length := by rw [List.length_drop] at room; omega
  have code : (array.drop read).drop i = input.drop (read + i) := by rw [unread, List.drop_drop]
  have shape : input.drop (read + i) = 0x1b :: 0x5b :: (array.drop read).drop (i + 2) := by
    rw [← code, atEsc, List.drop_eq_getElem_cons room, csi]
  have within : csiLength (input.drop (read + i)) ≤ input.length - (read + i) := by
    rw [← List.length_drop]
    exact Nat.min_le_right _ _
  have passed : withoutCsi (array.drop read) =
      (array.drop read).take i ++ withoutCsi ((input.drop (read + i)).drop (csiLength (input.drop (read + i)))) := by
    rw [withoutCsi_split noEsc, code, drop_csiLength, shape, withoutCsi_csi]
  have arr : array.drop (read + i) = input.drop (read + i) := by rw [← code, List.drop_drop]
  -- the skip is counted from the ESC
  have past : ∀ l : List UInt8, l.drop (read + i + csiLength (input.drop (read + i))) =
      (l.drop (read + i)).drop (csiLength (input.drop (read + i))) := fun l => List.drop_drop.symm
  refine ⟨by rw [length_copyWithin ordered fits, length], by omega, by omega, ?_, ?_, by omega⟩
  · rw [past, past, drop_copyWithin ordered fits, arr]
  · rw [take_copyWithin ordered fits, past input, ← kept, ← unread, passed, List.append_assoc]

/-- The run lemma: from any state the invariant holds of, with a round for every byte left, the
loop returns the stripped input. -/
theorem stripLoop_eq : ∀ fuel, Inv input array write read len → input.length - read < fuel →
    stripLoop fuel array write read len = withoutCsi input := by
  intro fuel
  induction fuel generalizing array write read len with
  | zero => intro _ enough; omega
  | succ fuel ih =>
    intro inv enough
    have rest : (array.drop read).length = input.length - read := by rw [List.length_drop, inv.length]
    rw [stripLoop]
    dsimp only
    split
    · rename_i i found
      obtain ⟨inside, noEsc, _, atEsc⟩ := split_at_idxOf? found
      split
      · rename_i room
        split
        · rename_i other
          exact ih (inv.keep found room other) (by omega)
        · rename_i csi
          have code : (copyWithin array write read i).drop (read + i) = input.drop (read + i) := by
            rw [drop_copyWithin inv.ordered (by rw [List.length_drop] at room; omega), ← List.drop_drop,
              inv.unread, List.drop_drop]
          have nonempty : input.drop (read + i) ≠ [] := by
            rw [← code, drop_copyWithin inv.ordered (by rw [List.length_drop] at room; omega),
              ← List.drop_drop, atEsc]
            exact List.cons_ne_nil _ _
          rw [code, skip_toNat nonempty]
          have := csiLength_pos nonempty
          exact ih (inv.skip found room (not_not.mp csi)) (by omega)
      · -- the ESC is the last byte and is kept
        rename_i last
        have plain : withoutCsi (array.drop read) = array.drop read := by
          have gone : (array.drop read).drop (i + 1) = [] := List.drop_eq_nil_of_le (by omega)
          calc withoutCsi (array.drop read)
              = (array.drop read).take i ++ withoutCsi ((array.drop read).drop i) := withoutCsi_split noEsc
            _ = (array.drop read).take i ++ (array.drop read).drop i := by
              rw [atEsc, gone, withoutCsi_esc_nil]
            _ = array.drop read := List.take_append_drop i _
        exact inv.finish plain
    · rename_i found
      exact inv.finish (withoutCsi_of_not_mem (List.idxOf?_eq_none_iff.mp found))

end Loop

/-- `stripAnsiEscapes` deletes exactly the CSI sequences, reading left to right. -/
theorem stripAnsiEscapes_eq_withoutCsi (s : List UInt8) : stripAnsiEscapes s = withoutCsi s :=
  stripLoop_eq (s.length + 1) (Inv.start s) (by omega)

end Soong.Ui.Terminal
