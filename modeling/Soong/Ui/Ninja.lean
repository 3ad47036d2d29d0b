import Mathlib

namespace Soong.Ui

section Bytes

/-- The seven payload bits of a byte. -/
theorem toNat_low (b : UInt8) : (b &&& 0x7f).toNat = b.toNat % 128 := by
  rw [UInt8.toNat_and]
  have mask : (0x7f : UInt8).toNat = 2 ^ 7 - 1 := rfl
  rw [mask, Nat.and_two_pow_sub_one_eq_mod]

/-- The continuation bit is clear exactly on the bytes below `0x80`. -/
theorem high_eq_zero_iff (b : UInt8) : b &&& 0x80 = 0 ↔ b.toNat < 128 := by
  have bits : ∀ i : Fin 256, (i.val &&& 128 = 0 ↔ i.val < 128) := by decide +kernel
  rw [← UInt8.toNat_inj, UInt8.toNat_and]
  exact bits ⟨b.toNat, b.toNat_lt⟩

end Bytes

/-- The errors of reading the stream: `io.EOF` from a read at its end, `io.ErrUnexpectedEOF`
from `io.ReadFull` when the stream ends inside its buffer, and the error `readVarInt` makes. -/
inductive ReadError where
  | eof
  | unexpectedEof
  | notVarint32
  deriving DecidableEq, Repr

/-- `err.Error()`. -/
def ReadError.text : ReadError → String
  | .eof => "EOF"
  | .unexpectedEof => "unexpected EOF"
  | .notVarint32 => "Expected varint32 length-delimited message"

/-- The loop of `readVarInt`, with the value `ret` read so far and the group count `shift`: the
value and the bytes after it. -/
def readVarIntLoop (ret shift : Nat) : List UInt8 → Except ReadError (Nat × List UInt8)
  | [] => .error .eof
  | b :: r =>
    let ret := ret + ((b &&& 0x7f).toNat <<< (shift * 7))
    if b &&& 0x80 = 0 then .ok (ret, r)
    else
      let shift := shift + 1
      if shift > 4 then .error .notVarint32
      else readVarIntLoop ret shift r

/-- `readVarInt`: the length of the next frame, and the bytes after it. -/
def readVarInt (r : List UInt8) : Except ReadError (Nat × List UInt8) := readVarIntLoop 0 0 r

section Varint

/-- The varint of a list of base-128 digits, lowest first. -/
def varintOfDigits : List Nat → List UInt8
  | [] => [0]
  | [d] => [d.toUInt8]
  | d :: ds => (d + 128).toUInt8 :: varintOfDigits ds

/-- The protobuf base-128 varint, as the protobuf encoding guide defines it: the base-128 digits
of the number, lowest first, each in a byte with the continuation bit `0x80` set on every byte
but the last; `0` is the single byte `0x00`.

The protobuf varint of `n`. -/
def encodeVarint (n : Nat) : List UInt8 := varintOfDigits (Nat.digits 128 n)

example : encodeVarint 300 = [0xac, 0x02] := by simp [encodeVarint, varintOfDigits]

theorem varintOfDigits_cons_cons (d d' : Nat) (ds : List Nat) :
    varintOfDigits (d :: d' :: ds) = (d + 128).toUInt8 :: varintOfDigits (d' :: ds) := rfl

theorem varintOfDigits_ne_nil : ∀ ds : List Nat, varintOfDigits ds ≠ []
  | [] => List.cons_ne_nil _ _
  | [_] => List.cons_ne_nil _ _
  | _ :: _ :: _ => List.cons_ne_nil _ _

theorem encodeVarint_ne_nil (n : Nat) : encodeVarint n ≠ [] := varintOfDigits_ne_nil _

/-- A group shifted into place: `d << (7 * shift)` is the digit's weight in base 128. -/
theorem shiftLeft_group (d shift : Nat) : d <<< (shift * 7) = d * 128 ^ shift := by
  rw [Nat.shiftLeft_eq, Nat.pow_mul', show (2 : Nat) ^ 7 = 128 from rfl]

/-- The loop over the varint of nonempty digits below 128 that fit in the five groups left:
each byte adds its digit at its weight, and the last one ends the value. -/
theorem readVarIntLoop_varintOfDigits (rest : List UInt8) :
    ∀ (ds : List Nat) (ret shift : Nat), ds ≠ [] → (∀ d ∈ ds, d < 128) → shift + ds.length ≤ 5 →
      readVarIntLoop ret shift (varintOfDigits ds ++ rest) = .ok (ret + Nat.ofDigits 128 ds * 128 ^ shift, rest)
  | [], _, _, nonempty, _, _ => absurd rfl nonempty
  | [d], ret, shift, _, digits, _ => by
    have small : d < 128 := digits d List.mem_cons_self
    have byte : d.toUInt8.toNat = d := by simp; omega
    have last : d.toUInt8 &&& 0x80 = 0 := (high_eq_zero_iff _).mpr (by omega)
    rw [varintOfDigits, List.singleton_append, readVarIntLoop, if_pos last, toNat_low, byte,
      Nat.mod_eq_of_lt small, shiftLeft_group, Nat.ofDigits_singleton]
  | d :: d' :: ds, ret, shift, _, digits, fits => by
    have small : d < 128 := digits d List.mem_cons_self
    have byte : (d + 128).toUInt8.toNat = d + 128 := by simp; omega
    have more : (d + 128).toUInt8 &&& 0x80 ≠ 0 := fun stop => by
      rw [high_eq_zero_iff, byte] at stop
      omega
    have room : ¬shift + 1 > 4 := by simp at fits; omega
    have tail := readVarIntLoop_varintOfDigits rest (d' :: ds) (ret + d * 128 ^ shift) (shift + 1)
      (List.cons_ne_nil _ _) (fun x mem => digits x (List.mem_cons_of_mem d mem)) (by simp at fits ⊢; omega)
    -- the later digits weigh 128 times more
    have value : ret + d * 128 ^ shift + Nat.ofDigits 128 (d' :: ds) * 128 ^ (shift + 1) =
        ret + Nat.ofDigits 128 (d :: d' :: ds) * 128 ^ shift := by
      have weigh : Nat.ofDigits 128 (d :: d' :: ds) = d + 128 * Nat.ofDigits 128 (d' :: ds) := Nat.ofDigits_cons
      rw [weigh]
      ring
    rw [varintOfDigits_cons_cons, List.cons_append, readVarIntLoop, if_neg more, if_neg room, toNat_low, byte,
      show (d + 128) % 128 = d by omega, shiftLeft_group, tail, value]

/-- `readVarInt` reads back the varint of any value of at most five groups, and stops right
after it. -/
theorem readVarInt_encodeVarint {n : Nat} (fits : n < 128 ^ 5) (rest : List UInt8) :
    readVarInt (encodeVarint n ++ rest) = .ok (n, rest) := by
  by_cases zero : n = 0
  · subst zero
    rfl
  · have digits : ∀ d ∈ Nat.digits 128 n, d < 128 := fun d mem => Nat.digits_lt_base (by decide) mem
    have short : (Nat.digits 128 n).length ≤ 5 := (Nat.digits_length_le_iff (by decide) n).mpr fits
    have read := readVarIntLoop_varintOfDigits rest (Nat.digits 128 n) 0 0 (Nat.digits_ne_nil_iff_ne_zero.mpr zero)
      digits (by omega)
    rw [Nat.ofDigits_digits, pow_zero, mul_one, zero_add] at read
    exact read

/-- Bytes that all carry the continuation bit up to the fifth group are refused at the fifth. -/
theorem readVarIntLoop_continued :
    ∀ (r : List UInt8) (ret shift : Nat), shift < 5 → 5 - shift ≤ r.length →
      (∀ b ∈ r.take (5 - shift), b &&& 0x80 ≠ 0) → readVarIntLoop ret shift r = .error .notVarint32
  | [], _, shift, below, long, _ => by simp at long; omega
  | b :: r, ret, shift, below, long, continued => by
    have groups : 5 - shift = (5 - (shift + 1)) + 1 := by omega
    rw [groups, List.take_succ_cons] at continued
    have more : b &&& 0x80 ≠ 0 := continued b List.mem_cons_self
    rw [readVarIntLoop, if_neg more]
    by_cases last : shift + 1 > 4
    · rw [if_pos last]
    · rw [if_neg last]
      exact readVarIntLoop_continued r _ (shift + 1) (by omega) (by simp at long; omega)
        fun x mem => continued x (List.mem_cons_of_mem b mem)

/-- The value read so far stays below the weight of the next group. -/
theorem readVarIntLoop_lt :
    ∀ (r : List UInt8) (ret shift : Nat) {v : Nat} {rest : List UInt8}, ret < 128 ^ shift → shift ≤ 4 →
      readVarIntLoop ret shift r = .ok (v, rest) → v < 128 ^ 5
  | [], _, _, _, _, _, _, read => by cases read
  | b :: r, ret, shift, v, rest, below, within, read => by
    have grows : ret + (b &&& 0x7f).toNat <<< (shift * 7) < 128 ^ (shift + 1) := by
      have digit : (b.toNat % 128) * 128 ^ shift ≤ 127 * 128 ^ shift :=
        Nat.mul_le_mul_right _ (by omega)
      rw [toNat_low, shiftLeft_group, pow_succ]
      omega
    rw [readVarIntLoop] at read
    by_cases stop : b &&& 0x80 = 0
    · -- the value ends with this byte
      rw [if_pos stop] at read
      obtain ⟨rfl, -⟩ := Prod.mk.inj (Except.ok.inj read)
      exact lt_of_lt_of_le grows (Nat.pow_le_pow_right (by decide) (by omega))
    · rw [if_neg stop] at read
      by_cases last : shift + 1 > 4
      · rw [if_pos last] at read
        cases read
      · rw [if_neg last] at read
        exact readVarIntLoop_lt r _ (shift + 1) grows (by omega) read

/-- `readVarInt` returns less than `2^35`, far inside Go's 64-bit `int`. -/
theorem readVarInt_lt {r rest : List UInt8} {v : Nat} (read : readVarInt r = .ok (v, rest)) : v < 2 ^ 35 :=
  lt_of_lt_of_le (readVarIntLoop_lt r 0 0 (by decide) (by decide) read) (by norm_num)

/-- Five groups of seven bits, the most `readVarInt` reads. -/
theorem readVarInt_lt_five_groups :
    readVarInt [0xff, 0xff, 0xff, 0xff, 0x7f] = .ok (2 ^ 35 - 1, []) ∧ 2 ^ 35 - 1 < 2 ^ 35 :=
  have read : readVarInt [0xff, 0xff, 0xff, 0xff, 0x7f] = .ok (2 ^ 35 - 1, []) := by decide
  ⟨read, readVarInt_lt read⟩

/-- Frame lengths decode: the varint of every 32-bit length is read back with exactly its bytes
consumed, and a stream whose first five bytes all continue is refused. -/
theorem readVarInt_varint32 :
    (∀ n : Nat, n < 2 ^ 32 → ∀ rest : List UInt8, readVarInt (encodeVarint n ++ rest) = .ok (n, rest)) ∧
      ∀ r : List UInt8, 5 ≤ r.length → (∀ b ∈ r.take 5, b &&& 0x80 ≠ 0) → readVarInt r = .error .notVarint32 :=
  ⟨fun _ small rest => readVarInt_encodeVarint (lt_of_lt_of_le small (by norm_num)) rest,
    fun r long continued => readVarIntLoop_continued r 0 0 (by decide) long continued⟩

/-- The largest 32-bit length takes five bytes, and five bytes that all continue are refused. -/
theorem readVarInt_varint32_bounds :
    readVarInt ([0xff, 0xff, 0xff, 0xff, 0x0f] ++ [0x08]) = .ok (2 ^ 32 - 1, [0x08]) ∧
      readVarInt [0x80, 0x80, 0x80, 0x80, 0x80, 0x01] = .error .notVarint32 := by
  have encoded : encodeVarint (2 ^ 32 - 1) = [0xff, 0xff, 0xff, 0xff, 0x0f] := by
    norm_num [encodeVarint, varintOfDigits]
    exact ⟨rfl, rfl⟩
  refine ⟨?_, readVarInt_varint32.2 _ (by simp) (by simp)⟩
  rw [← encoded]
  exact readVarInt_varint32.1 _ (by norm_num) _

end Varint

section Frames

/-- The frame loop of `NinjaReader.run`: read a length, read that many bytes, hand them to
`proto.Unmarshal`, and go on whatever the message says; the loop ends only when a read fails.

`io.ReadFull` into a buffer of `size` bytes: the buffer and the bytes after it; `io.EOF` when
the stream has ended, and `io.ErrUnexpectedEOF` when it ends inside the buffer. -/
def readFull (size : Nat) (r : List UInt8) : Except ReadError (List UInt8 × List UInt8) :=
  if size ≤ r.length then .ok (r.take size, r.drop size)
  else if r = [] then .error .eof
  else .error .unexpectedEof

/-- How the frame loop ends: quietly at the end of the stream, or after passing the status an
error (`Error`) or a notice (`Print`). -/
inductive FramesEnd where
  | quiet
  | error (message : String)
  | print (message : String)
  deriving DecidableEq, Repr

/-- The frame loop, with `fuel` rounds: the buffers it hands to `proto.Unmarshal`, in order, and
how it ends. A round reads at least one byte, so fuel above the stream's length is enough. -/
def readFramesLoop : Nat → List UInt8 → List (List UInt8) × FramesEnd
  | 0, _ => ([], .quiet)
  | fuel + 1, r =>
    match readVarInt r with
    | .error err => ([], if err = .eof then .quiet else .error ("Got error reading from ninja: " ++ err.text))
    | .ok (size, r) =>
      match readFull size r with
      | .error err =>
        ([], if err = .eof then .print ("Missing message of size " ++ toString size ++ " from ninja\n")
          else .error ("Got error reading from ninja: " ++ err.text))
      | .ok (buf, r) =>
        let (bufs, stop) := readFramesLoop fuel r
        (buf :: bufs, stop)

/-- Ninja's status stream (`ninja.go`): a sequence of frames, each a protobuf message behind its
length as a base-128 varint. `readVarInt` reads the length seven bits a byte, low group first,
and refuses a fifth byte that still has the continuation bit; `NinjaReader.run` then reads that
many bytes and hands them to `proto.Unmarshal`. The reader is the bytes left in the stream, and
`ReadByte` fails only at its end, with `io.EOF`. Go's `int` is 64 bits wide on the hosts Soong
runs on, and `readVarInt_lt` shows that the value never needs more than 35 of them, so it is a
natural number here.

The frames `NinjaReader.run` reads from the whole stream. -/
def readFrames (r : List UInt8) : List (List UInt8) × FramesEnd := readFramesLoop (r.length + 1) r

/-- The stream Ninja writes for its messages: each behind the varint of its length. -/
def encodeFrames (msgs : List (List UInt8)) : List UInt8 := msgs.flatMap fun m => encodeVarint m.length ++ m

theorem encodeFrames_cons (m : List UInt8) (msgs : List (List UInt8)) :
    encodeFrames (m :: msgs) = encodeVarint m.length ++ (m ++ encodeFrames msgs) := by
  rw [encodeFrames, List.flatMap_cons, List.append_assoc]
  rfl

/-- A frame takes at least a byte. -/
theorem length_le_encodeFrames (msgs : List (List UInt8)) : msgs.length ≤ (encodeFrames msgs).length := by
  induction msgs with
  | nil => exact Nat.zero_le _
  | cons m msgs ih =>
    have lengthByte := List.length_pos_of_ne_nil (encodeVarint_ne_nil m.length)
    rw [encodeFrames_cons, List.length_cons, List.length_append, List.length_append]
    omega

theorem readFramesLoop_nil (fuel : Nat) : readFramesLoop fuel [] = ([], .quiet) := by
  cases fuel <;> rfl

theorem readFull_append (m rest : List UInt8) : readFull m.length (m ++ rest) = .ok (m, rest) := by
  rw [readFull, if_pos (by simp), List.take_left, List.drop_left]

theorem readFull_short {size : Nat} {r : List UInt8} (short : r.length < size) :
    readFull size r = .error (if r = [] then .eof else .unexpectedEof) := by
  rw [readFull, if_neg (by omega)]
  split_ifs <;> rfl

/-- The loop reads whole frames off the front of the stream one a round, then goes on with what
follows them. -/
theorem readFramesLoop_append (tail : List UInt8) :
    ∀ (msgs : List (List UInt8)) (fuel : Nat), (∀ m ∈ msgs, m.length < 2 ^ 32) → msgs.length ≤ fuel →
      readFramesLoop fuel (encodeFrames msgs ++ tail) =
        (msgs ++ (readFramesLoop (fuel - msgs.length) tail).1, (readFramesLoop (fuel - msgs.length) tail).2)
  | [], fuel, _, _ => rfl
  | m :: msgs, fuel, small, enough => by
    obtain ⟨fuel, rfl⟩ : ∃ f, fuel = f + 1 := ⟨fuel - 1, by simp at enough; omega⟩
    have lengthRead := readVarInt_encodeVarint (n := m.length)
      (lt_of_lt_of_le (small m List.mem_cons_self) (by norm_num)) (m ++ (encodeFrames msgs ++ tail))
    have rest := readFramesLoop_append tail msgs fuel (fun x mem => small x (List.mem_cons_of_mem m mem))
      (by simp at enough; omega)
    rw [encodeFrames_cons, List.append_assoc, List.append_assoc, readFramesLoop, lengthRead]
    simp only [readFull_append, rest, List.length_cons, Nat.add_sub_add_right, List.cons_append]

/-- Ninja's stream of messages, each shorter than `2^32` bytes, is read back message by message,
and the loop ends quietly at its end. -/
theorem readFrames_encodeFrames (msgs : List (List UInt8)) (small : ∀ m ∈ msgs, m.length < 2 ^ 32) :
    readFrames (encodeFrames msgs) = (msgs, .quiet) := by
  have whole := readFramesLoop_append [] msgs ((encodeFrames msgs).length + 1) small
    (by have := length_le_encodeFrames msgs; omega)
  rw [List.append_nil] at whole
  rw [readFrames, whole, readFramesLoop_nil, List.append_nil]

/-- A stream cut inside its last message: the messages before it are read, and the loop reports
the missing message when nothing of it came, and an unexpected end of the stream otherwise. -/
theorem readFrames_truncated (msgs : List (List UInt8)) (small : ∀ m ∈ msgs, m.length < 2 ^ 32) {size : Nat}
    (sizeSmall : size < 2 ^ 32) {part : List UInt8} (short : part.length < size) :
    readFrames (encodeFrames msgs ++ (encodeVarint size ++ part)) =
      (msgs, if part = [] then .print ("Missing message of size " ++ toString size ++ " from ninja\n")
        else .error "Got error reading from ninja: unexpected EOF") := by
  have front := length_le_encodeFrames msgs
  have lengthByte := List.length_pos_of_ne_nil (encodeVarint_ne_nil size)
  have whole := readFramesLoop_append (encodeVarint size ++ part) msgs
    ((encodeFrames msgs ++ (encodeVarint size ++ part)).length + 1) small (by simp; omega)
  -- the round after the messages has fuel left, reads the length and then too few bytes
  obtain ⟨fuel, left⟩ : ∃ f, (encodeFrames msgs ++ (encodeVarint size ++ part)).length + 1 - msgs.length = f + 1 :=
    ⟨_, (Nat.succ_pred_eq_of_pos (by simp; omega)).symm⟩
  rw [readFrames, whole, left, readFramesLoop, readVarInt_encodeVarint (lt_of_lt_of_le sizeSmall (by norm_num))]
  simp only [readFull_short short, List.append_nil]
  by_cases empty : part = [] <;> simp [empty, ReadError.text]

/-- What `NinjaReader.run` hands to `proto.Unmarshal` from the stream Ninja writes: every message,
in order, and nothing else; the loop ends quietly at the end of the stream, and a stream cut
inside a further message ends it with a notice or an error after the whole messages before. -/
theorem readFrames_reads_stream (msgs : List (List UInt8)) (small : ∀ m ∈ msgs, m.length < 2 ^ 32)
    {size : Nat} (sizeSmall : size < 2 ^ 32) {part : List UInt8} (short : part.length < size) :
    readFrames (encodeFrames msgs) = (msgs, .quiet) ∧
      readFrames (encodeFrames msgs ++ (encodeVarint size ++ part)) =
        (msgs, if part = [] then .print ("Missing message of size " ++ toString size ++ " from ninja\n")
          else .error "Got error reading from ninja: unexpected EOF") :=
  ⟨readFrames_encodeFrames msgs small, readFrames_truncated msgs small sizeSmall short⟩

theorem readFrames_reads_stream_cut :
    (∀ m ∈ ([[1, 2], [3]] : List (List UInt8)), m.length < 2 ^ 32) ∧ 4 < 2 ^ 32 ∧ [7].length < 4 ∧
      readFrames (encodeFrames [[1, 2], [3]]) = ([[1, 2], [3]], .quiet) ∧
      readFrames (encodeFrames [[1, 2], [3]] ++ (encodeVarint 4 ++ [7])) =
        ([[1, 2], [3]], if [(7 : UInt8)] = [] then .print ("Missing message of size " ++ toString 4 ++ " from ninja\n")
          else .error "Got error reading from ninja: unexpected EOF") := by
  have small : ∀ m ∈ ([[1, 2], [3]] : List (List UInt8)), m.length < 2 ^ 32 := by decide
  exact ⟨small, by decide, by decide, readFrames_reads_stream [[1, 2], [3]] small (by decide) (by decide)⟩

end Frames

end Soong.Ui
