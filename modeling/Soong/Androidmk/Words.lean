import Soong.Androidmk.Parser

namespace Soong.Androidmk

section SplitWords

variable {seg more : List Char} (noBlank : ∀ c ∈ seg, c ≠ ' ' ∧ c ≠ '\t')
include noBlank

/-- The words of a string with no variable reference: one round of `splitWordsLoop` for each
kind of blank it meets, and `Words` of such a string from its split. -/
theorem span_segment (sep : Char) (blank : sep = ' ' ∨ sep = '\t') :
    (seg ++ sep :: more).span (fun c => c != ' ' && c != '\t') = (seg, sep :: more) := by
  have inside : ∀ c ∈ seg, (c != ' ' && c != '\t') = true := by
    intro c mem
    simpa using noBlank c mem
  have stop : (sep != ' ' && sep != '\t') = false := by
    rcases blank with rfl | rfl <;> rfl
  simp [List.span_eq_takeWhile_dropWhile, List.takeWhile_append_of_pos inside,
    List.dropWhile_append_of_pos inside, stop]

theorem span_last : seg.span (fun c => c != ' ' && c != '\t') = (seg, []) := by
  have inside : ∀ c ∈ seg, (c != ' ' && c != '\t') = true := by
    intro c mem
    simpa using noBlank c mem
  simp [List.span_eq_takeWhile_dropWhile, List.takeWhile_eq_self_iff.mpr inside,
    List.dropWhile_eq_nil_iff.mpr inside]

/-- A blank after an odd number of backslashes stays in its word. -/
theorem splitWordsLoop_escaped (odd : (seg.reverse.takeWhile (· == '\\')).length % 2 = 1)
    (fuel : Nat) (ret : List (List Char)) (preserve : List Char) :
    splitWordsLoop (fuel + 1) ret preserve (seg ++ ' ' :: more) =
      splitWordsLoop fuel ret (preserve ++ seg ++ [' ']) more := by
  have nonempty : seg ≠ [] := by
    rintro rfl
    simp at odd
  rw [splitWordsLoop, span_segment noBlank ' ' (.inl rfl)]
  simp [nonempty, odd]

/-- A blank after an even number of backslashes ends the word. -/
theorem splitWordsLoop_blank (even : (seg.reverse.takeWhile (· == '\\')).length % 2 = 0)
    {preserve : List Char} (nonempty : preserve ++ seg ≠ []) (fuel : Nat) (ret : List (List Char)) :
    splitWordsLoop (fuel + 1) ret preserve (seg ++ ' ' :: more) =
      splitWordsLoop fuel (ret ++ [preserve ++ seg]) [] more := by
  have notBoth : ¬(seg = [] ∧ preserve = []) := by
    rintro ⟨rfl, rfl⟩
    exact nonempty rfl
  rw [splitWordsLoop, span_segment noBlank ' ' (.inl rfl)]
  simp [notBoth, even]

/-- The word the input ends with. -/
theorem splitWordsLoop_last {preserve : List Char} (nonempty : preserve ++ seg ≠ []) (fuel : Nat)
    (ret : List (List Char)) :
    splitWordsLoop (fuel + 1) ret preserve seg = ret ++ [preserve ++ seg] := by
  rw [splitWordsLoop, span_last noBlank]
  dsimp only
  rw [if_pos]
  cases preserve with
  | nil =>
    simp only [List.nil_append] at nonempty
    simp [nonempty]
  | cons c rest => simp

end SplitWords

namespace MakeString

theorem foldl_words (pos : Int) (ws : List (List Char)) :
    ∀ (ret : List MakeString) (w : List Char),
      ws.foldl (fun (acc : List MakeString × MakeString) r => (acc.1 ++ [acc.2], simple r pos))
          (ret, simple w pos) =
        (ret ++ ((w :: ws).dropLast.map fun r => simple r pos), simple ((w :: ws).getLast (by simp)) pos) := by
  induction ws with
  | nil => simp
  | cons r ws ih =>
    intro ret w
    rw [List.foldl_cons, ih]
    simp

/-- `Words` of a string with no variable reference are its split, when the last word is not
empty. -/
theorem words_simple {v : List Char} {pos : Int} {ws : List (List Char)} (split : splitWords v = ws)
    (last : ∀ w ∈ ws.getLast?, w ≠ []) : (simple v pos).words = ws.map fun w => simple w pos := by
  cases ws with
  | nil =>
    simp [words, wordsLoop, split, MakeString.pos, strings, vars, simple, empty, appendString]
    rfl
  | cons w ws =>
    have lastNonempty : (w :: ws).getLast (by simp) ≠ [] := last _ (by simp [List.getLast?_eq_some_getLast])
    have fold := foldl_words pos ws [] w
    simp only [words, wordsLoop, split, MakeString.pos, MakeString.strings, MakeString.vars, simple,
      appendString, List.head!, List.tail, List.getLast!, List.dropLast, List.nil_append,
      List.getLast_singleton] at fold ⊢
    have notEmpty : (mk pos [(w :: ws).getLast (List.cons_ne_nil w ws)] []).empty = false := by
      simp [empty, strings, lastNonempty]
    rw [fold, if_neg (by simp [notEmpty])]
    conv_rhs => rw [← List.dropLast_append_getLast (List.cons_ne_nil w ws)]
    simp

theorem words_nil (pos : Int) : (simple [] pos).words = [] := rfl

theorem constValue_simple (v : List Char) (pos : Int) : (simple v pos).constValue = unescape v := rfl

theorem const_simple (v : List Char) (pos : Int) : (simple v pos).const = true := rfl

end MakeString

/-- `unescape` keeps a character that is not a backslash. -/
theorem unescape_cons {c : Char} (notBackslash : c ≠ '\\') (rest : List Char) :
    unescape (c :: rest) = c :: unescape rest := by
  cases rest with
  | nil => simp [unescape]
  | cons d rest => simp [unescape, notBackslash]

end Soong.Androidmk
