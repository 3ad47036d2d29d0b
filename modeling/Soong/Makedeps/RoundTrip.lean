import Soong.Makedeps.Deps
import Soong.Androidmk.Run
import Soong.Androidmk.Words

namespace Soong.Makedeps

open Androidmk Go

/-- The piece of make text `Print` writes for a character of a name. -/
def pieceOf (c : Char) : Piece :=
  if c = ' ' ∨ c = ':' ∨ c = '#' ∨ c = '\\' then .escaped c
  else if c = '$' then .dollar
  else if isIdentRune c then .ident c
  else .plain c

theorem text_pieceOf (c : Char) : (pieceOf c).text = escape c := by
  unfold pieceOf escape
  split_ifs <;> simp_all [Piece.text]

theorem value_pieceOf (c : Char) :
    (pieceOf c).value = if c = ' ' ∨ c = ':' ∨ c = '#' ∨ c = '\\' then ['\\', c] else [c] := by
  unfold pieceOf
  split_ifs <;> simp_all [Piece.value]

theorem replace_eq_text (s : String) : replace s = (s.toList.map pieceOf).flatMap Piece.text := by
  simp [replace, List.flatMap_map, text_pieceOf]

/-- Every character of a name reads as text in an expression whose end runes the name holds
only escaped. -/
theorem reads_pieceOf {ends : List Char} {c : Char} (escapedEnd : c ∈ ends → c = ':' ∨ c = '#')
    (notNewline : c ≠ '\n') (notCR : c ≠ '\r') (notNul : c ≠ '\x00') : (pieceOf c).Reads ends := by
  unfold pieceOf
  split_ifs with special dollar ident
  · exact ⟨notNewline, notCR, notNul⟩
  · trivial
  · exact ident
  · simp only [not_or] at special
    refine ⟨by simpa using ident, fun mem => ?_, ?_⟩
    · rcases escapedEnd mem with same | same
      · exact special.2.1 same
      · exact special.2.2.1 same
    · simp [notNewline, special.2.2.2, dollar, special.2.2.1, notCR, notNul]

/-- What the parser's expression holds for a name. -/
def valueOf (n : List Char) : List Char := n.flatMap fun c => (pieceOf c).value

@[simp] theorem valueOf_nil : valueOf [] = [] := rfl

@[simp] theorem valueOf_cons (c : Char) (n : List Char) :
    valueOf (c :: n) = (pieceOf c).value ++ valueOf n := rfl

@[simp] theorem valueOf_append (m n : List Char) : valueOf (m ++ n) = valueOf m ++ valueOf n := by
  simp [valueOf]

theorem valueOf_eq_nil {n : List Char} : valueOf n = [] ↔ n = [] := by
  cases n with
  | nil => simp
  | cons c n => simp [value_pieceOf]; split_ifs <;> simp

theorem unescape_valueOf (n : List Char) : unescape (valueOf n) = n := by
  induction n with
  | nil => rfl
  | cons c n ih =>
    by_cases special : c = ' ' ∨ c = ':' ∨ c = '#' ∨ c = '\\'
    · have dropped : c ∈ [' ', '\\', '#', ':', '*', '[', '|', '\t', '\n', '\r'] := by
        rcases special with rfl | rfl | rfl | rfl <;> decide
      simp [value_pieceOf, special, unescape, dropped, ih]
    · have notBackslash : c ≠ '\\' := fun same => special (.inr (.inr (.inr same)))
      simp [value_pieceOf, special, unescape_cons notBackslash, ih]

/-- A name's value ends in an even number of backslashes: only an escaped backslash ends in
one, and it comes with its escape. -/
theorem backslashes_valueOf (n : List Char) :
    ((valueOf n).reverse.takeWhile (· == '\\')).length % 2 = 0 := by
  induction n using List.reverseRecOn with
  | nil => rfl
  | append_singleton n c ih =>
    simp only [valueOf_append, valueOf_cons, valueOf_nil, List.append_nil, List.reverse_append, value_pieceOf]
    by_cases backslash : c = '\\'
    · subst backslash
      simp only [or_true, ite_true, List.reverse_cons, List.reverse_nil, List.nil_append,
        List.cons_append, List.takeWhile_cons, beq_self_eq_true, List.length_cons]
      omega
    · split_ifs <;> simp [backslash]

theorem valueOf_noBlank {m : List Char} (noSpace : ' ' ∉ m) (noTab : '\t' ∉ m) :
    ∀ c ∈ valueOf m, c ≠ ' ' ∧ c ≠ '\t' := by
  simp only [valueOf, List.mem_flatMap, value_pieceOf]
  rintro c ⟨d, mem, inValue⟩
  have notSpace : d ≠ ' ' := fun same => noSpace (same ▸ mem)
  have notTab : d ≠ '\t' := fun same => noTab (same ▸ mem)
  split_ifs at inValue <;> simp at inValue <;> rcases inValue with rfl | rfl <;> simp_all

/-- A name up to its first blank, if it has one. -/
theorem space_split (n : List Char) : ' ' ∉ n ∨ ∃ m rest, n = m ++ ' ' :: rest ∧ ' ' ∉ m := by
  induction n with
  | nil => simp
  | cons c n ih =>
    by_cases space : c = ' '
    · exact .inr ⟨[], n, by simp [space], by simp⟩
    · rcases ih with none | ⟨m, rest, split, first⟩
      · exact .inl (by simp [Ne.symm space, none])
      · exact .inr ⟨c :: m, rest, by simp [split], by simp [Ne.symm space, first]⟩

section SplitName

variable {m rest : List Char} (noSpace : ' ' ∉ m) (noTab : '\t' ∉ m)
include noSpace noTab

/-- The blank a name holds is escaped by an odd number of backslashes, so it stays. -/
theorem splitWordsLoop_escapedSpace (more : List Char) (fuel : Nat) (ret : List (List Char))
    (preserve : List Char) :
    splitWordsLoop (fuel + 1) ret preserve (valueOf (m ++ ' ' :: rest) ++ more) =
      splitWordsLoop fuel ret (preserve ++ valueOf m ++ ['\\', ' ']) (valueOf rest ++ more) := by
  have noBlank : ∀ c ∈ valueOf m ++ ['\\'], c ≠ ' ' ∧ c ≠ '\t' := by
    intro c mem
    rcases List.mem_append.mp mem with inName | escape
    · exact valueOf_noBlank noSpace noTab c inName
    · simp only [List.mem_singleton] at escape
      subst escape
      decide
  have odd : ((valueOf m ++ ['\\']).reverse.takeWhile (· == '\\')).length % 2 = 1 := by
    have even := backslashes_valueOf m
    have run : (valueOf m ++ ['\\']).reverse.takeWhile (· == '\\') =
        '\\' :: (valueOf m).reverse.takeWhile (· == '\\') := by
      simp
    rw [run, List.length_cons]
    omega
  have text : valueOf (m ++ ' ' :: rest) ++ more = (valueOf m ++ ['\\']) ++ ' ' :: (valueOf rest ++ more) := by
    simp [value_pieceOf]
  rw [text, splitWordsLoop_escaped noBlank odd]
  simp

end SplitName

/-- The words of a name followed by a blank: the name's value is one word. -/
theorem splitWordsLoop_name_blank (fuel : Nat) :
    ∀ (n more : List Char) (ret : List (List Char)) (preserve : List Char), '\t' ∉ n →
      preserve ++ valueOf n ≠ [] → (valueOf n ++ ' ' :: more).length < fuel →
      ∃ fuel', more.length < fuel' ∧
        splitWordsLoop fuel ret preserve (valueOf n ++ ' ' :: more) =
          splitWordsLoop fuel' (ret ++ [preserve ++ valueOf n]) [] more := by
  induction fuel with
  | zero => intro n more ret preserve _ _ short; omega
  | succ f ih =>
    intro n more ret preserve noTab nonempty short
    rcases space_split n with noSpace | ⟨m, rest, rfl, noSpace⟩
    · refine ⟨f, by simp at short; omega, ?_⟩
      exact splitWordsLoop_blank (valueOf_noBlank noSpace noTab) (backslashes_valueOf n) nonempty f ret
    · have noTabM : '\t' ∉ m := fun mem => noTab (List.mem_append_left _ mem)
      have noTabRest : '\t' ∉ rest := fun mem => noTab (by simp [mem])
      rw [splitWordsLoop_escapedSpace noSpace noTabM]
      obtain ⟨fuel', enough, loop⟩ :=
        ih rest more ret (preserve ++ valueOf m ++ ['\\', ' ']) noTabRest (by simp)
          (by simp [value_pieceOf] at short ⊢; omega)
      refine ⟨fuel', enough, loop.trans ?_⟩
      simp [value_pieceOf]

/-- The words of the last name: its value is the last word. -/
theorem splitWordsLoop_name_last (fuel : Nat) :
    ∀ (n : List Char) (ret : List (List Char)) (preserve : List Char), '\t' ∉ n →
      preserve ++ valueOf n ≠ [] → (valueOf n).length < fuel →
      splitWordsLoop fuel ret preserve (valueOf n) = ret ++ [preserve ++ valueOf n] := by
  induction fuel with
  | zero => intro n ret preserve _ _ short; omega
  | succ f ih =>
    intro n ret preserve noTab nonempty short
    rcases space_split n with noSpace | ⟨m, rest, rfl, noSpace⟩
    · exact splitWordsLoop_last (valueOf_noBlank noSpace noTab) nonempty f ret
    · have noTabM : '\t' ∉ m := fun mem => noTab (List.mem_append_left _ mem)
      have noTabRest : '\t' ∉ rest := fun mem => noTab (by simp [mem])
      have split : splitWordsLoop (f + 1) ret preserve (valueOf (m ++ ' ' :: rest) ++ []) =
          splitWordsLoop f ret (preserve ++ valueOf m ++ ['\\', ' ']) (valueOf rest ++ []) :=
        splitWordsLoop_escapedSpace noSpace noTabM [] f ret preserve
      rw [List.append_nil, List.append_nil] at split
      rw [split, ih rest ret (preserve ++ valueOf m ++ ['\\', ' ']) noTabRest (by simp)
        (by simp [value_pieceOf] at short; omega)]
      simp [value_pieceOf]

/-- The value of prerequisites: the names' values, a blank between two. -/
def joined (first : List Char) (rest : List (List Char)) : List Char :=
  valueOf first ++ rest.flatMap fun n => ' ' :: valueOf n

theorem splitWordsLoop_joined (rest : List (List Char)) :
    ∀ (first : List Char) (ret : List (List Char)) (fuel : Nat), (∀ n ∈ first :: rest, n ≠ [] ∧ '\t' ∉ n) →
      (joined first rest).length < fuel →
      splitWordsLoop fuel ret [] (joined first rest) = ret ++ (first :: rest).map valueOf := by
  induction rest with
  | nil =>
    intro first ret fuel names short
    have ⟨nonempty, noTab⟩ := names first List.mem_cons_self
    simpa [joined] using splitWordsLoop_name_last fuel first ret [] noTab (by simpa [valueOf_eq_nil] using nonempty)
      (by simpa [joined] using short)
  | cons second rest ih =>
    intro first ret fuel names short
    have ⟨nonempty, noTab⟩ := names first List.mem_cons_self
    obtain ⟨fuel', enough, loop⟩ := splitWordsLoop_name_blank fuel first (joined second rest) ret [] noTab
      (by simpa [valueOf_eq_nil] using nonempty) (by simpa [joined] using short)
    have text : joined first (second :: rest) = valueOf first ++ ' ' :: joined second rest := by
      simp [joined]
    rw [text, loop, ih second _ fuel' (fun n mem => names n (List.mem_cons_of_mem _ mem)) enough]
    simp

theorem escape_of_ident {c : Char} (ident : isIdentRune c = true) : escape c = [c] := by
  have other : c ≠ ' ' ∧ c ≠ ':' ∧ c ≠ '#' ∧ c ≠ '$' ∧ c ≠ '\\' := by
    refine ⟨?_, ?_, ?_, ?_, ?_⟩ <;> rintro rfl <;> simp [isIdentRune, isWhitespace] at ident
  simp [escape, other]

theorem escape_head_other {c : Char} (other : isIdentRune c = false) :
    ∃ x rest, escape c = x :: rest ∧ isIdentRune x = false := by
  unfold escape
  split_ifs <;> exact ⟨_, _, rfl, by first | decide | exact other⟩

/-- The first token of the printed text is the output's run of identifier characters. -/
theorem takeWhile_replace (s r : List Char) :
    (s.flatMap escape ++ ':' :: r).takeWhile isIdentRune = s.takeWhile isIdentRune := by
  induction s with
  | nil => simp [isIdentRune]
  | cons c s ih =>
    by_cases ident : isIdentRune c = true
    · simp [escape_of_ident ident, ident, ih]
    · have other : isIdentRune c = false := by simpa using ident
      obtain ⟨x, rest, escaped, stop⟩ := escape_head_other other
      simp [escaped, stop, other]

/-- `Parse` reads back what `Print` writes, for names the parser cannot take for anything but
text. `Print` escapes a name character by character; the parser reads each escaped character
as a `Piece`, keeps the backslash of an escaped blank so that `splitWords` does not split
there, and `unescape` drops it again.

The names `Print` writes so that `Parse` reads them back as they are. -/
structure Safe (d : Deps) : Prop where
  outputNonempty : d.output ≠ ""
  outputChars : ∀ c ∈ d.output.toList, c ∉ ['=', '?', '\t', '\n', '\r', '\x00']
  outputStart : d.output.toList.head? ≠ some '\uFEFF'
  notDirective : d.output.toList.takeWhile isIdentRune ∉ directives
  inputsNonempty : ∀ i ∈ d.inputs, i ≠ ""
  inputChars : ∀ i ∈ d.inputs, ∀ c ∈ i.toList, c ∉ ['=', ';', '\t', '\n', '\r', '\x00']

/-- The pieces of the prerequisites after the blank `ignoreSpaces` skips. -/
def inputPieces : List String → List Piece
  | [] => []
  | i :: is => i.toList.map pieceOf ++ is.flatMap fun j => .plain ' ' :: j.toList.map pieceOf

theorem text_inputPieces (i : String) (is : List String) :
    (inputPieces (i :: is)).flatMap Piece.text = replace i ++ is.flatMap fun j => ' ' :: replace j := by
  simp [inputPieces, replace_eq_text, List.flatMap_append, List.flatMap_assoc, Piece.text]

theorem value_inputPieces (i : String) (is : List String) :
    (inputPieces (i :: is)).flatMap Piece.value = joined i.toList (is.map String.toList) := by
  simp [inputPieces, joined, valueOf, List.flatMap_append, List.flatMap_assoc, List.flatMap_map, Piece.value]

theorem mem_inputPieces {q : Piece} {inputs : List String} (mem : q ∈ inputPieces inputs) :
    q = .plain ' ' ∨ ∃ i ∈ inputs, ∃ c ∈ i.toList, q = pieceOf c := by
  cases inputs with
  | nil => simp [inputPieces] at mem
  | cons i is =>
    simp only [inputPieces, List.mem_append, List.mem_map, List.mem_flatMap, List.mem_cons] at mem
    rcases mem with ⟨c, inName, rfl⟩ | ⟨j, later, blank | ⟨c, inName, rfl⟩⟩
    · exact .inr ⟨i, List.mem_cons_self, c, inName, rfl⟩
    · exact .inl blank
    · exact .inr ⟨j, List.mem_cons_of_mem _ later, c, inName, rfl⟩

/-- The text of the prerequisites ends before the newline, and no earlier. -/
theorem reads_input {c : Char} (allowed : c ∉ ['=', ';', '\t', '\n', '\r', '\x00']) :
    (pieceOf c).Reads ['#', '\n', ';', ':', '='] := by
  simp only [List.mem_cons, List.not_mem_nil, or_false, not_or] at allowed
  refine reads_pieceOf (fun isEnd => ?_) allowed.2.2.2.1 allowed.2.2.2.2.1 allowed.2.2.2.2.2
  simp only [List.mem_cons, List.not_mem_nil, or_false] at isEnd
  rcases isEnd with rfl | rfl | rfl | rfl | rfl <;> simp_all

/-- The text of the output ends at the colon, and no earlier. -/
theorem reads_output {c : Char} (allowed : c ∉ ['=', '?', '\t', '\n', '\r', '\x00']) :
    (pieceOf c).Reads ['=', '?', ':', '#', '\n'] := by
  simp only [List.mem_cons, List.not_mem_nil, or_false, not_or] at allowed
  refine reads_pieceOf (fun isEnd => ?_) allowed.2.2.2.1 allowed.2.2.2.2.1 allowed.2.2.2.2.2
  simp only [List.mem_cons, List.not_mem_nil, or_false] at isEnd
  rcases isEnd with rfl | rfl | rfl | rfl | rfl <;> simp_all

/-- The first character of an escaped character is the character itself, when `Print` does not
escape it, or the backslash or dollar of an escape. -/
theorem escape_head {c : Char} (r : List Char) :
    ∀ x ∈ (escape c ++ r).head?, (x = c ∧ c ≠ ' ' ∧ c ≠ ':' ∧ c ≠ '#' ∧ c ≠ '\\') ∨ x = '\\' ∨ x = '$' := by
  unfold escape
  split_ifs <;> simp_all

theorem escape_head_not_blank {c : Char} (notTab : c ≠ '\t') (notNewline : c ≠ '\n') (r : List Char) :
    ∀ x ∈ (escape c ++ r).head?, x ≠ ' ' ∧ x ≠ '\t' ∧ x ≠ '\n' := by
  intro x mem
  rcases escape_head r x mem with ⟨rfl, notSpace, -⟩ | rfl | rfl
  · exact ⟨notSpace, notTab, notNewline⟩
  · decide
  · decide

theorem mem_escape {x c : Char} (mem : x ∈ escape c) : x = c ∨ x = '\\' ∨ x = '$' := by
  unfold escape at mem
  split_ifs at mem <;> simp at mem <;> grind

theorem escape_clean {c x : Char} (notCR : c ≠ '\r') (notNul : c ≠ '\x00') (mem : x ∈ escape c) :
    x ≠ '\r' ∧ x ≠ '\x00' := by
  rcases mem_escape mem with rfl | rfl | rfl
  · exact ⟨notCR, notNul⟩
  · decide
  · decide

theorem print_text (d : Deps) : d.print.toList =
    (d.output.toList.map pieceOf).flatMap Piece.text ++ ':' :: (d.inputs.flatMap (fun i => ' ' :: replace i) ++ ['\n']) := by
  simp [Deps.print, String.toList_ofList, replace_eq_text]

section Run

variable {d : Deps} (safe : Safe d)
include safe

theorem Safe.inputs_reads : ∀ q ∈ inputPieces d.inputs, q.Reads ['#', '\n', ';', ':', '='] := by
  intro q mem
  rcases mem_inputPieces mem with rfl | ⟨i, input, c, inName, rfl⟩
  · exact ⟨by decide, by decide, by decide⟩
  · exact reads_input (safe.inputChars i input c inName)

theorem Safe.output_reads : ∀ q ∈ d.output.toList.map pieceOf, q.Reads ['=', '?', ':', '#', '\n'] := by
  simp only [List.mem_map]
  rintro q ⟨c, mem, rfl⟩
  exact reads_output (safe.outputChars c mem)

/-- `ignoreSpaces` and `parseExpression` over the prerequisites. -/
theorem Safe.run_prerequisites {base p : Parser}
    (here : At base true (d.inputs.flatMap (fun i => ' ' :: replace i) ++ ['\n']) p) (fuel : Nat)
    (enough : (d.inputs.flatMap (fun i => ' ' :: replace i)).length + 2 < fuel) :
    ∃ p0 p1, (ignoreSpaces (fuel + 1)).run p = .ok ((), p0) ∧
      (parseExpression (fuel + 1) ['#', '\n', ';', ':', '=']).run p0 =
        .ok (.simple ((inputPieces d.inputs).flatMap Piece.value) p0.tokPos, p1) ∧
      At base true ['\n'] p1 := by
  have restClean : Clean ['\n'] := ⟨by decide, by decide⟩
  have expression := @parseExpression_pieces ['#', '\n', ';', ':', '='] base ['\n'] (by decide) (by decide)
    (by decide) (fun _ mem => isIdentRune_eq_false_of_mem ((by decide : ['#', '\n', ';', ':', '='] ⊆ _) mem)) (by simp)
    restClean (inputPieces d.inputs) safe.inputs_reads
  have short := Piece.length_le_text (inputPieces d.inputs)
  obtain ⟨f, rfl⟩ : ∃ f, fuel = f + 1 := ⟨fuel - 1, by omega⟩
  obtain ⟨output, inputs⟩ := d
  dsimp only at expression short ⊢
  cases inputs with
  | nil =>
    have tok : p.tok = .char '\n' := by rw [here.tok]; rfl
    obtain ⟨p1, parsed, at1⟩ := expression (by simpa [inputPieces] using here) (f + 2) (by simp [inputPieces])
    exact ⟨p, p1, ignoreSpaces_stop (by simp [tok]) (by simp [tok]) (f + 1), parsed, at1⟩
  | cons i is =>
    have text : (i :: is).flatMap (fun i => ' ' :: replace i) ++ ['\n'] =
        ' ' :: ((inputPieces (i :: is)).flatMap Piece.text ++ ['\n']) := by
      simp [text_inputPieces]
    rw [text] at here
    have clean : Clean (' ' :: ((inputPieces (i :: is)).flatMap Piece.text ++ ['\n'])) := by
      have pieces := Piece.clean_flatMap safe.inputs_reads restClean
      exact ⟨by simpa using pieces.1, by simpa using pieces.2⟩
    have next : ∀ c ∈ ((inputPieces (i :: is)).flatMap Piece.text ++ ['\n']).head?, c ≠ ' ' ∧ c ≠ '\t' := by
      have nonempty := safe.inputsNonempty i List.mem_cons_self
      have chars := safe.inputChars i List.mem_cons_self
      obtain ⟨c, cs, name⟩ := List.exists_cons_of_ne_nil fun empty => nonempty (String.toList_eq_nil_iff.mp empty)
      have notTab : c ≠ '\t' := fun same => chars c (by simp [name]) (by simp [same])
      have notNewline : c ≠ '\n' := fun same => chars c (by simp [name]) (by simp [same])
      rw [text_inputPieces, replace, name, List.flatMap_cons, List.append_assoc, List.append_assoc]
      exact fun x mem => (escape_head_not_blank notTab notNewline _ x mem).imp_right And.left
    obtain ⟨p0, spaces, at0⟩ := here.ignoreSpaces_one clean next f
    rw [text_inputPieces] at short
    simp only [List.flatMap_cons, List.length_append, List.length_cons] at enough short
    obtain ⟨p1, parsed, at1⟩ := expression at0 (f + 2) (by omega)
    exact ⟨p0, p1, spaces, parsed, at1⟩

theorem Safe.clean_print : Clean d.print.toList := by
  have chars : ∀ x ∈ d.print.toList, x ≠ '\r' ∧ x ≠ '\x00' := by
    intro x mem
    simp only [Deps.print, String.toList_ofList, replace, List.mem_append, List.mem_cons,
      List.mem_flatMap, List.not_mem_nil, or_false] at mem
    rcases mem with (⟨c, inName, inEscape⟩ | rfl | ⟨i, input, rfl | ⟨c, inName, inEscape⟩⟩) | rfl
    · have allowed := safe.outputChars c inName
      exact escape_clean (fun same => allowed (by simp [same])) (fun same => allowed (by simp [same])) inEscape
    · decide
    · decide
    · have allowed := safe.inputChars i input c inName
      exact escape_clean (fun same => allowed (by simp [same])) (fun same => allowed (by simp [same])) inEscape
    · decide
  exact ⟨fun mem => (chars _ mem).1 rfl, fun mem => (chars _ mem).2 rfl⟩

/-- `Parse` runs over the printed text without an error and collects one rule. -/
theorem Safe.parseAll_print : ∃ p pos pos',
    (parseAll (2 * d.print.toList.length + 4)).run (Parser.init d.print.toList) = .ok ((), p) ∧
      p.errors = [] ∧ p.comments = [] ∧
      p.nodes = [.rule (.simple (valueOf d.output.toList) pos) (.simple ((inputPieces d.inputs).flatMap Piece.value) pos') []] := by
  have clean := safe.clean_print
  set rest := d.inputs.flatMap (fun i => ' ' :: replace i) ++ ['\n'] with restDef
  have text : d.print.toList = (d.output.toList.map pieceOf).flatMap Piece.text ++ ':' :: rest := print_text d
  have escaped : d.print.toList = d.output.toList.flatMap escape ++ ':' :: rest := by
    simp [Deps.print, String.toList_ofList, replace, restDef]
  obtain ⟨c, cs, name⟩ :=
    List.exists_cons_of_ne_nil fun empty => safe.outputNonempty (String.toList_eq_nil_iff.mp empty)
  have first := safe.outputChars c (by simp [name])
  simp only [List.mem_cons, List.not_mem_nil, or_false, not_or] at first
  have headEq : d.print.toList = escape c ++ (cs.flatMap escape ++ ':' :: rest) := by
    simp [escaped, name]
  obtain ⟨x, head⟩ : ∃ x, d.print.toList.head? = some x := by
    cases start : d.print.toList with
    | nil => simp [headEq] at start
    | cons x _ => exact ⟨x, rfl⟩
  have startEscape : x ∈ (escape c ++ (cs.flatMap escape ++ ':' :: rest)).head? := by
    rw [← headEq, head]
    rfl
  -- the first character is no blank, no byte order mark and no NUL
  have notBlank := escape_head_not_blank first.2.2.1 first.2.2.2.1 _ x startEscape
  have noBom : d.print.toList.head? ≠ some '\uFEFF' := by
    rw [head]
    intro bom
    cases Option.some.inj bom
    rcases escape_head _ _ startEscape with ⟨same, -⟩ | bom | bom
    · exact safe.outputStart (by simp [name, ← same])
    · exact absurd bom (by decide)
    · exact absurd bom (by decide)
  obtain ⟨p1, next1, at1⟩ := At.init clean noBom
  have noNul : (Parser.init d.print.toList).src.head? ≠ some '\x00' := by
    rw [Parser.init_src noBom]
    exact clean.head_ne_nul
  have tok1 : p1.tok = (scan true d.print.toList).1 := at1.tok
  have notBlank1 : p1.tok ≠ .char ' ' ∧ p1.tok ≠ .char '\t' ∧ p1.tok ≠ .char '\n' := by
    rw [tok1]
    exact ⟨scan_tok_ne head notBlank.1, scan_tok_ne head notBlank.2.1, scan_tok_ne head notBlank.2.2⟩
  have notDirective : p1.tok ≠ .ident ∨ p1.tokenText ∉ directives := by
    by_cases ident : p1.tok = .ident
    · right
      rw [at1.tokenText, scan_ident_text (tok1 ▸ ident), escaped, takeWhile_replace]
      exact safe.notDirective
    · exact .inl ident
  -- the output, up to the colon
  set n := d.print.toList.length with nDef
  have outShort := Piece.length_le_text (d.output.toList.map pieceOf)
  have textLength : ((d.output.toList.map pieceOf).flatMap Piece.text).length + 1 + rest.length = n := by
    rw [nDef, text]
    simp only [List.length_append, List.length_cons]
    omega
  have restClean : Clean (':' :: rest) := clean.of_suffix (by rw [text]; exact List.suffix_append _ _)
  rw [text] at at1
  obtain ⟨p2, target, at2⟩ := parseExpression_pieces (by decide) (by decide) (by decide)
    (fun _ mem => isIdentRune_eq_false_of_mem ((by decide : ['=', '?', ':', '#', '\n'] ⊆ _) mem)) (by simp) restClean
    safe.output_reads at1 (2 * n + 3) (by omega)
  have scanColon : scan true (':' :: rest) = (.char ':', [':'], rest) := scan_char (by decide) rest
  obtain ⟨p3, colon, at3⟩ := at2.accept (by rw [scanColon]; simp) restClean
  rw [scanColon] at colon at3
  have notEquals : p3.tok ≠ .char '=' := by
    rw [at3.tok]
    cases inputs : d.inputs with
    | nil => simp [restDef, inputs, scan_char (m := true) (c := '\n') (by decide) []]
    | cons i is => simp [restDef, inputs, scan_char (m := true) (c := ' ') (by decide)]
  -- the prerequisites, up to the newline, and the end of the input
  obtain ⟨p4, p5, spaces, prerequisites, at5⟩ := safe.run_prerequisites at3 (2 * n + 2)
    (by simp only [restDef, List.length_append, List.length_cons, List.length_nil] at textLength; omega)
  have scanNewline : scan true ['\n'] = (.char '\n', ['\n'], []) := scan_char (by decide) []
  obtain ⟨p6, newline, at6⟩ := at5.accept (by rw [scanNewline]; simp) ⟨by decide, by decide⟩
  rw [scanNewline] at newline at6
  have eof : p6.tok = .eof := by rw [at6.tok]; rfl
  -- the rule node does not change the token, and no line follows
  have finish : ∀ nodes, ((parseLines (2 * n + 2 + 1)).run { p6 with nodes := nodes } >>= fun r =>
      (accept .eof).run r.2) = .ok ((), { p6 with nodes := nodes }) := by
    intro nodes
    have stillEof : ({ p6 with nodes := nodes } : Parser).tok = .eof := eof
    rw [show 2 * n + 2 + 1 = 2 * n + 3 from rfl, parseLines_eof stillEof, ok_bind, accept_eof stillEof]
  refine ⟨{ p6 with nodes := p6.nodes ++ [.rule (.simple (valueOf d.output.toList) p1.tokPos)
      (.simple ((inputPieces d.inputs).flatMap Piece.value) p4.tokPos) []] }, p1.tokPos, p4.tokPos,
    ?_, at6.errors, at6.comments, by simp [at6.nodes, Parser.init]⟩
  rw [show 2 * n + 4 = 2 * n + 2 + 2 by omega, parseAll_run _ noNul next1,
    parseLines_rule (2 * n + 2) notBlank1 notDirective target (by rw [at2.tok, scanColon]) colon notEquals,
    parseRule_last (2 * n + 2) spaces prerequisites (by rw [at5.tok, scanNewline]) newline eof, ok_bind]
  dsimp only
  rw [finish]
  simp [valueOf, List.flatMap_map]

/-- The loop of `Parse` over the rule takes the output and the inputs back. -/
theorem Safe.collect_rule (pos pos' : Int) :
    collect ⟨"", []⟩ [.rule (.simple (valueOf d.output.toList) pos)
      (.simple ((inputPieces d.inputs).flatMap Piece.value) pos') []] = .ok d := by
  have outputName : d.output.toList ≠ [] := fun empty => safe.outputNonempty (String.toList_eq_nil_iff.mp empty)
  have outputTab : '\t' ∉ d.output.toList := fun mem => safe.outputChars _ mem (by simp)
  have outputWords : (MakeString.simple (valueOf d.output.toList) pos).words =
      [.simple (valueOf d.output.toList) pos] := by
    have nonempty : valueOf d.output.toList ≠ [] := fun empty => outputName (valueOf_eq_nil.mp empty)
    have split : splitWords (valueOf d.output.toList) = [valueOf d.output.toList] := by
      simpa [splitWords] using splitWordsLoop_name_last _ d.output.toList [] [] outputTab (by simpa using nonempty)
        (Nat.lt_succ_self _)
    rw [MakeString.words_simple split (by simpa using nonempty)]
    simp
  have inputWords : (MakeString.simple ((inputPieces d.inputs).flatMap Piece.value) pos').words =
      d.inputs.map fun i => .simple (valueOf i.toList) pos' := by
    obtain ⟨output, inputs⟩ := d
    cases inputs with
    | nil => exact MakeString.words_nil pos'
    | cons i is =>
      have names : ∀ n ∈ i.toList :: is.map String.toList, n ≠ [] ∧ '\t' ∉ n := by
        simp only [List.mem_cons, List.mem_map]
        rintro n (rfl | ⟨j, input, rfl⟩)
        · exact ⟨fun empty => safe.inputsNonempty i List.mem_cons_self (String.toList_eq_nil_iff.mp empty),
            fun mem => safe.inputChars i List.mem_cons_self _ mem (by simp)⟩
        · have later := List.mem_cons_of_mem i input
          exact ⟨fun empty => safe.inputsNonempty j later (String.toList_eq_nil_iff.mp empty),
            fun mem => safe.inputChars j later _ mem (by simp)⟩
      have split : splitWords (joined i.toList (is.map String.toList)) =
          (i.toList :: is.map String.toList).map valueOf := by
        simpa [splitWords] using splitWordsLoop_joined (is.map String.toList) i.toList [] _ names (Nat.lt_succ_self _)
      have lastWord : ∀ w ∈ ((i.toList :: is.map String.toList).map valueOf).getLast?, w ≠ [] := by
        intro w last
        obtain ⟨n, mem, rfl⟩ := List.mem_map.mp (List.mem_of_getLast? last)
        exact fun empty => (names n mem).1 (valueOf_eq_nil.mp empty)
      rw [value_inputPieces, MakeString.words_simple split lastWord]
      simp
  obtain ⟨output, inputs⟩ := d
  simp [collect, outputWords, inputWords, MakeString.constValue_simple, MakeString.const_simple, unescape_valueOf,
    Function.comp_def, String.ofList_toList]

end Run

/-- `Parse` reads back what `Print` writes for names that are safe. -/
theorem parse_print (d : Deps) (safe : Safe d) : parse d.print = .ok d := by
  obtain ⟨p, pos, pos', run, errors, comments, nodes⟩ := safe.parseAll_print
  simp [parse, Androidmk.parse, run, errors, comments, nodes, safe.collect_rule]

theorem parse_print_escapes : Safe ⟨"out/a b.o", ["x:y#1", "$z\\w"]⟩ ∧
    parse (Deps.print ⟨"out/a b.o", ["x:y#1", "$z\\w"]⟩) = .ok ⟨"out/a b.o", ["x:y#1", "$z\\w"]⟩ := by
  have safe : Safe ⟨"out/a b.o", ["x:y#1", "$z\\w"]⟩ :=
    ⟨by decide, by simp, by decide, by decide, by decide, by simp⟩
  exact ⟨safe, parse_print _ safe⟩

/-- `Parse` accepts the empty file with an empty output, which `Print` writes as a rule with no
target, which `Parse` rejects. -/
theorem parse_print_empty : parse "" = .ok ⟨"", []⟩ ∧ parse (Deps.print ⟨"", []⟩) = .error .missingOutput := by
  decide

end Soong.Makedeps
