import Soong.Androidmk.Parser

namespace Soong.Zip

/-- `NOQUOTE`. -/
def noQuote : Char := '\x00'

/-- The loop variables of `ReadRespFile`. -/
structure RespState where
  args : List String
  arg : List Char
  isEscaping : Bool
  quotingStart : Char
  deriving DecidableEq, Repr

/-- One round of the `switch` in `ReadRespFile`'s loop. -/
def respStep (st : RespState) (c : Char) : RespState :=
  if st.isEscaping then
    -- under double quotes only `\"` and `\\` drop their backslash
    let arg := if st.quotingStart = '"' ∧ ¬(c = '"' ∨ c = '\\') then st.arg ++ ['\\'] else st.arg
    { st with arg := arg ++ [c], isEscaping := false }
  else if c = '\\' ∧ st.quotingStart ≠ '\'' then { st with isEscaping := true }
  else if st.quotingStart = noQuote ∧ (c = '\'' ∨ c = '"') then { st with quotingStart := c }
  else if st.quotingStart ≠ noQuote ∧ c = st.quotingStart then { st with quotingStart := noQuote }
  else if st.quotingStart = noQuote ∧ Androidmk.isSpace c then
    { st with args := if st.arg.length ≠ 0 then st.args ++ [String.ofList st.arg] else st.args, arg := [] }
  else { st with arg := st.arg ++ [c] }

/-- The words read so far and the pending one, as the loop's epilogue adds it. -/
def RespState.finish (st : RespState) : List String :=
  if st.arg.length ≠ 0 then st.args ++ [String.ofList st.arg] else st.args

/-- `zip.ReadRespFile`, the splitter `soong_zip` runs over an `@file` argument: a state machine
over the runes of the file with a pending backslash and the quote it is inside. The file's bytes
are those of a string, so valid UTF-8, and `range string(bytes)` runs over its characters. -/
def readRespFile (bytes : String) : List String :=
  (bytes.toList.foldl respStep ⟨[], [], false, noQuote⟩).finish

/-- POSIX single quoting, as a shell script would write each argument of a response file:
`"'" + strings.ReplaceAll(s, "'", "'\\''") + "'"`. -/
def quoteArg (s : String) : String :=
  "'" ++ String.ofList (s.toList.flatMap fun c => if c = '\'' then ['\'', '\\', '\'', '\''] else [c]) ++ "'"

section Steps

variable {args : List String} {arg : List Char}

theorem respStep_open (c : Char) (quote : c = '\'' ∨ c = '"') :
    respStep ⟨args, arg, false, noQuote⟩ c = ⟨args, arg, false, c⟩ := by
  have notBackslash : c ≠ '\\' := by rcases quote with rfl | rfl <;> decide
  simp [respStep, notBackslash, quote]

theorem respStep_inside (c : Char) (notQuote : c ≠ '\'') :
    respStep ⟨args, arg, false, '\''⟩ c = ⟨args, arg ++ [c], false, '\''⟩ := by
  have open_ : '\'' ≠ noQuote := by decide
  simp [respStep, notQuote, open_]

theorem respStep_close : respStep ⟨args, arg, false, '\''⟩ '\'' = ⟨args, arg, false, noQuote⟩ := by
  simp [respStep, noQuote]

/-- A blank outside quotes ends the pending word, if there is one. -/
theorem respStep_blank (st : RespState) (plain : st.isEscaping = false) (outside : st.quotingStart = noQuote) :
    respStep st ' ' = ⟨st.finish, [], false, noQuote⟩ := by
  obtain ⟨args, arg, isEscaping, quotingStart⟩ := st
  simp only at plain outside
  subst plain outside
  simp [respStep, RespState.finish, noQuote, Androidmk.isSpace]

/-- The four characters `'\''` inside single quotes: close, escaped quote, open again. -/
theorem foldl_quotedQuote :
    ['\'', '\\', '\'', '\''].foldl respStep ⟨args, arg, false, '\''⟩ = ⟨args, arg ++ ['\''], false, '\''⟩ := by
  simp [respStep, noQuote]

theorem foldl_quotedBody (s : List Char) :
    (s.flatMap fun c => if c = '\'' then ['\'', '\\', '\'', '\''] else [c]).foldl respStep ⟨args, arg, false, '\''⟩ =
      ⟨args, arg ++ s, false, '\''⟩ := by
  induction s generalizing arg with
  | nil => simp
  | cons c s ih =>
    rw [List.flatMap_cons, List.foldl_append]
    by_cases quote : c = '\''
    · subst quote
      rw [if_pos rfl, foldl_quotedQuote, ih]
      simp
    · rw [if_neg quote, List.foldl_cons, List.foldl_nil, respStep_inside c quote, ih]
      simp

theorem foldl_quoteArg (s : String) :
    (quoteArg s).toList.foldl respStep ⟨args, [], false, noQuote⟩ = ⟨args, s.toList, false, noQuote⟩ := by
  have opened : ['\''].foldl respStep ⟨args, [], false, noQuote⟩ = ⟨args, [], false, '\''⟩ := by
    rw [List.foldl_cons, List.foldl_nil, respStep_open '\'' (.inl rfl)]
  have closed : ['\''].foldl respStep ⟨args, s.toList, false, '\''⟩ = ⟨args, s.toList, false, noQuote⟩ := by
    rw [List.foldl_cons, List.foldl_nil, respStep_close]
  simp only [quoteArg, String.toList_append, String.toList_ofList, List.foldl_append]
  rw [show "'".toList = ['\''] from rfl, opened, foldl_quotedBody, List.nil_append, closed]

end Steps

/-- The run lemma: from a state between words, the quoted words joined by blanks each become
one word. -/
theorem finish_foldl_join (args : List String) (nonempty : ∀ a ∈ args, a ≠ "") (done : List String) :
    ((String.intercalate " " (args.map quoteArg)).toList.foldl respStep ⟨done, [], false, noQuote⟩).finish =
      done ++ args := by
  induction args generalizing done with
  | nil => simp [RespState.finish]
  | cons a rest ih =>
    have word : a.toList.length ≠ 0 := by
      simpa [String.toList_eq_nil_iff] using nonempty a List.mem_cons_self
    cases rest with
    | nil =>
      simp [RespState.finish, foldl_quoteArg, word]
    | cons b rest =>
      rw [List.map_cons, List.map_cons, String.intercalate_cons_cons, String.toList_append,
        String.toList_append, List.foldl_append, List.foldl_append, foldl_quoteArg,
        show " ".toList = [' '] from rfl, List.foldl_cons, List.foldl_nil, respStep_blank _ rfl rfl,
        ← List.map_cons, ih (fun x mem => nonempty x (List.mem_cons_of_mem a mem))]
      simp [RespState.finish, word]

theorem readRespFile_quoted_join (args : List String) (nonempty : ∀ a ∈ args, a ≠ "") :
    readRespFile (String.intercalate " " (args.map quoteArg)) = args :=
  finish_foldl_join args nonempty []

theorem readRespFile_quoted_join_quotes :
    (∀ a ∈ ["it's", "a b", "\\\"x\""], a ≠ "") ∧
      readRespFile (String.intercalate " " (["it's", "a b", "\\\"x\""].map quoteArg)) =
        ["it's", "a b", "\\\"x\""] :=
  ⟨by decide, readRespFile_quoted_join _ (by decide)⟩

/-- Where `ReadRespFile` and a POSIX shell split differently: an empty quoted word is dropped,
a no-break space separates words, and inside double quotes `\$` keeps its backslash. -/
theorem readRespFile_not_shell :
    readRespFile "a '' b" = ["a", "b"] ∧ readRespFile "a\u00A0b" = ["a", "b"] ∧
      readRespFile "\"\\$x\"" = ["\\$x"] := by
  decide

end Soong.Zip
