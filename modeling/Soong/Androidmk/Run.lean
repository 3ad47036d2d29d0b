import Soong.Androidmk.Parser
import Soong.Go.Runtime

namespace Soong.Androidmk

open Go

/-- Text the scanner reads without a report and without skipping: no NUL, no `'\r'`. -/
def Clean (u : List Char) : Prop := '\r' ∉ u ∧ '\x00' ∉ u

theorem Clean.of_suffix {u v : List Char} (clean : Clean v) (suffix : u <:+ v) : Clean u :=
  ⟨fun mem => clean.1 (suffix.subset mem), fun mem => clean.2 (suffix.subset mem)⟩

theorem scan_suffix (m : Bool) (u : List Char) : (scan m u).2.2 <:+ u := by
  cases u with
  | nil => exact List.suffix_refl _
  | cons ch rest =>
    simp only [scan]
    split
    · exact (List.dropWhile_suffix _).trans (List.suffix_cons ch rest)
    · exact List.suffix_cons ch rest

theorem scan_false (c : Char) (v : List Char) : scan false (c :: v) = (.char c, [c], v) := by
  simp [scan]

theorem scan_char {m : Bool} {c : Char} (other : isIdentRune c = false) (v : List Char) :
    scan m (c :: v) = (.char c, [c], v) := by
  simp [scan, other]

/-- An identifier runs up to the first character that cannot continue it. -/
theorem scan_ident {c : Char} {run v : List Char} (first : isIdentRune c = true)
    (idents : ∀ d ∈ run, isIdentRune d = true) (boundary : ∀ d ∈ v.head?, isIdentRune d = false) :
    scan true (c :: run ++ v) = (.ident, c :: run, v) := by
  have stop : v.takeWhile isIdentRune = [] ∧ v.dropWhile isIdentRune = v := by
    cases v with
    | nil => simp
    | cons d rest =>
      have other := boundary d rfl
      simp [other]
  simp [scan, first, List.takeWhile_append_of_pos idents, List.dropWhile_append_of_pos idents, stop]

/-- Runs of the parser over text it reads without an error: `At` says which token the parser
holds and that it has collected nothing new, and each loop gets a lemma over the text it
consumes. The text of an expression is a list of `Piece`s, each one what a character of a
name becomes in make syntax.

The parser holds the token at the front of `u`, scanned in the mode `m`, scans on with
`ScanIdents`, and has collected what `base` had. -/
structure At (base : Parser) (m : Bool) (u : List Char) (p : Parser) : Prop where
  scanned : (p.tok, p.tokenText, p.src) = scan m u
  mode : p.scanIdents = true
  errors : p.errors = base.errors
  comments : p.comments = base.comments
  nodes : p.nodes = base.nodes

theorem At.tok {base p : Parser} {m : Bool} {u : List Char} (here : At base m u p) :
    p.tok = (scan m u).1 := congrArg Prod.fst here.scanned

theorem At.tokenText {base p : Parser} {m : Bool} {u : List Char} (here : At base m u p) :
    p.tokenText = (scan m u).2.1 := congrArg (·.2.1) here.scanned

theorem At.src {base p : Parser} {m : Bool} {u : List Char} (here : At base m u p) :
    p.src = (scan m u).2.2 := congrArg (·.2.2) here.scanned

/-- The state `scanOnce` leaves. -/
def Parser.advance (p : Parser) : Parser :=
  { p with
    tok := (scan p.scanIdents p.src).1
    tokenText := (scan p.scanIdents p.src).2.1
    tokPos := p.offset
    src := (scan p.scanIdents p.src).2.2
    offset := p.offset + (scan p.scanIdents p.src).2.1.length }

theorem scanOnce_run {p : Parser} (noNul : (scan p.scanIdents p.src).2.2.head? ≠ some '\x00') :
    scanOnce.run p = .ok ((), p.advance) := by
  simp [scanOnce, Parser.advance, noNul]

theorem skipCarriageReturns_run {p : Parser} (noCR : p.tok ≠ .char '\r') (fuel : Nat) :
    (skipCarriageReturns (fuel + 1)).run p = .ok ((), p) := by
  simp [skipCarriageReturns, noCR]

theorem next_run {p : Parser} (notEof : p.tok ≠ .eof) (noCR : (scan p.scanIdents p.src).1 ≠ .char '\r')
    (noNul : (scan p.scanIdents p.src).2.2.head? ≠ some '\x00') :
    next.run p = .ok ((), p.advance) := by
  have skip := skipCarriageReturns_run (p := p.advance) noCR p.advance.src.length
  simp only [next, StateT.run_bind, StateT.run_get, pure_bind, notEof, ne_eq, not_false_eq_true,
    ite_true, scanOnce_run noNul]
  exact skip

theorem Clean.head_ne_nul {v : List Char} (clean : Clean v) : v.head? ≠ some '\x00' := by
  intro head
  exact clean.2 (List.mem_of_mem_head? head)

theorem Clean.scan_ne_cr {v : List Char} (clean : Clean v) (m : Bool) : (scan m v).1 ≠ .char '\r' := by
  cases v with
  | nil => simp [scan]
  | cons ch rest =>
    have notCR : ch ≠ '\r' := fun same => clean.1 (by simp [same])
    simp only [scan]
    split <;> simp [notCR]

theorem accept_run_of_tok {p : Parser} {tok : Tok} (current : p.tok = tok) :
    (accept tok).run p = next.run p := by
  simp [accept, current]

/-- The parser moves to the next token of `u`. -/
theorem At.next {base p : Parser} {m : Bool} {u : List Char} (here : At base m u p)
    (notEof : (scan m u).1 ≠ .eof) (clean : Clean u) :
    ∃ p', Androidmk.next.run p = .ok ((), p') ∧ At base true (scan m u).2.2 p' := by
  have src := here.src
  have rest : Clean (scan m u).2.2 := clean.of_suffix (scan_suffix m u)
  have noCR : (scan p.scanIdents p.src).1 ≠ .char '\r' := by
    rw [src, here.mode]
    exact rest.scan_ne_cr true
  have noNul : (scan p.scanIdents p.src).2.2.head? ≠ some '\x00' := by
    rw [src, here.mode]
    exact (rest.of_suffix (scan_suffix true _)).head_ne_nul
  refine ⟨p.advance, next_run (by rw [here.tok]; exact notEof) noCR noNul, ⟨?_, here.mode, here.errors, here.comments, here.nodes⟩⟩
  simp [Parser.advance, src, here.mode]

theorem At.accept {base p : Parser} {m : Bool} {u : List Char} (here : At base m u p)
    (notEof : (scan m u).1 ≠ .eof) (clean : Clean u) :
    ∃ p', (Androidmk.accept (scan m u).1).run p = .ok ((), p') ∧ At base true (scan m u).2.2 p' := by
  obtain ⟨p', run, at'⟩ := here.next notEof clean
  exact ⟨p', by rw [accept_run_of_tok here.tok, run], at'⟩

/-- After a backslash the parser holds the next character alone, an identifier character too. -/
theorem At.parseEscape {base p : Parser} {c : Char} {rest : List Char}
    (here : At base true ('\\' :: c :: rest) p) (clean : Clean ('\\' :: c :: rest)) :
    ∃ p', Androidmk.parseEscape.run p = .ok ((), p') ∧ At base false (c :: rest) p' := by
  have scanBackslash : scan true ('\\' :: c :: rest) = (.char '\\', ['\\'], c :: rest) := by
    simp [scan, isIdentRune]
  have tok : p.tok = .char '\\' := by rw [here.tok, scanBackslash]
  have src : p.src = c :: rest := by rw [here.src, scanBackslash]
  have after : Clean (c :: rest) := clean.of_suffix (List.suffix_cons _ _)
  have scanChar := scan_false c rest
  have run : Androidmk.next.run { p with scanIdents := false } =
      .ok ((), Parser.advance { p with scanIdents := false }) := by
    refine next_run (by simp [tok]) ?_ ?_
    · simp only [src, scanChar]
      exact after.scan_ne_cr false ∘ fun same => by rw [scanChar, same]
    · simp only [src, scanChar]
      exact (after.of_suffix (List.suffix_cons _ _)).head_ne_nul
  refine ⟨{ Parser.advance { p with scanIdents := false } with scanIdents := true }, ?_, ?_⟩
  · simp only [Androidmk.parseEscape, StateT.run_bind, StateT.run_modify, pure_bind]
    rw [accept_run_of_tok (by simp [tok]), run]
    rfl
  · exact ⟨by simp [Parser.advance, src, scanChar], rfl, here.errors, here.comments, here.nodes⟩

/-- An identifier token's text is the run of identifier characters at the front. -/
theorem scan_ident_text {u : List Char} (ident : (scan true u).1 = .ident) :
    (scan true u).2.1 = u.takeWhile isIdentRune := by
  cases u with
  | nil => simp [scan] at ident
  | cons c rest =>
    by_cases first : isIdentRune c = true
    · simp [scan, first]
    · simp [scan, first] at ident

/-- The token at the front of text that starts with `x` is `x` or an identifier. -/
theorem scan_tok_ne {m : Bool} {u : List Char} {x y : Char} (head : u.head? = some x) (other : x ≠ y) :
    (scan m u).1 ≠ .char y := by
  cases u with
  | nil => simp at head
  | cons c rest =>
    simp only [List.head?_cons, Option.some.injEq] at head
    subst head
    simp only [scan]
    split <;> simp [other]

/-- What a character of a name is in make text, as `parseExpression` reads it: an identifier
character, a backslash escape, `$$`, or another character that is a token of its own. -/
inductive Piece where
  | ident (c : Char)
  | escaped (c : Char)
  | dollar
  | plain (c : Char)

/-- The runes `isIdentRune` names are refused, whatever else it checks. -/
theorem isIdentRune_eq_false_of_mem {r : Char}
    (mem : r ∈ [':', '#', '=', '+', '$', '\\', '(', ')', '{', '}', ';', '|', '?', '\r', ' ', '\t', '\n']) :
    isIdentRune r = false := by
  simp only [List.mem_cons, List.not_mem_nil, or_false] at mem
  rcases mem with rfl | rfl | rfl | rfl | rfl | rfl | rfl | rfl | rfl | rfl | rfl | rfl | rfl | rfl | rfl | rfl | rfl <;>
    rfl

namespace Piece

def text : Piece → List Char
  | ident c => [c]
  | escaped c => ['\\', c]
  | dollar => ['$', '$']
  | plain c => [c]

/-- What `parseExpression` appends for a piece. -/
def value : Piece → List Char
  | ident c => [c]
  | escaped c => ['\\', c]
  | dollar => ['$']
  | plain c => [c]

def isIdent : Piece → Bool
  | ident _ => true
  | _ => false

/-- A piece `parseExpression` reads on over, in an expression ending at `ends`. -/
def Reads (ends : List Char) : Piece → Prop
  | ident c => isIdentRune c = true
  | escaped c => c ≠ '\n' ∧ c ≠ '\r' ∧ c ≠ '\x00'
  | dollar => True
  | plain c => isIdentRune c = false ∧ c ∉ ends ∧ c ∉ ['\n', '\\', '$', '#', '\r', '\x00']

theorem isIdentRune_clean {c : Char} (ident : isIdentRune c = true) : c ≠ '\r' ∧ c ≠ '\x00' := by
  simp only [isIdentRune, isWhitespace, Bool.and_eq_true, bne_iff_ne, ne_eq] at ident
  refine ⟨ident.1.2, fun nul => ?_⟩
  simp [nul] at ident

theorem Reads.clean {ends : List Char} {q : Piece} (reads : q.Reads ends) : Clean q.text := by
  cases q with
  | ident c =>
    have ⟨notCR, notNul⟩ := isIdentRune_clean reads
    simp [Clean, text, Ne.symm notCR, Ne.symm notNul]
  | escaped c => simp [Clean, text, Ne.symm reads.2.1, Ne.symm reads.2.2]
  | dollar => simp [Clean, text]
  | plain c =>
    have other := reads.2.2
    simp only [List.mem_cons, List.not_mem_nil, or_false, not_or] at other
    simp [Clean, text, Ne.symm other.2.2.2.2.1, Ne.symm other.2.2.2.2.2]

theorem clean_flatMap {ends : List Char} {ps : List Piece} (reads : ∀ q ∈ ps, q.Reads ends)
    {rest : List Char} (clean : Clean rest) : Clean (ps.flatMap text ++ rest) := by
  constructor <;> simp only [List.mem_append, List.mem_flatMap, not_or, not_exists, not_and]
  · exact ⟨fun q mem => (reads q mem).clean.1, clean.1⟩
  · exact ⟨fun q mem => (reads q mem).clean.2, clean.2⟩

/-- A piece list starts with its longest run of identifier pieces. -/
theorem exists_identRun (ps : List Piece) :
    ∃ run after, ps = run ++ after ∧ (∀ q ∈ run, q.isIdent = true) ∧ ∀ q ∈ after.head?, q.isIdent = false := by
  refine ⟨ps.takeWhile isIdent, ps.dropWhile isIdent, List.takeWhile_append_dropWhile.symm,
    fun q mem => List.mem_takeWhile_imp mem, fun q first => ?_⟩
  have stop := List.head?_dropWhile_not isIdent ps
  rw [Option.mem_def.mp first] at stop
  exact stop

theorem idents_flatMap {ends : List Char} {run : List Piece} (idents : ∀ q ∈ run, q.isIdent = true)
    (reads : ∀ q ∈ run, q.Reads ends) : ∀ d ∈ run.flatMap text, isIdentRune d = true := by
  simp only [List.mem_flatMap]
  rintro d ⟨q, mem, inText⟩
  cases q with
  | ident c =>
    simp only [text, List.mem_singleton] at inText
    exact inText ▸ reads _ mem
  | _ => simpa [isIdent] using idents _ mem

theorem value_flatMap_of_isIdent {run : List Piece} (idents : ∀ q ∈ run, q.isIdent = true) :
    run.flatMap value = run.flatMap text := by
  refine List.flatMap_congr fun q mem => ?_
  cases q with
  | ident c => rfl
  | _ => simpa [isIdent] using idents _ mem

theorem boundary_flatMap {ends : List Char} {ps : List Piece} (first : ∀ q ∈ ps.head?, q.isIdent = false)
    (reads : ∀ q ∈ ps, q.Reads ends) {rest : List Char} (boundary : ∀ d ∈ rest.head?, isIdentRune d = false) :
    ∀ d ∈ (ps.flatMap text ++ rest).head?, isIdentRune d = false := by
  cases ps with
  | nil => simpa using boundary
  | cons q ps =>
    have other := first q rfl
    have readsQ := reads q List.mem_cons_self
    cases q with
    | ident c => simp [isIdent] at other
    | escaped c => simp [text]; decide
    | dollar => simp [text]; decide
    | plain c => simpa [text] using readsQ.1

theorem length_le_text (ps : List Piece) : ps.length ≤ (ps.flatMap text).length := by
  induction ps with
  | nil => simp
  | cons q ps ih =>
    have one : 1 ≤ q.text.length := by cases q <;> simp [text]
    simp only [List.flatMap_cons, List.length_append, List.length_cons]
    omega

end Piece

@[simp] theorem MakeString.simple_appendString (s t : List Char) (pos : Int) :
    (MakeString.simple s pos).appendString t = .simple (s ++ t) pos := rfl

section ExpressionSteps

variable {f : Nat} {ends : List Char} {parens : Nat} {value : MakeString} {p : Parser}

/-- The branches of `expressionLoop` that an expression without `)` among its end runes takes.

The end test of `expressionLoop` on an end rune. -/
theorem any_end_of_mem {c : Char} (tok : p.tok = .char c) (stop : c ∈ ends) :
    (ends.any fun r => p.tok == .char r) = true :=
  List.any_eq_true.mpr ⟨c, stop, by rw [tok, beq_iff_eq]⟩

/-- The end test of `expressionLoop` on any other token. -/
theorem any_end_of_not_char (other : ∀ c ∈ ends, p.tok ≠ .char c) :
    (ends.any fun r => p.tok == .char r) = false :=
  List.any_eq_false.mpr fun c mem same => other c mem (beq_iff_eq.mp same)

theorem any_end_of_not_mem {c : Char} (tok : p.tok = .char c) (notEnd : c ∉ ends) :
    (ends.any fun r => p.tok == .char r) = false :=
  any_end_of_not_char fun d mem same => notEnd (by rw [tok, Tok.char.injEq] at same; exact same ▸ mem)

-- The end test is settled by the lemmas above before simp sees the loop: rewriting it under
-- the binder of `get` instead leaves a term the kernel cannot check in reasonable depth.
theorem expressionLoop_end (c : Char) (tok : p.tok = .char c) (stop : c ∈ ends) :
    (expressionLoop (f + 1) ends false parens value).run p = (closeExpression parens value).run p := by
  simp only [expressionLoop, StateT.run_bind, StateT.run_get, pure_bind]
  rw [any_end_of_mem tok stop]
  simp

theorem expressionLoop_ident (tok : p.tok = .ident) :
    (expressionLoop (f + 1) ends false parens value).run p =
      (accept .ident).run p >>= fun r => (expressionLoop f ends false parens (value.appendString p.tokenText)).run r.2 := by
  simp only [expressionLoop, StateT.run_bind, StateT.run_get, pure_bind]
  rw [any_end_of_not_char fun c _ => by rw [tok]; nofun]
  simp [tok]

theorem expressionLoop_char (c : Char) (tok : p.tok = .char c) (text : p.tokenText = [c])
    (notEnd : c ∉ ends) (other : c ∉ ['\n', '\\', '$', '#']) :
    (expressionLoop (f + 1) ends false parens value).run p =
      (accept (.char c)).run p >>= fun r =>
        (expressionLoop f ends false parens (value.appendString [c])).run r.2 := by
  simp only [List.mem_cons, List.not_mem_nil, or_false, not_or] at other
  obtain ⟨notNewline, notBackslash, notDollar, notHash⟩ := other
  simp only [expressionLoop, StateT.run_bind, StateT.run_get, pure_bind]
  rw [any_end_of_not_mem tok notEnd]
  simp [tok]
  -- every arm of the match but `(`, which does the same without `)` among the end runes, and
  -- the last names another token
  split <;> simp_all

theorem expressionLoop_escape (tok : p.tok = .char '\\') (notEnd : '\\' ∉ ends) {q : Parser}
    (escape : parseEscape.run p = .ok ((), q)) (c : Char) (escaped : q.tok = .char c) (notNewline : c ≠ '\n') :
    (expressionLoop (f + 1) ends false parens value).run p =
      (accept (.char c)).run q >>= fun r =>
        (expressionLoop f ends false parens (value.appendString ['\\', c])).run r.2 := by
  simp only [expressionLoop, StateT.run_bind, StateT.run_get, pure_bind]
  rw [any_end_of_not_mem tok notEnd]
  simp [tok, escape, escaped]
  split <;> simp_all [Tok.string]

theorem expressionLoop_dollar (tok : p.tok = .char '$') (notEnd : '$' ∉ ends) {q q' : Parser}
    (first : (accept (.char '$')).run p = .ok ((), q)) (second : q.tok = .char '$')
    (skip : (accept (.char '$')).run q = .ok ((), q')) :
    (expressionLoop (f + 2) ends false parens value).run p =
      (expressionLoop (f + 1) ends false parens (value.appendString ['$'])).run q' := by
  rw [expressionLoop]
  simp only [StateT.run_bind, StateT.run_get, pure_bind]
  rw [any_end_of_not_mem tok notEnd]
  simp [parseVariable, tok, first, second, skip]

theorem expressionLoop_eof (tok : p.tok = .eof) :
    (expressionLoop (f + 1) ends false parens value).run p = (closeExpression parens value).run p := by
  simp only [expressionLoop, StateT.run_bind, StateT.run_get, pure_bind]
  rw [any_end_of_not_char fun c _ => by rw [tok]; nofun]
  simp [tok]

theorem closeExpression_zero : (closeExpression 0 value).run p = .ok (value, p) := by
  simp [closeExpression]

end ExpressionSteps

section Expression

variable {ends : List Char} {base : Parser} {rest : List Char}

/-- `expressionLoop` reads the text of pieces and appends their values, a token a round, and
leaves the parser at the text after them. -/
theorem expressionLoop_pieces (noBackslash : '\\' ∉ ends) (noDollar : '$' ∉ ends)
    (boundary : ∀ d ∈ rest.head?, isIdentRune d = false) (restClean : Clean rest)
    (parens : Nat) (pos : Int) (fuel : Nat) :
    ∀ (ps : List Piece) (s : List Char) (p : Parser), (∀ q ∈ ps, q.Reads ends) → ps.length < fuel →
      At base true (ps.flatMap Piece.text ++ rest) p →
      ∃ fuel' p', fuel ≤ fuel' + ps.length ∧ At base true rest p' ∧
        (expressionLoop fuel ends false parens (.simple s pos)).run p =
          (expressionLoop fuel' ends false parens (.simple (s ++ ps.flatMap Piece.value) pos)).run p' := by
  -- the induction follows the fuel of the loop, which each piece takes a round of
  induction fuel with
  | zero => intro ps s p _ short; omega
  | succ f ih =>
    intro ps s p reads short here
    have clean := Piece.clean_flatMap reads restClean
    cases ps with
    | nil => exact ⟨f + 1, p, by simp, by simpa using here, by simp⟩
    | cons q ps =>
      have readsQ := reads q List.mem_cons_self
      have readsPs : ∀ q ∈ ps, q.Reads ends := fun q mem => reads q (List.mem_cons_of_mem _ mem)
      cases q with
      | ident c =>
        -- the token is the longest run of identifier pieces
        obtain ⟨run, after, rfl, idents, first⟩ := Piece.exists_identRun ps
        have readsRun : ∀ q ∈ run, q.Reads ends := fun q mem => readsPs q (List.mem_append_left _ mem)
        have readsAfter : ∀ q ∈ after, q.Reads ends := fun q mem => readsPs q (List.mem_append_right _ mem)
        have textEq : (Piece.ident c :: (run ++ after)).flatMap Piece.text ++ rest =
            c :: run.flatMap Piece.text ++ (after.flatMap Piece.text ++ rest) := by
          simp [Piece.text]
        have scanEq := scan_ident readsQ (Piece.idents_flatMap idents readsRun)
          (Piece.boundary_flatMap first readsAfter boundary)
        rw [textEq] at here clean
        obtain ⟨p1, run1, at1⟩ := here.accept (by rw [scanEq]; simp) clean
        rw [scanEq] at run1 at1
        obtain ⟨fuel', p', le, at', loop⟩ :=
          ih after (s ++ c :: run.flatMap Piece.text) p1 readsAfter (by simp at short; omega) at1
        refine ⟨fuel', p', by simp; omega, at', ?_⟩
        rw [expressionLoop_ident (by rw [here.tok, scanEq]), run1, here.tokenText, scanEq]
        simp [loop, Piece.value, Piece.value_flatMap_of_isIdent idents]
      | escaped c =>
        have textEq : (Piece.escaped c :: ps).flatMap Piece.text ++ rest =
            '\\' :: c :: (ps.flatMap Piece.text ++ rest) := by
          simp [Piece.text]
        rw [textEq] at here clean
        obtain ⟨p1, escape, at1⟩ := here.parseEscape clean
        have scanEq := scan_false c (ps.flatMap Piece.text ++ rest)
        obtain ⟨p2, run2, at2⟩ := at1.accept (by rw [scanEq]; simp) (clean.of_suffix (List.suffix_cons _ _))
        rw [scanEq] at run2 at2
        obtain ⟨fuel', p', le, at', loop⟩ := ih ps (s ++ ['\\', c]) p2 readsPs (by simp at short; omega) at2
        refine ⟨fuel', p', by simp; omega, at', ?_⟩
        rw [expressionLoop_escape (by rw [here.tok]; simp [scan, isIdentRune]) noBackslash escape c
          (by rw [at1.tok, scanEq]) readsQ.1, run2]
        simp [loop, Piece.value]
      | dollar =>
        -- `$$` takes a round of `parseVariable` inside the round of the loop
        obtain ⟨f, rfl⟩ : ∃ g, f = g + 1 := ⟨f - 1, by simp at short; omega⟩
        have textEq : (Piece.dollar :: ps).flatMap Piece.text ++ rest =
            '$' :: '$' :: (ps.flatMap Piece.text ++ rest) := by
          simp [Piece.text]
        rw [textEq] at here clean
        have scanFirst := scan_char (m := true) (c := '$') (by decide) ('$' :: (ps.flatMap Piece.text ++ rest))
        have scanSecond := scan_char (m := true) (c := '$') (by decide) (ps.flatMap Piece.text ++ rest)
        obtain ⟨p1, run1, at1⟩ := here.accept (by rw [scanFirst]; simp) clean
        rw [scanFirst] at run1 at1
        obtain ⟨p2, run2, at2⟩ := at1.accept (by rw [scanSecond]; simp) (clean.of_suffix (List.suffix_cons _ _))
        rw [scanSecond] at run2 at2
        obtain ⟨fuel', p', le, at', loop⟩ := ih ps (s ++ ['$']) p2 readsPs (by simp at short; omega) at2
        refine ⟨fuel', p', by simp; omega, at', ?_⟩
        rw [expressionLoop_dollar (by rw [here.tok, scanFirst]) noDollar run1 (by rw [at1.tok, scanSecond]) run2]
        simpa [Piece.value] using loop
      | plain c =>
        have textEq : (Piece.plain c :: ps).flatMap Piece.text ++ rest = c :: (ps.flatMap Piece.text ++ rest) := by
          simp [Piece.text]
        rw [textEq] at here clean
        have scanEq := scan_char (m := true) readsQ.1 (ps.flatMap Piece.text ++ rest)
        obtain ⟨p1, run1, at1⟩ := here.accept (by rw [scanEq]; simp) clean
        rw [scanEq] at run1 at1
        obtain ⟨fuel', p', le, at', loop⟩ := ih ps (s ++ [c]) p1 readsPs (by simp at short; omega) at1
        refine ⟨fuel', p', by simp; omega, at', ?_⟩
        have other := readsQ.2.2
        simp only [List.mem_cons, List.not_mem_nil, or_false, not_or] at other
        rw [expressionLoop_char c (by rw [here.tok, scanEq]) (by rw [here.tokenText, scanEq]) readsQ.2.1
          (by simp [other.1, other.2.1, other.2.2.1, other.2.2.2.1]), run1]
        simp [loop, Piece.value]

/-- `parseExpression` reads pieces up to an end rune or the end of the input. -/
theorem parseExpression_pieces (noParen : ')' ∉ ends) (noBackslash : '\\' ∉ ends) (noDollar : '$' ∉ ends)
    (endsOther : ∀ r ∈ ends, isIdentRune r = false) (stop : ∀ r ∈ rest.head?, r ∈ ends)
    (restClean : Clean rest) {ps : List Piece} (reads : ∀ q ∈ ps, q.Reads ends) {p : Parser}
    (here : At base true (ps.flatMap Piece.text ++ rest) p) (fuel : Nat) (enough : ps.length + 1 < fuel) :
    ∃ p', (parseExpression fuel ends).run p = .ok (.simple (ps.flatMap Piece.value) p.tokPos, p') ∧
      At base true rest p' := by
  obtain ⟨g, rfl⟩ : ∃ g, fuel = g + 1 := ⟨fuel - 1, by omega⟩
  have boundary : ∀ d ∈ rest.head?, isIdentRune d = false := fun d mem => endsOther d (stop d mem)
  obtain ⟨fuel', p', le, at', loop⟩ :=
    expressionLoop_pieces noBackslash noDollar boundary restClean 0 p.tokPos g ps [] p reads (by omega) here
  obtain ⟨f', rfl⟩ : ∃ f', fuel' = f' + 1 := ⟨fuel' - 1, by omega⟩
  refine ⟨p', ?_, at'⟩
  have closes : (expressionLoop (f' + 1) ends false 0 (.simple (ps.flatMap Piece.value) p.tokPos)).run p' =
      .ok (.simple (ps.flatMap Piece.value) p.tokPos, p') := by
    -- the parser stands at an end rune or at the end of the input
    cases rest with
    | nil => rw [expressionLoop_eof (by rw [at'.tok]; rfl), closeExpression_zero]
    | cons r v =>
      have scanEq := scan_char (m := true) (boundary r rfl) v
      rw [expressionLoop_end r (by rw [at'.tok, scanEq]) (stop r rfl), closeExpression_zero]
  have noParen' : ends.contains ')' = false := by simpa using noParen
  simp only [parseExpression, StateT.run_bind, StateT.run_get, pure_bind, noParen']
  simpa using loop.trans closes

end Expression

section Blanks

variable {p : Parser}

theorem ignoreSpaces_stop (notSpace : p.tok ≠ .char ' ') (notTab : p.tok ≠ .char '\t') (fuel : Nat) :
    (ignoreSpaces (fuel + 1)).run p = .ok ((), p) := by
  simp [ignoreSpaces, notSpace, notTab]

theorem ignoreWhitespace_stop (notSpace : p.tok ≠ .char ' ') (notTab : p.tok ≠ .char '\t')
    (notNewline : p.tok ≠ .char '\n') (fuel : Nat) :
    (ignoreWhitespace (fuel + 1)).run p = .ok ((), p) := by
  simp [ignoreWhitespace, notSpace, notTab, notNewline]

/-- `ignoreSpaces` skips one blank before a token that is none. -/
theorem At.ignoreSpaces_one {base : Parser} {v : List Char} (here : At base true (' ' :: v) p)
    (clean : Clean (' ' :: v)) (next : ∀ c ∈ v.head?, c ≠ ' ' ∧ c ≠ '\t') (fuel : Nat) :
    ∃ p', (ignoreSpaces (fuel + 2)).run p = .ok ((), p') ∧ At base true v p' := by
  have scanEq := scan_char (m := true) (c := ' ') (by decide) v
  obtain ⟨p1, run1, at1⟩ := here.accept (by rw [scanEq]; simp) clean
  rw [scanEq] at run1 at1
  have stop : p1.tok ≠ .char ' ' ∧ p1.tok ≠ .char '\t' := by
    rw [at1.tok]
    cases v with
    | nil => simp [scan]
    | cons c w =>
      have ⟨notSpace, notTab⟩ := next c rfl
      simp only [scan]
      split <;> simp [notSpace, notTab]
  refine ⟨p1, ?_, at1⟩
  simp [ignoreSpaces, here.tok, scanEq, run1, stop.1, stop.2]

end Blanks

theorem parseDirective_not (notDirective : p.tok ≠ .ident ∨ p.tokenText ∉ directives) (fuel : Nat) :
    (parseDirective fuel).run p = .ok (false, p) := by
  rw [parseDirective, StateT.run_bind, StateT.run_get, pure_bind, if_pos notDirective]
  rfl

section Eof

variable {p : Parser} (eof : p.tok = .eof)
include eof

/-- At the end of the input every loop stops at once. -/
theorem accept_eof : (accept .eof).run p = .ok ((), p) := by
  simp [accept, next, eof]

theorem recipeLoop_eof (fuel : Nat) (recipe : List Char) :
    (recipeLoop (fuel + 1) true recipe).run p = .ok (recipe, p) := by
  simp [recipeLoop, eof, parseDirective_not (p := p) (.inl (by simp [eof]))]

theorem parseLines_eof (fuel : Nat) : (parseLines (fuel + 3)).run p = .ok ((), p) := by
  rw [parseLines]
  simp [ignoreWhitespace_stop (p := p) (by simp [eof]) (by simp [eof]) (by simp [eof]),
    parseDirective_not (p := p) (.inl (by simp [eof])), parseExpression, expressionLoop_eof eof, closeExpression_zero,
    ignoreSpaces_stop (p := p) (by simp [eof]) (by simp [eof]), eof, endLine, toVariable,
    MakeString.trimRightSpaces, MakeString.simple, MakeString.empty, MakeString.strings, MakeString.vars]

end Eof

section Lines

variable {p p0 p1 p2 : Parser}

/-- The rounds of the line loop a rule with no recipe takes. -/
theorem Parser.init_src {u : List Char} (noBom : u.head? ≠ some '\uFEFF') : (Parser.init u).src = u := by
  cases u with
  | nil => rfl
  | cons c rest =>
    have notBom : c ≠ '\uFEFF' := fun same => noBom (by simp [same])
    simp [Parser.init, notBom]

/-- The first token: `NewParser` skips a byte order mark, which this text does not start with,
and `Parse` scans from the start. -/
theorem At.init {u : List Char} (clean : Clean u) (noBom : u.head? ≠ some '\uFEFF') :
    ∃ p, Androidmk.next.run (Parser.init u) = .ok ((), p) ∧ At (Parser.init u) true u p := by
  have src := Parser.init_src noBom
  have noCR : (scan (Parser.init u).scanIdents (Parser.init u).src).1 ≠ .char '\r' := by
    rw [src]
    exact clean.scan_ne_cr true
  have noNul : (scan (Parser.init u).scanIdents (Parser.init u).src).2.2.head? ≠ some '\x00' := by
    rw [src]
    exact (clean.of_suffix (scan_suffix true u)).head_ne_nul
  refine ⟨(Parser.init u).advance, next_run (by simp [Parser.init]) noCR noNul, ⟨?_, rfl, rfl, rfl, rfl⟩⟩
  simp only [Parser.advance, src]
  rfl

theorem parseAll_run (fuel : Nat) {u : List Char} (noNul : (Parser.init u).src.head? ≠ some '\x00')
    (first : next.run (Parser.init u) = .ok ((), p)) :
    (parseAll fuel).run (Parser.init u) = (parseLines fuel).run p >>= fun r => (accept .eof).run r.2 := by
  simp [parseAll, noNul, first]

/-- A line that is a rule: the target up to its colon, then `parseRule`. -/
theorem parseLines_rule (fuel : Nat) {target : MakeString}
    (notBlank : p.tok ≠ .char ' ' ∧ p.tok ≠ .char '\t' ∧ p.tok ≠ .char '\n')
    (notDirective : p.tok ≠ .ident ∨ p.tokenText ∉ directives)
    (parsed : (parseExpression (fuel + 1) ['=', '?', ':', '#', '\n']).run p = .ok (target, p1))
    (colon : p1.tok = .char ':') (accepted : (accept (.char ':')).run p1 = .ok ((), p2))
    (notEquals : p2.tok ≠ .char '=') :
    (parseLines (fuel + 2)).run p =
      (parseRule (fuel + 1) target).run p2 >>= fun r => (parseLines (fuel + 1)).run r.2 := by
  rw [parseLines]
  simp [ignoreWhitespace_stop notBlank.1 notBlank.2.1 notBlank.2.2, parseDirective_not notDirective,
    parsed, ignoreSpaces_stop (p := p1) (by simp [colon]) (by simp [colon]), colon, accepted, notEquals]

/-- A rule whose prerequisites end the input with a newline, so that it has no recipe. -/
theorem parseRule_last (fuel : Nat) {target prerequisites : MakeString}
    (spaces : (ignoreSpaces (fuel + 1)).run p = .ok ((), p0))
    (parsed : (parseExpression (fuel + 1) ['#', '\n', ';', ':', '=']).run p0 = .ok (prerequisites, p1))
    (newline : p1.tok = .char '\n') (accepted : (accept (.char '\n')).run p1 = .ok ((), p2))
    (eof : p2.tok = .eof) :
    (parseRule (fuel + 1) target).run p =
      .ok ((), { p2 with nodes := p2.nodes ++ [.rule target prerequisites []] }) := by
  simp [parseRule, parseRulePrerequisites, spaces, parsed, newline, accepted, recipeLoop_eof eof]

end Lines

end Soong.Androidmk
