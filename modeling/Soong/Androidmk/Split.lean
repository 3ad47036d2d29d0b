import Soong.Androidmk.Values

namespace Soong.Androidmk

open Go

variable {β : Type}

/-- An element of the token sequence of a `MakeString`: a raw character, or a reference taken
whole. -/
inductive Token (β : Type) where
  | char : Char → Token β
  | var : β → Token β
  deriving DecidableEq

/-- The token sequence of raw strings with a reference between each two, as `Dump` writes them. -/
def tokensOf : List (List Char) → List β → List (Token β)
  | [], _ => []
  | [s], _ => s.map .char
  | s :: s' :: rest, v :: vars => s.map .char ++ .var v :: tokensOf (s' :: rest) vars
  | s :: _ :: _, [] => s.map .char

section Spell

namespace Parts

/-- A token added to a `MakeString` under construction, as `splitNFunc` adds raw text and
references. -/
def appendToken (p : Parts β) : Token β → Parts β
  | .char c => p.appendString [c]
  | .var v => p.appendVariable v

theorem appendString_of_ne_nil {p : Parts β} (hasString : p.strings ≠ []) (s : List Char) :
    p.appendString s = ⟨p.strings.dropLast ++ [p.strings.getLast hasString ++ s], p.vars⟩ := by
  obtain ⟨strings, vars⟩ := p
  cases strings with
  | nil => exact absurd rfl hasString
  | cons first rest =>
    have last : (first :: rest).getLast! = (first :: rest).getLast hasString := by
      rw [List.getLast!_eq_getLast?_getD, List.getLast?_eq_some_getLast hasString, Option.getD_some]
    simp only [appendString, last]

theorem strings_appendString_ne_nil (p : Parts β) (s : List Char) : (p.appendString s).strings ≠ [] := by
  unfold appendString
  split <;> simp

theorem strings_appendVariable_ne_nil (p : Parts β) (v : β) : (p.appendVariable v).strings ≠ [] := by
  unfold appendVariable
  split <;> simp

theorem appendString_nil {p : Parts β} (hasString : p.strings ≠ []) : p.appendString [] = p := by
  rw [appendString_of_ne_nil hasString, List.append_nil, List.dropLast_append_getLast hasString]

theorem appendString_append {p : Parts β} (hasString : p.strings ≠ []) (a b : List Char) :
    (p.appendString a).appendString b = p.appendString (a ++ b) := by
  have hasString' : (⟨p.strings.dropLast ++ [p.strings.getLast hasString ++ a], p.vars⟩ : Parts β).strings ≠ [] := by
    simp
  rw [appendString_of_ne_nil hasString a, appendString_of_ne_nil hasString' b, appendString_of_ne_nil hasString]
  simp only [List.dropLast_concat, List.getLast_append_singleton, List.append_assoc]

/-- Raw text continues the last string, one character or all at once. -/
theorem foldl_appendToken_chars (s : List Char) :
    ∀ {p : Parts β}, p.strings ≠ [] → (s.map .char).foldl appendToken p = p.appendString s := by
  induction s with
  | nil => exact fun hasString => (appendString_nil hasString).symm
  | cons c s ih =>
    intro p hasString
    rw [List.map_cons, List.foldl_cons, appendToken, ih (strings_appendString_ne_nil p [c]),
      appendString_append hasString, List.singleton_append]

end Parts

/-- The `MakeString` a token sequence spells. -/
def ofTokens (toks : List (Token β)) : Parts β := toks.foldl Parts.appendToken (Parts.simple [])

theorem strings_foldl_appendToken_ne_nil (toks : List (Token β)) :
    ∀ {p : Parts β}, p.strings ≠ [] → (toks.foldl Parts.appendToken p).strings ≠ [] := by
  induction toks with
  | nil => exact id
  | cons t toks ih =>
    intro p _
    cases t with
    | char c => exact ih (Parts.strings_appendString_ne_nil p [c])
    | var v => exact ih (Parts.strings_appendVariable_ne_nil p v)

theorem strings_ofTokens_ne_nil (toks : List (Token β)) : (ofTokens toks).strings ≠ [] :=
  strings_foldl_appendToken_ne_nil toks (List.cons_ne_nil _ _)

theorem ofTokens_append_chars (toks : List (Token β)) (s : List Char) :
    ofTokens (toks ++ s.map .char) = (ofTokens toks).appendString s := by
  rw [ofTokens, List.foldl_append]
  exact Parts.foldl_appendToken_chars s (strings_ofTokens_ne_nil toks)

theorem ofTokens_append_var (toks : List (Token β)) (v : β) :
    ofTokens (toks ++ [.var v]) = (ofTokens toks).appendVariable v := by
  rw [ofTokens, List.foldl_append, List.foldl_cons, List.foldl_nil, Parts.appendToken, ofTokens]

theorem ofTokens_chars (s : List Char) : ofTokens (s.map .char : List (Token β)) = Parts.simple s := by
  have spelled := ofTokens_append_chars ([] : List (Token β)) s
  rw [List.nil_append] at spelled
  rw [spelled]
  rfl

/-- Only the empty sequence spells the empty string. -/
theorem empty_ofTokens (toks : List (Token β)) : (ofTokens toks).empty = toks.isEmpty := by
  induction toks using List.reverseRecOn with
  | nil => rfl
  | append_singleton toks t _ =>
    have hasString := strings_ofTokens_ne_nil toks
    rw [List.isEmpty_eq_false_iff.mpr (List.append_ne_nil_of_right_ne_nil toks (List.cons_ne_nil t []))]
    cases t with
    | char c =>
      -- the last string ends with the character
      have spelled := ofTokens_append_chars toks [c]
      rw [List.map_singleton] at spelled
      rw [spelled, Parts.appendString_of_ne_nil hasString]
      simp only [Parts.empty, Bool.or_eq_false_iff, beq_eq_false_iff_ne, ne_eq, List.append_eq_nil_iff,
        List.cons_ne_nil, and_false, not_false_eq_true, true_and]
      intro same
      have lasts := congrArg List.getLast? same
      simp at lasts
    | var v =>
      -- a reference leaves at least two strings
      rw [ofTokens_append_var, Parts.appendVariable]
      obtain ⟨first, rest, split⟩ := List.exists_cons_of_ne_nil hasString
      simp [split, Parts.empty]

end Spell

section TokenSplit

/-- The state of a split of the token sequence: the count of pieces left (`-1` for no limit), the
pieces made, and the piece being made. -/
structure SplitState (β : Type) where
  n : Int
  ret : List (List (Token β))
  cur : List (Token β)

/-- One token of the split: a separator cuts while the count allows a further piece; with
`charge`, a reference also uses up a piece of a positive count. -/
def splitStep (sep : List Char) (charge : Bool) (st : SplitState β) : Token β → SplitState β
  | .char c =>
    if sep.contains c ∧ (st.n = -1 ∨ st.n > 1) then ⟨if st.n > 0 then st.n - 1 else st.n, st.ret ++ [st.cur], []⟩
    else ⟨st.n, st.ret, st.cur ++ [.char c]⟩
  | .var v => ⟨if charge ∧ st.n > 0 then st.n - 1 else st.n, st.ret, st.cur ++ [.var v]⟩

/-- The pieces of a finished split: those made, and the last one unless it is empty. -/
def SplitState.finish (st : SplitState β) : List (List (Token β)) :=
  if st.cur.isEmpty then st.ret else st.ret ++ [st.cur]

/-- `SplitN` over the token sequence of a `MakeString`: its raw characters, with each reference as
one opaque token. `splitNFunc` splits each raw string with `splitAnyN` and lowers the count by the
number of pieces it made, although the last piece of a string goes on past the reference after
it: each reference the loop passes with a count left uses up one piece. So the loop is the split
of the token sequence in which a reference is charged a piece (`tokenSplit` with `charge`), where
the split the count stands for charges only the cuts. The two agree for `Split` and for a count of
one, and differ as soon as a reference stands before the last cut the count allows.

The pieces of a token sequence cut at separators, at most `n` of them (any number for `-1`),
the last one dropped when empty. -/
def tokenSplit (sep : List Char) (charge : Bool) (n : Int) (toks : List (Token β)) : List (List (Token β)) :=
  (toks.foldl (splitStep sep charge) ⟨n, [], []⟩).finish

/-- A cut before the raw piece `r`: the piece being made is done, and `r` starts the next. -/
def SplitState.cut (st : SplitState β) (r : List Char) : SplitState β :=
  ⟨if st.n > 0 then st.n - 1 else st.n, st.ret ++ [st.cur], r.map .char⟩

variable (sep : List Char) (charge : Bool)

/-- A step leaves the count as it is, or lowers a positive count by one. -/
theorem n_splitStep (st : SplitState β) (t : Token β) :
    (splitStep sep charge st t).n = st.n ∨ (0 < st.n ∧ (splitStep sep charge st t).n = st.n - 1) := by
  cases t with
  | char c =>
    by_cases cuts : sep.contains c ∧ (st.n = -1 ∨ st.n > 1)
    · rw [splitStep, if_pos cuts]
      by_cases pos : st.n > 0
      · exact .inr ⟨pos, if_pos pos⟩
      · exact .inl (if_neg pos)
    · rw [splitStep, if_neg cuts]
      exact .inl rfl
  | var v =>
    rw [splitStep]
    by_cases lowered : charge = true ∧ st.n > 0
    · exact .inr ⟨lowered.2, if_pos lowered⟩
    · exact .inl (if_neg lowered)

/-- The count of a split stays `-1` or non-negative. -/
theorem counted_splitStep (st : SplitState β) (t : Token β) (counted : st.n = -1 ∨ 0 ≤ st.n) :
    (splitStep sep charge st t).n = -1 ∨ 0 ≤ (splitStep sep charge st t).n := by
  rcases n_splitStep sep charge st t with same | ⟨_, lowered⟩ <;> omega

theorem counted_foldl_splitStep (toks : List (Token β)) :
    ∀ st : SplitState β, (st.n = -1 ∨ 0 ≤ st.n) →
      (toks.foldl (splitStep sep charge) st).n = -1 ∨ 0 ≤ (toks.foldl (splitStep sep charge) st).n := by
  induction toks with
  | nil => exact fun _ counted => counted
  | cons t toks ih => exact fun st counted => ih _ (counted_splitStep sep charge st t counted)

/-- Characters at which the split does not cut only extend the piece being made. -/
theorem foldl_splitStep_plain (s : List Char) :
    ∀ {st : SplitState β}, (∀ c ∈ s, ¬(sep.contains c ∧ (st.n = -1 ∨ st.n > 1))) →
      (s.map .char).foldl (splitStep sep charge) st = ⟨st.n, st.ret, st.cur ++ s.map .char⟩ := by
  induction s with
  | nil => exact fun _ => by simp
  | cons c s ih =>
    intro st plain
    rw [List.map_cons, List.foldl_cons, splitStep, if_neg (plain c List.mem_cons_self),
      @ih ⟨st.n, st.ret, st.cur ++ [Token.char c]⟩ fun d mem => plain d (List.mem_cons_of_mem c mem)]
    simp

/-- Where `span` stops in `s`: a separator after a run of other characters, or nowhere. -/
theorem span_cases (s : List Char) :
    (∃ before c after, s.span (fun c => !sep.contains c) = (before, c :: after) ∧ s = before ++ c :: after ∧
      (∀ x ∈ before, sep.contains x = false) ∧ sep.contains c = true) ∨
    (∃ before, s.span (fun c => !sep.contains c) = (before, []) ∧ ∀ x ∈ s, sep.contains x = false) := by
  rw [List.span_eq_takeWhile_dropWhile]
  cases stop : s.dropWhile (fun c => !sep.contains c) with
  | nil =>
    refine .inr ⟨_, rfl, fun x mem => ?_⟩
    simpa using List.dropWhile_eq_nil_iff.mp stop x mem
  | cons c after =>
    have sepC : sep.contains c = true := by
      have head := List.head?_dropWhile_not (fun c => !sep.contains c) s
      rw [stop] at head
      simpa using head
    refine .inl ⟨_, c, after, rfl, ?_, fun x mem => ?_, sepC⟩
    · rw [← stop, List.takeWhile_append_dropWhile]
    · simpa using List.mem_takeWhile_imp mem

theorem splitAnyNLoop_acc (s : List Char) (n : Int) (fuel : Nat) :
    ∀ ret : List (List Char), splitAnyNLoop sep fuel ret s n = ret ++ splitAnyNLoop sep fuel [] s n := by
  induction fuel generalizing s n with
  | zero => intro ret; rfl
  | succ fuel ih =>
    intro ret
    rw [splitAnyNLoop, splitAnyNLoop]
    by_cases more : n = -1 ∨ n > 1
    · rw [if_pos more, if_pos more]
      rcases span_cases sep s with ⟨before, c, after, spanned, -⟩ | ⟨before, spanned, -⟩
      · simp only [spanned]
        rw [List.nil_append, ih after _ (ret ++ [before]), ih after _ [before], List.append_assoc]
      · simp only [spanned, List.nil_append]
    · rw [if_neg more, if_neg more, List.nil_append]

/-- `splitAnyN` returns at least one piece, and no more than a positive count. -/
theorem splitAnyNLoop_shape (fuel : Nat) :
    ∀ (s : List Char) (n : Int), splitAnyNLoop sep fuel [] s n ≠ [] ∧
      (1 ≤ n → ((splitAnyNLoop sep fuel [] s n).length : Int) ≤ n) := by
  induction fuel with
  | zero => intro s n; exact ⟨by simp [splitAnyNLoop], fun pos => by simpa [splitAnyNLoop] using pos⟩
  | succ fuel ih =>
    intro s n
    rw [splitAnyNLoop]
    by_cases more : n = -1 ∨ n > 1
    · rw [if_pos more]
      rcases span_cases sep s with ⟨before, c, after, spanned, -⟩ | ⟨before, spanned, -⟩
      · -- one piece, and the pieces of the rest under the lowered count
        simp only [spanned, List.nil_append]
        rw [splitAnyNLoop_acc sep after _ fuel [before]]
        refine ⟨by simp, fun pos => ?_⟩
        have lowered : (if n > 0 then n - 1 else n) = n - 1 := if_pos (by omega)
        have below := (ih after (n - 1)).2 (by omega)
        rw [lowered, List.length_append, List.length_singleton]
        push_cast
        omega
      · simp only [spanned]
        exact ⟨by simp, fun pos => by simpa using pos⟩
    · rw [if_neg more]
      exact ⟨by simp, fun pos => by simpa using pos⟩

/-- The characters of a raw string, split with a count left: the first piece `splitAnyN` makes
continues the current one, and each later one follows a cut. -/
theorem foldl_splitStep_chars :
    ∀ (fuel : Nat) (s : List Char), s.length < fuel → ∀ (st : SplitState β) (first : List Char)
      (others : List (List Char)), (st.n = -1 ∨ 1 ≤ st.n) → splitAnyNLoop sep fuel [] s st.n = first :: others →
      (s.map .char).foldl (splitStep sep charge) st = others.foldl SplitState.cut ⟨st.n, st.ret, st.cur ++ first.map .char⟩
  | 0, _, short, _, _, _, _, _ => absurd short (Nat.not_lt_zero _)
  | fuel + 1, s, short, st, first, others, counted, split => by
    rw [splitAnyNLoop] at split
    by_cases more : st.n = -1 ∨ st.n > 1
    · rw [if_pos more] at split
      rcases span_cases sep s with ⟨before, c, after, spanned, rfl, plain, sepC⟩ | ⟨before, spanned, plain⟩
      · -- a separator: cut there, and split the rest with the count lowered
        simp only [spanned] at split
        rw [splitAnyNLoop_acc, List.nil_append, List.singleton_append] at split
        obtain ⟨rfl, rest⟩ := List.cons.inj split
        have counted' : (if st.n > 0 then st.n - 1 else st.n) = -1 ∨ 1 ≤ (if st.n > 0 then st.n - 1 else st.n) := by
          split_ifs <;> omega
        obtain ⟨first', others', split'⟩ := List.exists_cons_of_ne_nil ((splitAnyNLoop_shape sep fuel after _).1)
        rw [split'] at rest
        subst rest
        have afterShort : after.length < fuel := by simp at short; omega
        rw [List.map_append, List.map_cons, List.foldl_append,
          foldl_splitStep_plain sep charge before fun x mem cuts => by
            rw [plain x mem] at cuts
            exact Bool.false_ne_true cuts.1,
          List.foldl_cons, splitStep,
          if_pos ⟨sepC, more⟩, foldl_splitStep_chars fuel after afterShort _ first' others' counted' split',
          List.foldl_cons]
        rfl
      · -- no separator: the string continues the piece
        simp only [spanned, List.nil_append] at split
        obtain ⟨rfl, rfl⟩ := List.cons.inj split
        rw [foldl_splitStep_plain sep charge _ fun x mem cuts => by
          rw [plain x mem] at cuts
          exact Bool.false_ne_true cuts.1, List.foldl_nil]
    · -- a count of one: no cut
      rw [if_neg more, List.nil_append] at split
      obtain ⟨rfl, rfl⟩ := List.cons.inj split
      rw [foldl_splitStep_plain sep charge _ fun x _ cuts => more cuts.2, List.foldl_nil]

end TokenSplit

section Spelled

variable (sep : List Char)

/-- The code's loop over the later pieces of a string spells the cuts of the split. -/
theorem foldl_cut_spelled {f : List (Parts β) × Parts β → List Char → List (Parts β) × Parts β}
    (cuts : ∀ ret cur r, f (ret, cur) r = (ret ++ [cur], Parts.simple r)) (others : List (List Char)) :
    ∀ st : SplitState β, others.foldl f (st.ret.map ofTokens, ofTokens st.cur) =
      ((others.foldl SplitState.cut st).ret.map ofTokens, ofTokens (others.foldl SplitState.cut st).cur) := by
  induction others with
  | nil => exact fun _ => rfl
  | cons r others ih =>
    intro st
    have cut : (st.ret.map ofTokens ++ [ofTokens st.cur], Parts.simple r) =
        ((st.cut r).ret.map ofTokens, ofTokens (st.cut r).cur) := by
      simp [SplitState.cut, ofTokens_chars]
    rw [List.foldl_cons, List.foldl_cons, cuts, cut, ih]

/-- The count after the cuts of one string: each lowers a positive count by one. -/
theorem n_foldl_cut (others : List (List Char)) :
    ∀ st : SplitState β, (st.n = -1 ∨ (others.length : Int) < st.n) →
      (others.foldl SplitState.cut st).n = if st.n = -1 then -1 else st.n - others.length := by
  induction others with
  | nil =>
    intro st _
    split_ifs with unlimited
    · exact unlimited
    · simp
  | cons r others ih =>
    intro st counted
    have cutN : (st.cut r).n = if st.n > 0 then st.n - 1 else st.n := rfl
    have lengths : ((r :: others).length : Int) = others.length + 1 := by simp
    rw [lengths] at counted ⊢
    rw [List.foldl_cons, ih (st.cut r) (by rw [cutN]; split_ifs <;> omega), cutN]
    split_ifs <;> omega

/-- One raw string of `splitNFunc` spells the split of its characters; the count it passes on is
the count after them, charged for the reference that follows. -/
theorem splitString_spelled (s : List Char) (st : SplitState β) (counted : st.n = -1 ∨ 0 ≤ st.n) :
    splitString (splitAnyN · sep ·) st.n s (st.ret.map ofTokens) (ofTokens st.cur) =
      pure (if ((s.map .char).foldl (splitStep sep true) st).n > 0 then ((s.map .char).foldl (splitStep sep true) st).n - 1
          else ((s.map .char).foldl (splitStep sep true) st).n,
        ((s.map .char).foldl (splitStep sep true) st).ret.map ofTokens,
        ofTokens ((s.map .char).foldl (splitStep sep true) st).cur) := by
  by_cases zero : st.n = 0
  · -- no count left: the string continues the piece
    have plain := @foldl_splitStep_plain β sep true s st fun c _ cuts => by
      have := cuts.2
      omega
    rw [splitString, if_neg (not_not.mpr zero), plain, ofTokens_append_chars]
    simp [zero]
  · obtain ⟨first, others, split⟩ := List.exists_cons_of_ne_nil ((splitAnyNLoop_shape sep (s.length + 1) s st.n).1)
    have counted' : st.n = -1 ∨ 1 ≤ st.n := by omega
    have fits : 1 ≤ st.n → (others.length : Int) + 1 ≤ st.n := by
      intro pos
      have pieces := (splitAnyNLoop_shape sep (s.length + 1) s st.n).2 pos
      rw [split, List.length_cons] at pieces
      push_cast at pieces
      exact pieces
    have noPanic : ¬(st.n ≠ -1 ∧ ((first :: others).length : Int) > st.n) := fun ⟨limited, tooMany⟩ => by
      rw [List.length_cons] at tooMany
      push_cast at tooMany
      have := fits (by omega)
      omega
    rw [splitString]
    simp only [splitAnyN, split]
    rw [if_pos zero, if_neg noPanic, ← ofTokens_append_chars]
    have spelled := foldl_cut_spelled (f := fun x r => (x.1 ++ [x.2], Parts.simple r)) (fun _ _ _ => rfl) others
      ⟨st.n, st.ret, st.cur ++ first.map Token.char⟩
    dsimp only at spelled
    have count := n_foldl_cut others ⟨st.n, st.ret, st.cur ++ first.map Token.char⟩ (by
      rcases counted' with unlimited | pos
      · exact .inl unlimited
      · exact .inr (show (others.length : Int) < st.n by have := fits pos; omega))
    dsimp only at count
    rw [spelled, foldl_splitStep_chars sep true (s.length + 1) s (Nat.lt_succ_self _) st first others counted' split,
      count]
    congr 2
    simp only [List.length_cons]
    split_ifs <;> push_cast <;> omega

theorem finish_spelled (st : SplitState β) :
    (if (ofTokens st.cur).empty then st.ret.map ofTokens else st.ret.map ofTokens ++ [ofTokens st.cur]) =
      st.finish.map ofTokens := by
  rw [empty_ofTokens, SplitState.finish]
  cases st.cur.isEmpty <;> simp

/-- `splitNFunc`'s loop from any point: it returns the split of the tokens left, spelled. -/
theorem splitNFuncLoop_spelled :
    ∀ (strings : List (List Char)) (vars : List β) (st : SplitState β),
      strings.length = vars.length + 1 → (st.n = -1 ∨ 0 ≤ st.n) →
      splitNFuncLoop (splitAnyN · sep ·) st.n strings vars (st.ret.map ofTokens) (ofTokens st.cur) =
        pure (((tokensOf strings vars).foldl (splitStep sep true) st).finish.map ofTokens)
  | [], _, _, formed, _ => absurd formed (by simp)
  | [s], [], st, _, counted => by
    rw [splitNFuncLoop, splitString_spelled sep s st counted, Outcome.pure_eq_ok, Outcome.ok_bind]
    simp only [tokensOf]
    exact congrArg pure (finish_spelled _)
  | [_], _ :: _, _, formed, _ => absurd formed (by simp)
  | _ :: _ :: _, [], _, formed, _ => absurd formed (by simp)
  | s :: s' :: rest, v :: vars, st, formed, counted => by
    rw [splitNFuncLoop, splitString_spelled sep s st counted, Outcome.pure_eq_ok, Outcome.ok_bind, tokensOf,
      List.foldl_append, List.foldl_cons]
    have countedAfter := counted_foldl_splitStep sep true (s.map Token.char) st counted
    generalize (s.map Token.char).foldl (splitStep sep true) st = st' at countedAfter ⊢
    -- the reference after the string, charged for a piece
    have charged : splitStep sep true st' (.var v) =
        ⟨if st'.n > 0 then st'.n - 1 else st'.n, st'.ret, st'.cur ++ [.var v]⟩ := by
      simp [splitStep]
    have next := splitNFuncLoop_spelled (s' :: rest) vars (splitStep sep true st' (.var v)) (by simpa using formed)
      (counted_splitStep sep true st' (.var v) countedAfter)
    rw [charged] at next ⊢
    dsimp only at next ⊢
    rw [← ofTokens_append_var, next]

/-- `splitNFunc` over `splitAnyN`, as `SplitN` calls it, for a count of `-1` or more: the split of
the token sequence in which each reference passed with a count left uses up a piece. -/
theorem splitNFunc_eq_tokenSplit (p : Parts β) {n : Int} (formed : p.strings.length = p.vars.length + 1)
    (counted : n = -1 ∨ 0 ≤ n) :
    splitNFunc p n (splitAnyN · sep ·) = pure ((tokenSplit sep true n (tokensOf p.strings p.vars)).map ofTokens) :=
  splitNFuncLoop_spelled sep p.strings p.vars ⟨n, [], []⟩ formed counted

/-- `SplitN(sep, n)` of a well-formed `MakeString`, for `n = -1` or `n ≥ 0`: the pieces of its token
sequence cut at the characters of `sep`, where each reference passed while the count is positive
uses up one piece as a cut does; each piece is spelled as a `MakeString` at the position of the
whole. -/
theorem splitN_eq_tokenSplit (ms : MakeString) {n : Int} (formed : ms.strings.length = ms.vars.length + 1)
    (counted : n = -1 ∨ 0 ≤ n) :
    ms.splitN sep n = pure ((tokenSplit sep true n (tokensOf ms.strings ms.vars)).map fun piece =>
      MakeString.mk ms.pos (ofTokens piece).strings (ofTokens piece).vars) := by
  rw [MakeString.splitN, splitNFunc_eq_tokenSplit sep _ formed counted, Outcome.pure_eq_ok, Outcome.ok_bind,
    List.map_map]
  rfl

end Spelled

/-- `a$(v)b c`: one reference between two raw strings, and a blank after it. -/
def straddling : MakeString := .mk 0 [['a'], ['b', ' ', 'c']] [.simple ['v'] 0]

/-- Split in two at blanks, `a$(v)b c` stays whole: the reference used up the second piece. The
split the count stands for cuts it at the blank. -/
theorem splitN_straddling :
    straddling.splitN [' '] 2 = pure [straddling] ∧
      tokenSplit [' '] false 2 (tokensOf straddling.strings straddling.vars) =
        [[.char 'a', .var (.simple ['v'] 0), .char 'b'], [.char 'c']] := by
  refine ⟨?_, by decide⟩
  rw [splitN_eq_tokenSplit [' '] straddling rfl (by decide)]
  decide

end Soong.Androidmk
