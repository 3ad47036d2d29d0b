import Soong.Androidmk.Parser
import Soong.Go.Strings

namespace Soong.Android

open Androidmk (isSpace)

/-- `strings.TrimSpace`: `s` without the white space at either end. -/
def trimSpace (s : List Char) : List Char :=
  ((s.dropWhile isSpace).reverse.dropWhile isSpace).reverse

/-- `getMapping` on the text `c :: rest` after a `$`: the value the `$` sequence stands for and
how many characters after the `$` it takes, less one. The value and width that Go returns beside
an error are left out, since `Expand` does not read them. -/
def getMapping (c : Char) (rest : List Char) (mapping : String → Except String String) :
    Except String (String × Nat) :=
  if c = '(' then
    -- scan to the closing brace
    match rest.span (· ≠ ')') with
    | (name, _ :: _) => (mapping (String.ofList (trimSpace name))).map fun ret => (ret, name.length + 2)
    | (_, []) => .error "missing )"
  else if c = '$' then .ok ("$$", 1)
  else if isSpace c then .error ("unexpected character '" ++ String.singleton c ++ "' after '$'")
  else
    .error ("expected '(' after '$', did you mean $(" ++
      String.ofList ((c :: rest).takeWhile fun x => !isSpace x) ++ ")?")

/-- The loop of `Expand`: `j` scans `s`, and `s[i:j]` is the text since the last `$` sequence,
not yet copied to `buf`. -/
def expandLoop (s : List Char) (mapping : String → Except String String) (i j : Nat) (buf : List Char) :
    Except String String :=
  if inside : j < s.length then
    if s[j] = '$' then
      if last : j + 1 ≥ s.length then .error "expected character after '$'"
      else
        match getMapping s[j + 1] (s.drop (j + 2)) mapping with
        | .error err => .error err
        | .ok (value, w) => expandLoop s mapping (j + w + 1) (j + w + 1) (buf ++ (s.drop i).take (j - i) ++ value.toList)
    else expandLoop s mapping i (j + 1) buf
  else .ok (String.ofList (buf ++ s.drop i))
termination_by s.length - j

/-- `android.Expand`, which replaces the `$(name)` references of a string through a mapping and
keeps `$$` as it is. Strings are lists of characters: `$`, `(` and `)` are single bytes, and no
byte of a multi-byte character is one of them, so the byte loop of the source and a loop over
characters take the same steps.

`Expand`. -/
def expand (s : String) (mapping : String → Except String String) : Except String String :=
  expandLoop s.toList mapping 0 0 []

/-- The texts `Expand` accepts, with what it makes of them: a character other than `$` stands
for itself, `$$` stays `$$`, and `$(name)`, with `name` free of `)`, stands for the value the
mapping gives the trimmed name. -/
inductive Expands (mapping : String → Except String String) : List Char → List Char → Prop where
  | nil : Expands mapping [] []
  | plain {c : Char} {rest out : List Char} : c ≠ '$' → Expands mapping rest out →
      Expands mapping (c :: rest) (c :: out)
  | dollar {rest out : List Char} : Expands mapping rest out →
      Expands mapping ('$' :: '$' :: rest) ('$' :: '$' :: out)
  | var {name rest out : List Char} {value : String} : ')' ∉ name →
      mapping (String.ofList (trimSpace name)) = .ok value → Expands mapping rest out →
      Expands mapping ('$' :: '(' :: (name ++ ')' :: rest)) (value.toList ++ out)

section Grammar

variable {mapping : String → Except String String}

theorem getMapping_dollar (rest : List Char) : getMapping '$' rest mapping = .ok ("$$", 1) := rfl

theorem getMapping_paren {name tail : List Char} (noClose : ')' ∉ name) :
    getMapping '(' (name ++ ')' :: tail) mapping =
      (mapping (String.ofList (trimSpace name))).map fun ret => (ret, name.length + 2) := by
  rw [getMapping, if_pos rfl, Go.Strings.span_ne_of_split rfl noClose]

/-- What `getMapping` succeeds on: `$` after the `$`, or `(` and a name up to the first `)`
that the mapping takes. -/
theorem getMapping_ok_cases {c : Char} {rest : List Char} {value : String} {w : Nat}
    (mapped : getMapping c rest mapping = .ok (value, w)) :
    (c = '$' ∧ value = "$$" ∧ w = 1) ∨
      (c = '(' ∧ ∃ name tail, ')' ∉ name ∧ rest = name ++ ')' :: tail ∧
        mapping (String.ofList (trimSpace name)) = .ok value ∧ w = name.length + 2) := by
  by_cases opening : c = '('
  · subst opening
    rcases Go.Strings.split_at_first rest ')' with absent | ⟨name, tail, noClose, rfl⟩
    · rw [getMapping, if_pos rfl, Go.Strings.span_ne_of_not_mem absent] at mapped
      cases mapped
    · rw [getMapping_paren noClose] at mapped
      cases named : mapping (String.ofList (trimSpace name)) with
      | error err => rw [named] at mapped; cases mapped
      | ok ret =>
        rw [named] at mapped
        obtain ⟨rfl, rfl⟩ := Prod.mk.inj (Except.ok.inj mapped)
        exact .inr ⟨rfl, name, tail, noClose, rfl, named, rfl⟩
  · by_cases escaped : c = '$'
    · subst escaped
      rw [getMapping_dollar] at mapped
      obtain ⟨rfl, rfl⟩ := Prod.mk.inj (Except.ok.inj mapped).symm
      exact .inl ⟨rfl, rfl, rfl⟩
    · rw [getMapping, if_neg opening, if_neg escaped] at mapped
      split at mapped <;> cases mapped

/-- `getMapping` takes at least the character after the `$` and no more than there is. -/
theorem getMapping_width {c : Char} {rest : List Char} {value : String} {w : Nat}
    (mapped : getMapping c rest mapping = .ok (value, w)) : 1 ≤ w ∧ w ≤ rest.length + 1 := by
  rcases getMapping_ok_cases mapped with ⟨-, -, rfl⟩ | ⟨-, name, tail, -, rfl, -, rfl⟩
  · omega
  · simp only [List.length_append, List.length_cons]
    omega

theorem expands_nil_iff {out : List Char} : Expands mapping [] out ↔ out = [] := by
  constructor
  · rintro ⟨⟩
    rfl
  · rintro rfl
    exact .nil

theorem expands_plain_iff {c : Char} (notDollar : c ≠ '$') {rest out : List Char} :
    Expands mapping (c :: rest) out ↔ ∃ out', Expands mapping rest out' ∧ out = c :: out' := by
  constructor
  · intro expands
    cases expands with
    | plain _ rest => exact ⟨_, rest, rfl⟩
    | dollar => exact absurd rfl notDollar
    | var => exact absurd rfl notDollar
  · rintro ⟨out', rest, rfl⟩
    exact .plain notDollar rest

theorem not_expands_dollar_last {out : List Char} : ¬Expands mapping ['$'] out := by
  intro expands
  cases expands with
  | plain notDollar => exact notDollar rfl

/-- A `$` sequence is what `getMapping` reads: the grammar's `$$` and `$(name)` are exactly its
successful cases, and the text after them is what it leaves. -/
theorem expands_dollar_iff {d : Char} {rest out : List Char} :
    Expands mapping ('$' :: d :: rest) out ↔
      ∃ value w, getMapping d rest mapping = .ok (value, w) ∧
        ∃ out', Expands mapping (rest.drop (w - 1)) out' ∧ out = value.toList ++ out' := by
  constructor
  · intro expands
    cases expands with
    | plain notDollar => exact absurd rfl notDollar
    | dollar after => exact ⟨"$$", 1, getMapping_dollar _, _, after, rfl⟩
    | @var name after out value noClose mapped later =>
      refine ⟨value, name.length + 2, ?_, out, by simpa using later, rfl⟩
      rw [getMapping_paren noClose, mapped]
      rfl
  · rintro ⟨value, w, mapped, out', later, rfl⟩
    rcases getMapping_ok_cases mapped with ⟨rfl, rfl, rfl⟩ | ⟨rfl, name, tail, noClose, rfl, named, rfl⟩
    · exact .dollar later
    · have after : (name ++ ')' :: tail).drop (name.length + 2 - 1) = tail := by simp
      rw [after] at later
      exact .var noClose named later

end Grammar

section Loop

variable (s : List Char) (mapping : String → Except String String)

/-- The pending text grows by the character the loop passes. -/
theorem take_drop_succ {i j : Nat} (ordered : i ≤ j) (inside : j < s.length) :
    (s.drop i).take (j + 1 - i) = (s.drop i).take (j - i) ++ [s[j]] := by
  rw [show j + 1 - i = j - i + 1 by omega, List.take_add_one, List.getElem?_drop,
    show i + (j - i) = j by omega, List.getElem?_eq_getElem inside]
  rfl

/-- From `j` on, the loop succeeds exactly on the texts the grammar derives from `s[j:]`; what
it returns is `buf`, the pending `s[i:j]`, and what the grammar makes of the rest. -/
theorem expandLoop_ok_iff (r : String) :
    ∀ n i j (buf : List Char), s.length - j = n → i ≤ j →
      (expandLoop s mapping i j buf = .ok r ↔
        ∃ out, Expands mapping (s.drop j) out ∧ r.toList = buf ++ (s.drop i).take (j - i) ++ out) := by
  intro n
  -- the induction is on the text left to scan, which every round shortens
  induction n using Nat.strong_induction_on with
  | _ n ih =>
  intro i j buf measure ordered
  by_cases inside : j < s.length
  · have atJ : s.drop j = s[j] :: s.drop (j + 1) := List.drop_eq_getElem_cons inside
    by_cases dollar : s[j] = '$'
    · by_cases last : j + 1 ≥ s.length
      · -- a `$` ends the text
        have rest : s.drop j = ['$'] := by rw [atJ, dollar, List.drop_eq_nil_of_le (by omega)]
        rw [expandLoop, dif_pos inside, if_pos dollar, dif_pos last, rest]
        constructor
        · nofun
        · rintro ⟨out, expands, -⟩
          exact absurd expands not_expands_dollar_last
      · have next : s.drop (j + 1) = s[j + 1] :: s.drop (j + 2) := List.drop_eq_getElem_cons (by omega)
        rw [expandLoop, dif_pos inside, if_pos dollar, dif_neg last, atJ, dollar, next]
        simp only [expands_dollar_iff]
        cases mapped : getMapping s[j + 1] (s.drop (j + 2)) mapping with
        | error err =>
          constructor
          · nofun
          · rintro ⟨out, ⟨value, w, ok, -⟩, -⟩
            cases ok
        | ok result =>
          -- the `$` sequence is copied out, and the loop goes on after it with nothing pending
          obtain ⟨value, w⟩ := result
          obtain ⟨wide, narrow⟩ := getMapping_width mapped
          have skip : s.drop (j + w + 1) = (s.drop (j + 2)).drop (w - 1) := by
            rw [List.drop_drop]
            congr 1
            omega
          dsimp only
          rw [ih (s.length - (j + w + 1)) (by simp at narrow; omega) (j + w + 1) (j + w + 1) _ rfl le_rfl, skip,
            Nat.sub_self, List.take_zero, List.append_nil]
          constructor
          · rintro ⟨out', expands, shape⟩
            exact ⟨value.toList ++ out', ⟨value, w, rfl, out', expands, rfl⟩, by rw [shape]; simp⟩
          · rintro ⟨out, ⟨value', w', same, out', expands, rfl⟩, shape⟩
            obtain ⟨rfl, rfl⟩ := Prod.mk.inj (Except.ok.inj same)
            exact ⟨out', expands, by rw [shape]; simp⟩
    · -- any other character joins the pending text
      rw [expandLoop, dif_pos inside, if_neg dollar, ih (s.length - (j + 1)) (by omega) i (j + 1) buf rfl (by omega),
        atJ, take_drop_succ s ordered inside]
      simp only [expands_plain_iff dollar]
      constructor
      · rintro ⟨out', expands, shape⟩
        exact ⟨s[j] :: out', ⟨out', expands, rfl⟩, by rw [shape]; simp⟩
      · rintro ⟨out, ⟨out', expands, rfl⟩, shape⟩
        exact ⟨out', expands, by rw [shape]; simp⟩
  · -- the end of the text: the pending text is the rest of `s`
    have done : s.drop j = [] := List.drop_eq_nil_of_le (by omega)
    have pending : (s.drop i).take (j - i) = s.drop i := List.take_of_length_le (by simp; omega)
    rw [expandLoop, dif_neg inside, done, pending]
    simp only [expands_nil_iff, exists_eq_left, List.append_nil]
    constructor
    · intro same
      rw [← Except.ok.inj same, String.toList_ofList]
    · intro shape
      rw [← shape, String.ofList_toList]

end Loop

/-- `Expand` succeeds exactly on the texts made of characters other than `$`, `$$`, and
`$(name)` with `name` free of `)` whose trimmed name the mapping takes; what it returns is the
characters, the `$$`s and the mapping's values in order. -/
theorem expand_eq_ok_iff (s : String) (mapping : String → Except String String) :
    (∀ r, expand s mapping = .ok r ↔ Expands mapping s.toList r.toList) ∧
      ((∃ r, expand s mapping = .ok r) ↔ ∃ out, Expands mapping s.toList out) := by
  have result : ∀ r, expand s mapping = .ok r ↔ Expands mapping s.toList r.toList := by
    intro r
    rw [expand, expandLoop_ok_iff s.toList mapping r _ 0 0 [] rfl le_rfl]
    simp
  refine ⟨result, ⟨fun ⟨r, ok⟩ => ⟨r.toList, (result r).mp ok⟩, fun ⟨out, expands⟩ => ?_⟩⟩
  exact ⟨String.ofList out, (result _).mpr (by rwa [String.toList_ofList])⟩

end Soong.Android
