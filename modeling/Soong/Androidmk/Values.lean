import Soong.Androidmk.Parser
import Soong.Go.Runtime

namespace Soong.Androidmk

open Go

/-- The panic of an index out of range. -/
def indexOutOfRange : String := "runtime error: index out of range"

section Split

/-- The raw strings of a `MakeString` and its references, of any kind `β`. -/
structure Parts (β : Type) where
  strings : List (List Char)
  vars : List β

namespace Parts

variable {β : Type}

def simple (s : List Char) : Parts β := ⟨[s], []⟩

/-- `appendString`: `s` continues the last string, or is the only one. -/
def appendString (p : Parts β) (s : List Char) : Parts β :=
  match p.strings with
  | [] => ⟨[s], p.vars⟩
  | strings => ⟨strings.dropLast ++ [strings.getLast! ++ s], p.vars⟩

/-- `appendVariable`: a reference, and an empty string after it. -/
def appendVariable (p : Parts β) (v : β) : Parts β :=
  match p.strings with
  | [] => ⟨[[], []], [v]⟩
  | strings => ⟨strings ++ [[]], p.vars ++ [v]⟩

def const (p : Parts β) : Bool := p.strings.length ≤ 1

def empty (p : Parts β) : Bool := p.strings == [] || p.strings == [[]]

end Parts

/-- The loop of `splitAnyN`: up to `n` pieces (all of them for `-1`) between the characters of
`sep`. Each round drops a character, so `s.length + 1` rounds are enough. -/
def splitAnyNLoop (sep : List Char) : Nat → List (List Char) → List Char → Int → List (List Char)
  | 0, ret, s, _ => ret ++ [s]
  | fuel + 1, ret, s, n =>
    if n = -1 ∨ n > 1 then
      match s.span (fun c => !sep.contains c) with
      | (before, _ :: after) => splitAnyNLoop sep fuel (ret ++ [before]) after (if n > 0 then n - 1 else n)
      | (_, []) => ret ++ [s]
    else ret ++ [s]

def splitAnyN (s sep : List Char) (n : Int) : List (List Char) := splitAnyNLoop sep (s.length + 1) [] s n

variable {β : Type}

/-- One string of the loop of `splitNFunc`: `n` counts down the pieces left to make. -/
def splitString (splitFunc : List Char → Int → List (List Char)) (n : Int) (s : List Char)
    (ret : List (Parts β)) (cur : Parts β) : Outcome (Int × List (Parts β) × Parts β) :=
  if n ≠ 0 then
    let split := splitFunc s n
    if n ≠ -1 ∧ split.length > n then .panic "oops!"
    else
      let n := if n ≠ -1 then n - split.length else n
      match split with
      | [] => .panic indexOutOfRange
      | first :: others =>
        let (ret, cur) := others.foldl (fun (ret, cur) r => (ret ++ [cur], Parts.simple r))
          (ret, cur.appendString first)
        pure (n, ret, cur)
  else pure (n, ret, cur.appendString s)

/-- The loop of `splitNFunc` over the strings, with the references between them. -/
def splitNFuncLoop (splitFunc : List Char → Int → List (List Char)) :
    Int → List (List Char) → List β → List (Parts β) → Parts β → Outcome (List (Parts β))
  | _, [], _, ret, cur => pure (if cur.empty then ret else ret ++ [cur])
  | n, s :: rest, vars, ret, cur => do
    let (n, ret, cur) ← splitString splitFunc n s ret cur
    match rest, vars with
    | [], _ => pure (if cur.empty then ret else ret ++ [cur])
    | _ :: _, v :: vars => splitNFuncLoop splitFunc n rest vars ret (cur.appendVariable v)
    | _ :: _, [] => .panic indexOutOfRange

/-- `splitNFunc`: the pieces of a string at the separators `splitFunc` finds in its raw
strings; a reference stays in its piece. -/
def splitNFunc (p : Parts β) (n : Int) (splitFunc : List Char → Int → List (List Char)) :
    Outcome (List (Parts β)) :=
  splitNFuncLoop splitFunc n p.strings p.vars [] (Parts.simple [])

/-- `SplitN(sep, n)`: every piece is at the position of the whole string. -/
def MakeString.splitN (ms : MakeString) (sep : List Char) (n : Int) : Outcome (List MakeString) := do
  let pieces ← splitNFunc ⟨ms.strings, ms.vars⟩ n (splitAnyN · sep ·)
  pure (pieces.map fun p => .mk ms.pos p.strings p.vars)

end Split

section Value

/-- What `androidmk` asks of a `Scope`: the value of a variable and the result of a function
registered with `SetFunc`. The scope it passes is never nil. -/
structure Scope where
  get : List Char → List Char
  call : List Char → List (List Char) → List (List Char)

/-- `functions`, in the order `init` sorts them into. -/
def functions : List (List Char) :=
  ["abspath", "addprefix", "addsuffix", "and", "basename", "call", "dir", "error", "eval", "file",
    "filter", "filter-out", "findstring", "firstword", "flavor", "foreach", "if", "info", "join",
    "lastword", "notdir", "or", "origin", "patsubst", "realpath", "shell", "sort", "strip", "subst",
    "suffix", "value", "warning", "wildcard", "word", "wordlist", "words"].map String.toList

/-- The scan of `isFunctionName` over a sorted list: it stops at the first name past `s`. -/
def isFunctionNameIn (s : List Char) : List (List Char) → Bool
  | [] => false
  | f :: rest => if s = f then true else if s < f then false else isFunctionNameIn s rest

def isFunctionName (s : List Char) : Bool := isFunctionNameIn s functions

/-- The loop of `MakeString.Value` after the first string, each reference with its value. -/
def valueLoop (ret : List Char) : List (List Char) → List (Outcome (List Char)) → Outcome (List Char)
  | [], _ => pure ret
  | _ :: _, [] => .panic indexOutOfRange
  | s :: rest, v :: vs => do
    let v ← v
    valueLoop (ret ++ v ++ unescape s) rest vs

/-- `MakeString.Value` of a string whose references have the values `p.vars`. -/
def Parts.value (p : Parts (Outcome (List Char))) : Outcome (List Char) :=
  match p.strings with
  | [] => pure []
  | first :: rest => valueLoop (unescape first) rest p.vars

/-- `EvalFunction` of a reference whose name has the parts `name`, with the values of the
references in it: the function's result, or `none` when the name is not a call of a Make
function. -/
def evalFunctionOf (scope : Scope) (name : Parts (Outcome (List Char))) :
    Outcome (Option (List (List Char))) := do
  match ← splitNFunc name 2 (splitAnyN · [' ', '\t'] ·) with
  | first :: second :: _ =>
    if first.const then
      -- `Value(nil)`: a string without references reads no scope
      let fname ← first.value
      if isFunctionName fname then
        let args ← splitNFunc second (-1) (splitAnyN · [','] ·)
        let argVals ← args.mapM Parts.value
        if fname = "call".toList then
          match argVals with
          | callee :: rest => pure (some (scope.call callee rest))
          | [] => .panic indexOutOfRange
        else
          pure (some ["__builtin_func:".toList ++ fname ++ [' '] ++ List.intercalate [' '] argVals])
      else pure none
    else pure none
  | _ => pure none

/-- `Variable.Value` of a reference whose name has the parts `name`. -/
def variableValueOf (scope : Scope) (name : Parts (Outcome (List Char))) : Outcome (List Char) := do
  match ← evalFunctionOf scope name with
  | some ret =>
    if ret.length > 1 then .panic "Expected a single value, but instead got a list"
    else
      match ret with
      | r :: _ => pure r
      | [] => .panic indexOutOfRange
  | none => do
    let n ← name.value
    pure (scope.get n)

mutual

/-- `Variable.Value` of the reference named `name`. -/
def variableValue (scope : Scope) : MakeString → Outcome (List Char)
  | .mk _ strings vars => variableValueOf scope ⟨strings, variableValues scope vars⟩

def variableValues (scope : Scope) : List MakeString → List (Outcome (List Char))
  | [] => []
  | v :: vs => variableValue scope v :: variableValues scope vs

end

/-- `EvalFunction` of the reference named `name`. -/
def evalFunction (scope : Scope) (name : MakeString) : Outcome (Option (List (List Char))) :=
  evalFunctionOf scope ⟨name.strings, variableValues scope name.vars⟩

end Value

section Blueprint

/-- `bpparser.Type`. -/
inductive ExprType where
  | string
  | list
  deriving DecidableEq, Repr

/-- The `bpparser` expressions `androidmk` builds. -/
inductive Expression where
  | string (value : List Char)
  | list (values : List Expression)
  | variable (name : List Char) (value : Expression)
  | operator (operator : Char) (arg1 arg2 : Expression)
  deriving Repr

namespace Expression

mutual

/-- Equality of expressions, by structure. -/
def decEq : (a b : Expression) → Decidable (a = b)
  | .string s, .string s' =>
    if same : s = s' then isTrue (by rw [same]) else isFalse fun eq => same (by injection eq)
  | .list vs, .list vs' =>
    match decEqList vs vs' with
    | isTrue same => isTrue (by rw [same])
    | isFalse other => isFalse fun eq => other (by injection eq)
  | .variable n v, .variable n' v' =>
    if sameName : n = n' then
      match decEq v v' with
      | isTrue same => isTrue (by rw [sameName, same])
      | isFalse other => isFalse fun eq => other (by injection eq)
    else isFalse fun eq => sameName (by injection eq)
  | .operator o a b, .operator o' a' b' =>
    if sameOp : o = o' then
      match decEq a a', decEq b b' with
      | isTrue sameA, isTrue sameB => isTrue (by rw [sameOp, sameA, sameB])
      | isFalse other, _ => isFalse fun eq => other (by injection eq)
      | _, isFalse other => isFalse fun eq => other (by injection eq)
    else isFalse fun eq => sameOp (by injection eq)
  | .string _, .list _ | .string _, .variable .. | .string _, .operator .. => isFalse nofun
  | .list _, .string _ | .list _, .variable .. | .list _, .operator .. => isFalse nofun
  | .variable .., .string _ | .variable .., .list _ | .variable .., .operator .. => isFalse nofun
  | .operator .., .string _ | .operator .., .list _ | .operator .., .variable .. => isFalse nofun

def decEqList : (as bs : List Expression) → Decidable (as = bs)
  | [], [] => isTrue rfl
  | a :: as, b :: bs =>
    match decEq a b, decEqList as bs with
    | isTrue sameHead, isTrue sameTail => isTrue (by rw [sameHead, sameTail])
    | isFalse otherHead, _ => isFalse fun same => otherHead (List.cons.inj same).1
    | _, isFalse otherTail => isFalse fun same => otherTail (List.cons.inj same).2
  | [], _ :: _ => isFalse nofun
  | _ :: _, [] => isFalse nofun

end

instance : DecidableEq Expression := decEq

end Expression

def Expression.type : Expression → ExprType
  | .string _ => .string
  | .list _ => .list
  | .variable _ value => value.type
  | .operator _ arg1 _ => arg1.type

def stringToStringValue (s : List Char) : Expression := .string s

/-- `addValues`: a nil first value gives the second. A string before a list is wrapped in a
list; after a list, the source wraps the list `val1` again, where `val2` was meant. -/
def addValues (val1 : Option Expression) (val2 : Expression) : Except String Expression :=
  match val1 with
  | none => .ok val2
  | some val1 =>
    if val1.type = .string ∧ val2.type = .list then .ok (.operator '+' (.list [val1]) val2)
    else if val2.type = .string ∧ val1.type = .list then .ok (.operator '+' val1 (.list [val1]))
    else if val1.type ≠ val2.type then .error "cannot add mismatched types"
    else .ok (.operator '+' val1 val2)

end Blueprint

section Translate

mutual

/-- `MakeString.Dump`, each reference as `$(name)`. -/
def MakeString.dump : MakeString → List Char
  | .mk _ [] _ => []
  | .mk _ (first :: rest) vars => first ++ MakeString.dumpLoop rest vars

def MakeString.dumpLoop : List (List Char) → List MakeString → List Char
  | s :: rest, v :: vars => "$(".toList ++ v.dump ++ [')'] ++ s ++ MakeString.dumpLoop rest vars
  | _, _ => []

end

/-- One reference of the loop of `makeToStringExpression` and the raw string after it: the
value so far and the string left to add. A function's result is added without looking at the
error of `addValues`; `$(TOP)` reads the first byte of the string after it. -/
def stringReference (ms : MakeString) (scope : Scope) (val : Option Expression) (v : MakeString)
    (s : List Char) : Outcome (Option Expression × List Char) := do
  match ← evalFunction scope v with
  | some ret =>
    if ret.length > 1 then .error (String.ofList ("Unexpected list value ".toList ++ ms.dump))
    else
      match ret with
      | r :: _ => pure ((addValues val (stringToStringValue r)).toOption, s)
      | [] => .panic indexOutOfRange
  | none =>
    if !v.const then .error (String.ofList ("Unsupported non-const variable name ".toList ++ v.dump))
    else
      let name := v.constValue
      if name = "TOP".toList then
        match s with
        | c :: rest => pure (val, if c = '/' then rest else '.' :: s)
        | [] => .panic indexOutOfRange
      else
        match addValues val (.variable name (.string [])) with
        | .ok e => pure (some e, s)
        | .error err => .error err

/-- The loop of `makeToStringExpression` over the references and the strings after them. -/
def makeToStringLoop (ms : MakeString) (scope : Scope) :
    List (List Char) → List MakeString → Option Expression → Outcome (Option Expression)
  | [], _, val => pure val
  | _ :: _, [], _ => .panic indexOutOfRange
  | s :: rest, v :: vars, val => do
    let (val, s) ← stringReference ms scope val v s
    if s ≠ [] then
      match addValues val (stringToStringValue s) with
      | .ok e => makeToStringLoop ms scope rest vars (some e)
      | .error err => .error err
    else makeToStringLoop ms scope rest vars val

/-- How `androidmk` turns a Make value into a Blueprint expression (`values.go`), with what it
reads of the parser's `MakeString`: `Split` and `SplitN` (`splitNFunc` over `splitAnyN`), and
the evaluation of a reference in a scope (`Variable.EvalFunction` and `Value`). A reference is
given by its name, and `splitNFunc` is written over references of any kind, so that the value of
a name can be computed from the values of the references in it. Go's runtime errors are panics of
the `Outcome`; the index and length in the text of an index panic are left out.

Blueprint's expressions are taken as its `parser` package defines them, with `Type` of a
variable the type of its value and of an operator the type of its first argument.

`makeToStringExpression`: `nil` for an empty value. -/
def makeToStringExpression (ms : MakeString) (scope : Scope) : Outcome (Option Expression) :=
  match ms.strings with
  | [] => .panic indexOutOfRange
  | first :: rest =>
    makeToStringLoop ms scope rest ms.vars (if first ≠ [] then some (stringToStringValue first) else none)

def stringListToStringValueList (list : List (List Char)) : List Expression := list.map stringToStringValue

/-- The lists `makeToListExpression` adds up, and the list it is filling. -/
structure ListState where
  listOfListValues : List Expression
  listValue : List Expression

/-- One field of `makeToListExpression`: a reference alone is spliced in, unless it is a
function call or `$(TOP)`; anything else is one string of the list. -/
def listField (scope : Scope) (st : ListState) (f : MakeString) : Outcome ListState := do
  match f.vars, f.strings.take 2 with
  | [v], [[], []] =>
    match ← evalFunction scope v with
    | some ret => pure { st with listValue := st.listValue ++ stringListToStringValueList ret }
    | none =>
      if !v.const then .error "unsupported non-const variable name"
      else if v.constValue = "TOP".toList then
        pure { st with listValue := st.listValue ++ [.string ['.']] }
      else
        let lists := if st.listValue.length > 0 then st.listOfListValues ++ [.list st.listValue]
          else st.listOfListValues
        pure ⟨lists ++ [.variable v.constValue (.list [])], []⟩
  | _, _ =>
    match ← makeToStringExpression f scope with
    | none => pure st
    | some s => pure { st with listValue := st.listValue ++ [s] }

/-- The sum of the lists, left to right. -/
def addListValues (val : Expression) : List Expression → Except String Expression
  | [] => .ok val
  | tmp :: rest => do
    let val ← addValues (some val) tmp
    addListValues val rest

/-- `makeToListExpression`: the words of the value, at blanks outside references. -/
def makeToListExpression (ms : MakeString) (scope : Scope) : Outcome Expression := do
  let fields ← ms.splitN [' ', '\t'] (-1)
  let st ← fields.foldlM (listField scope) ⟨[], []⟩
  let lists := if st.listValue.length > 0 then st.listOfListValues ++ [.list st.listValue]
    else st.listOfListValues
  match lists with
  | [] => pure (.list st.listValue)
  | first :: rest =>
    match addListValues first rest with
    | .ok val => pure val
    | .error err => .error err

end Translate

section Meaning

/-- A piece of a Blueprint string as `androidmk` means it: a character, or a variable, which
stays opaque. -/
inductive Atom where
  | char (c : Char)
  | ref (name : List Char)
  deriving DecidableEq, Repr

/-- What a string expression stands for, with `+` as concatenation. -/
def Expression.text : Expression → List Atom
  | .string s => s.map .char
  | .list _ => []
  | .variable name _ => [.ref name]
  | .operator _ a b => a.text ++ b.text

/-- The text of a value being built; `nil` is empty. -/
def textOf (val : Option Expression) : List Atom := (val.map Expression.text).getD []

@[simp] theorem textOf_none : textOf none = [] := rfl

end Meaning

section Top

theorem stringReference_ok_congr {ms ms' : MakeString} {scope : Scope} {val : Option Expression}
    {v : MakeString} {s : List Char} {result : Option Expression × List Char}
    (ok : stringReference ms scope val v s = .ok result) : stringReference ms' scope val v s = .ok result := by
  unfold stringReference at ok ⊢
  cases eval : evalFunction scope v with
  | error e =>
    rw [eval] at ok
    cases ok
  | panic p =>
    rw [eval] at ok
    cases ok
  | ok found =>
    rw [eval, Outcome.ok_bind] at ok
    rw [Outcome.ok_bind]
    cases found with
    | none => exact ok
    | some ret =>
      dsimp only at ok ⊢
      -- only the text of the error of a longer result names the whole value
      split_ifs at ok ⊢
      exact ok

/-- The loop reads the whole value only for the text of an error. -/
theorem makeToStringLoop_ok_congr {ms ms' : MakeString} {scope : Scope} :
    ∀ (ss : List (List Char)) (vs : List MakeString) (val val' : Option Expression),
      makeToStringLoop ms scope ss vs val = .ok val' → makeToStringLoop ms' scope ss vs val = .ok val'
  | [], _, _, _, ok => ok
  | _ :: _, [], _, _, ok => by cases ok
  | s :: rest, v :: vars, val, val', ok => by
    obtain ⟨⟨val₁, s₁⟩, step, later⟩ := Outcome.bind_eq_ok ok
    rw [makeToStringLoop, stringReference_ok_congr step, Outcome.ok_bind]
    dsimp only at later ⊢
    split_ifs at later ⊢
    · cases added : addValues val₁ (stringToStringValue s₁) with
      | error err =>
        rw [added] at later
        cases later
      | ok e =>
        rw [added] at later
        exact makeToStringLoop_ok_congr rest vars (some e) val' later
    · exact makeToStringLoop_ok_congr rest vars val₁ val' later

/-- The loop over one more reference and string goes on from where the shorter loop ends. -/
theorem makeToStringLoop_append {ms : MakeString} {scope : Scope} (s : List Char) (v : MakeString) :
    ∀ (ss : List (List Char)) (vs : List MakeString) (val : Option Expression), ss.length = vs.length →
      makeToStringLoop ms scope (ss ++ [s]) (vs ++ [v]) val =
        makeToStringLoop ms scope ss vs val >>= makeToStringLoop ms scope [s] [v]
  | [], [], _, _ => rfl
  | [], _ :: _, _, lengths => by simp at lengths
  | _ :: _, [], _, lengths => by simp at lengths
  | s' :: rest, v' :: vars, val, lengths => by
    have shorter : rest.length = vars.length := by simpa using lengths
    rw [List.cons_append, List.cons_append, makeToStringLoop, makeToStringLoop, Outcome.bind_assoc]
    congr 1
    funext step
    obtain ⟨val₁, s₁⟩ := step
    dsimp only
    split_ifs
    · cases addValues val₁ (stringToStringValue s₁) with
      | ok e => exact makeToStringLoop_append s v rest vars (some e) shorter
      | error err => rfl
    · exact makeToStringLoop_append s v rest vars val₁ shorter

/-- `$(TOP)` reads the first byte of the string after it, also when there is none. -/
theorem stringReference_top_nil (ms : MakeString) (scope : Scope) (val : Option Expression) (namePos : Int) :
    stringReference ms scope val (.simple "TOP".toList namePos) [] = .panic indexOutOfRange := rfl

/-- A value that ends in `$(TOP)` makes `makeToStringExpression` panic whenever the value before
it translates: `$(TOP)` reads the first byte of the empty string after it. -/
theorem makeToStringExpression_appendVariable_top {ms : MakeString} {scope : Scope} {val : Option Expression}
    (wellFormed : ms.strings.length = ms.vars.length + 1) (ok : makeToStringExpression ms scope = .ok val)
    (namePos : Int) :
    makeToStringExpression (ms.appendVariable (.simple "TOP".toList namePos)) scope = .panic indexOutOfRange := by
  obtain ⟨pos, strings, vars⟩ := ms
  cases strings with
  | nil => cases ok
  | cons first rest =>
    have lengths : rest.length = vars.length := by simpa [MakeString.strings, MakeString.vars] using wellFormed
    -- the loop reaches `$(TOP)` with the value it makes of `ms`
    have before := @makeToStringLoop_ok_congr (.mk pos (first :: rest) vars)
      ((MakeString.mk pos (first :: rest) vars).appendVariable (.simple "TOP".toList namePos)) scope rest vars _ val ok
    show makeToStringLoop _ scope (rest ++ [[]]) (vars ++ [.simple "TOP".toList namePos]) _ = _
    rw [makeToStringLoop_append [] _ rest vars _ lengths, before, Outcome.ok_bind, makeToStringLoop,
      stringReference_top_nil, Outcome.panic_bind]

theorem makeToStringExpression_top_panics (scope : Scope) (pos namePos : Int) :
    makeToStringExpression ((MakeString.simple [] pos).appendVariable (.simple "TOP".toList namePos)) scope =
      .panic indexOutOfRange :=
  makeToStringExpression_appendVariable_top rfl rfl namePos

end Top

end Soong.Androidmk
