import Mathlib

namespace Soong.Androidmk

/-- The tokens of `text/scanner` the parser compares `p.tok` with. -/
inductive Tok where
  | ident
  | eof
  | char (ch : Char)
  deriving DecidableEq, Repr

/-- `string(p.tok)`: `Ident` and `EOF` are negative runes, which convert to U+FFFD. -/
def Tok.string : Tok → List Char
  | .char ch => [ch]
  | _ => ['\uFFFD']

def isWhitespace (ch : Char) : Bool := ch == ' ' || ch == '\t' || ch == '\n'

/-- The `IsIdentRune` that `NewParser` installs. -/
def isIdentRune (ch : Char) : Bool :=
  ch.toNat != 0 && ch != ':' && ch != '#' && ch != '=' && ch != '+' && ch != '$' &&
    ch != '\\' && ch != '(' && ch != ')' && ch != '{' && ch != '}' && ch != ';' &&
    ch != '|' && ch != '?' && ch != '\r' && !isWhitespace ch

/-- One `Scan` from the lookahead on: the token, its text and the input after it. With
`ScanIdents` an identifier is a maximal run of identifier characters; every other character,
and every character without `ScanIdents`, is a token of its own. `Whitespace` is 0, so
nothing is skipped. -/
def scan (scanIdents : Bool) : List Char → Tok × List Char × List Char
  | [] => (.eof, [], [])
  | ch :: rest =>
    if scanIdents && isIdentRune ch then
      (.ident, ch :: rest.takeWhile isIdentRune, rest.dropWhile isIdentRune)
    else (.char ch, [ch], rest)

/-- `unicode.IsSpace`. -/
def isSpace (ch : Char) : Bool :=
  ch == '\t' || ch == '\n' || ch == '\x0b' || ch == '\x0c' || ch == '\r' || ch == ' ' ||
    ch.toNat == 0x85 || ch.toNat == 0xA0 || ch.toNat == 0x1680 ||
    (0x2000 ≤ ch.toNat && ch.toNat ≤ 0x200A) || ch.toNat == 0x2028 || ch.toNat == 0x2029 ||
    ch.toNat == 0x202F || ch.toNat == 0x205F || ch.toNat == 0x3000

/-- A `MakeString`: raw strings alternating with variable references, each reference given by
its `Name`. -/
inductive MakeString where
  | mk (pos : Int) (strings : List (List Char)) (vars : List MakeString)
  deriving Repr

namespace MakeString

mutual

/-- Equality of `MakeString`s, by structure. -/
def decEq : (a b : MakeString) → Decidable (a = b)
  | mk pos strings vars, mk pos' strings' vars' =>
    if samePos : pos = pos' then
      if sameStrings : strings = strings' then
        match decEqList vars vars' with
        | isTrue sameVars => isTrue (by rw [samePos, sameStrings, sameVars])
        | isFalse otherVars => isFalse fun same => otherVars (by injection same)
      else isFalse fun same => sameStrings (by injection same)
    else isFalse fun same => samePos (by injection same)

def decEqList : (as bs : List MakeString) → Decidable (as = bs)
  | [], [] => isTrue rfl
  | a :: as, b :: bs =>
    match decEq a b, decEqList as bs with
    | isTrue sameHead, isTrue sameTail => isTrue (by rw [sameHead, sameTail])
    | isFalse otherHead, _ => isFalse fun same => otherHead (List.cons.inj same).1
    | _, isFalse otherTail => isFalse fun same => otherTail (List.cons.inj same).2
  | [], _ :: _ => isFalse nofun
  | _ :: _, [] => isFalse nofun

end

instance : DecidableEq MakeString := decEq

def pos : MakeString → Int
  | mk pos _ _ => pos

def strings : MakeString → List (List Char)
  | mk _ strings _ => strings

def vars : MakeString → List MakeString
  | mk _ _ vars => vars

/-- `SimpleMakeString`. -/
def simple (s : List Char) (pos : Int) : MakeString := mk pos [s] []

/-- `ms.Strings[len(ms.Strings)-1] += s`, or `[s]` when there is no string. -/
def appendString (ms : MakeString) (s : List Char) : MakeString :=
  match ms with
  | mk pos [] vars => mk pos [s] vars
  | mk pos strings vars => mk pos (strings.dropLast ++ [strings.getLast! ++ s]) vars

def appendVariable (ms : MakeString) (v : MakeString) : MakeString :=
  match ms with
  | mk pos [] _ => mk pos [[], []] [v]
  | mk pos strings vars => mk pos (strings ++ [[]]) (vars ++ [v])

/-- `appendMakeString`: the first string of `other` continues the last one of `ms`. -/
def appendMakeString (ms other : MakeString) : MakeString :=
  match other.strings with
  | [] => ms
  | first :: rest => mk ms.pos ((ms.appendString first).strings ++ rest) (ms.vars ++ other.vars)

def const (ms : MakeString) : Bool := ms.strings.length ≤ 1

def empty (ms : MakeString) : Bool := ms.strings == [] || ms.strings == [[]]

/-- `TrimLeftSpaces` moves `StringPos` by the change in length, backwards. -/
def trimLeftSpaces (ms : MakeString) : MakeString :=
  match ms with
  | mk pos (first :: rest) vars =>
    mk (pos + ((first.dropWhile isSpace).length - first.length : Int)) (first.dropWhile isSpace :: rest) vars
  | ms => ms

def trimRightSpaces (ms : MakeString) : MakeString :=
  match ms with
  | mk pos strings vars =>
    mk pos (strings.dropLast ++ strings.getLast?.toList.map fun s => (s.reverse.dropWhile isSpace).reverse)
      vars

/-- `TrimRightOne` drops the last byte only from a last string longer than one. -/
def trimRightOne (ms : MakeString) : MakeString :=
  match ms with
  | mk pos strings vars =>
    mk pos (strings.dropLast ++ strings.getLast?.toList.map fun s => if 1 < s.length then s.dropLast else s)
      vars

/-- `EndsWith`: reading the last byte of an empty last string is out of range. -/
def endsWith (ms : MakeString) (ch : Char) : Option Bool :=
  match ms.strings.getLast? with
  | some (s@(_ :: _)) => some (s.getLast! == ch)
  | _ => none

end MakeString

/-- `splitWords` with `n = -1`: the words between unescaped blanks, a blank escaped by an odd
number of backslashes staying in its word; `preserve` holds the part of a word before such a
blank. Each round drops a character, so `s.length + 1` rounds are enough. -/
def splitWordsLoop : Nat → List (List Char) → List Char → List Char → List (List Char)
  | 0, ret, preserve, s => ret ++ [preserve ++ s]
  | fuel + 1, ret, preserve, s =>
    match s.span (fun c => c != ' ' && c != '\t') with
    | (_, []) => if preserve != [] || s != [] || ret == [] then ret ++ [preserve ++ s] else ret
    | (before, sep :: after) =>
      if before = [] ∧ preserve = [] then splitWordsLoop fuel ret preserve after
      else if (before.reverse.takeWhile (· == '\\')).length % 2 = 1 then
        splitWordsLoop fuel ret (preserve ++ before ++ [sep]) after
      else splitWordsLoop fuel (ret ++ [preserve ++ before]) [] after

def splitWords (s : List Char) : List (List Char) := splitWordsLoop (s.length + 1) [] [] s

/-- `unescape`, one backslash at a time: a backslash before one of the listed characters is
dropped, any other one kept with the character after it. -/
def unescape : List Char → List Char
  | '\\' :: c :: rest =>
    (if c ∈ [' ', '\\', '#', ':', '*', '[', '|', '\t', '\n', '\r'] then [c] else ['\\', c]) ++ unescape rest
  | c :: rest => c :: unescape rest
  | [] => []

namespace MakeString

/-- `splitNFunc(-1, splitWords)`: a word may run over a variable reference. -/
def wordsLoop (pos : Int) : List (List Char) → List MakeString → MakeString → List MakeString →
    List MakeString
  | [], _, cur, ret => if cur.empty then ret else ret ++ [cur]
  | s :: rest, vars, cur, ret =>
    let split := splitWords s
    let cur := cur.appendString split.head!
    let (ret, cur) := split.tail.foldl (fun (ret, cur) r => (ret ++ [cur], simple r pos)) (ret, cur)
    match rest, vars with
    | _ :: _, v :: vs => wordsLoop pos rest vs (cur.appendVariable v) ret
    | _, _ => wordsLoop pos rest [] cur ret

def words (ms : MakeString) : List MakeString :=
  wordsLoop ms.pos ms.strings ms.vars (simple [] ms.pos) []

/-- `Value(nil)` of a string with no variable reference, the only kind `makedeps` evaluates. -/
def constValue (ms : MakeString) : List Char :=
  match ms.strings with
  | s :: _ => unescape s
  | [] => []

end MakeString

/-- `toVariable`: the reference a string consists of alone. -/
def toVariable (ms : MakeString) : Option MakeString :=
  match ms.strings, ms.vars with
  | [[], []], [v] => some v
  | _, _ => none

/-- The errors `errorf` records, with the values their texts print; the scanner's report of a
NUL goes through `errorf` too. -/
inductive ParseErr where
  | invalidNul
  | expected (want found : Tok)
  | equalsAfterQuestion
  | equalsAfterPlus
  | directiveRuleOrAssignment (ident : MakeString)
  | assignmentOrRule (text : List Char)
  | escapedCharacter (found : Tok)
  | eofInDefine
  | closingParen (value : MakeString)
  | variableName (found : Tok)
  | afterPrerequisites (found : Tok)
  deriving DecidableEq, Repr

/-- The nodes of a parse. `EndPos` and `RecipePos`, which only feed `End()`, are left out. -/
inductive Node where
  | assignment (target : Option MakeString) (name value : MakeString) (type : List Char)
  | comment (pos : Int) (comment : List Char)
  | directive (namePos : Int) (name : List Char) (args : MakeString)
  | rule (target prerequisites : MakeString) (recipe : List Char)
  | variable (name : MakeString)
  deriving DecidableEq, Repr

def Node.pos : Node → Int
  | .assignment (some target) .. => target.pos
  | .assignment none name .. => name.pos
  | .comment pos _ => pos
  | .directive namePos .. => namePos
  | .rule target .. => target.pos
  | .variable name => name.pos

/-- The makefile parser of `androidmk/parser` as `makedeps.Parse` runs it: the `text/scanner`
configured by `NewParser`, the parser's loops over its tokens, and the `MakeString` operations
they use. Strings of the parser are lists of characters. The scanner reports positions as byte
offsets and the model as character offsets, which order the nodes the same way; line and
column numbers, which only feed the text of errors, are left out. Every loop takes a fuel
argument and fails with `outOfFuel` when it runs out: each round consumes a token, so the fuel
`parse` gives is never used up.

The state of a `parser`: the scanner's lookahead and the input after it, its mode, the
current token, and what the parser has collected. -/
structure Parser where
  src : List Char
  offset : Int
  scanIdents : Bool
  tok : Tok
  tokenText : List Char
  tokPos : Int
  errors : List ParseErr
  comments : List Node
  nodes : List Node

/-- Why a parse stops early: `errTooManyErrors`, which `Parse` recovers; the runtime panic of
`EndsWith` on an empty string; or the model's fuel. -/
inductive Abort where
  | tooManyErrors
  | indexOutOfRange
  | outOfFuel
  deriving DecidableEq, Repr

abbrev ParseM := StateT Parser (Except Abort)

def maxErrors : Nat := 100

def errorf (err : ParseErr) : ParseM Unit := do
  let p ← get
  set { p with errors := p.errors ++ [err] }
  if maxErrors ≤ p.errors.length + 1 then throw .tooManyErrors

/-- One `Scan`; a NUL read into the lookahead after the token is reported. -/
def scanOnce : ParseM Unit := do
  let p ← get
  let (tok, text, rest) := scan p.scanIdents p.src
  set { p with
    tok := tok
    tokenText := text
    tokPos := p.offset
    src := rest
    offset := p.offset + text.length }
  if rest.head? = some '\x00' then errorf .invalidNul

def skipCarriageReturns : Nat → ParseM Unit
  | 0 => throw .outOfFuel
  | fuel + 1 => do
    if (← get).tok = .char '\r' then
      scanOnce
      skipCarriageReturns fuel

/-- `next`: the token after the current one, `'\r'` tokens skipped; `EOF` stays. -/
def next : ParseM Unit := do
  if (← get).tok ≠ .eof then
    scanOnce
    skipCarriageReturns ((← get).src.length + 1)

def accept (tok : Tok) : ParseM Unit := do
  let p ← get
  if p.tok ≠ tok then errorf (.expected tok p.tok) else next

/-- `parseEscape`: the token after a backslash is scanned without `ScanIdents`, so it is one
character. -/
def parseEscape : ParseM Unit := do
  modify fun p => { p with scanIdents := false }
  accept (.char '\\')
  modify fun p => { p with scanIdents := true }

def ignoreSpaces : Nat → ParseM Unit
  | 0 => throw .outOfFuel
  | fuel + 1 => do
    let p ← get
    if p.tok = .char ' ' ∨ p.tok = .char '\t' then
      accept p.tok
      ignoreSpaces fuel

def ignoreWhitespace : Nat → ParseM Unit
  | 0 => throw .outOfFuel
  | fuel + 1 => do
    let p ← get
    if p.tok = .char ' ' ∨ p.tok = .char '\t' ∨ p.tok = .char '\n' then
      accept p.tok
      ignoreWhitespace fuel

/-- The loop of `parseComment`. A backslash does not continue a comment over a newline. -/
def commentLoop : Nat → List Char → ParseM (List Char)
  | 0, _ => throw .outOfFuel
  | fuel + 1, comment => do
    let p ← get
    match p.tok with
    | .char '\\' =>
      parseEscape
      let q ← get
      if q.tok = .char '\n' then
        accept q.tok
        pure (comment ++ ['\\'])
      else
        accept q.tok
        commentLoop fuel (comment ++ '\\' :: q.tokenText)
    | .char '\n' => do
      accept (.char '\n')
      pure comment
    | .eof => pure comment
    | tok => do
      accept tok
      commentLoop fuel (comment ++ p.tokenText)

def parseComment (fuel : Nat) : ParseM Unit := do
  let pos := (← get).tokPos
  accept (.char '#')
  let comment ← commentLoop fuel []
  modify fun p => { p with comments := p.comments ++ [.comment pos comment] }

/-- The end of `parseExpression` after its loop. -/
def closeExpression (parens : Nat) (value : MakeString) : ParseM MakeString := do
  if 0 < parens then errorf (.closingParen value)
  pure value

/-- What `parseVariable` returns: the shared `builtinDollarName` of `$$`, or a reference by its
name. A `$` at the end of the input gets a nil name, kept as an empty one: an error is
recorded with it, so `makedeps` never reads it. -/
inductive ParsedVariable where
  | builtinDollar
  | named (name : MakeString)

def variableNameEndRunes : List Char := [':', '=', '#', ')', '}', ' ', '\t', '\n']

mutual

/-- `parseExpression(end...)`; a `)` among the end runes makes parentheses nest. -/
def parseExpression : Nat → List Char → ParseM MakeString
  | 0, _ => throw .outOfFuel
  | fuel + 1, ends => do
    let value := MakeString.simple [] (← get).tokPos
    expressionLoop fuel ends (ends.contains ')') 0 value

/-- The loop of `parseExpression`. -/
def expressionLoop : Nat → List Char → Bool → Nat → MakeString → ParseM MakeString
  | 0, _, _, _, _ => throw .outOfFuel
  | fuel + 1, ends, endParen, parens, value => do
    let p ← get
    if endParen && 0 < parens && p.tok == .char ')' then
      accept (.char ')')
      expressionLoop fuel ends endParen (parens - 1) (value.appendString [')'])
    else if ends.any (fun r => p.tok == .char r) then closeExpression parens value
    else
      match p.tok with
      | .char '\n' => closeExpression parens value
      | .ident => do
        accept .ident
        expressionLoop fuel ends endParen parens (value.appendString p.tokenText)
      | .char '\\' => do
        parseEscape
        let q ← get
        match q.tok with
        | .char '\n' => do
          accept q.tok
          expressionLoop fuel ends endParen parens (value.appendString [' '])
        -- an escape at the end returns without the check for open parentheses
        | .eof => do
          errorf (.escapedCharacter .eof)
          pure value
        | tok => do
          accept tok
          expressionLoop fuel ends endParen parens (value.appendString ('\\' :: tok.string))
      | .char '#' => do
        parseComment fuel
        closeExpression parens value
      | .char '$' => do
        match (← parseVariable fuel) with
        | .builtinDollar => expressionLoop fuel ends endParen parens (value.appendString ['$'])
        | .named name => expressionLoop fuel ends endParen parens (value.appendVariable name)
      | .eof => closeExpression parens value
      | .char '(' => do
        accept (.char '(')
        expressionLoop fuel ends endParen (if endParen then parens + 1 else parens)
          (value.appendString ['('])
      | tok => do
        accept tok
        expressionLoop fuel ends endParen parens (value.appendString p.tokenText)

def parseVariable : Nat → ParseM ParsedVariable
  | 0 => throw .outOfFuel
  | fuel + 1 => do
    accept (.char '$')
    let p ← get
    match p.tok with
    | .char '(' => parseBracketedVariable fuel '(' ')'
    | .char '{' => parseBracketedVariable fuel '{' '}'
    | .char '$' => do
      accept p.tok
      pure .builtinDollar
    | .eof => do
      errorf (.variableName .eof)
      pure (.named (MakeString.simple [] p.tokPos))
    | _ => do
      let name ← parseExpression fuel variableNameEndRunes
      pure (.named name)

def parseBracketedVariable : Nat → Char → Char → ParseM ParsedVariable
  | 0, _, _ => throw .outOfFuel
  | fuel + 1, start, close => do
    accept (.char start)
    let name ← parseExpression fuel [close]
    accept (.char close)
    pure (.named name)

end

/-- Out of fuel, the loop of `parseExpression` fails before it reads a token. -/
theorem expressionLoop_zero (ends : List Char) (endParen : Bool) (parens : Nat) (value : MakeString) :
    expressionLoop 0 ends endParen parens value = throw .outOfFuel := by
  rw [expressionLoop]

/-- The loop of `parseDefine`, up to `endef`. -/
def defineLoop : Nat → MakeString → ParseM MakeString
  | 0, _ => throw .outOfFuel
  | fuel + 1, value => do
    let p ← get
    match p.tok with
    | .ident => do
      accept .ident
      if p.tokenText = "endef".toList then pure (value.appendString p.tokenText)
      else defineLoop fuel (value.appendString p.tokenText)
    | .char '\\' => do
      parseEscape
      let q ← get
      match q.tok with
      | .char '\n' => do
        accept q.tok
        defineLoop fuel (value.appendString [' '])
      | .eof => do
        errorf (.escapedCharacter .eof)
        pure value
      | tok => do
        accept tok
        defineLoop fuel (value.appendString ('\\' :: tok.string))
    | .eof => do
      errorf .eofInDefine
      pure value
    | tok => do
      accept tok
      defineLoop fuel (value.appendString p.tokenText)

/-- The `directives` the parser knows; `isDirective`'s search of the sorted array is a test of
membership. -/
def directives : List (List Char) :=
  ["define", "else", "endef", "endif", "ifdef", "ifeq", "ifndef", "ifneq", "include",
    "-include"].map String.toList

/-- `parseDirective`: whether the current token starts a directive, which it then parses. -/
def parseDirective (fuel : Nat) : ParseM Bool := do
  let p ← get
  if p.tok ≠ .ident ∨ p.tokenText ∉ directives then pure false
  else
    accept .ident
    let expression ←
      if p.tokenText ∈ ["endif", "endef", "else"].map String.toList then pure (MakeString.simple [] p.tokPos)
      else if p.tokenText = "define".toList then do
        let value := MakeString.simple [] (← get).tokPos
        defineLoop fuel value
      else do
        ignoreSpaces fuel
        parseExpression fuel []
    modify fun q => { q with nodes := q.nodes ++ [.directive p.tokPos p.tokenText expression] }
    pure true

/-- `parseAssignment`; testing for a trailing `+` panics on an empty last string. -/
def parseAssignment (fuel : Nat) (t : List Char) (target : Option MakeString) (ident : MakeString) :
    ParseM Unit := do
  accept (.char '=')
  let value := (← parseExpression fuel []).trimLeftSpaces
  let some endsWithPlus := ident.endsWith '+' | throw .indexOutOfRange
  let (ident, t) := if endsWithPlus ∧ t = "=".toList then (ident.trimRightOne, "+=".toList) else (ident, t)
  modify fun p => { p with nodes := p.nodes ++ [.assignment target ident.trimRightSpaces value t] }

/-- `parseRulePrerequisites`: the prerequisites, `none` for a target-specific assignment, and
whether the line has ended. -/
def parseRulePrerequisites (fuel : Nat) (target : MakeString) : ParseM (Option MakeString × Bool) := do
  ignoreSpaces fuel
  let prerequisites ← parseExpression fuel ['#', '\n', ';', ':', '=']
  match (← get).tok with
  | .char '\n' => do
    accept (.char '\n')
    pure (some prerequisites, true)
  | .char '#' => do
    parseComment fuel
    pure (some prerequisites, true)
  | .char ';' => do
    accept (.char ';')
    pure (some prerequisites, false)
  | .char ':' => do
    accept (.char ':')
    if (← get).tok = .char '=' then do
      parseAssignment fuel ":=".toList (some target) prerequisites
      pure (none, true)
    else do
      let more ← parseExpression fuel ['#', '\n', ';']
      pure (some (prerequisites.appendMakeString more), false)
  | .char '=' => do
    parseAssignment fuel "=".toList (some target) prerequisites
    pure (none, true)
  | .eof => pure (some prerequisites, false)
  | tok => do
    errorf (.afterPrerequisites tok)
    pure (some prerequisites, false)

/-- The recipe loop of `parseRule`: a line of the recipe starts with a tab, and a directive may
stand between its lines. -/
def recipeLoop : Nat → Bool → List Char → ParseM (List Char)
  | 0, _, _ => throw .outOfFuel
  | fuel + 1, newLine, recipe => do
    let p ← get
    if newLine then
      if p.tok = .char '\t' then do
        accept (.char '\t')
        recipeLoop fuel false recipe
      else if (← parseDirective fuel) then recipeLoop fuel false recipe
      else pure recipe
    else
      match p.tok with
      | .char '\\' => do
        parseEscape
        let tok := (← get).tok
        accept tok
        recipeLoop fuel false (recipe ++ tok.string)
      | .char '\n' => do
        accept (.char '\n')
        recipeLoop fuel true (recipe ++ ['\n'])
      | .eof => pure recipe
      | tok => do
        accept tok
        recipeLoop fuel false (recipe ++ p.tokenText)

def parseRule (fuel : Nat) (target : MakeString) : ParseM Unit := do
  let (prerequisites, newLine) ← parseRulePrerequisites fuel target
  let recipe ← recipeLoop fuel newLine []
  if let some prerequisites := prerequisites then
    modify fun p => { p with nodes := p.nodes ++ [.rule target prerequisites recipe] }

/-- The end of a line that holds no assignment or rule: a lone variable reference is a node,
anything else but blanks an error. -/
def endLine (ident : MakeString) : ParseM Unit := do
  let ident := ident.trimRightSpaces
  match toVariable ident with
  | some v => modify fun p => { p with nodes := p.nodes ++ [.variable v] }
  | none => if !ident.empty then errorf (.directiveRuleOrAssignment ident)

/-- `parseLines`. -/
def parseLines : Nat → ParseM Unit
  | 0 => throw .outOfFuel
  | fuel + 1 => do
    ignoreWhitespace fuel
    if (← parseDirective fuel) then parseLines fuel
    else
      let ident ← parseExpression fuel ['=', '?', ':', '#', '\n']
      ignoreSpaces fuel
      match (← get).tok with
      | .char '?' => do
        accept (.char '?')
        if (← get).tok = .char '=' then parseAssignment fuel "?=".toList none ident
        else errorf .equalsAfterQuestion
        parseLines fuel
      | .char '+' => do
        accept (.char '+')
        if (← get).tok = .char '=' then parseAssignment fuel "+=".toList none ident
        else errorf .equalsAfterPlus
        parseLines fuel
      | .char ':' => do
        accept (.char ':')
        if (← get).tok = .char '=' then parseAssignment fuel ":=".toList none ident
        else parseRule fuel ident
        parseLines fuel
      | .char '=' => do
        parseAssignment fuel "=".toList none ident
        parseLines fuel
      | .char '#' => do
        endLine ident
        parseComment fuel
        parseLines fuel
      | .char '\n' => do
        endLine ident
        accept (.char '\n')
        parseLines fuel
      | .eof => endLine ident
      | _ => errorf (.assignmentOrRule (← get).tokenText)

/-- The parser `NewParser` returns for an input: `Peek` skips a byte order mark at the start,
and `p.tok` starts as the zero rune. -/
def Parser.init (input : List Char) : Parser :=
  let src := match input with
    | '\uFEFF' :: rest => rest
    | _ => input
  ⟨src, 0, true, .char '\x00', [], 0, [], [], []⟩

/-- `NewParser`'s first `next`, after `Peek` has read the first character, then `Parse`. -/
def parseAll (fuel : Nat) : ParseM Unit := do
  if (← get).src.head? = some '\x00' then errorf .invalidNul
  next
  parseLines fuel
  accept .eof

/-- `Parse`: the nodes and comments sorted by position, and the errors. No two nodes share a
position, so `sort.Sort` orders them as a stable sort does. After `errTooManyErrors` it
returns the zero values of its unnamed results. -/
def parse (input : List Char) : Except Abort (List Node × List ParseErr) :=
  match (parseAll (2 * input.length + 4)).run (Parser.init input) with
  | .ok ((), p) => .ok ((p.nodes ++ p.comments).insertionSort (fun a b => a.pos ≤ b.pos), p.errors)
  | .error .tooManyErrors => .ok ([], [])
  | .error abort => .error abort

end Soong.Androidmk
