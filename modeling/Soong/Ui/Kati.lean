import Soong.Ui.Calls
import Soong.Go.Io

namespace Soong.Ui

open Go

section Patterns

/-- The alternatives of the description in `katiIncludeRe` besides `including [^ ]+`. -/
def katiPhases : List String :=
  ["initializing build system", "initializing packaging system", "finishing build rules",
    "finishing packaging rules", "writing build rules", "writing packaging rules"]

/-- `...$`: three characters other than a newline, then the end of the line. -/
def threeChars : List Char → Bool
  | [a, b, c] => a != '\n' && b != '\n' && c != '\n'
  | _ => false

/-- `katiLogRe`: `^\*kati\*: `. -/
def katiLog (line : List Char) : Bool :=
  "*kati*: ".toList.isPrefixOf line

/-- `katiNinjaMissing`: `^[^ ]+ is missing, regenerating...$`. The word holds no space and a
space follows it, so it is the line up to its first space. -/
def ninjaMissing (line : List Char) : Bool :=
  let word := line.takeWhile (· != ' ')
  word != [] && match (line.drop word.length).dropPrefix? " is missing, regenerating".toList with
    | some rest => threeChars rest
    | none => false

/-- Group 4 of `katiIncludeRe`, which runs to the end of the line: `including` and a word, or
one of the fixed phases, then ` ...`. -/
def includeDescription (desc : List Char) : Bool :=
  let ending (rest : List Char) : Bool := rest.head? == some ' ' && threeChars rest.tail
  let included := match desc.dropPrefix? "including ".toList with
    | some rest =>
      let word := rest.takeWhile (· != ' ')
      word != [] && ending (rest.drop word.length)
    | none => false
  included || katiPhases.any fun phase => match desc.dropPrefix? phase.toList with
    | some rest => ending rest
    | none => false

/-- `\[(\d+)/(\d+)] ` at the start of a line: the digits of its two numbers, and what follows. -/
def katiCounter (line : List Char) : Option (List Char × List Char × List Char) :=
  match line with
  | '[' :: afterBracket =>
    let idx := afterBracket.takeWhile Char.isDigit
    match afterBracket.drop idx.length with
    | '/' :: afterSlash =>
      let tot := afterSlash.takeWhile Char.isDigit
      match afterSlash.drop tot.length with
      | ']' :: ' ' :: desc => if idx != [] && tot != [] then some (idx, tot, desc) else none
      | _ => none
    | _ => none
  | _ => none

/-- `katiIncludeRe.FindStringSubmatch`: groups 2, 3 and 4 of the match, a group that took no part
in it being empty, or `none` where the line does not match. The optional counter is tried first,
as Go's leftmost-first `regexp` does. -/
def matchInclude (line : List Char) : Option (List Char × List Char × List Char) :=
  let whole := if includeDescription line then some ([], [], line) else none
  match katiCounter line with
  | some (idx, tot, desc) => if includeDescription desc then some (idx, tot, desc) else whole
  | none => whole

/-- `katiError`: `^(\033\[1m)?[^ ]+:[0-9]+: (\033\[31m)?error:`. Neither the bold prefix nor the
word holds a space, so together they are the line up to its first space, less `:[0-9]+:` at
their end; the number is the run of digits there, since a colon is no digit. -/
def katiError (line : List Char) : Bool :=
  let front := line.takeWhile (· != ' ')
  let after := line.drop front.length
  let reversed := front.reverse
  let number := reversed.tail.takeWhile Char.isDigit
  let name := reversed.drop (number.length + 1)
  reversed.head? == some ':' && number != [] && name.head? == some ':' && name.tail != [] &&
    (" error:".toList.isPrefixOf after || " \x1b[31merror:".toList.isPrefixOf after)

/-- `strconv.Atoi` of the digits a `\d+` group matched: their value, or an error past the range
of Go's 64-bit `int`. -/
def atoi (digits : List Char) : Option Int :=
  let value := digits.foldl (fun acc c => 10 * acc + (c.toNat - '0'.toNat)) 0
  if digits != [] && value < 2 ^ 63 then some (value : Int) else none

end Patterns

/-- `katiOutputParser`: kati's counters, the action running, and the output gathered for it. The
action is the pointer the parser hands its `ToolStatus`, a number here; the numbers it hands out
start at `nextAction`. -/
structure KatiParser where
  count : Int
  total : Int
  extra : Int
  action : Option Nat
  buf : String
  hasError : Bool
  nextAction : Nat
  deriving DecidableEq, Repr

namespace KatiParser

/-- `flushAction`: the running action finishes with the output gathered for it, failed when an
error line was among it. The action stays set; the next include line replaces it. -/
def flushAction (k : KatiParser) : KatiParser × List Call :=
  match k.action with
  | none => (k, [])
  | some action =>
    ({ k with buf := "", hasError := false },
      [.finishAction action k.buf (if k.hasError then some "makefile error" else none)])

/-- The first number of an include line's counter, `matches[2]`: where kati says it is, against
the include lines seen. A line without a counter is one step more than kati counts. -/
def countIndex (k : KatiParser) (idx : List Char) : KatiParser × List Call :=
  if idx != [] then
    match atoi idx with
    | some i =>
      if int64 (i + k.extra) ≠ k.count then
        let k := { k with extra := int64 (k.count - i) }
        (k, [.setTotalActions (int64 (k.total + k.extra))])
      else (k, [])
    | none => (k, [])
  else
    let k := { k with extra := int64 (k.extra + 1) }
    (k, [.setTotalActions (int64 (k.total + k.extra))])

/-- The second number of an include line's counter, `matches[3]`: kati's total. -/
def countTotal (k : KatiParser) (tot : List Char) : KatiParser × List Call :=
  if tot != [] then
    match atoi tot with
    | some n =>
      if n ≠ k.total then
        let k := { k with total := n }
        (k, [.setTotalActions (int64 (k.total + k.extra))])
      else (k, [])
    | none => (k, [])
  else (k, [])

/-- `parseLine`: a log line goes to the verbose log; an include line finishes the running action
and starts the next; any other line is output of the running action, or before the first one a
message of its own. -/
def parseLine (k : KatiParser) (line : String) : KatiParser × List Call :=
  if katiLog line.toList then (k, [.message .verbose line])
  else match matchInclude line.toList with
    | some (idx, tot, desc) =>
      let flushed := k.flushAction
      let indexed := { flushed.1 with count := int64 (flushed.1.count + 1) }.countIndex idx
      let totaled := indexed.1.countTotal tot
      let action := totaled.1.nextAction
      ({ totaled.1 with action := some action, nextAction := action + 1 },
        flushed.2 ++ indexed.2 ++ totaled.2 ++ [.startAction action ⟨String.ofList desc, [], ""⟩])
    | none =>
      if k.action.isSome then
        ({ k with hasError := k.hasError || katiError line.toList, buf := k.buf ++ line ++ "\n" }, [])
      else
        let level := if line = "No need to regenerate ninja file" || ninjaMissing line.toList
          then MsgLevel.status else MsgLevel.print
        (k, [.message level line])

/-- The scanner's loop over the lines of the pipe. -/
def parseLines (k : KatiParser) : List String → KatiParser × List Call
  | [] => (k, [])
  | line :: lines =>
    let parsed := k.parseLine line
    let rest := parseLines parsed.1 lines
    (rest.1, parsed.2 ++ rest.2)

end KatiParser

open KatiParser

/-- `KatiReader`: kati's output, line by line, turned into calls on a `ToolStatus`. A line that
reads like kati's progress line (`[3/10] including foo.mk ...`) starts an action; the lines after
it, up to the next such line, are that action's output, and an error line among them fails it.
The reader keeps the contract of `ToolStatus` on any output, so it drives the `Status` along a
run of its steps, and each action it reports carries exactly the lines kati printed for it.

`KatiReader`: the lines the scanner gave, parsed in turn, the last action flushed, what a
failed scan leaves printed, and `Finish`. `scanError` is the scanner's error and what the pipe
held after it. The actions it starts are numbered from `base`. -/
def katiReader (base : Nat) (lines : List String) (scanError : Option (String × String)) : List Call :=
  let parsed := parseLines ⟨0, 0, 0, none, "", false, base⟩ lines
  parsed.2 ++ parsed.1.flushAction.2 ++
    scanError.elim [] (fun failed =>
      [.message .print ("Error from kati parser: " ++ failed.1), .message .print failed.2]) ++
    [.finish]

/-- A line at which `parseLine` starts an action: `katiIncludeRe` matches it and `katiLogRe`, which
is tried first, does not. -/
def startsAction (line : String) : Bool :=
  !katiLog line.toList && (matchInclude line.toList).isSome

namespace KatiParser

section Steps

variable (k : KatiParser)

@[simp] theorem action_flushAction : k.flushAction.1.action = k.action := by
  unfold flushAction
  split <;> simp_all

@[simp] theorem nextAction_flushAction : k.flushAction.1.nextAction = k.nextAction := by
  unfold flushAction
  split <;> rfl

theorem flushAction_of_some {a : Nat} (running : k.action = some a) :
    k.flushAction = ({ k with buf := "", hasError := false },
      [.finishAction a k.buf (if k.hasError then some "makefile error" else none)]) := by
  simp [flushAction, running]

theorem flushAction_of_none (idle : k.action = none) : k.flushAction = (k, []) := by
  simp [flushAction, idle]

/-- The counter's numbers move only `extra` and `total`, and call nothing but `SetTotalActions`. -/
theorem countIndex_eq (idx : List Char) :
    ∃ (extra : Int) (totals : List Int), k.countIndex idx = ({ k with extra := extra }, totals.map Call.setTotalActions) := by
  unfold countIndex
  split
  · split
    · split
      · exact ⟨_, [_], rfl⟩
      · exact ⟨k.extra, [], rfl⟩
    · exact ⟨k.extra, [], rfl⟩
  · exact ⟨_, [_], rfl⟩

theorem countTotal_eq (tot : List Char) :
    ∃ (total : Int) (totals : List Int), k.countTotal tot = ({ k with total := total }, totals.map Call.setTotalActions) := by
  unfold countTotal
  split
  · split
    · split
      · exact ⟨_, [_], rfl⟩
      · exact ⟨k.total, [], rfl⟩
    · exact ⟨k.total, [], rfl⟩
  · exact ⟨k.total, [], rfl⟩

variable {line : String}

theorem parseLine_of_log (log : katiLog line.toList = true) :
    k.parseLine line = (k, [.message .verbose line]) := by
  simp [parseLine, log]

/-- An include line: the running action flushed, the counters moved, and the next action started. -/
theorem parseLine_of_include {idx tot desc : List Char} (log : katiLog line.toList = false)
    (matched : matchInclude line.toList = some (idx, tot, desc)) :
    ∃ (count total extra : Int) (totals : List Int), k.parseLine line =
      ({ k.flushAction.1 with
          count := count, total := total, extra := extra, action := some k.nextAction,
          nextAction := k.nextAction + 1 },
        k.flushAction.2 ++ totals.map Call.setTotalActions ++
          [.startAction k.nextAction ⟨String.ofList desc, [], ""⟩]) := by
  obtain ⟨extra, indexCalls, indexed⟩ :=
    countIndex_eq { k.flushAction.1 with count := int64 (k.flushAction.1.count + 1) } idx
  obtain ⟨total, totalCalls, totaled⟩ :=
    countTotal_eq { k.flushAction.1 with count := int64 (k.flushAction.1.count + 1), extra := extra } tot
  refine ⟨int64 (k.flushAction.1.count + 1), total, extra, indexCalls ++ totalCalls, ?_⟩
  simp only [parseLine, log, matched, Bool.false_eq_true, if_false]
  rw [indexed]
  dsimp only
  rw [totaled]
  simp

/-- A line that starts no action while one runs is its output. -/
theorem parseLine_of_output (quiet : startsAction line = false) {a : Nat} (running : k.action = some a) :
    k.parseLine line = if katiLog line.toList then (k, [.message .verbose line]) else
      ({ k with hasError := k.hasError || katiError line.toList, buf := k.buf ++ line ++ "\n" }, []) := by
  by_cases log : katiLog line.toList
  · simp [parseLine, log]
  · have unmatched : matchInclude line.toList = none := by simpa [startsAction, log] using quiet
    simp [parseLine, log, unmatched, running]

/-- Before the first action, a line that starts none is a message of its own. -/
theorem parseLine_of_idle (quiet : startsAction line = false) (idle : k.action = none) :
    ∃ level, k.parseLine line = (k, [.message level line]) := by
  by_cases log : katiLog line.toList
  · exact ⟨.verbose, parseLine_of_log k log⟩
  · have unmatched : matchInclude line.toList = none := by simpa [startsAction, log] using quiet
    simp [parseLine, log, unmatched, idle]

end Steps

theorem startsAction_iff {line : String} :
    startsAction line = true ↔
      katiLog line.toList = false ∧ ∃ idx tot desc, matchInclude line.toList = some (idx, tot, desc) := by
  simp [startsAction, Option.isSome_iff_exists]

section Runs

variable (k : KatiParser)

theorem parseLines_append (first second : List String) :
    parseLines k (first ++ second) =
      ((parseLines (parseLines k first).1 second).1,
        (parseLines k first).2 ++ (parseLines (parseLines k first).1 second).2) := by
  induction first generalizing k with
  | nil => rfl
  | cons line lines ih => simp [parseLines, ih]

/-- A flush finishes an action and starts none. -/
theorem starts_flushAction : (k.flushAction.2.map Call.starts).sum = 0 := by
  cases running : k.action with
  | none => simp [flushAction_of_none k running]
  | some a => simp [flushAction_of_some k running, Call.starts]

/-- Each line that starts an action takes the next number and starts one action; no other line
starts any. -/
theorem parseLine_numbered (line : String) :
    (k.parseLine line).1.nextAction = k.nextAction + (if startsAction line then 1 else 0) ∧
      ((k.parseLine line).2.map Call.starts).sum = if startsAction line then 1 else 0 := by
  cases starts : startsAction line
  · cases running : k.action with
    | none =>
      obtain ⟨level, parsed⟩ := parseLine_of_idle k starts running
      simp [parsed, Call.starts]
    | some a =>
      rw [parseLine_of_output k starts running]
      split
      · simp [Call.starts]
      · simp
  · obtain ⟨log, idx, tot, desc, matched⟩ := startsAction_iff.mp starts
    obtain ⟨count, total, extra, totals, parsed⟩ := parseLine_of_include k log matched
    simp [parsed, starts_flushAction, Call.starts, Function.comp_def]

theorem parseLines_numbered (lines : List String) :
    (parseLines k lines).1.nextAction = k.nextAction + lines.countP startsAction ∧
      ((parseLines k lines).2.map Call.starts).sum = lines.countP startsAction := by
  induction lines generalizing k with
  | nil => simp [parseLines]
  | cons line lines ih =>
    obtain ⟨next, first⟩ := k.parseLine_numbered line
    obtain ⟨next', rest⟩ := ih (k.parseLine line).1
    simp only [parseLines, List.map_append, List.sum_append, List.countP_cons, next', next, first, rest]
    omega

end Runs

section Contract

variable (k : KatiParser) {used : List Nat}

theorem contract_flushAction : contract used k.action.toList k.flushAction.2 = some (used, []) := by
  cases running : k.action with
  | none => simp [flushAction_of_none k running, contract]
  | some a => simp [flushAction_of_some k running, contract]

theorem contract_setTotalActions (live : List Nat) (totals : List Int) :
    contract used live (totals.map Call.setTotalActions) = some (used, live) :=
  contract_of_quiet (by simp [Call.started, Call.finished])

/-- Line by line, the parser keeps the contract of `ToolStatus`: the action it runs is its one
live action, and every action used so far is below the next number it hands out. -/
theorem contract_parseLine (below : ∀ a ∈ used, a < k.nextAction) (line : String) :
    ∃ used', contract used k.action.toList (k.parseLine line).2 = some (used', (k.parseLine line).1.action.toList) ∧
      ∀ a ∈ used', a < (k.parseLine line).1.nextAction := by
  cases starts : startsAction line
  · cases running : k.action with
    | none =>
      obtain ⟨level, parsed⟩ := parseLine_of_idle k starts running
      exact ⟨used, by simp [parsed, running, contract], by simpa [parsed] using below⟩
    | some a =>
      rw [parseLine_of_output k starts running]
      split
      · exact ⟨used, by simp [running, contract], below⟩
      · exact ⟨used, by simp [running, contract], below⟩
  · obtain ⟨log, idx, tot, desc, matched⟩ := startsAction_iff.mp starts
    obtain ⟨count, total, extra, totals, parsed⟩ := parseLine_of_include k log matched
    have fresh : k.nextAction ∉ used := fun used => Nat.lt_irrefl _ (below _ used)
    refine ⟨k.nextAction :: used, ?_, ?_⟩
    · simp [parsed, contract_append, contract_flushAction, contract_setTotalActions, contract, fresh]
    · intro a member
      rcases List.mem_cons.mp member with new | old
      · simp [parsed, new]
      · simpa [parsed] using Nat.lt_succ_of_lt (below a old)

theorem contract_parseLines (lines : List String) (below : ∀ a ∈ used, a < k.nextAction) :
    ∃ used', contract used k.action.toList (parseLines k lines).2 =
        some (used', (parseLines k lines).1.action.toList) ∧
      ∀ a ∈ used', a < (parseLines k lines).1.nextAction := by
  induction lines generalizing k used with
  | nil => exact ⟨used, rfl, below⟩
  | cons line lines ih =>
    obtain ⟨used', first, below'⟩ := contract_parseLine k below line
    obtain ⟨used'', rest, below''⟩ := ih (k.parseLine line).1 below'
    exact ⟨used'', by simp [parseLines, contract_append, first, rest], below''⟩

end Contract

end KatiParser

open KatiParser

/-- `KatiReader` keeps the contract of `ToolStatus` on any output of kati: each action it starts
is new, and it finishes each one once, all of them before `Finish`. -/
theorem contract_katiReader (base : Nat) (lines : List String) (scanError : Option (String × String))
    {used : List Nat} (fresh : ∀ a ∈ used, a < base) :
    ∃ used', contract used [] (katiReader base lines scanError) = some (used', []) := by
  obtain ⟨used', parsed, -⟩ := contract_parseLines ⟨0, 0, 0, none, "", false, base⟩ lines fresh
  rw [show (⟨0, 0, 0, none, "", false, base⟩ : KatiParser).action.toList = [] from rfl] at parsed
  have tail : ∀ c ∈ scanError.elim [] (fun failed =>
      [Call.message .print ("Error from kati parser: " ++ failed.1), .message .print failed.2]) ++ [.finish],
      c.started = [] ∧ c.finished = [] := by
    cases scanError <;> simp [Call.started, Call.finished]
  refine ⟨used', ?_⟩
  rw [katiReader, List.append_assoc, List.append_assoc, contract_append, parsed, Option.bind_some,
    contract_append, contract_flushAction, Option.bind_some, contract_of_quiet tail]

section Output

/-- The output an action should report for the lines kati printed after its include line: each
of them with its newline, kati's own log lines apart. -/
def actionOutput (body : List String) : String :=
  String.join ((body.filter fun line => !katiLog line.toList).map (· ++ "\n"))

/-- Whether an action should fail: one of its output lines reads as a makefile error. -/
def actionFailed (body : List String) : Bool :=
  (body.filter fun line => !katiLog line.toList).any fun line => katiError line.toList

/-- Output is gathered only while an action runs. -/
def KatiParser.Gathering (k : KatiParser) : Prop :=
  k.action = none → k.buf = "" ∧ k.hasError = false

namespace KatiParser

variable (k : KatiParser)

theorem gathering_parseLine (gathering : k.Gathering) (line : String) : (k.parseLine line).1.Gathering := by
  cases starts : startsAction line
  · cases running : k.action with
    | none =>
      obtain ⟨level, parsed⟩ := parseLine_of_idle k starts running
      simpa [parsed] using gathering
    | some a =>
      rw [parseLine_of_output k starts running]
      split
      · simp [Gathering, running]
      · simp [Gathering, running]
  · obtain ⟨log, idx, tot, desc, matched⟩ := startsAction_iff.mp starts
    obtain ⟨count, total, extra, totals, parsed⟩ := parseLine_of_include k log matched
    simp [Gathering, parsed]

theorem gathering_parseLines (gathering : k.Gathering) (lines : List String) :
    (parseLines k lines).1.Gathering := by
  induction lines generalizing k with
  | nil => exact gathering
  | cons line lines ih => exact ih (k.parseLine line).1 (k.gathering_parseLine gathering line)

/-- An include line starts the next action with nothing gathered for it yet. -/
theorem parseLine_starts (gathering : k.Gathering) {line : String} (starts : startsAction line = true) :
    (k.parseLine line).1.action = some k.nextAction ∧ (k.parseLine line).1.buf = "" ∧
      (k.parseLine line).1.hasError = false := by
  obtain ⟨log, idx, tot, desc, matched⟩ := startsAction_iff.mp starts
  obtain ⟨count, total, extra, totals, parsed⟩ := parseLine_of_include k log matched
  cases running : k.action with
  | none => simpa [parsed, flushAction_of_none k running] using gathering running
  | some a => simp [parsed, flushAction_of_some k running]

/-- An include line first finishes the action running before it. -/
theorem flushAction_mem_parseLine {line : String} (starts : startsAction line = true) :
    ∀ c ∈ k.flushAction.2, c ∈ (k.parseLine line).2 := by
  obtain ⟨log, idx, tot, desc, matched⟩ := startsAction_iff.mp starts
  obtain ⟨count, total, extra, totals, parsed⟩ := parseLine_of_include k log matched
  intro c member
  simp [parsed, member]

/-- The lines up to the next include line are gathered as the running action's output. -/
theorem parseLines_gathers {body : List String} (quiet : ∀ line ∈ body, startsAction line = false)
    {a : Nat} (running : k.action = some a) :
    (parseLines k body).1 =
      { k with buf := k.buf ++ actionOutput body, hasError := k.hasError || actionFailed body } := by
  induction body generalizing k with
  | nil => simp [parseLines, actionOutput, actionFailed]
  | cons line body ih =>
    have rest := fun k' => ih k' fun l member => quiet l (List.mem_cons_of_mem line member)
    simp only [parseLines]
    rw [parseLine_of_output k (quiet line List.mem_cons_self) running]
    by_cases log : katiLog line.toList
    · simp [rest k running, log, actionOutput, actionFailed]
    · rw [if_neg log]
      dsimp only
      rw [rest { k with
        hasError := k.hasError || katiError line.toList, buf := k.buf ++ line ++ "\n" } running]
      simp [log, actionOutput, actionFailed, String.append_assoc, Bool.or_assoc]

end KatiParser

end Output


/-- From a parser that gathers only while an action runs: the action an include line starts is
reported with the output gathered after it, by the next include line or by the last flush. -/
theorem KatiParser.parseLines_reports (k : KatiParser) (gathering : k.Gathering) {header : String}
    {body rest : List String} (starts : startsAction header = true)
    (quiet : ∀ line ∈ body, startsAction line = false)
    (ends : ∀ line ∈ rest.head?, startsAction line = true) :
    Call.finishAction k.nextAction (actionOutput body)
        (if actionFailed body then some "makefile error" else none) ∈
      (parseLines k (header :: body ++ rest)).2 ++ (parseLines k (header :: body ++ rest)).1.flushAction.2 := by
  obtain ⟨running, empty, clean⟩ := k.parseLine_starts gathering starts
  have gathered := (k.parseLine header).1.parseLines_gathers quiet running
  have flushed : (parseLines (k.parseLine header).1 body).1.flushAction.2 = [Call.finishAction k.nextAction
      (actionOutput body) (if actionFailed body then some "makefile error" else none)] := by
    rw [flushAction_of_some _ (by rw [gathered]; exact running), gathered]
    simp [empty, clean]
  simp only [List.cons_append, parseLines, parseLines_append]
  rcases rest with _ | ⟨next, rest⟩
  · -- the output runs to the end of kati's output: the last flush reports it
    simp [parseLines, flushed]
  · -- the output runs to the next include line, which flushes it first
    have reported := (parseLines (k.parseLine header).1 body).1.flushAction_mem_parseLine (ends next rfl) _
      (by rw [flushed]; exact List.mem_singleton_self _)
    simp [parseLines, reported]

/-- Every action the reader starts reports exactly the lines kati printed after its include line,
up to the next include line or the end, and fails exactly when one of them reads as a makefile
error. The action is numbered by the include lines before it. -/
theorem katiReader_reports_output (base : Nat) (scanError : Option (String × String))
    {pre body rest : List String} {header : String} (starts : startsAction header = true)
    (quiet : ∀ line ∈ body, startsAction line = false)
    (ends : ∀ line ∈ rest.head?, startsAction line = true) :
    Call.finishAction (base + pre.countP startsAction) (actionOutput body)
        (if actionFailed body then some "makefile error" else none) ∈
      katiReader base (pre ++ header :: body ++ rest) scanError := by
  have numbered := (parseLines_numbered ⟨0, 0, 0, none, "", false, base⟩ pre).1
  have reported := (parseLines ⟨0, 0, 0, none, "", false, base⟩ pre).1.parseLines_reports
    (gathering_parseLines _ (fun _ => ⟨rfl, rfl⟩) pre) starts quiet ends
  rw [numbered] at reported
  rw [katiReader, List.append_assoc pre, parseLines_append]
  simp only [List.mem_append] at reported ⊢
  rcases reported with inRun | inFlush
  · exact Or.inl (Or.inl (Or.inl (Or.inr inRun)))
  · exact Or.inl (Or.inl (Or.inr inFlush))


theorem katiReader_reports_output_error :
    Call.finishAction 1 "a.mk:3: error: no rule\n" (some "makefile error") ∈
      katiReader 0 ["[1/2] initializing build system ...", "[2/2] including a.mk ...",
        "a.mk:3: error: no rule", "*kati*: 2 rules"] none := by
  have reported := @katiReader_reports_output 0 none ["[1/2] initializing build system ..."]
    ["a.mk:3: error: no rule", "*kati*: 2 rules"] [] "[2/2] including a.mk ..." (by decide) (by decide) (by simp)
  have numbered : ["[1/2] initializing build system ..."].countP startsAction = 1 := by decide
  have output : actionOutput ["a.mk:3: error: no rule", "*kati*: 2 rules"] = "a.mk:3: error: no rule\n" := by
    decide
  have failed : actionFailed ["a.mk:3: error: no rule", "*kati*: 2 rules"] = true := by decide
  rw [numbered, output, failed] at reported
  exact reported

/-- The reader starts one action for each include line of kati's output. -/
theorem starts_katiReader (base : Nat) (lines : List String) (scanError : Option (String × String)) :
    ((katiReader base lines scanError).map Call.starts).sum = lines.countP startsAction := by
  have parsed := (parseLines_numbered ⟨0, 0, 0, none, "", false, base⟩ lines).2
  cases scanError <;> simp [katiReader, parsed, starts_flushAction, Call.starts]

section Status

variable {n : Nat} {s : System n} {t : Fin n} (base : Nat) (lines : List String)
  (scanError : Option (String × String))

/-- `KatiReader` run on the `Status` system from a reachable state leaves it reachable, having
finished as many actions as it started. -/
theorem reachable_katiReader (reach : Reachable true s) (idle : s.pending t = [])
    (fresh : ∀ p ∈ s.returned, p.1 < base) :
    Reachable true (s.calls t (katiReader base lines scanError)) ∧
      ((katiReader base lines scanError).map Call.finishes).sum = lines.countP startsAction := by
  obtain ⟨used, kept⟩ := contract_katiReader base lines scanError (System.returned_below fresh)
  -- the contract ends with no action live, so the reader finished as many actions as it started
  have balanced := contract_balance kept
  simp only [List.length_nil, Nat.zero_add] at balanced
  exact ⟨System.reachable_calls_of_idle _ reach idle kept, balanced.trans (starts_katiReader base lines scanError)⟩

/-- Run on the `Status` system from any reachable state, `KatiReader` leaves it reachable, and
the `Status` counts one started and one finished action for each include line of kati's output,
whatever else kati printed: as many actions run after it as before. -/
theorem katiReader_counts_actions (reach : Reachable true s) (idle : s.pending t = [])
    (fresh : ∀ p ∈ s.returned, p.1 < base) :
    Reachable true (s.calls t (katiReader base lines scanError)) ∧
      (s.calls t (katiReader base lines scanError)).status.counts.startedActions =
        s.status.counts.startedActions + lines.countP startsAction ∧
      (s.calls t (katiReader base lines scanError)).status.counts.finishedActions =
        s.status.counts.finishedActions + lines.countP startsAction ∧
      (s.calls t (katiReader base lines scanError)).status.counts.runningActions =
        s.status.counts.runningActions := by
  obtain ⟨reached, finished⟩ := reachable_katiReader base lines scanError reach idle fresh
  have started := starts_katiReader base lines scanError
  obtain ⟨startedCount, finishedCount, runningCount⟩ := System.counts_calls (katiReader base lines scanError) idle
  refine ⟨reached, ?_, ?_, ?_⟩
  · rw [startedCount, started]
  · rw [finishedCount, finished]
  · rw [runningCount, finished, started]
    omega

theorem katiReader_counts_actions_two :
    let lines := ["[1/2] including a.mk ...", "a.mk:3: error: no rule", "[2/2] writing build rules ..."]
    Reachable true ((System.init : System 1).calls 0 (katiReader 0 lines none)) ∧
      ((System.init : System 1).calls 0 (katiReader 0 lines none)).status.counts.startedActions =
        (System.init : System 1).status.counts.startedActions + lines.countP startsAction ∧
      ((System.init : System 1).calls 0 (katiReader 0 lines none)).status.counts.finishedActions =
        (System.init : System 1).status.counts.finishedActions + lines.countP startsAction ∧
      ((System.init : System 1).calls 0 (katiReader 0 lines none)).status.counts.runningActions =
        (System.init : System 1).status.counts.runningActions :=
  katiReader_counts_actions 0 _ none .init rfl (by simp [System.init])

/-- On a tool of its own, `KatiReader` grows the `Status` total by exactly the include lines of
kati's output, in Go's 64-bit `int`, whatever totals kati's counters announced on the way: its
`Finish` settles the tool's total at the actions it started. -/
theorem katiReader_settles_total (reach : Reachable true s) (unused : s.tools t = Counts.zero)
    (idle : s.pending t = []) (fresh : ∀ p ∈ s.returned, p.1 < base) :
    (s.calls t (katiReader base lines scanError)).status.counts.totalActions =
      int64 (s.status.counts.totalActions + lines.countP startsAction) := by
  obtain ⟨reached, -⟩ := reachable_katiReader base lines scanError reach idle fresh
  have ledger := reach.invariant.ledger
  have ledger' := reached.invariant.ledger
  -- the `Status` moves by what the tool moved, for the started actions as for the total
  have total := System.sum_applied_calls (katiReader base lines scanError) idle Counts.totalActions Pending.totalDiff
  have started := System.sum_applied_calls (katiReader base lines scanError) idle Counts.startedActions Pending.starts
  rw [← ledger.started, ← ledger'.started] at started
  have counted := (System.counts_calls (katiReader base lines scanError) idle).1
  rw [starts_katiReader] at counted
  have settled := System.total_calls_finish (t := t) s
    ((parseLines ⟨0, 0, 0, none, "", false, base⟩ lines).2 ++
      (parseLines ⟨0, 0, 0, none, "", false, base⟩ lines).1.flushAction.2 ++
      scanError.elim [] fun failed =>
        [.message .print ("Error from kati parser: " ++ failed.1), .message .print failed.2])
  rw [← katiReader] at settled
  simp only [unused, Counts.zero] at total started
  -- the tool's total ends at its started actions, one for each include line
  have grown : ∑ u, (s.calls t (katiReader base lines scanError)).applied Counts.totalActions Pending.totalDiff u =
      ∑ u, s.applied Counts.totalActions Pending.totalDiff u + lines.countP startsAction := by
    omega
  rw [ledger'.total, grown, ledger.total, int64_int64_add]

theorem katiReader_settles_total_two :
    ((System.init : System 1).calls 0 (katiReader 0 ["[1/5] including a.mk ...", "[2/5] including b.mk ..."]
        none)).status.counts.totalActions =
      int64 ((System.init : System 1).status.counts.totalActions +
        ["[1/5] including a.mk ...", "[2/5] including b.mk ..."].countP startsAction) :=
  katiReader_settles_total 0 _ none .init rfl rfl (by simp [System.init])

end Status

end Soong.Ui
