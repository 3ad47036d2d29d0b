import Soong.Go.Strings

namespace Soong.Ui.Terminal

open Go.Strings

section Lines

variable {α : Type} (sep : List α)

/-- Lines `j, j + 1, …` of a table `height` lines high as a loop writes them: each line, then the
separator unless it is the table's last line. -/
def separated (height : Nat) : Nat → List (List α) → List α
  | _, [] => []
  | j, line :: lines => line ++ (if j + 1 < height then sep else []) ++ separated height (j + 1) lines

/-- Lines that reach the last line of the table are joined by the separator. -/
theorem separated_eq_intercalate {height : Nat} :
    ∀ {j : Nat} {lines : List (List α)}, j + lines.length = height → separated sep height j lines = sep.intercalate lines
  | _, [], _ => rfl
  | _, [line], full => by
    rw [separated, separated, if_neg (by simp at full; omega), List.append_nil, List.append_nil,
      List.intercalate_singleton]
  | j, line :: next :: lines, full => by
    have rest : j + 1 + (next :: lines).length = height := by simp only [List.length_cons] at full ⊢; omega
    rw [separated, if_pos (by simp at full; omega), separated_eq_intercalate rest, List.intercalate_cons_cons]

/-- Lines that stop short of the last line are each followed by the separator. -/
theorem separated_of_lt {height : Nat} :
    ∀ {j : Nat} {lines : List (List α)}, lines ≠ [] → j + lines.length < height →
      separated sep height j lines = sep.intercalate lines ++ sep
  | _, [], nonempty, _ => absurd rfl nonempty
  | _, [line], _, short => by
    rw [separated, separated, if_pos (by simp at short; omega), List.append_nil, List.intercalate_singleton]
  | j, line :: next :: lines, _, short => by
    have rest : j + 1 + (next :: lines).length < height := by simp only [List.length_cons] at short ⊢; omega
    rw [separated, if_pos (by simp at short; omega), separated_of_lt (List.cons_ne_nil _ _) rest,
      List.intercalate_cons_cons]
    simp only [List.append_assoc]

end Lines

namespace Ansi

/-- `ansi.clearToEndOfLine()`. -/
def clearToEndOfLine : List UInt8 := asciiBytes "\x1b[K"

/-- `ansi.setCursor(row, column)`: `fmt.Sprintf("\x1b[%d;%dH", row, column)`. -/
def setCursor (row column : Int) : List UInt8 :=
  asciiBytes ("\x1b[" ++ toString row ++ ";" ++ toString column ++ "H")

/-- `ansi.setScrollingMargins(top, bottom)`: `fmt.Sprintf("\x1b[%d;%dr", top, bottom)`. -/
def setScrollingMargins (top bottom : Int) : List UInt8 :=
  asciiBytes ("\x1b[" ++ toString top ++ ";" ++ toString bottom ++ "r")

def red : List UInt8 := asciiBytes "\x1b[31m"

def yellow : List UInt8 := asciiBytes "\x1b[33m"

def bold : List UInt8 := asciiBytes "\x1b[1m"

def regular : List UInt8 := asciiBytes "\x1b[0m"

end Ansi

/-- The separator the table writes, `"\n"`. -/
def newline : List UInt8 := asciiBytes "\n"

/-- `elide(str, width)`: cut to `width` bytes when the width is positive and the text longer. -/
def elide (str : List UInt8) (width : Int) : List UInt8 :=
  if width > 0 ∧ (str.length : Int) > width then str.take width.toNat else str

/-- `fmt.Sprintf("%2d", m)` with the pad `' '`, and `"%02d"` with `'0'`, of a natural number. -/
def padTwo (pad : Char) (m : Nat) : String :=
  String.ofList (List.replicate (2 - (toString m).length) pad) ++ toString m

/-- `fmt.Sprintf("   %2d:%02d ", seconds/60, seconds%60)`. -/
def durationText (seconds : Nat) : String :=
  "   " ++ padTwo ' ' (seconds / 60) ++ ":" ++ padTwo '0' (seconds % 60) ++ " "

/-- A running action as the table reads it. `seconds` is
`int(time.Since(runningAction.startTime).Round(time.Second).Seconds())`, which the monotonic clock
keeps from going negative. -/
structure ActionTableEntry where
  description : List UInt8
  command : List UInt8
  seconds : Nat

/-- The fields of `smartStatusOutput` that `actionTable` reads. -/
structure SmartStatusOutput where
  termWidth : Int
  termHeight : Int
  tableHeight : Int
  runningActions : List ActionTableEntry

/-- The line the body of the range loop writes for one action, in one `Fprint`. -/
def actionLine (s : SmartStatusOutput) (runningAction : ActionTableEntry) : List UInt8 :=
  let seconds := runningAction.seconds
  let desc := if runningAction.description = [] then runningAction.command else runningAction.description
  let color :=
    if seconds ≥ 60 then Ansi.red ++ Ansi.bold
    else if seconds ≥ 30 then Ansi.yellow ++ Ansi.bold
    else []
  let durationStr := asciiBytes (durationText seconds)
  let desc := elide desc (s.termWidth - durationStr.length)
  (color ++ durationStr ++ Ansi.regular) ++ desc ++ Ansi.clearToEndOfLine

/-- `for tableLine, runningAction = range s.runningActions` from index `k`, where `tableLine` held
`tableLine` before: it returns what the loop writes and the value it leaves in `tableLine`, the last
index it visited (the one it broke at, if any), or the old value for no action. -/
def rangeLoop (s : SmartStatusOutput) (k : Nat) (tableLine : Int) :
    List ActionTableEntry → List (List UInt8) × Int
  | [] => ([], tableLine)
  | runningAction :: rest =>
    if (k : Int) ≥ s.tableHeight then ([], k)
    else
      let next := rangeLoop s (k + 1) k rest
      (actionLine s runningAction :: ((if (k : Int) < s.tableHeight - 1 then [newline] else []) ++ next.1),
        next.2)

/-- `for ; tableLine < s.tableHeight; tableLine++`, which clears the rest of the table. -/
def clearLoop (tableHeight tableLine : Int) : List (List UInt8) :=
  if tableLine < tableHeight then
    Ansi.clearToEndOfLine ::
      ((if tableLine < tableHeight - 1 then [newline] else []) ++ clearLoop tableHeight (tableLine + 1))
  else []
termination_by (tableHeight - tableLine).toNat

/-- The running-action table of `ui/terminal/smart_status.go`. Every tick `actionTable` moves the
cursor below the scrolling region, writes one line per running action that fits, clears the
lines left over and moves the cursor back. What it writes is the list of `fmt.Fprint` calls, each
one's bytes.

`smartStatusOutput.actionTable`. -/
def actionTable (s : SmartStatusOutput) : List (List UInt8) :=
  let scrollingHeight := s.termHeight - s.tableHeight
  let rows := rangeLoop s 0 0 s.runningActions
  [Ansi.setScrollingMargins 0 scrollingHeight, Ansi.setCursor (scrollingHeight + 1) 0] ++ rows.1 ++
    clearLoop s.tableHeight rows.2 ++ [Ansi.setCursor scrollingHeight 0]

/-- The lines of the actions that fit in the table. -/
def actionLines (s : SmartStatusOutput) : List (List (List UInt8)) :=
  (s.runningActions.take s.tableHeight.toNat).map fun a => [actionLine s a]

/-- The table as the comments of `actionTable` describe it: `tableHeight` lines joined by
newlines, the first ones holding the first actions and the rest cleared. -/
def intendedTable (s : SmartStatusOutput) : List (List UInt8) :=
  [newline].intercalate
    (actionLines s ++ List.replicate (s.tableHeight.toNat - s.runningActions.length) [Ansi.clearToEndOfLine])

/-- The clearing loop from line `tableLine` on writes the remaining lines of the table, cleared. -/
theorem clearLoop_eq (tableHeight : Int) (tableLine : Nat) (within : tableLine ≤ tableHeight.toNat) :
    clearLoop tableHeight tableLine =
      separated [newline] tableHeight.toNat tableLine
        (List.replicate (tableHeight.toNat - tableLine) [Ansi.clearToEndOfLine]) := by
  -- the induction is on the lines left to clear
  induction left : tableHeight.toNat - tableLine generalizing tableLine with
  | zero =>
    rw [clearLoop, if_neg (by omega), List.replicate_zero, separated]
  | succ left ih =>
    have last : (tableLine : Int) < tableHeight - 1 ↔ tableLine + 1 < tableHeight.toNat := by omega
    have next : (tableLine : Int) + 1 = ((tableLine + 1 : Nat) : Int) := by omega
    rw [clearLoop, if_pos (by omega), List.replicate_succ, separated, next, ih (tableLine + 1) (by omega) (by omega)]
    simp only [last]
    rfl

section Table

variable {s : SmartStatusOutput}

theorem below_last (tall : 1 ≤ s.tableHeight) (k : Nat) :
    (k : Int) < s.tableHeight - 1 ↔ k + 1 < s.tableHeight.toNat := by
  omega

/-- The run lemma of the range loop, from index `k` within the table with `tableLine` one below
it: the actions that fit are written as lines of the table, and `tableLine` is left at the height
if the loop broke, at the last index otherwise. -/
theorem rangeLoop_eq (tall : 1 ≤ s.tableHeight) :
    ∀ (rest : List ActionTableEntry) (k : Nat), k ≤ s.tableHeight.toNat →
      rangeLoop s k ((k - 1 : Nat) : Int) rest =
        (separated [newline] s.tableHeight.toNat k
            ((rest.take (s.tableHeight.toNat - k)).map fun a => [actionLine s a]),
          if s.tableHeight.toNat < k + rest.length then s.tableHeight else ((k + rest.length - 1 : Nat) : Int))
  | [], k, within => by
    rw [rangeLoop, List.take_nil, List.map_nil, separated, List.length_nil, Nat.add_zero, if_neg (by omega)]
  | runningAction :: rest, k, within => by
    rw [rangeLoop]
    by_cases full : (k : Int) ≥ s.tableHeight
    · -- the loop breaks at `k`, the height of the table
      have atHeight : s.tableHeight.toNat = k := by omega
      rw [if_pos full, atHeight, Nat.sub_self, List.take_zero, List.map_nil, separated,
        if_pos (by simp)]
      congr 1
      omega
    · have next := rangeLoop_eq tall rest (k + 1) (by omega)
      rw [Nat.add_sub_cancel] at next
      have room : s.tableHeight.toNat - k = s.tableHeight.toNat - (k + 1) + 1 := by omega
      rw [if_neg full, next, room, List.take_succ_cons, List.map_cons, separated]
      simp only [below_last tall k, List.length_cons]
      congr 1
      split_ifs <;> omega

theorem rangeLoop_start (tall : 1 ≤ s.tableHeight) :
    rangeLoop s 0 0 s.runningActions =
      (separated [newline] s.tableHeight.toNat 0 (actionLines s),
        if s.tableHeight.toNat < s.runningActions.length then s.tableHeight
        else ((s.runningActions.length - 1 : Nat) : Int)) := by
  have start := rangeLoop_eq tall s.runningActions 0 (Nat.zero_le _)
  rw [Nat.zero_sub, Nat.sub_zero, Nat.zero_add] at start
  exact start

/-- What the two loops write between the cursor moves. -/
def tableBody (s : SmartStatusOutput) : List (List UInt8) :=
  (rangeLoop s 0 0 s.runningActions).1 ++ clearLoop s.tableHeight (rangeLoop s 0 0 s.runningActions).2

theorem length_actionLines : (actionLines s).length = min s.tableHeight.toNat s.runningActions.length := by
  rw [actionLines, List.length_map, List.length_take]

/-- No action: the clearing loop writes the whole table. -/
theorem tableBody_of_none (tall : 1 ≤ s.tableHeight) (none : s.runningActions.length = 0) :
    tableBody s = intendedTable s := by
  have noLines : actionLines s = [] := List.eq_nil_of_length_eq_zero (by rw [length_actionLines]; omega)
  rw [tableBody, rangeLoop_start tall]
  dsimp only
  rw [if_neg (by omega), none, noLines, Nat.zero_sub, clearLoop_eq _ 0 (Nat.zero_le _), separated,
    List.nil_append, separated_eq_intercalate _ (by rw [List.length_replicate]; omega), intendedTable, noLines,
    none, List.nil_append]

/-- Fewer actions than lines: the clearing loop starts again at the last action's index, so one
more newline and one more cleared line are written than the table has room for. -/
theorem tableBody_of_short (tall : 1 ≤ s.tableHeight) (some : 0 < s.runningActions.length)
    (short : s.runningActions.length < s.tableHeight.toNat) :
    tableBody s = intendedTable s ++ [newline, Ansi.clearToEndOfLine] := by
  have lines : (actionLines s).length = s.runningActions.length := by rw [length_actionLines]; omega
  have hasLines : actionLines s ≠ [] := List.ne_nil_of_length_pos (by omega)
  have cleared : s.tableHeight.toNat - (s.runningActions.length - 1) =
      s.tableHeight.toNat - s.runningActions.length + 1 := by omega
  have clears : List.replicate (s.tableHeight.toNat - s.runningActions.length + 1) [Ansi.clearToEndOfLine] ≠ [] := by
    simp
  have front : actionLines s ++ List.replicate (s.tableHeight.toNat - s.runningActions.length)
      [Ansi.clearToEndOfLine] ≠ [] := by simp [hasLines]
  rw [tableBody, rangeLoop_start tall]
  dsimp only
  -- the lines of the actions, each with its newline, then the clears from the last action's index
  rw [if_neg (by omega), clearLoop_eq _ _ (by omega), separated_of_lt _ hasLines (by omega),
    separated_eq_intercalate _ (by rw [List.length_replicate]; omega), cleared,
    ← List.intercalate_append_of_ne_nil _ hasLines clears, List.replicate_succ', ← List.append_assoc,
    List.intercalate_append_of_ne_nil _ front (List.cons_ne_nil _ _), List.intercalate_singleton, intendedTable,
    List.append_assoc]
  rfl

/-- As many actions as lines: the clearing loop clears the last line once more. -/
theorem tableBody_of_full (tall : 1 ≤ s.tableHeight) (full : s.runningActions.length = s.tableHeight.toNat) :
    tableBody s = intendedTable s ++ [Ansi.clearToEndOfLine] := by
  have lines : (actionLines s).length = s.tableHeight.toNat := by rw [length_actionLines]; omega
  rw [tableBody, rangeLoop_start tall]
  dsimp only
  rw [if_neg (by omega), clearLoop_eq _ _ (by omega), separated_eq_intercalate _ (by rw [lines]; omega),
    separated_eq_intercalate _ (by rw [List.length_replicate]; omega), intendedTable, full, Nat.sub_self,
    List.replicate_zero, List.append_nil, show s.tableHeight.toNat - (s.tableHeight.toNat - 1) = 1 by omega,
    List.replicate_one, List.intercalate_singleton]

/-- More actions than lines: the range loop breaks at the height and nothing is cleared. -/
theorem tableBody_of_long (tall : 1 ≤ s.tableHeight) (long : s.tableHeight.toNat < s.runningActions.length) :
    tableBody s = intendedTable s := by
  have lines : (actionLines s).length = s.tableHeight.toNat := by rw [length_actionLines]; omega
  have nothing : clearLoop s.tableHeight s.tableHeight = [] := by
    have atHeight := clearLoop_eq s.tableHeight s.tableHeight.toNat (Nat.le_refl _)
    rw [Int.toNat_of_nonneg (by omega), Nat.sub_self, List.replicate_zero, separated] at atHeight
    exact atHeight
  rw [tableBody, rangeLoop_start tall]
  dsimp only
  rw [if_pos long, separated_eq_intercalate _ (by rw [lines]; omega), nothing, List.append_nil, intendedTable,
    Nat.sub_eq_zero_of_le (Nat.le_of_lt long), List.replicate_zero, List.append_nil]

end Table

/-- `actionTable` writes the table its comments describe, between the two cursor moves, and more
when the actions do not fill it: one more newline and cleared line for fewer actions than lines,
and one more clear of the last line for exactly as many. -/
theorem actionTable_eq (s : SmartStatusOutput) (tall : 1 ≤ s.tableHeight) :
    actionTable s =
      [Ansi.setScrollingMargins 0 (s.termHeight - s.tableHeight), Ansi.setCursor (s.termHeight - s.tableHeight + 1) 0] ++
        intendedTable s ++
        (if 0 < s.runningActions.length ∧ s.runningActions.length < s.tableHeight.toNat then
          [newline, Ansi.clearToEndOfLine]
        else if s.runningActions.length = s.tableHeight.toNat then [Ansi.clearToEndOfLine]
        else []) ++
        [Ansi.setCursor (s.termHeight - s.tableHeight) 0] := by
  have body : actionTable s =
      [Ansi.setScrollingMargins 0 (s.termHeight - s.tableHeight), Ansi.setCursor (s.termHeight - s.tableHeight + 1) 0] ++
        tableBody s ++ [Ansi.setCursor (s.termHeight - s.tableHeight) 0] := by
    rw [actionTable, tableBody, List.append_assoc _ (rangeLoop s 0 0 s.runningActions).1]
  rw [body]
  -- the four cases of the number of actions against the height of the table
  rcases Nat.eq_zero_or_pos s.runningActions.length with none | some
  · rw [tableBody_of_none tall none, if_neg (by omega), if_neg (by omega), List.append_nil]
  · rcases Nat.lt_trichotomy s.runningActions.length s.tableHeight.toNat with short | full | long
    · rw [tableBody_of_short tall some short, if_pos ⟨some, short⟩]
      simp only [List.append_assoc]
    · rw [tableBody_of_full tall full, if_neg (by omega), if_pos full]
      simp only [List.append_assoc]
    · rw [tableBody_of_long tall long, if_neg (by omega), if_neg (by omega), List.append_nil]

/-- One running action and a table two lines high. -/
def oneOfTwo : SmartStatusOutput := ⟨80, 24, 2, [⟨asciiBytes "cc", [], 5⟩]⟩

/-- The table of two lines needs one newline, and `actionTable` writes two. -/
theorem actionTable_oneOfTwo :
    1 ≤ oneOfTwo.tableHeight ∧ (intendedTable oneOfTwo).count newline = 1 ∧
      (actionTable oneOfTwo).count newline = 2 :=
  ⟨by decide, by decide, by rw [actionTable_eq oneOfTwo (by decide)]; decide⟩

end Soong.Ui.Terminal
