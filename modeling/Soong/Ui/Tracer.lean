import Soong.Ui.Calls

namespace Soong.Ui.Tracer

/-- `actionStatus`: the row an action runs on and when it started, in nanoseconds. -/
structure ActionStatus where
  cpu : Nat
  start : Nat
  deriving DecidableEq, Repr

/-- The fields of `viewerEvent` the status tracer fills. -/
structure ViewerEvent where
  name : String
  phase : String
  time : Nat
  dur : Nat
  pid : Nat
  tid : Nat
  deriving DecidableEq, Repr

/-- The status output of `ui/tracer/status.go`. It gives each action the `Status` starts a row of
the trace, the first row not busy, and writes a complete event on that row when the action
finishes. No two running actions share a row, so while the clock does not go back the events of
one row never overlap; and the greedy choice of rows opens exactly as many rows as the most
actions that ever run at once.

`statusOutput`: which rows are busy, the row and start of each running action, and the events
it has written to the tracer, in order. -/
structure StatusOutput where
  cpus : List Bool
  running : Nat → Option ActionStatus
  events : List ViewerEvent

/-- What the `Status` hands its outputs, with the time the call reads from the clock. The calls
that write nothing to the trace (`Message`, `Flush`, `Write`) are left out. -/
inductive Event where
  | startAction (action : Nat) (now : Nat)
  | finishAction (action : Nat) (info : ActionInfo) (now : Nat)
  deriving DecidableEq, Repr

def Event.now : Event → Nat
  | .startAction _ now => now
  | .finishAction _ _ now => now

/-- The action a call starts, if it is a `StartAction`. -/
def Event.started : Event → List Nat
  | .startAction action _ => [action]
  | .finishAction _ _ _ => []

namespace StatusOutput

def init : StatusOutput := ⟨[], fun _ => none, []⟩

/-- The loop of `StartAction` over `s.cpus`: the first row not busy, now busy, or else a new busy
row after the last. -/
def claimRow (cpus : List Bool) : Nat × List Bool :=
  match cpus.findIdx? (!·) with
  | some cpu => (cpu, cpus.set cpu true)
  | none => (cpus.length, cpus ++ [true])

def startAction (s : StatusOutput) (action now : Nat) : StatusOutput :=
  { s with cpus := (claimRow s.cpus).2,
           running := Function.update s.running action (some ⟨(claimRow s.cpus).1, now⟩) }

/-- The event's name: the action's first output, or its description when it has none. -/
def eventName (info : ActionInfo) : String :=
  match info.outputs with
  | output :: _ => output
  | [] => info.description

/-- `FinishAction` at time `now`: an action not running is ignored; a running one frees its row
and is written as a complete event on it, in microseconds. -/
def finishAction (s : StatusOutput) (action : Nat) (info : ActionInfo) (now : Nat) : StatusOutput :=
  match s.running action with
  | none => s
  | some start =>
    { cpus := s.cpus.set start.cpu false,
      running := Function.update s.running action none,
      events := s.events ++ [⟨eventName info, "X", start.start / 1000, (now - start.start) / 1000, 1, start.cpu⟩] }

def step (s : StatusOutput) : Event → StatusOutput
  | .startAction action now => s.startAction action now
  | .finishAction action info now => s.finishAction action info now

def run (s : StatusOutput) (events : List Event) : StatusOutput :=
  events.foldl step s

@[simp] theorem run_nil (s : StatusOutput) : s.run [] = s := rfl

@[simp] theorem run_cons (s : StatusOutput) (e : Event) (events : List Event) :
    s.run (e :: events) = (s.step e).run events := rfl

section ClaimRow

variable (cpus : List Bool)

/-- The row claimed was not busy before. -/
theorem claimRow_free : cpus[(claimRow cpus).1]? ≠ some true := by
  unfold claimRow
  split
  · rename_i cpu found
    obtain ⟨within, free, -⟩ := List.findIdx?_eq_some_iff_getElem.mp found
    simp_all
  · simp

theorem claimRow_busy : (claimRow cpus).2[(claimRow cpus).1]? = some true := by
  unfold claimRow
  split
  · rename_i cpu found
    obtain ⟨within, -, -⟩ := List.findIdx?_eq_some_iff_getElem.mp found
    exact List.getElem?_set_self within
  · simp

/-- The other rows keep their state. -/
theorem claimRow_other {j : Nat} (other : j ≠ (claimRow cpus).1) (within : j < cpus.length) :
    (claimRow cpus).2[j]? = cpus[j]? := by
  unfold claimRow at other ⊢
  split
  · rename_i cpu found
    simp only [found] at other
    exact List.getElem?_set_ne (Ne.symm other)
  · exact List.getElem?_append_left within

/-- One row more is busy. -/
theorem count_claimRow : (claimRow cpus).2.count true = cpus.count true + 1 := by
  unfold claimRow
  split
  · rename_i cpu found
    obtain ⟨within, free, -⟩ := List.findIdx?_eq_some_iff_getElem.mp found
    rw [List.count_set within]
    simp_all
  · simp

/-- A new row is opened only when every row is busy. -/
theorem length_claimRow :
    (claimRow cpus).2.length = cpus.length ∨ (claimRow cpus).2.length = cpus.length + 1 ∧ cpus.count true = cpus.length := by
  unfold claimRow
  split
  · exact Or.inl List.length_set
  · rename_i none
    refine Or.inr ⟨by simp, List.count_eq_length.mpr fun b member => ?_⟩
    simpa using List.findIdx?_eq_none_iff.mp none b member

end ClaimRow

/-- Every running action's row is busy, and no two running actions share a row. -/
structure Rows (s : StatusOutput) : Prop where
  busy : ∀ a st, s.running a = some st → s.cpus[st.cpu]? = some true
  distinct : ∀ a b sa sb, s.running a = some sa → s.running b = some sb → sa.cpu = sb.cpu → a = b

theorem Rows.init : Rows init where
  busy a st running := by simp [StatusOutput.init] at running
  distinct a b sa sb running := by simp [StatusOutput.init] at running

section Rows

variable {s : StatusOutput} (rows : Rows s)
include rows

/-- A running action is on a row other than the one `StartAction` claims. -/
theorem Rows.ne_claimRow {a : Nat} {st : ActionStatus} (running : s.running a = some st) :
    st.cpu ≠ (claimRow s.cpus).1 := by
  intro same
  have free := claimRow_free s.cpus
  rw [← same, rows.busy a st running] at free
  exact free rfl

theorem Rows.startAction (action now : Nat) : Rows (s.startAction action now) := by
  constructor
  · intro a st running
    simp only [StatusOutput.startAction, Function.update_apply] at running ⊢
    split at running
    · cases running
      exact claimRow_busy s.cpus
    · have busy := rows.busy a st running
      rw [claimRow_other s.cpus (rows.ne_claimRow running) (List.getElem?_eq_some_iff.mp busy).1]
      exact busy
  · intro a b sa sb runningA runningB same
    simp only [StatusOutput.startAction, Function.update_apply] at runningA runningB
    split at runningA <;> split at runningB
    · simp_all
    · cases runningA
      exact absurd same.symm (rows.ne_claimRow runningB)
    · cases runningB
      exact absurd same (rows.ne_claimRow runningA)
    · exact rows.distinct a b sa sb runningA runningB same

theorem Rows.finishAction (action : Nat) (info : ActionInfo) (now : Nat) :
    Rows (s.finishAction action info now) := by
  unfold StatusOutput.finishAction
  split
  · exact rows
  · rename_i start started
    constructor
    · intro a st running
      simp only [Function.update_apply] at running
      split at running
      · cases running
      · rename_i other
        have apart : start.cpu ≠ st.cpu := fun same => other (rows.distinct a action st start running started same.symm)
        rw [List.getElem?_set_ne apart]
        exact rows.busy a st running
    · intro a b sa sb runningA runningB same
      simp only [Function.update_apply] at runningA runningB
      split at runningA
      · cases runningA
      · split at runningB
        · cases runningB
        · exact rows.distinct a b sa sb runningA runningB same

theorem Rows.step (e : Event) : Rows (s.step e) := by
  cases e with
  | startAction action now => exact rows.startAction action now
  | finishAction action info now => exact rows.finishAction action info now

end Rows

theorem Rows.run {s : StatusOutput} (rows : Rows s) (events : List Event) : Rows (s.run events) := by
  induction events generalizing s with
  | nil => exact rows
  | cons e events ih => exact ih (rows.step e)

/-- What the clock at `clock` says of the trace: the running actions started by then; every event
written ended by then, and before each action now running on its row started; and the events of
one row, in the order written, each end before the next begins. -/
structure Timed (s : StatusOutput) (clock : Nat) : Prop where
  started : ∀ a st, s.running a = some st → st.start ≤ clock
  ended : ∀ e ∈ s.events, e.time + e.dur ≤ clock / 1000
  before : ∀ e ∈ s.events, ∀ a st, s.running a = some st → e.tid = st.cpu → e.time + e.dur ≤ st.start / 1000
  disjoint : s.events.Pairwise fun e e' => e.tid = e'.tid → e.time + e.dur ≤ e'.time

theorem Timed.init : Timed init 0 where
  started a st running := by simp [StatusOutput.init] at running
  ended e written := by simp [StatusOutput.init] at written
  before e written := by simp [StatusOutput.init] at written
  disjoint := List.Pairwise.nil

section Timed

variable {s : StatusOutput} {clock now : Nat} (timed : Timed s clock) (later : clock ≤ now)
include timed later

theorem Timed.mono : Timed s now where
  started a st running := (timed.started a st running).trans later
  ended e written := (timed.ended e written).trans (Nat.div_le_div_right later)
  before := timed.before
  disjoint := timed.disjoint

/-- A new action starts at `now`, after every event written so far has ended. -/
theorem Timed.startAction (action : Nat) : Timed (s.startAction action now) now := by
  have mono := timed.mono later
  constructor
  · intro a st running
    simp only [StatusOutput.startAction, Function.update_apply] at running
    split at running
    · cases running
      exact le_rfl
    · exact mono.started a st running
  · exact mono.ended
  · intro e written a st running sameRow
    simp only [StatusOutput.startAction, Function.update_apply] at running
    split at running
    · cases running
      exact mono.ended e written
    · exact timed.before e written a st running sameRow
  · exact timed.disjoint

/-- A finished action's event begins after every earlier event of its row ended, and ends by
`now`; no other running action is on its row. -/
theorem Timed.finishAction (rows : Rows s) (action : Nat) (info : ActionInfo) :
    Timed (s.finishAction action info now) now := by
  unfold StatusOutput.finishAction
  split
  · exact timed.mono later
  · rename_i start started
    have began := timed.started action start started
    constructor
    · intro a st running
      simp only [Function.update_apply] at running
      split at running
      · cases running
      · exact (timed.started a st running).trans later
    · intro e written
      rcases List.mem_append.mp written with old | new
      · exact (timed.ended e old).trans (Nat.div_le_div_right later)
      · rw [List.mem_singleton.mp new]
        dsimp only
        omega
    · intro e written a st running sameRow
      simp only [Function.update_apply] at running
      split at running
      · cases running
      · rename_i other
        rcases List.mem_append.mp written with old | new
        · exact timed.before e old a st running sameRow
        · rw [List.mem_singleton.mp new] at sameRow
          exact absurd (rows.distinct a action st start running started sameRow.symm) other
    · refine List.pairwise_append.mpr ⟨timed.disjoint, List.pairwise_singleton _ _, ?_⟩
      intro e old e' new sameRow
      rw [List.mem_singleton.mp new] at sameRow ⊢
      exact timed.before e old action start started sameRow

end Timed

theorem Timed.step {s : StatusOutput} {clock : Nat} (timed : Timed s clock) (rows : Rows s) {e : Event}
    (reached : clock ≤ e.now) : Timed (s.step e) e.now := by
  cases e with
  | startAction action now => exact timed.startAction reached action
  | finishAction action info now => exact timed.finishAction reached rows action info

/-- Over a run whose clock does not go back, from a state that keeps both invariants. -/
theorem Timed.run {s : StatusOutput} {clock : Nat} (rows : Rows s) (timed : Timed s clock) (events : List Event)
    (sorted : events.Pairwise fun e f => e.now ≤ f.now) (after : ∀ e ∈ events, clock ≤ e.now) :
    ∃ clock', Timed (s.run events) clock' := by
  induction events generalizing s clock with
  | nil => exact ⟨clock, timed⟩
  | cons e events ih =>
    obtain ⟨first, rest⟩ := List.pairwise_cons.mp sorted
    exact ih (rows.step e) (timed.step rows (after e List.mem_cons_self)) rest first

end StatusOutput

open StatusOutput

/-- While the clock the `Status` reads does not go back, the events the status tracer writes on
one row of the trace never overlap: of two events of a row, the one written first ends before the
other begins. -/
theorem tracer_rows_never_overlap (events : List Event) (sorted : events.Pairwise fun e f => e.now ≤ f.now) :
    (init.run events).events.Pairwise fun e e' => e.tid = e'.tid → e.time + e.dur ≤ e'.time := by
  obtain ⟨clock, timed⟩ := Timed.run Rows.init Timed.init events sorted fun _ _ => Nat.zero_le _
  exact timed.disjoint

theorem tracer_rows_never_overlap_three :
    (init.run [.startAction 1 0, .startAction 2 1000, .finishAction 1 ⟨"cc a", [], ""⟩ 5000,
        .startAction 3 6000, .finishAction 2 ⟨"cc b", [], ""⟩ 7000, .finishAction 3 ⟨"cc c", [], ""⟩ 9000]).events.Pairwise
      fun e e' => e.tid = e'.tid → e.time + e.dur ≤ e'.time :=
  tracer_rows_never_overlap _ (by decide)


section Peak

/-- The actions started and not yet finished, as the calls come. -/
def liveStep (live : List Nat) : Event → List Nat
  | .startAction action _ => action :: live
  | .finishAction action _ _ => live.erase action

/-- The running actions are exactly the live ones, and as many rows are busy. -/
structure Counted (s : StatusOutput) (live : List Nat) : Prop where
  running : ∀ a, (s.running a).isSome ↔ a ∈ live
  busy : s.cpus.count true = live.length
  distinct : live.Nodup

theorem Counted.init : Counted init [] where
  running a := by simp [StatusOutput.init]
  busy := rfl
  distinct := List.nodup_nil

variable {s : StatusOutput} {live : List Nat}

theorem Counted.step (counted : Counted s live) (rows : Rows s) (e : Event) (fresh : ∀ a ∈ e.started, a ∉ live) :
    Counted (s.step e) (liveStep live e) := by
  cases e with
  | startAction action now =>
    have new := fresh action List.mem_cons_self
    constructor
    · intro a
      by_cases same : a = action
      · simp [StatusOutput.step, StatusOutput.startAction, liveStep, same]
      · simp [StatusOutput.step, StatusOutput.startAction, liveStep, same, counted.running a]
    · simp [StatusOutput.step, StatusOutput.startAction, liveStep, count_claimRow, counted.busy]
    · exact List.nodup_cons.mpr ⟨new, counted.distinct⟩
  | finishAction action info now =>
    simp only [StatusOutput.step, liveStep, StatusOutput.finishAction]
    split
    · rename_i idle
      have gone : action ∉ live := fun member => by
        have running := (counted.running action).mpr member
        simp [idle] at running
      rw [List.erase_of_not_mem gone]
      exact counted
    · rename_i start started
      have member : action ∈ live := (counted.running action).mp (by simp [started])
      have busy := rows.busy action start started
      constructor
      · intro a
        by_cases same : a = action
        · simp [same, counted.distinct.not_mem_erase]
        · simp [counted.running a, counted.distinct.mem_erase_iff, same]
      · obtain ⟨within, atRow⟩ := List.getElem?_eq_some_iff.mp busy
        rw [List.count_set within, List.length_erase_of_mem member, counted.busy]
        simp [atRow]
      · exact counted.distinct.erase action

/-- The most actions running at once, from `live` on, over the calls `events`. -/
def peakRunning (live : List Nat) : List Event → Nat
  | [] => live.length
  | e :: events => max live.length (peakRunning (liveStep live e) events)

theorem length_le_peakRunning (live : List Nat) (events : List Event) : live.length ≤ peakRunning live events := by
  cases events with
  | nil => exact le_rfl
  | cons e events => exact le_max_left _ _

/-- Rows are never closed. -/
theorem length_le_step (s : StatusOutput) (e : Event) : s.cpus.length ≤ (s.step e).cpus.length := by
  cases e with
  | startAction action now =>
    rcases length_claimRow s.cpus with same | ⟨grown, -⟩
    · exact same.ge
    · simp only [StatusOutput.step, StatusOutput.startAction, grown]
      omega
  | finishAction action info now =>
    simp only [StatusOutput.step, StatusOutput.finishAction]
    split
    · exact le_rfl
    · simp

/-- A step opens a row only for an action that runs beside as many others as there are rows. -/
theorem Counted.length_step (counted : Counted s live) (e : Event) :
    (s.step e).cpus.length ≤ max s.cpus.length (liveStep live e).length := by
  cases e with
  | startAction action now =>
    simp only [StatusOutput.step, StatusOutput.startAction, liveStep, List.length_cons]
    rcases length_claimRow s.cpus with same | ⟨grown, full⟩
    · omega
    · rw [counted.busy] at full
      omega
  | finishAction action info now =>
    simp only [StatusOutput.step, StatusOutput.finishAction]
    split
    · omega
    · simp

/-- Over a run that starts each action once, the rows come to the most actions that run at once,
or to the rows there were. The induction is on the calls, carrying the live actions and those
started so far. -/
theorem Counted.length_run (counted : Counted s live) (rows : Rows s) (events : List Event) (seen : List Nat)
    (within : ∀ a ∈ live, a ∈ seen) (once : (seen ++ events.flatMap Event.started).Nodup) :
    (s.run events).cpus.length = max s.cpus.length (peakRunning live events) := by
  induction events generalizing s live seen with
  | nil =>
    have busy := counted.busy ▸ List.count_le_length (a := true) (l := s.cpus)
    simp only [run_nil, peakRunning]
    omega
  | cons e events ih =>
    rw [List.flatMap_cons, ← List.append_assoc] at once
    have fresh : ∀ a ∈ e.started, a ∉ live := fun a new old =>
      List.disjoint_of_nodup_append (List.Nodup.of_append_left once) (within a old) new
    have within' : ∀ a ∈ liveStep live e, a ∈ seen ++ e.started := by
      intro a member
      cases e with
      | startAction action now =>
        rcases List.mem_cons.mp member with same | old
        · simp [Event.started, same]
        · exact List.mem_append_left _ (within a old)
      | finishAction action info now => exact List.mem_append_left _ (within a (List.mem_of_mem_erase member))
    have rest := ih (counted.step rows e fresh) (rows.step e) (seen ++ e.started) within' once
    have grows := length_le_step s e
    have bounded := counted.length_step e
    have peak := length_le_peakRunning (liveStep live e) events
    have busy := counted.busy ▸ List.count_le_length (a := true) (l := s.cpus)
    simp only [run_cons, peakRunning]
    omega

end Peak


/-- Given actions each started once, as the `ToolStatus` contract asks, the status tracer's
first-free choice of rows opens exactly as many rows of the trace as the most actions that ever
run at once. -/
theorem tracer_rows_peak (events : List Event) (once : (events.flatMap Event.started).Nodup) :
    (init.run events).cpus.length = peakRunning [] events := by
  have rows := Counted.init.length_run Rows.init events [] (by simp) (by simpa using once)
  simpa [StatusOutput.init] using rows

theorem tracer_rows_peak_two :
    (init.run [.startAction 1 0, .startAction 2 1000, .finishAction 1 ⟨"cc a", [], ""⟩ 5000,
        .startAction 3 6000, .finishAction 2 ⟨"cc b", [], ""⟩ 7000, .finishAction 3 ⟨"cc c", [], ""⟩ 9000]).cpus.length =
      peakRunning [] [.startAction 1 0, .startAction 2 1000, .finishAction 1 ⟨"cc a", [], ""⟩ 5000,
        .startAction 3 6000, .finishAction 2 ⟨"cc b", [], ""⟩ 7000, .finishAction 3 ⟨"cc c", [], ""⟩ 9000] :=
  tracer_rows_peak _ (by decide)

end Soong.Ui.Tracer
