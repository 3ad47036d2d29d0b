import Mathlib
import Soong.Go.Io

namespace Soong.Ui

/-- The number of actions in each state (`status.Counts`). Go's fields are 64-bit `int`s. Only
the `Status` total reaches the wrap, as a sum of the totals the tools set
(`Status.updateTotalActions`): a tool's own total lies between its started actions and its
caller's `int` argument, and the other counters grow by one for each call, so they are kept
unbounded. -/
structure Counts where
  totalActions : Int
  runningActions : Int
  startedActions : Int
  finishedActions : Int
  deriving DecidableEq, Repr

def Counts.zero : Counts := ⟨0, 0, 0, 0⟩

/-- The percentage `100*FinishedActions/TotalActions` that `formatter.progress` prints. Go's
integer division truncates and panics on a zero divisor, which is `none` here. -/
def progressPercent (counts : Counts) : Option Int :=
  if counts.totalActions = 0 then none
  else some ((100 * counts.finishedActions).tdiv counts.totalActions)

/-- The shared accumulator: its counts, and every `Counts` it has handed to its outputs. -/
structure Status where
  counts : Counts
  reported : List Counts

namespace Status

/-- `s.counts.TotalActions += diff` in Go's 64-bit `int`. -/
def updateTotalActions (s : Status) (diff : Int) : Status :=
  { s with counts := { s.counts with totalActions := Go.int64 (s.counts.totalActions + diff) } }

def startAction (s : Status) : Status :=
  let counts := { s.counts with runningActions := s.counts.runningActions + 1,
                                startedActions := s.counts.startedActions + 1 }
  { counts, reported := s.reported ++ [counts] }

def finishAction (s : Status) : Status :=
  let counts := { s.counts with runningActions := s.counts.runningActions - 1,
                                finishedActions := s.counts.finishedActions + 1 }
  { counts, reported := s.reported ++ [counts] }

@[simp] theorem updateTotalActions_counts (s : Status) (diff : Int) :
    (s.updateTotalActions diff).counts =
      { s.counts with totalActions := Go.int64 (s.counts.totalActions + diff) } := rfl

@[simp] theorem updateTotalActions_reported (s : Status) (diff : Int) :
    (s.updateTotalActions diff).reported = s.reported := rfl

/-- The total that `if diff != 0 { d.status.updateTotalActions(diff) }` leaves. -/
def guardedTotal (total diff : Int) : Int :=
  if diff = 0 then total else Go.int64 (total + diff)

@[simp] theorem guardedTotal_zero (total : Int) : guardedTotal total 0 = total := if_pos rfl

/-- The guard skips only a zero difference, so on a total that is already wrapped it wraps the
exact sum. -/
theorem guardedTotal_int64 (sum diff : Int) : guardedTotal (Go.int64 sum) diff = Go.int64 (sum + diff) := by
  unfold guardedTotal
  split
  · rename_i zero
    rw [zero, Int.add_zero]
  · exact Go.int64_int64_add sum diff

/-- The guard, in the form `simp` leaves `if diff != 0`. -/
@[simp] theorem guarded_counts (s : Status) (diff : Int) :
    (if diff = 0 then s else s.updateTotalActions diff).counts =
      { s.counts with totalActions := guardedTotal s.counts.totalActions diff } := by
  by_cases zero : diff = 0 <;> simp [zero, guardedTotal]

@[simp] theorem guarded_reported (s : Status) (diff : Int) :
    (if diff = 0 then s else s.updateTotalActions diff).reported = s.reported := by
  split <;> rfl

@[simp] theorem startAction_counts (s : Status) :
    s.startAction.counts = { s.counts with runningActions := s.counts.runningActions + 1,
                                           startedActions := s.counts.startedActions + 1 } := rfl

@[simp] theorem startAction_reported (s : Status) :
    s.startAction.reported = s.reported ++ [s.startAction.counts] := rfl

@[simp] theorem finishAction_counts (s : Status) :
    s.finishAction.counts = { s.counts with runningActions := s.counts.runningActions - 1,
                                            finishedActions := s.counts.finishedActions + 1 } := rfl

@[simp] theorem finishAction_reported (s : Status) :
    s.finishAction.reported = s.reported ++ [s.finishAction.counts] := rfl

end Status

namespace ToolStatus

/-- `SetTotalActions` under the tool's lock: the new counts and the difference it then applies
to the `Status`. The methods of `toolStatus` are cut at their lock acquisitions, and each
function of this namespace is the part a method runs while it holds the tool's own lock. -/
def setTotalActions (counts : Counts) (total : Int) : Counts × Int :=
  if total ≥ counts.startedActions ∧ total ≠ counts.totalActions then
    ({ counts with totalActions := total }, total - counts.totalActions)
  else (counts, 0)

def startAction (counts : Counts) : Counts × Int :=
  let counts := { counts with runningActions := counts.runningActions + 1,
                              startedActions := counts.startedActions + 1 }
  if counts.startedActions > counts.totalActions then
    ({ counts with totalActions := counts.startedActions }, counts.startedActions - counts.totalActions)
  else (counts, 0)

def finishAction (counts : Counts) : Counts :=
  { counts with runningActions := counts.runningActions - 1,
                finishedActions := counts.finishedActions + 1 }

/-- `Finish` keeps the tool's lock while it updates the `Status`, so it is one step. -/
def finish (counts : Counts) (status : Status) : Counts × Status :=
  let status := if counts.totalActions ≠ counts.startedActions then
    status.updateTotalActions (counts.startedActions - counts.totalActions) else status
  ({ counts with runningActions := 0, totalActions := counts.startedActions }, status)

end ToolStatus

/-- What a call still has to do after it released its tool's lock. -/
inductive Pending where
  /-- `SetTotalActions`, before `d.status.updateTotalActions(diff)`. -/
  | updateTotal (diff : Int)
  /-- `StartAction`, before its `d.status.updateTotalActions(totalDiff)`. -/
  | startTotal (action : Nat) (totalDiff : Int)
  /-- `StartAction`, before `d.status.startAction(action)`. -/
  | start (action : Nat)
  /-- `FinishAction`, before `d.status.finishAction(result)`. -/
  | finish (action : Nat)
  deriving DecidableEq, Repr

/-- One `Status`, `n` tools started from it, and the calls in flight on each tool. The two
action lists record what the callers have done, which the interface's contract refers to:
the actions whose `StartAction` has returned, with their tool, and those passed to
`FinishAction`. -/
structure System (n : Nat) where
  status : Status
  tools : Fin n → Counts
  pending : Fin n → List Pending
  returned : List (Nat × Fin n)
  finishing : List Nat

namespace System

variable {n : Nat}

def init : System n := ⟨⟨Counts.zero, []⟩, fun _ => Counts.zero, fun _ => [], [], []⟩

/-- Tool `t`'s lock region of a call: its new counts, and the call left in flight. -/
def lockTool (s : System n) (t : Fin n) (counts : Counts) (call : Pending) : System n :=
  { s with tools := Function.update s.tools t counts,
           pending := Function.update s.pending t (call :: s.pending t) }

def setTotalActions (s : System n) (t : Fin n) (total : Int) : System n :=
  let (counts, diff) := ToolStatus.setTotalActions (s.tools t) total
  s.lockTool t counts (.updateTotal diff)

def startAction (s : System n) (t : Fin n) (action : Nat) : System n :=
  let (counts, totalDiff) := ToolStatus.startAction (s.tools t)
  s.lockTool t counts (.startTotal action totalDiff)

def finishAction (s : System n) (t : Fin n) (action : Nat) : System n :=
  { s.lockTool t (ToolStatus.finishAction (s.tools t)) (.finish action) with
    finishing := action :: s.finishing }

def finish (s : System n) (t : Fin n) : System n :=
  let (counts, status) := ToolStatus.finish (s.tools t) s.status
  { s with status, tools := Function.update s.tools t counts }

/-- The next part of the in-flight call `call` of tool `t`: one step under the `Status` lock. -/
def resume (s : System n) (t : Fin n) (call : Pending) : System n :=
  let rest := (s.pending t).erase call
  match call with
  | .updateTotal diff =>
    { s with status := if diff ≠ 0 then s.status.updateTotalActions diff else s.status,
             pending := Function.update s.pending t rest }
  | .startTotal action totalDiff =>
    { s with status := if totalDiff ≠ 0 then s.status.updateTotalActions totalDiff else s.status,
             pending := Function.update s.pending t (.start action :: rest) }
  | .start action =>
    { s with status := s.status.startAction, pending := Function.update s.pending t rest,
             returned := (action, t) :: s.returned }
  | .finish _ => { s with status := s.status.finishAction, pending := Function.update s.pending t rest }

end System

/-- One atomic step of some call. A call on tool `t` begins with its lock region; with
`sequential`, only once the previous call on `t` has returned. A `FinishAction` takes an
action whose `StartAction` on the same tool has returned and that was not finished before. -/
inductive Step {n : Nat} (sequential : Bool) : System n → System n → Prop
  | setTotalActions {s : System n} (t : Fin n) (total : Int) (idle : sequential → s.pending t = []) :
      Step sequential s (s.setTotalActions t total)
  | startAction {s : System n} (t : Fin n) (action : Nat) (idle : sequential → s.pending t = []) :
      Step sequential s (s.startAction t action)
  | finishAction {s : System n} (t : Fin n) (action : Nat) (idle : sequential → s.pending t = [])
      (started : (action, t) ∈ s.returned) (once : action ∉ s.finishing) :
      Step sequential s (s.finishAction t action)
  | finish {s : System n} (t : Fin n) (idle : sequential → s.pending t = []) :
      Step sequential s (s.finish t)
  | resume {s : System n} (t : Fin n) (call : Pending) (inFlight : call ∈ s.pending t) :
      Step sequential s (s.resume t call)

inductive Reachable {n : Nat} (sequential : Bool) : System n → Prop
  | init : Reachable sequential System.init
  | next {s s' : System n} : Reachable sequential s → Step sequential s s' → Reachable sequential s'

section Specs

namespace ToolStatus

theorem setTotalActions_eq (counts : Counts) (total : Int) :
    ∃ diff, setTotalActions counts total = ({ counts with totalActions := counts.totalActions + diff }, diff) ∧
      (counts.startedActions ≤ counts.totalActions → counts.startedActions ≤ counts.totalActions + diff) := by
  unfold setTotalActions
  split
  · rename_i raise
    exact ⟨total - counts.totalActions, by simp, fun _ => by omega⟩
  · exact ⟨0, by simp, fun bound => by omega⟩

/-- `StartAction` raises the tool's total to cover every started action. -/
theorem startAction_eq (counts : Counts) :
    ∃ diff, startAction counts = ({ counts with runningActions := counts.runningActions + 1,
                                                startedActions := counts.startedActions + 1,
                                                totalActions := counts.totalActions + diff }, diff) ∧
      counts.startedActions + 1 ≤ counts.totalActions + diff := by
  by_cases above : counts.startedActions + 1 > counts.totalActions
  · exact ⟨counts.startedActions + 1 - counts.totalActions, by simp [startAction, above], by omega⟩
  · exact ⟨0, by simp [startAction, above], by omega⟩

/-- `Finish`'s guard `TotalActions != StartedActions` is the `diff != 0` of the other calls. -/
theorem finish_eq (counts : Counts) (status : Status) :
    finish counts status = ({ counts with runningActions := 0, totalActions := counts.startedActions },
      if counts.startedActions - counts.totalActions ≠ 0 then
        status.updateTotalActions (counts.startedActions - counts.totalActions) else status) := by
  by_cases same : counts.totalActions = counts.startedActions
  · simp [finish, same]
  · have moved : counts.startedActions - counts.totalActions ≠ 0 := by omega
    simp [finish, same, moved]

end ToolStatus

namespace Pending

/-- What an in-flight call has yet to add to the `Status`'s `TotalActions`, `StartedActions`
and `FinishedActions`. -/
def totalDiff : Pending → Int
  | .updateTotal diff => diff
  | .startTotal _ totalDiff => totalDiff
  | _ => 0

def starts : Pending → Int
  | .startTotal _ _ => 1
  | .start _ => 1
  | _ => 0

def finishes : Pending → Int
  | .finish _ => 1
  | _ => 0

theorem finishes_nonneg (calls : List Pending) : 0 ≤ (calls.map finishes).sum :=
  List.sum_nonneg fun _ member => by
    obtain ⟨call, -, rfl⟩ := List.mem_map.mp member
    cases call <;> simp [finishes]

end Pending

end Specs

namespace System

variable {n : Nat}

/-- What tool `t` has handed on to the `Status` for one counter: its own counter less what its
calls in flight have yet to apply. -/
def applied (s : System n) (field : Counts → Int) (owed : Pending → Int) (t : Fin n) : Int :=
  field (s.tools t) - ((s.pending t).map owed).sum

theorem sum_eq_add_of_eq_off {f g : Fin n → Int} (t : Fin n) (same : ∀ u, u ≠ t → f u = g u) :
    ∑ u, f u = ∑ u, g u + (f t - g t) := by
  have rest : ∑ u ∈ Finset.univ.erase t, f u = ∑ u ∈ Finset.univ.erase t, g u :=
    Finset.sum_congr rfl fun u member => same u (Finset.ne_of_mem_erase member)
  rw [← Finset.add_sum_erase _ _ (Finset.mem_univ t), ← Finset.add_sum_erase _ _ (Finset.mem_univ t), rest]
  omega

/-- A step that touches only tool `t` and moves each of the three counters of the `Status` by
what tool `t`'s handed-on share of it moved, the total through the guard and the wrap. -/
structure Shift (s s' : System n) (t : Fin n) : Prop where
  others : ∀ u, u ≠ t → s'.tools u = s.tools u ∧ s'.pending u = s.pending u
  total : s'.status.counts.totalActions = Status.guardedTotal s.status.counts.totalActions
    (s'.applied Counts.totalActions Pending.totalDiff t - s.applied Counts.totalActions Pending.totalDiff t)
  started : s'.status.counts.startedActions - s.status.counts.startedActions =
    s'.applied Counts.startedActions Pending.starts t - s.applied Counts.startedActions Pending.starts t
  finished : s'.status.counts.finishedActions - s.status.counts.finishedActions =
    s'.applied Counts.finishedActions Pending.finishes t - s.applied Counts.finishedActions Pending.finishes t

theorem Shift.sum_applied {s s' : System n} {t : Fin n} (shift : Shift s s' t) (field : Counts → Int)
    (owed : Pending → Int) :
    ∑ u, s'.applied field owed u = ∑ u, s.applied field owed u + (s'.applied field owed t - s.applied field owed t) :=
  sum_eq_add_of_eq_off t fun u other => by
    obtain ⟨tools, pending⟩ := shift.others u other
    simp only [applied, tools, pending]

variable {s : System n} {t : Fin n}

@[simp] theorem lockTool_status (counts : Counts) (call : Pending) : (s.lockTool t counts call).status = s.status :=
  rfl

@[simp] theorem lockTool_returned (counts : Counts) (call : Pending) :
    (s.lockTool t counts call).returned = s.returned :=
  rfl

@[simp] theorem lockTool_finishing (counts : Counts) (call : Pending) :
    (s.lockTool t counts call).finishing = s.finishing :=
  rfl


/-- A lock region that moves the tool's own counters by exactly what its call leaves owing
keeps the `Status` in step. -/
theorem shift_of_lock {s' : System n} (counts : Counts) (call : Pending) (status : s'.status = s.status)
    (tools : s'.tools = Function.update s.tools t counts)
    (pending : s'.pending = Function.update s.pending t (call :: s.pending t))
    (total : counts.totalActions - call.totalDiff = (s.tools t).totalActions)
    (started : counts.startedActions - call.starts = (s.tools t).startedActions)
    (finished : counts.finishedActions - call.finishes = (s.tools t).finishedActions) :
    Shift s s' t where
  others u other := by simp [tools, pending, Function.update_of_ne other]
  total := by
    have unmoved : s'.applied Counts.totalActions Pending.totalDiff t -
        s.applied Counts.totalActions Pending.totalDiff t = 0 := by
      simp only [applied, tools, pending, Function.update_self, List.map_cons, List.sum_cons]
      omega
    rw [unmoved, Status.guardedTotal_zero, status]
  started := by simp only [applied, status, tools, pending, Function.update_self, List.map_cons, List.sum_cons]; omega
  finished := by simp only [applied, status, tools, pending, Function.update_self, List.map_cons, List.sum_cons]; omega

theorem shift_setTotalActions (total : Int) : Shift s (s.setTotalActions t total) t := by
  obtain ⟨diff, run, -⟩ := ToolStatus.setTotalActions_eq (s.tools t) total
  refine shift_of_lock { s.tools t with totalActions := (s.tools t).totalActions + diff } (.updateTotal diff)
    ?_ ?_ ?_ ?_ ?_ ?_ <;>
  simp [setTotalActions, run, lockTool, Pending.totalDiff, Pending.starts, Pending.finishes]

theorem shift_startAction (action : Nat) : Shift s (s.startAction t action) t := by
  obtain ⟨diff, run, -⟩ := ToolStatus.startAction_eq (s.tools t)
  refine shift_of_lock { s.tools t with runningActions := (s.tools t).runningActions + 1,
                                        startedActions := (s.tools t).startedActions + 1,
                                        totalActions := (s.tools t).totalActions + diff }
    (.startTotal action diff) ?_ ?_ ?_ ?_ ?_ ?_ <;>
  simp [startAction, run, lockTool, Pending.totalDiff, Pending.starts, Pending.finishes]

theorem shift_finish : Shift s (s.finish t) t := by
  refine ⟨fun u other => ?_, ?_, ?_, ?_⟩
  · simp [finish, Function.update_of_ne other]
  · -- `Finish` settles the tool's total at its started actions and hands on the difference
    simp only [finish, ToolStatus.finish_eq, ite_not, Status.guarded_counts, applied, Function.update_self]
    congr 1
    omega
  all_goals simp [finish, ToolStatus.finish_eq, applied]

/-- The rest of a call hands the `Status` what the call owed, and no more. -/
theorem shift_resume {call : Pending} (inFlight : call ∈ s.pending t) : Shift s (s.resume t call) t := by
  have owed (f : Pending → Int) := List.sum_map_erase f inFlight
  have total := owed Pending.totalDiff
  have started := owed Pending.starts
  have finished := owed Pending.finishes
  refine ⟨fun u other => ?_, ?_, ?_, ?_⟩
  · cases call <;> simp [resume, Function.update_of_ne other]
  · -- the total moves, through the guard, by what the call owed of it
    cases call <;> simp only [resume, ite_not, Status.guarded_counts, Status.startAction_counts,
      Status.finishAction_counts, applied, Function.update_self, List.map_cons, List.sum_cons] <;>
    simp only [Pending.totalDiff] at total ⊢
    case updateTotal diff | startTotal action diff => congr 1; omega
    all_goals rw [show _ - _ = (0 : Int) by omega, Status.guardedTotal_zero]
  all_goals
    cases call <;> simp_all [resume, applied, Pending.starts, Pending.finishes]
    all_goals omega

theorem shift_finishAction (action : Nat) : Shift s (s.finishAction t action) t :=
  shift_of_lock _ (.finish action) rfl rfl rfl (by simp [ToolStatus.finishAction, Pending.totalDiff])
    (by simp [ToolStatus.finishAction, Pending.starts]) (by simp [ToolStatus.finishAction, Pending.finishes])

theorem Shift.sum_finished {s' : System n} (shift : Shift s s' t) :
    ∑ u, (s'.tools u).finishedActions =
      ∑ u, (s.tools u).finishedActions + ((s'.tools t).finishedActions - (s.tools t).finishedActions) :=
  sum_eq_add_of_eq_off t fun u other => by rw [(shift.others u other).1]

/-- A step that shifts the `Status` with tool `t` keeps every tool's total covering its started
actions once it keeps tool `t`'s. -/
theorem Shift.bounded {s' : System n} (shift : Shift s s' t)
    (before : ∀ u, (s.tools u).startedActions ≤ (s.tools u).totalActions)
    (self : (s'.tools t).startedActions ≤ (s'.tools t).totalActions) :
    ∀ u, (s'.tools u).startedActions ≤ (s'.tools u).totalActions := by
  intro u
  by_cases same : u = t
  · subst same
    exact self
  · rw [(shift.others u same).1]
    exact before u

/-- The bookkeeping that every reachable state keeps, whatever the interleaving: the `Status`
holds exactly what the tools have handed on, its total wrapped to 64 bits, and no more actions
finished than returned from `StartAction`. -/
structure Ledger (s : System n) : Prop where
  total : s.status.counts.totalActions = Go.int64 (∑ t, s.applied Counts.totalActions Pending.totalDiff t)
  started : s.status.counts.startedActions = ∑ t, s.applied Counts.startedActions Pending.starts t
  finished : s.status.counts.finishedActions = ∑ t, s.applied Counts.finishedActions Pending.finishes t
  running : s.status.counts.runningActions = s.status.counts.startedActions - s.status.counts.finishedActions
  returned : s.status.counts.startedActions = s.returned.length
  finishing : ∑ t, (s.tools t).finishedActions = s.finishing.length
  distinct : s.finishing.Nodup
  finishingReturned : s.finishing ⊆ s.returned.map Prod.fst
  finishedNonneg : 0 ≤ s.status.counts.finishedActions

theorem Ledger.finished_le_started (ledger : Ledger s) :
    s.status.counts.finishedActions ≤ s.status.counts.startedActions := by
  have handedOn : ∑ t, s.applied Counts.finishedActions Pending.finishes t ≤ ∑ t, (s.tools t).finishedActions :=
    Finset.sum_le_sum fun t _ => by
      have owed := Pending.finishes_nonneg (s.pending t)
      simp only [applied]
      omega
  have fewer : s.finishing.length ≤ s.returned.length := by
    simpa using (List.subperm_of_subset ledger.distinct ledger.finishingReturned).length_le
  calc s.status.counts.finishedActions
      = ∑ t, s.applied Counts.finishedActions Pending.finishes t := ledger.finished
    _ ≤ ∑ t, (s.tools t).finishedActions := handedOn
    _ = s.finishing.length := ledger.finishing
    _ ≤ s.returned.length := by exact_mod_cast fewer
    _ = s.status.counts.startedActions := ledger.returned.symm

theorem Ledger.init : Ledger (init : System n) where
  total := by simp [System.init, applied, Counts.zero]
  started := by simp [System.init, applied, Counts.zero]
  finished := by simp [System.init, applied, Counts.zero]
  running := rfl
  returned := rfl
  finishing := by simp [System.init, Counts.zero]
  distinct := List.nodup_nil
  finishingReturned := List.nil_subset _
  finishedNonneg := le_refl 0

/-- A step that shifts the `Status` with tool `t` keeps the ledger once it moves the other
counters and the action lists in step with each other. -/
theorem Ledger.of_shift {s' : System n} (ledger : Ledger s) (shift : Shift s s' t)
    (running : s'.status.counts.runningActions - s.status.counts.runningActions =
      (s'.status.counts.startedActions - s.status.counts.startedActions) -
        (s'.status.counts.finishedActions - s.status.counts.finishedActions))
    (returned : s'.status.counts.startedActions - s.status.counts.startedActions =
      s'.returned.length - s.returned.length)
    (finishing : (s'.tools t).finishedActions - (s.tools t).finishedActions =
      s'.finishing.length - s.finishing.length)
    (distinct : s'.finishing.Nodup) (finishingReturned : s'.finishing ⊆ s'.returned.map Prod.fst)
    (finishedGrows : s.status.counts.finishedActions ≤ s'.status.counts.finishedActions) : Ledger s' where
  total := by rw [shift.total, ledger.total, Status.guardedTotal_int64, shift.sum_applied]
  started := by have moved := shift.started; rw [shift.sum_applied, ← ledger.started]; omega
  finished := by have moved := shift.finished; rw [shift.sum_applied, ← ledger.finished]; omega
  running := by have before := ledger.running; omega
  returned := by have before := ledger.returned; omega
  finishing := by have before := ledger.finishing; rw [shift.sum_finished]; omega
  distinct := distinct
  finishingReturned := finishingReturned
  finishedNonneg := le_trans ledger.finishedNonneg finishedGrows

theorem Ledger.step {sequential : Bool} {s' : System n} (ledger : Ledger s) (step : Step sequential s s') :
    Ledger s' := by
  cases step with
  | setTotalActions t total =>
    obtain ⟨diff, run, -⟩ := ToolStatus.setTotalActions_eq (s.tools t) total
    refine ledger.of_shift (shift_setTotalActions total) ?_ ?_ ?_ ?_ ?_ ?_ <;>
    simp [setTotalActions, run, lockTool, ledger.distinct, ledger.finishingReturned]
  | startAction t action =>
    obtain ⟨diff, run, -⟩ := ToolStatus.startAction_eq (s.tools t)
    refine ledger.of_shift (shift_startAction action) ?_ ?_ ?_ ?_ ?_ ?_ <;>
    simp [startAction, run, lockTool, ledger.distinct, ledger.finishingReturned]
  | finishAction t action _ started once =>
    have returned : action ∈ s.returned.map Prod.fst := List.mem_map.mpr ⟨_, started, rfl⟩
    refine ledger.of_shift (shift_finishAction action) ?_ ?_ ?_ ?_ ?_ ?_
    · simp [finishAction]
    · simp [finishAction]
    · simp [finishAction, lockTool, ToolStatus.finishAction]
    · exact List.nodup_cons.mpr ⟨once, ledger.distinct⟩
    · exact List.cons_subset.mpr ⟨returned, ledger.finishingReturned⟩
    · simp [finishAction]
  | finish t _ =>
    refine ledger.of_shift shift_finish ?_ ?_ ?_ ?_ ?_ ?_ <;>
    simp [finish, ToolStatus.finish_eq, ledger.distinct, ledger.finishingReturned]
  | resume t call inFlight =>
    -- only `start` hands on a returned action, and only `finish` a finished one
    refine ledger.of_shift (shift_resume inFlight) ?_ ?_ ?_ ?_ ?_ ?_ <;>
    cases call <;> simp [resume, ledger.distinct, ledger.finishingReturned]

end System

namespace System

variable {n : Nat} {s : System n}

/-- A tool's own total covers its started actions after every step: `SetTotalActions` never
sets it lower, `StartAction` raises it, and `Finish` settles it there. -/
theorem bounded_step {sequential : Bool} {s' : System n}
    (bounded : ∀ u, (s.tools u).startedActions ≤ (s.tools u).totalActions) (step : Step sequential s s') :
    ∀ u, (s'.tools u).startedActions ≤ (s'.tools u).totalActions := by
  cases step with
  | setTotalActions t total =>
    obtain ⟨diff, run, raised⟩ := ToolStatus.setTotalActions_eq (s.tools t) total
    refine (shift_setTotalActions total).bounded bounded ?_
    simpa [setTotalActions, run, lockTool] using raised (bounded t)
  | startAction t action =>
    obtain ⟨diff, run, raised⟩ := ToolStatus.startAction_eq (s.tools t)
    refine (shift_startAction action).bounded bounded ?_
    simpa [startAction, run, lockTool] using raised
  | finishAction t action =>
    refine (shift_finishAction action).bounded bounded ?_
    simpa [finishAction, lockTool, ToolStatus.finishAction] using bounded t
  | finish t =>
    refine shift_finish.bounded bounded ?_
    simp [finish, ToolStatus.finish_eq]
  | resume t call => cases call <;> exact bounded

end System

/-- Only the last parts of `StartAction` and `FinishAction` hand a `Counts` to the outputs:
the `Status`'s counts right after one more action started, or one more finished. -/
theorem Step.reported_cases {n : Nat} {sequential : Bool} {s s' : System n} (step : Step sequential s s') :
    s'.status.reported = s.status.reported ∨
      s'.status.reported = s.status.reported ++ [s'.status.counts] ∧
        (s'.status.counts.startedActions = s.status.counts.startedActions + 1 ∨
          s'.status.counts.finishedActions = s.status.counts.finishedActions + 1) := by
  cases step with
  | setTotalActions t total =>
    obtain ⟨diff, run, -⟩ := ToolStatus.setTotalActions_eq (s.tools t) total
    simp [System.setTotalActions, run]
  | startAction t action =>
    obtain ⟨diff, run, -⟩ := ToolStatus.startAction_eq (s.tools t)
    simp [System.startAction, run]
  | finishAction => simp [System.finishAction]
  | finish t => simp [System.finish, ToolStatus.finish_eq]
  | resume t call => cases call <;> simp [System.resume]


/-- What every `Counts` handed to an output keeps under any interleaving: a started action, no
more finished than started, and running ones that are the difference. -/
structure Counts.Coherent (c : Counts) : Prop where
  started : 1 ≤ c.startedActions
  finished : c.finishedActions ≤ c.startedActions
  running : c.runningActions = c.startedActions - c.finishedActions

/-- What the interleavings keep: the ledger, coherent reports, and tools whose own totals cover
their started actions. -/
structure Invariant {n : Nat} (s : System n) : Prop where
  ledger : s.Ledger
  coherent : ∀ c ∈ s.status.reported, c.Coherent
  bounded : ∀ t, (s.tools t).startedActions ≤ (s.tools t).totalActions

theorem System.Ledger.coherent {n : Nat} {s : System n} (ledger : s.Ledger)
    (started : 1 ≤ s.status.counts.startedActions) : s.status.counts.Coherent :=
  ⟨started, ledger.finished_le_started, ledger.running⟩

theorem Invariant.init {n : Nat} : Invariant (System.init : System n) where
  ledger := System.Ledger.init
  coherent := by simp [System.init]
  bounded _ := by simp [System.init, Counts.zero]

theorem Invariant.step {n : Nat} {sequential : Bool} {s s' : System n} (inv : Invariant s)
    (step : Step sequential s s') : Invariant s' := by
  have ledger := inv.ledger.step step
  refine ⟨ledger, fun c member => ?_, System.bounded_step inv.bounded step⟩
  -- a new report is the new counts, right after a started or finished action was counted
  rcases step.reported_cases with same | ⟨appended, counted⟩
  · exact inv.coherent c (same ▸ member)
  · rw [appended] at member
    rcases List.mem_append.mp member with old | new
    · exact inv.coherent c old
    · have startedNonneg : 0 ≤ s.status.counts.startedActions := by rw [inv.ledger.returned]; omega
      have finishedNonneg := inv.ledger.finishedNonneg
      have below := ledger.finished_le_started
      exact List.mem_singleton.mp new ▸ ledger.coherent (by omega)

theorem Reachable.invariant {n : Nat} {sequential : Bool} {s : System n} (reach : Reachable sequential s) :
    Invariant s := by
  induction reach with
  | init => exact Invariant.init
  | next _ step ih => exact ih.step step

/-- Every `Counts` handed to an output, under any interleaving, has at least one started action,
no more finished than started and `RunningActions = StartedActions - FinishedActions`. Once no
call is in flight, the `Status`'s started and finished counts are the sums of the tools' own,
its total is the sum of theirs wrapped to 64 bits, and its running count is started less
finished; while the tools' totals sum below `2^63`, the total then covers the started actions. -/
theorem status_counts_consistent {n : Nat} {sequential : Bool} {s : System n}
    (reach : Reachable sequential s) :
    (∀ c ∈ s.status.reported, 1 ≤ c.startedActions ∧ c.finishedActions ≤ c.startedActions ∧
      c.runningActions = c.startedActions - c.finishedActions) ∧
    ((∀ t, s.pending t = []) →
      s.status.counts.totalActions = Go.int64 (∑ t, (s.tools t).totalActions) ∧
      s.status.counts.startedActions = ∑ t, (s.tools t).startedActions ∧
      s.status.counts.finishedActions = ∑ t, (s.tools t).finishedActions ∧
      s.status.counts.runningActions = s.status.counts.startedActions - s.status.counts.finishedActions ∧
      (∑ t, (s.tools t).totalActions < 2 ^ 63 →
        s.status.counts.startedActions ≤ s.status.counts.totalActions)) := by
  have inv := reach.invariant
  refine ⟨fun c member => ?_, fun quiet => ?_⟩
  · obtain ⟨started, finished, running⟩ := inv.coherent c member
    exact ⟨started, finished, running⟩
  · -- with nothing in flight, every tool has handed on all of its counters
    have handedOn (field : Counts → Int) (owed : Pending → Int) (t : Fin n) :
        s.applied field owed t = field (s.tools t) := by
      simp [System.applied, quiet t]
    obtain ⟨total, started, finished, running, returned, -, -, -, -⟩ := inv.ledger
    simp only [handedOn] at total started finished
    refine ⟨total, started, finished, running, fun fits => ?_⟩
    -- below the wrap the total is the tools' sum, which covers their started actions
    have covers : ∑ t, (s.tools t).startedActions ≤ ∑ t, (s.tools t).totalActions :=
      Finset.sum_le_sum fun t _ => inv.bounded t
    have startedNonneg : 0 ≤ s.status.counts.startedActions := by rw [returned]; omega
    rw [total, Go.int64_of_lt (by omega) fits]
    omega

/-- Go's `int` wraps the `Status` total even when no calls overlap: a tool sets its total to
the largest `int`, and one action started on a second tool then reports the smallest `int` as
its total, below the one started action. When two calls overlap on one tool, a
`SetTotalActions(10)` has raised the tool's total but not yet the `Status`'s when a
`StartAction` runs to its end, and the report it hands out has no total to divide by. And
`Finish` clears a tool's running count without touching the `Status`'s, so after an unfinished
action the running counts no longer add up. -/
theorem status_counts_below_started :
    (∃ s : System 2, Reachable true s ∧ (∀ t, s.pending t = []) ∧
      s.status.counts.totalActions = Go.int64 (∑ t, (s.tools t).totalActions) ∧
      (∀ c ∈ s.status.reported, 1 ≤ c.startedActions ∧ c.finishedActions ≤ c.startedActions ∧
        c.runningActions = c.startedActions - c.finishedActions) ∧
      ∃ c ∈ s.status.reported, c.totalActions < c.startedActions) ∧
    (∃ s : System 1, Reachable false s ∧
      ∃ c ∈ s.status.reported, c.totalActions < c.startedActions ∧ progressPercent c = none) ∧
    (∃ s : System 1, Reachable true s ∧ (∀ t, s.pending t = []) ∧
      s.status.counts.runningActions ≠ ∑ t, (s.tools t).runningActions) := by
  have wrapped : Reachable true ((((((System.init : System 2).setTotalActions 0 (2 ^ 63 - 1)).resume 0
      (.updateTotal (2 ^ 63 - 1))).startAction 1 0).resume 1 (.startTotal 0 1)).resume 1 (.start 0)) :=
    .next (.next (.next (.next (.next .init (.setTotalActions 0 _ fun _ => rfl)) (.resume 0 _ (by decide)))
      (.startAction 1 0 fun _ => by decide)) (.resume 1 _ (by decide))) (.resume 1 _ (by decide))
  have idle : ∀ t, ((((((System.init : System 2).setTotalActions 0 (2 ^ 63 - 1)).resume 0
      (.updateTotal (2 ^ 63 - 1))).startAction 1 0).resume 1 (.startTotal 0 1)).resume 1 (.start 0)).pending t = [] := by
    decide
  obtain ⟨coherent, quiet⟩ := status_counts_consistent wrapped
  have overlap : Reachable false (((((System.init : System 1).setTotalActions 0 10).startAction 0 0).resume 0
      (.startTotal 0 0)).resume 0 (.start 0)) :=
    .next (.next (.next (.next .init (.setTotalActions 0 10 nofun)) (.startAction 0 0 nofun))
      (.resume 0 _ (by decide))) (.resume 0 _ (by decide))
  have unfinished : Reachable true (((((System.init : System 1).startAction 0 0).resume 0 (.startTotal 0 1)).resume 0
      (.start 0)).finish 0) :=
    .next (.next (.next (.next .init (.startAction 0 0 fun _ => rfl)) (.resume 0 _ (by decide)))
      (.resume 0 _ (by decide))) (.finish 0 fun _ => by decide)
  refine ⟨⟨_, wrapped, idle, (quiet idle).1, coherent, by decide⟩, ⟨_, overlap, by decide⟩,
    ⟨_, unfinished, by decide, ?_⟩⟩
  simp only [Fin.sum_univ_one]
  decide

end Soong.Ui
