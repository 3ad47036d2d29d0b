import Soong.Ui.Status

namespace Soong.Ui

/-- Which of the messaging methods of `ToolStatus` a message went through. -/
inductive MsgLevel where
  | verbose
  | status
  | print
  | error
  deriving DecidableEq, Repr

/-- The fields of an `Action`; the action itself is the pointer, a number here. -/
structure ActionInfo where
  description : String
  outputs : List String
  command : String
  deriving DecidableEq, Repr

/-- One call of a tool on its `ToolStatus`. `FinishAction` carries the `ActionResult`: the
action, its output and the error, if any. -/
inductive Call where
  | setTotalActions (total : Int)
  | startAction (action : Nat) (info : ActionInfo)
  | finishAction (action : Nat) (output : String) (error : Option String)
  | message (level : MsgLevel) (text : String)
  | finish
  deriving DecidableEq, Repr

namespace Call

def starts : Call → Nat
  | startAction _ _ => 1
  | _ => 0

def finishes : Call → Nat
  | finishAction _ _ _ => 1
  | _ => 0

/-- The action a call starts, if it is a `StartAction`. -/
def started : Call → List Nat
  | startAction a _ => [a]
  | _ => []

/-- The action a call finishes, if it is a `FinishAction`. -/
def finished : Call → List Nat
  | finishAction a _ _ => [a]
  | _ => []

end Call

/-- The calls a tool makes on its `ToolStatus`, and what the interface asks of them. A tool that
makes its calls one at a time runs each to its end on the `Status` system: its lock region,
then the parts it has left. A caller that keeps the contract `ToolStatus` documents moves the
system along a run of its steps, so every invariant of reachable states holds after it.

The part of the contract of `ToolStatus` the counts rest on: a `*Action` is passed to
`StartAction` once, on one interface, and to `FinishAction` once, after its `StartAction` on the
same interface. Given the actions `used` by any tool so far and those `live` on this one, it
returns the two after the calls, or `none` at the first call that breaks the contract. -/
def contract (used live : List Nat) : List Call → Option (List Nat × List Nat)
  | [] => some (used, live)
  | .startAction a _ :: rest => if a ∈ used then none else contract (a :: used) (a :: live) rest
  | .finishAction a _ _ :: rest => if a ∈ live then contract used (live.erase a) rest else none
  | _ :: rest => contract used live rest

section ContractSteps

variable {used live : List Nat}

theorem contract_append (cs ds : List Call) :
    contract used live (cs ++ ds) = (contract used live cs).bind fun after => contract after.1 after.2 ds := by
  induction cs generalizing used live with
  | nil => rfl
  | cons c cs ih =>
    cases c with
    | startAction a info =>
      simp only [List.cons_append, contract]
      split
      · rfl
      · exact ih
    | finishAction a output error =>
      simp only [List.cons_append, contract]
      split
      · exact ih
      · rfl
    | setTotalActions total => exact ih
    | message level text => exact ih
    | finish => exact ih

/-- Calls that neither start nor finish an action leave the contract's view as it is. -/
theorem contract_of_quiet {cs : List Call} (quiet : ∀ c ∈ cs, c.started = [] ∧ c.finished = []) :
    contract used live cs = some (used, live) := by
  induction cs with
  | nil => rfl
  | cons c cs ih =>
    have rest := ih fun c' member => quiet c' (List.mem_cons_of_mem c member)
    obtain ⟨noStart, noFinish⟩ := quiet c List.mem_cons_self
    cases c with
    | startAction a info => simp [Call.started] at noStart
    | finishAction a output error => simp [Call.finished] at noFinish
    | setTotalActions total => exact rest
    | message level text => exact rest
    | finish => exact rest

/-- Over calls that keep the contract, each `StartAction` adds a live action and each
`FinishAction` takes one away. -/
theorem contract_balance {cs : List Call} {after : List Nat × List Nat}
    (kept : contract used live cs = some after) :
    after.2.length + (cs.map Call.finishes).sum = live.length + (cs.map Call.starts).sum := by
  induction cs generalizing used live with
  | nil =>
    cases kept
    simp
  | cons c cs ih =>
    cases c with
    | startAction a info =>
      simp only [contract] at kept
      split at kept
      · cases kept
      · have rest := ih kept
        simp only [List.map_cons, List.sum_cons, Call.starts, Call.finishes, List.length_cons] at rest ⊢
        omega
    | finishAction a output error =>
      simp only [contract] at kept
      split at kept
      · rename_i member
        have rest := ih kept
        have shorter := List.length_erase_of_mem member
        have nonempty := List.length_pos_of_mem member
        simp only [List.map_cons, List.sum_cons, Call.starts, Call.finishes] at rest ⊢
        omega
      · cases kept
    | setTotalActions total => simpa [Call.starts, Call.finishes] using ih kept
    | message level text => simpa [Call.starts, Call.finishes] using ih kept
    | finish => simpa [Call.starts, Call.finishes] using ih kept

end ContractSteps

namespace System

variable {n : Nat}

/-- Runs what is left of tool `t`'s call in flight, one part at a time. -/
def settle (s : System n) (t : Fin n) : Nat → System n
  | 0 => s
  | fuel + 1 =>
    match s.pending t with
    | [] => s
    | call :: _ => (s.resume t call).settle t fuel

/-- One call of tool `t`, from its lock region to its end. The messages reach the outputs only,
which the system does not record. -/
def call (s : System n) (t : Fin n) : Call → System n
  | .setTotalActions total => (s.setTotalActions t total).settle t 1
  | .startAction a _ => (s.startAction t a).settle t 2
  | .finishAction a _ _ => (s.finishAction t a).settle t 1
  | .message _ _ => s
  | .finish => s.finish t

/-- Tool `t`'s calls, each run to its end before the next begins. -/
def calls (s : System n) (t : Fin n) (cs : List Call) : System n :=
  cs.foldl (fun s c => s.call t c) s

@[simp] theorem calls_nil (s : System n) (t : Fin n) : s.calls t [] = s := rfl

@[simp] theorem calls_cons (s : System n) (t : Fin n) (c : Call) (cs : List Call) :
    s.calls t (c :: cs) = (s.call t c).calls t cs := rfl

theorem calls_append (s : System n) (t : Fin n) (cs ds : List Call) :
    s.calls t (cs ++ ds) = (s.calls t cs).calls t ds :=
  List.foldl_append

section OneCall

variable {s : System n} {t : Fin n}

/-- A call on an idle tool, unfolded into the steps it takes. -/
theorem call_setTotalActions (idle : s.pending t = []) (total : Int) :
    s.call t (.setTotalActions total) =
      (s.setTotalActions t total).resume t (.updateTotal (ToolStatus.setTotalActions (s.tools t) total).2) := by
  simp only [call, settle, setTotalActions, lockTool, Function.update_self, idle]

theorem call_startAction (idle : s.pending t = []) (a : Nat) (info : ActionInfo) :
    s.call t (.startAction a info) =
      ((s.startAction t a).resume t (.startTotal a (ToolStatus.startAction (s.tools t)).2)).resume t (.start a) := by
  simp only [call, settle, startAction, lockTool, Function.update_self, idle, resume]

theorem call_finishAction (idle : s.pending t = []) (a : Nat) (output : String) (error : Option String) :
    s.call t (.finishAction a output error) = (s.finishAction t a).resume t (.finish a) := by
  simp only [call, settle, finishAction, lockTool, Function.update_self, idle]

/-- The steps of a call: a `FinishAction` needs its action returned on the tool and not finished. -/
theorem run_call (idle : s.pending t = []) (c : Call)
    (finishable : ∀ a ∈ c.finished, (a, t) ∈ s.returned ∧ a ∉ s.finishing) :
    Relation.ReflTransGen (Step true) s (s.call t c) := by
  cases c with
  | setTotalActions total =>
    rw [call_setTotalActions idle]
    refine .tail (.single (.setTotalActions t total fun _ => idle)) (.resume t _ ?_)
    simp [setTotalActions, lockTool, idle]
  | startAction a info =>
    rw [call_startAction idle]
    refine .tail (.tail (.single (.startAction t a fun _ => idle)) (.resume t _ ?_)) (.resume t _ ?_)
    · simp [startAction, lockTool, idle]
    · simp [startAction, lockTool, resume, idle]
  | finishAction a output error =>
    obtain ⟨returned, unfinished⟩ := finishable a List.mem_cons_self
    rw [call_finishAction idle]
    refine .tail (.single (.finishAction t a (fun _ => idle) returned unfinished)) (.resume t _ ?_)
    simp [finishAction, lockTool, idle]
  | message level text => exact .refl
  | finish => exact .single (.finish t fun _ => idle)

theorem pending_call (idle : s.pending t = []) (c : Call) : (s.call t c).pending t = [] := by
  cases c with
  | setTotalActions total => simp [call_setTotalActions idle, setTotalActions, lockTool, resume, idle]
  | startAction a info => simp [call_startAction idle, startAction, lockTool, resume, idle]
  | finishAction a output error => simp [call_finishAction idle, finishAction, lockTool, resume, idle]
  | message level text => exact idle
  | finish => exact idle

theorem returned_call (idle : s.pending t = []) (c : Call) :
    (s.call t c).returned = c.started.map (·, t) ++ s.returned := by
  cases c with
  | setTotalActions total => simp [call_setTotalActions idle, setTotalActions, resume, Call.started]
  | startAction a info => simp [call_startAction idle, startAction, resume, Call.started]
  | finishAction a output error => simp [call_finishAction idle, finishAction, resume, Call.started]
  | message level text => rfl
  | finish => rfl

theorem finishing_call (idle : s.pending t = []) (c : Call) :
    (s.call t c).finishing = c.finished ++ s.finishing := by
  cases c with
  | setTotalActions total => simp [call_setTotalActions idle, setTotalActions, resume, Call.finished]
  | startAction a info => simp [call_startAction idle, startAction, resume, Call.finished]
  | finishAction a output error => simp [call_finishAction idle, finishAction, resume, Call.finished]
  | message level text => rfl
  | finish => rfl

/-- The `Status` counts one more started action for a `StartAction`, one more finished action for
a `FinishAction`, and the running ones in between; the other calls move only its total. -/
theorem counts_call (idle : s.pending t = []) (c : Call) :
    (s.call t c).status.counts.startedActions = s.status.counts.startedActions + c.starts ∧
      (s.call t c).status.counts.finishedActions = s.status.counts.finishedActions + c.finishes ∧
      (s.call t c).status.counts.runningActions = s.status.counts.runningActions + c.starts - c.finishes := by
  cases c with
  | setTotalActions total =>
    simp [call_setTotalActions idle, setTotalActions, resume, Call.starts, Call.finishes]
  | startAction a info =>
    simp [call_startAction idle, startAction, resume, Call.starts, Call.finishes]
  | finishAction a output error => simp [call_finishAction idle, finishAction, resume, Call.starts, Call.finishes]
  | message level text => simp [call, Call.starts, Call.finishes]
  | finish => simp [call, finish, ToolStatus.finish_eq, Call.starts, Call.finishes]

/-- Over calls run one after another on an idle tool, the `Status` counts each `StartAction` and
each `FinishAction` once. -/
theorem counts_calls (cs : List Call) (idle : s.pending t = []) :
    (s.calls t cs).status.counts.startedActions = s.status.counts.startedActions + (cs.map Call.starts).sum ∧
      (s.calls t cs).status.counts.finishedActions = s.status.counts.finishedActions + (cs.map Call.finishes).sum ∧
      (s.calls t cs).status.counts.runningActions =
        s.status.counts.runningActions + (cs.map Call.starts).sum - (cs.map Call.finishes).sum := by
  induction cs generalizing s with
  | nil => simp
  | cons c cs ih =>
    obtain ⟨started, finished, running⟩ := counts_call idle c
    obtain ⟨started', finished', running'⟩ := ih (pending_call idle c)
    simp only [calls_cons, List.map_cons, List.sum_cons, Nat.cast_add]
    refine ⟨?_, ?_, ?_⟩ <;> omega

/-- A call of tool `t` leaves every other tool as it was. -/
theorem others_call (idle : s.pending t = []) (c : Call) {u : Fin n} (other : u ≠ t) :
    (s.call t c).tools u = s.tools u ∧ (s.call t c).pending u = s.pending u := by
  cases c with
  | setTotalActions total =>
    simp [call_setTotalActions idle, setTotalActions, lockTool, resume, Function.update_of_ne other]
  | startAction a info =>
    simp [call_startAction idle, startAction, lockTool, resume, Function.update_of_ne other]
  | finishAction a output error =>
    simp [call_finishAction idle, finishAction, lockTool, resume, Function.update_of_ne other]
  | message level text => exact ⟨rfl, rfl⟩
  | finish => simp [call, finish, Function.update_of_ne other]

theorem others_calls (cs : List Call) (idle : s.pending t = []) {u : Fin n} (other : u ≠ t) :
    (s.calls t cs).tools u = s.tools u ∧ (s.calls t cs).pending u = s.pending u := by
  induction cs generalizing s with
  | nil => exact ⟨rfl, rfl⟩
  | cons c cs ih =>
    obtain ⟨tools, pending⟩ := ih (pending_call idle c)
    obtain ⟨tools', pending'⟩ := others_call idle c other
    exact ⟨tools.trans tools', pending.trans pending'⟩

theorem pending_calls (cs : List Call) (idle : s.pending t = []) : (s.calls t cs).pending t = [] := by
  induction cs generalizing s with
  | nil => exact idle
  | cons c cs ih => exact ih (pending_call idle c)

/-- Over calls of an idle tool, what the tools have handed on to the `Status` moves by what tool
`t`'s own counter moved. -/
theorem sum_applied_calls (cs : List Call) (idle : s.pending t = []) (field : Counts → Int)
    (owed : Pending → Int) :
    ∑ u, (s.calls t cs).applied field owed u =
      ∑ u, s.applied field owed u + (field ((s.calls t cs).tools t) - field (s.tools t)) := by
  rw [sum_eq_add_of_eq_off (g := s.applied field owed) t fun u other => by
    simp only [applied, (others_calls cs idle other).1, (others_calls cs idle other).2]]
  simp [applied, pending_calls cs idle, idle]

/-- `Finish` settles the tool's total at the actions it started. -/
theorem total_calls_finish (s : System n) (cs : List Call) :
    ((s.calls t (cs ++ [.finish])).tools t).totalActions = ((s.calls t (cs ++ [.finish])).tools t).startedActions := by
  simp [calls_append, call, finish, ToolStatus.finish_eq]

end OneCall

theorem Reachable.of_run {s s' : System n} (reach : Reachable true s)
    (run : Relation.ReflTransGen (Step true) s s') : Reachable true s' := by
  induction run with
  | refl => exact reach
  | tail _ step ih => exact .next ih step

/-- What a caller's view of its actions says of the system: its tool is idle, every action
returned on any tool is among those `used`, and the actions `live` on the tool are distinct,
returned on it and not finished. -/
structure Agrees (s : System n) (t : Fin n) (used live : List Nat) : Prop where
  idle : s.pending t = []
  known : ∀ p ∈ s.returned, p.1 ∈ used
  returned : ∀ a ∈ live, (a, t) ∈ s.returned
  unfinished : ∀ a ∈ live, a ∉ s.finishing
  distinct : live.Nodup

section Contract

variable {s : System n} {t : Fin n} {used live : List Nat}

theorem Agrees.startAction (reach : Reachable true s) (agrees : Agrees s t used live) {a : Nat}
    (fresh : a ∉ used) (info : ActionInfo) :
    Agrees (s.call t (.startAction a info)) t (a :: used) (a :: live) := by
  have returned := returned_call agrees.idle (.startAction a info)
  have finishing := finishing_call agrees.idle (.startAction a info)
  simp only [Call.started, Call.finished, List.map_cons, List.map_nil, List.singleton_append,
    List.nil_append] at returned finishing
  -- an action that returned anywhere is used, and a finished one has returned
  have notReturned : a ∉ s.returned.map Prod.fst := fun member => by
    obtain ⟨p, inReturned, rfl⟩ := List.mem_map.mp member
    exact fresh (agrees.known p inReturned)
  refine ⟨pending_call agrees.idle _, fun p member => ?_, fun b member => ?_, fun b member => ?_, ?_⟩
  · rw [returned] at member
    rcases List.mem_cons.mp member with rfl | old
    · exact List.mem_cons_self
    · exact List.mem_cons_of_mem a (agrees.known p old)
  · rw [returned]
    rcases List.mem_cons.mp member with rfl | old
    · exact List.mem_cons_self
    · exact List.mem_cons_of_mem _ (agrees.returned b old)
  · rw [finishing]
    rcases List.mem_cons.mp member with rfl | old
    · exact fun done => notReturned (reach.invariant.ledger.finishingReturned done)
    · exact agrees.unfinished b old
  · refine List.nodup_cons.mpr ⟨fun live => notReturned ?_, agrees.distinct⟩
    exact List.mem_map.mpr ⟨(a, t), agrees.returned a live, rfl⟩

theorem Agrees.finishAction (agrees : Agrees s t used live) {a : Nat} (output : String) (error : Option String) :
    Agrees (s.call t (.finishAction a output error)) t used (live.erase a) := by
  have returned := returned_call agrees.idle (.finishAction a output error)
  have finishing := finishing_call agrees.idle (.finishAction a output error)
  simp only [Call.started, Call.finished, List.map_nil, List.nil_append, List.singleton_append] at returned finishing
  refine ⟨pending_call agrees.idle _, fun p member => ?_, fun b member => ?_, fun b member => ?_,
    agrees.distinct.erase a⟩
  · exact agrees.known p (returned ▸ member)
  · exact returned ▸ agrees.returned b (List.mem_of_mem_erase member)
  · -- the live actions are distinct, so the one finished is no longer among them
    obtain ⟨other, stillLive⟩ := (agrees.distinct.mem_erase_iff).mp member
    rw [finishing]
    intro done
    rcases List.mem_cons.mp done with same | earlier
    · exact other same
    · exact agrees.unfinished b stillLive earlier

theorem Agrees.other (agrees : Agrees s t used live) {c : Call} (noStart : c.started = [])
    (noFinish : c.finished = []) : Agrees (s.call t c) t used live := by
  have returned := returned_call agrees.idle c
  have finishing := finishing_call agrees.idle c
  rw [noStart, List.map_nil, List.nil_append] at returned
  rw [noFinish, List.nil_append] at finishing
  exact ⟨pending_call agrees.idle c, returned ▸ agrees.known, returned ▸ agrees.returned,
    finishing ▸ agrees.unfinished, agrees.distinct⟩

/-- A caller that keeps the contract of `ToolStatus` and makes its calls one at a time moves the
system along a run of its steps: from a reachable state, the state after its calls is reachable,
and the caller's view of its actions still agrees with it. -/
theorem reachable_calls :
    ∀ (cs : List Call) {s : System n} {used live : List Nat} {after : List Nat × List Nat},
      Reachable true s → Agrees s t used live → contract used live cs = some after →
      Reachable true (s.calls t cs) ∧ Agrees (s.calls t cs) t after.1 after.2
  | [], _, _, _, _, reach, agrees, kept => by
    cases kept
    exact ⟨reach, agrees⟩
  | c :: cs, s, used, live, after, reach, agrees, kept => by
    rw [calls_cons]
    cases c with
    | startAction a info =>
      simp only [contract] at kept
      split at kept
      · cases kept
      · rename_i fresh
        have next := Reachable.of_run reach (run_call agrees.idle (.startAction a info) (by simp [Call.finished]))
        exact reachable_calls cs next (agrees.startAction reach fresh info) kept
    | finishAction a output error =>
      simp only [contract] at kept
      split at kept
      · rename_i member
        have ready : (a, t) ∈ s.returned ∧ a ∉ s.finishing := ⟨agrees.returned a member, agrees.unfinished a member⟩
        have next := Reachable.of_run reach (run_call agrees.idle (.finishAction a output error) fun b named => by
          rw [List.mem_singleton.mp named]
          exact ready)
        exact reachable_calls cs next (agrees.finishAction output error) kept
      · cases kept
    | setTotalActions total =>
      have next := Reachable.of_run reach (run_call agrees.idle (.setTotalActions total) (by simp [Call.finished]))
      exact reachable_calls cs next (agrees.other rfl rfl) kept
    | message level text =>
      have next := Reachable.of_run reach (run_call agrees.idle (.message level text) (by simp [Call.finished]))
      exact reachable_calls cs next (agrees.other rfl rfl) kept
    | finish =>
      have next := Reachable.of_run reach (run_call agrees.idle .finish (by simp [Call.finished]))
      exact reachable_calls cs next (agrees.other rfl rfl) kept

/-- A caller that starts from an idle tool with no action of its own live, and keeps the contract
against every action returned so far, leaves the system reachable. -/
theorem reachable_calls_of_idle (cs : List Call) {after : List Nat × List Nat} (reach : Reachable true s)
    (idle : s.pending t = []) (kept : contract (s.returned.map Prod.fst) [] cs = some after) :
    Reachable true (s.calls t cs) :=
  (reachable_calls cs reach ⟨idle, fun _ member => List.mem_map_of_mem member, by simp, by simp,
    List.nodup_nil⟩ kept).1

theorem returned_below {base : Nat} (fresh : ∀ p ∈ s.returned, p.1 < base) :
    ∀ a ∈ s.returned.map Prod.fst, a < base := by
  intro a member
  obtain ⟨p, inReturned, rfl⟩ := List.mem_map.mp member
  exact fresh p inReturned

end Contract

end System

end Soong.Ui
