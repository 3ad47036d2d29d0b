import Soong.Ui.Ninja
import Soong.Ui.Calls

namespace Soong.Ui

namespace Frontend

/-- `Status.EdgeStarted`, with the fields the reader reads. -/
structure EdgeStarted where
  id : Option UInt32
  outputs : List String
  desc : Option String
  command : Option String
  deriving DecidableEq, Repr

/-- `Status.EdgeFinished`; `status` is a `sint32`. -/
structure EdgeFinished where
  id : Option UInt32
  status : Option Int32
  output : Option String
  deriving DecidableEq, Repr

/-- `Status.Message`; the level is the enum's number, `INFO` when it is absent. -/
structure Message where
  level : Option Int32
  message : Option String
  deriving DecidableEq, Repr

/-- `ninja_frontend.Status`: which of its sub-messages are present. `BuildStarted` is ignored,
and `BuildFinished` is empty. -/
structure Status where
  totalEdges : Option (Option UInt32)
  buildFinished : Bool
  edgeStarted : Option EdgeStarted
  edgeFinished : Option EdgeFinished
  message : Option Message
  deriving DecidableEq, Repr

end Frontend

/-- `NinjaReader.run` past the frame loop: each buffer decoded into a `ninja_frontend.Status`
message and turned into calls on the tool's `ToolStatus`. The reader keeps a map from ninja's
edge ids to the actions it started, so that an `EdgeFinished` finishes the action its
`EdgeStarted` began. Protobuf decoding is a parameter; the messages are what it yields.

The state of the read loop: the `running` map from edge ids to actions, and the next
action `&Action{...}` allocates. -/
structure ReaderState where
  running : UInt32 → Option Nat
  nextAction : Nat

namespace ReaderState

/-- `EdgeStarted`: a new action, started and filed under the edge's id. -/
def startEdge (r : ReaderState) (e : Frontend.EdgeStarted) : ReaderState × List Call :=
  let action := r.nextAction
  (⟨Function.update r.running (e.id.getD 0) (some action), action + 1⟩,
    [.startAction action ⟨e.desc.getD "", e.outputs, e.command.getD ""⟩])

/-- The error of an edge's exit status: `nil` for 0. -/
def exitError (code : Int32) : Option String :=
  if code.toInt ≠ 0 then some ("exited with code: " ++ toString code.toInt) else none

/-- `EdgeFinished`: the action filed under the edge's id is taken out of the map and finished;
an edge that is not running is ignored. -/
def finishEdge (r : ReaderState) (e : Frontend.EdgeFinished) : ReaderState × List Call :=
  match r.running (e.id.getD 0) with
  | some started =>
    ({ r with running := Function.update r.running (e.id.getD 0) none },
      [.finishAction started (e.output.getD "") (exitError (e.status.getD 0))])
  | none => (r, [])

end ReaderState

/-- The message ninja asks to be shown, by its level. -/
def messageCall (m : Frontend.Message) : Call :=
  let message := "ninja: " ++ m.message.getD ""
  let level := (m.level.getD 0).toInt
  if level = 0 then .message .status message
  else if level = 1 then .message .print ("warning: " ++ message)
  else if level = 2 then .message .error message
  else .message .print message

/-- The calls for one decoded message, in the order the loop makes them. -/
def handleStatus (r : ReaderState) (msg : Frontend.Status) : ReaderState × List Call :=
  let total := msg.totalEdges.elim [] fun edges => [Call.setTotalActions (edges.getD 0).toNat]
  let started := msg.edgeStarted.elim (r, []) r.startEdge
  let finished := msg.edgeFinished.elim (started.1, []) started.1.finishEdge
  (finished.1, total ++ started.2 ++ finished.2 ++ msg.message.elim [] (fun m => [messageCall m]) ++
    if msg.buildFinished then [.finish] else [])

/-- One buffer: a message that does not decode is reported and skipped. -/
def handleFrame (unmarshal : List UInt8 → Except String Frontend.Status) (r : ReaderState) (buf : List UInt8) :
    ReaderState × List Call :=
  match unmarshal buf with
  | .error err => (r, [.message .print ("Error reading message from ninja: " ++ err)])
  | .ok msg => handleStatus r msg

theorem handleFrame_error {unmarshal : List UInt8 → Except String Frontend.Status} {buf : List UInt8} {err : String}
    (decodes : unmarshal buf = .error err) (r : ReaderState) :
    handleFrame unmarshal r buf = (r, [.message .print ("Error reading message from ninja: " ++ err)]) := by
  simp [handleFrame, decodes]

theorem handleFrame_ok {unmarshal : List UInt8 → Except String Frontend.Status} {buf : List UInt8}
    {msg : Frontend.Status} (decodes : unmarshal buf = .ok msg) (r : ReaderState) :
    handleFrame unmarshal r buf = handleStatus r msg := by
  simp [handleFrame, decodes]

def handleFrames (unmarshal : List UInt8 → Except String Frontend.Status) :
    ReaderState → List (List UInt8) → ReaderState × List Call
  | r, [] => (r, [])
  | r, buf :: bufs =>
    let first := handleFrame unmarshal r buf
    let rest := handleFrames unmarshal first.1 bufs
    (rest.1, first.2 ++ rest.2)

/-- How the frame loop's end is reported. -/
def FramesEnd.calls : FramesEnd → List Call
  | .quiet => []
  | .error message => [.message .error message]
  | .print message => [.message .print message]

/-- What opening the fifo gives the loop: `Close` cancelled it first, `os.Open` failed, or the
stream ninja wrote. -/
inductive Fifo where
  | cancelled
  | failed (err : String)
  | opened (stream : List UInt8)

/-- `NinjaReader.run`, with actions numbered from `base` on. When `os.Open` fails, the opener
reports it and closes the channel; the loop then reads from a nil `*os.File`, whose reads fail
with `os.ErrInvalid`. -/
def run (unmarshal : List UInt8 → Except String Frontend.Status) (base : Nat) : Fifo → List Call
  | .cancelled => []
  | .failed err =>
    [.message .error ("Failed to open fifo: " ++ err), .message .error "Got error reading from ninja: invalid argument"]
  | .opened stream =>
    let frames := readFrames stream
    (handleFrames unmarshal ⟨fun _ => none, base⟩ frames.1).2 ++ frames.2.calls

/-- The calls for a message's total, its message and its end start and finish no action. -/
theorem quiet_parts (msg : Frontend.Status) :
    (∀ c ∈ msg.totalEdges.elim [] (fun edges => [Call.setTotalActions (edges.getD 0).toNat]),
      c.started = [] ∧ c.finished = []) ∧
    (∀ c ∈ msg.message.elim [] (fun m => [messageCall m]), c.started = [] ∧ c.finished = []) ∧
    ∀ c ∈ (if msg.buildFinished then [Call.finish] else []), c.started = [] ∧ c.finished = [] := by
  refine ⟨?_, ?_, ?_⟩
  · cases msg.totalEdges <;> simp [Call.started, Call.finished]
  · cases msg.message with
    | none => simp
    | some m =>
      simp only [Option.elim, List.mem_singleton, forall_eq, messageCall]
      split_ifs <;> simp [Call.started, Call.finished]
  · split <;> simp [Call.started, Call.finished]

/-- Only the edge sub-messages of a message start or finish actions. -/
theorem contract_handleStatus (used live : List Nat) (r : ReaderState) (msg : Frontend.Status) :
    contract used live (handleStatus r msg).2 =
      (contract used live (msg.edgeStarted.elim (r, []) r.startEdge).2).bind fun mid =>
        contract mid.1 mid.2 (msg.edgeFinished.elim ((msg.edgeStarted.elim (r, []) r.startEdge).1, [])
          (msg.edgeStarted.elim (r, []) r.startEdge).1.finishEdge).2 := by
  obtain ⟨total, message, last⟩ := quiet_parts msg
  simp only [handleStatus, contract_append, contract_of_quiet total, Option.bind_some, contract_of_quiet message,
    contract_of_quiet last, Prod.mk.eta, Option.bind_fun_some]

theorem mem_handleStatus {r : ReaderState} {msg : Frontend.Status} {c : Call} (member : c ∈ (handleStatus r msg).2) :
    c ∈ (msg.edgeStarted.elim (r, []) r.startEdge).2 ∨
      c ∈ (msg.edgeFinished.elim ((msg.edgeStarted.elim (r, []) r.startEdge).1, [])
        (msg.edgeStarted.elim (r, []) r.startEdge).1.finishEdge).2 ∨
      c.started = [] ∧ c.finished = [] := by
  obtain ⟨total, message, last⟩ := quiet_parts msg
  simp only [handleStatus, List.mem_append] at member
  rcases member with (((inTotal | start) | finish) | inMessage) | inLast
  · exact .inr (.inr (total c inTotal))
  · exact .inl start
  · exact .inr (.inl finish)
  · exact .inr (.inr (message c inMessage))
  · exact .inr (.inr (last c inLast))

/-- What the running map says of the contract's view: each action in it is live and below the
next action, no action is filed under two edges, and every action used so far is below the next
one, so the next `StartAction` takes a fresh action. -/
structure ReaderOk (r : ReaderState) (used live : List Nat) : Prop where
  live : ∀ e a, r.running e = some a → a ∈ live
  below : ∀ e a, r.running e = some a → a < r.nextAction
  distinct : ∀ e e' a, r.running e = some a → r.running e' = some a → e = e'
  fresh : ∀ a ∈ used, a < r.nextAction

namespace ReaderOk

variable {r : ReaderState} {used live : List Nat}

theorem startEdge (ok : ReaderOk r used live) (e : Frontend.EdgeStarted) :
    contract used live (r.startEdge e).2 = some (r.nextAction :: used, r.nextAction :: live) ∧
      ReaderOk (r.startEdge e).1 (r.nextAction :: used) (r.nextAction :: live) := by
  have unused : r.nextAction ∉ used := fun member => Nat.lt_irrefl _ (ok.fresh _ member)
  refine ⟨by simp [ReaderState.startEdge, contract, unused], ⟨fun k a filed => ?_, fun k a filed => ?_,
    fun k k' a filed filed' => ?_, fun a member => ?_⟩⟩
  · by_cases same : k = e.id.getD 0
    · simp only [ReaderState.startEdge, same, Function.update_self, Option.some.injEq] at filed
      exact filed ▸ List.mem_cons_self
    · simp only [ReaderState.startEdge, Function.update_of_ne same] at filed
      exact List.mem_cons_of_mem _ (ok.live k a filed)
  · by_cases same : k = e.id.getD 0
    · simp only [ReaderState.startEdge, same, Function.update_self, Option.some.injEq] at filed
      simp [ReaderState.startEdge, filed]
    · simp only [ReaderState.startEdge, Function.update_of_ne same] at filed
      exact Nat.lt_succ_of_lt (ok.below k a filed)
  · -- the new action is above every one already filed, so it is filed under the new edge only
    simp only [ReaderState.startEdge] at filed filed'
    by_cases same : k = e.id.getD 0 <;> by_cases same' : k' = e.id.getD 0
    · exact same.trans same'.symm
    · rw [same, Function.update_self, Option.some.injEq] at filed
      rw [Function.update_of_ne same'] at filed'
      exact absurd (ok.below k' a filed') (by omega)
    · rw [same', Function.update_self, Option.some.injEq] at filed'
      rw [Function.update_of_ne same] at filed
      exact absurd (ok.below k a filed) (by omega)
    · rw [Function.update_of_ne same] at filed
      rw [Function.update_of_ne same'] at filed'
      exact ok.distinct k k' a filed filed'
  · rcases List.mem_cons.mp member with rfl | old
    · exact Nat.lt_succ_self _
    · exact Nat.lt_succ_of_lt (ok.fresh a old)

theorem finishEdge (ok : ReaderOk r used live) (e : Frontend.EdgeFinished) :
    ∃ live', contract used live (r.finishEdge e).2 = some (used, live') ∧ ReaderOk (r.finishEdge e).1 used live' := by
  unfold ReaderState.finishEdge
  cases filed : r.running (e.id.getD 0) with
  | none => exact ⟨live, rfl, ok⟩
  | some a =>
    refine ⟨live.erase a, by simp [contract, ok.live _ a filed], ⟨fun k b kept => ?_, fun k b kept => ?_,
      fun k k' b kept kept' => ?_, ok.fresh⟩⟩
    all_goals dsimp only at kept
    · -- another edge's action is not the one finished
      have other : k ≠ e.id.getD 0 := by
        rintro rfl
        simp at kept
      rw [Function.update_of_ne other] at kept
      have apart : b ≠ a := fun same => other (ok.distinct k _ b kept (same ▸ filed))
      exact (List.mem_erase_of_ne apart).mpr (ok.live k b kept)
    · have other : k ≠ e.id.getD 0 := by
        rintro rfl
        simp at kept
      rw [Function.update_of_ne other] at kept
      exact ok.below k b kept
    · dsimp only at kept'
      have other : k ≠ e.id.getD 0 := by
        rintro rfl
        simp at kept
      have other' : k' ≠ e.id.getD 0 := by
        rintro rfl
        simp at kept'
      rw [Function.update_of_ne other] at kept
      rw [Function.update_of_ne other'] at kept'
      exact ok.distinct k k' b kept kept'

theorem elim_startEdge (ok : ReaderOk r used live) (o : Option Frontend.EdgeStarted) :
    ∃ after, contract used live (o.elim (r, []) r.startEdge).2 = some after ∧
      ReaderOk (o.elim (r, []) r.startEdge).1 after.1 after.2 := by
  cases o with
  | none => exact ⟨(used, live), rfl, ok⟩
  | some e => exact ⟨_, (ok.startEdge e).1, (ok.startEdge e).2⟩

theorem elim_finishEdge (ok : ReaderOk r used live) (o : Option Frontend.EdgeFinished) :
    ∃ after, contract used live (o.elim (r, []) r.finishEdge).2 = some after ∧
      ReaderOk (o.elim (r, []) r.finishEdge).1 after.1 after.2 := by
  cases o with
  | none => exact ⟨(used, live), rfl, ok⟩
  | some e =>
    obtain ⟨live', kept, ok'⟩ := ok.finishEdge e
    exact ⟨(used, live'), kept, ok'⟩

/-- Whatever a message holds, its calls keep the contract and the map stays in step with it. -/
theorem handleStatus (ok : ReaderOk r used live) (msg : Frontend.Status) :
    ∃ after, contract used live (Soong.Ui.handleStatus r msg).2 = some after ∧
      ReaderOk (Soong.Ui.handleStatus r msg).1 after.1 after.2 := by
  obtain ⟨started, startKept, startOk⟩ := ok.elim_startEdge msg.edgeStarted
  obtain ⟨finished, finishKept, finishOk⟩ := startOk.elim_finishEdge msg.edgeFinished
  refine ⟨finished, ?_, finishOk⟩
  rw [contract_handleStatus, startKept, Option.bind_some, finishKept]

theorem handleFrames (unmarshal : List UInt8 → Except String Frontend.Status) (frames : List (List UInt8))
    (ok : ReaderOk r used live) :
    ∃ after, contract used live (Soong.Ui.handleFrames unmarshal r frames).2 = some after ∧
      ReaderOk (Soong.Ui.handleFrames unmarshal r frames).1 after.1 after.2 := by
  induction frames generalizing r used live with
  | nil => exact ⟨(used, live), rfl, ok⟩
  | cons buf bufs ih =>
    -- a buffer that does not decode is reported and leaves the map as it is
    have first : ∃ after, contract used live (handleFrame unmarshal r buf).2 = some after ∧
        ReaderOk (handleFrame unmarshal r buf).1 after.1 after.2 := by
      unfold handleFrame
      split
      · exact ⟨(used, live), rfl, ok⟩
      · exact ok.handleStatus _
    obtain ⟨middle, firstKept, middleOk⟩ := first
    obtain ⟨after, restKept, afterOk⟩ := ih middleOk
    refine ⟨after, ?_, afterOk⟩
    simp only [Soong.Ui.handleFrames, contract_append, firstKept, Option.bind_some, restKept]

end ReaderOk

/-- Whatever ninja writes and however its buffers decode, the reader keeps the contract of
`ToolStatus`, provided the actions it allocates are new. -/
theorem run_contract (unmarshal : List UInt8 → Except String Frontend.Status) (fifo : Fifo) {base : Nat}
    {used : List Nat} (fresh : ∀ a ∈ used, a < base) :
    ∃ after, contract used [] (run unmarshal base fifo) = some after := by
  cases fifo with
  | cancelled => exact ⟨_, rfl⟩
  | failed err => exact ⟨_, rfl⟩
  | opened stream =>
    have start : ReaderOk ⟨fun _ => none, base⟩ used [] := ⟨by simp, by simp, by simp, fresh⟩
    obtain ⟨after, kept, -⟩ := start.handleFrames unmarshal (readFrames stream).1
    have last : ∀ c ∈ (readFrames stream).2.calls, c.started = [] ∧ c.finished = [] := by
      cases (readFrames stream).2 <;> simp [FramesEnd.calls, Call.started, Call.finished]
    exact ⟨after, by simp only [run, contract_append, kept, Option.bind_some, contract_of_quiet last]⟩


/-- Driven by `NinjaReader.run`, the `Status` system stays among its reachable states, whatever
ninja writes to the fifo and however its buffers decode: the reader's calls, made one after
another on an idle tool with actions allocated fresh, are a run of the system's steps. So every
invariant of the system holds after them; in particular every `Counts` handed to an output has a
started action, no more finished than started, and running ones that are the difference. -/
theorem ninjaReader_keeps_status {n : Nat} {s : System n} {t : Fin n}
    (unmarshal : List UInt8 → Except String Frontend.Status) (fifo : Fifo) {base : Nat}
    (reach : Reachable true s) (idle : s.pending t = []) (fresh : ∀ p ∈ s.returned, p.1 < base) :
    Reachable true (s.calls t (run unmarshal base fifo)) ∧
      ∀ c ∈ (s.calls t (run unmarshal base fifo)).status.reported, c.Coherent := by
  obtain ⟨after, kept⟩ := run_contract unmarshal fifo (System.returned_below fresh)
  have reached := System.reachable_calls_of_idle _ reach idle kept
  exact ⟨reached, reached.invariant.coherent⟩

/-- Decodes buffer `[1]` as the start of edge 7 and any other as its successful end. -/
def oneEdge : List UInt8 → Except String Frontend.Status := fun buf =>
  if buf = [1] then .ok ⟨none, false, some ⟨some 7, [], some "cc", none⟩, none, none⟩
  else .ok ⟨none, false, none, some ⟨some 7, some 0, none⟩, none⟩

theorem ninjaReader_keeps_status_one_edge :
    Reachable true ((System.init : System 1).calls 0 (run oneEdge 0 (.opened (encodeFrames [[1], [2]])))) ∧
      ∀ c ∈ ((System.init : System 1).calls 0 (run oneEdge 0 (.opened (encodeFrames [[1], [2]])))).status.reported,
        c.Coherent :=
  ninjaReader_keeps_status oneEdge _ .init rfl (by simp [System.init])

section Edges

/-- The messages among the buffers that decode, in order. -/
def decoded (unmarshal : List UInt8 → Except String Frontend.Status) (frames : List (List UInt8)) :
    List Frontend.Status :=
  frames.filterMap fun buf => (unmarshal buf).toOption

/-- The ids of the edges ninja started, in order. -/
def startedIds (msgs : List Frontend.Status) : List UInt32 :=
  msgs.filterMap fun msg => msg.edgeStarted.map (·.id.getD 0)

/-- What a message does to the edges ninja has started and not reported finished. -/
def openEdgesStep (edges : List UInt32) (msg : Frontend.Status) : List UInt32 :=
  let started := msg.edgeStarted.elim edges fun e => edges ++ [e.id.getD 0]
  msg.edgeFinished.elim started fun e => started.erase (e.id.getD 0)

/-- The edges a stream of messages leaves started and not reported finished: what the stream
means, without the reader's actions. -/
def openEdges (msgs : List Frontend.Status) : List UInt32 := msgs.foldl openEdgesStep []

/-- The reader's map against ninja's edges: every live action is filed under some edge, the
edges with an action are those open, and the open edges are distinct edges already started. -/
structure Tracks (r : ReaderState) (live : List Nat) (ids edges : List UInt32) : Prop where
  filed : ∀ a ∈ live, ∃ e, r.running e = some a
  liveDistinct : live.Nodup
  running : ∀ e, (r.running e).isSome ↔ e ∈ edges
  started : ∀ e ∈ edges, e ∈ ids
  edgesDistinct : edges.Nodup

namespace Tracks

variable {r : ReaderState} {used live : List Nat} {ids edges : List UInt32}

theorem startEdge (ok : ReaderOk r used live) (tracks : Tracks r live ids edges) (e : Frontend.EdgeStarted)
    (new : e.id.getD 0 ∉ ids) :
    Tracks (r.startEdge e).1 (r.nextAction :: live) (ids ++ [e.id.getD 0]) (edges ++ [e.id.getD 0]) := by
  -- a new edge has no action yet, so filing the new action under it drops none
  have vacant : r.running (e.id.getD 0) = none := by
    cases filed : r.running (e.id.getD 0) with
    | none => rfl
    | some a =>
      have opened := (tracks.running (e.id.getD 0)).mp (by rw [filed]; rfl)
      exact absurd (tracks.started _ opened) new
  have update : ∀ k, (r.startEdge e).1.running k =
      if k = e.id.getD 0 then some r.nextAction else r.running k := fun k => by
    simp only [ReaderState.startEdge, Function.update_apply]
  refine ⟨fun a member => ?_, ?_, fun k => ?_, fun k member => ?_, ?_⟩
  · rcases List.mem_cons.mp member with rfl | old
    · exact ⟨e.id.getD 0, by simp [update]⟩
    · obtain ⟨k, filed⟩ := tracks.filed a old
      have other : k ≠ e.id.getD 0 := by
        rintro rfl
        rw [vacant] at filed
        cases filed
      exact ⟨k, by rw [update, if_neg other, filed]⟩
  · refine List.nodup_cons.mpr ⟨fun member => ?_, tracks.liveDistinct⟩
    obtain ⟨k, filed⟩ := tracks.filed _ member
    exact Nat.lt_irrefl _ (ok.below k _ filed)
  · by_cases same : k = e.id.getD 0
    · simp [update, same]
    · rw [update, if_neg same, tracks.running k]
      simp [same]
  · rcases List.mem_append.mp member with old | last
    · exact List.mem_append_left _ (tracks.started k old)
    · exact List.mem_append_right _ last
  · refine List.nodup_append.mpr ⟨tracks.edgesDistinct, List.nodup_singleton _, ?_⟩
    intro k member k' last same
    rw [List.mem_singleton.mp last] at same
    exact new (same ▸ tracks.started k member)

theorem finishEdge (ok : ReaderOk r used live) (tracks : Tracks r live ids edges) (e : Frontend.EdgeFinished)
    {after : List Nat × List Nat} (kept : contract used live (r.finishEdge e).2 = some after) :
    Tracks (r.finishEdge e).1 after.2 ids (edges.erase (e.id.getD 0)) := by
  unfold ReaderState.finishEdge at kept ⊢
  cases filed : r.running (e.id.getD 0) with
  | none =>
    rw [filed] at kept
    cases kept
    -- an edge with no action is not open, so the edges stay as they are
    have closed : e.id.getD 0 ∉ edges := fun member => by
      have running := (tracks.running _).mpr member
      rw [filed] at running
      cases running
    rw [List.erase_of_not_mem closed]
    exact tracks
  | some a =>
    rw [filed] at kept
    simp only [contract, ok.live _ a filed, if_true] at kept
    cases kept
    have update : ∀ k, (Function.update r.running (e.id.getD 0) none) k =
        if k = e.id.getD 0 then none else r.running k := fun k => Function.update_apply _ _ _ _
    refine ⟨fun b member => ?_, tracks.liveDistinct.erase a, fun k => ?_,
      fun k member => tracks.started k (List.mem_of_mem_erase member), tracks.edgesDistinct.erase _⟩
    · -- the other live actions are filed under other edges
      have apart : b ≠ a := fun same => tracks.liveDistinct.not_mem_erase (same ▸ member)
      obtain ⟨k, filedB⟩ := tracks.filed b (List.mem_of_mem_erase member)
      have other : k ≠ e.id.getD 0 := by
        rintro rfl
        rw [filed, Option.some.injEq] at filedB
        exact apart filedB.symm
      exact ⟨k, by simp only [update, if_neg other, filedB]⟩
    · by_cases same : k = e.id.getD 0
      · simp only [update, same, if_true, Option.isSome_none, Bool.false_eq_true, false_iff]
        exact tracks.edgesDistinct.not_mem_erase
      · simp only [update, if_neg same, List.mem_erase_of_ne same]
        exact tracks.running k

theorem elim_startEdge (ok : ReaderOk r used live) (tracks : Tracks r live ids edges)
    (o : Option Frontend.EdgeStarted) (new : ∀ k ∈ o.map (·.id.getD 0), k ∉ ids) {mid : List Nat × List Nat}
    (kept : contract used live (o.elim (r, []) r.startEdge).2 = some mid) :
    ReaderOk (o.elim (r, []) r.startEdge).1 mid.1 mid.2 ∧
      Tracks (o.elim (r, []) r.startEdge).1 mid.2 (ids ++ (o.map (·.id.getD 0)).toList)
        (o.elim edges fun e => edges ++ [e.id.getD 0]) := by
  cases o with
  | none =>
    cases kept
    simpa using ⟨ok, tracks⟩
  | some e =>
    rw [Option.elim, (ok.startEdge e).1, Option.some.injEq] at kept
    subst kept
    exact ⟨(ok.startEdge e).2, tracks.startEdge ok e (new _ rfl)⟩

theorem elim_finishEdge (ok : ReaderOk r used live) (tracks : Tracks r live ids edges)
    (o : Option Frontend.EdgeFinished) {after : List Nat × List Nat}
    (kept : contract used live (o.elim (r, []) r.finishEdge).2 = some after) :
    Tracks (o.elim (r, []) r.finishEdge).1 after.2 ids (o.elim edges fun e => edges.erase (e.id.getD 0)) := by
  cases o with
  | none =>
    cases kept
    exact tracks
  | some e => exact tracks.finishEdge ok e kept

theorem startedIds_singleton (msg : Frontend.Status) :
    startedIds [msg] = (msg.edgeStarted.map (·.id.getD 0)).toList := by
  cases started : msg.edgeStarted <;> simp [startedIds, started]

theorem handleStatus (ok : ReaderOk r used live) (tracks : Tracks r live ids edges) (msg : Frontend.Status)
    (new : ∀ k ∈ startedIds [msg], k ∉ ids) {after : List Nat × List Nat}
    (kept : contract used live (Soong.Ui.handleStatus r msg).2 = some after) :
    Tracks (Soong.Ui.handleStatus r msg).1 after.2 (ids ++ startedIds [msg]) (openEdgesStep edges msg) := by
  rw [contract_handleStatus] at kept
  obtain ⟨mid, startKept, finishKept⟩ := Option.bind_eq_some_iff.mp kept
  rw [startedIds_singleton] at new ⊢
  obtain ⟨midOk, midTracks⟩ := tracks.elim_startEdge ok msg.edgeStarted (fun k member => new k (by simpa using member))
    startKept
  exact midTracks.elim_finishEdge midOk msg.edgeFinished finishKept

theorem handleFrames (unmarshal : List UInt8 → Except String Frontend.Status) (frames : List (List UInt8))
    (ok : ReaderOk r used live) (tracks : Tracks r live ids edges)
    (unique : (ids ++ startedIds (decoded unmarshal frames)).Nodup) {after : List Nat × List Nat}
    (kept : contract used live (Soong.Ui.handleFrames unmarshal r frames).2 = some after) :
    Tracks (Soong.Ui.handleFrames unmarshal r frames).1 after.2 (ids ++ startedIds (decoded unmarshal frames))
      ((decoded unmarshal frames).foldl openEdgesStep edges) := by
  induction frames generalizing r used live ids edges with
  | nil =>
    cases kept
    simpa [decoded, startedIds, Soong.Ui.handleFrames] using tracks
  | cons buf bufs ih =>
    simp only [Soong.Ui.handleFrames] at kept ⊢
    rw [contract_append] at kept
    obtain ⟨mid, firstKept, restKept⟩ := Option.bind_eq_some_iff.mp kept
    cases decodes : unmarshal buf with
    | error err =>
      -- a buffer that does not decode changes nothing but the message it reports
      have skipped : decoded unmarshal (buf :: bufs) = decoded unmarshal bufs := by
        simp [decoded, decodes, Except.toOption]
      rw [handleFrame_error decodes] at firstKept restKept ⊢
      cases firstKept
      rw [skipped] at unique ⊢
      exact ih ok tracks unique restKept
    | ok msg =>
      have read : decoded unmarshal (buf :: bufs) = msg :: decoded unmarshal bufs := by
        simp [decoded, decodes, Except.toOption]
      have split : startedIds (msg :: decoded unmarshal bufs) = startedIds [msg] ++ startedIds (decoded unmarshal bufs) :=
        List.filterMap_append (l := [msg])
      rw [handleFrame_ok decodes] at firstKept restKept ⊢
      rw [read, split, ← List.append_assoc] at unique
      rw [read, split, ← List.append_assoc, List.foldl_cons]
      have new : ∀ k ∈ startedIds [msg], k ∉ ids := fun k member inIds =>
        List.disjoint_of_nodup_append (List.Nodup.of_append_left unique) inIds member
      obtain ⟨mid', midKept, midOk⟩ := ok.handleStatus msg
      rw [firstKept, Option.some.injEq] at midKept
      subst midKept
      exact ih midOk (tracks.handleStatus ok msg new firstKept) unique restKept

end Tracks

/-- With the edge ids ninja promises to be unique to a run, the reader loses no action: every
action it started and has not finished is filed under an edge in its map, and the edges filed
are exactly those ninja started and has not reported finished. So each live action is finished
when ninja reports its edge finished. -/
theorem ninjaReader_tracks_edges (unmarshal : List UInt8 → Except String Frontend.Status)
    (frames : List (List UInt8)) {base : Nat} {used : List Nat} (fresh : ∀ a ∈ used, a < base)
    (unique : (startedIds (decoded unmarshal frames)).Nodup) :
    ∃ after, contract used [] (handleFrames unmarshal ⟨fun _ => none, base⟩ frames).2 = some after ∧
      (∀ a, a ∈ after.2 ↔ ∃ e, (handleFrames unmarshal ⟨fun _ => none, base⟩ frames).1.running e = some a) ∧
      ∀ e, ((handleFrames unmarshal ⟨fun _ => none, base⟩ frames).1.running e).isSome ↔
        e ∈ openEdges (decoded unmarshal frames) := by
  have start : ReaderOk ⟨fun _ => none, base⟩ used [] := ⟨by simp, by simp, by simp, fresh⟩
  have nothing : Tracks ⟨fun _ => none, base⟩ [] [] [] := ⟨by simp, List.nodup_nil, by simp, by simp, List.nodup_nil⟩
  obtain ⟨after, kept, afterOk⟩ := start.handleFrames unmarshal frames
  have tracks := nothing.handleFrames unmarshal frames start (by simpa using unique) kept
  refine ⟨after, kept, fun a => ⟨tracks.filed a, fun ⟨e, filed⟩ => afterOk.live e a filed⟩, tracks.running⟩

/-- One stream that starts edge 7 and finishes it, read from the first action on. -/
theorem ninjaReader_tracks_edges_one_edge :
    ∃ after, contract [] [] (handleFrames oneEdge ⟨fun _ => none, 0⟩ [[1], [2]]).2 = some after ∧
      (∀ a, a ∈ after.2 ↔ ∃ e, (handleFrames oneEdge ⟨fun _ => none, 0⟩ [[1], [2]]).1.running e = some a) ∧
      ∀ e, ((handleFrames oneEdge ⟨fun _ => none, 0⟩ [[1], [2]]).1.running e).isSome ↔
        e ∈ openEdges (decoded oneEdge [[1], [2]]) :=
  ninjaReader_tracks_edges oneEdge [[1], [2]] (by simp) (by decide)

/-- An action that is in no entry of the map and below the next one: no later call finishes it. -/
def Lost (a : Nat) (r : ReaderState) : Prop := a < r.nextAction ∧ ∀ e, r.running e ≠ some a

namespace Lost

variable {a : Nat} {r : ReaderState}

theorem startEdge (lost : Lost a r) (e : Frontend.EdgeStarted) :
    Lost a (r.startEdge e).1 ∧ ∀ c ∈ (r.startEdge e).2, a ∉ c.finished := by
  refine ⟨⟨Nat.lt_succ_of_lt lost.1, fun k filed => ?_⟩, by simp [ReaderState.startEdge, Call.finished]⟩
  simp only [ReaderState.startEdge, Function.update_apply] at filed
  split at filed
  · rw [Option.some.injEq] at filed
    exact Nat.lt_irrefl _ (filed ▸ lost.1)
  · exact lost.2 k filed

theorem finishEdge (lost : Lost a r) (e : Frontend.EdgeFinished) :
    Lost a (r.finishEdge e).1 ∧ ∀ c ∈ (r.finishEdge e).2, a ∉ c.finished := by
  unfold ReaderState.finishEdge
  cases filed : r.running (e.id.getD 0) with
  | none => exact ⟨lost, by simp⟩
  | some b =>
    -- the action finished is the one filed under the edge, which is not the lost one
    have other : b ≠ a := fun same => lost.2 _ (same ▸ filed)
    refine ⟨⟨lost.1, fun k kept => ?_⟩, by simp [Call.finished, Ne.symm other]⟩
    simp only [Function.update_apply] at kept
    split at kept
    · cases kept
    · exact lost.2 k kept

/-- A message keeps an action lost once it is lost after the message's start. -/
theorem handleStatus_of_started {msg : Frontend.Status} (started : Lost a (msg.edgeStarted.elim (r, []) r.startEdge).1) :
    Lost a (Soong.Ui.handleStatus r msg).1 ∧ ∀ c ∈ (Soong.Ui.handleStatus r msg).2, a ∉ c.finished := by
  have finished : Lost a (msg.edgeFinished.elim ((msg.edgeStarted.elim (r, []) r.startEdge).1, [])
      (msg.edgeStarted.elim (r, []) r.startEdge).1.finishEdge).1 ∧
      ∀ c ∈ (msg.edgeFinished.elim ((msg.edgeStarted.elim (r, []) r.startEdge).1, [])
        (msg.edgeStarted.elim (r, []) r.startEdge).1.finishEdge).2, a ∉ c.finished := by
    cases msg.edgeFinished with
    | none => exact ⟨started, by simp⟩
    | some e => exact started.finishEdge e
  refine ⟨finished.1, fun c member => ?_⟩
  rcases mem_handleStatus member with start | finish | ⟨-, quiet⟩
  · -- a start finishes nothing
    cases starts : msg.edgeStarted with
    | none => simp [starts] at start
    | some e =>
      rw [starts, Option.elim] at start
      simp [ReaderState.startEdge] at start
      simp [start, Call.finished]
  · exact finished.2 c finish
  · simp [quiet]

theorem handleStatus (lost : Lost a r) (msg : Frontend.Status) :
    Lost a (Soong.Ui.handleStatus r msg).1 ∧ ∀ c ∈ (Soong.Ui.handleStatus r msg).2, a ∉ c.finished := by
  refine handleStatus_of_started ?_
  cases msg.edgeStarted with
  | none => exact lost
  | some e => exact (lost.startEdge e).1

theorem handleFrames (unmarshal : List UInt8 → Except String Frontend.Status) (lost : Lost a r)
    (frames : List (List UInt8)) : ∀ c ∈ (Soong.Ui.handleFrames unmarshal r frames).2, a ∉ c.finished := by
  induction frames generalizing r with
  | nil => simp [Soong.Ui.handleFrames]
  | cons buf bufs ih =>
    have first : Lost a (handleFrame unmarshal r buf).1 ∧ ∀ c ∈ (handleFrame unmarshal r buf).2, a ∉ c.finished := by
      cases decodes : unmarshal buf with
      | error err => exact ⟨by rw [handleFrame_error decodes]; exact lost, by simp [handleFrame_error decodes, Call.finished]⟩
      | ok msg => rw [handleFrame_ok decodes]; exact lost.handleStatus msg
    intro c member
    simp only [Soong.Ui.handleFrames, List.mem_append] at member
    rcases member with now | later
    · exact first.2 c now
    · exact ih first.1 c later

end Lost

/-- When ninja starts an edge again while that edge is running, which the edge ids unique to a
run rule out, the reader files the new action in the old one's place: the old action is never
finished, whatever follows, so the `Status` counts it as running until the tool's `Finish`. -/
theorem ninjaReader_restart_loses_action (unmarshal : List UInt8 → Except String Frontend.Status)
    {r : ReaderState} {used live : List Nat} (ok : ReaderOk r used live) {k : UInt32} {a : Nat}
    (filed : r.running k = some a) {msg : Frontend.Status} {e : Frontend.EdgeStarted}
    (starts : msg.edgeStarted = some e) (again : e.id.getD 0 = k) (frames : List (List UInt8)) :
    ∀ c ∈ (handleStatus r msg).2 ++ (handleFrames unmarshal (handleStatus r msg).1 frames).2, a ∉ c.finished := by
  -- after the new start, the old action is filed nowhere: only edge `k` held it
  have lost : Lost a (r.startEdge e).1 := by
    refine ⟨Nat.lt_succ_of_lt (ok.below k a filed), fun k' kept => ?_⟩
    simp only [ReaderState.startEdge, Function.update_apply] at kept
    split at kept
    · rw [Option.some.injEq] at kept
      exact Nat.lt_irrefl _ (kept ▸ ok.below k a filed)
    · rename_i other
      exact other ((ok.distinct k' k a kept filed).trans again.symm)
  rw [← Option.elim_some (r, []) r.startEdge e, ← starts] at lost
  obtain ⟨after, now⟩ := Lost.handleStatus_of_started lost
  intro c member
  rcases List.mem_append.mp member with inMessage | later
  · exact now c inMessage
  · exact Lost.handleFrames unmarshal after frames c later

/-- Edge 7 started while it runs: the first action, 0, is not finished by the `EdgeFinished` of
edge 7 that follows, which finishes the second. -/
theorem ninjaReader_restart_loses_action_seven :
    0 ∉ ((handleStatus (ReaderState.startEdge ⟨fun _ => none, 0⟩ ⟨some 7, [], none, none⟩).1
        ⟨none, false, some ⟨some 7, [], none, none⟩, none, none⟩).2 ++
      (handleFrames oneEdge (handleStatus (ReaderState.startEdge ⟨fun _ => none, 0⟩ ⟨some 7, [], none, none⟩).1
        ⟨none, false, some ⟨some 7, [], none, none⟩, none, none⟩).1 [[2]]).2).flatMap Call.finished := by
  intro finished
  obtain ⟨c, member, named⟩ := List.mem_flatMap.mp finished
  exact ninjaReader_restart_loses_action oneEdge
    ((show ReaderOk ⟨fun _ => none, 0⟩ [] [] from ⟨by simp, by simp, by simp, by simp⟩).startEdge
      ⟨some 7, [], none, none⟩).2
    (by simp [ReaderState.startEdge]) rfl rfl [[2]] c member named

end Edges

end Soong.Ui
