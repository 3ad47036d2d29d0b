import Mathlib

namespace Soong.Android.OncePer

variable {κ ν : Type}

/-- What `values` holds for a key: the waiter of the `Once` constructing its value
(`onceValueWaiter`), or the value. -/
inductive Entry (ν : Type) where
  | waiter (w : Nat)
  | value (v : ν)
  deriving DecidableEq, Repr

/-- A goroutine's program: calls of `Once(key, value)` and `Get(key)`, whose results the rest
of the program `k` may use. A constructor `value` is a program too. -/
inductive Prog (κ ν : Type) where
  | ret (v : ν)
  | once (key : κ) (value : Prog κ ν) (k : ν → Prog κ ν)
  | get (key : κ) (k : ν → Prog κ ν)

/-- A call of `Once`, with its constructor, or of `Get`. -/
inductive Call (κ ν : Type) where
  | once (value : Prog κ ν)
  | get

/-- What the callers see. -/
inductive Event (κ ν : Type) where
  /-- A `Once` stored its waiter `w` for `key` and calls its constructor. -/
  | began (key : κ) (w : Nat)
  /-- The constructor's value is stored. -/
  | constructed (key : κ) (v : ν)
  | onceReturned (key : κ) (v : ν)
  | getReturned (key : κ) (v : ν)

def Event.beganKey : Event κ ν → Option κ
  | .began key _ => some key
  | _ => none

def Call.returned : Call κ ν → κ → ν → Event κ ν
  | .once _, key, v => .onceReturned key v
  | .get, key, v => .getReturned key v

def getBeforeOnce : String := "Get() called before Once()"

def waiterNotValid : String := "Once() waiter completed but key is still not valid"

/-- Where a goroutine is: running its program, or inside a call on `key` whose result the rest
of the program `k` takes. -/
inductive Active (κ ν : Type) where
  | run (p : Prog κ ν)
  /-- `Once`'s fast-path `Load`, or `Get`'s `Load`. -/
  | load (key : κ) (call : Call κ ν) (k : ν → Prog κ ν)
  /-- `Once`'s slow path: `make(onceValueWaiter)` and `LoadOrStore`. -/
  | loadOrStore (key : κ) (value : Prog κ ν) (k : ν → Prog κ ν)
  /-- `Once` after its constructor returned `v`: the `Store`. -/
  | store (key : κ) (w : Nat) (v : ν) (k : ν → Prog κ ν)
  /-- `Once` after its `Store`: `close(waiter)` and `return v`. -/
  | close (key : κ) (w : Nat) (v : ν) (k : ν → Prog κ ν)
  /-- `maybeWaitFor` at `<-wait`. -/
  | wait (call : Call κ ν) (key : κ) (w : Nat) (k : ν → Prog κ ν)
  /-- `maybeWaitFor` after the receive: its second `Load`. -/
  | reload (call : Call κ ν) (key : κ) (k : ν → Prog κ ν)
  | panic (msg : String)

/-- A `Once` whose constructor runs above it: its key, its waiter and the rest of the program. -/
structure Frame (κ ν : Type) where
  key : κ
  waiter : Nat
  k : ν → Prog κ ν

structure Goroutine (κ ν : Type) where
  active : Active κ ν
  stack : List (Frame κ ν)

/-- What the goroutines share: the `OncePer`'s map, the channels made and those closed, and the
history of what the callers saw. -/
structure Memory (κ ν : Type) where
  values : κ → Option (Entry ν)
  closed : List Nat
  made : Nat
  history : List (Event κ ν)

namespace Memory

def record (m : Memory κ ν) (e : Event κ ν) : Memory κ ν := { m with history := m.history ++ [e] }

/-- `make(onceValueWaiter)`. -/
def make (m : Memory κ ν) : Memory κ ν := { m with made := m.made + 1 }

def close (m : Memory κ ν) (w : Nat) : Memory κ ν := { m with closed := w :: m.closed }

section Update

variable [DecidableEq κ]

/-- `make(onceValueWaiter)` and a `LoadOrStore` that stores it. -/
def storeWaiter (m : Memory κ ν) (key : κ) : Memory κ ν :=
  { m with values := Function.update m.values key (some (.waiter m.made)), made := m.made + 1 }

def store (m : Memory κ ν) (key : κ) (v : ν) : Memory κ ν :=
  { m with values := Function.update m.values key (some (.value v)) }

variable (m : Memory κ ν)

@[simp] theorem storeWaiter_values (key : κ) :
    (m.storeWaiter key).values = Function.update m.values key (some (.waiter m.made)) := rfl
@[simp] theorem storeWaiter_closed (key : κ) : (m.storeWaiter key).closed = m.closed := rfl
@[simp] theorem storeWaiter_made (key : κ) : (m.storeWaiter key).made = m.made + 1 := rfl
@[simp] theorem storeWaiter_history (key : κ) : (m.storeWaiter key).history = m.history := rfl
@[simp] theorem store_values (key : κ) (v : ν) :
    (m.store key v).values = Function.update m.values key (some (.value v)) := rfl
@[simp] theorem store_closed (key : κ) (v : ν) : (m.store key v).closed = m.closed := rfl
@[simp] theorem store_made (key : κ) (v : ν) : (m.store key v).made = m.made := rfl
@[simp] theorem store_history (key : κ) (v : ν) : (m.store key v).history = m.history := rfl

end Update

variable (m : Memory κ ν)

@[simp] theorem record_values (e : Event κ ν) : (m.record e).values = m.values := rfl
@[simp] theorem record_closed (e : Event κ ν) : (m.record e).closed = m.closed := rfl
@[simp] theorem record_made (e : Event κ ν) : (m.record e).made = m.made := rfl
@[simp] theorem record_history (e : Event κ ν) : (m.record e).history = m.history ++ [e] := rfl
@[simp] theorem make_values : m.make.values = m.values := rfl
@[simp] theorem make_closed : m.make.closed = m.closed := rfl
@[simp] theorem make_made : m.make.made = m.made + 1 := rfl
@[simp] theorem make_history : m.make.history = m.history := rfl
@[simp] theorem close_values (w : Nat) : (m.close w).values = m.values := rfl
@[simp] theorem close_closed (w : Nat) : (m.close w).closed = w :: m.closed := rfl
@[simp] theorem close_made (w : Nat) : (m.close w).made = m.made := rfl
@[simp] theorem close_history (w : Nat) : (m.close w).history = m.history := rfl

end Memory

/-- `OncePer` (`onceper.go`): a `sync.Map` from keys to values, where the goroutine that
constructs a key's value first stores a waiter channel that other callers block on.

Goroutines run programs of `Once` and `Get` calls; a constructor is such a program itself, so
calls nest. `sync.Map`'s `Load`, `LoadOrStore` and `Store`, a `close` and a receive from a
closed channel are the atomic steps, and a goroutine may take its next step at any time: a
run is any interleaving. A channel is named by the number of channels made before it. The
state also keeps the history of what the callers see: a constructor called, its value
stored, and each `Once` and `Get` returning. -/
structure State (κ ν : Type) (n : Nat) where
  mem : Memory κ ν
  goroutines : Fin n → Goroutine κ ν

namespace State

variable {n : Nat}

def init (progs : Fin n → Prog κ ν) : State κ ν n :=
  ⟨⟨fun _ => none, [], 0, []⟩, fun g => ⟨.run (progs g), []⟩⟩

/-- Goroutine `g` goes on as `r`, and leaves the memory `m`. -/
def next (s : State κ ν n) (g : Fin n) (m : Memory κ ν) (r : Goroutine κ ν) : State κ ν n :=
  ⟨m, Function.update s.goroutines g r⟩

/-- `maybeWaitFor(key, found)` up to its receive: a value is returned, a waiter waited for. -/
def maybeWaitFor (s : State κ ν n) (m : Memory κ ν) (g : Fin n) (stack : List (Frame κ ν)) (call : Call κ ν)
    (key : κ) (k : ν → Prog κ ν) : Entry ν → State κ ν n
  | .value v => s.next g (m.record (call.returned key v)) ⟨.run (k v), stack⟩
  | .waiter w => s.next g m ⟨.wait call key w k, stack⟩

/-- The next atomic step of goroutine `g`; `none` when it has finished, panicked, or waits on
a channel not yet closed. -/
def step [DecidableEq κ] [Inhabited ν] (s : State κ ν n) (g : Fin n) : Option (State κ ν n) :=
  match (s.goroutines g).active with
  | .run (.ret v) =>
    -- a constructor returns to the `Once` below it
    match (s.goroutines g).stack with
    | [] => none
    | f :: rest => some (s.next g s.mem ⟨.store f.key f.waiter v f.k, rest⟩)
  | .run (.once key value k) => some (s.next g s.mem ⟨.load key (.once value) k, (s.goroutines g).stack⟩)
  | .run (.get key k) => some (s.next g s.mem ⟨.load key .get k, (s.goroutines g).stack⟩)
  | .load key call k =>
    match s.mem.values key, call with
    | some found, _ => some (s.maybeWaitFor s.mem g (s.goroutines g).stack call key k found)
    | none, .once value => some (s.next g s.mem ⟨.loadOrStore key value k, (s.goroutines g).stack⟩)
    | none, .get => some (s.next g s.mem ⟨.panic getBeforeOnce, (s.goroutines g).stack⟩)
  | .loadOrStore key value k =>
    match s.mem.values key with
    | some found => some (s.maybeWaitFor s.mem.make g (s.goroutines g).stack (.once value) key k found)
    | none =>
      some (s.next g ((s.mem.storeWaiter key).record (.began key s.mem.made))
        ⟨.run value, ⟨key, s.mem.made, k⟩ :: (s.goroutines g).stack⟩)
  | .store key w v k =>
    some (s.next g ((s.mem.store key v).record (.constructed key v)) ⟨.close key w v k, (s.goroutines g).stack⟩)
  | .close key w v k =>
    some (s.next g ((s.mem.close w).record (.onceReturned key v)) ⟨.run (k v), (s.goroutines g).stack⟩)
  | .wait call key w k =>
    if w ∈ s.mem.closed then some (s.next g s.mem ⟨.reload call key k, (s.goroutines g).stack⟩) else none
  | .reload call key k =>
    match s.mem.values key with
    | some (.value v) => some (s.next g (s.mem.record (call.returned key v)) ⟨.run (k v), (s.goroutines g).stack⟩)
    | some (.waiter _) => some (s.next g s.mem ⟨.panic waiterNotValid, (s.goroutines g).stack⟩)
    -- `Load` of a missing key gives the nil interface, here `default`
    | none =>
      some (s.next g (s.mem.record (call.returned key default)) ⟨.run (k default), (s.goroutines g).stack⟩)
  | .panic _ => none

/-- Some goroutine takes a step. -/
def Step [DecidableEq κ] [Inhabited ν] (s s' : State κ ν n) : Prop := ∃ g, s.step g = some s'

def Reachable [DecidableEq κ] [Inhabited ν] (progs : Fin n → Prog κ ν) (s : State κ ν n) : Prop :=
  Relation.ReflTransGen Step (init progs) s

@[simp] theorem next_mem (s : State κ ν n) (g : Fin n) (m : Memory κ ν) (r : Goroutine κ ν) :
    (s.next g m r).mem = m := rfl

@[simp] theorem next_self (s : State κ ν n) (g : Fin n) (m : Memory κ ν) (r : Goroutine κ ν) :
    (s.next g m r).goroutines g = r := by
  simp [next]

theorem next_of_ne (s : State κ ν n) {g g' : Fin n} (m : Memory κ ν) (r : Goroutine κ ν) (other : g' ≠ g) :
    (s.next g m r).goroutines g' = s.goroutines g' := by
  simp [next, other]

end State

section Invariant

/-- The key whose value a call at its `Store` constructs, with its waiter. -/
def Active.owned : Active κ ν → List (κ × Nat)
  | .store key w _ _ => [(key, w)]
  | _ => []

/-- The keys a goroutine constructs the values of, with their waiters: the `Once` at its
`Store`, and those whose constructors run above them. -/
def Goroutine.owned (r : Goroutine κ ν) : List (κ × Nat) :=
  r.active.owned ++ r.stack.map fun f => (f.key, f.waiter)

theorem Call.returned_cases (call : Call κ ν) (key : κ) (v : ν) :
    call.returned key v = .onceReturned key v ∨ call.returned key v = .getReturned key v := by
  cases call
  · exact .inl rfl
  · exact .inr rfl

theorem Goroutine.owned_eq {r : Goroutine κ ν} {a : Active κ ν} (none : a.owned = []) (old : r.active.owned = []) :
    (⟨a, r.stack⟩ : Goroutine κ ν).owned = r.owned := by
  simp [owned, none, old]

theorem Event.beganKey_eq_some {e : Event κ ν} {key : κ} : e.beganKey = some key ↔ ∃ w, e = .began key w := by
  cases e <;> simp [Event.beganKey]

namespace Memory

/-- What a goroutine's place in its call says of the memory. -/
def ActiveOk (m : Memory κ ν) : Active κ ν → Prop
  | .close key w v _ => m.values key = some (.value v) ∧ .began key w ∈ m.history
  | .wait _ key w _ => .began key w ∈ m.history
  | .reload _ key _ => ∃ v, m.values key = some (.value v)
  | .panic msg => msg = getBeforeOnce
  | _ => True

/-- A goroutine in step with the memory: each key it constructs holds its waiter, and it
constructs no key twice. -/
structure Valid (m : Memory κ ν) (r : Goroutine κ ν) : Prop where
  owned_waiter : ∀ p ∈ r.owned, m.values p.1 = some (.waiter p.2)
  owned_nodup : (r.owned.map Prod.fst).Nodup
  active : m.ActiveOk r.active

/-- The memory's invariant. A key's waiter is the one its constructor's `Once` made, named by
a number below `made`; a key is in the map once a constructor began on it; the history's
values are the map's; a closed channel is the waiter of a key whose value is stored. -/
structure Inv (m : Memory κ ν) : Prop where
  waiter_began : ∀ key w, m.values key = some (.waiter w) → .began key w ∈ m.history
  began_made : ∀ key w, .began key w ∈ m.history → w < m.made
  began_unique : ∀ key key' w, .began key w ∈ m.history → .began key' w ∈ m.history → key = key'
  began_stored : ∀ key w, .began key w ∈ m.history → m.values key ≠ none
  began_nodup : (m.history.filterMap Event.beganKey).Nodup
  constructed_iff : ∀ key v, .constructed key v ∈ m.history ↔ m.values key = some (.value v)
  returned_value : ∀ key v, .onceReturned key v ∈ m.history ∨ .getReturned key v ∈ m.history →
    m.values key = some (.value v)
  closed_value : ∀ w ∈ m.closed, ∃ key v, .began key w ∈ m.history ∧ m.values key = some (.value v)

/-- `m'` keeps what `m` recorded and each value `m` stored. -/
structure Le (m m' : Memory κ ν) : Prop where
  history : ∀ e ∈ m.history, e ∈ m'.history
  value : ∀ key v, m.values key = some (.value v) → m'.values key = some (.value v)

variable {m m' : Memory κ ν}

theorem Le.refl (m : Memory κ ν) : m.Le m := ⟨fun _ => id, fun _ _ => id⟩

theorem Le.trans {m'' : Memory κ ν} (first : m.Le m') (second : m'.Le m'') : m.Le m'' :=
  ⟨fun e mem => second.history e (first.history e mem), fun key v value => second.value key v (first.value key v value)⟩

theorem le_record (e : Event κ ν) : m.Le (m.record e) :=
  ⟨fun _ mem => List.mem_append_left _ mem, fun _ _ => id⟩

theorem le_make : m.Le m.make := ⟨fun _ => id, fun _ _ => id⟩

theorem le_close (w : Nat) : m.Le (m.close w) := ⟨fun _ => id, fun _ _ => id⟩

/-- A new waiter and a stored value overwrite no value. -/
theorem le_update [DecidableEq κ] (key : κ) (e : Entry ν) (notValue : ∀ v, m.values key ≠ some (.value v))
    (same : m'.values = Function.update m.values key (some e)) (history : m'.history = m.history) : m.Le m' where
  history e mem := history ▸ mem
  value key' v value := by
    have other : key' ≠ key := by
      rintro rfl
      exact notValue v value
    rw [same, Function.update_of_ne other, value]

theorem Le.activeOk (le : m.Le m') {a : Active κ ν} (ok : m.ActiveOk a) : m'.ActiveOk a := by
  cases a with
  | close key w v k => exact ⟨le.value _ _ ok.1, le.history _ ok.2⟩
  | wait call key w k => exact le.history _ ok
  | reload call key k =>
    obtain ⟨v, value⟩ := ok
    exact ⟨v, le.value _ _ value⟩
  | _ => exact ok

theorem Valid.mono {r : Goroutine κ ν} (valid : m.Valid r) (le : m.Le m')
    (owned : ∀ p ∈ r.owned, m'.values p.1 = m.values p.1) : m'.Valid r where
  owned_waiter p mem := (owned p mem).trans (valid.owned_waiter p mem)
  owned_nodup := valid.owned_nodup
  active := le.activeOk valid.active

theorem mem_record_began {e : Event κ ν} {key : κ} {w : Nat} (notBegan : e.beganKey = none)
    (mem : .began key w ∈ (m.record e).history) : .began key w ∈ m.history := by
  rcases List.mem_append.mp mem with old | new
  · exact old
  · rw [← List.mem_singleton.mp new] at notBegan
    cases notBegan

/-- Recording what is neither a constructor's start nor its value, and whose returned values
are stored, keeps the invariant. -/
theorem Inv.record (inv : m.Inv) {e : Event κ ν} (notBegan : e.beganKey = none)
    (notConstructed : ∀ key v, e ≠ .constructed key v)
    (returned : ∀ key v, e = .onceReturned key v ∨ e = .getReturned key v → m.values key = some (.value v)) :
    (m.record e).Inv where
  waiter_began key w waiter := List.mem_append_left _ (inv.waiter_began key w waiter)
  began_made key w began := inv.began_made key w (mem_record_began notBegan began)
  began_unique key key' w began began' :=
    inv.began_unique key key' w (mem_record_began notBegan began) (mem_record_began notBegan began')
  began_stored key w began := inv.began_stored key w (mem_record_began notBegan began)
  began_nodup := by simpa [List.filterMap_append, notBegan] using inv.began_nodup
  constructed_iff key v := by
    rw [record_values, ← inv.constructed_iff, record_history, List.mem_append, List.mem_singleton]
    exact or_iff_left (notConstructed key v).symm
  returned_value key v mem := by
    simp only [record_history, List.mem_append, List.mem_singleton] at mem
    rcases mem with (old | new) | (old | new)
    · exact inv.returned_value key v (.inl old)
    · exact returned key v (.inl new.symm)
    · exact inv.returned_value key v (.inr old)
    · exact returned key v (.inr new.symm)
  closed_value w closed := by
    obtain ⟨key, v, began, value⟩ := inv.closed_value w closed
    exact ⟨key, v, List.mem_append_left _ began, value⟩

/-- A call returns a stored value. -/
theorem Inv.returned (inv : m.Inv) {key : κ} {v : ν} (value : m.values key = some (.value v)) {e : Event κ ν}
    (returned : e = .onceReturned key v ∨ e = .getReturned key v) : (m.record e).Inv := by
  obtain rfl | rfl := returned <;>
  exact inv.record rfl (fun _ _ => nofun) fun key' v' returned => by
    simp only [Event.onceReturned.injEq, Event.getReturned.injEq, reduceCtorEq, false_or, or_false] at returned
    rw [← returned.1, ← returned.2]
    exact value

theorem Inv.make (inv : m.Inv) : m.make.Inv where
  waiter_began := inv.waiter_began
  began_made key w began := Nat.lt_succ_of_lt (inv.began_made key w began)
  began_unique := inv.began_unique
  began_stored := inv.began_stored
  began_nodup := inv.began_nodup
  constructed_iff := inv.constructed_iff
  returned_value := inv.returned_value
  closed_value := inv.closed_value

/-- The owner closes its waiter once the value is stored. -/
theorem Inv.close (inv : m.Inv) {key : κ} {w : Nat} {v : ν} (began : .began key w ∈ m.history)
    (value : m.values key = some (.value v)) : (m.close w).Inv where
  waiter_began := inv.waiter_began
  began_made := inv.began_made
  began_unique := inv.began_unique
  began_stored := inv.began_stored
  began_nodup := inv.began_nodup
  constructed_iff := inv.constructed_iff
  returned_value := inv.returned_value
  closed_value w' closed := by
    rcases List.mem_cons.mp closed with rfl | old
    · exact ⟨key, v, began, value⟩
    · exact inv.closed_value w' old

/-- A key holding a value is none that holds no value. -/
theorem ne_of_value {key' : κ} {v : ν} (key : κ) (value : m.values key' = some (.value v))
    (notValue : ∀ v, m.values key ≠ some (.value v)) : key' ≠ key := by
  rintro rfl
  exact notValue v value

/-- A `LoadOrStore` that stores a new waiter, for a key not in the map. -/
theorem Inv.storeWaiter [DecidableEq κ] (inv : m.Inv) {key : κ} (absent : m.values key = none) :
    ((m.storeWaiter key).record (.began key m.made)).Inv where
  waiter_began key' w waiter := by
    simp only [record_values, storeWaiter_values, Function.update_apply] at waiter
    simp only [record_history, storeWaiter_history, List.mem_append, List.mem_singleton, Event.began.injEq]
    split_ifs at waiter with same
    · cases waiter
      exact .inr ⟨same, rfl⟩
    · exact .inl (inv.waiter_began key' w waiter)
  began_made key' w began := by
    simp only [record_history, storeWaiter_history, List.mem_append, List.mem_singleton, Event.began.injEq] at began
    rcases began with old | ⟨-, rfl⟩
    · exact Nat.lt_succ_of_lt (inv.began_made key' w old)
    · exact Nat.lt_succ_self _
  began_unique key₁ key₂ w began₁ began₂ := by
    simp only [record_history, storeWaiter_history, List.mem_append, List.mem_singleton, Event.began.injEq]
      at began₁ began₂
    rcases began₁ with old₁ | ⟨rfl, rfl⟩ <;> rcases began₂ with old₂ | ⟨rfl, fresh⟩
    · exact inv.began_unique key₁ key₂ w old₁ old₂
    · exact absurd (inv.began_made key₁ w old₁) (by omega)
    · exact absurd (inv.began_made key₂ _ old₂) (Nat.lt_irrefl _)
    · rfl
  began_stored key' w began := by
    simp only [record_history, storeWaiter_history, List.mem_append, List.mem_singleton, Event.began.injEq] at began
    simp only [record_values, storeWaiter_values, Function.update_apply]
    split_ifs with same
    · simp
    · rcases began with old | ⟨fresh, -⟩
      · exact inv.began_stored key' w old
      · exact absurd fresh same
  began_nodup := by
    have fresh : key ∉ m.history.filterMap Event.beganKey := by
      intro mem
      obtain ⟨e, mem, began⟩ := List.mem_filterMap.mp mem
      obtain ⟨w, rfl⟩ := Event.beganKey_eq_some.mp began
      exact inv.began_stored key w mem absent
    rw [record_history, storeWaiter_history, List.filterMap_append]
    exact inv.began_nodup.append (List.nodup_singleton key) (List.disjoint_singleton.mpr fresh)
  constructed_iff key' v := by
    rw [record_history, List.mem_append, List.mem_singleton, or_iff_left (by simp), storeWaiter_history,
      inv.constructed_iff, record_values, storeWaiter_values, Function.update_apply]
    split_ifs with same
    · subst same
      simp [absent]
    · rfl
  returned_value key' v mem := by
    have value := inv.returned_value key' v (by simpa using mem)
    have other := ne_of_value key value (by simp [absent])
    simp [Function.update_of_ne other, value]
  closed_value w closed := by
    obtain ⟨key', v, began, value⟩ := inv.closed_value w closed
    have other := ne_of_value key value (by simp [absent])
    exact ⟨key', v, List.mem_append_left _ began, by simp [Function.update_of_ne other, value]⟩

/-- The owner's `Store` of its constructor's value over its waiter. -/
theorem Inv.store [DecidableEq κ] (inv : m.Inv) {key : κ} {w : Nat} (waiter : m.values key = some (.waiter w))
    (v : ν) : ((m.store key v).record (.constructed key v)).Inv where
  waiter_began key' w' waiter' := by
    simp only [record_values, store_values, Function.update_apply] at waiter'
    split_ifs at waiter' with same
    · cases waiter'
    · exact List.mem_append_left _ (inv.waiter_began key' w' waiter')
  began_made key' w' began := inv.began_made key' w' (mem_record_began rfl began)
  began_unique key₁ key₂ w' began₁ began₂ :=
    inv.began_unique key₁ key₂ w' (mem_record_began rfl began₁) (mem_record_began rfl began₂)
  began_stored key' w' began := by
    simp only [record_values, store_values, Function.update_apply]
    split_ifs
    · simp
    · exact inv.began_stored key' w' (mem_record_began rfl began)
  began_nodup := by
    rw [record_history, store_history, List.filterMap_append,
      show [Event.constructed key v].filterMap Event.beganKey = [] from rfl, List.append_nil]
    exact inv.began_nodup
  constructed_iff key' v' := by
    rw [record_history, List.mem_append, List.mem_singleton, Event.constructed.injEq, store_history,
      inv.constructed_iff, record_values, store_values, Function.update_apply]
    split_ifs with same
    · subst same
      simp [waiter, eq_comm]
    · simp [same]
  returned_value key' v' mem := by
    have value := inv.returned_value key' v' (by simpa using mem)
    have other := ne_of_value key value (by simp [waiter])
    simp [Function.update_of_ne other, value]
  closed_value w' closed := by
    obtain ⟨key', v', began, value⟩ := inv.closed_value w' closed
    have other := ne_of_value key value (by simp [waiter])
    exact ⟨key', v', List.mem_append_left _ began, by simp [Function.update_of_ne other, value]⟩

end Memory

namespace State

variable {n : Nat}

/-- The invariant of a state: the memory's, each goroutine in step with the memory, and no
key constructed by two goroutines. -/
structure Inv (s : State κ ν n) : Prop where
  mem : s.mem.Inv
  valid : ∀ g, s.mem.Valid (s.goroutines g)
  owners_disjoint : ∀ g g', g ≠ g' → ∀ p ∈ (s.goroutines g).owned, ∀ p' ∈ (s.goroutines g').owned, p.1 ≠ p'.1

theorem Inv.init (progs : Fin n → Prog κ ν) : (init progs).Inv where
  mem :=
    { waiter_began := fun _ _ => nofun
      began_made := fun _ _ => nofun
      began_unique := fun _ _ _ => nofun
      began_stored := fun _ _ => nofun
      began_nodup := List.nodup_nil
      constructed_iff := fun _ _ => ⟨nofun, nofun⟩
      returned_value := fun _ _ mem => by rcases mem with mem | mem <;> cases mem
      closed_value := fun _ => nofun }
  valid _ := ⟨fun _ => nofun, List.nodup_nil, trivial⟩
  owners_disjoint _ _ _ _ := nofun

variable {s : State κ ν n} {g : Fin n} {m : Memory κ ν} {r : Goroutine κ ν}

/-- A step of goroutine `g` keeps the invariant when it keeps the memory's, leaves `g` in step,
changes the map at no key another goroutine constructs, and has `g` construct only keys it
constructed already or that were not in the map. -/
theorem Inv.next (inv : s.Inv) (mem : m.Inv) (le : s.mem.Le m) (valid : m.Valid r)
    (untouched : ∀ g', g' ≠ g → ∀ p ∈ (s.goroutines g').owned, m.values p.1 = s.mem.values p.1)
    (owned : ∀ p ∈ r.owned, p ∈ (s.goroutines g).owned ∨ s.mem.values p.1 = none) :
    (s.next g m r).Inv where
  mem := mem
  valid g' := by
    by_cases same : g' = g
    · rw [same, next_self]
      exact valid
    · rw [next_of_ne _ _ _ same]
      exact (inv.valid g').mono le (untouched g' same)
  owners_disjoint g₁ g₂ ne p mem₁ p' mem₂ := by
    have fresh : ∀ g', g' ≠ g → ∀ p ∈ r.owned, ∀ p' ∈ (s.goroutines g').owned, p.1 ≠ p'.1 := by
      intro g' other p mem p' mem'
      rcases owned p mem with old | absent
      · exact inv.owners_disjoint g g' (Ne.symm other) p old p' mem'
      · intro same
        have waiter := (inv.valid g').owned_waiter p' mem'
        rw [← same, absent] at waiter
        cases waiter
    by_cases first : g₁ = g
    · subst first
      rw [next_self] at mem₁
      rw [next_of_ne _ _ _ (Ne.symm ne)] at mem₂
      exact fresh g₂ (Ne.symm ne) p mem₁ p' mem₂
    · rw [next_of_ne _ _ _ first] at mem₁
      by_cases second : g₂ = g
      · subst second
        rw [next_self] at mem₂
        exact (fresh g₁ first p' mem₂ p mem₁).symm
      · rw [next_of_ne _ _ _ second] at mem₂
        exact inv.owners_disjoint g₁ g₂ ne p mem₁ p' mem₂

/-- A step that leaves the map as it is and the keys its goroutine constructs. -/
theorem Inv.next_of_owned (inv : s.Inv) (mem : m.Inv) (le : s.mem.Le m) (values : m.values = s.mem.values)
    (owned : r.owned = (s.goroutines g).owned) (active : m.ActiveOk r.active) : (s.next g m r).Inv :=
  inv.next mem le
    ⟨fun p member => by
      rw [values]
      exact (inv.valid g).owned_waiter p (owned ▸ member),
     owned ▸ (inv.valid g).owned_nodup, active⟩
    (fun _ _ p _ => by rw [values])
    (fun p member => .inl (owned ▸ member))

/-- `maybeWaitFor` on what a `Load` found, with the memory as it is or with one more channel. -/
theorem Inv.maybeWaitFor (inv : s.Inv) (mem : m.Inv) (le : s.mem.Le m) (values : m.values = s.mem.values)
    (call : Call κ ν) {key : κ} (k : ν → Prog κ ν) {e : Entry ν} (found : s.mem.values key = some e)
    (notStore : (s.goroutines g).active.owned = []) :
    (s.maybeWaitFor m g (s.goroutines g).stack call key k e).Inv := by
  cases e with
  | value v =>
    have value : m.values key = some (.value v) := values ▸ found
    exact inv.next_of_owned (mem.returned value (call.returned_cases key v)) (le.trans (Memory.le_record _))
      values (Goroutine.owned_eq rfl notStore) trivial
  | waiter w =>
    exact inv.next_of_owned mem le values (Goroutine.owned_eq rfl notStore)
      (le.history _ (inv.mem.waiter_began key w found))

/-- A `LoadOrStore` that stores the goroutine's waiter: it now constructs `key`. -/
theorem Inv.loadOrStore_stored (inv : s.Inv) {key : κ} {value : Prog κ ν} {k : ν → Prog κ ν}
    [DecidableEq κ] (active : (s.goroutines g).active = .loadOrStore key value k) (absent : s.mem.values key = none) :
    (s.next g ((s.mem.storeWaiter key).record (.began key s.mem.made))
      ⟨.run value, ⟨key, s.mem.made, k⟩ :: (s.goroutines g).stack⟩).Inv := by
  have owned : (⟨.run value, ⟨key, s.mem.made, k⟩ :: (s.goroutines g).stack⟩ : Goroutine κ ν).owned =
      (key, s.mem.made) :: (s.goroutines g).owned := by
    simp [Goroutine.owned, Active.owned, active]
  -- a key some goroutine constructs holds its waiter, so it is not `key`
  have other : ∀ g', ∀ p ∈ (s.goroutines g').owned, p.1 ≠ key := by
    intro g' p mem same
    have waiter := (inv.valid g').owned_waiter p mem
    rw [same, absent] at waiter
    cases waiter
  refine inv.next (inv.mem.storeWaiter absent)
    ((Memory.le_update key _ (by simp [absent]) rfl rfl : s.mem.Le (s.mem.storeWaiter key)).trans
      (Memory.le_record _)) ⟨?_, ?_, trivial⟩ ?_ ?_
  · intro p mem
    rw [owned, List.mem_cons] at mem
    rcases mem with rfl | mem
    · simp
    · simp [Function.update_of_ne (other g p mem), (inv.valid g).owned_waiter p mem]
  · rw [owned, List.map_cons, List.nodup_cons]
    refine ⟨fun mem => ?_, (inv.valid g).owned_nodup⟩
    obtain ⟨p, mem, same⟩ := List.mem_map.mp mem
    exact other g p mem same
  · intro g' _ p mem
    simp [Function.update_of_ne (other g' p mem)]
  · intro p mem
    rw [owned, List.mem_cons] at mem
    rcases mem with rfl | mem
    · exact .inr absent
    · exact .inl mem

/-- The owner's `Store`: `key` holds its value, and the goroutine goes on to `close`. -/
theorem Inv.store_stored (inv : s.Inv) [DecidableEq κ] {key : κ} {w : Nat} {v : ν} {k : ν → Prog κ ν}
    (active : (s.goroutines g).active = .store key w v k) :
    (s.next g ((s.mem.store key v).record (.constructed key v)) ⟨.close key w v k, (s.goroutines g).stack⟩).Inv := by
  have rest : (⟨.close key w v k, (s.goroutines g).stack⟩ : Goroutine κ ν).owned =
      (s.goroutines g).stack.map fun f => (f.key, f.waiter) := by
    simp [Goroutine.owned, Active.owned]
  have owned : (s.goroutines g).owned = (key, w) :: (s.goroutines g).stack.map fun f => (f.key, f.waiter) := by
    simp [Goroutine.owned, Active.owned, active]
  have waiter : s.mem.values key = some (.waiter w) :=
    (inv.valid g).owned_waiter (key, w) (by simp [owned])
  have nodup := (inv.valid g).owned_nodup
  rw [owned, List.map_cons, List.nodup_cons] at nodup
  -- the other keys of this goroutine, and those of the others, are not `key`
  have below : ∀ p ∈ (s.goroutines g).stack.map (fun f => (f.key, f.waiter)), p.1 ≠ key :=
    fun p mem same => by
      have key_mem := List.mem_map_of_mem (f := Prod.fst) mem
      rw [same] at key_mem
      exact nodup.1 key_mem
  have other : ∀ g', g' ≠ g → ∀ p ∈ (s.goroutines g').owned, p.1 ≠ key :=
    fun g' ne p mem => inv.owners_disjoint g' g ne p mem (key, w) (by simp [owned])
  refine inv.next (inv.mem.store waiter v)
    ((Memory.le_update key _ (by simp [waiter]) rfl rfl : s.mem.Le (s.mem.store key v)).trans
      (Memory.le_record _)) ⟨?_, ?_, ?_⟩ ?_ ?_
  · intro p mem
    rw [rest] at mem
    have old := (inv.valid g).owned_waiter p (by rw [owned]; exact List.mem_cons_of_mem _ mem)
    simp [Function.update_of_ne (below p mem), old]
  · rw [rest]
    exact nodup.2
  · exact ⟨by simp, List.mem_append_left _ (inv.mem.waiter_began key w waiter)⟩
  · intro g' ne p mem
    simp [Function.update_of_ne (other g' ne p mem)]
  · intro p mem
    rw [rest] at mem
    exact .inl (by rw [owned]; exact List.mem_cons_of_mem _ mem)

variable [DecidableEq κ] [Inhabited ν]

/-- Every step of every goroutine keeps the invariant. -/
theorem Inv.step (inv : s.Inv) {s' : State κ ν n} (stepped : s.step g = some s') : s'.Inv := by
  have ok := (inv.valid g).active
  have notStore : ∀ {a : Active κ ν}, (s.goroutines g).active = a → (∀ key w v k, a ≠ .store key w v k) →
      (s.goroutines g).active.owned = [] := by
    intro a active notStore
    rw [active]
    cases a <;> first | rfl | exact absurd rfl (notStore _ _ _ _)
  unfold State.step at stepped
  cases active : (s.goroutines g).active with
  | run p =>
    rw [active] at stepped
    have none := notStore active (fun _ _ _ _ => nofun)
    cases p with
    | ret v =>
      -- the constructor's value goes to the `Store` of the `Once` below it
      cases stack : (s.goroutines g).stack with
      | nil => simp [stack] at stepped
      | cons f rest =>
        simp only [stack, Option.some.injEq] at stepped
        subst stepped
        refine inv.next_of_owned inv.mem (.refl _) rfl ?_ trivial
        simp [Goroutine.owned, Active.owned, active, stack]
    | once key value k =>
      cases stepped
      exact inv.next_of_owned inv.mem (.refl _) rfl (Goroutine.owned_eq rfl none) trivial
    | get key k =>
      cases stepped
      exact inv.next_of_owned inv.mem (.refl _) rfl (Goroutine.owned_eq rfl none) trivial
  | load key call k =>
    rw [active] at stepped
    have none := notStore active (fun _ _ _ _ => nofun)
    cases found : s.mem.values key with
    | some e =>
      simp only [found, Option.some.injEq] at stepped
      subst stepped
      exact inv.maybeWaitFor inv.mem (.refl _) rfl call k found none
    | none =>
      cases call with
      | once value =>
        simp only [found, Option.some.injEq] at stepped
        subst stepped
        exact inv.next_of_owned inv.mem (.refl _) rfl (Goroutine.owned_eq rfl none) trivial
      | get =>
        simp only [found, Option.some.injEq] at stepped
        subst stepped
        exact inv.next_of_owned inv.mem (.refl _) rfl (Goroutine.owned_eq rfl none) rfl
  | loadOrStore key value k =>
    rw [active] at stepped
    cases found : s.mem.values key with
    | some e =>
      simp only [found, Option.some.injEq] at stepped
      subst stepped
      exact inv.maybeWaitFor inv.mem.make Memory.le_make rfl (.once value) k found
        (notStore active (fun _ _ _ _ => nofun))
    | none =>
      simp only [found, Option.some.injEq] at stepped
      subst stepped
      exact inv.loadOrStore_stored active found
  | store key w v k =>
    rw [active] at stepped
    cases stepped
    exact inv.store_stored active
  | close key w v k =>
    rw [active] at stepped
    cases stepped
    rw [active] at ok
    obtain ⟨value, began⟩ := ok
    exact inv.next_of_owned ((inv.mem.close began value).returned value (.inl rfl))
      ((Memory.le_close w).trans (Memory.le_record _)) rfl
      (Goroutine.owned_eq rfl (notStore active (fun _ _ _ _ => nofun))) trivial
  | wait call key w k =>
    rw [active] at stepped ok
    simp only at stepped
    split_ifs at stepped with closed
    cases stepped
    -- the waiter is closed once the value of its key is stored
    obtain ⟨key', v, began, value⟩ := inv.mem.closed_value w closed
    rw [inv.mem.began_unique key' key w began ok] at value
    exact inv.next_of_owned inv.mem (.refl _) rfl
      (Goroutine.owned_eq rfl (notStore active (fun _ _ _ _ => nofun))) ⟨v, value⟩
  | reload call key k =>
    rw [active] at stepped ok
    obtain ⟨v, value⟩ := ok
    simp only [value, Option.some.injEq] at stepped
    subst stepped
    exact inv.next_of_owned (inv.mem.returned value (call.returned_cases key v)) (Memory.le_record _) rfl
      (Goroutine.owned_eq rfl (notStore active (fun _ _ _ _ => nofun))) trivial
  | panic msg =>
    rw [active] at stepped
    cases stepped

theorem Reachable.inv {progs : Fin n → Prog κ ν} (reach : Reachable progs s) : s.Inv := by
  induction reach with
  | refl => exact Inv.init progs
  | tail _ next ih =>
    obtain ⟨g, stepped⟩ := next
    exact ih.step stepped

end State

end Invariant

section Steps

namespace State

variable [DecidableEq κ] [Inhabited ν] {n : Nat} {s : State κ ν n} {g : Fin n} {key : κ} {k : ν → Prog κ ν}

theorem step_ret_cons {v : ν} {f : Frame κ ν} {rest : List (Frame κ ν)}
    (active : (s.goroutines g).active = .run (.ret v)) (stack : (s.goroutines g).stack = f :: rest) :
    s.step g = some (s.next g s.mem ⟨.store f.key f.waiter v f.k, rest⟩) := by
  unfold step
  rw [active, stack]

theorem step_run_once {value : Prog κ ν} (active : (s.goroutines g).active = .run (.once key value k)) :
    s.step g = some (s.next g s.mem ⟨.load key (.once value) k, (s.goroutines g).stack⟩) := by
  unfold step
  rw [active]

theorem step_load_found {call : Call κ ν} {e : Entry ν} (active : (s.goroutines g).active = .load key call k)
    (found : s.mem.values key = some e) :
    s.step g = some (s.maybeWaitFor s.mem g (s.goroutines g).stack call key k e) := by
  unfold step
  rw [active]
  simp only [found]

theorem step_load_once_absent {value : Prog κ ν} (active : (s.goroutines g).active = .load key (.once value) k)
    (absent : s.mem.values key = none) :
    s.step g = some (s.next g s.mem ⟨.loadOrStore key value k, (s.goroutines g).stack⟩) := by
  unfold step
  rw [active]
  simp only [absent]

theorem step_loadOrStore_absent {value : Prog κ ν} (active : (s.goroutines g).active = .loadOrStore key value k)
    (absent : s.mem.values key = none) :
    s.step g = some (s.next g ((s.mem.storeWaiter key).record (.began key s.mem.made))
      ⟨.run value, ⟨key, s.mem.made, k⟩ :: (s.goroutines g).stack⟩) := by
  unfold step
  rw [active]
  simp only [absent]

theorem step_store {w : Nat} {v : ν} (active : (s.goroutines g).active = .store key w v k) :
    s.step g = some (s.next g ((s.mem.store key v).record (.constructed key v)) ⟨.close key w v k, (s.goroutines g).stack⟩) := by
  unfold step
  rw [active]

theorem step_close {w : Nat} {v : ν} (active : (s.goroutines g).active = .close key w v k) :
    s.step g = some (s.next g ((s.mem.close w).record (.onceReturned key v)) ⟨.run (k v), (s.goroutines g).stack⟩) := by
  unfold step
  rw [active]

omit [DecidableEq κ] [Inhabited ν] in
theorem next_active (m : Memory κ ν) (r : Goroutine κ ν) : ((s.next g m r).goroutines g).active = r.active := by
  rw [next_self]

omit [DecidableEq κ] [Inhabited ν] in
@[simp] theorem next_next (m m' : Memory κ ν) (r r' : Goroutine κ ν) :
    (s.next g m r).next g m' r' = s.next g m' r' := by
  simp [next]

end State

end Steps

section Safety

namespace State

variable [DecidableEq κ] [Inhabited ν] {n : Nat} {progs : Fin n → Prog κ ν} {s : State κ ν n}

/-- No two constructors begin on one key. -/
theorem Reachable.began_nodup (reach : Reachable progs s) : (s.mem.history.filterMap Event.beganKey).Nodup :=
  reach.inv.mem.began_nodup

theorem Reachable.constructed_unique (reach : Reachable progs s) {key : κ} {v v' : ν}
    (first : .constructed key v ∈ s.mem.history) (second : .constructed key v' ∈ s.mem.history) : v = v' := by
  have stored := (reach.inv.mem.constructed_iff key v).mp first
  rw [(reach.inv.mem.constructed_iff key v').mp second] at stored
  cases stored
  rfl

/-- Every `Once` and `Get` that returned returned the value the key's constructor made. -/
theorem Reachable.returned_constructed (reach : Reachable progs s) {key : κ} {v : ν}
    (returned : .onceReturned key v ∈ s.mem.history ∨ .getReturned key v ∈ s.mem.history) :
    .constructed key v ∈ s.mem.history :=
  (reach.inv.mem.constructed_iff key v).mpr (reach.inv.mem.returned_value key v returned)

/-- The only panic is `Get`'s before any `Once`: a waiter is never seen again once closed. -/
theorem Reachable.panic_getBeforeOnce (reach : Reachable progs s) {g : Fin n} {msg : String}
    (active : (s.goroutines g).active = .panic msg) : msg = getBeforeOnce := by
  have ok := (reach.inv.valid g).active
  rw [active] at ok
  exact ok

/-- A `Get` whose `Load` comes after a `Once` on its key stored its waiter does not panic: it
returns or waits. -/
theorem Reachable.get_after_began (reach : Reachable progs s) {g : Fin n} {key : κ} {k : ν → Prog κ ν} {w : Nat}
    (active : (s.goroutines g).active = .load key .get k) (began : .began key w ∈ s.mem.history) :
    ∃ s', s.step g = some s' ∧ ∀ msg, (s'.goroutines g).active ≠ .panic msg := by
  obtain ⟨e, found⟩ := Option.ne_none_iff_exists'.mp (reach.inv.mem.began_stored key w began)
  refine ⟨_, step_load_found active found, ?_⟩
  cases e <;> simp [maybeWaitFor]

end State

end Safety

section Progress

/-- The `Once` calls of a program nest on distinct keys: none runs inside a constructor for its
own key, `building`. The program calls no `Get`. -/
def Prog.NestsDistinct : List κ → Prog κ ν → Prop
  | _, .ret _ => True
  | building, .once key value k =>
    key ∉ building ∧ value.NestsDistinct (key :: building) ∧ ∀ v, (k v).NestsDistinct building
  | _, .get _ _ => False

namespace State

variable [DecidableEq κ] [Inhabited ν] {n : Nat} {s : State κ ν n} {g : Fin n} {key : κ} {k : ν → Prog κ ν}

/-- Goroutine `g` alone takes steps from one state to the other. -/
def RunsAlone (g : Fin n) : State κ ν n → State κ ν n → Prop :=
  Relation.ReflTransGen fun s s' => s.step g = some s'

theorem RunsAlone.reachable {progs : Fin n → Prog κ ν} {s s' : State κ ν n} (reach : Reachable progs s)
    (run : RunsAlone g s s') : Reachable progs s' :=
  reach.trans (Relation.ReflTransGen.mono (fun _ _ stepped => ⟨g, stepped⟩) _ _ run)

/-- A `Once` on a key whose value is stored returns it. -/
theorem runsAlone_fast {value : Prog κ ν} {v : ν} (active : (s.goroutines g).active = .run (.once key value k))
    (found : s.mem.values key = some (.value v)) :
    ∃ s', RunsAlone g s s' ∧ s'.goroutines g = ⟨.run (k v), (s.goroutines g).stack⟩ ∧ s'.mem.values = s.mem.values := by
  refine ⟨_, .head (step_run_once active) (.single (step_load_found (next_active ..) found)), ?_, rfl⟩
  simp [maybeWaitFor]

/-- A `Once` on a key not in the map stores its waiter and calls its constructor. -/
theorem runsAlone_begin {value : Prog κ ν} (active : (s.goroutines g).active = .run (.once key value k))
    (absent : s.mem.values key = none) :
    ∃ s', RunsAlone g s s' ∧ s'.goroutines g = ⟨.run value, ⟨key, s.mem.made, k⟩ :: (s.goroutines g).stack⟩ ∧
      s'.mem.values = Function.update s.mem.values key (some (.waiter s.mem.made)) := by
  refine ⟨_, .head (step_run_once active) (.head (step_load_once_absent (next_active ..) absent)
    (.single (step_loadOrStore_absent (next_active ..) absent))), by simp, by simp⟩

/-- A constructor's value is stored, its waiter closed, and the `Once` below returns it. -/
theorem runsAlone_finish {v : ν} {f : Frame κ ν} {rest : List (Frame κ ν)}
    (active : (s.goroutines g).active = .run (.ret v)) (stack : (s.goroutines g).stack = f :: rest) :
    ∃ s', RunsAlone g s s' ∧ s'.goroutines g = ⟨.run (f.k v), rest⟩ ∧
      s'.mem.values = Function.update s.mem.values f.key (some (.value v)) := by
  refine ⟨_, .head (step_ret_cons active stack) (.head (step_store (next_active ..))
    (.single (step_close (next_active ..)))), by simp, by simp⟩

/-- A goroutine whose program nests its `Once` calls on distinct keys, and finds in the map no
waiter but for the keys `building` it constructs, finishes the program alone. -/
theorem runsAlone_of_nestsDistinct (g : Fin n) : ∀ (p : Prog κ ν) (building : List κ) (s : State κ ν n),
    (s.goroutines g).active = .run p → p.NestsDistinct building →
    (∀ key w, s.mem.values key = some (.waiter w) → key ∈ building) →
    ∃ s' v, RunsAlone g s s' ∧ s'.goroutines g = ⟨.run (.ret v), (s.goroutines g).stack⟩ ∧
      ∀ key w, s'.mem.values key = some (.waiter w) → key ∈ building := by
  intro p
  induction p with
  | ret v =>
    intro building s active _ waiters
    refine ⟨s, v, .refl, ?_, waiters⟩
    rw [← active]
  | once key value k ihValue ihK =>
    intro building s active distinct waiters
    obtain ⟨fresh, valueDistinct, kDistinct⟩ := distinct
    cases found : s.mem.values key with
    | some e =>
      cases e with
      | waiter w => exact absurd (waiters key w found) fresh
      | value v =>
        -- the fast path: the stored value goes to the rest of the program
        obtain ⟨s₁, run₁, at₁, values₁⟩ := runsAlone_fast active found
        obtain ⟨s₂, r, run₂, at₂, waiters₂⟩ := ihK v building s₁ (by rw [at₁]) (kDistinct v)
          (by rw [values₁]; exact waiters)
        exact ⟨s₂, r, run₁.trans run₂, by rw [at₂, at₁], waiters₂⟩
    | none =>
      -- the slow path: the constructor runs with `key` among the keys it is inside
      obtain ⟨s₁, run₁, at₁, values₁⟩ := runsAlone_begin active found
      have waiters₁ : ∀ key' w, s₁.mem.values key' = some (.waiter w) → key' ∈ key :: building := by
        intro key' w waiter
        rw [values₁, Function.update_apply] at waiter
        split_ifs at waiter with same
        · exact same ▸ List.mem_cons_self
        · exact List.mem_cons_of_mem _ (waiters key' w waiter)
      obtain ⟨s₂, v, run₂, at₂, waiters₂⟩ := ihValue (key :: building) s₁ (by rw [at₁]) valueDistinct waiters₁
      rw [at₁] at at₂
      obtain ⟨s₃, run₃, at₃, values₃⟩ := runsAlone_finish (by rw [at₂]) (by rw [at₂])
      have waiters₃ : ∀ key' w, s₃.mem.values key' = some (.waiter w) → key' ∈ building := by
        intro key' w waiter
        rw [values₃, Function.update_apply] at waiter
        split_ifs at waiter with same
        · cases waiter
        · exact (List.mem_cons.mp (waiters₂ key' w waiter)).resolve_left same
      obtain ⟨s₄, r, run₄, at₄, waiters₄⟩ := ihK v building s₃ (by rw [at₃]) (kDistinct v) waiters₃
      exact ⟨s₄, r, run₁.trans (run₂.trans (run₃.trans run₄)), by rw [at₄, at₃], waiters₄⟩
  | get key k =>
    intro building s active distinct
    exact distinct.elim

/-- A goroutine whose nested `Once` calls are on distinct keys completes its program when it
runs alone. -/
theorem Reachable.completes (progs : Fin n → Prog κ ν) (g : Fin n) (distinct : (progs g).NestsDistinct []) :
    ∃ s v, Reachable progs s ∧ s.goroutines g = ⟨.run (.ret v), []⟩ := by
  obtain ⟨s, v, run, final, -⟩ :=
    runsAlone_of_nestsDistinct g (progs g) [] (init progs) rfl distinct fun _ _ => nofun
  exact ⟨s, v, run.reachable .refl, final⟩

end State

end Progress

section Interleavings

namespace State

variable [DecidableEq κ] [Inhabited ν] {n : Nat}

/-- The state after the goroutines of `sched` take a step each in turn, if each can. -/
def run (s : State κ ν n) : List (Fin n) → Option (State κ ν n)
  | [] => some s
  | g :: sched => (s.step g).bind fun s' => s'.run sched

theorem run_reachable {progs : Fin n → Prog κ ν} {s s' : State κ ν n} :
    ∀ {sched : List (Fin n)}, Reachable progs s → s.run sched = some s' → Reachable progs s'
  | [], reach, ran => by
    cases ran
    exact reach
  | g :: _, reach, ran => by
    obtain ⟨s₁, stepped, rest⟩ := Option.bind_eq_some_iff.mp ran
    exact run_reachable (reach.tail ⟨g, stepped⟩) rest

/-- Over every interleaving of the goroutines' steps, each key has at most one constructor, one
constructed value, which every `Once` and `Get` that returns gets; the only panic is `Get`'s
before any `Once` stored its waiter, which a `Get` loading after that never raises; and a
goroutine whose nested `Once` calls are on distinct keys completes when it runs alone. -/
theorem oncePer_computes_once (progs : Fin n → Prog κ ν) :
    (∀ s, Reachable progs s →
      (s.mem.history.filterMap Event.beganKey).Nodup ∧
      (∀ key v v', .constructed key v ∈ s.mem.history → .constructed key v' ∈ s.mem.history → v = v') ∧
      (∀ key v, .onceReturned key v ∈ s.mem.history ∨ .getReturned key v ∈ s.mem.history →
        .constructed key v ∈ s.mem.history) ∧
      (∀ g msg, (s.goroutines g).active = .panic msg → msg = getBeforeOnce) ∧
      (∀ g key k w, (s.goroutines g).active = .load key .get k → .began key w ∈ s.mem.history →
        ∃ s', s.step g = some s' ∧ ∀ msg, (s'.goroutines g).active ≠ .panic msg)) ∧
    ∀ g, (progs g).NestsDistinct [] → ∃ s v, Reachable progs s ∧ s.goroutines g = ⟨.run (.ret v), []⟩ := by
  refine ⟨fun s reach => ⟨reach.began_nodup, ?_, ?_, ?_, ?_⟩, Reachable.completes progs⟩
  · intro key v v' first second
    exact reach.constructed_unique first second
  · intro key v returned
    exact reach.returned_constructed returned
  · intro g msg active
    exact reach.panic_getBeforeOnce active
  · intro g key k w active began
    exact reach.get_after_began active began

end State

/-- `TestOncePerReentrant`: inside the constructor of one key, a `Once` on another. -/
def reentrant : Fin 1 → Prog Nat String := fun _ => .once 1 (.once 2 (.ret "a") .ret) .ret

theorem oncePer_computes_once_reentrant :
    (reentrant 0).NestsDistinct [] ∧ ∃ s v, State.Reachable reentrant s ∧ s.goroutines 0 = ⟨.run (.ret v), []⟩ :=
  have distinct : (reentrant 0).NestsDistinct [] := by simp [reentrant, Prog.NestsDistinct]
  ⟨distinct, (State.oncePer_computes_once reentrant).2 0 distinct⟩

/-- A `Once` on key 0 and a `Get` of key 0. -/
def getRace : Fin 2 → Prog Nat Nat
  | 0 => .once 0 (.ret 1) .ret
  | 1 => .get 0 .ret

/-- Two goroutines nesting `Once` calls on keys 1 and 2 in opposite orders. -/
def crossed : Fin 2 → Prog Nat Nat
  | 0 => .once 1 (.once 2 (.ret 0) .ret) .ret
  | 1 => .once 2 (.once 1 (.ret 0) .ret) .ret

/-- A `Get` issued after a `Once` began panics when it loads before the `Once` stores its
waiter; and two goroutines whose nested `Once` calls are each on distinct keys deadlock, each
waiting for the waiter of the other. -/
theorem oncePer_counterexample :
    (∃ s, State.Reachable getRace s ∧ (∃ value k, (s.goroutines 0).active = .loadOrStore 0 value k) ∧
      (s.goroutines 1).active = .panic getBeforeOnce) ∧
    (∀ g, (crossed g).NestsDistinct []) ∧
    ∃ s, State.Reachable crossed s ∧
      ∀ g, (s.step g).isNone ∧ ∃ call key w k, (s.goroutines g).active = .wait call key w k := by
  refine ⟨⟨_, State.run_reachable .refl (rfl : (State.init getRace).run [0, 0, 1, 1] = some _), ⟨_, _, rfl⟩, rfl⟩,
    ?_, _, State.run_reachable .refl (rfl : (State.init crossed).run [0, 0, 0, 1, 1, 1, 0, 0, 1, 1] = some _), ?_⟩
  · intro g
    match g with
    | 0 => simp [crossed, Prog.NestsDistinct]
    | 1 => simp [crossed, Prog.NestsDistinct]
  · intro g
    match g with
    | 0 => exact ⟨rfl, _, _, _, _, rfl⟩
    | 1 => exact ⟨rfl, _, _, _, _, rfl⟩

end Interleavings

end Soong.Android.OncePer
