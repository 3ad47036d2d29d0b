import Mathlib

namespace Go

/-- The outcome of a Go call: its result, the error it returns, or a panic (a nil
dereference, an index out of range, a failed invariant check). -/
inductive Outcome (α : Type) where
  | ok : α → Outcome α
  | error : String → Outcome α
  | panic : String → Outcome α
  deriving DecidableEq, Repr

namespace Outcome

variable {α β : Type}

/-- Go's control flow through a call: an error returned or a panic ends the caller's block, a
result goes on with it. -/
def bind : Outcome α → (α → Outcome β) → Outcome β
  | ok a, f => f a
  | error e, _ => error e
  | panic p, _ => panic p

instance : Monad Outcome where
  pure := ok
  bind := bind

@[simp] theorem pure_eq_ok (a : α) : (pure a : Outcome α) = ok a := rfl

@[simp] theorem ok_bind (a : α) (f : α → Outcome β) : (ok a >>= f) = f a := rfl

@[simp] theorem error_bind (e : String) (f : α → Outcome β) : (error e >>= f) = error e := rfl

@[simp] theorem panic_bind (p : String) (f : α → Outcome β) : (panic p >>= f) = panic p := rfl

theorem bind_eq_ok {x : Outcome α} {f : α → Outcome β} {b : β} (h : (x >>= f) = ok b) :
    ∃ a, x = ok a ∧ f a = ok b := by
  cases x with
  | ok a => exact ⟨a, rfl, h⟩
  | error e => cases h
  | panic p => cases h

theorem bind_assoc {γ : Type} (x : Outcome α) (f : α → Outcome β) (g : β → Outcome γ) :
    (x >>= f) >>= g = x >>= fun a => f a >>= g := by
  cases x <;> rfl

end Outcome

def integerDivideByZero : String := "runtime error: integer divide by zero"

def makesliceCapOutOfRange : String := "runtime error: makeslice: cap out of range"

/-- The panic of `s[:high]` with `high` outside `0 ≤ high ≤ cap(s)`. -/
def sliceBoundsOutOfRange (high : Int) : String :=
  "runtime error: slice bounds out of range [:" ++ toString high ++ "]"

section ExceptBind

variable {ε α β : Type}

@[simp] theorem throw_eq_error (e : ε) : (throw e : Except ε α) = .error e := rfl

@[simp] theorem error_bind (e : ε) (f : α → Except ε β) : (Except.error e >>= f) = .error e := rfl

@[simp] theorem pure_eq_ok (a : α) : (pure a : Except ε α) = .ok a := rfl

@[simp] theorem ok_bind (a : α) (f : α → Except ε β) : (Except.ok a >>= f) = f a := rfl

theorem bind_eq_ok {x : Except ε α} {f : α → Except ε β} {b : β} (h : (x >>= f) = .ok b) :
    ∃ a, x = .ok a ∧ f a = .ok b := by
  cases x with
  | error e => cases h
  | ok a => exact ⟨a, rfl, h⟩

/-- Each result of a `mapM` that succeeds is what `f` made of one of the inputs. -/
theorem mapM_eq_ok_mem {f : α → Except ε β} {xs : List α} {ys : List β} (h : xs.mapM f = .ok ys) :
    ∀ y ∈ ys, ∃ x ∈ xs, f x = .ok y := by
  induction xs generalizing ys with
  | nil => cases h; simp
  | cons x xs ih =>
    rw [List.mapM_cons] at h
    obtain ⟨first, firstOk, restDone⟩ := bind_eq_ok h
    obtain ⟨rest, restOk, made⟩ := bind_eq_ok restDone
    cases made
    intro y mem
    rcases List.mem_cons.mp mem with rfl | later
    · exact ⟨x, List.mem_cons_self, firstOk⟩
    · obtain ⟨source, mem, ok⟩ := ih restOk y later
      exact ⟨source, List.mem_cons_of_mem x mem, ok⟩

/-- A loop that checks each element and throws at the first failing one succeeds only when every
check does. -/
theorem forM_eq_ok {xs : List α} {check : α → Except ε Unit} (done : xs.forM check = .ok ()) :
    ∀ x ∈ xs, check x = .ok () := by
  induction xs with
  | nil => simp
  | cons x xs ih =>
    -- `forM` on a cons is the check of the head, then the loop on the tail
    obtain ⟨⟨⟩, first, rest⟩ := bind_eq_ok (show (check x >>= fun _ => xs.forM check) = .ok () from done)
    intro y mem
    rcases List.mem_cons.mp mem with rfl | later
    · exact first
    · exact ih rest y later

/-- Whether a block succeeds, and with what, forgetting the text of its error. -/
@[simp] theorem toOption_bind (x : Except ε α) (f : α → Except ε β) :
    (x >>= f).toOption = x.toOption.bind fun a => (f a).toOption := by
  cases x <;> rfl

@[simp] theorem toOption_pure (a : α) : (pure a : Except ε α).toOption = some a := rfl

@[simp] theorem toOption_ok (a : α) : (Except.ok a : Except ε α).toOption = some a := rfl

@[simp] theorem toOption_error (e : ε) : (Except.error e : Except ε α).toOption = none := rfl

end ExceptBind

section Sorting

variable {α : Type}

/-- `sort.SliceStable` with the order `less`: the stable merge sort, which keeps `a` before `b`
unless `less b a`. -/
def sliceStable (less : α → α → Bool) (l : List α) : List α :=
  l.mergeSort fun a b => !less b a

theorem sliceStable_perm (less : α → α → Bool) (l : List α) : (sliceStable less l).Perm l :=
  List.mergeSort_perm l _

/-- For an asymmetric `less` whose complement is transitive (a strict weak order), no element
of the sorted list is less than one before it. -/
theorem pairwise_sliceStable {less : α → α → Bool}
    (asymm : ∀ a b, less a b = true → less b a = false)
    (trans : ∀ a b c, less b a = false → less c b = false → less c a = false) (l : List α) :
    (sliceStable less l).Pairwise fun a b => less b a = false := by
  have total : ∀ a b, ((!less b a) || !less a b) = true := by
    intro a b
    cases ba : less b a
    · rfl
    · simp [asymm b a ba]
  have sorted := @List.pairwise_mergeSort α (fun a b => !less b a)
    (fun a b c ab bc => by simpa using trans a b c (by simpa using ab) (by simpa using bc)) total l
  simpa [sliceStable] using sorted

/-- A `less` that compares one integer key and, where it ties, a second one is a strict weak
order, so `SliceStable` sorts by it. -/
theorem pairwise_sliceStable_lex {less : α → α → Bool} (key₁ key₂ : α → Int)
    (lex : ∀ a b, less a b = true ↔ key₁ a < key₁ b ∨ key₁ a = key₁ b ∧ key₂ a < key₂ b) (l : List α) :
    (sliceStable less l).Pairwise fun a b => less b a = false := by
  refine pairwise_sliceStable (fun a b ab => ?_) (fun a b c ba cb => ?_) l
  · rw [Bool.eq_false_iff, ne_eq, lex]
    rw [lex] at ab
    omega
  · simp only [Bool.eq_false_iff, ne_eq, lex] at ba cb ⊢
    omega

end Sorting

end Go
