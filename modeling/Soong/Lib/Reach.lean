import Mathlib

namespace Soong

open Relation

variable {α : Type} {r : α → α → Prop}

/-- No element reaches itself by one or more steps of `r`. -/
def Acyclic (r : α → α → Prop) : Prop :=
  ∀ a, ¬ TransGen r a a

/-- A rank that strictly decreases along every step rules out cycles. -/
theorem Acyclic.of_rank (rank : α → Nat) (descends : ∀ a b, r a b → rank b < rank a) :
    Acyclic r := by
  have below : ∀ a b, TransGen r a b → rank b < rank a := by
    intro a b path
    induction path with
    | single step => exact descends _ _ step
    | tail _ step ih => exact (descends _ _ step).trans ih
  intro a cycle
  exact lt_irrefl _ (below a a cycle)

/-- On a finite type an acyclic relation can be walked against its steps: every element is
reached after all elements it reaches. -/
theorem Acyclic.wellFounded [Finite α] (acyclic : Acyclic r) :
    WellFounded (fun b a => TransGen r a b) := by
  have : IsTrans α (fun b a => TransGen r a b) := ⟨fun _ _ _ first second => second.trans first⟩
  have : Std.Irrefl (fun b a => TransGen r a b) := ⟨acyclic⟩
  exact Finite.wellFounded_of_trans_of_irrefl _

end Soong
