import Mathlib.Data.List.Perm.Basic

/-! Sorting in rounds. A round brings a least element of what is left to the front; each
further round works on the rest. Nothing here names a component. -/
namespace EclairKernel.Sorting
open List

variable {α : Type}

def rounds (front : List α → List α) : Nat → List α → List α
  | 0, l => l
  | n+1, l =>
    match front l with
    | [] => []
    | m::rest => m::rounds front n rest

structure Fronts (le : α → α → Prop) (front : List α → List α) : Prop where
  perm : ∀ l, front l ~ l
  least : ∀ {l m rest}, front l = m::rest → ∀ x ∈ rest, le m x

variable {le : α → α → Prop} {front} (fronts : Fronts le front)
include fronts

theorem roundsPerm (n : Nat) (l : List α) : rounds front n l ~ l := by
  induction n generalizing l with
  | zero => exact .rfl
  | succ n ih =>
    have perm := fronts.perm l
    rw [rounds]
    split
    · next eq => rwa [eq] at perm
    · next m rest eq => exact ((ih rest).cons m).trans (eq ▸ perm)

theorem roundsSorted {n l} (enough : l.length ≤ n) : (rounds front n l).Pairwise le := by
  induction n generalizing l with
  | zero => exact length_eq_zero_iff.mp (Nat.le_zero.mp enough) ▸ .nil
  | succ n ih =>
    rw [rounds]
    split
    · exact .nil
    · next m rest eq =>
      have shorter : rest.length + 1 = l.length := (eq ▸ fronts.perm l).length_eq
      refine pairwise_cons.mpr ⟨fun x mem => ?_,ih (by omega)⟩
      exact fronts.least eq x ((roundsPerm fronts n rest).mem_iff.mp mem)

end EclairKernel.Sorting
