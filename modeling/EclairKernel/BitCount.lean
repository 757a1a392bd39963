import Mathlib.Data.List.Nodup

/-! The number of ones in a bit vector. Modulo two it is additive over exclusive or.
Nothing here names a component. -/
namespace EclairKernel.BitCount
open List

section
variable {α : Type}

theorem countXor (l : List α) (f g : α → Bool) : l.countP (fun a => f a ^^ g a) % 2 = (l.countP f + l.countP g) % 2 ∧
      l.countP (fun a => f a ^^ g a) ≤ l.countP f + l.countP g := by
  induction l with
  | nil => exact ⟨rfl,Nat.le_refl 0⟩
  | cons a l ih =>
    simp only [countP_cons]
    cases f a <;> cases g a <;> simp <;> omega

end

variable {w} {x y : BitVec w}

def ones (x : BitVec w) : Nat := (List.range w).countP x.getLsbD

theorem onesXor : ones (x ^^^ y) % 2 = (ones x + ones y) % 2 := by
  simp only [ones,funext (fun i => BitVec.getLsbD_xor (i := i) (x := x) (y := y))]
  exact (countXor _ _ _).1

theorem onesXorLe : ones (x ^^^ y) ≤ ones x + ones y := by
  simp only [ones,funext (fun i => BitVec.getLsbD_xor (i := i) (x := x) (y := y))]
  exact (countXor _ _ _).2

theorem onesNot : ones x + ones (~~~x) = w := by
  have other : ones (~~~x) = (range w).countP fun i => !x.getLsbD i := by
    refine countP_congr fun i mem => ?_
    rw [mem_range] at mem
    simp [mem]
  have both := length_eq_countP_add_countP x.getLsbD (l := range w)
  rw [other,ones]
  simpa using both.symm

end EclairKernel.BitCount
