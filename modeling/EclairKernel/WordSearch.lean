import Mathlib.Data.Nat.ModEq

/-! The first place of a range with a property, as find_next_bit looks for it, and rounding up
by a mask. Nothing here names a component. -/
namespace EclairKernel.WordSearch
open List Nat

def firstFrom (here : Nat → Bool) (size offset : Nat) : Nat := ((List.range' offset (size - offset)).find? here).getD size

section
variable (here : Nat → Bool) (size offset : Nat)

theorem firstFromFound (less : firstFrom here size offset < size) :
    offset ≤ firstFrom here size offset ∧ here (firstFrom here size offset) = true := by
  unfold firstFrom at *
  cases found : (range' offset (size - offset)).find? here with
  | none =>
    rw [found] at less
    exact absurd less (lt_irrefl size)
  | some m =>
    have mem := mem_range'_1.mp (mem_of_find?_eq_some found)
    exact ⟨mem.1,find?_some found⟩

theorem firstFromLe : firstFrom here size offset ≤ size := by
  unfold firstFrom
  cases found : (range' offset (size - offset)).find? here with
  | none => exact le_refl size
  | some m =>
    have mem := mem_range'_1.mp (mem_of_find?_eq_some found)
    show m ≤ size
    omega

theorem firstFromBefore (j : Nat) (low : offset ≤ j) (less : j < firstFrom here size offset) (inside : j < size) : here j = false := by
  unfold firstFrom at less
  have listed : j ∈ range' offset (size - offset) := mem_range'_1.mpr (by omega)
  cases found : (range' offset (size - offset)).find? here with
  | none => exact Bool.eq_false_iff.mpr (find?_eq_none.mp found j listed)
  | some m =>
    rw [found] at less
    have less : j < m := less
    obtain ⟨_,before,after,split,clear⟩ := find?_eq_some_iff_append.mp found
    have sorted := pairwise_append.mp (split ▸ pairwise_lt_range')
    rw [split] at listed
    rcases mem_append.mp listed with first | rest
    · simpa using clear j first
    rcases mem_cons.mp rest with rfl | later
    · exact absurd less (lt_irrefl _)
    · have := (pairwise_cons.mp sorted.2.1).1 j later
      omega

end

theorem orMask (x k : Nat) : x ||| (2^k - 1) = x / 2^k * 2^k + (2^k - 1) := by
  have positive := Nat.two_pow_pos k
  have ones : x % 2^k ||| (2^k - 1) = 2^k - 1 := by
    have upper : x % 2^k ||| (2^k - 1) < 2^k := or_lt_two_pow (mod_lt x positive) (by omega)
    have lower : 2^k - 1 ≤ x % 2^k ||| (2^k - 1) := right_le_or
    omega
  have split : x = 2^k * (x / 2^k) ||| x % 2^k := by
    rw [← two_pow_add_eq_or_of_lt (mod_lt x positive),div_add_mod]
  calc x ||| (2^k - 1) = 2^k * (x / 2^k) ||| (x % 2^k ||| (2^k - 1)) := by rw [← Nat.or_assoc,← split]
    _ = 2^k * (x / 2^k) + (2^k - 1) := by rw [ones,two_pow_add_eq_or_of_lt (by omega)]
    _ = x / 2^k * 2^k + (2^k - 1) := by rw [mul_comm]

end EclairKernel.WordSearch
