import Mathlib.Data.List.Basic
import Mathlib.Data.Nat.ModEq

/-! Stretches of a ring of cells. A position is a cell number modulo the size; a stretch
that is written leaves the rest of the ring as it was. Nothing here names a component. -/
namespace EclairKernel.RingBuffer
open Function List Nat

variable {α : Type} {size off : Nat} {b b' b'' : Nat → α}

def slice (b : Nat → α) (size off n : Nat) : List α := (List.range n).map fun i => b ((off + i) % size)

def Kept (size off n : Nat) (b b' : Nat → α) : Prop := ∀ i, n ≤ i → i < size → b' ((off + i) % size) = b ((off + i) % size)

structure Wrote (size off : Nat) (cells : List α) (b b' : Nat → α) : Prop where
  kept : Kept size off cells.length b b'
  here : slice b' size off cells.length = cells

@[simp] theorem sliceLength (n : Nat) : (slice b size off n).length = n := by simp [slice]

theorem sliceMod (n : Nat) : slice b size (off % size) n = slice b size off n := by
  simp [slice]

theorem sliceAppend (m n : Nat) : slice b size off (m + n) = slice b size off m ++ slice b size (off + m) n := by
  simp only [slice,range_add,map_append,map_map,Function.comp_def,Nat.add_assoc]

variable {n m cells}

theorem sliceCell {i} (inside : i < n) : (slice b size off n)[i]? = some (b ((off + i) % size)) := by
  simp [slice,inside]

theorem sliceEq (length : cells.length = n)
    (cell : ∀ i, i < n → cells[i]? = some (b ((off + i) % size))) : slice b size off n = cells := by
  apply ext_getElem?
  intro i
  by_cases inside : i < n
  · rw [sliceCell inside,cell i inside]
  · rw [getElem?_eq_none (by simpa using inside),getElem?_eq_none (by omega)]

theorem sliceKept {d} (kept : Kept size off n b b') (outside : n ≤ d) (inside : d + m ≤ size) :
    slice b' size (off + d) m = slice b size (off + d) m := by
  refine sliceEq (by simp) fun i small => ?_
  rw [sliceCell small,add_assoc,kept (d + i) (by omega) (by omega)]

theorem keptRefl (n : Nat) : Kept size off n b b := fun _ _ _ => rfl

theorem keptMod : Kept size (off % size) n b b' ↔ Kept size off n b b' := by
  simp [Kept]

theorem wroteMod : Wrote size (off % size) cells b b' ↔ Wrote size off cells b b' :=
  ⟨fun w => ⟨keptMod.mp w.kept,sliceMod _ ▸ w.here⟩,fun w => ⟨keptMod.mpr w.kept,(sliceMod _).trans w.here⟩⟩

theorem keptTrans (first : Kept size off m b b') (second : Kept size (off + m) n b' b'') :
    Kept size off (m + n) b b'' := by
  intro i outside inside
  have later := second (i - m) (by omega) (by omega)
  rw [show off + m + (i - m) = off + i by omega] at later
  rw [later,first i (by omega) inside]

theorem wroteNothing : Wrote size off [] b b := ⟨keptRefl 0,rfl⟩

theorem wroteAppend {left right} (first : Wrote size off left b b')
    (second : Wrote size (off + left.length) right b' b'') (fits : left.length + right.length ≤ size) :
    Wrote size off (left ++ right) b b'' := by
  refine ⟨?_,?_⟩
  · rw [length_append]
    exact keptTrans first.kept second.kept
  · rw [length_append,sliceAppend,second.here]
    congr 1
    -- seen from the second stretch, the first ends where the ring closes
    refine Eq.trans (sliceEq (by simp) fun i small => ?_) first.here
    have around := second.kept (size - left.length + i) (by omega) (by omega)
    rw [show off + left.length + (size - left.length + i) = off + i + size by omega,add_mod_right] at around
    rw [sliceCell small,around]

theorem sliceHead (n : Nat) : slice b size off (n + 1) = b (off % size) :: slice b size (off + 1) n := by
  rw [add_comm n 1,sliceAppend]
  rfl

theorem sliceLast (n : Nat) : slice b size off (n + 1) = slice b size off n ++ [b ((off + n) % size)] := sliceAppend n 1

theorem cellsApart {j k} (before : j < k) (near : k < j + size) : (off + j) % size ≠ (off + k) % size := by
  intro same
  have divides := (modEq_iff_dvd' (by omega)).mp same
  have small := le_of_dvd (by omega) divides
  omega

theorem sliceUpdate {cell x} (outside : ∀ i, i < n → (off + i) % size ≠ cell) :
    slice (update b cell x) size off n = slice b size off n := by
  refine sliceEq (by simp) fun i inside => ?_
  rw [sliceCell inside,update_of_ne (outside i inside)]

theorem slicePush (room : n < size) (x : α) :
    slice (update b ((off + n) % size) x) size off (n + 1) = slice b size off n ++ [x] := by
  rw [sliceLast,update_self,sliceUpdate fun i inside => cellsApart inside (by omega)]

theorem sliceSetHead (room : n < size) (x : α) :
    slice (update b (off % size) x) size off (n + 1) = x :: slice b size (off + 1) n := by
  rw [sliceHead,update_self]
  congr 1
  refine sliceUpdate fun i inside same => ?_
  have apart : (off + 0) % size ≠ (off + (i + 1)) % size := cellsApart (succ_pos i) (by omega)
  exact apart (same.symm.trans (by rw [add_assoc,add_comm 1 i]))

end EclairKernel.RingBuffer
