import Mathlib.Data.Nat.ModEq
import Mathlib.Logic.Function.Basic

/-! lib/bitmap.c: __bitmap_shift_right and __bitmap_shift_left on a memory of 32-bit words.
A bitmap is the address of its first word, and the two may be one. -/
namespace EclairKernel.Bitmap
open Function List BitVec Nat

abbrev Memory := Nat → BitVec 32

def bitsToLongs (bits : Nat) : Nat := (bits + 31) / 32

def bit (m : Memory) (p i : Nat) : Bool := (m (p + i / 32)).getLsbD (i % 32)

def masked (bits k : Nat) (w : BitVec 32) : BitVec 32 :=
  if bits % 32 ≠ 0 ∧ k = bitsToLongs bits - 1 then w &&& ((1#32 <<< (bits % 32)) - 1) else w

def memset (m : Memory) (p n : Nat) : Memory := fun x => if p ≤ x ∧ x < p + n then 0 else m x

def rightWord (src shift bits k : Nat) (m : Memory) : BitVec 32 :=
  let off := shift / 32
  let rem := shift % 32
  let upper := if rem = 0 ∨ bitsToLongs bits ≤ off + k + 1 then 0#32 else masked bits (off + k + 1) (m (src + (off + k + 1)))
  let lower := masked bits (off + k) (m (src + (off + k)))
  masked bits k (upper <<< (32 - rem) ||| lower >>> rem)

def shiftRight (dst src shift bits : Nat) (m : Memory) : Memory :=
  let off := shift / 32
  let lim := bitsToLongs bits
  let m := (range (lim - off)).foldl (fun m k => update m (dst + k) (rightWord src shift bits k m)) m
  if off ≠ 0 then memset m (dst + (lim - off)) off else m

def leftWord (src shift bits k : Nat) (m : Memory) : BitVec 32 :=
  let off := shift / 32
  let rem := shift % 32
  let lower := if rem ≠ 0 ∧ 0 < k then m (src + (k - 1)) else 0#32
  let upper := masked bits k (m (src + k))
  masked bits (k + off) (lower >>> (32 - rem) ||| upper <<< rem)

def shiftLeft (dst src shift bits : Nat) (m : Memory) : Memory :=
  let off := shift / 32
  let m := (range (bitsToLongs bits - off)).reverse.foldl
    (fun m k => update m (dst + (k + off)) (leftWord src shift bits k m)) m
  if off ≠ 0 then memset m dst off else m

variable {m dst src shift bits i k b}

-- No round of the loop reads what an earlier one has written.
theorem foldStores {place : Nat → Nat} {value : Nat → Memory → BitVec 32} {l : List Nat}
    (apart : l.Pairwise fun k j => place k ≠ place j ∧ ∀ m w, value j (update m (place k) w) = value j m) :
    (∀ k ∈ l, l.foldl (fun m k => update m (place k) (value k m)) m (place k) = value k m) ∧
    ∀ x, (∀ k ∈ l, x ≠ place k) → l.foldl (fun m k => update m (place k) (value k m)) m x = m x := by
  induction l generalizing m with
  | nil => simp
  | cons j l ih =>
    obtain ⟨first,rest⟩ := pairwise_cons.mp apart
    obtain ⟨stored,kept⟩ := ih rest
    refine ⟨forall_mem_cons.mpr ⟨?_,fun k mem => ?_⟩,fun x other => ?_⟩
    · rw [foldl_cons,kept _ fun k mem => (first k mem).1,update_self]
    · rw [foldl_cons,stored k mem,(first k mem).2]
    · obtain ⟨here,others⟩ := forall_mem_cons.mp other
      rw [foldl_cons,kept x others,update_of_ne here]

theorem cleared (m : Memory) (p n x : Nat) : (if n ≠ 0 then memset m p n else m) x = if p ≤ x ∧ x < p + n then 0 else m x := by
  split
  · rfl
  · rw [if_neg (by omega)]

theorem lowOnes : ∀ n < 32, ∀ b < 32, (1#32 <<< n - 1).getLsbD b = decide (b < n) := by decide +kernel

theorem maskedBit (w : BitVec 32) (small : b < 32) (inside : k < bitsToLongs bits) :
    (masked bits k w).getLsbD b = (decide (32 * k + b < bits) && w.getLsbD b) := by
  unfold masked bitsToLongs at *
  split
  · rw [getLsbD_and,lowOnes _ (mod_lt _ (by decide)) b small,Bool.and_comm]
    congr 2
    exact propext (by omega)
  · rw [decide_eq_true (by omega),Bool.true_and]

theorem wordBit (m : Memory) (p : Nat) (small : b < 32) : (m (p + k)).getLsbD b = bit m p (32 * k + b) := by
  rw [bit,show (32 * k + b) / 32 = k by omega,show (32 * k + b) % 32 = b by omega]

theorem rightWordBit (small : b < 32) (inside : shift / 32 + k < bitsToLongs bits) (low : 32 * k + b < bits) :
    (rightWord src shift bits k m).getLsbD b =
      (decide (32 * k + b + shift < bits) && bit m src (32 * k + b + shift)) := by
  have own : k < bitsToLongs bits := by omega
  simp only [rightWord]
  rw [maskedBit _ small own,decide_eq_true low,Bool.true_and,getLsbD_or,getLsbD_shiftLeft,getLsbD_ushiftRight]
  by_cases carry : shift % 32 + b < 32
  · rw [maskedBit _ carry inside,wordBit _ _ carry,decide_eq_true (show b < 32 - shift % 32 by omega)]
    simp only [Bool.not_true,Bool.and_false,Bool.false_and,Bool.false_or]
    rw [show 32 * (shift / 32 + k) + (shift % 32 + b) = 32 * k + b + shift by omega]
  · rw [getLsbD_of_ge _ (shift % 32 + b) (by omega),Bool.or_false,decide_eq_true small,
      decide_eq_false (by omega),Bool.not_false,Bool.true_and,Bool.true_and]
    split
    · rename_i none
      unfold bitsToLongs at none
      rw [getLsbD_zero,decide_eq_false (by omega),Bool.false_and]
    · rw [maskedBit _ (by omega) (by omega),wordBit _ _ (by omega),
        show 32 * (shift / 32 + k + 1) + (b - (32 - shift % 32)) = 32 * k + b + shift by omega]

theorem leftWordBit (small : b < 32) (inside : k + shift / 32 < bitsToLongs bits) (low : 32 * (k + shift / 32) + b < bits) :
    (leftWord src shift bits k m).getLsbD b =
      (decide (shift ≤ 32 * (k + shift / 32) + b) && bit m src (32 * (k + shift / 32) + b - shift)) := by
  simp only [leftWord]
  rw [maskedBit _ small inside,decide_eq_true low,Bool.true_and,getLsbD_or,getLsbD_shiftLeft,getLsbD_ushiftRight]
  by_cases carry : b < shift % 32
  · rw [decide_eq_true carry]
    simp only [Bool.not_true,Bool.and_false,Bool.false_and,Bool.or_false]
    split
    · rw [wordBit _ _ (by omega),decide_eq_true (by omega),Bool.true_and,
        show 32 * (k - 1) + (32 - shift % 32 + b) = 32 * (k + shift / 32) + b - shift by omega]
    · rw [getLsbD_zero,decide_eq_false (by omega),Bool.false_and]
  · have nothing : ((if shift % 32 ≠ 0 ∧ 0 < k then m (src + (k - 1)) else 0#32).getLsbD (32 - shift % 32 + b)) = false :=
      getLsbD_of_ge _ _ (by omega)
    rw [nothing,Bool.false_or,decide_eq_false carry,decide_eq_true small,maskedBit _ (by omega) (by omega),wordBit _ _ (by omega),
      decide_eq_true (by omega),decide_eq_true (by omega)]
    simp only [Bool.not_false,Bool.true_and]
    rw [show 32 * k + (b - shift % 32) = 32 * (k + shift / 32) + b - shift by omega]

def Separate (dst src bits : Nat) : Prop := dst = src ∨ dst + bitsToLongs bits ≤ src ∨ src + bitsToLongs bits ≤ dst

theorem shiftRightBit (separate : Separate dst src bits) (inside : i < bits) :
    bit (shiftRight dst src shift bits m) dst i = (decide (i + shift < bits) && bit m src (i + shift)) := by
  have apart : (range (bitsToLongs bits - shift / 32)).Pairwise fun k j => dst + k ≠ dst + j ∧
      ∀ m w, rightWord src shift bits j (update m (dst + k) w) = rightWord src shift bits j m := by
    refine pairwise_lt_range.imp_of_mem fun {k j} _ mem less => ⟨by omega,fun m w => ?_⟩
    have last := mem_range.mp mem
    unfold Separate at separate
    simp only [rightWord]
    split
    · rw [update_of_ne (by omega)]
    · rw [update_of_ne (by omega),update_of_ne (by omega)]
  have stored := (foldStores apart (m := m)).1
  simp only [bit,shiftRight,cleared]
  by_cases moved : shift / 32 + i / 32 < bitsToLongs bits
  · rw [if_neg (by omega),stored (i / 32) (mem_range.mpr (by omega)),rightWordBit (mod_lt _ (by decide)) moved (by omega),
      show 32 * (i / 32) + i % 32 + shift = i + shift by omega]
    rfl
  · have last : i / 32 < bitsToLongs bits ∧ ¬ i + shift < bits := by
      unfold bitsToLongs at *
      omega
    rw [if_pos (by omega),decide_eq_false last.2]
    exact getLsbD_zero

theorem shiftLeftBit (separate : Separate dst src bits) (inside : i < bits) :
    bit (shiftLeft dst src shift bits m) dst i = (decide (shift ≤ i) && bit m src (i - shift)) := by
  have apart : (range (bitsToLongs bits - shift / 32)).reverse.Pairwise fun k j => dst + (k + shift / 32) ≠ dst + (j + shift / 32) ∧
      ∀ m w, leftWord src shift bits j (update m (dst + (k + shift / 32)) w) = leftWord src shift bits j m := by
    refine pairwise_reverse.mpr (pairwise_lt_range.imp_of_mem fun {j k} _ mem less => ⟨by omega,fun m w => ?_⟩)
    have last := mem_range.mp mem
    unfold Separate at separate
    simp only [leftWord]
    split
    · rw [update_of_ne (by omega),update_of_ne (by omega)]
    · rw [update_of_ne (by omega)]
  have stored := (foldStores apart (m := m)).1
  simp only [bit,shiftLeft,cleared]
  have last : i / 32 < bitsToLongs bits := by
    unfold bitsToLongs
    omega
  by_cases moved : shift / 32 ≤ i / 32
  · obtain ⟨k,own⟩ := Nat.exists_eq_add_of_le' moved
    rw [if_neg (by omega),own,stored k (mem_reverse.mpr (mem_range.mpr (by omega))),
      leftWordBit (mod_lt _ (by decide)) (by omega) (by omega),show 32 * (k + shift / 32) + i % 32 = i by omega]
    rfl
  · rw [if_pos (by omega),decide_eq_false (by omega)]
    exact getLsbD_zero

theorem bitmapShifts (dst src shift bits : Nat) (m : Memory) (separate : Separate dst src bits) (within : shift ≤ bits) :
    (∀ i < bits, bit (shiftRight dst src shift bits m) dst i = (decide (i + shift < bits) && bit m src (i + shift))) ∧
    (∀ i < bits, bit (shiftLeft dst src shift bits m) dst i = (decide (shift ≤ i) && bit m src (i - shift))) ∧
    ∀ i < bits, bit (shiftRight dst dst shift bits (shiftLeft dst src shift bits m)) dst i =
      (decide (i < bits - shift) && bit m src i) := by
  refine ⟨fun i inside => shiftRightBit separate inside,fun i inside => shiftLeftBit separate inside,fun i inside => ?_⟩
  rw [shiftRightBit (.inl rfl) inside]
  by_cases kept : i + shift < bits
  · rw [shiftLeftBit separate kept,decide_eq_true (Nat.le_add_left ..),Nat.add_sub_cancel,decide_eq_true kept,
      decide_eq_true (by omega),Bool.true_and]
  · rw [decide_eq_false kept,decide_eq_false (by omega),Bool.false_and,Bool.false_and]

theorem nibblesShifted : bit (shiftRight 0 0 4 40 fun _ => 0xFF0#32) 0 4 = true :=
  (bitmapShifts 0 0 4 40 (fun _ => 0xFF0#32) (.inl rfl) (by decide)).1 4 (by decide)

end EclairKernel.Bitmap
