import EclairKernel.Idr
import EclairKernel.WordSearch
import Mathlib.Algebra.BigOperators.Group.Finset.Basic
import Mathlib.Data.Fintype.BigOperators
import EclairKernel.Fuel

/-! The arithmetic of ids: digits of five bits, as the code takes them from a word. -/
namespace EclairKernel.Idr
open WordSearch Nat Bool
open BitVec (ofNat toNat_ofNat toNat_xor)

theorem divSucc (k h : Nat) : k / 32^(h + 1) = k / 32^h / 32 := by rw [pow_succ,Nat.div_div_eq_div_mul]

theorem xorDigit (x : Nat) {m} (bound : m < 32) : x ^^^ x % 32 ^^^ m = x / 32 * 32 + m := by
  have low : (x ^^^ x % 2^5 ^^^ m) % 2^5 = m := by
    rw [xor_mod_two_pow,xor_mod_two_pow,mod_mod,Nat.xor_self,Nat.zero_xor]
    exact mod_eq_of_lt bound
  have high : (x ^^^ x % 2^5 ^^^ m) / 2^5 = x / 2^5 := by
    rw [xor_div_two_pow,xor_div_two_pow,div_eq_of_lt bound,div_eq_of_lt (mod_lt x (by decide)),xor_zero,xor_zero]
  change x ^^^ x % 2^5 ^^^ m = x / 2^5 * 2^5 + m
  omega

variable {id id' : BitVec 32} {l m}

theorem powFive (l : Nat) : 2^(IDR_BITS * l) = 32^l := by rw [Nat.pow_mul]; rfl

theorem shiftNat (small : id.toNat < 2^31) (l : Nat) : (id.sshiftRight (IDR_BITS * l)).toNat = id.toNat / 32^l := by
  have positive : id.msb = false := BitVec.msb_eq_false_iff_two_mul_lt.mpr (by omega)
  rw [BitVec.sshiftRight_eq_of_msb_false positive,BitVec.toNat_ushiftRight,shiftRight_eq_div_pow,powFive]

theorem digitNat (small : id.toNat < 2^31) (l : Nat) : (digit id l).val = id.toNat / 32^l % 32 := by
  show (id.sshiftRight (IDR_BITS * l)).toNat % 32 = _
  rw [shiftNat small]

theorem powLow (low : l ≤ 6) : 32^l ≤ 2^30 := by
  calc 32^l ≤ 32^6 := Nat.pow_le_pow_right (by decide) low

theorem oneShift (low : l ≤ 6) : (1#32 <<< (IDR_BITS * l)).toNat = 32^l := by
  have := powLow low
  rw [BitVec.toNat_shiftLeft,shiftLeft_eq,powFive]
  show 1 * 32^l % 2^32 = 32^l
  rw [one_mul]
  exact mod_eq_of_lt (by omega)

theorem sleNat (small : id.toNat < 2^31) (low : l ≤ 6) : (1#32 <<< (l * IDR_BITS)).sle id = true ↔ 32^l ≤ id.toNat := by
  have bound := powLow low
  have one := oneShift low
  rw [mul_comm,BitVec.sle_eq_decide,decide_eq_true_iff,BitVec.toInt_eq_toNat_cond,BitVec.toInt_eq_toNat_cond]
  omega

theorem maskNat : (id &&& MAX_ID_MASK).toNat = id.toNat % 2^31 := by
  exact and_two_pow_sub_one_eq_mod id.toNat 31

theorem upNat (small : id.toNat < 2^30) (low : l ≤ 6) :
    ((id ||| (1#32 <<< (IDR_BITS * l) - 1)) + 1).toNat = (id.toNat / 32^l + 1) * 32^l := by
  have bound := powLow low
  have positive : 0 < 32^l := Nat.pow_pos (by decide)
  have mask : (1#32 <<< (IDR_BITS * l) - 1).toNat = 32^l - 1 := by
    rw [BitVec.toNat_sub,oneShift low]
    show (2^32 - 1 + 32^l) % 2^32 = _
    omega
  have below : id.toNat / 32^l * 32^l ≤ id.toNat := div_mul_le_self ..
  rw [BitVec.toNat_add,BitVec.toNat_or,mask,← powFive,orMask,powFive,add_mul]
  show (_ + (32^l - 1) + 1) % 2^32 = _
  omega

theorem setDigitNat (small : id.toNat < 2^30) (low : l ≤ 5) (bound : m < 32) :
    ((id.sshiftRight (IDR_BITS * l) ^^^ ofNat 32 (digit id l).val ^^^ ofNat 32 m) <<< (IDR_BITS * l)).toNat =
      (id.toNat / 32^(l + 1) * 32 + m) * 32^l := by
  have high := digitNat (show id.toNat < 2^31 by omega) l
  have fits : (id.toNat / 32^(l + 1) * 32 + m) * 32^l < 2^32 := by
    have split : 2^30 = 32^(5 - l) * 32^(l + 1) := by
      rw [← Nat.pow_add,show 5 - l + (l + 1) = 6 by omega]
      rfl
    have top := Nat.div_lt_of_lt_mul (by rw [mul_comm,← split]; exact small)
    calc (id.toNat / 32^(l + 1) * 32 + m) * 32^l < (id.toNat / 32^(l + 1) * 32 + 32) * 32^l :=
          Nat.mul_lt_mul_of_pos_right (by omega) (Nat.pow_pos (by decide))
      _ = (id.toNat / 32^(l + 1) + 1) * 32^(l + 1) := by
          generalize id.toNat / 32^(l + 1) = a
          rw [pow_succ',← mul_assoc,add_mul a 1 32]
      _ ≤ 32^(5 - l) * 32^(l + 1) := Nat.mul_le_mul_right _ top
      _ = 2^30 := split.symm
      _ < 2^32 := by decide
  rw [BitVec.toNat_shiftLeft,toNat_xor,toNat_xor,toNat_ofNat,toNat_ofNat,shiftNat (by omega),high,
    mod_eq_of_lt (show id.toNat / 32^l % 32 < 2^32 by omega),mod_eq_of_lt (show m < 2^32 by omega),xorDigit _ bound,← divSucc,
    shiftLeft_eq,powFive]
  exact mod_eq_of_lt fits

/-! The map from ids to pointers that the layers stand for. A slot of height h and number q
is for the ids k with k / 32^h = q. -/

open Function Finset

def tally (f : Fin 32 → Bool) : Nat := (Finset.univ.filter fun i => f i = true).card

section
variable {f i}

theorem tallyUpdate (f : Fin 32 → Bool) (i : Fin 32) (b : Bool) :
    tally (update f i b) + (if f i then 1 else 0) = tally f + if b then 1 else 0 := by
  have rest (g : Fin 32 → Bool) : tally g = (if g i then 1 else 0) + ∑ j ∈ univ.erase i, if g j then 1 else 0 := by
    rw [tally,card_filter,add_sum_erase _ (fun j => if g j then 1 else 0) (mem_univ i)]
  have others : (∑ j ∈ univ.erase i, if update f i b j then 1 else 0) = ∑ j ∈ univ.erase i, if f j then 1 else 0 :=
    sum_congr rfl fun j mem => by rw [update_of_ne (ne_of_mem_erase mem)]
  rw [rest (update f i b),rest f,update_self]
  omega

theorem tallyZero (empty : tally f = 0) (i : Fin 32) : f i = false := by
  have none := filter_eq_empty_iff.mp (card_eq_zero.mp empty) (mem_univ i)
  exact eq_false_iff.mpr none

theorem tallyOne (one : tally f = 1) (here : f i = true) (j : Fin 32) (other : j ≠ i) : f j = false := by
  have less := tallyUpdate f i false
  rw [one,here] at less
  have empty : tally (update f i false) = 0 := by simpa using less
  have gone := tallyZero empty j
  rwa [update_of_ne other] at gone

end

variable {V : Type}

abbrev Live (V : Type) := Nat → Option (Option V)

def Full (live : Live V) (h q : Nat) : Prop := ∀ k, k / 32^h = q → live k ≠ none
def Vacant (live : Live V) (h q : Nat) : Prop := ∀ k, k / 32^h = q → live k = none

def occupied (live : Live V) (h q : Nat) (ary : Fin 32 → Slot V) (i : Fin 32) : Bool :=
  if h = 0 then (live (32 * q + i)).isSome else !(ary i).isNull

structure NodeBut (live : Live V) (Below : Nat → Slot V → Prop) (h q : Nat) (n : Node V) (d : Option (Fin 32)) : Prop where
  layer : n.layer = h
  count : n.count = tally (occupied live h q n.ary)
  below : ∀ i : Fin 32, Below (32 * q + i) (n.ary i)
  bits : ∀ i : Fin 32, some i ≠ d → (n.bitmap.getLsbD i = true ↔ Full live h (32 * q + i))

abbrev NodeOk (live : Live V) (Below : Nat → Slot V → Prop) (h q : Nat) (n : Node V) : Prop := NodeBut live Below h q n none

def Holds (live : Live V) : Nat → Nat → Slot V → Prop
  | 0,q,s => s = .ofPtr (live q).join
  | h + 1,q,.null => Vacant live (h + 1) q
  | h + 1,q,.sub n => NodeOk live (Holds live h) h q n
  | _ + 1,_,.ptr _ => False

structure Represents (live : Live V) (s : Handle V) : Prop where
  low : s.layers ≤ 6
  empty : s.top = none → s.layers = 0 ∧ ∀ k, live k = none
  filled : ∀ p, s.top = some p → 1 ≤ s.layers ∧ Holds live s.layers 0 (.sub p)
  outside : ∀ k, 32^s.layers ≤ k → live k = none

variable {live live' : Live V} {h q k n} {s : Slot V} {i : Fin 32}

theorem underChild : k / 32^h = 32 * q + i.val ↔ k / 32^(h + 1) = q ∧ k / 32^h % 32 = i.val := by
  rw [divSucc]
  omega

theorem fullZero : Full live 0 q ↔ live q ≠ none := by
  constructor
  · exact fun full => full q (by simp)
  · intro here k eq
    rw [pow_zero,Nat.div_one] at eq
    exact eq ▸ here

theorem fullSucc : Full live (h + 1) q ↔ ∀ i : Fin 32, Full live h (32 * q + i) := by
  constructor
  · exact fun full i k under => full k (underChild.mp under).1
  · intro full k under
    exact full ⟨k / 32^h % 32,mod_lt _ (by decide)⟩ k (underChild.mpr ⟨under,rfl⟩)

theorem vacantSucc : Vacant live (h + 1) q ↔ ∀ i : Fin 32, Vacant live h (32 * q + i) := by
  constructor
  · exact fun vacant i k under => vacant k (underChild.mp under).1
  · intro vacant k under
    exact vacant ⟨k / 32^h % 32,mod_lt _ (by decide)⟩ k (underChild.mpr ⟨under,rfl⟩)

theorem notFull (vacant : Vacant live h q) : ¬Full live h q := by
  intro full
  have under : q * 32^h / 32^h = q := Nat.mul_div_cancel q (Nat.pow_pos (by decide))
  exact full _ under (vacant _ under)

theorem Holds.vacant (holds : Holds live h q .null) (layer : h ≠ 0) : Vacant live h q := by
  cases h with
  | zero => exact absurd rfl layer
  | succ h => exact holds

theorem vacantHolds (vacant : Vacant live h q) : Holds live h q .null := by
  cases h with
  | zero =>
    show _ = Slot.ofPtr (live q).join
    rw [vacant q (by simp)]
    rfl
  | succ h => exact vacant

theorem Holds.congr (same : ∀ k, k / 32^h = q → live' k = live k) (holds : Holds live h q s) : Holds live' h q s := by
  induction h generalizing q s with
  | zero =>
    show s = Slot.ofPtr (live' q).join
    rw [same q (by simp)]
    exact holds
  | succ h ih =>
    have inside (i : Fin 32) (k : Nat) (under : k / 32^h = 32 * q + i) := same k (underChild.mp under).1
    cases s with
    | null => exact fun k under => (same k under).trans (holds k under)
    | ptr v => exact holds
    | sub n =>
      refine ⟨holds.layer,?_,fun i => ih (inside i) (holds.below i),fun i any => ?_⟩
      · rw [holds.count]
        congr 2
        funext i
        unfold occupied
        split
        · rename_i zero
          subst zero
          rw [inside i _ (by simp)]
        · rfl
      · rw [holds.bits i any]
        exact forall_congr' fun k => forall_congr' fun under => by rw [inside i k under]

theorem nullOf (null : s.isNull = true) : s = .null := by
  cases s with
  | null => rfl
  | ptr | sub => cases null

theorem unoccupied {ary} (layer : h ≠ 0) (unused : occupied live h q ary i = false) : ary i = .null := by
  simp only [occupied,layer,if_false,not_eq_false'] at unused
  exact nullOf unused

theorem occupiedSet (layer : h ≠ 0) (n : Node V) (i : Fin 32) (s : Slot V) :
    occupied live h q (n.setSlot i s).ary = update (occupied live h q n.ary) i (!s.isNull) := by
  funext j
  by_cases own : j = i
  · subst own
    simp [occupied,layer,Layer.setSlot]
  · simp [occupied,Layer.setSlot,own]

theorem findPtr (ptr : Option V) (id : BitVec 32) : findLoop id 0 (.ofPtr ptr) = some ptr := by cases ptr <;> rfl

theorem digitUnder (small : id.toNat < 2^31) (under : id.toNat / 32^(h + 1) = q) :
    id.toNat / 32^h = 32 * q + (digit id h).val := by
  rw [digitNat small,← under,divSucc]
  omega

theorem findLoopHolds (small : id.toNat < 2^31) (holds : Holds live h q s) (under : id.toNat / 32^h = q) :
    findLoop id h s = some (live id.toNat).join := by
  induction h generalizing q s with
  | zero =>
    rw [pow_zero,Nat.div_one] at under
    cases holds
    rw [under]
    exact findPtr ..
  | succ h ih =>
    cases s with
    | null =>
      rw [holds _ under]
      rfl
    | ptr v => cases holds
    | sub n =>
      rw [findLoop,if_pos holds.layer]
      exact ih (holds.below (digit id h)) (digitUnder small under)

theorem maskSame (small : id.toNat < 2^31) : id &&& MAX_ID_MASK = id := BitVec.eq_of_toNat_eq (maskNat.trans (mod_eq_of_lt small))

theorem Represents.find {s} (rep : Represents live s) (small : id.toNat < 2^31) :
    idrFind id s = some (live id.toNat).join := by
  have masked := maskSame small
  cases top : s.top with
  | none =>
    rw [idrFind,top,(rep.empty top).2]
    rfl
  | some p =>
    obtain ⟨positive,holds⟩ := rep.filled p top
    obtain ⟨h,height⟩ := exists_eq_succ_of_ne_zero (ne_of_gt positive)
    rw [height] at holds
    have layer := holds.layer
    have low := rep.low
    simp only [idrFind,top,masked,layer]
    split
    · rename_i beyond
      have out := (sleNat small (by omega)).mp beyond
      rw [rep.outside id.toNat (height ▸ out)]
      rfl
    · rename_i inside
      have less := not_le.mp fun out => inside ((sleNat small (by omega)).mpr out)
      exact findLoopHolds small holds (div_eq_of_lt less)

/-! sub_alloc. What the search has passed is allocated. It may leave the tree to the right
below its top layer only from within the last part of it; unless that happens, it finds the
least free id, or that all are allocated. -/

open Fuel List

section
variable {p} {f : Frame V} {pa}

theorem findNextBitSpec (w : BitVec 32) (n : Nat) :
    (findNextBit w 32 n < 32 → n ≤ findNextBit w 32 n ∧ w.getLsbD (findNextBit w 32 n) = true) ∧
    ∀ j, n ≤ j → j < findNextBit w 32 n → j < 32 → w.getLsbD j = false := by
  exact ⟨firstFromFound _ 32 n,firstFromBefore _ 32 n⟩

/-- The layers above a layer of height h and number q. Each is in order but for the slot taken, whose part is not full. -/
def Above (live : Live V) : List (Frame V) → Nat → Nat → Prop
  | [],_,q => q = 0
  | f::pa,h,q => NodeOk live (fun r s => r ≠ q → Holds live h r s) h (q / 32) f.parent ∧ f.slot.val = q % 32 ∧
      (f.parent.ary f.slot).isNull = false ∧ ¬Full live h q ∧ Above live pa (h + 1) (q / 32)

theorem ownSlot (slot : f.slot.val = q % 32) : 32 * (q / 32) + f.slot.val = q := by omega

theorem closeBut {d} (ok : NodeBut live (fun r s => r ≠ q → Holds live h r s) h (q / 32) f.parent d)
    (slot : f.slot.val = q % 32) (there : (f.parent.ary f.slot).isNull = false) (holds : Holds live h q (.sub p)) (layer : h ≠ 0) :
    NodeBut live (Holds live h) h (q / 32) (close p f) d := by
  refine ⟨ok.layer,?_,fun i => ?_,ok.bits⟩
  · have same : occupied live h (q / 32) (close p f).ary = occupied live h (q / 32) f.parent.ary := by
      refine (occupiedSet layer ..).trans (update_eq_self_iff.mpr ?_)
      simp only [occupied,layer,there]
      rfl
    rw [same]
    exact ok.count
  · by_cases own : i = f.slot
    · subst own
      rw [ownSlot slot]
      simpa [close,Layer.setSlot] using holds
    · have other : 32 * (q / 32) + i.val ≠ q := fun eq => own (Fin.ext (by omega))
      simpa [close,Layer.setSlot,own] using ok.below i other

theorem closeHolds (above : Above live (f::pa) h q) (holds : Holds live h q (.sub p)) (layer : h ≠ 0) :
    Holds live (h + 1) (q / 32) (.sub (close p f)) :=
  closeBut above.1 above.2.1 above.2.2.1 holds layer

theorem plugHolds (above : Above live pa h q) (holds : Holds live h q (.sub p)) (layer : h ≠ 0) :
    Holds live (h + pa.length) 0 (.sub (plug p pa)) := by
  induction pa generalizing h q p with
  | nil =>
    cases above
    exact holds
  | cons f pa ih =>
    have rest := ih above.2.2.2.2 (closeHolds above holds layer) (succ_ne_zero h)
    rwa [add_right_comm] at rest

theorem topNotFull (above : Above live (f::pa) h q) : ¬Full live (h + pa.length) (q / 32^pa.length) := by
  induction pa generalizing f h q with
  | nil => simpa using above.2.2.2.1
  | cons g pa ih =>
    have rest := ih above.2.2.2.2
    rwa [Nat.div_div_eq_div_mul,← pow_succ',add_right_comm] at rest

structure Searching (live : Live V) (L start : Nat) (s : Search V) : Prop where
  height : s.l + 1 + s.pa.length = L
  inside : s.id.toNat < 32^L
  here : Holds live (s.l + 1) (s.id.toNat / 32^(s.l + 1)) (.sub s.p)
  above : Above live s.pa (s.l + 1) (s.id.toNat / 32^(s.l + 1))
  low : start ≤ s.id.toNat
  passed : ∀ k, start ≤ k → k < s.id.toNat → live k ≠ none

structure Placed (live : Live V) (L start : Nat) (id : BitVec 32) (p : Node V) (pa : List (Frame V)) : Prop where
  height : 1 + pa.length = L
  inside : id.toNat < 32^L
  here : Holds live 1 (id.toNat / 32) (.sub p)
  above : Above live pa 1 (id.toNat / 32)
  low : start ≤ id.toNat
  passed : ∀ k, start ≤ k → k < id.toNat → live k ≠ none
  free : live id.toNat = none

def Ended (live : Live V) (L start : Nat) : Alloc V → Prop
  | .slot id p pa => Placed live L start id p pa
  | .needToGrow id top => id.toNat = 32^L ∧ (∀ k, start ≤ k → k < 32^L → live k ≠ none) ∧ Holds live L 0 (.sub top)
  | .noMoreSpace _ => False
  | .noMemory top => Holds live L 0 (.sub top)

def remaining (L : Nat) (s : Search V) : Nat := (32^L - s.id.toNat) * 7 + s.l

def Stepped (live : Live V) (L start : Nat) (s : Search V) : Step V → Prop
  | .again s' => Searching live L start s' ∧ remaining L s' < remaining L s
  | .stop a _ => Ended live L start a

def Within (live : Live V) (L start : Nat) : Prop :=
  (∃ k, start ≤ k ∧ k < 32^L ∧ live k = none) ∨ start < 31 * 32^(L - 1) ∨ Full live (L - 1) 31

theorem insideSame {a b L} (low : h ≤ L) (same : a / 32^h = b / 32^h) (inside : a < 32^L) : b < 32^L := by
  have split : 32^L = 32^(L - h) * 32^h := by rw [← Nat.pow_add,Nat.sub_add_cancel low]
  rw [split] at inside ⊢
  have positive : 0 < 32^h := Nat.pow_pos (by decide)
  rw [← Nat.div_lt_iff_lt_mul positive] at inside ⊢
  exact same ▸ inside

theorem passedFull {start a c} (full : ∀ r, a / 32^h ≤ r → r < c → Full live h r)
    (passed : ∀ k, start ≤ k → k < a → live k ≠ none) (k : Nat) (low : start ≤ k) (high : k < c * 32^h) : live k ≠ none := by
  by_cases before : k < a
  · exact passed k low before
  · have positive : 0 < 32^h := Nat.pow_pos (by decide)
    exact full (k / 32^h) (Nat.div_le_div_right (not_lt.mp before)) ((Nat.div_lt_iff_lt_mul positive).mpr high) k rfl

theorem nextIdNat (small : id.toNat < 2^30) (low : l ≤ 5) (since : (digit id l).val ≤ m) (bound : m < 32) :
    let id' := if m ≠ (digit id l).val then
        (id.sshiftRight (IDR_BITS * l) ^^^ ofNat 32 (digit id l).val ^^^ ofNat 32 m) <<< (IDR_BITS * l) else id
    id'.toNat / 32^l = 32 * (id.toNat / 32^(l + 1)) + m ∧ id.toNat ≤ id'.toNat ∧
      (id' = id ∨ id'.toNat = (32 * (id.toNat / 32^(l + 1)) + m) * 32^l) := by
  have positive : 0 < 32^l := Nat.pow_pos (by decide)
  have own := digitUnder (by omega) (rfl : id.toNat / 32^(l + 1) = _)
  dsimp only
  split
  · rw [setDigitNat small low bound,mul_comm _ 32]
    refine ⟨Nat.mul_div_cancel _ positive,?_,.inr rfl⟩
    have less : id.toNat / 32^l < 32 * (id.toNat / 32^(l + 1)) + m := by omega
    exact le_of_lt ((Nat.div_lt_iff_lt_mul positive).mp less)
  · rename_i same
    rw [Decidable.not_not] at same
    exact ⟨same ▸ own,le_rfl,.inl rfl⟩

end

variable {L start} {s : Search V}

theorem Searching.skipped (at' : Searching live L start s) (small : s.id.toNat < 2^31) {m}
    (next : findNextBit (~~~s.p.bitmap) 32 (digit s.id s.l) = m) (r : Nat) (since : s.id.toNat / 32^s.l ≤ r)
    (less : r < 32 * (s.id.toNat / 32^(s.l + 1)) + m) (under : r < 32 * (s.id.toNat / 32^(s.l + 1)) + 32) : Full live s.l r := by
  have own := digitUnder small (rfl : s.id.toNat / 32^(s.l + 1) = _)
  obtain ⟨i,rfl⟩ := Nat.exists_eq_add_of_le (show 32 * (s.id.toNat / 32^(s.l + 1)) ≤ r by omega)
  have bound : i < 32 := by omega
  have set := (findNextBitSpec (~~~s.p.bitmap) (digit s.id s.l)).2 i (by omega) (by omega) bound
  rw [BitVec.getLsbD_not,decide_eq_true bound,Bool.true_and,Bool.not_eq_false'] at set
  exact (at'.here.bits ⟨i,bound⟩ (Option.some_ne_none _)).mp set

variable {p} {m : Fin 32} {pa}

theorem searchingTop {free} (positive : 1 ≤ L) (holds : Holds live L 0 (.sub p))
    (inside : id.toNat < 32^L) (low : start ≤ id.toNat) (passed : ∀ k, start ≤ k → k < id.toNat → live k ≠ none) :
    Searching live L start ⟨[],p,L - 1,id,free⟩ := by
  have top : L - 1 + 1 = L := by omega
  have zero : id.toNat / 32^(L - 1 + 1) = 0 := by
    rw [top]
    exact div_eq_of_lt inside
  refine ⟨top,inside,?_,zero,low,passed⟩
  rw [zero,top]
  exact holds

theorem Searching.moved (at' : Searching live L start s) (low : L ≤ 6)
    (number : id.toNat / 32^s.l = 32 * (s.id.toNat / 32^(s.l + 1)) + m.val) :
    id.toNat / 32^(s.l + 1) = s.id.toNat / 32^(s.l + 1) ∧ id.toNat < 32^L ∧ id.toNat < 2^30 := by
  have same := (underChild.mp number).1
  have inside := insideSame (by have := at'.height; omega) same.symm at'.inside
  exact ⟨same,inside,lt_of_lt_of_le inside (powLow low)⟩

theorem zeroedHolds (vacant : Vacant live (h + 1) q) : Holds live (h + 1) q (.sub (zeroed h)) := by
  have empty (i : Fin 32) := vacantSucc.mp vacant i
  refine ⟨rfl,?_,fun i => vacantHolds (empty i),fun i _ => ?_⟩
  · have none : occupied live h q (zeroed h).ary = fun _ => false := by
      funext i
      unfold occupied
      split
      · rename_i zero
        subst zero
        rw [empty i _ (by simp)]
        rfl
      · rfl
    rw [none]
    rfl
  · simp [zeroed,notFull (empty i)]

theorem frameAbove
    (ok : NodeOk live (fun r s => r ≠ 32 * q + m → Holds live h r s) h q p) (there : (p.ary m).isNull = false)
    (room : ¬Full live h (32 * q + m)) (above : Above live pa (h + 1) q) : Above live (⟨p,m⟩::pa) h (32 * q + m) := by
  have number : (32 * q + m.val) / 32 = q := by omega
  refine ⟨?_,by show m.val = _; omega,there,room,?_⟩
  · rw [number]
    exact ok
  · rw [number]
    exact above

theorem Searching.down (at' : Searching live L start s) (low : L ≤ 6) (layer : s.l ≠ 0)
    (number : id.toNat / 32^s.l = 32 * (s.id.toNat / 32^(s.l + 1)) + m.val) (later : s.id.toNat ≤ id.toNat)
    (passed : ∀ k, start ≤ k → k < id.toNat → live k ≠ none) (room : ¬Full live s.l (32 * (s.id.toNat / 32^(s.l + 1)) + m)) :
    ∃ step, goDown s m id = some step ∧ Stepped live L start s step := by
  obtain ⟨same,inside,_⟩ := at'.moved low number
  obtain ⟨h,height⟩ := exists_eq_succ_of_ne_zero layer
  have less : remaining L s = (32^L - s.id.toNat) * 7 + h + 1 := by rw [remaining,height]; rfl
  have below := at'.here.below m
  -- The state after the step, for a layer c under a frame with the parent n.
  have next {n c : Node V} {free : Nat} (ok : Above live (⟨n,m⟩::s.pa) s.l (32 * (s.id.toNat / 32^(s.l + 1)) + m))
      (holds : Holds live s.l (32 * (s.id.toNat / 32^(s.l + 1)) + m) (.sub c)) :
      Stepped live L start s (.again ⟨⟨n,m⟩::s.pa,c,s.l - 1,id,free⟩) := by
    have level : s.l - 1 + 1 = s.l := by omega
    refine ⟨⟨?_,inside,?_,?_,le_trans at'.low later,passed⟩,?_⟩
    · have := at'.height
      simp only [length_cons]
      omega
    · rw [level,number]
      exact holds
    · rw [level,number]
      exact ok
    · show (32^L - id.toNat) * 7 + (s.l - 1) < _
      omega
  unfold goDown
  cases slot : s.p.ary m with
  | sub c =>
    rw [slot] at below
    refine ⟨_,rfl,next (frameAbove ?_ (by rw [slot]; rfl) room at'.above) below⟩
    exact ⟨at'.here.layer,at'.here.count,fun i _ => at'.here.below i,at'.here.bits⟩
  | ptr v =>
    rw [slot,height] at below
    cases below
  | null =>
    rw [slot] at below
    have vacant := below.vacant layer
    cases s.free with
    | zero => exact ⟨_,rfl,at'.height ▸ plugHolds at'.above at'.here (succ_ne_zero _)⟩
    | succ free =>
      refine ⟨_,rfl,next (frameAbove ?_ ?_ room at'.above) ?_⟩
      · refine ⟨at'.here.layer,?_,fun i other => ?_,at'.here.bits⟩
        · have was : occupied live s.l (s.id.toNat / 32^(s.l + 1)) s.p.ary m = false := by simp [occupied,layer,slot,Slot.isNull]
          have more := tallyUpdate (occupied live s.l (s.id.toNat / 32^(s.l + 1)) s.p.ary) m true
          rw [was] at more
          rw [at'.here.count,occupiedSet layer]
          exact congrArg Nat.cast more.symm
        · have own : i ≠ m := fun eq => other (eq ▸ rfl)
          have kept := at'.here.below i
          rwa [← update_of_ne own (.sub (zeroed (s.l - 1))) s.p.ary] at kept
      · show (update s.p.ary m _ m).isNull = false
        rw [update_self]
        rfl
      · rw [height] at vacant ⊢
        exact zeroedHolds vacant

theorem Searching.notOut {f} (at' : Searching live L start s) (within : Within live L start)
    (path : s.pa = f::pa) (all : ∀ k, start ≤ k → k < (s.id.toNat / 32^(s.l + 1) + 1) * 32^(s.l + 1) → live k ≠ none) :
    (s.id.toNat / 32^(s.l + 1) + 1) * 32^(s.l + 1) < 32^L := by
  obtain ⟨height,inside,_,above,_,_⟩ := at'
  rw [path] at above height
  rw [length_cons] at height
  have room := topNotFull above
  generalize number : s.id.toNat / 32^(s.l + 1) = q at all room ⊢
  have positive : 0 < 32^(s.l + 1) := Nat.pow_pos (by decide)
  have top : s.l + 1 + pa.length = L - 1 := by omega
  have split : 32^L = 32 * 32^pa.length * 32^(s.l + 1) := by
    rw [← pow_succ',← Nat.pow_add]
    congr 1
    omega
  have last : 32^L = 32 * 32^(L - 1) := by rw [← pow_succ']; congr 1; omega
  have less : q < 32 * 32^pa.length := by
    rw [← number,Nat.div_lt_iff_lt_mul positive,← split]
    exact inside
  rw [top] at room
  by_contra out
  have whole : q + 1 = 32 * 32^pa.length := by
    have most := Nat.le_of_mul_le_mul_right (split ▸ not_lt.mp out) positive
    omega
  have slot : q / 32^pa.length = 31 := by
    have some : 0 < 32^pa.length := Nat.pow_pos (by decide)
    rw [show q = 31 * 32^pa.length + (32^pa.length - 1) by omega,mul_comm,mul_add_div some,div_eq_of_lt (by omega)]
  rw [whole,← split] at all
  rw [slot] at room
  rcases within with ⟨k,low,high,free⟩ | before | full
  · exact all k low high free
  · refine room fun k under => all k ?_ ?_
    · have := div_mul_le_self k (32^(L - 1))
      rw [under] at this
      omega
    · have := lt_mul_div_succ k (show 0 < 32^(L - 1) from Nat.pow_pos (by decide))
      rw [under] at this
      omega
  · exact room full

variable (at' : Searching live L start s) (low : L ≤ 6) (within : Within live L start)
include at' low within

theorem Searching.up (all : ∀ k, start ≤ k → k < (s.id.toNat / 32^(s.l + 1) + 1) * 32^(s.l + 1) → live k ≠ none) :
    Stepped live L start s (backUp L s) := by
  obtain ⟨height,inside,here,above,least,passed⟩ := id at'
  have small := lt_of_lt_of_le inside (powLow low)
  have next := upNat small (show s.l + 1 ≤ 6 by omega)
  have more : s.id.toNat < (s.id.toNat / 32^(s.l + 1) + 1) * 32^(s.l + 1) :=
    Nat.mul_comm .. ▸ lt_mul_div_succ s.id.toNat (Nat.pow_pos (by decide))
  cases path : s.pa with
  | nil =>
    rw [path] at above height
    have top : s.l + 1 = L := height
    simp only [backUp,path]
    have zero := above
    rw [zero,zero_add,one_mul,top] at all
    rw [zero,zero_add,one_mul] at next
    rw [zero,top] at here
    exact ⟨next.trans (congrArg _ top),all,here⟩
  | cons f pa =>
    have less := at'.notOut within path all
    rw [← next] at all more less
    have small' := lt_of_lt_of_le less (powLow low)
    simp only [backUp,path]
    generalize (s.id ||| (1#32 <<< (IDR_BITS * (s.l + 1)) - 1)) + 1 = id at *
    rw [path] at above height
    rw [length_cons] at height
    have later (l : Nat) (high : l < L) : (32^L - id.toNat) * 7 + l < remaining L s := by
      unfold remaining
      omega
    split
    · rename_i same
      have number : s.id.toNat / 32^(s.l + 2) = id.toNat / 32^(s.l + 2) := by
        rw [← shiftNat (by omega),← shiftNat (by omega)]
        exact congrArg BitVec.toNat same
      have half := (divSucc ..).symm.trans number
      refine ⟨⟨by show s.l + 1 + 1 + pa.length = L; omega,less,?_,?_,by show start ≤ id.toNat; omega,all⟩,later (s.l + 1) (by omega)⟩
      · have closed := closeHolds above here (succ_ne_zero _)
        rwa [half] at closed
      · have rest := above.2.2.2.2
        rwa [half] at rest
    · have whole := plugHolds above here (succ_ne_zero _)
      rw [length_cons,height] at whole
      exact ⟨searchingTop (by omega) whole less (by omega) all,later (L - 1) (by omega)⟩

theorem Searching.step : ∃ step, subAllocStep L s = some step ∧ Stepped live L start s step := by
  have small := lt_of_lt_of_le at'.inside (powLow low)
  have height := at'.height
  unfold subAllocStep
  dsimp only
  have skipped := at'.skipped (by omega) rfl
  have spec := findNextBitSpec (~~~s.p.bitmap) (digit s.id s.l)
  generalize findNextBit (~~~s.p.bitmap) 32 (digit s.id s.l) = m at *
  split
  · rename_i bound
    obtain ⟨since,clear⟩ := spec.1 bound
    obtain ⟨number,later,kind⟩ := nextIdNat small (by omega) since bound
    generalize (if m ≠ (digit s.id s.l).val then _ else s.id) = id at *
    obtain ⟨same,inside,small'⟩ := at'.moved (m := ⟨m,bound⟩) low number
    have passed : ∀ k, start ≤ k → k < id.toNat → live k ≠ none := by
      rcases kind with rfl | place
      · exact at'.passed
      · rw [place]
        exact passedFull (fun r since less => skipped r since less (by omega)) at'.passed
    have room : ¬Full live s.l (32 * (s.id.toNat / 32^(s.l + 1)) + m) := by
      rw [← at'.here.bits ⟨m,bound⟩ (Option.some_ne_none _)]
      simpa [bound] using clear
    rw [if_neg (by omega)]
    split
    · rename_i zero
      refine ⟨_,rfl,?_⟩
      obtain ⟨pa,p,l,id0,free⟩ := s
      cases zero
      have own : id.toNat = 32 * (id0.toNat / 32^1) + m := by simpa using number
      have number' := same.symm
      have here := at'.here
      have above := at'.above
      rw [number'] at here above
      refine ⟨by simpa using height,inside,here,above,le_trans at'.low later,passed,?_⟩
      rw [fullZero,Decidable.not_not] at room
      rw [own]
      exact room
    · exact at'.down low ‹_› number later passed room
  · refine ⟨_,rfl,at'.up low within ?_⟩
    rw [show (s.id.toNat / 32^(s.l + 1) + 1) * 32^(s.l + 1) = (32 * (s.id.toNat / 32^(s.l + 1)) + 32) * 32^s.l by
      generalize s.id.toNat / 32^(s.l + 1) = q
      rw [Nat.pow_succ',← Nat.mul_assoc,Nat.mul_comm (q + 1),mul_add]]
    exact passedFull (fun r since less => skipped r since (by omega) less) at'.passed

theorem subAllocEnds : ∃ a free, Ends (subAlloc L · s) (a,free) ∧ Ended live L start a := by
  generalize enough : remaining L s = n
  induction n using Nat.strongRecOn generalizing s with
  | ind n ih =>
    obtain ⟨step,run,stepped⟩ := at'.step low within
    cases step with
    | again s' =>
      obtain ⟨a,free,ends,ended⟩ := ih _ (enough ▸ stepped.2) stepped.1 rfl
      refine ⟨a,free,endsSucc (fun fuel => ?_) ends,ended⟩
      simp [subAlloc,run]
    | stop a free =>
      refine ⟨a,free,endsOnce fun fuel => ?_,stepped⟩
      simp [subAlloc,run]

end EclairKernel.Idr
