import Mathlib.Data.List.Basic
import EclairKernel.BitCount

/-! fs/yaffs2/yaffs_ecc.c. `wrongOrder` is CONFIG_YAFFS_ECC_WRONG_ORDER. -/
namespace EclairKernel.YaffsEcc
open BitVec (ofNat)
def columnParityTable : List (BitVec 8) :=
  [ 0x00,0x55,0x59,0x0c,0x65,0x30,0x3c,0x69,0x69,0x3c,0x30,0x65,0x0c,0x59,0x55,0x00,
    0x95,0xc0,0xcc,0x99,0xf0,0xa5,0xa9,0xfc,0xfc,0xa9,0xa5,0xf0,0x99,0xcc,0xc0,0x95,
    0x99,0xcc,0xc0,0x95,0xfc,0xa9,0xa5,0xf0,0xf0,0xa5,0xa9,0xfc,0x95,0xc0,0xcc,0x99,
    0x0c,0x59,0x55,0x00,0x69,0x3c,0x30,0x65,0x65,0x30,0x3c,0x69,0x00,0x55,0x59,0x0c,
    0xa5,0xf0,0xfc,0xa9,0xc0,0x95,0x99,0xcc,0xcc,0x99,0x95,0xc0,0xa9,0xfc,0xf0,0xa5,
    0x30,0x65,0x69,0x3c,0x55,0x00,0x0c,0x59,0x59,0x0c,0x00,0x55,0x3c,0x69,0x65,0x30,
    0x3c,0x69,0x65,0x30,0x59,0x0c,0x00,0x55,0x55,0x00,0x0c,0x59,0x30,0x65,0x69,0x3c,
    0xa9,0xfc,0xf0,0xa5,0xcc,0x99,0x95,0xc0,0xc0,0x95,0x99,0xcc,0xa5,0xf0,0xfc,0xa9,
    0xa9,0xfc,0xf0,0xa5,0xcc,0x99,0x95,0xc0,0xc0,0x95,0x99,0xcc,0xa5,0xf0,0xfc,0xa9,
    0x3c,0x69,0x65,0x30,0x59,0x0c,0x00,0x55,0x55,0x00,0x0c,0x59,0x30,0x65,0x69,0x3c,
    0x30,0x65,0x69,0x3c,0x55,0x00,0x0c,0x59,0x59,0x0c,0x00,0x55,0x3c,0x69,0x65,0x30,
    0xa5,0xf0,0xfc,0xa9,0xc0,0x95,0x99,0xcc,0xcc,0x99,0x95,0xc0,0xa9,0xfc,0xf0,0xa5,
    0x0c,0x59,0x55,0x00,0x69,0x3c,0x30,0x65,0x65,0x30,0x3c,0x69,0x00,0x55,0x59,0x0c,
    0x99,0xcc,0xc0,0x95,0xfc,0xa9,0xa5,0xf0,0xf0,0xa5,0xa9,0xfc,0x95,0xc0,0xcc,0x99,
    0x95,0xc0,0xcc,0x99,0xf0,0xa5,0xa9,0xfc,0xfc,0xa9,0xa5,0xf0,0x99,0xcc,0xc0,0x95,
    0x00,0x55,0x59,0x0c,0x65,0x30,0x3c,0x69,0x69,0x3c,0x30,0x65,0x0c,0x59,0x55,0x00]

def columnParity (byte : BitVec 8) : BitVec 8 := columnParityTable.getD byte.toNat 0

-- while (x) { if (x & 1) r++; x >>= 1; }, with a round for each bit of x
def countLoop {w : Nat} : Nat → BitVec w → Nat
  | 0, _ => 0
  | n+1, x => if x = 0 then 0 else (if x &&& 1 ≠ 0 then 1 else 0) + countLoop n (x >>> 1)

def yaffsCountBits (x : BitVec 8) : Nat := countLoop 8 x
def yaffsCountBits32 (x : BitVec 32) : Nat := countLoop 32 x

structure Parity (w : Nat) where
  col : BitVec 8
  line : BitVec w
  prime : BitVec w
  deriving DecidableEq, Repr

-- The loop both calculations share, from index i on; they differ in the type of the line parities.
def parityLoop {w : Nat} : List (BitVec 8) → Nat → Parity w → Parity w
  | [], _, p => p
  | byte::data, i, p =>
    let b := columnParity byte
    let p := { p with col := p.col ^^^ b }
    if b &&& 0x01 ≠ 0 then
      parityLoop data (i + 1) { p with line := p.line ^^^ ofNat w i, prime := p.prime ^^^ ~~~ofNat w i }
    else parityLoop data (i + 1) p

structure Ecc where
  ecc0 : BitVec 8
  ecc1 : BitVec 8
  ecc2 : BitVec 8
  deriving DecidableEq, Repr

def mark {w : Nat} (c mask : BitVec 8) (t bit : BitVec w) : BitVec w := if c &&& mask ≠ 0 then t ||| bit else t

def packLine (line prime m3 m2 m1 m0 : BitVec 8) : BitVec 8 :=
  let t := mark line m3 0 0x80
  let t := mark prime m3 t 0x40
  let t := mark line m2 t 0x20
  let t := mark prime m2 t 0x10
  let t := mark line m1 t 0x08
  let t := mark prime m1 t 0x04
  let t := mark line m0 t 0x02
  mark prime m0 t 0x01

def swapBytes (wrongOrder : Bool) (ecc : Ecc) : Ecc := if wrongOrder then ⟨ecc.ecc1,ecc.ecc0,ecc.ecc2⟩ else ecc

def yaffsECCCalculate (wrongOrder : Bool) (data : List (BitVec 8)) : Ecc :=
  let p : Parity 8 := parityLoop (data.take 256) 0 ⟨0,0,0⟩
  swapBytes wrongOrder
    ⟨~~~packLine p.line p.prime 0x08 0x04 0x02 0x01,~~~packLine p.line p.prime 0x80 0x40 0x20 0x10,~~~p.col ||| 0x03⟩

def byteOf (d0 d1 : BitVec 8) : BitVec 32 :=
  let byte := mark d1 0x80 0 0x80
  let byte := mark d1 0x20 byte 0x40
  let byte := mark d1 0x08 byte 0x20
  let byte := mark d1 0x02 byte 0x10
  let byte := mark d0 0x80 byte 0x08
  let byte := mark d0 0x20 byte 0x04
  let byte := mark d0 0x08 byte 0x02
  mark d0 0x02 byte 0x01

def bitOf (d2 : BitVec 8) : BitVec 32 :=
  let bit := mark d2 0x80 0 0x04
  let bit := mark d2 0x20 bit 0x02
  mark d2 0x08 bit 0x01

def flipBit (data : List (BitVec 8)) (byte bit : Nat) : List (BitVec 8) := data.modify byte (· ^^^ 1#8 <<< bit)

-- The return value, with the data and the ECC that was read as they are left.
def yaffsECCCorrect (wrongOrder : Bool) (data : List (BitVec 8)) (readEcc testEcc : Ecc) : Int × List (BitVec 8) × Ecc :=
  let d0 := readEcc.ecc0 ^^^ testEcc.ecc0
  let d1 := readEcc.ecc1 ^^^ testEcc.ecc1
  let d2 := readEcc.ecc2 ^^^ testEcc.ecc2
  if d0 ||| d1 ||| d2 = 0 then (0,data,readEcc)
  else if (d0 ^^^ d0 >>> 1) &&& 0x55 = 0x55 ∧ (d1 ^^^ d1 >>> 1) &&& 0x55 = 0x55 ∧ (d2 ^^^ d2 >>> 1) &&& 0x54 = 0x54 then
    let d := swapBytes wrongOrder ⟨d0,d1,d2⟩
    (1,flipBit data (byteOf d.ecc0 d.ecc1).toNat (bitOf d.ecc2).toNat,readEcc)
  else if yaffsCountBits d0 + yaffsCountBits d1 + yaffsCountBits d2 = 1 then (1,data,testEcc)
  else (-1,data,readEcc)

structure EccOther where
  colParity : BitVec 8
  lineParity : BitVec 32
  lineParityPrime : BitVec 32
  deriving DecidableEq, Repr

def yaffsECCCalculateOther (data : List (BitVec 8)) (nBytes : Nat) : EccOther :=
  let p : Parity 32 := parityLoop (data.take nBytes) 0 ⟨0,0,0⟩
  ⟨(p.col >>> 2) &&& 0x3f,p.line,p.prime⟩

def bitOfOther (cDelta : BitVec 8) : BitVec 32 :=
  let bit := mark cDelta 0x20 0 0x04
  let bit := mark cDelta 0x08 bit 0x02
  mark cDelta 0x02 bit 0x01

def yaffsECCCorrectOther (data : List (BitVec 8)) (nBytes : Nat) (readEcc testEcc : EccOther) :
    Int × List (BitVec 8) × EccOther :=
  let cDelta := readEcc.colParity ^^^ testEcc.colParity
  let lDelta := readEcc.lineParity ^^^ testEcc.lineParity
  let lDeltaPrime := readEcc.lineParityPrime ^^^ testEcc.lineParityPrime
  if cDelta.setWidth 32 ||| lDelta ||| lDeltaPrime = 0 then (0,data,readEcc)
  else if lDelta = ~~~lDeltaPrime ∧ (cDelta ^^^ cDelta >>> 1) &&& 0x15 = 0x15 then
    if nBytes ≤ lDelta.toNat then (-1,data,readEcc)
    else (1,flipBit data lDelta.toNat (bitOfOther cDelta).toNat,readEcc)
  else if yaffsCountBits32 lDelta + yaffsCountBits32 lDeltaPrime + yaffsCountBits cDelta = 1 then (1,data,testEcc)
  else (-1,data,readEcc)

/-! Both codes are linear over exclusive or: what a flipped bit adds to the ECC, its
syndrome, does not depend on the data. -/

open List BitVec
open BitCount (ones)

theorem lowBit {w} (x : BitVec w) : x &&& 1 ≠ 0 ↔ x.getLsbD 0 = true := by
  have bit : x &&& 1 = (ofBool (x.getLsbD 0)).setWidth w := and_one_eq_setWidth_ofBool_getLsbD
  rw [bit]
  cases low : x.getLsbD 0 with
  | false => simp
  | true =>
    have inside := lt_of_getLsbD low
    have one : ((ofBool true).setWidth w).getLsbD 0 = true := by simp [inside]
    refine iff_of_true (fun zero => ?_) rfl
    rw [zero] at one
    simp at one

theorem countLoopOnes {w} (n : Nat) (x : BitVec w) : countLoop n x = (List.range n).countP x.getLsbD := by
  induction n generalizing x with
  | zero => rfl
  | succ n ih =>
    rw [countLoop,range_succ_eq_map,countP_cons,countP_map]
    have shifted : (range n).countP (x.getLsbD ∘ Nat.succ) = countLoop n (x >>> 1) := by
      rw [ih]
      refine countP_congr fun i _ => ?_
      simp [Nat.add_comm]
    split
    · rename_i zero
      have none : countLoop n (x >>> 1) = 0 := by
        rw [ih,zero]
        simp
      rw [shifted,none,zero]
      simp
    · rw [shifted,Nat.add_comm]
      simp only [lowBit]

theorem countBitsOnes (x : BitVec 8) : yaffsCountBits x = ones x := countLoopOnes 8 x
theorem countBits32Ones (x : BitVec 32) : yaffsCountBits32 x = ones x := countLoopOnes 32 x

def bitSum (f : Nat → Bool) (entries : List (Nat × BitVec 8)) : BitVec 8 :=
  entries.foldr (fun entry sum => (if f entry.1 then entry.2 else 0) ^^^ sum) 0

theorem bitSumXor (f g : Nat → Bool) (entries : List (Nat × BitVec 8)) :
    bitSum (fun i => f i ^^ g i) entries = bitSum f entries ^^^ bitSum g entries := by
  induction entries with
  | nil => simp [bitSum]
  | cons entry entries ih =>
    have both : (if f entry.1 ^^ g entry.1 then entry.2 else 0) =
        (if f entry.1 then entry.2 else 0) ^^^ (if g entry.1 then entry.2 else 0) := by
      cases f entry.1 <;> cases g entry.1 <;> simp
    simp only [bitSum,foldr_cons] at ih ⊢
    rw [both,ih]
    ac_rfl

def singles : List (Nat × BitVec 8) := [(0,0x55),(1,0x59),(2,0x65),(3,0x69),(4,0x95),(5,0x99),(6,0xa5),(7,0xa9)]

theorem tableSums : columnParityTable = (List.range 256).map fun n => bitSum (ofNat 8 n).getLsbD singles := by
  decide +kernel

theorem columnTable (x : BitVec 8) : columnParity x = bitSum x.getLsbD singles := by
  have inside := x.isLt
  rw [columnParity,tableSums,getD_eq_getElem?_getD,getElem?_map,getElem?_range inside]
  simp

theorem columnXor (x y : BitVec 8) : columnParity (x ^^^ y) = columnParity x ^^^ columnParity y := by
  rw [columnTable,columnTable x,columnTable y,← bitSumXor]
  congr
  exact funext fun i => getLsbD_xor

theorem columnOdd : ∀ k : Fin 8, (columnParity (1#8 <<< k.val)).getLsbD 0 = true := by decide +kernel

section
variable {w}

def Parity.add (p q : Parity w) : Parity w := ⟨p.col ^^^ q.col,p.line ^^^ q.line,p.prime ^^^ q.prime⟩

theorem Parity.addComm (p q r : Parity w) : (p.add q).add r = (p.add r).add q := by
  simp only [Parity.add,Parity.mk.injEq]
  refine ⟨?_,?_,?_⟩ <;> ac_rfl

def byteParity (w : Nat) (byte : BitVec 8) (i : Nat) : Parity w :=
  if columnParity byte &&& 0x01 ≠ 0 then ⟨columnParity byte,ofNat w i,~~~ofNat w i⟩
  else ⟨columnParity byte,0,0⟩

theorem parityLoopCons (byte : BitVec 8) (data : List (BitVec 8)) (i : Nat) (p : Parity w) :
    parityLoop (byte::data) i p = parityLoop data (i + 1) (p.add (byteParity w byte i)) := by
  simp only [parityLoop,byteParity]
  split <;> simp [Parity.add]

theorem parityLoopAdd (data : List (BitVec 8)) (i : Nat) (p q : Parity w) :
    parityLoop data i (p.add q) = (parityLoop data i p).add q := by
  induction data generalizing i p with
  | nil => rfl
  | cons byte data ih => rw [parityLoopCons,parityLoopCons,Parity.addComm,ih]

def flipParity (w i : Nat) (k : Fin 8) : Parity w :=
  ⟨columnParity (1#8 <<< k.val),ofNat w i,~~~ofNat w i⟩

theorem byteParityFlip (byte : BitVec 8) (i : Nat) (k : Fin 8) :
    byteParity w (byte ^^^ 1#8 <<< k.val) i = (byteParity w byte i).add (flipParity w i k) := by
  simp only [byteParity,columnXor,lowBit,getLsbD_xor,columnOdd k]
  cases (columnParity byte).getLsbD 0 <;> simp [Parity.add,flipParity]

theorem parityLoopFlip {data j} (inside : j < data.length) (k : Fin 8) (i : Nat) (p : Parity w) :
    parityLoop (flipBit data j k) i p = (parityLoop data i p).add (flipParity w (i + j) k) := by
  induction data generalizing i j p with
  | nil => exact absurd inside (Nat.not_lt_zero j)
  | cons byte data ih =>
    cases j with
    | zero =>
      have whole : p.add ((byteParity w byte i).add (flipParity w i k)) = (p.add (byteParity w byte i)).add (flipParity w i k) := by
        simp only [Parity.add,xor_assoc]
      rw [flipBit,modify_zero_cons,parityLoopCons,parityLoopCons,byteParityFlip,whole,parityLoopAdd]
      rfl
    | succ j =>
      rw [flipBit,modify_succ_cons,parityLoopCons,parityLoopCons]
      have later := ih (Nat.lt_of_succ_lt_succ inside) (i + 1) (p.add (byteParity w byte i))
      rw [flipBit] at later
      rw [later,Nat.add_right_comm i 1 j]
      rfl

end

theorem maskBit (c : BitVec 8) (j : Fin 8) : c &&& 1#8 <<< j.val ≠ 0 ↔ c.getLsbD j = true := by
  rw [← twoPow_eq,and_twoPow]
  cases c.getLsbD j with
  | false => simp
  | true =>
    refine iff_of_true (fun zero => ?_) rfl
    have bit := congrArg (fun x : BitVec 8 => x.getLsbD j) zero
    simp at bit

def lineBits (line prime : BitVec 8) (i : Nat) : Bool := if i < 8 then prime.getLsbD i else line.getLsbD (i - 8)

def packEntries (a3 a2 a1 a0 : Nat) : List (Nat × BitVec 8) :=
  [(a3 + 8,0x80),(a3,0x40),(a2 + 8,0x20),(a2,0x10),(a1 + 8,0x08),(a1,0x04),(a0 + 8,0x02),(a0,0x01)]

theorem packBits (line prime : BitVec 8) (a3 a2 a1 a0 : Fin 8) :
    packLine line prime (1#8 <<< a3.val) (1#8 <<< a2.val) (1#8 <<< a1.val) (1#8 <<< a0.val) =
      bitSum (lineBits line prime) (packEntries a3 a2 a1 a0) := by
  have onLine (a : Fin 8) : lineBits line prime (a + 8) = line.getLsbD a := by
    rw [lineBits,if_neg (by omega),Nat.add_sub_cancel]
  have onPrime (a : Fin 8) : lineBits line prime a = prime.getLsbD a := if_pos a.isLt
  simp only [packLine,mark,maskBit,packEntries,bitSum,foldr_cons,foldr_nil,onLine,onPrime]
  generalize line.getLsbD a3 = l3, line.getLsbD a2 = l2, line.getLsbD a1 = l1, line.getLsbD a0 = l0,
    prime.getLsbD a3 = p3, prime.getLsbD a2 = p2, prime.getLsbD a1 = p1, prime.getLsbD a0 = p0
  revert l3 l2 l1 l0 p3 p2 p1 p0
  decide +kernel

theorem packXor (l p l' p' : BitVec 8) (a3 a2 a1 a0 : Fin 8) :
    packLine (l ^^^ l') (p ^^^ p') (1#8 <<< a3.val) (1#8 <<< a2.val) (1#8 <<< a1.val) (1#8 <<< a0.val) =
      packLine l p (1#8 <<< a3.val) (1#8 <<< a2.val) (1#8 <<< a1.val) (1#8 <<< a0.val) ^^^
        packLine l' p' (1#8 <<< a3.val) (1#8 <<< a2.val) (1#8 <<< a1.val) (1#8 <<< a0.val) := by
  rw [packBits,packBits,packBits,← bitSumXor]
  congr
  funext i
  simp only [lineBits,getLsbD_xor]
  split <;> rfl

end EclairKernel.YaffsEcc
