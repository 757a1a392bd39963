import EclairKernel.YaffsEcc
import Mathlib.Data.Nat.ModEq

/-! One flipped bit is corrected and two are noticed. The syndrome of a data bit has one
bit of every pair, that of a parity bit is the bit itself, so each has an odd number of
ones and two of them together an even one. -/
namespace EclairKernel.YaffsEcc
open List BitVec BitCount
open BitVec (ofNat toNat)

inductive Spot (n p : Nat) where
  | data (i : Fin n) (k : Fin 8)
  | parity (j : Fin p)
  deriving DecidableEq

theorem xorSame {w : Nat} {x y : BitVec w} : x ^^^ y = x ↔ y = 0 := by
  refine ⟨fun same => ?_,fun zero => by simp [zero]⟩
  have twice : x ^^^ (x ^^^ y) = y := by rw [← BitVec.xor_assoc,BitVec.xor_self,BitVec.zero_xor]
  rw [← twice,same]
  exact BitVec.xor_self

theorem andXor (x y m : BitVec 8) : (x ^^^ y) &&& m = (x &&& m) ^^^ (y &&& m) := by
  refine eq_of_getLsbD_eq fun i _ => ?_
  simp only [getLsbD_and,getLsbD_xor]
  exact Bool.and_xor_distrib_right _ _ _

theorem pairXor (x y m : BitVec 8) :
    (x ^^^ y ^^^ (x ^^^ y) >>> 1) &&& m = (x ^^^ x >>> 1) &&& m ^^^ (y ^^^ y >>> 1) &&& m := by
  rw [← andXor,ushiftRight_xor_distrib]
  ac_rfl

namespace Ecc

def add (a b : Ecc) : Ecc := ⟨a.ecc0 ^^^ b.ecc0,a.ecc1 ^^^ b.ecc1,a.ecc2 ^^^ b.ecc2⟩

def zero : Ecc := ⟨0,0,0⟩

def pairs (d : Ecc) : Ecc :=
  ⟨(d.ecc0 ^^^ d.ecc0 >>> 1) &&& 0x55,(d.ecc1 ^^^ d.ecc1 >>> 1) &&& 0x55,(d.ecc2 ^^^ d.ecc2 >>> 1) &&& 0x54⟩

def full : Ecc := ⟨0x55,0x55,0x54⟩

def weight (d : Ecc) : Nat := ones d.ecc0 + ones d.ecc1 + ones d.ecc2

theorem addEqZero {a b : Ecc} : a.add b = zero ↔ a = b := by
  cases a
  cases b
  simp [add,zero]

theorem addComm (a b : Ecc) : a.add b = b.add a := by simp [add,BitVec.xor_comm]

theorem addFull {a b : Ecc} : a.add b = a ↔ b = zero := by
  cases a
  cases b
  simp only [add,zero,mk.injEq,xorSame]

theorem pairsAdd (a b : Ecc) : (a.add b).pairs = a.pairs.add b.pairs := by simp [pairs,add,pairXor]

theorem weightAdd (a b : Ecc) : (a.add b).weight % 2 = (a.weight + b.weight) % 2 := by
  have each (x y : BitVec 8) : ones (x ^^^ y) % 2 = (ones x + ones y) % 2 := onesXor
  have e0 := each a.ecc0 b.ecc0
  have e1 := each a.ecc1 b.ecc1
  have e2 := each a.ecc2 b.ecc2
  simp only [weight,add]
  omega

end Ecc

def parityBit (j : Fin 22) : Ecc :=
  if j.val < 8 then ⟨1#8 <<< j.val,0,0⟩
  else if j.val < 16 then ⟨0,1#8 <<< (j.val - 8),0⟩
  else ⟨0,0,1#8 <<< (j.val - 14)⟩

def flip (s : Spot 256 22) (block : List (BitVec 8) × Ecc) : List (BitVec 8) × Ecc :=
  match s with
  | .data i k => (flipBit block.1 i k,block.2)
  | .parity j => (block.1,block.2.add (parityBit j))

def lowPack (i : Nat) : BitVec 8 := packLine (ofNat 8 i) (~~~ofNat 8 i) 0x08 0x04 0x02 0x01
def highPack (i : Nat) : BitVec 8 := packLine (ofNat 8 i) (~~~ofNat 8 i) 0x80 0x40 0x20 0x10

def colPack (k : Nat) : BitVec 8 := columnParity (1#8 <<< k) &&& 0xfc

def syndrome (wrongOrder : Bool) : Spot 256 22 → Ecc
  | .data i k => swapBytes wrongOrder ⟨lowPack i,highPack i,colPack k⟩
  | .parity j => parityBit j

theorem swapAdd (wrongOrder : Bool) (a b : Ecc) :
    swapBytes wrongOrder (a.add b) = (swapBytes wrongOrder a).add (swapBytes wrongOrder b) := by
  cases wrongOrder <;> rfl

theorem swapSwap (wrongOrder : Bool) (a : Ecc) : swapBytes wrongOrder (swapBytes wrongOrder a) = a := by
  cases wrongOrder <;> rfl

theorem columnFlip (x y m : BitVec 8) : ~~~(x ^^^ y) ||| m = (~~~x ||| m) ^^^ (y &&& ~~~m) := by
  refine eq_of_getLsbD_eq fun i inside => ?_
  simp only [getLsbD_and,getLsbD_xor,getLsbD_or,getLsbD_not,inside]
  generalize x.getLsbD i = a, y.getLsbD i = b, m.getLsbD i = c
  revert a b c
  decide

theorem calculateFlip (wrongOrder : Bool) {data} (length : data.length = 256) (i : Fin 256) (k : Fin 8) :
    yaffsECCCalculate wrongOrder (flipBit data i k) =
      (yaffsECCCalculate wrongOrder data).add (syndrome wrongOrder (.data i k)) := by
  have whole := take_of_length_le (Nat.le_of_eq length)
  have whole' : (flipBit data i k).take 256 = flipBit data i k := take_of_length_le (by simp [flipBit,length])
  have inside : i.val < data.length := by omega
  have flipped : parityLoop (flipBit data i k) 0 ⟨0,0,0⟩ = (parityLoop data 0 ⟨0,0,0⟩).add (flipParity 8 (0 + i) k) :=
    parityLoopFlip inside k 0 _
  simp only [yaffsECCCalculate,whole,whole',flipped,syndrome,← swapAdd,Nat.zero_add]
  generalize (parityLoop data 0 ⟨0,0,0⟩ : Parity 8) = p
  -- the two complements of the packed bytes cancel out
  have cancel (x y : BitVec 8) : ~~~(x ^^^ y) = ~~~x ^^^ y := not_xor_left
  have low := packXor p.line p.prime (ofNat 8 i) (~~~ofNat 8 i) 3 2 1 0
  have high := packXor p.line p.prime (ofNat 8 i) (~~~ofNat 8 i) 7 6 5 4
  congr 1
  simp only [Ecc.add,Ecc.mk.injEq]
  exact ⟨(congrArg (~~~·) low).trans (cancel _ _),(congrArg (~~~·) high).trans (cancel _ _),columnFlip _ _ 0x03⟩

def delta (wrongOrder : Bool) (block : List (BitVec 8) × Ecc) : Ecc := block.2.add (yaffsECCCalculate wrongOrder block.1)

theorem flipLength (s : Spot 256 22) (block : List (BitVec 8) × Ecc) : (flip s block).1.length = block.1.length := by
  cases s <;> simp [flip,flipBit]

theorem deltaFlip (wrongOrder : Bool) {block} (length : block.1.length = 256) (s : Spot 256 22) :
    delta wrongOrder (flip s block) = (delta wrongOrder block).add (syndrome wrongOrder s) := by
  cases s with
  | data i k =>
    simp only [delta,flip,calculateFlip wrongOrder length]
    simp only [Ecc.add,BitVec.xor_assoc]
  | parity j =>
    simp only [delta,flip,Ecc.add,Ecc.mk.injEq]
    refine ⟨?_,?_,?_⟩ <;> ac_rfl

section
variable {wrongOrder data readEcc testEcc}

theorem orZero (x y z : BitVec 8) : x ||| y ||| z = 0 ↔ Ecc.mk x y z = .zero := by
  rw [Ecc.mk.injEq]
  exact or_eq_zero_iff.trans (and_congr_left' or_eq_zero_iff) |>.trans and_assoc

theorem pairsFull (x y z : BitVec 8) : (x ^^^ x >>> 1) &&& 0x55 = 0x55 ∧ (y ^^^ y >>> 1) &&& 0x55 = 0x55 ∧
    (z ^^^ z >>> 1) &&& 0x54 = 0x54 ↔ (Ecc.mk x y z).pairs = .full := by
  rw [Ecc.pairs,Ecc.full,Ecc.mk.injEq]

theorem correctDelta : yaffsECCCorrect wrongOrder data readEcc testEcc = let d := readEcc.add testEcc
    let e := swapBytes wrongOrder d
    if d = .zero then (0,data,readEcc)
    else if d.pairs = .full then (1,flipBit data (byteOf e.ecc0 e.ecc1).toNat (bitOf e.ecc2).toNat,readEcc)
    else if d.weight = 1 then (1,data,testEcc)
    else (-1,data,readEcc) := by
  simp only [yaffsECCCorrect,orZero,pairsFull,countBitsOnes]
  rfl

end

theorem packFacts : ∀ i : Fin 256, ones (lowPack i) = 4 ∧ ones (highPack i) = 4 ∧
    (lowPack i ^^^ lowPack i >>> 1) &&& 0x55 = 0x55 ∧ (highPack i ^^^ highPack i >>> 1) &&& 0x55 = 0x55 ∧
    (byteOf (lowPack i) (highPack i)).toNat = i := by decide +kernel

theorem columnFacts : ∀ k : Fin 8, ones (colPack k) = 3 ∧ (colPack k ^^^ colPack k >>> 1) &&& 0x54 = 0x54 ∧
    (bitOf (colPack k)).toNat = k := by decide +kernel

theorem parityFacts : ∀ j : Fin 22, (parityBit j).weight = 1 ∧ (parityBit j).pairs ≠ .zero ∧ (parityBit j).pairs ≠ .full ∧
    ∀ j', (parityBit j).pairs.add (parityBit j').pairs ≠ .full ∧ (parityBit j = parityBit j' → j = j') := by decide +kernel

section
variable (wrongOrder : Bool) {s t}

theorem dataFacts (i : Fin 256) (k : Fin 8) : (syndrome wrongOrder (.data i k)).weight = 11 ∧
    (syndrome wrongOrder (.data i k)).pairs = .full := by
  obtain ⟨low,high,lowPairs,highPairs,-⟩ := packFacts i
  obtain ⟨col,colPairs,-⟩ := columnFacts k
  cases wrongOrder with
  | false => exact ⟨by simp only [syndrome,swapBytes,Ecc.weight]; simp [low,high,col],(pairsFull _ _ _).mp ⟨lowPairs,highPairs,colPairs⟩⟩
  | true => exact ⟨by simp only [syndrome,swapBytes,Ecc.weight]; simp [low,high,col],(pairsFull _ _ _).mp ⟨highPairs,lowPairs,colPairs⟩⟩

theorem dataDecoded (i : Fin 256) (k : Fin 8) : let d := swapBytes wrongOrder (syndrome wrongOrder (.data i k))
    (byteOf d.ecc0 d.ecc1).toNat = i ∧ (bitOf d.ecc2).toNat = k := by
  simp only [syndrome,swapSwap]
  exact ⟨(packFacts i).2.2.2.2,(columnFacts k).2.2⟩

theorem weightOdd (s : Spot 256 22) : (syndrome wrongOrder s).weight % 2 = 1 := by
  cases s with
  | data i k => rw [(dataFacts wrongOrder i k).1]
  | parity j => rw [syndrome,(parityFacts j).1]

theorem syndromeInjective (same : syndrome wrongOrder s = syndrome wrongOrder t) : s = t := by
  have weights := congrArg Ecc.weight same
  cases s with
  | data i k =>
    cases t with
    | data i' k' =>
      have first := dataDecoded wrongOrder i k
      rw [same] at first
      have second := dataDecoded wrongOrder i' k'
      have byte := Fin.ext (first.1.symm.trans second.1)
      have bit := Fin.ext (first.2.symm.trans second.2)
      rw [byte,bit]
    | parity j =>
      rw [(dataFacts wrongOrder i k).1,syndrome,(parityFacts j).1] at weights
      contradiction
  | parity j =>
    cases t with
    | data i k =>
      rw [(dataFacts wrongOrder i k).1,syndrome,(parityFacts j).1] at weights
      contradiction
    | parity j' => exact congrArg _ (((parityFacts j).2.2.2 j').2 same)

theorem syndromesPairs : ((syndrome wrongOrder s).add (syndrome wrongOrder t)).pairs ≠ .full := by
  rw [Ecc.pairsAdd]
  cases s with
  | data i k =>
    rw [(dataFacts wrongOrder i k).2]
    cases t with
    | data i' k' =>
      rw [(dataFacts wrongOrder i' k').2]
      decide
    | parity j => exact fun full => (parityFacts j).2.1 (Ecc.addFull.mp full)
  | parity j =>
    cases t with
    | data i k =>
      rw [(dataFacts wrongOrder i k).2,Ecc.addComm]
      exact fun full => (parityFacts j).2.1 (Ecc.addFull.mp full)
    | parity j' => exact ((parityFacts j).2.2.2 j').1

end

variable (wrongOrder : Bool) {data}

theorem deltaOne (length : data.length = 256) (s : Spot 256 22) :
    delta wrongOrder (flip s (data,yaffsECCCalculate wrongOrder data)) = syndrome wrongOrder s := by
  rw [deltaFlip wrongOrder length,delta]
  simp [Ecc.add]

theorem flipTwice {byte} (bit : Nat) : flipBit (flipBit data byte bit) byte bit = data := by
  rw [flipBit,flipBit,modify_modify_eq]
  simp only [Function.comp_def,BitVec.xor_assoc,BitVec.xor_self,BitVec.xor_zero]
  exact modify_id ..

theorem oneCorrected (length : data.length = 256) (s : Spot 256 22) :
    let block := flip s (data,yaffsECCCalculate wrongOrder data)
    let out := yaffsECCCorrect wrongOrder block.1 block.2 (yaffsECCCalculate wrongOrder block.1)
    out.1 = 1 ∧ out.2.1 = data := by
  have seen := deltaOne wrongOrder length s
  rw [delta] at seen
  dsimp only
  rw [correctDelta,seen]
  cases s with
  | data i k =>
    obtain ⟨weight,pairs⟩ := dataFacts wrongOrder i k
    obtain ⟨byte,bit⟩ := dataDecoded wrongOrder i k
    have some : syndrome wrongOrder (.data i k) ≠ .zero := fun none => by
      rw [none] at pairs
      exact absurd pairs (by decide)
    simp only [if_neg some,if_pos pairs,byte,bit]
    exact ⟨trivial,flipTwice k.val⟩
  | parity j =>
    obtain ⟨weight,-,single,-⟩ := parityFacts j
    have some : parityBit j ≠ .zero := fun none => by
      rw [none] at weight
      exact absurd weight (by decide)
    dsimp only [syndrome]
    rw [if_neg some,if_neg single,if_pos weight]
    exact ⟨rfl,rfl⟩

theorem twoNoticed (length : data.length = 256) {s t : Spot 256 22} (other : s ≠ t) :
    let block := flip t (flip s (data,yaffsECCCalculate wrongOrder data))
    let out := yaffsECCCorrect wrongOrder block.1 block.2 (yaffsECCCalculate wrongOrder block.1)
    out.1 = -1 ∧ out.2.1 = block.1 := by
  have seen := deltaFlip wrongOrder ((flipLength s (data,yaffsECCCalculate wrongOrder data)).trans length) t
  rw [deltaOne wrongOrder length,delta] at seen
  have even := Ecc.weightAdd (syndrome wrongOrder s) (syndrome wrongOrder t)
  have first := weightOdd wrongOrder s
  have second := weightOdd wrongOrder t
  have some : (syndrome wrongOrder s).add (syndrome wrongOrder t) ≠ .zero := fun none =>
    other (syndromeInjective wrongOrder (Ecc.addEqZero.mp none))
  dsimp only
  rw [correctDelta,seen]
  simp only [if_neg some,if_neg (syndromesPairs wrongOrder)]
  rw [if_neg (by omega)]
  exact ⟨rfl,rfl⟩

/-! The same for the code over any number of bytes, whose 70 parity bits are the six of
colParity and the 32 of each line parity. -/

open EccOther

namespace EccOther

def add (a b : EccOther) : EccOther :=
  ⟨a.colParity ^^^ b.colParity,a.lineParity ^^^ b.lineParity,a.lineParityPrime ^^^ b.lineParityPrime⟩

def zero : EccOther := ⟨0,0,0⟩

def pairs (d : EccOther) : BitVec 32 × BitVec 8 :=
  (d.lineParity ^^^ d.lineParityPrime,(d.colParity ^^^ d.colParity >>> 1) &&& 0x15)

def weight (d : EccOther) : Nat := ones d.lineParity + ones d.lineParityPrime + ones d.colParity

theorem addEqZero {a b : EccOther} : a.add b = zero ↔ a = b := by
  cases a
  cases b
  simp [add,zero]

theorem addComm (a b : EccOther) : a.add b = b.add a := by simp [add,BitVec.xor_comm]

theorem pairsAdd (a b : EccOther) : (a.add b).pairs = (a.pairs.1 ^^^ b.pairs.1,a.pairs.2 ^^^ b.pairs.2) := by
  simp only [pairs,add,pairXor]
  ac_rfl

theorem weightAdd (a b : EccOther) : (a.add b).weight % 2 = (a.weight + b.weight) % 2 := by
  have line : ones (a.lineParity ^^^ b.lineParity) % 2 = _ := onesXor
  have prime : ones (a.lineParityPrime ^^^ b.lineParityPrime) % 2 = _ := onesXor
  have col : ones (a.colParity ^^^ b.colParity) % 2 = _ := onesXor
  simp only [weight,add]
  omega

theorem weightAddLe (a b : EccOther) : (a.add b).weight ≤ a.weight + b.weight := by
  have line : ones (a.lineParity ^^^ b.lineParity) ≤ _ := onesXorLe
  have prime : ones (a.lineParityPrime ^^^ b.lineParityPrime) ≤ _ := onesXorLe
  have col : ones (a.colParity ^^^ b.colParity) ≤ _ := onesXorLe
  simp only [weight,add]
  omega

theorem linePairsLe (d : EccOther) : ones d.pairs.1 ≤ d.weight := by
  have both : ones (d.lineParity ^^^ d.lineParityPrime) ≤ _ := onesXorLe
  exact Nat.le_add_right_of_le both

end EccOther

def full : BitVec 32 × BitVec 8 := (BitVec.allOnes 32,0x15)

def parityBitOther (j : Fin 70) : EccOther :=
  if j.val < 6 then ⟨1#8 <<< j.val,0,0⟩
  else if j.val < 38 then ⟨0,1#32 <<< (j.val - 6),0⟩
  else ⟨0,0,1#32 <<< (j.val - 38)⟩

section
variable {n}

def flipOther (s : Spot n 70) (block : List (BitVec 8) × EccOther) : List (BitVec 8) × EccOther :=
  match s with
  | .data i k => (flipBit block.1 i k,block.2)
  | .parity j => (block.1,block.2.add (parityBitOther j))

def colOther (k : Nat) : BitVec 8 := (columnParity (1#8 <<< k) >>> 2) &&& 0x3f

def syndromeOther : Spot n 70 → EccOther
  | .data i k => ⟨colOther k,ofNat 32 i,~~~ofNat 32 i⟩
  | .parity j => parityBitOther j

theorem calculateOtherFlip (length : data.length = n) (i : Fin n) (k : Fin 8) :
    yaffsECCCalculateOther (flipBit data i k) n = (yaffsECCCalculateOther data n).add (syndromeOther (.data i k)) := by
  have whole := take_of_length_le (Nat.le_of_eq length)
  have whole' : (flipBit data i k).take n = flipBit data i k := take_of_length_le (by simp [flipBit,length])
  have inside : i.val < data.length := by omega
  have flipped : parityLoop (flipBit data i k) 0 ⟨0,0,0⟩ = (parityLoop data 0 ⟨0,0,0⟩).add (flipParity 32 (0 + i) k) :=
    parityLoopFlip inside k 0 _
  have column (x y m : BitVec 8) : (x ^^^ y) >>> 2 &&& m = (x >>> 2 &&& m) ^^^ (y >>> 2 &&& m) := by
    rw [ushiftRight_xor_distrib,andXor]
  simp only [yaffsECCCalculateOther,whole,whole',flipped,syndromeOther,Nat.zero_add,Parity.add,flipParity,add,
    column,colOther]

def deltaOther (n : Nat) (block : List (BitVec 8) × EccOther) : EccOther :=
  block.2.add (yaffsECCCalculateOther block.1 n)

theorem flipOtherLength (s : Spot n 70) (block : List (BitVec 8) × EccOther) :
    (flipOther s block).1.length = block.1.length := by
  cases s <;> simp [flipOther,flipBit]

theorem deltaOtherFlip {block} (length : block.1.length = n) (s : Spot n 70) :
    deltaOther n (flipOther s block) = (deltaOther n block).add (syndromeOther s) := by
  cases s with
  | data i k =>
    simp only [deltaOther,flipOther,calculateOtherFlip length]
    simp only [add,BitVec.xor_assoc]
  | parity j =>
    simp only [deltaOther,flipOther,add,mk.injEq]
    refine ⟨?_,?_,?_⟩ <;> ac_rfl

end

theorem deltaOtherOne {n} (length : data.length = n) (s : Spot n 70) :
    deltaOther n (flipOther s (data,yaffsECCCalculateOther data n)) = syndromeOther s := by
  rw [deltaOtherFlip length,deltaOther]
  simp [add]

section
variable {n readEcc testEcc}

theorem orOtherZero (c : BitVec 8) (l p : BitVec 32) : c.setWidth 32 ||| l ||| p = 0 ↔ EccOther.mk c l p = .zero := by
  have wide : c.setWidth 32 = 0 ↔ c = 0 := by
    refine ⟨fun zero => eq_of_toNat_eq ?_,fun zero => zero ▸ rfl⟩
    have value := congrArg toNat zero
    exact value
  rw [zero,mk.injEq,← wide]
  exact or_eq_zero_iff.trans (and_congr_left' or_eq_zero_iff) |>.trans and_assoc

theorem pairsOtherFull (c : BitVec 8) (l p : BitVec 32) :
    l = ~~~p ∧ (c ^^^ c >>> 1) &&& 0x15 = 0x15 ↔ (EccOther.mk c l p).pairs = full := by
  have lines : l = ~~~p ↔ l ^^^ p = allOnes 32 := by
    rw [← xor_allOnes,BitVec.xor_comm p]
    refine ⟨fun eq => ?_,fun eq => ?_⟩
    · rw [eq,BitVec.xor_assoc,BitVec.xor_self,BitVec.xor_zero]
    · rw [← eq,BitVec.xor_assoc,BitVec.xor_self,BitVec.xor_zero]
  rw [pairs,full,Prod.mk.injEq,lines]

theorem correctOtherDelta : yaffsECCCorrectOther data n readEcc testEcc = let d := readEcc.add testEcc
    if d = .zero then (0,data,readEcc)
    else if d.pairs = full then
      if n ≤ d.lineParity.toNat then (-1,data,readEcc)
      else (1,flipBit data d.lineParity.toNat (bitOfOther d.colParity).toNat,readEcc)
    else if d.weight = 1 then (1,data,testEcc)
    else (-1,data,readEcc) := by
  simp only [yaffsECCCorrectOther,orOtherZero,pairsOtherFull,countBitsOnes,countBits32Ones]
  rfl

end

theorem columnOtherFacts : ∀ k : Fin 8, ones (colOther k) = 3 ∧ (colOther k ^^^ colOther k >>> 1) &&& 0x15 = 0x15 ∧
    (bitOfOther (colOther k)).toNat = k := by decide +kernel

theorem parityOtherFacts : ∀ j : Fin 70, (parityBitOther j).weight = 1 ∧ (parityBitOther j).pairs ≠ (0,0) ∧
    (parityBitOther j).colParity.toNat + 2^6 * (parityBitOther j).lineParity.toNat +
      2^38 * (parityBitOther j).lineParityPrime.toNat = 2^j.val := by decide +kernel

section
variable {n} {s t : Spot n 70}

theorem dataOtherFacts (i : Fin n) (k : Fin 8) :
    (syndromeOther (.data i k)).weight = 35 ∧ (syndromeOther (.data i k)).pairs = full := by
  obtain ⟨col,colPairs,-⟩ := columnOtherFacts k
  have lines : ones (ofNat 32 i) + ones (~~~ofNat 32 i) = 32 := onesNot
  refine ⟨?_,(pairsOtherFull _ _ _).mp ⟨not_not.symm,colPairs⟩⟩
  simp only [weight,syndromeOther]
  omega

theorem weightOtherOdd (s : Spot n 70) : (syndromeOther s).weight % 2 = 1 := by
  cases s with
  | data i k => rw [(dataOtherFacts i k).1]
  | parity j => rw [syndromeOther,(parityOtherFacts j).1]

theorem syndromeOtherInjective (bytes : n ≤ 2^31) (same : syndromeOther s = syndromeOther t) : s = t := by
  have weights := congrArg weight same
  cases s with
  | data i k =>
    cases t with
    | data i' k' =>
      simp only [syndromeOther,mk.injEq] at same
      have byte : i = i' := by
        have value := congrArg toNat same.2.1
        simp only [toNat_ofNat] at value
        omega
      have bit : k = k' := by
        have value := (columnOtherFacts k).2.2
        rw [same.1,(columnOtherFacts k').2.2] at value
        exact Fin.ext value.symm
      rw [byte,bit]
    | parity j =>
      rw [(dataOtherFacts i k).1,syndromeOther,(parityOtherFacts j).1] at weights
      contradiction
  | parity j =>
    cases t with
    | data i k =>
      rw [(dataOtherFacts i k).1,syndromeOther,(parityOtherFacts j).1] at weights
      contradiction
    | parity j' =>
      have value := (parityOtherFacts j).2.2
      simp only [syndromeOther] at same
      rw [same,(parityOtherFacts j').2.2] at value
      exact congrArg _ (Fin.ext ((Nat.pow_right_inj (by decide)).mp value).symm)

theorem syndromesOtherPairs : ((syndromeOther s).add (syndromeOther t)).pairs ≠ full := by
  have mixed (j : Fin 70) : (full.1 ^^^ (parityBitOther j).pairs.1,full.2 ^^^ (parityBitOther j).pairs.2) ≠ full := by
    rw [ne_eq,Prod.ext_iff]
    simp only [xorSame]
    exact fun none => (parityOtherFacts j).2.1 (Prod.ext none.1 none.2)
  cases s with
  | data i k =>
    rw [pairsAdd,(dataOtherFacts i k).2]
    cases t with
    | data i' k' =>
      rw [(dataOtherFacts i' k').2]
      decide
    | parity j => exact mixed j
  | parity j =>
    cases t with
    | data i k =>
      rw [addComm,pairsAdd,(dataOtherFacts i k).2]
      exact mixed j
    -- two ones cannot make 32 pairs differ
    | parity j' =>
      intro eq
      have lines := linePairsLe ((parityBitOther j).add (parityBitOther j'))
      have few := weightAddLe (parityBitOther j) (parityBitOther j')
      rw [(parityOtherFacts j).1,(parityOtherFacts j').1] at few
      simp only [syndromeOther] at eq
      rw [eq] at lines
      exact absurd (le_trans lines few) (by decide)

theorem oneOtherCorrected (length : data.length = n) (bytes : n ≤ 2^31) (s : Spot n 70) :
    let block := flipOther s (data,yaffsECCCalculateOther data n)
    let out := yaffsECCCorrectOther block.1 n block.2 (yaffsECCCalculateOther block.1 n)
    out.1 = 1 ∧ out.2.1 = data := by
  have seen := deltaOtherOne length s
  rw [deltaOther] at seen
  dsimp only
  rw [correctOtherDelta,seen]
  cases s with
  | data i k =>
    obtain ⟨weight,pairs⟩ := dataOtherFacts i k
    have byte : (syndromeOther (.data i k)).lineParity.toNat = i := by
      simp only [syndromeOther,toNat_ofNat]
      omega
    have bit : (bitOfOther (syndromeOther (.data i k)).colParity).toNat = k := (columnOtherFacts k).2.2
    have some : syndromeOther (.data i k) ≠ .zero := fun none => by
      rw [none] at pairs
      exact absurd pairs (by decide)
    rw [if_neg some,if_pos pairs,byte,bit,if_neg (by omega)]
    exact ⟨rfl,flipTwice k.val⟩
  | parity j =>
    obtain ⟨weight,-⟩ := parityOtherFacts j
    have some : parityBitOther j ≠ .zero := fun none => by
      rw [none] at weight
      exact absurd weight (by decide)
    have single : (parityBitOther j).pairs ≠ full := fun eq => by
      have lines := linePairsLe (parityBitOther j)
      rw [eq,weight] at lines
      exact absurd lines (by decide)
    dsimp only [syndromeOther]
    rw [if_neg some,if_neg single,if_pos weight]
    exact ⟨rfl,rfl⟩

theorem twoOtherNoticed {data : List (BitVec 8)} (length : data.length = n) (bytes : n ≤ 2^31) (other : s ≠ t) :
    let block := flipOther t (flipOther s (data,yaffsECCCalculateOther data n))
    let out := yaffsECCCorrectOther block.1 n block.2 (yaffsECCCalculateOther block.1 n)
    out.1 = -1 ∧ out.2.1 = block.1 := by
  have seen := deltaOtherFlip ((flipOtherLength s (data,yaffsECCCalculateOther data n)).trans length) t
  rw [deltaOtherOne length,deltaOther] at seen
  have even := weightAdd (syndromeOther s) (syndromeOther t)
  have first := weightOtherOdd s
  have second := weightOtherOdd t
  have some : (syndromeOther s).add (syndromeOther t) ≠ .zero := fun none =>
    other (syndromeOtherInjective bytes (addEqZero.mp none))
  dsimp only
  rw [correctOtherDelta,seen]
  rw [if_neg some,if_neg syndromesOtherPairs,if_neg (by omega)]
  exact ⟨rfl,rfl⟩

end

theorem eccCorrectsOneNoticesTwo : (∀ wrongOrder, data.length = 256 →
      (∀ s : Spot 256 22, let block := flip s (data,yaffsECCCalculate wrongOrder data)
        let out := yaffsECCCorrect wrongOrder block.1 block.2 (yaffsECCCalculate wrongOrder block.1)
        out.1 = 1 ∧ out.2.1 = data) ∧
      ∀ s t : Spot 256 22, s ≠ t →
        let block := flip t (flip s (data,yaffsECCCalculate wrongOrder data))
        let out := yaffsECCCorrect wrongOrder block.1 block.2 (yaffsECCCalculate wrongOrder block.1)
        out.1 = -1 ∧ out.2.1 = block.1) ∧
    ∀ n, data.length = n → 1 ≤ n → n ≤ 2^31 →
      (∀ s : Spot n 70,
        let block := flipOther s (data,yaffsECCCalculateOther data n)
        let out := yaffsECCCorrectOther block.1 n block.2 (yaffsECCCalculateOther block.1 n)
        out.1 = 1 ∧ out.2.1 = data) ∧
      ∀ s t : Spot n 70, s ≠ t →
        let block := flipOther t (flipOther s (data,yaffsECCCalculateOther data n))
        let out := yaffsECCCorrectOther block.1 n block.2 (yaffsECCCalculateOther block.1 n)
        out.1 = -1 ∧ out.2.1 = block.1 :=
  ⟨fun wrongOrder length => ⟨oneCorrected wrongOrder length,fun _ _ => twoNoticed wrongOrder length⟩,
    fun _ length _ bytes => ⟨oneOtherCorrected length bytes,fun _ _ => twoOtherNoticed length bytes⟩⟩

theorem zeroBlockCorrected :
    (let block := flip (.data 7 3) (List.replicate 256 0,yaffsECCCalculate false (List.replicate 256 0))
     (yaffsECCCorrect false block.1 block.2 (yaffsECCCalculate false block.1)).1 = 1) ∧
    (let block := flipOther (n := 3) (.parity 69) (flipOther (n := 3) (.data 2 0) ([1,2,3],yaffsECCCalculateOther [1,2,3] 3))
     (yaffsECCCorrectOther block.1 3 block.2 (yaffsECCCalculateOther block.1 3)).1 = -1) :=
  ⟨((eccCorrectsOneNoticesTwo.1 false length_replicate).1 (.data 7 3)).1,
    ((eccCorrectsOneNoticesTwo.2 3 rfl (by decide) (by decide)).2 (.data 2 0) (.parity 69) (by decide)).1⟩

end EclairKernel.YaffsEcc
