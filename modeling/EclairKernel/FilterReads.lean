import EclairKernel.FilterCheck

/-! The scratch words mem[] are on the kernel's stack and are not cleared. Beside a run stands
which registers and words do not depend on them; two runs that start with other contents stay in
lockstep as long as no other register is returned, compared, divided by or used to find data. -/
namespace EclairKernel.Filter
open Function List Machine

structure Clean where
  a : Bool
  x : Bool
  words : Nat → Bool

def Clean.operand (c : Clean) : Src → Bool
  | .k => true
  | .x => c.x

def Clean.after (c : Clean) (insn : Insn) : Op → Clean
  | .alu _ src => {c with a := c.a && c.operand src}
  | .ldAbs _ | .ldInd _ | .ldLen | .ldImm => {c with a := true}
  | .ldxLen | .ldxMsh | .ldxImm => {c with x := true}
  | .ldMem => {c with a := c.words insn.k.toNat}
  | .ldxMem => {c with x := c.words insn.k.toNat}
  | .tax => {c with x := c.a}
  | .txa => {c with a := c.x}
  | .st => {c with words := update c.words insn.k.toNat c.a}
  | .stx => {c with words := update c.words insn.k.toNat c.x}
  | .neg | .ja | .jump _ _ | .retK | .retA => c

-- the attribute loads of a linear packet test A and search for X
def Clean.finds (c : Clean) (skb : Skb) (st : State) : Prop := skb.dataLen = 0 → c.a = true ∧ (¬attrRefused skb st → c.x = true)

def Clean.loads (c : Clean) (skb : Skb) (st : State) (k : BitVec 32) : Prop :=
  k - SKF_AD_OFF = SKF_AD_NLATTR ∨ k - SKF_AD_OFF = SKF_AD_NLATTR_NEST → c.finds skb st

def Clean.allows (c : Clean) (skb : Skb) (insn : Insn) (st : State) : Op → Prop
  | .alu .div src => c.operand src = true
  | .jump _ src => c.a = true ∧ c.operand src = true
  | .ldAbs _ => c.loads skb st insn.k
  | .ldInd _ => c.x = true ∧ c.loads skb st (st.X + insn.k)
  | .retA => c.a = true
  | _ => True

def fetch (filter : List Insn) (st : State) : Option (Insn × Op) :=
  filter[st.pc.toNat]?.bind fun insn => (runSwitch.lookup insn.code).map fun op => (insn,op)

def cleanAfter (filter : List Insn) (c : Clean) (st : State) : Clean := (fetch filter st).elim c fun r => c.after r.1 r.2

def cleanUse (skb : Skb) (filter : List Insn) (c : Clean) (st : State) : Prop :=
  ∀ insn op, fetch filter st = some (insn,op) → c.allows skb insn st op

/-- Nothing that depends on the first contents of mem[] is used along the run. -/
def UsesClean (skb : Skb) (filter : List Insn) (visits : List Visit) : Prop :=
  Followed (cleanAfter filter) (cleanUse skb filter) ⟨true,true,fun _ => false⟩ visits

structure Same (c : Clean) (s t : State) : Prop where
  pc : t.pc = s.pc
  a : c.a = true → t.A = s.A
  x : c.x = true → t.X = s.X
  words : ∀ i, c.words i = true → t.mem i = s.mem i

section
variable {skb filter insn} {s t : State} {op k} {c : Clean} (same : Same c s t)
include same

theorem Same.operand {src} (clean : c.operand src = true) : Filter.operand insn t src = Filter.operand insn s src := by
  cases src with
  | k => rfl
  | x => exact same.x clean

theorem Same.setA (v : BitVec 32) : Agree (Same {c with a := true}) (goOn {s with A := v}) (goOn {t with A := v}) :=
  ⟨congrArg (· + 1) same.pc,fun _ => rfl,same.x,same.words⟩

theorem Same.setX (v : BitVec 32) : Agree (Same {c with x := true}) (goOn {s with X := v}) (goOn {t with X := v}) :=
  ⟨congrArg (· + 1) same.pc,same.a,fun _ => rfl,same.words⟩

theorem Same.found (found : Found) : Agree (Same {c with a := true}) (setFound s found) (setFound t found) := by
  cases found with
  | fault => rfl
  | hit | absent => exact same.setA _

theorem Same.attr (clean : c.finds skb s) :
    (attrRefused skb t ↔ attrRefused skb s) ∧ (¬attrRefused skb s → t.A = s.A ∧ t.X = s.X) := by
  by_cases linear : skb.dataLen = 0
  · have a := same.a (clean linear).1
    exact ⟨by rw [attrRefused,attrRefused,a],fun admitted => ⟨a,same.x ((clean linear).2 admitted)⟩⟩
  · exact ⟨iff_of_true (.inl linear) (.inl linear),fun admitted => absurd (.inl linear) admitted⟩

end

abbrev AgreeTo (c : Clean) (first second : Result) : Prop := second.1 = first.1 ∧ Agree (Same c) first.2 second.2

section
variable {skb filter insn} {s t : State} {op k size} {c : Clean} (same : Same c s t)
include same

theorem nlattrAgree (clean : c.finds skb s) : AgreeTo {c with a := true} (nlattr skb s) (nlattr skb t) := by
  obtain ⟨refused,inputs⟩ := same.attr clean
  rw [nlattr,nlattr,if_congr refused rfl rfl]
  split
  · exact ⟨rfl,rfl⟩
  rw [(inputs ‹_›).1,(inputs ‹_›).2]
  exact ⟨rfl,same.found _⟩

theorem nlattrNestAgree (clean : c.finds skb s) : AgreeTo {c with a := true} (nlattrNest skb s) (nlattrNest skb t) := by
  obtain ⟨refused,inputs⟩ := same.attr clean
  rw [nlattrNest,nlattrNest,if_congr refused rfl rfl]
  split
  · exact ⟨rfl,rfl⟩
  rw [(inputs ‹_›).1,(inputs ‹_›).2]
  cases readU16 skb s.A with
  | none => exact ⟨rfl,rfl⟩
  | some nlaLen =>
    dsimp only
    split
    · exact ⟨rfl,rfl⟩
    · exact ⟨rfl,same.found _⟩

theorem loadAAgree (clean : c.loads skb s k) : AgreeTo {c with a := true} (loadA skb s k size) (loadA skb t k size) := by
  unfold loadA
  cases loadPointer skb k size.bytes with
  | none =>
    dsimp only [ancillary]
    split_ifs with _ _ _ attr nest
    · exact ⟨rfl,same.setA _⟩
    · exact ⟨rfl,same.setA _⟩
    · cases skb.dev <;> exact ⟨rfl,by first | rfl | exact same.setA _⟩
    · exact nlattrAgree same (clean (.inl attr))
    · exact nlattrNestAgree same (clean (.inr nest))
    · exact ⟨rfl,rfl⟩
  | some ptr =>
    dsimp only
    cases readBytes skb ptr size.bytes with
    | none => exact ⟨rfl,rfl⟩
    | some bytes => exact ⟨rfl,same.setA _⟩

theorem loadMshAgree : AgreeTo {c with x := true} (loadMsh skb s k) (loadMsh skb t k) := by
  unfold loadMsh
  cases loadPointer skb k 1 with
  | none => exact ⟨rfl,rfl⟩
  | some ptr =>
    dsimp only
    cases readBytes skb ptr 1 with
    | none => exact ⟨rfl,rfl⟩
    | some bytes => exact ⟨rfl,same.setX _⟩

theorem runAluAgree {alu src} (clean : alu = .div → c.operand src = true) :
    AgreeTo {c with a := c.a && c.operand src} (runAlu insn s alu src) (runAlu insn t alu src) := by
  have result : Agree (Same {c with a := c.a && c.operand src}) (goOn {s with A := compute alu s.A (operand insn s src)})
      (goOn {t with A := compute alu t.A (operand insn t src)}) := by
    refine ⟨congrArg (· + 1) same.pc,fun both => ?_,same.x,same.words⟩
    obtain ⟨a,v⟩ := Bool.and_eq_true_iff.mp both
    exact congrArg₂ (compute alu) (same.a a) (same.operand v)
  unfold runAlu
  split
  · rename_i div
    have v : operand insn t src = operand insn s src := same.operand (clean div)
    have zero : src = .x ∧ t.X = 0 ↔ src = .x ∧ s.X = 0 := and_congr_right fun x => by rw [same.x (x ▸ clean div : c.operand .x = true)]
    rw [if_congr zero rfl rfl]
    split
    · exact ⟨rfl,rfl⟩
    · exact ⟨congrArg (fun d => [Effect.divide d]) v,result⟩
  · exact ⟨rfl,result⟩

theorem Same.store {v w : BitVec 32} {i clean} (known : clean = true → w = v) :
    ∀ j, update c.words i clean j = true → update t.mem i w j = update s.mem i v j := by
  intro j among
  by_cases here : j = i
  · subst here
    rw [update_self] at among ⊢
    rw [update_self,known among]
  · rw [update_of_ne here] at among ⊢
    rw [update_of_ne here]
    exact same.words j among

theorem executeAgree (allowed : c.allows skb insn s op) : AgreeTo (c.after insn op) (execute skb insn s op) (execute skb insn t op) := by
  have next := congrArg (· + 1) same.pc
  cases op with
  | alu alu src =>
    refine runAluAgree same fun div => ?_
    subst div
    exact allowed
  | neg => exact ⟨rfl,next,fun a => congrArg (- ·) (same.a a),same.x,same.words⟩
  | ja => exact ⟨rfl,congrArg (· + insn.k + 1) same.pc,same.a,same.x,same.words⟩
  | jump cond src =>
    obtain ⟨a,v⟩ := allowed
    refine ⟨rfl,?_,same.a,same.x,same.words⟩
    show t.pc + _ + 1 = s.pc + _ + 1
    rw [same.pc,same.a a,same.operand v]
  | ldAbs size => exact loadAAgree same allowed
  | ldInd size =>
    obtain ⟨x,finds⟩ := allowed
    show AgreeTo _ _ (loadA skb t (t.X + insn.k) size)
    rw [same.x x]
    exact loadAAgree same finds
  | ldxMsh => exact loadMshAgree same
  | ldLen | ldImm => exact ⟨rfl,same.setA _⟩
  | ldxLen | ldxImm => exact ⟨rfl,same.setX _⟩
  | ldMem => exact ⟨rfl,next,same.words _,same.x,same.words⟩
  | ldxMem => exact ⟨rfl,next,same.a,same.words _,same.words⟩
  | tax => exact ⟨rfl,next,same.a,same.a,same.words⟩
  | txa => exact ⟨rfl,next,same.x,same.x,same.words⟩
  | retK => exact ⟨rfl,rfl⟩
  | retA => exact ⟨rfl,congrArg Verdict.ret (same.a allowed).symm⟩
  | st => exact ⟨rfl,next,same.a,same.x,same.store same.a⟩
  | stx => exact ⟨rfl,next,same.a,same.x,same.store same.x⟩

theorem stepAgree (allowed : cleanUse skb filter c s) : AgreeTo (cleanAfter filter c s) (step skb filter s) (step skb filter t) := by
  unfold cleanUse at allowed
  unfold step cleanAfter
  rw [same.pc]
  split
  · exact ⟨rfl,rfl⟩
  cases at_ : filter[s.pc.toNat]? with
  | none => exact ⟨rfl,rfl⟩
  | some insn =>
    cases found : runSwitch.lookup insn.code with
    | none =>
      simp only [found]
      exact ⟨rfl,rfl⟩
    | some op =>
      have fetched : fetch filter s = some (insn,op) := by simp [fetch,at_,found]
      simp only [fetched,found]
      exact executeAgree same (allowed insn op fetched)

end

theorem verdictWithoutStack (skb : Skb) (filter : List Insn) (mem mem' : Nat → BitVec 32)
    (clean : UsesClean skb filter (skRunFilter skb filter mem).1) :
    (skRunFilter skb filter mem').1.map Visit.events = (skRunFilter skb filter mem).1.map Visit.events ∧
    (skRunFilter skb filter mem').2 = (skRunFilter skb filter mem).2 :=
  lockstep (fun _ _ _ => stepAgree) ⟨rfl,fun _ => rfl,fun _ => rfl,fun i none_ => by cases none_⟩ clean

-- the word that is loaded first is not used
def storeThenLoad : List Insn :=
  [⟨BPF_LD ||| BPF_MEM,0,0,0⟩, ⟨BPF_STX,0,0,3⟩, ⟨BPF_LDX ||| BPF_MEM,0,0,3⟩, ⟨BPF_MISC ||| BPF_TXA,0,0,0⟩, ⟨BPF_RET ||| BPF_A,0,0,0⟩]

theorem storedVerdict : UsesClean emptySkb storeThenLoad (skRunFilter emptySkb storeThenLoad fun _ => 0).1 ∧
    (skRunFilter emptySkb storeThenLoad fun _ => 7).2 = (skRunFilter emptySkb storeThenLoad fun _ => 0).2 := by
  have clean : UsesClean emptySkb storeThenLoad (skRunFilter emptySkb storeThenLoad fun _ => 0).1 := by
    refine ⟨?_,?_,?_,?_,?_,trivial⟩ <;> intro insn op here <;> cases here <;> trivial
  exact ⟨clean,(verdictWithoutStack emptySkb storeThenLoad (fun _ => 0) (fun _ => 7) clean).2⟩

def loadFirst : List Insn := [⟨BPF_LD ||| BPF_MEM,0,0,0⟩, ⟨BPF_RET ||| BPF_A,0,0,0⟩]

theorem verdictLeaksStack : skChkFilter loadFirst = 0 ∧
    (skRunFilter emptySkb loadFirst fun _ => 0).2 = some (.ret 0) ∧ (skRunFilter emptySkb loadFirst fun _ => 7).2 = some (.ret 7) := by
  decide

/-! Where a filter reads: the bytes of the packet, and for the negative offsets the space from
skb->head to the tail. The tests of the source see the first byte of a negative load only, let
`skb->len - sizeof(struct nlattr)` wrap, and compare nla_len with `A - skb->len`. -/

open BitVec

def InPacket (skb : Skb) : Effect → Prop
  | .packet off n => off + n ≤ skb.len.toNat
  | .attr off n => off.toNat + n ≤ skb.len.toNat
  | .header addr n => skb.head.toNat ≤ addr.toNat ∧ addr.toNat + n ≤ skb.tail.toNat
  | _ => True

instance (skb : Skb) : DecidablePred (InPacket skb)
  | .packet _ _ => inferInstanceAs (Decidable (_ ≤ _))
  | .attr _ _ => inferInstanceAs (Decidable (_ ≤ _))
  | .header _ _ => inferInstanceAs (Decidable (_ ∧ _))
  | .device => isTrue trivial
  | .load _ => isTrue trivial
  | .store _ => isTrue trivial
  | .divide _ => isTrue trivial

def AttrFits (skb : Skb) (st : State) : Prop := skb.len.toNat < NLA_HDRLEN → (skb.len - st.A).toInt < NLA_HDRLEN

def NestFits (skb : Skb) (st : State) : Prop :=
  st.A.toNat + 2 ≤ skb.len.toNat ∧ ∀ nlaLen, readU16 skb st.A = some nlaLen → ¬st.A - skb.len < nlaLen.setWidth 32 →
    Walk skb (InPacket skb) st.X ((nlaLen.toNat : Int) - NLA_HDRLEN).toNat (st.A + 4) ((nlaLen.toNat : Int) - NLA_HDRLEN)

structure LoadFits (skb : Skb) (st : State) (k : BitVec 32) (n : Nat) : Prop where
  header : k.toInt < SKF_AD_OFF.toInt → (negLoadAddress skb k).toNat < skb.head.toNat ∨
    (negLoadAddress skb k).toNat + n ≤ skb.tail.toNat ∨ skb.tail.toNat ≤ (negLoadAddress skb k).toNat
  attr : k - SKF_AD_OFF = SKF_AD_NLATTR → ¬attrRefused skb st → AttrFits skb st
  nest : k - SKF_AD_OFF = SKF_AD_NLATTR_NEST → ¬attrRefused skb st → NestFits skb st

/-- What the tests of the source leave open, at the instruction of a state. -/
def Fits (skb : Skb) (filter : List Insn) (st : State) : Prop :=
  ∀ insn, filter[st.pc.toNat]? = some insn → ∀ size,
    (runSwitch.lookup insn.code = some (.ldAbs size) → LoadFits skb st insn.k size.bytes) ∧
    (runSwitch.lookup insn.code = some (.ldInd size) → LoadFits skb st (st.X + insn.k) size.bytes)

section
variable {skb filter st k} {off attrtype n} {rem : Int}

theorem toNatOffset {len : BitVec 32} {d : Nat} (room : off.toNat + d ≤ len.toNat) : (off + BitVec.ofNat 32 d).toNat = off.toNat + d := by
  rw [toNat_add,toNat_ofNat,Nat.mod_eq_of_lt (a := d) (by omega)]
  exact Nat.mod_eq_of_lt (by omega)

theorem toIntLe (x : BitVec 32) : x.toInt ≤ x.toNat := by
  rw [toInt_eq_toNat_cond]
  split <;> omega

theorem walkInside (room : rem < NLA_HDRLEN ∨ off.toNat + rem ≤ skb.len.toNat) : Walk skb (InPacket skb) attrtype n off rem := by
  induction n generalizing off rem with
  | zero => trivial
  | succ n ih =>
    intro enough
    replace room := room.resolve_left enough
    unfold NLA_HDRLEN at enough
    have type : (off + 2).toNat = off.toNat + 2 := toNatOffset (d := 2) (show _ ≤ skb.len.toNat by omega)
    refine ⟨by simp only [InPacket]; omega,fun nlaLen _ fits => ⟨by simp only [InPacket]; omega,fun _ _ _ => ih ?_⟩⟩
    by_cases short : rem - NLA_ALIGN nlaLen.toNat < NLA_HDRLEN
    · exact .inl short
    · rw [toNatOffset (show _ ≤ skb.len.toNat by omega)]
      omega

/-- With room for a header the packet holds what is searched; without it even the first
header lies outside. -/
theorem attrFits (admitted : ¬attrRefused skb st) :
    Walk skb (InPacket skb) st.X (skb.len - st.A).toInt.toNat st.A (skb.len - st.A).toInt ↔ AttrFits skb st := by
  have signed := toIntLe (skb.len - st.A)
  refine ⟨fun walk short => ?_,fun fits => walkInside ?_⟩
  · by_contra enough
    obtain ⟨n,rounds⟩ := Nat.exists_eq_succ_of_ne_zero (show (skb.len - st.A).toInt.toNat ≠ 0 by unfold NLA_HDRLEN at enough; omega)
    rw [rounds] at walk
    have first : st.A.toNat + 2 ≤ skb.len.toNat := (walk enough).1
    have rest : (skb.len - st.A).toNat = skb.len.toNat - st.A.toNat := toNat_sub_of_le (by rw [le_def]; omega)
    omega
  · rcases lt_or_ge skb.len.toNat NLA_HDRLEN with short | long
    · exact .inl (fits short)
    have below : ¬skb.len - 4 < st.A := fun h => admitted (.inr h)
    rw [lt_def] at below
    have room : (skb.len - 4).toNat = skb.len.toNat - 4 := toNat_sub_of_le (by rw [le_def]; exact long)
    have rest : (skb.len - st.A).toNat = skb.len.toNat - st.A.toNat := toNat_sub_of_le (by rw [le_def]; omega)
    omega

theorem headerFits : HeaderMeets (InPacket skb) skb k n ↔ (k.toInt < SKF_AD_OFF.toInt → (negLoadAddress skb k).toNat < skb.head.toNat ∨
    (negLoadAddress skb k).toNat + n ≤ skb.tail.toNat ∨ skb.tail.toNat ≤ (negLoadAddress skb k).toNat) := by
  refine imp_congr_right fun _ => ?_
  simp only [InPacket,le_def,lt_def]
  omega

theorem loadFits : LoadMeets (InPacket skb) skb st k n ↔ LoadFits skb st k n := by
  refine ⟨fun meets => ⟨headerFits.mp meets.header,?_,meets.nest⟩,fun fits => ⟨headerFits.mpr fits.header,fun _ => trivial,?_,fits.nest⟩⟩
  · exact fun attr admitted => (attrFits admitted).mp (meets.attr attr admitted)
  · exact fun attr admitted => (attrFits admitted).mpr (fits.attr attr admitted)

theorem meetsFits : Meets (InPacket skb) skb filter st ↔ Fits skb filter st := by
  refine forall_congr' fun insn => imp_congr_right fun _ => ⟨fun meets size => ?_,fun fits op found => ?_⟩
  · exact ⟨fun found => loadFits.mp (meets _ found),fun found => loadFits.mp (meets _ found)⟩
  · cases op with
    | ldAbs size => exact loadFits.mpr ((fits size).1 found)
    | ldInd size => exact loadFits.mpr ((fits size).2 found)
    | ldxMsh => exact fun _ low high => ⟨low,high⟩
    | _ => trivial

end

theorem filterReadsInside (skb : Skb) (filter : List Insn) (mem : Nat → BitVec 32) :
    (∀ visit ∈ (skRunFilter skb filter mem).1, ∀ e ∈ visit.events, InPacket skb e) ↔
      ∀ visit ∈ (skRunFilter skb filter mem).1, Fits skb filter visit.state := by
  have usual : Usual skb (InPacket skb) := ⟨fun _ _ inside => inside,fun _ => trivial,fun _ => trivial,fun _ => trivial⟩
  refine forall₂_congr fun visit mem => ?_
  obtain ⟨_,events,_⟩ := @visitReached _ _ _ _ _ _ (fun _ => True) (fun _ _ _ _ => trivial) trivial visit mem
  rw [events,stepTouches usual,meetsFits]

def bufferSkb : Skb :=
  {emptySkb with len := 8, head := 0x1000, data := 0x1000, tail := 0x1008, networkHeader := 0x1007, memory := fun _ => some 64}

def loadWord (k : BitVec 32) : List Insn := [⟨BPF_LD ||| BPF_W ||| BPF_ABS,0,0,k⟩, ⟨BPF_RET ||| BPF_A,0,0,0⟩]

def loadAttr (a : BitVec 32) (kind : BitVec 32) : List Insn := ⟨BPF_LD ||| BPF_IMM,0,0,a⟩::loadWord (SKF_AD_OFF + kind)

/-- A word at the last byte of the buffer, the attributes of a packet of two bytes, and an
attribute of 16448 bytes in a packet of 8. -/
theorem readsEscape : (skChkFilter (loadWord SKF_NET_OFF) = 0 ∧
      ∃ visit ∈ (skRunFilter bufferSkb (loadWord SKF_NET_OFF) fun _ => 0).1, ∃ e ∈ visit.events, ¬InPacket bufferSkb e) ∧
    (skChkFilter (loadAttr 0xffffff00 SKF_AD_NLATTR) = 0 ∧
      ∃ visit ∈ (skRunFilter {bufferSkb with len := 2} (loadAttr 0xffffff00 SKF_AD_NLATTR) fun _ => 0).1,
        ∃ e ∈ visit.events, ¬InPacket {bufferSkb with len := 2} e) ∧
    (skChkFilter (loadAttr 4 SKF_AD_NLATTR_NEST) = 0 ∧
      ∃ visit ∈ (skRunFilter bufferSkb (loadAttr 4 SKF_AD_NLATTR_NEST) fun _ => 0).1, ∃ e ∈ visit.events, ¬InPacket bufferSkb e) := by
  decide

end EclairKernel.Filter
