import EclairKernel.Filter

/-! What sk_chk_filter accepts, sk_run_filter executes safely. The two switches are related
label by label; the rest is one fact about a round of the loop. -/
namespace EclairKernel.Filter
open List Option BitVec Machine

def demands : Op → Check
  | .alu .div .k => .divisor
  | .ldMem => .scratch
  | .ldxMem => .scratch
  | .st => .scratch
  | .stx => .scratch
  | .ja => .jump
  | .jump _ _ => .branch
  | _ => .plain

theorem switchesAgree : ∀ e ∈ checkSwitch, (runSwitch.lookup e.1).map demands = some e.2 := by decide

theorem retLabels : ∀ e ∈ checkSwitch, BPF_CLASS e.1 = BPF_RET →
    runSwitch.lookup e.1 = some .retK ∨ runSwitch.lookup e.1 = some .retA := by decide

def Safe : Effect → Prop
  | .load i => i < BPF_MEMWORDS
  | .store i => i < BPF_MEMWORDS
  | .divide d => d ≠ 0
  | _ => True

def Readable (skb : Skb) : Effect → Prop
  | .header addr n => ∀ i < n, (skb.memory (addr + BitVec.ofNat 32 i)).isSome
  | .attr off n => ∀ i < n, (skb.memory (skb.data + off + BitVec.ofNat 32 i)).isSome
  | .device => skb.dev.isSome
  | _ => True

def Proper : Verdict → Prop
  | .ret _ => True
  | .early => True
  | .fault => True
  | _ => False

def Falls (st : State) : Outcome State Verdict → Prop
  | .next st' => st'.pc = st.pc + 1
  | .stop v => Proper v

section
variable {skb} {filter : List Insn} {insn} {st : State} {op flen pc}

theorem lookupMem {α β : Type} [BEq α] [LawfulBEq α] {l : List (α × β)} {a : α} {b : β} (found : l.lookup a = some b) : (a,b) ∈ l := by
  obtain ⟨before,after,rfl,_⟩ := lookup_eq_some_iff.mp found
  exact mem_append_right before mem_cons_self

theorem checkedOp (ok : checkInsn flen pc insn = true) :
    ∃ op, runSwitch.lookup insn.code = some op ∧ passes flen pc insn (demands op) = true := by
  unfold checkInsn at ok
  split at ok
  · cases ok
  · rename_i check found
    obtain ⟨op,here,rfl⟩ := map_eq_some_iff.mp (switchesAgree _ (lookupMem found))
    exact ⟨op,here,ok⟩

theorem checkLoopAt {l i} (ok : checkLoop flen pc l = true) (here : l[i]? = some insn) :
    checkInsn flen (pc + i) insn = true := by
  induction l generalizing pc i with
  | nil => simp at here
  | cons first rest ih =>
    obtain ⟨head,tail⟩ := Bool.and_eq_true_iff.mp ok
    cases i with
    | zero =>
      cases here
      exact head
    | succ i =>
      have later := ih tail here
      rwa [Nat.add_right_comm] at later

structure Checked (filter : List Insn) : Prop where
  nonempty : 0 < filter.length
  small : filter.length ≤ BPF_MAXINSNS
  each : ∀ {pc insn}, filter[pc]? = some insn → ∃ op, runSwitch.lookup insn.code = some op ∧
    passes filter.length pc insn (demands op) = true ∧ (pc + 1 = filter.length → op = .retK ∨ op = .retA)

theorem acceptedChecked (accepted : skChkFilter filter = 0) : Checked filter := by
  unfold skChkFilter at accepted
  split at accepted
  · cases accepted
  split at accepted
  · rename_i loop
    split at accepted
    · rename_i ends
      refine ⟨by omega,by omega,fun {pc insn} here => ?_⟩
      have ok := checkLoopAt loop here
      rw [Nat.zero_add] at ok
      obtain ⟨op,found,pass⟩ := checkedOp ok
      refine ⟨op,found,pass,fun last => ?_⟩
      have final : filter.getLast? = some insn := by
        rw [getLast?_eq_getElem?,← last]
        exact here
      simp only [endsInRet,final,decide_eq_true_eq] at ends
      obtain ⟨check,label⟩ : ∃ check, checkSwitch.lookup insn.code = some check := by
        unfold checkInsn at ok
        split at ok
        · cases ok
        · exact ⟨_,‹_›⟩
      rcases retLabels _ (lookupMem label) ends with ret | ret <;> rw [found] at ret <;> cases ret
      · exact .inl rfl
      · exact .inr rfl
    · cases accepted
  · cases accepted

variable {off k n size} {attrtype rem alu src}

theorem setFoundFalls (found : Found) : Falls st (setFound st found) := by
  cases found with
  | hit | absent => rfl
  | fault => trivial

theorem nlattrFalls : Falls st (nlattr skb st).2 := by
  unfold nlattr
  split
  · trivial
  · exact setFoundFalls _

theorem nlattrNestFalls : Falls st (nlattrNest skb st).2 := by
  unfold nlattrNest
  split
  · trivial
  split
  · trivial
  split
  · trivial
  · exact setFoundFalls _

theorem ancillaryFalls : Falls st (ancillary skb st k).2 := by
  unfold ancillary
  split
  · rfl
  split
  · rfl
  split
  · split
    · rfl
    · trivial
  split
  · exact nlattrFalls
  split
  · exact nlattrNestFalls
  · trivial

theorem loadAFalls : Falls st (loadA skb st k size).2 := by
  unfold loadA
  split
  · exact ancillaryFalls
  · split
    · trivial
    · rfl

theorem loadMshFalls : Falls st (loadMsh skb st k).2 := by
  unfold loadMsh
  split
  · trivial
  · split
    · trivial
    · rfl

theorem runAluFalls : Falls st (runAlu insn st alu src).2 := by
  unfold runAlu
  split
  · split
    · trivial
    · rfl
  · rfl

theorem executeFalls (noJump : demands op ≠ .jump) (noBranch : demands op ≠ .branch) : Falls st (execute skb insn st op).2 := by
  cases op with
  | ja => exact absurd rfl noJump
  | jump cond src => exact absurd rfl noBranch
  | alu alu src => exact runAluFalls
  | ldAbs | ldInd => exact loadAFalls
  | ldxMsh => exact loadMshFalls
  | retK | retA => trivial
  | neg | ldLen | ldxLen | ldImm | ldxImm | ldMem | ldxMem | tax | txa | st | stx => rfl

def Onward (filter : List Insn) (st : State) : Outcome State Verdict → Prop
  | .next st' => st.pc.toNat < st'.pc.toNat ∧ st'.pc.toNat < filter.length
  | .stop v => Proper v

theorem onwardPast {d : BitVec 32} {st' : State} (here : st'.pc = st.pc + d + 1) (inside : st.pc.toNat + d.toNat + 1 < filter.length)
    (small : filter.length ≤ BPF_MAXINSNS) : st.pc.toNat < st'.pc.toNat ∧ st'.pc.toNat < filter.length := by
  have lands : st'.pc.toNat = st.pc.toNat + d.toNat + 1 := by
    unfold BPF_MAXINSNS at small
    have one : (1 : BitVec 32).toNat = 1 := rfl
    rw [here,toNat_add,toNat_add,Nat.mod_eq_of_lt (a := st.pc.toNat + d.toNat) (by omega)]
    exact Nat.mod_eq_of_lt (by omega)
  omega

theorem executeOnward (small : filter.length ≤ BPF_MAXINSNS) (inside : st.pc.toNat < filter.length)
    (pass : passes filter.length st.pc.toNat insn (demands op) = true)
    (last : st.pc.toNat + 1 = filter.length → op = .retK ∨ op = .retA) : Onward filter st (execute skb insn st op).2 := by
  have falls : demands op ≠ .jump → demands op ≠ .branch → Onward filter st (execute skb insn st op).2 := by
    intro noJump noBranch
    have out : Falls st (execute skb insn st op).2 := executeFalls noJump noBranch
    cases outcome : (execute skb insn st op).2 with
    | stop v =>
      rw [outcome] at out
      exact out
    | next st' =>
      rw [outcome] at out
      have more : st.pc.toNat + 1 ≠ filter.length := by
        intro final
        rcases last final with rfl | rfl <;> cases outcome
      exact onwardPast (by rw [BitVec.add_zero]; exact out) (by rw [BitVec.toNat_zero]; omega) small
  cases check : demands op with
  | jump =>
    have ja : op = .ja := by
      revert check
      cases op with
      | alu alu src => cases alu <;> cases src <;> simp [demands]
      | _ => simp [demands]
    subst ja
    simp only [check,passes,decide_eq_true_eq] at pass
    exact onwardPast rfl (by omega) small
  | branch =>
    obtain ⟨cond,src,rfl⟩ : ∃ cond src, op = .jump cond src := by
      revert check
      cases op with
      | alu alu src => cases alu <;> cases src <;> simp [demands]
      | jump cond src => exact fun _ => ⟨cond,src,rfl⟩
      | _ => simp [demands]
    simp only [check,passes,Bool.and_eq_true,decide_eq_true_eq] at pass
    refine onwardPast rfl ?_ small
    split
    · exact pass.1
    · exact pass.2
  | plain | divisor | scratch => exact falls (by simp [check]) (by simp [check])

/-! What an instruction reads, said from the packet and the registers: a load with a negative
offset that passes the test of its first byte, skb->dev, and the attribute headers that the
lengths in the packet lead to. -/

variable {P : Effect → Prop}

def Walk (skb : Skb) (P : Effect → Prop) (attrtype : BitVec 32) : Nat → BitVec 32 → Int → Prop
  | 0, _, _ => True
  | n+1, off, rem => ¬rem < NLA_HDRLEN → P (.attr off 2) ∧ ∀ nlaLen, readU16 skb off = some nlaLen →
      ¬(nlaLen.toNat < NLA_HDRLEN ∨ rem < nlaLen.toNat) → P (.attr (off + 2) 2) ∧ ∀ nlaType, readU16 skb (off + 2) = some nlaType →
        (nlaType &&& NLA_TYPE_MASK).setWidth 32 ≠ attrtype →
          Walk skb P attrtype n (off + BitVec.ofNat 32 (NLA_ALIGN nlaLen.toNat)) (rem - NLA_ALIGN nlaLen.toNat)

def HeaderMeets (P : Effect → Prop) (skb : Skb) (k : BitVec 32) (n : Nat) : Prop :=
  k.toInt < SKF_AD_OFF.toInt → skb.head ≤ negLoadAddress skb k → negLoadAddress skb k < skb.tail → P (.header (negLoadAddress skb k) n)

def AttrMeets (P : Effect → Prop) (skb : Skb) (st : State) : Prop :=
  ¬attrRefused skb st → Walk skb P st.X (skb.len - st.A).toInt.toNat st.A (skb.len - st.A).toInt

def NestMeets (P : Effect → Prop) (skb : Skb) (st : State) : Prop :=
  ¬attrRefused skb st → P (.attr st.A 2) ∧ ∀ nlaLen, readU16 skb st.A = some nlaLen → ¬st.A - skb.len < nlaLen.setWidth 32 →
    Walk skb P st.X ((nlaLen.toNat : Int) - NLA_HDRLEN).toNat (st.A + 4) ((nlaLen.toNat : Int) - NLA_HDRLEN)

structure LoadMeets (P : Effect → Prop) (skb : Skb) (st : State) (k : BitVec 32) (n : Nat) : Prop where
  header : HeaderMeets P skb k n
  device : k - SKF_AD_OFF = SKF_AD_IFINDEX → P .device
  attr : k - SKF_AD_OFF = SKF_AD_NLATTR → AttrMeets P skb st
  nest : k - SKF_AD_OFF = SKF_AD_NLATTR_NEST → NestMeets P skb st

def OpMeets (P : Effect → Prop) (skb : Skb) (insn : Insn) (st : State) : Op → Prop
  | .ldAbs size => LoadMeets P skb st insn.k size.bytes
  | .ldInd size => LoadMeets P skb st (st.X + insn.k) size.bytes
  | .ldxMsh => HeaderMeets P skb insn.k 1
  | _ => True

def Meets (P : Effect → Prop) (skb : Skb) (filter : List Insn) (st : State) : Prop :=
  ∀ insn, filter[st.pc.toNat]? = some insn → ∀ op, runSwitch.lookup insn.code = some op → OpMeets P skb insn st op

theorem nlaTouches : (∀ e ∈ (nlaLoop skb attrtype n off rem).1, P e) ↔ Walk skb P attrtype n off rem := by
  induction n generalizing off rem with
  | zero => simp [nlaLoop,Walk]
  | succ n ih =>
    rw [nlaLoop,Walk]
    split
    · simp [*]
    rename_i long
    rw [imp_iff_right long]
    cases readU16 skb off with
    | none => simp
    | some nlaLen =>
      simp only [Option.some.injEq,forall_eq']
      split
      · simp [*]
      rename_i fits
      rw [imp_iff_right fits]
      cases readU16 skb (off + 2) with
      | none => simp
      | some nlaType =>
        simp only [Option.some.injEq,forall_eq']
        split
        · simp [*]
        · rename_i other
          rw [imp_iff_right (show _ ≠ _ from other)]
          simp [ih]

theorem walkAll (all : ∀ off, P (.attr off 2)) : Walk skb P attrtype n off rem := by
  induction n generalizing off rem with
  | zero => trivial
  | succ n ih => exact fun _ => ⟨all _,fun _ _ _ => ⟨all _,fun _ _ _ => ih⟩⟩

theorem nlattrTouches : (∀ e ∈ (nlattr skb st).1, P e) ↔ AttrMeets P skb st := by
  unfold nlattr AttrMeets
  split
  · simp [*]
  · simp [*,nlaFind,nlaTouches]

theorem nlattrNestTouches : (∀ e ∈ (nlattrNest skb st).1, P e) ↔ NestMeets P skb st := by
  unfold nlattrNest NestMeets
  split
  · simp [*]
  rename_i admitted
  rw [imp_iff_right admitted]
  cases readU16 skb st.A with
  | none => simp
  | some nlaLen =>
    simp only [Option.some.injEq,forall_eq']
    split
    · simp [*]
    · simp [*,nlaFind,nlaTouches]

theorem loadPointerCases {ptr} (found : loadPointer skb k n = some ptr) :
    (0 ≤ k.toInt ∧ ∃ off, ptr = .packet off ∧ off + n ≤ skb.len.toNat) ∨
    (k.toInt < SKF_AD_OFF.toInt ∧ ptr = .header (negLoadAddress skb k) ∧ skb.head ≤ negLoadAddress skb k ∧ negLoadAddress skb k < skb.tail) := by
  unfold loadPointer at found
  split at found
  · unfold skbHeaderPointer at found
    split at found
    · cases found
      exact .inl ⟨‹_›,_,rfl,‹_›⟩
    · cases found
  split at found
  · cases found
  rename_i low
  simp only [negLoadPointer] at found
  split at found
  · rename_i inside
    cases found
    exact .inr ⟨Int.not_le.mp low,rfl,inside⟩
  · cases found

theorem headerTouches {ptr} (packet : ∀ off, off + n ≤ skb.len.toNat → P (.packet off n)) (found : loadPointer skb k n = some ptr) :
    P (touch ptr n) ↔ HeaderMeets P skb k n := by
  rcases loadPointerCases found with ⟨high,off,rfl,inside⟩ | ⟨low,rfl,first,last⟩
  · have never : ¬k.toInt < SKF_AD_OFF.toInt := by
      have negative : SKF_AD_OFF.toInt < 0 := by decide
      omega
    exact ⟨fun _ low => absurd low never,fun _ => packet off inside⟩
  · exact ⟨fun here _ _ _ => here,fun meets => meets low first last⟩

theorem headerNone (none_ : loadPointer skb k n = none) : HeaderMeets P skb k n := by
  intro low first last
  have negative : SKF_AD_OFF.toInt < 0 := by decide
  rw [loadPointer,if_neg (by omega),if_neg (by omega)] at none_
  simp [negLoadPointer,first,last] at none_

theorem notAncillary {ptr} {a : BitVec 32} (found : loadPointer skb k n = some ptr) (small : a.toNat < 4096) : k - SKF_AD_OFF ≠ a := by
  intro here
  have ad : SKF_AD_OFF.toInt = -4096 ∧ SKF_AD_OFF.toNat = 2^32 - 4096 := by decide
  have there : k.toInt = a.toNat - 4096 := by
    rw [← BitVec.sub_add_cancel k SKF_AD_OFF,here,toInt_eq_toNat_cond,toNat_add,Nat.mod_eq_of_lt (by omega)]
    split <;> omega
  rcases loadPointerCases found with ⟨high,_⟩ | ⟨low,_⟩ <;> omega

theorem ancillaryTouches : (∀ e ∈ (ancillary skb st k).1, P e) ↔ (k - SKF_AD_OFF = SKF_AD_IFINDEX → P .device) ∧
    (k - SKF_AD_OFF = SKF_AD_NLATTR → AttrMeets P skb st) ∧ (k - SKF_AD_OFF = SKF_AD_NLATTR_NEST → NestMeets P skb st) := by
  unfold ancillary
  split
  · simp [*,SKF_AD_PROTOCOL,SKF_AD_IFINDEX,SKF_AD_NLATTR,SKF_AD_NLATTR_NEST]
  split
  · simp [*,SKF_AD_PKTTYPE,SKF_AD_IFINDEX,SKF_AD_NLATTR,SKF_AD_NLATTR_NEST]
  split
  · cases skb.dev <;> simp [*,SKF_AD_IFINDEX,SKF_AD_NLATTR,SKF_AD_NLATTR_NEST]
  split
  · simp [*,nlattrTouches,SKF_AD_IFINDEX,SKF_AD_NLATTR,SKF_AD_NLATTR_NEST]
  split
  · simp [*,nlattrNestTouches,SKF_AD_IFINDEX,SKF_AD_NLATTR,SKF_AD_NLATTR_NEST]
  · simp [*]

section
variable {skb : Skb} (packet : ∀ off n, off + n ≤ skb.len.toNat → P (.packet off n))
include packet

theorem loadATouches : (∀ e ∈ (loadA skb st k size).1, P e) ↔ LoadMeets P skb st k size.bytes := by
  unfold loadA
  cases found : loadPointer skb k size.bytes with
  | none =>
    refine ancillaryTouches.trans ⟨fun ⟨device,attr,nest⟩ => ⟨headerNone found,device,attr,nest⟩,fun meets => ?_⟩
    exact ⟨meets.device,meets.attr,meets.nest⟩
  | some ptr =>
    have header := headerTouches (fun off => packet off _) found
    have only : P (touch ptr size.bytes) ↔ LoadMeets P skb st k size.bytes := by
      refine header.trans ⟨fun header => ⟨header,?_,?_,?_⟩,fun meets => meets.header⟩ <;>
        exact fun here => absurd here (notAncillary found (by decide))
    dsimp only
    cases readBytes skb ptr size.bytes <;> simpa using only

theorem loadMshTouches : (∀ e ∈ (loadMsh skb st k).1, P e) ↔ HeaderMeets P skb k 1 := by
  unfold loadMsh
  cases found : loadPointer skb k 1 with
  | none => simpa using headerNone found
  | some ptr =>
    dsimp only
    cases readBytes skb ptr 1 <;> simpa using headerTouches (fun off => packet off _) found

end

structure Usual (skb : Skb) (P : Effect → Prop) : Prop where
  packet : ∀ off n, off + n ≤ skb.len.toNat → P (.packet off n)
  load : ∀ i, P (.load i)
  store : ∀ i, P (.store i)
  divide : ∀ d, P (.divide d)

theorem executeTouches (usual : Usual skb P) : (∀ e ∈ (execute skb insn st op).1, P e) ↔ OpMeets P skb insn st op := by
  cases op with
  | alu alu src =>
    simp only [execute,runAlu,OpMeets]
    split
    · split <;> simp [usual.divide]
    · simp
  | ldAbs | ldInd => exact loadATouches usual.packet
  | ldxMsh => exact loadMshTouches usual.packet
  | ldMem | ldxMem => simp [execute,OpMeets,usual.load]
  | st | stx => simp [execute,OpMeets,usual.store]
  | neg | ja | jump | ldLen | ldxLen | ldImm | ldxImm | tax | txa | retK | retA => simp [execute,OpMeets]

theorem stepTouches (usual : Usual skb P) : (∀ e ∈ (step skb filter st).1, P e) ↔ Meets P skb filter st := by
  unfold step Meets
  split
  · rename_i beyond
    have none_ : filter[st.pc.toNat]? = none := by
      have small := toInt_eq_toNat_cond st.pc
      rw [List.getElem?_eq_none_iff]
      split at small <;> omega
    simp [none_]
  cases filter[st.pc.toNat]? with
  | none => simp
  | some insn =>
    simp only [some.injEq,forall_eq']
    cases runSwitch.lookup insn.code with
    | none => simp
    | some op => simpa using executeTouches usual

theorem runAluSafe (pass : passes flen pc insn (demands (.alu alu src)) = true) :
    ∀ e ∈ (runAlu insn st alu src).1, Safe e := by
  unfold runAlu
  split
  · rename_i div
    subst div
    split
    · simp
    rename_i nonzero
    cases src with
    | k => simpa [Safe,operand,demands,passes] using pass
    | x => simpa [Safe,operand] using nonzero
  · simp

theorem loadMeetsSafe : LoadMeets Safe skb st k n :=
  ⟨fun _ _ _ => trivial,fun _ => trivial,fun _ _ => walkAll fun _ => trivial,
    fun _ _ => ⟨trivial,fun _ _ _ => walkAll fun _ => trivial⟩⟩

theorem executeSafe (pass : passes flen pc insn (demands op) = true) : ∀ e ∈ (execute skb insn st op).1, Safe e := by
  cases op with
  | alu alu src => exact runAluSafe pass
  | ldAbs | ldInd => exact (loadATouches fun _ _ _ => trivial).mpr loadMeetsSafe
  | ldxMsh => exact (loadMshTouches fun _ _ _ => trivial).mpr fun _ _ _ => trivial
  | ldMem | ldxMem | st | stx => simpa [execute,Safe,demands,passes] using pass
  | neg | ja | jump | ldLen | ldxLen | ldImm | ldxImm | tax | txa | retK | retA => simp [execute]

theorem readU16Some : (readU16 skb off).isSome ↔ Readable skb (.attr off 2) := by
  have both : Readable skb (.attr off 2) ↔ (skb.memory (skb.data + off)).isSome ∧ (skb.memory (skb.data + off + 1)).isSome := by
    refine ⟨fun all => ⟨?_,all 1 (by decide)⟩,fun both i below => ?_⟩
    · have first := all 0 (by decide)
      rwa [BitVec.add_zero] at first
    · match i,below with
      | 0,_ =>
        rw [BitVec.add_zero]
        exact both.1
      | 1,_ => exact both.2
  rw [both,readU16]
  cases skb.memory (skb.data + off) with
  | none => simp
  | some low => cases skb.memory (skb.data + off + 1) <;> simp

theorem mapMSome {α β : Type} {f : α → Option β} {l : List α} : (l.mapM f).isSome ↔ ∀ a ∈ l, (f a).isSome := by
  induction l with
  | nil => simp
  | cons a rest ih =>
    rw [mapM_cons,forall_mem_cons,← ih]
    cases f a with
    | none => simp
    | some b => cases rest.mapM f <;> simp

theorem readBytesSome {ptr} : (readBytes skb ptr n).isSome ↔ Readable skb (touch ptr n) := by
  cases ptr with
  | packet off => simp [readBytes,touch,Readable]
  | header addr => simp [readBytes,touch,Readable,mapMSome]

theorem nlaFaults : (nlaLoop skb attrtype n off rem).2 ≠ .fault ↔ ∀ e ∈ (nlaLoop skb attrtype n off rem).1, Readable skb e := by
  induction n generalizing off rem with
  | zero => simp [nlaLoop]
  | succ n ih =>
    rw [nlaLoop]
    split
    · simp
    cases first : readU16 skb off with
    | none => simp [← readU16Some,first]
    | some nlaLen =>
      dsimp only
      split
      · simp [← readU16Some,first]
      cases second : readU16 skb (off + 2) with
      | none => simp only [forall_mem_cons,← readU16Some,first,second]; simp
      | some nlaType =>
        dsimp only
        split
        · simp only [forall_mem_cons,← readU16Some,first,second]; simp
        · rw [forall_mem_cons,forall_mem_cons,← readU16Some,← readU16Some,first,second]
          simpa using ih

theorem setFoundFaults {found : Found} : setFound st found ≠ .stop .fault ↔ found ≠ .fault := by
  cases found <;> simp [setFound,goOn]

theorem ancillaryFaults : (ancillary skb st k).2 ≠ .stop .fault ↔ ∀ e ∈ (ancillary skb st k).1, Readable skb e := by
  unfold ancillary
  split
  · simp [goOn]
  split
  · simp [goOn]
  split
  · cases dev : skb.dev <;> simp [goOn,Readable,dev]
  split
  · unfold nlattr
    split
    · simp
    · exact setFoundFaults.trans nlaFaults
  split
  · unfold nlattrNest
    split
    · simp
    cases first : readU16 skb st.A with
    | none => simp [← readU16Some,first]
    | some nlaLen =>
      dsimp only
      split
      · simp [← readU16Some,first]
      · rw [forall_mem_cons,← readU16Some,first,setFoundFaults]
        simpa [nlaFind] using nlaFaults
  · simp

theorem loadAFaults : (loadA skb st k size).2 ≠ .stop .fault ↔ ∀ e ∈ (loadA skb st k size).1, Readable skb e := by
  unfold loadA
  cases loadPointer skb k size.bytes with
  | none => exact ancillaryFaults
  | some ptr =>
    dsimp only
    cases bytes : readBytes skb ptr size.bytes <;> simp [← readBytesSome,bytes,goOn]

theorem loadMshFaults : (loadMsh skb st k).2 ≠ .stop .fault ↔ ∀ e ∈ (loadMsh skb st k).1, Readable skb e := by
  unfold loadMsh
  cases loadPointer skb k 1 with
  | none => simp
  | some ptr =>
    dsimp only
    cases bytes : readBytes skb ptr 1 <;> simp [← readBytesSome,bytes,goOn]

theorem executeFaults : (execute skb insn st op).2 ≠ .stop .fault ↔ ∀ e ∈ (execute skb insn st op).1, Readable skb e := by
  cases op with
  | alu alu src =>
    simp only [execute,runAlu]
    split
    · split <;> simp [goOn,Readable]
    · simp [goOn]
  | ldAbs | ldInd => exact loadAFaults
  | ldxMsh => exact loadMshFaults
  | neg | ja | jump | ldLen | ldxLen | ldImm | ldxImm | ldMem | ldxMem | tax | txa | retK | retA | st | stx =>
    simp [execute,goOn,Readable]

theorem readableUsual : Usual skb (Readable skb) := ⟨fun _ _ _ => trivial,fun _ => trivial,fun _ => trivial,fun _ => trivial⟩

theorem stepChecked (checked : Checked filter) (inside : st.pc.toNat < filter.length) :
    Onward filter st (step skb filter st).2 ∧ (∀ e ∈ (step skb filter st).1, Safe e) ∧
    ((step skb filter st).2 ≠ .stop .fault ↔ Meets (Readable skb) skb filter st) := by
  have small := checked.small
  have here : filter[st.pc.toNat]? = some filter[st.pc.toNat] := getElem?_eq_getElem inside
  obtain ⟨op,found,pass,last⟩ := checked.each here
  have signed : st.pc.toInt = st.pc.toNat := toInt_eq_toNat_of_lt (by unfold BPF_MAXINSNS at small; omega)
  have taken : step skb filter st = execute skb filter[st.pc.toNat] st op := by
    rw [step,if_neg (by rw [signed]; omega),here]
    simp [found]
  rw [← stepTouches readableUsual,taken]
  exact ⟨executeOnward small inside pass last,executeSafe pass,executeFaults⟩

end

theorem checkedFilterSafe (skb : Skb) (filter : List Insn) (mem : Nat → BitVec 32) (accepted : skChkFilter filter = 0) :
    (∃ v, (skRunFilter skb filter mem).2 = some v ∧ v ≠ .unknown ∧ v ≠ .ended) ∧
    (∀ visit ∈ (skRunFilter skb filter mem).1, visit.state.pc.toNat < filter.length ∧ ∀ e ∈ visit.events, Safe e) ∧
    (skRunFilter skb filter mem).1.IsChain (fun a b => a.state.pc.toNat < b.state.pc.toNat) ∧
    ((∃ v, (skRunFilter skb filter mem).2 = some (.ret v)) ∨ (skRunFilter skb filter mem).2 = some .early ↔
      ∀ visit ∈ (skRunFilter skb filter mem).1, Meets (Readable skb) skb filter visit.state) := by
  have checked := acceptedChecked accepted
  have first := checked.nonempty
  have onward : ∀ st st', st.pc.toNat < filter.length → (step skb filter st).2 = .next st' →
      st'.pc.toNat < filter.length ∧ st.pc.toNat < st'.pc.toNat := by
    intro st st' inside out
    have moves : Onward filter st (step skb filter st).2 := (stepChecked checked inside).1
    rw [out] at moves
    exact ⟨moves.2,moves.1⟩
  have visits : ∀ visit ∈ (skRunFilter skb filter mem).1, visit.state.pc.toNat < filter.length ∧
      visit.events = (step skb filter visit.state).1 ∧ ∀ v, (step skb filter visit.state).2 = .stop v → (skRunFilter skb filter mem).2 = some v :=
    visitReached (fun st st' inside out => (onward st st' inside out).1) first
  obtain ⟨v,verdict⟩ : ∃ v, (skRunFilter skb filter mem).2 = some v := by
    refine verdictReached (fun st => st.pc.toNat < filter.length) (fun st => filter.length - 1 - st.pc.toNat)
      (fun st st' inside out => ?_) first (by omega)
    have moves := onward st st' inside out
    exact ⟨moves.1,by omega⟩
  obtain ⟨last,among,stops⟩ := verdictVisited verdict
  have proper : Onward filter last.state (step skb filter last.state).2 := (stepChecked checked (visits last among).1).1
  rw [stops] at proper
  -- a fault ends the run, so there is none exactly if no visit faults
  have faults : v ≠ .fault ↔ ∀ visit ∈ (skRunFilter skb filter mem).1, Meets (Readable skb) skb filter visit.state := by
    refine ⟨fun alive visit mem => ?_,fun meets bad => ?_⟩
    · obtain ⟨inside,_,ends⟩ := visits visit mem
      refine (stepChecked checked inside).2.2.mp fun bad => alive ?_
      rw [ends _ bad] at verdict
      exact (some.inj verdict).symm
    · exact (stepChecked checked (visits last among).1).2.2.mpr (meets last among) (bad ▸ stops)
  refine ⟨⟨v,verdict,?_,?_⟩,fun visit mem => ?_,visitChain onward first,?_⟩
  · rintro rfl
    exact proper
  · rintro rfl
    exact proper
  · obtain ⟨inside,events,_⟩ := visits visit mem
    rw [events]
    exact ⟨inside,(stepChecked checked inside).2.1⟩
  · rw [← faults,verdict]
    cases v with
    | ret v => simp
    | early => simp
    | fault => simp
    | unknown | ended => exact proper.elim

def emptySkb : Skb where
  len := 0
  dataLen := 0
  head := 0
  data := 0
  tail := 0
  networkHeader := 0
  macHeader := 0
  protocol := 0
  pktType := 0
  dev := none
  bytes := fun _ => 0
  memory := fun _ => none

def loadIfindex : List Insn :=
  [⟨BPF_LD ||| BPF_W ||| BPF_ABS,0,0,SKF_AD_OFF + SKF_AD_IFINDEX⟩, ⟨BPF_RET ||| BPF_A,0,0,0⟩]

def deviceSkb : Skb := {emptySkb with dev := some 3}

theorem deviceFilterSafe : skChkFilter loadIfindex = 0 ∧ (∃ v, (skRunFilter deviceSkb loadIfindex fun _ => 0).2 = some (.ret v)) := by
  obtain ⟨_,_,_,ends⟩ := checkedFilterSafe deviceSkb loadIfindex (fun _ => 0) (by decide)
  have meets : ∀ visit ∈ (skRunFilter deviceSkb loadIfindex fun _ => 0).1, Meets (Readable deviceSkb) deviceSkb loadIfindex visit.state := by
    intro visit mem insn here op found
    rcases mem_cons.mp mem with rfl | mem
    · cases here
      cases found
      exact ⟨fun low => absurd low (by decide),fun _ => rfl,fun attr => absurd attr (by decide),fun nest => absurd nest (by decide)⟩
    · cases mem_singleton.mp mem
      cases here
      cases found
      trivial
  exact ⟨by decide,(ends.mpr meets).resolve_right (by decide)⟩

theorem missingDeviceFaults : skChkFilter loadIfindex = 0 ∧ (skRunFilter emptySkb loadIfindex fun _ => 0).2 = some .fault := by
  decide

end EclairKernel.Filter
