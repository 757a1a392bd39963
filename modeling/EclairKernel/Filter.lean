import EclairKernel.Machine
import Mathlib.Logic.Function.Basic

/-! net/core/filter.c: the interpreter and the checker of socket filters, with nla_find of
net/netlink/attr.c. Addresses are 32 bits wide. What skb_header_pointer gives is read from the
bytes of the packet, every other pointer from kernel memory, where an address may not be mapped;
following it, or a NULL skb->dev, is a fault. Each step lists what it touched. -/
namespace EclairKernel.Filter
open Machine (Outcome)

def BPF_LD : BitVec 16 := 0x00
def BPF_LDX : BitVec 16 := 0x01
def BPF_ST : BitVec 16 := 0x02
def BPF_STX : BitVec 16 := 0x03
def BPF_ALU : BitVec 16 := 0x04
def BPF_JMP : BitVec 16 := 0x05
def BPF_RET : BitVec 16 := 0x06
def BPF_MISC : BitVec 16 := 0x07
def BPF_W : BitVec 16 := 0x00
def BPF_H : BitVec 16 := 0x08
def BPF_B : BitVec 16 := 0x10
def BPF_IMM : BitVec 16 := 0x00
def BPF_ABS : BitVec 16 := 0x20
def BPF_IND : BitVec 16 := 0x40
def BPF_MEM : BitVec 16 := 0x60
def BPF_LEN : BitVec 16 := 0x80
def BPF_MSH : BitVec 16 := 0xa0
def BPF_ADD : BitVec 16 := 0x00
def BPF_SUB : BitVec 16 := 0x10
def BPF_MUL : BitVec 16 := 0x20
def BPF_DIV : BitVec 16 := 0x30
def BPF_OR : BitVec 16 := 0x40
def BPF_AND : BitVec 16 := 0x50
def BPF_LSH : BitVec 16 := 0x60
def BPF_RSH : BitVec 16 := 0x70
def BPF_NEG : BitVec 16 := 0x80
def BPF_JA : BitVec 16 := 0x00
def BPF_JEQ : BitVec 16 := 0x10
def BPF_JGT : BitVec 16 := 0x20
def BPF_JGE : BitVec 16 := 0x30
def BPF_JSET : BitVec 16 := 0x40
def BPF_K : BitVec 16 := 0x00
def BPF_X : BitVec 16 := 0x08
def BPF_A : BitVec 16 := 0x10
def BPF_TAX : BitVec 16 := 0x00
def BPF_TXA : BitVec 16 := 0x80
def BPF_CLASS (code : BitVec 16) : BitVec 16 := code &&& 0x07
def BPF_MAXINSNS : Nat := 4096
def BPF_MEMWORDS : Nat := 16
def SKF_AD_OFF : BitVec 32 := BitVec.ofInt 32 (-0x1000)
def SKF_AD_PROTOCOL : BitVec 32 := 0
def SKF_AD_PKTTYPE : BitVec 32 := 4
def SKF_AD_IFINDEX : BitVec 32 := 8
def SKF_AD_NLATTR : BitVec 32 := 12
def SKF_AD_NLATTR_NEST : BitVec 32 := 16
def SKF_NET_OFF : BitVec 32 := BitVec.ofInt 32 (-0x100000)
def SKF_LL_OFF : BitVec 32 := BitVec.ofInt 32 (-0x200000)
def NLA_HDRLEN : Nat := 4
def NLA_TYPE_MASK : BitVec 16 := 0x3fff
def NLA_ALIGN (len : Nat) : Nat := (len + 3) / 4 * 4
def EINVAL : Int := 22

structure Insn where
  code : BitVec 16
  jt : BitVec 8
  jf : BitVec 8
  k : BitVec 32
  deriving DecidableEq, Repr

inductive Src where
  | k
  | x
  deriving DecidableEq, Repr

inductive Alu where
  | add
  | sub
  | mul
  | div
  | and
  | or
  | lsh
  | rsh
  deriving DecidableEq, Repr

inductive Cond where
  | jgt
  | jge
  | jeq
  | jset
  deriving DecidableEq, Repr

inductive Size where
  | w
  | h
  | b
  deriving DecidableEq, Repr

def Size.bytes : Size → Nat
  | .w => 4
  | .h => 2
  | .b => 1

inductive Op where
  | alu (op : Alu) (src : Src)
  | neg
  | ja
  | jump (cond : Cond) (src : Src)
  | ldAbs (size : Size)
  | ldInd (size : Size)
  | ldLen
  | ldxLen
  | ldxMsh
  | ldImm
  | ldxImm
  | ldMem
  | ldxMem
  | tax
  | txa
  | retK
  | retA
  | st
  | stx
  deriving DecidableEq, Repr

def runSwitch : List (BitVec 16 × Op) :=
  [(BPF_ALU ||| BPF_ADD ||| BPF_X,.alu .add .x), (BPF_ALU ||| BPF_ADD ||| BPF_K,.alu .add .k),
   (BPF_ALU ||| BPF_SUB ||| BPF_X,.alu .sub .x), (BPF_ALU ||| BPF_SUB ||| BPF_K,.alu .sub .k),
   (BPF_ALU ||| BPF_MUL ||| BPF_X,.alu .mul .x), (BPF_ALU ||| BPF_MUL ||| BPF_K,.alu .mul .k),
   (BPF_ALU ||| BPF_DIV ||| BPF_X,.alu .div .x), (BPF_ALU ||| BPF_DIV ||| BPF_K,.alu .div .k),
   (BPF_ALU ||| BPF_AND ||| BPF_X,.alu .and .x), (BPF_ALU ||| BPF_AND ||| BPF_K,.alu .and .k),
   (BPF_ALU ||| BPF_OR ||| BPF_X,.alu .or .x), (BPF_ALU ||| BPF_OR ||| BPF_K,.alu .or .k),
   (BPF_ALU ||| BPF_LSH ||| BPF_X,.alu .lsh .x), (BPF_ALU ||| BPF_LSH ||| BPF_K,.alu .lsh .k),
   (BPF_ALU ||| BPF_RSH ||| BPF_X,.alu .rsh .x), (BPF_ALU ||| BPF_RSH ||| BPF_K,.alu .rsh .k),
   (BPF_ALU ||| BPF_NEG,.neg), (BPF_JMP ||| BPF_JA,.ja),
   (BPF_JMP ||| BPF_JGT ||| BPF_K,.jump .jgt .k), (BPF_JMP ||| BPF_JGE ||| BPF_K,.jump .jge .k),
   (BPF_JMP ||| BPF_JEQ ||| BPF_K,.jump .jeq .k), (BPF_JMP ||| BPF_JSET ||| BPF_K,.jump .jset .k),
   (BPF_JMP ||| BPF_JGT ||| BPF_X,.jump .jgt .x), (BPF_JMP ||| BPF_JGE ||| BPF_X,.jump .jge .x),
   (BPF_JMP ||| BPF_JEQ ||| BPF_X,.jump .jeq .x), (BPF_JMP ||| BPF_JSET ||| BPF_X,.jump .jset .x),
   (BPF_LD ||| BPF_W ||| BPF_ABS,.ldAbs .w), (BPF_LD ||| BPF_H ||| BPF_ABS,.ldAbs .h),
   (BPF_LD ||| BPF_B ||| BPF_ABS,.ldAbs .b), (BPF_LD ||| BPF_W ||| BPF_LEN,.ldLen),
   (BPF_LDX ||| BPF_W ||| BPF_LEN,.ldxLen), (BPF_LD ||| BPF_W ||| BPF_IND,.ldInd .w),
   (BPF_LD ||| BPF_H ||| BPF_IND,.ldInd .h), (BPF_LD ||| BPF_B ||| BPF_IND,.ldInd .b),
   (BPF_LDX ||| BPF_B ||| BPF_MSH,.ldxMsh), (BPF_LD ||| BPF_IMM,.ldImm), (BPF_LDX ||| BPF_IMM,.ldxImm),
   (BPF_LD ||| BPF_MEM,.ldMem), (BPF_LDX ||| BPF_MEM,.ldxMem), (BPF_MISC ||| BPF_TAX,.tax),
   (BPF_MISC ||| BPF_TXA,.txa), (BPF_RET ||| BPF_K,.retK), (BPF_RET ||| BPF_A,.retA),
   (BPF_ST,.st), (BPF_STX,.stx)]

structure Skb where
  len : BitVec 32
  dataLen : BitVec 32
  head : BitVec 32
  data : BitVec 32
  tail : BitVec 32
  networkHeader : BitVec 32
  macHeader : BitVec 32
  protocol : BitVec 16
  pktType : BitVec 3
  dev : Option (BitVec 32)
  bytes : Nat → BitVec 8
  memory : BitVec 32 → Option (BitVec 8)

structure State where
  pc : BitVec 32
  A : BitVec 32
  X : BitVec 32
  mem : Nat → BitVec 32

inductive Effect where
  | packet (off n : Nat)
  | header (addr : BitVec 32) (n : Nat)
  | attr (off : BitVec 32) (n : Nat)
  | device
  | load (i : Nat)
  | store (i : Nat)
  | divide (d : BitVec 32)
  deriving DecidableEq, Repr

inductive Verdict where
  | ret (v : BitVec 32)
  | early
  | unknown
  | ended
  | fault
  deriving DecidableEq, Repr

inductive Pointer where
  | packet (off : Nat)
  | header (addr : BitVec 32)
  deriving DecidableEq, Repr

def skbHeaderPointer (skb : Skb) (offset : BitVec 32) (len : Nat) : Option Pointer :=
  if offset.toNat + len ≤ skb.len.toNat then some (.packet offset.toNat) else none

-- the pointer of __load_pointer before its test
def negLoadAddress (skb : Skb) (k : BitVec 32) : BitVec 32 :=
  if SKF_NET_OFF.toInt ≤ k.toInt then skb.networkHeader + k - SKF_NET_OFF
  else if SKF_LL_OFF.toInt ≤ k.toInt then skb.macHeader + k - SKF_LL_OFF
  else 0

def negLoadPointer (skb : Skb) (k : BitVec 32) : Option Pointer :=
  let ptr := negLoadAddress skb k
  if skb.head ≤ ptr ∧ ptr < skb.tail then some (.header ptr) else none

def loadPointer (skb : Skb) (k : BitVec 32) (size : Nat) : Option Pointer :=
  if 0 ≤ k.toInt then skbHeaderPointer skb k size
  else if SKF_AD_OFF.toInt ≤ k.toInt then none
  else negLoadPointer skb k

def touch : Pointer → Nat → Effect
  | .packet off, n => .packet off n
  | .header addr, n => .header addr n

def readBytes (skb : Skb) : Pointer → Nat → Option (List (BitVec 8))
  | .packet off, n => some ((List.range n).map fun i => skb.bytes (off + i))
  | .header addr, n => (List.range n).mapM fun i => skb.memory (addr + BitVec.ofNat 32 i)

def bigEndian (bytes : List (BitVec 8)) : BitVec 32 := bytes.foldl (fun acc b => acc <<< 8 ||| b.setWidth 32) 0

def ntohs (x : BitVec 16) : BitVec 16 := x.extractLsb' 0 8 ++ x.extractLsb' 8 8

def readU16 (skb : Skb) (off : BitVec 32) : Option (BitVec 16) := do
  let low ← skb.memory (skb.data + off)
  let high ← skb.memory (skb.data + off + 1)
  some (high ++ low)

inductive Found where
  | hit (off : BitVec 32)
  | absent
  | fault
  deriving DecidableEq, Repr

/-- nla_for_each_attr from skb->data + off with rem bytes left: every round takes at least
NLA_HDRLEN of them, so as many rounds as bytes are enough. -/
def nlaLoop (skb : Skb) (attrtype : BitVec 32) : Nat → BitVec 32 → Int → List Effect × Found
  | 0, _, _ => ([],.absent)
  | n+1, off, rem =>
    if rem < NLA_HDRLEN then ([],.absent)
    else match readU16 skb off with
      | none => ([.attr off 2],.fault)
      | some nlaLen =>
        if nlaLen.toNat < NLA_HDRLEN ∨ rem < nlaLen.toNat then ([.attr off 2],.absent)
        else match readU16 skb (off + 2) with
          | none => ([.attr off 2,.attr (off + 2) 2],.fault)
          | some nlaType =>
            if (nlaType &&& NLA_TYPE_MASK).setWidth 32 = attrtype then ([.attr off 2,.attr (off + 2) 2],.hit off)
            else
              let totlen := NLA_ALIGN nlaLen.toNat
              let rest := nlaLoop skb attrtype n (off + BitVec.ofNat 32 totlen) (rem - totlen)
              (.attr off 2::.attr (off + 2) 2::rest.1,rest.2)

def nlaFind (skb : Skb) (off : BitVec 32) (len : Int) (attrtype : BitVec 32) : List Effect × Found :=
  nlaLoop skb attrtype len.toNat off len

abbrev Result := List Effect × Outcome State Verdict

def goOn (st : State) : Outcome State Verdict := .next {st with pc := st.pc + 1}

def setFound (st : State) : Found → Outcome State Verdict
  | .hit off => goOn {st with A := off}
  | .absent => goOn {st with A := 0}
  | .fault => .stop .fault

-- skb_is_nonlinear(skb) || A > skb->len - sizeof(struct nlattr)
def attrRefused (skb : Skb) (st : State) : Prop := skb.dataLen ≠ 0 ∨ skb.len - 4 < st.A

instance (skb : Skb) (st : State) : Decidable (attrRefused skb st) := inferInstanceAs (Decidable (_ ∨ _))

def nlattr (skb : Skb) (st : State) : Result :=
  if attrRefused skb st then ([],.stop .early)
  else
    let found := nlaFind skb st.A (skb.len - st.A).toInt st.X
    (found.1,setFound st found.2)

def nlattrNest (skb : Skb) (st : State) : Result :=
  if attrRefused skb st then ([],.stop .early)
  else match readU16 skb st.A with
    | none => ([.attr st.A 2],.stop .fault)
    | some nlaLen =>
      if st.A - skb.len < nlaLen.setWidth 32 then ([.attr st.A 2],.stop .early)
      else
        let found := nlaFind skb (st.A + 4) ((nlaLen.toNat : Int) - NLA_HDRLEN) st.X
        (.attr st.A 2::found.1,setFound st found.2)

def ancillary (skb : Skb) (st : State) (k : BitVec 32) : Result :=
  if k - SKF_AD_OFF = SKF_AD_PROTOCOL then ([],goOn {st with A := (ntohs skb.protocol).setWidth 32})
  else if k - SKF_AD_OFF = SKF_AD_PKTTYPE then ([],goOn {st with A := skb.pktType.setWidth 32})
  else if k - SKF_AD_OFF = SKF_AD_IFINDEX then
    match skb.dev with
    | some ifindex => ([.device],goOn {st with A := ifindex})
    | none => ([.device],.stop .fault)
  else if k - SKF_AD_OFF = SKF_AD_NLATTR then nlattr skb st
  else if k - SKF_AD_OFF = SKF_AD_NLATTR_NEST then nlattrNest skb st
  else ([],.stop .early)

def loadA (skb : Skb) (st : State) (k : BitVec 32) (size : Size) : Result :=
  match loadPointer skb k size.bytes with
  | none => ancillary skb st k
  | some ptr =>
    match readBytes skb ptr size.bytes with
    | none => ([touch ptr size.bytes],.stop .fault)
    | some bytes => ([touch ptr size.bytes],goOn {st with A := bigEndian bytes})

def loadMsh (skb : Skb) (st : State) (k : BitVec 32) : Result :=
  match loadPointer skb k 1 with
  | none => ([],.stop .early)
  | some ptr =>
    match readBytes skb ptr 1 with
    | none => ([touch ptr 1],.stop .fault)
    | some bytes => ([touch ptr 1],goOn {st with X := (bigEndian bytes &&& 0xf) <<< 2})

def operand (insn : Insn) (st : State) : Src → BitVec 32
  | .k => insn.k
  | .x => st.X

def compute : Alu → BitVec 32 → BitVec 32 → BitVec 32
  | .add, a, v => a + v
  | .sub, a, v => a - v
  | .mul, a, v => a * v
  | .div, a, v => a / v
  | .and, a, v => a &&& v
  | .or, a, v => a ||| v
  | .lsh, a, v => a <<< (v.toNat % 256)
  | .rsh, a, v => a >>> (v.toNat % 256)

def runAlu (insn : Insn) (st : State) (op : Alu) (src : Src) : Result :=
  let v := operand insn st src
  if op = .div then
    if src = .x ∧ st.X = 0 then ([],.stop .early) else ([.divide v],goOn {st with A := compute op st.A v})
  else ([],goOn {st with A := compute op st.A v})

def holds : Cond → BitVec 32 → BitVec 32 → Bool
  | .jgt, a, v => decide (v < a)
  | .jge, a, v => decide (v ≤ a)
  | .jeq, a, v => decide (a = v)
  | .jset, a, v => decide (a &&& v ≠ 0)

def execute (skb : Skb) (insn : Insn) (st : State) : Op → Result
  | .alu op src => runAlu insn st op src
  | .neg => ([],goOn {st with A := -st.A})
  | .ja => ([],goOn {st with pc := st.pc + insn.k})
  | .jump cond src =>
    ([],goOn {st with pc := st.pc + (if holds cond st.A (operand insn st src) then insn.jt else insn.jf).setWidth 32})
  | .ldAbs size => loadA skb st insn.k size
  | .ldInd size => loadA skb st (st.X + insn.k) size
  | .ldLen => ([],goOn {st with A := skb.len})
  | .ldxLen => ([],goOn {st with X := skb.len})
  | .ldxMsh => loadMsh skb st insn.k
  | .ldImm => ([],goOn {st with A := insn.k})
  | .ldxImm => ([],goOn {st with X := insn.k})
  | .ldMem => ([.load insn.k.toNat],goOn {st with A := st.mem insn.k.toNat})
  | .ldxMem => ([.load insn.k.toNat],goOn {st with X := st.mem insn.k.toNat})
  | .tax => ([],goOn {st with X := st.A})
  | .txa => ([],goOn {st with A := st.X})
  | .retK => ([],.stop (.ret insn.k))
  | .retA => ([],.stop (.ret st.A))
  | .st => ([.store insn.k.toNat],goOn {st with mem := Function.update st.mem insn.k.toNat st.A})
  | .stx => ([.store insn.k.toNat],goOn {st with mem := Function.update st.mem insn.k.toNat st.X})

def step (skb : Skb) (filter : List Insn) (st : State) : Result :=
  if (filter.length : Int) ≤ st.pc.toInt then ([],.stop .ended)
  else match filter[st.pc.toNat]? with
    | none => ([],.stop .fault)
    | some insn =>
      match runSwitch.lookup insn.code with
      | none => ([],.stop .unknown)
      | some op => execute skb insn st op

def start (mem : Nat → BitVec 32) : State := ⟨0,0,0,mem⟩

abbrev Visit := Machine.Visit State Effect

def skRunFilter (skb : Skb) (filter : List Insn) (mem : Nat → BitVec 32) : List Visit × Option Verdict :=
  Machine.run (step skb filter) filter.length (start mem)

inductive Check where
  | plain
  | divisor
  | scratch
  | jump
  | branch
  deriving DecidableEq, Repr

def checkSwitch : List (BitVec 16 × Check) :=
  [(BPF_ALU ||| BPF_ADD ||| BPF_K,.plain), (BPF_ALU ||| BPF_ADD ||| BPF_X,.plain),
   (BPF_ALU ||| BPF_SUB ||| BPF_K,.plain), (BPF_ALU ||| BPF_SUB ||| BPF_X,.plain),
   (BPF_ALU ||| BPF_MUL ||| BPF_K,.plain), (BPF_ALU ||| BPF_MUL ||| BPF_X,.plain),
   (BPF_ALU ||| BPF_DIV ||| BPF_X,.plain), (BPF_ALU ||| BPF_AND ||| BPF_K,.plain),
   (BPF_ALU ||| BPF_AND ||| BPF_X,.plain), (BPF_ALU ||| BPF_OR ||| BPF_K,.plain),
   (BPF_ALU ||| BPF_OR ||| BPF_X,.plain), (BPF_ALU ||| BPF_LSH ||| BPF_K,.plain),
   (BPF_ALU ||| BPF_LSH ||| BPF_X,.plain), (BPF_ALU ||| BPF_RSH ||| BPF_K,.plain),
   (BPF_ALU ||| BPF_RSH ||| BPF_X,.plain), (BPF_ALU ||| BPF_NEG,.plain),
   (BPF_LD ||| BPF_W ||| BPF_ABS,.plain), (BPF_LD ||| BPF_H ||| BPF_ABS,.plain),
   (BPF_LD ||| BPF_B ||| BPF_ABS,.plain), (BPF_LD ||| BPF_W ||| BPF_LEN,.plain),
   (BPF_LD ||| BPF_W ||| BPF_IND,.plain), (BPF_LD ||| BPF_H ||| BPF_IND,.plain),
   (BPF_LD ||| BPF_B ||| BPF_IND,.plain), (BPF_LD ||| BPF_IMM,.plain), (BPF_LDX ||| BPF_W ||| BPF_LEN,.plain),
   (BPF_LDX ||| BPF_B ||| BPF_MSH,.plain), (BPF_LDX ||| BPF_IMM,.plain), (BPF_MISC ||| BPF_TAX,.plain),
   (BPF_MISC ||| BPF_TXA,.plain), (BPF_RET ||| BPF_K,.plain), (BPF_RET ||| BPF_A,.plain),
   (BPF_ALU ||| BPF_DIV ||| BPF_K,.divisor),
   (BPF_LD ||| BPF_MEM,.scratch), (BPF_LDX ||| BPF_MEM,.scratch), (BPF_ST,.scratch), (BPF_STX,.scratch),
   (BPF_JMP ||| BPF_JA,.jump),
   (BPF_JMP ||| BPF_JEQ ||| BPF_K,.branch), (BPF_JMP ||| BPF_JEQ ||| BPF_X,.branch),
   (BPF_JMP ||| BPF_JGE ||| BPF_K,.branch), (BPF_JMP ||| BPF_JGE ||| BPF_X,.branch),
   (BPF_JMP ||| BPF_JGT ||| BPF_K,.branch), (BPF_JMP ||| BPF_JGT ||| BPF_X,.branch),
   (BPF_JMP ||| BPF_JSET ||| BPF_K,.branch), (BPF_JMP ||| BPF_JSET ||| BPF_X,.branch)]

def passes (flen pc : Nat) (ftest : Insn) : Check → Bool
  | .plain => true
  | .divisor => decide (ftest.k ≠ 0)
  | .scratch => decide (ftest.k.toNat < BPF_MEMWORDS)
  | .jump => decide (ftest.k.toNat < flen - pc - 1)
  | .branch => decide (pc + ftest.jt.toNat + 1 < flen) && decide (pc + ftest.jf.toNat + 1 < flen)

def checkInsn (flen pc : Nat) (ftest : Insn) : Bool :=
  match checkSwitch.lookup ftest.code with
  | none => false
  | some check => passes flen pc ftest check

def checkLoop (flen : Nat) : Nat → List Insn → Bool
  | _, [] => true
  | pc, ftest::rest => checkInsn flen pc ftest && checkLoop flen (pc+1) rest

def endsInRet (filter : List Insn) : Bool :=
  match filter.getLast? with
  | none => false
  | some last => decide (BPF_CLASS last.code = BPF_RET)

def skChkFilter (filter : List Insn) : Int :=
  if filter.length = 0 ∨ BPF_MAXINSNS < filter.length then -EINVAL
  else if checkLoop filter.length 0 filter then
    if endsInRet filter then 0 else -EINVAL
  else -EINVAL

end EclairKernel.Filter
