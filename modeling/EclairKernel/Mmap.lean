import EclairKernel.Rbtree
import EclairKernel.Run
import Mathlib.Data.Nat.ModEq
import Mathlib.Logic.Function.Basic
import Mathlib.Tactic.Simps.Basic

/-! mm/mmap.c and mprotect_fixup of mm/mprotect.c: the VMAs of one mm, in the list from
mm->mmap and in the tree mm_rb. A VMA is named by its address, vm_next is kept beside the
other fields, and an address is not used again after kmem_cache_free. A BUG_ON that fires and
a NULL pointer that is followed are no result. What the allocator, the limits and the tests of
anon_vma, vm_ops and policy answer is handed in call by call. -/
namespace EclairKernel.Mmap
open Function Rbtree

def word : Nat := 2^32
def PAGE_SHIFT : Nat := 12
def PAGE_SIZE : Nat := 4096
def TASK_SIZE : Nat := 0xBF000000
def ENOMEM : Int := 12
def EINVAL : Int := 22

def VM_READ : BitVec 32 := 0x00000001
def VM_WRITE : BitVec 32 := 0x00000002
def VM_SHARED : BitVec 32 := 0x00000008
def VM_MAYREAD : BitVec 32 := 0x00000010
def VM_MAYWRITE : BitVec 32 := 0x00000020
def VM_MAYEXEC : BitVec 32 := 0x00000040
def VM_PFNMAP : BitVec 32 := 0x00000400
def VM_IO : BitVec 32 := 0x00004000
def VM_DONTEXPAND : BitVec 32 := 0x00040000
def VM_RESERVED : BitVec 32 := 0x00080000
def VM_ACCOUNT : BitVec 32 := 0x00100000
def VM_NORESERVE : BitVec 32 := 0x00200000
def VM_HUGETLB : BitVec 32 := 0x00400000
def VM_CAN_NONLINEAR : BitVec 32 := 0x08000000
def VM_SPECIAL : BitVec 32 := VM_IO ||| VM_DONTEXPAND ||| VM_RESERVED ||| VM_PFNMAP
def VM_DATA_DEFAULT_FLAGS : BitVec 32 := VM_READ ||| VM_WRITE ||| VM_MAYREAD ||| VM_MAYWRITE ||| VM_MAYEXEC

def pageAlign (n : Nat) : Nat := (n + (PAGE_SIZE - 1)) % word / PAGE_SIZE * PAGE_SIZE
def pgoffOf (bytes : Nat) : BitVec 32 := BitVec.ofNat 32 (bytes >>> PAGE_SHIFT)

structure Area where
  vmStart : Nat
  vmEnd : Nat
  vmPgoff : BitVec 32
  vmFlags : BitVec 32
  vmFile : Option Nat
  deriving DecidableEq, Repr

structure Mm where
  mmap : Option Nat
  vmNext : Nat → Option Nat
  mmRb : Rbtree.Tree Nat
  mmapCache : Option Nat
  mapCount : Nat
  vma : Nat → Area
  fresh : Nat
  defFlags : BitVec 32

/-- The answers to one call: the k-th allocation and copy of a policy, and whether two VMAs,
or the request of a VMA (none for brk) and another VMA, may be merged. -/
structure Env where
  maxMapCount : Nat
  alloc : Nat → Bool
  policy : Nat → Bool
  enoughMemory : Bool
  mayExpand : Bool
  precheck : Int
  close : Nat → Bool
  anonMergeable : Option Nat → Nat → Bool
  mpolEqual : Option Nat → Nat → Bool

@[simps] def setVma (mm : Mm) (x : Nat) (v : Area) : Mm := {mm with vma := update mm.vma x v}
@[simps] def setNext (mm : Mm) (x : Nat) (n : Option Nat) : Mm := {mm with vmNext := update mm.vmNext x n}
@[simps] def setMmap (mm : Mm) (x : Option Nat) : Mm := {mm with mmap := x}
@[simps] def setRb (mm : Mm) (t : Rbtree.Tree Nat) : Mm := {mm with mmRb := t}
@[simps] def setCache (mm : Mm) (c : Option Nat) : Mm := {mm with mmapCache := c}
@[simps] def setCount (mm : Mm) (n : Nat) : Mm := {mm with mapCount := n}
@[simps] def newVma (mm : Mm) (v : Area) : Mm := {mm with vma := update mm.vma mm.fresh v, fresh := mm.fresh + 1}

def findLoop (mm : Mm) (addr : Nat) : Rbtree.Tree Nat → Option Nat → Option Nat
  | .leaf, vma => vma
  | .node _ l x r, vma =>
    if addr < (mm.vma x).vmEnd then
      if (mm.vma x).vmStart ≤ addr then some x else findLoop mm addr l (some x)
    else findLoop mm addr r vma

def findVma (mm : Mm) (addr : Nat) : Option Nat × Mm :=
  let hit := mm.mmapCache.filter fun c => decide (addr < (mm.vma c).vmEnd) && decide ((mm.vma c).vmStart ≤ addr)
  match hit with
  | some c => (some c,mm)
  | none =>
    match findLoop mm addr mm.mmRb none with
    | some v => (some v,setCache mm (some v))
    | none => (none,mm)

def prevLoop (mm : Mm) (addr : Nat) : Rbtree.Tree Nat → Option Nat → Option Nat
  | .leaf, prev => prev
  | .node _ l x r, prev =>
    if addr < (mm.vma x).vmEnd then prevLoop mm addr l prev
    else match mm.vmNext x with
      | none => some x
      | some n => if addr < (mm.vma n).vmEnd then some x else prevLoop mm addr r (some x)

def nextOf (mm : Mm) (prev : Option Nat) : Option Nat :=
  match prev with
  | some p => mm.vmNext p
  | none => mm.mmap

def findVmaPrev (mm : Mm) (addr : Nat) : Option Nat × Option Nat :=
  let prev := prevLoop mm addr mm.mmRb none
  (nextOf mm prev,prev)

structure Place where
  vma : Option Nat
  prev : Option Nat
  rbLink : List (Frame Nat)
  rbParent : Option Nat

def prepareLoop (mm : Mm) (addr : Nat) : Rbtree.Tree Nat → Place → Place
  | .leaf, place => place
  | .node c l x r, place =>
    if addr < (mm.vma x).vmEnd then
      if (mm.vma x).vmStart ≤ addr then {place with vma := some x, rbParent := some x}
      else prepareLoop mm addr l ⟨some x,place.prev,.left c x r::place.rbLink,some x⟩
    else prepareLoop mm addr r ⟨place.vma,some x,.right c l x::place.rbLink,some x⟩

def findVmaPrepare (mm : Mm) (addr : Nat) : Place := prepareLoop mm addr mm.mmRb ⟨none,none,[],none⟩

def vmaLinkList (mm : Mm) (vma : Nat) (place : Place) : Mm :=
  match place.prev with
  | some prev => setNext (setNext mm vma (mm.vmNext prev)) prev (some vma)
  | none => setNext (setMmap mm (some vma)) vma place.rbParent

def vmaLinkRb (mm : Mm) (vma : Nat) (place : Place) : Option Mm :=
  (rbInsertColor (.node .red .leaf vma .leaf) place.rbLink).map (setRb mm)

def vmaLink (mm : Mm) (vma : Nat) (place : Place) : Option Mm :=
  (vmaLinkRb (vmaLinkList mm vma place) vma place).map fun mm => setCount mm (mm.mapCount + 1)

def insertVmStruct (mm : Mm) (vma : Nat) : Option Mm :=
  let place := findVmaPrepare mm (mm.vma vma).vmStart
  match place.vma with
  | some v => if (mm.vma v).vmStart < (mm.vma vma).vmEnd then none else vmaLink mm vma place
  | none => vmaLink mm vma place

def vmaUnlink (mm : Mm) (vma prev : Nat) : Option Mm :=
  (eraseElem vma mm.mmRb).map fun t =>
    let mm := setRb (setNext mm prev (mm.vmNext vma)) t
    if mm.mmapCache = some vma then setCache mm (some prev) else mm

@[simps] def moveArea (v : Area) (start stop : Nat) (pgoff : BitVec 32) : Area :=
  {v with vmStart := start, vmEnd := stop, vmPgoff := pgoff}

def removeNext (mm : Mm) (vma start stop : Nat) (pgoff : BitVec 32) : Nat → Option Mm
  | 0 => none
  | n+1 =>
    match mm.vmNext vma with
    | none => none
    | some next =>
      let nextEnd := (mm.vma next).vmEnd
      match vmaUnlink (setVma mm vma (moveArea (mm.vma vma) start nextEnd pgoff)) next vma with
      | none => none
      | some mm =>
        let mm := setCount mm (mm.mapCount - 1)
        if stop > nextEnd then removeNext mm vma start nextEnd pgoff n else some mm

def vmaAdjust (mm : Mm) (vma start stop : Nat) (pgoff : BitVec 32) (insert : Option Nat) : Option Mm :=
  let moved := setVma mm vma (moveArea (mm.vma vma) start stop pgoff)
  match insert with
  | some new => insertVmStruct moved new
  | none =>
    match mm.vmNext vma with
    | none => some moved
    | some next =>
      let v := mm.vma next
      if stop ≥ v.vmEnd then removeNext mm vma start stop pgoff mm.mapCount
      else if stop > v.vmStart then
        let adjustNext := (stop - v.vmStart) >>> PAGE_SHIFT
        some (setVma moved next (moveArea v (v.vmStart + adjustNext <<< PAGE_SHIFT) v.vmEnd (v.vmPgoff + BitVec.ofNat 32 adjustNext)))
      else if stop < (mm.vma vma).vmEnd then
        let adjustNext := ((mm.vma vma).vmEnd - stop) >>> PAGE_SHIFT
        some (setVma moved next (moveArea v (v.vmStart - adjustNext <<< PAGE_SHIFT) v.vmEnd (v.vmPgoff - BitVec.ofNat 32 adjustNext)))
      else some moved

def splitVma (env : Env) (k : Nat) (mm : Mm) (vma addr : Nat) (newBelow : Bool) : Option (Int × Mm) :=
  if mm.mapCount ≥ env.maxMapCount then some (-ENOMEM,mm)
  else if !env.alloc k then some (-ENOMEM,mm)
  else if !env.policy k then some (-ENOMEM,mm)
  else
    let v := mm.vma vma
    let pgoff := v.vmPgoff + pgoffOf (addr - v.vmStart)
    let new := if newBelow then moveArea v v.vmStart addr v.vmPgoff else moveArea v addr v.vmEnd pgoff
    let out :=
      if newBelow then vmaAdjust (newVma mm new) vma addr v.vmEnd pgoff (some mm.fresh)
      else vmaAdjust (newVma mm new) vma v.vmStart addr v.vmPgoff (some mm.fresh)
    out.map (0,·)

def splitWhen (needed : Bool) (env : Env) (k : Nat) (mm : Mm) (vma addr : Nat) (newBelow : Bool) : Option (Int × Mm) :=
  if needed then splitVma env k mm vma addr newBelow else some (0,mm)

def orFail (out : Option (Int × Mm)) (rest : Mm → Option (Int × Mm)) : Option (Int × Mm) :=
  match out with
  | none => none
  | some (error,mm) => if error ≠ 0 then some (error,mm) else rest mm

def isMergeableVma (env : Env) (mm : Mm) (x : Nat) (file : Option Nat) (flags : BitVec 32) : Bool :=
  if ((mm.vma x).vmFlags ^^^ flags) &&& ~~~VM_CAN_NONLINEAR ≠ 0 then false
  else if (mm.vma x).vmFile ≠ file then false
  else !env.close x

def canVmaMergeBefore (env : Env) (mm : Mm) (x : Nat) (flags : BitVec 32) (source file : Option Nat) (pgoff : BitVec 32) : Bool :=
  isMergeableVma env mm x file flags && env.anonMergeable source x && decide ((mm.vma x).vmPgoff = pgoff)

def canVmaMergeAfter (env : Env) (mm : Mm) (x : Nat) (flags : BitVec 32) (source file : Option Nat) (pgoff : BitVec 32) : Bool :=
  isMergeableVma env mm x file flags && env.anonMergeable source x &&
    decide ((mm.vma x).vmPgoff + pgoffOf ((mm.vma x).vmEnd - (mm.vma x).vmStart) = pgoff)

def extendsPrev (env : Env) (mm : Mm) (addr : Nat) (flags : BitVec 32) (source file : Option Nat) (pgoff : BitVec 32)
    (p : Nat) : Bool :=
  decide ((mm.vma p).vmEnd = addr) && env.mpolEqual source p && canVmaMergeAfter env mm p flags source file pgoff

def extendsNext (env : Env) (mm : Mm) (stop : Nat) (flags : BitVec 32) (source file : Option Nat) (pgoff : BitVec 32)
    (n : Nat) : Bool :=
  decide (stop = (mm.vma n).vmStart) && env.mpolEqual source n && canVmaMergeBefore env mm n flags source file pgoff

/-- `source` is the VMA whose anon_vma and policy the request carries. -/
def vmaMerge (env : Env) (mm : Mm) (prev : Option Nat) (addr stop : Nat) (flags : BitVec 32) (source file : Option Nat)
    (pgoff : BitVec 32) : Option (Option Nat × Mm) :=
  let pglen := pgoffOf (stop - addr)
  if flags &&& VM_SPECIAL ≠ 0 then some (none,mm)
  else
    let area := nextOf mm prev
    -- cases 6, 7, 8
    let next := area.bind fun a => if (mm.vma a).vmEnd = stop then mm.vmNext a else some a
    let left := prev.filter (extendsPrev env mm addr flags source file pgoff)
    let right := next.filter (extendsNext env mm stop flags source file (pgoff + pglen))
    match left with
    | some p =>
      let v := mm.vma p
      let out :=
        match right.filter (env.anonMergeable (some p)) with
        | some n => vmaAdjust mm p v.vmStart (mm.vma n).vmEnd v.vmPgoff none
        | none => vmaAdjust mm p v.vmStart stop v.vmPgoff none
      out.map (some p,·)
    | none =>
      match right with
      | none => some (none,mm)
      | some n =>
        match prev.filter fun p => decide (addr < (mm.vma p).vmEnd) with
        | some p => (vmaAdjust mm p (mm.vma p).vmStart addr (mm.vma p).vmPgoff none).map (area,·)
        | none =>
          match area with
          | none => none
          | some a => (vmaAdjust mm a addr (mm.vma n).vmEnd ((mm.vma n).vmPgoff - pglen) none).map (some a,·)

def setFlags (mm : Mm) (x : Nat) (flags : BitVec 32) : Mm := setVma mm x {mm.vma x with vmFlags := flags}

def fixupSplit (env : Env) (mm : Mm) (vma start stop : Nat) (newflags : BitVec 32) : Option (Int × Mm) :=
  orFail (splitWhen (decide (start ≠ (mm.vma vma).vmStart)) env 0 mm vma start true) fun mm =>
  orFail (splitWhen (decide (stop ≠ (mm.vma vma).vmEnd)) env 1 mm vma stop false) fun mm =>
  some (0,setFlags mm vma newflags)

def chargedFlags (env : Env) (oldflags newflags : BitVec 32) : Option (BitVec 32) :=
  if newflags &&& VM_WRITE ≠ 0 ∧ oldflags &&& (VM_ACCOUNT ||| VM_WRITE ||| VM_HUGETLB ||| VM_SHARED ||| VM_NORESERVE) = 0 then
    if env.enoughMemory then some (newflags ||| VM_ACCOUNT) else none
  else some newflags

def mprotectFixup (env : Env) (mm : Mm) (vma : Nat) (prev : Option Nat) (start stop : Nat)
    (newflags : BitVec 32) : Option (Int × Mm) :=
  let v := mm.vma vma
  if newflags = v.vmFlags then some (0,mm)
  else
    match chargedFlags env v.vmFlags newflags with
    | none => some (-ENOMEM,mm)
    | some newflags =>
      let pgoff := v.vmPgoff + pgoffOf (start - v.vmStart)
      match vmaMerge env mm prev start stop newflags (some vma) v.vmFile pgoff with
      | none => none
      | some (some m,mm) => some (0,setFlags mm m newflags)
      | some (none,mm) => fixupSplit env mm vma start stop newflags

def mprotectPrev (mm : Mm) (vma start : Nat) : Option Nat :=
  if (mm.vma vma).vmStart < start then some vma else (findVmaPrev mm start).2

def detachLoop (mm : Mm) (vma stop : Nat) : Nat → Option (Mm × Option Nat × Nat)
  | 0 => none
  | n+1 =>
    match eraseElem vma mm.mmRb with
    | none => none
    | some t =>
      let mm := setCount (setRb mm t) (mm.mapCount - 1)
      match mm.vmNext vma with
      | none => some (mm,none,vma)
      | some v => if (mm.vma v).vmStart < stop then detachLoop mm v stop n else some (mm,some v,vma)

def detachVmasToBeUnmapped (mm : Mm) (vma : Nat) (prev : Option Nat) (stop : Nat) : Option Mm :=
  match detachLoop mm vma stop mm.mapCount with
  | none => none
  | some (mm,rest,tail) =>
    let mm := match prev with
      | some p => setNext mm p rest
      | none => setMmap mm rest
    some (setCache (setNext mm tail none) none)

def splitLast (env : Env) (mm : Mm) (stop : Nat) : Option (Int × Mm) :=
  let (last,mm) := findVma mm stop
  match last with
  | some l => splitWhen (decide (stop > (mm.vma l).vmStart)) env 1 mm l stop true
  | none => some (0,mm)

def unmapRange (env : Env) (mm : Mm) (vma : Nat) (prev : Option Nat) (start stop : Nat) : Option (Int × Mm) :=
  let inside := decide (start > (mm.vma vma).vmStart)
  let prev := if inside then some vma else prev
  orFail (splitWhen inside env 0 mm vma start false) fun mm =>
  orFail (splitLast env mm stop) fun mm =>
  match nextOf mm prev with
  | none => none
  | some vma => (detachVmasToBeUnmapped mm vma prev stop).map (0,·)

def doMunmap (env : Env) (mm : Mm) (start len : Nat) : Option (Int × Mm) :=
  if start % PAGE_SIZE ≠ 0 ∨ start > TASK_SIZE ∨ len > TASK_SIZE - start then some (-EINVAL,mm)
  else
    let len := pageAlign len
    if len = 0 then some (-EINVAL,mm)
    else
      match findVmaPrev mm start with
      | (none,_) => some (0,mm)
      | (some vma,prev) =>
        let stop := (start + len) % word
        if (mm.vma vma).vmStart ≥ stop then some (0,mm) else unmapRange env mm vma prev start stop

def munmapBack (env : Env) (mm : Mm) (addr len : Nat) : Nat → Option (Option Place × Mm)
  | 0 => none
  | n+1 =>
    let place := findVmaPrepare mm addr
    match place.vma.filter fun v => decide ((mm.vma v).vmStart < addr + len) with
    | none => some (some place,mm)
    | some _ =>
      match doMunmap env mm addr len with
      | none => none
      | some (error,mm) => if error ≠ 0 then some (none,mm) else munmapBack env mm addr len n

def brkMap (env : Env) (mm : Mm) (place : Place) (addr len : Nat) (flags : BitVec 32) : Option (Int × Mm) :=
  if !env.mayExpand then some (-ENOMEM,mm)
  else if mm.mapCount > env.maxMapCount then some (-ENOMEM,mm)
  else if !env.enoughMemory then some (-ENOMEM,mm)
  else
    match vmaMerge env mm place.prev addr (addr + len) flags none none (pgoffOf addr) with
    | none => none
    | some (some _,mm) => some (addr,mm)
    | some (none,mm) =>
      if !env.alloc 2 then some (-ENOMEM,mm)
      else (vmaLink (newVma mm ⟨addr,addr + len,pgoffOf addr,flags,none⟩) mm.fresh place).map (addr,·)

/-- The returned address, or the error. `precheck` is the error of the tests made before the
old maps are cleared. -/
def doBrk (env : Env) (mm : Mm) (addr len : Nat) : Option (Int × Mm) :=
  let len := pageAlign len
  if len = 0 then some (addr,mm)
  else if (addr + len) % word > TASK_SIZE ∨ (addr + len) % word < addr then some (-EINVAL,mm)
  else if env.precheck ≠ 0 then some (env.precheck,mm)
  else
    let flags := VM_DATA_DEFAULT_FLAGS ||| VM_ACCOUNT ||| mm.defFlags
    match munmapBack env mm addr len 2 with
    | none => none
    | some (none,mm) => some (-ENOMEM,mm)
    | some (some place,mm) => brkMap env mm place addr len flags

end EclairKernel.Mmap
