import EclairKernel.Run
import EclairKernel.Buddy
import Mathlib.Logic.Function.Basic
import Mathlib.Tactic.Simps.Basic

/-! drivers/misc/pmem.c: the buddy allocator of one physical memory device.
unsigned long is a 32-bit word and struct pmem_bits holds a bit and seven bits.
Registration, remapping, the file operations and the semaphores are left out;
every call here is made under bitmap_sem. -/
namespace EclairKernel.Pmem
def word : Nat := 2^32
def PMEM_MIN_ALLOC : Nat := 4096
def PMEM_MAX_ORDER : Nat := 128

structure Bits where
  allocated : Bool
  order : Nat
  deriving DecidableEq, Repr

/- The bitmap is total; from num_entries on it is what lies behind it in memory.
`allocated` is the only allocation of a device without an allocator. -/
structure Info where
  noAllocator : Bool
  size : Nat
  numEntries : Nat
  allocated : Bool
  bitmap : Nat → Bits

def pmemIsFree (p : Info) (index : Nat) : Bool := !(p.bitmap index).allocated
def pmemOrderAt (p : Info) (index : Nat) : Nat := (p.bitmap index).order
def pmemBuddyIndex (p : Info) (index : Nat) : Nat := index ^^^ 2^pmemOrderAt p index
def pmemNextIndex (p : Info) (index : Nat) : Nat := index + 2^pmemOrderAt p index

def setOrder (p : Info) (index order : Nat) : Info :=
  {p with bitmap := fun j => if j = index then {p.bitmap j with order := order % 128} else p.bitmap j}
def setAllocated (p : Info) (index : Nat) (allocated : Bool) : Info :=
  {p with bitmap := fun j => if j = index then {p.bitmap j with allocated := allocated} else p.bitmap j}

def orderLoop (len : Nat) : Nat → Nat → Nat
  | 0, i => i
  | fuel+1, i => if len >>> i = 0 then i else orderLoop len fuel (i + 1)

def pmemOrder (len : Nat) : Nat :=
  let len := (len + PMEM_MIN_ALLOC - 1) % word / PMEM_MIN_ALLOC
  let len := (len + (word - 1)) % word
  orderLoop len 32 0

def fitLoop (p : Info) (order : Nat) : Nat → Nat → Option Nat → Option Nat
  | 0, _, best => best
  | fuel+1, curr, best =>
    if curr < p.numEntries then
      if pmemIsFree p curr then
        if pmemOrderAt p curr = order then some curr
        else if order < pmemOrderAt p curr ∧ best.all (fun b => pmemOrderAt p curr < pmemOrderAt p b) then
          fitLoop p order fuel (pmemNextIndex p curr) (some curr)
        else fitLoop p order fuel (pmemNextIndex p curr) best
      else fitLoop p order fuel (pmemNextIndex p curr) best
    else best

def splitLoop (order bestFit : Nat) : Nat → Info → Info
  | 0, p => p
  | fuel+1, p =>
    if order < pmemOrderAt p bestFit then
      let p := setOrder p bestFit (pmemOrderAt p bestFit - 1)
      splitLoop order bestFit fuel (setOrder p (pmemBuddyIndex p bestFit) (pmemOrderAt p bestFit))
    else p

def toInt (x : Nat) : Int := ((x : Int) + 2^31) % 2^32 - 2^31

/- Each pass of the search moves on by at least one entry and each split lowers
the order by one, which bounds both loops. -/
def pmemAllocate (p : Info) (len : Nat) : Info × Int :=
  let order := pmemOrder len
  if p.noAllocator then
    if p.size < len ∨ p.allocated then (p,-1) else ({p with allocated := true},toInt len)
  else if PMEM_MAX_ORDER < order then (p,-1)
  else match fitLoop p order p.numEntries 0 none with
    | none => (p,-1)
    | some bestFit =>
      (setAllocated (splitLoop order bestFit (pmemOrderAt p bestFit) p) bestFit true,bestFit)

def mergeLoop : Nat → Nat → Info → Info
  | 0, _, p => p
  | fuel+1, curr, p =>
    let buddy := pmemBuddyIndex p curr
    if pmemIsFree p buddy ∧ pmemOrderAt p buddy = pmemOrderAt p curr then
      let p := setOrder p buddy (pmemOrderAt p buddy + 1)
      let p := setOrder p curr (pmemOrderAt p curr + 1)
      if min buddy curr < p.numEntries then mergeLoop fuel (min buddy curr) p else p
    else p

def pmemFree (p : Info) (index : Nat) : Info :=
  if p.noAllocator then {p with allocated := false}
  else mergeLoop p.numEntries index (setAllocated p index false)

def setupLoop : Nat → Nat → Info → Info
  | 0, _, p => p
  | i+1, index, p =>
    if p.numEntries &&& 2^i ≠ 0 then
      let p := setOrder p index i
      setupLoop i (pmemNextIndex p index) p
    else setupLoop i index p

-- behind the bitmap nothing reads as free, unless a call is told otherwise
def blank (size : Nat) (noAllocator : Bool) : Info :=
  ⟨noAllocator,size,size / PMEM_MIN_ALLOC,false,fun i => ⟨decide (size / PMEM_MIN_ALLOC ≤ i),0⟩⟩
def behind (p : Info) (past : Nat → Bits) : Info :=
  {p with bitmap := fun i => if i < p.numEntries then p.bitmap i else past i}
def pmemSetup (size : Nat) (noAllocator : Bool) : Info := setupLoop 32 0 (blank size noAllocator)

def walk (p : Info) : Nat → Nat → List Nat
  | 0, _ => []
  | fuel+1, curr => if curr < p.numEntries then curr::walk p fuel (pmemNextIndex p curr) else []

def blocks (p : Info) : List Nat := walk p p.numEntries 0

def layout (p : Info) : List (Nat × Nat) := (blocks p).map (fun i => (i,pmemOrderAt p i))

inductive Op where
  | allocate (len : UInt32)
  | free (index : Nat)
  deriving DecidableEq, Repr

def step (p : Info) : Op → Info
  | .allocate len => (pmemAllocate p len.toNat).1
  | .free index => pmemFree p index

/-! drivers/misc/pmem.c: the files of one device. A file is named by its address,
which may be used again once it is closed; what the process, the VFS and the page
tables answer is handed in call by call. Each operation is one step. -/

def EINVAL : Int := -22
def EAGAIN : Int := -11
def ENOMEM : Int := -12

structure Region where
  offset : Nat
  len : Nat
  deriving DecidableEq, Repr

structure Vma where
  size : Nat
  mapped : Nat → Bool

/-- struct pmem_data. `serial` tells the openings of an address apart and
`masterSerial` remembers that of the master; the code has neither. -/
structure Data where
  index : Int
  connected : Bool
  mastermap : Bool
  submap : Bool
  unsubmap : Bool
  vma : Option Vma
  masterFile : Option Nat
  regions : List Region
  serial : Nat
  masterSerial : Nat

structure MapCall where
  offset : Nat
  len : Nat
  vmaSize : Nat
  deriving DecidableEq, Repr

structure Device where
  info : Info
  file : Nat → Option Data
  opened : Nat
  calls : List MapCall

@[simps] def setFile (s : Device) (f : Nat) (d : Option Data) : Device := {s with file := Function.update s.file f d}
@[simps] def setInfo (s : Device) (p : Info) : Device := {s with info := p}
@[simps] def logCalls (s : Device) (calls : List MapCall) : Device := {s with calls := calls ++ s.calls}

def hasAllocation (d : Data) : Bool := decide (0 ≤ d.index)
def isSubmap (d : Data) : Bool := d.submap && !d.unsubmap
def pmemLen (p : Info) (d : Data) : Nat := 2^pmemOrderAt p d.index.toNat * PMEM_MIN_ALLOC % word

def isMasterOwner (d : Data) (fdFile : Option Nat) : Bool :=
  hasAllocation d && (d.mastermap || (fdFile.isSome && d.masterFile == fdFile))

def covers (r : Region) (j : Nat) : Bool := decide (r.offset ≤ j * PMEM_MIN_ALLOC ∧ j * PMEM_MIN_ALLOC < r.offset + r.len)

def zapRange (v : Vma) (r : Region) : Vma := {v with mapped := fun j => v.mapped j && !covers r j}
def mapRange (v : Vma) (r : Region) (done : Nat) : Vma :=
  {v with mapped := fun j => v.mapped j || covers ⟨r.offset,min done r.len⟩ j}

def pmemRemapPfnRange (v : Vma) (r : Region) (done : Nat) : Vma × Bool :=
  (mapRange (zapRange v r) r done,decide (r.len ≤ done))

def pmemOpen (s : Device) (f : Nat) (allocated : Bool) : Device × Int :=
  if (s.file f).isSome || !allocated then (s,-1)
  else ({setFile s f (some ⟨-1,false,false,false,false,none,none,[],s.opened,0⟩) with opened := s.opened + 1},0)

structure MmapArgs where
  pgoff : Nat
  size : Nat
  garbage : Bool
  remaps : List Nat
  maps : Bool
  deriving DecidableEq, Repr

/-- The regions queued before the file was mapped, up to the first that fails; `done` says
how many bytes of each are mapped. -/
def mapQueued (v : Vma) : List Region → List Nat → Vma × List MapCall × Bool
  | [], _ => (v,[],true)
  | r::rest, done =>
    let out := pmemRemapPfnRange v r (done.headD r.len)
    if out.2 then
      let later := mapQueued out.1 rest done.tail
      (later.1,later.2.1 ++ [⟨r.offset,r.len,v.size⟩],later.2.2)
    else (out.1,[⟨r.offset,r.len,v.size⟩],false)

def allocateIndex (p : Info) (d : Data) (len : Nat) : Info × Data :=
  let out := pmemAllocate p len
  (out.1,{d with index := out.2})

def settleIndex (s : Device) (f : Nat) (d : Data) (size : Nat) : Device × Data :=
  if d.index = -1 then
    let out := allocateIndex s.info d size
    (setInfo (setFile s f (some out.2)) out.1,out.2)
  else (s,d)

def mmapClient (s : Device) (f : Nat) (d : Data) (args : MmapArgs) : Device × Int :=
  if args.garbage then
    let queued := mapQueued ⟨args.size,fun _ => false⟩ d.regions args.remaps
    let s := logCalls s queued.2.1
    if queued.2.2 then (setFile s f (some {d with submap := true, vma := some queued.1}),0) else (s,EAGAIN)
  else (s,EAGAIN)

def mmapMaster (s : Device) (f : Nat) (d : Data) (args : MmapArgs) : Device × Int :=
  if args.maps then (setFile s f (some {d with mastermap := true}),0) else (s,EAGAIN)

def pmemMmap (s : Device) (f : Nat) (args : MmapArgs) : Device × Int :=
  match s.file f with
  | none => (s,EINVAL)
  | some d =>
    if args.pgoff ≠ 0 ∨ args.size % PMEM_MIN_ALLOC ≠ 0 then (s,EINVAL)
    else if d.mastermap || d.submap || d.unsubmap then (s,EINVAL)
    else
      let out := settleIndex s f d args.size
      if hasAllocation out.2 = false then (out.1,EINVAL)
      else if pmemLen out.1.info out.2 < args.size then (out.1,EINVAL)
      else if out.2.connected then mmapClient out.1 f out.2 args
      else mmapMaster out.1 f out.2 args

def ioctlAllocate (s : Device) (f len : Nat) : Device × Int :=
  match s.file f with
  | none => (s,EINVAL)
  | some d =>
    if hasAllocation d then (s,EINVAL)
    else
      let out := allocateIndex s.info d len
      (setInfo (setFile s f (some out.2)) out.1,0)

@[simps] def Data.connect (d e : Data) (g : Nat) : Data :=
  {d with index := e.index, connected := true, masterFile := some g, masterSerial := e.serial}

def pmemConnect (s : Device) (f : Nat) (src : Option Nat) : Device × Int :=
  match s.file f, src with
  | some d, some g =>
    match s.file g with
    | none => (s,EINVAL)
    | some e =>
      if hasAllocation e = false then (s,EINVAL)
      else if hasAllocation d ∧ d.index ≠ e.index then (s,EINVAL)
      else (setFile s f (some (d.connect e g)),0)
  | _, _ => (s,EINVAL)

inductive RemapOp where
  | map
  | unmap
  deriving DecidableEq, Repr

structure RemapEnv where
  fdFile : Option Nat
  mm : Bool
  node : Bool
  done : Nat
  deriving DecidableEq, Repr

def remapMap (s : Device) (f : Nat) (d : Data) (r : Region) (env : RemapEnv) : Device × Int :=
  if env.node then
    match d.vma, isSubmap d with
    | some v, true =>
      let out := pmemRemapPfnRange v r env.done
      (setFile (logCalls s [⟨r.offset,r.len,v.size⟩]) f (some {d with regions := r::d.regions, vma := some out.1}),
        if out.2 then 0 else EAGAIN)
    | _, _ => (setFile s f (some {d with regions := r::d.regions}),0)
  else (s,ENOMEM)

def remapUnmap (s : Device) (f : Nat) (d : Data) (r : Region) : Device × Int :=
  if r ∈ d.regions then
    match d.vma, isSubmap d with
    | some v, true => (setFile s f (some {d with regions := d.regions.filter (· ≠ r), vma := some (zapRange v r)}),0)
    | _, _ => (setFile s f (some {d with regions := d.regions.filter (· ≠ r)}),0)
  else (s,EINVAL)

def pmemRemap (s : Device) (f : Nat) (r : Region) (op : RemapOp) (env : RemapEnv) : Device × Int :=
  match s.file f with
  | none => (s,EINVAL)
  | some d =>
    if r.offset % PMEM_MIN_ALLOC ≠ 0 ∨ r.len % PMEM_MIN_ALLOC ≠ 0 then (s,EINVAL)
    else if r.len = 0 then (s,0)
    else if isSubmap d ∧ env.mm = false then (s,0)
    else if isMasterOwner d env.fdFile = false then (s,EINVAL)
    else if pmemLen s.info d < r.offset ∨ pmemLen s.info d < r.len ∨ pmemLen s.info d < (r.offset + r.len) % word then
      (s,EINVAL)
    else
      match op with
      | .map => remapMap s f d r env
      | .unmap => remapUnmap s f d r

def pmemVmaClose (s : Device) (f : Nat) : Device :=
  match s.file f with
  | none => s
  | some d =>
    if hasAllocation d && d.vma.isSome then
      setFile s f (some {d with vma := none, unsubmap := d.unsubmap || (d.connected && d.submap)})
    else s

def pmemRevoke (d : Data) (mm : Bool) : Data :=
  let d := {d with masterFile := none}
  match d.vma, mm with
  | some v, true => {d with vma := some (d.regions.foldl zapRange v), regions := []}
  | _, _ => d

-- The pass of pmem_release over data_list; `mm` is what get_task_mm finds for each file
-- and `past` what lies behind the bitmap.
def revokeAll (s : Device) (f : Nat) (mm : Nat → Bool) : Device :=
  {s with file := fun c => (s.file c).map fun d =>
    if isSubmap d && d.masterFile == some f then pmemRevoke d (mm c) else d}

def pmemRelease (s : Device) (f : Nat) (mm : Nat → Bool) (past : Nat → Bits) : Device :=
  match s.file f with
  | none => s
  | some d =>
    let s := if d.mastermap then revokeAll s f mm else s
    let s := if !d.connected && hasAllocation d then setInfo s (pmemFree (behind s.info past) d.index.toNat) else s
    setFile s f none

inductive FileOp where
  | open (f : Nat) (allocated : Bool)
  | mmap (f : Nat) (args : MmapArgs)
  | allocate (f len : Nat)
  | connect (f : Nat) (src : Option Nat)
  | remap (f : Nat) (r : Region) (op : RemapOp) (env : RemapEnv)
  | vmaClose (f : Nat)
  | release (f : Nat) (mm : Nat → Bool) (past : Nat → Bits)

def fileStep (s : Device) : FileOp → Device
  | .open f allocated => (pmemOpen s f allocated).1
  | .mmap f args => (pmemMmap s f args).1
  | .allocate f len => (ioctlAllocate s f len).1
  | .connect f src => (pmemConnect s f src).1
  | .remap f r op env => (pmemRemap s f r op env).1
  | .vmaClose f => pmemVmaClose s f
  | .release f mm past => pmemRelease s f mm past

def noFiles (size : Nat) : Device := ⟨pmemSetup size false,fun _ => none,0,[]⟩

end EclairKernel.Pmem
