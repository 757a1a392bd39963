import EclairKernel.Run
import EclairKernel.Rbtree
import Mathlib.Data.Nat.ModEq
import Mathlib.Tactic.Simps.Basic

/-! drivers/staging/android/binder.c: the buffer arena of one binder_proc, from
binder_mmap through binder_alloc_buf and binder_free_buf. Buffers are named by
the address of their header; a BUG_ON that fires, and freeing a NULL page, is no
result. What the memory system answers is handed in call by call. -/
namespace EclairKernel.Arena
open Rbtree

def word : Nat := 2^32
def pageSize : Nat := 4096
def headerSize : Nat := 40
def SZ_4M : Nat := 4194304
def VM_WRITE : Nat := 2
def TASK_SIZE : Nat := 0xBF000000
def EPERM : Int := 1
def ENOMEM : Int := 12
def EBUSY : Int := 16

def alignPtr (x : Nat) : Nat := (x + 3) % word / 4 * 4
def pageMask (x : Nat) : Nat := x / pageSize * pageSize
def pageAlign (x : Nat) : Nat := (x + (pageSize - 1)) / pageSize * pageSize

structure Header where
  free : Bool
  asyncTransaction : Bool
  transaction : Bool
  dataSize : Nat
  offsetsSize : Nat
  deriving DecidableEq, Repr

structure Vma where
  start : Nat
  stop : Nat
  deriving DecidableEq, Repr

structure Proc where
  buffer : Nat
  bufferSize : Nat
  userBufferOffset : Nat
  vma : Option Vma
  buffers : List Nat
  header : Nat → Header
  freeBuffers : Rbtree.Tree Nat
  allocatedBuffers : Rbtree.Tree Nat
  pages : Nat → Bool
  freeAsyncSpace : Nat

@[simps] def setHeader (p : Proc) (b : Nat) (h : Header) : Proc :=
  {p with header := fun x => if x = b then h else p.header x}
@[simps] def setBuffers (p : Proc) (l : List Nat) : Proc := {p with buffers := l}
@[simps] def setFreeBuffers (p : Proc) (t : Rbtree.Tree Nat) : Proc := {p with freeBuffers := t}
@[simps] def setAllocatedBuffers (p : Proc) (t : Rbtree.Tree Nat) : Proc := {p with allocatedBuffers := t}
@[simps] def setPages (p : Proc) (pages : Nat → Bool) : Proc := {p with pages := pages}
@[simps] def setFreeAsyncSpace (p : Proc) (space : Nat) : Proc := {p with freeAsyncSpace := space}
@[simps] def Header.setFree (h : Header) (v : Bool) : Header := {h with free := v}
@[simps] def Header.setTransaction (h : Header) (v : Bool) : Header := {h with transaction := v}
@[simps] def Header.setRequest (h : Header) (dataSize offsetsSize : Nat) (isAsync : Bool) : Header :=
  {h with dataSize := dataSize, offsetsSize := offsetsSize, asyncTransaction := isAsync}

inductive PageStep where
  | ok
  | allocPageFailed
  | mapKernelFailed
  | insertPageFailed
  deriving DecidableEq, Repr

/-- The answers of the memory system to one call: get_task_mm, the three steps
for page k, and whether the word that becomes `transaction` of a header carved
out of free memory is not NULL. -/
structure Env where
  mm : Bool
  page : Nat → PageStep
  garbage : Bool

def nextBuffer : List Nat → Nat → Option Nat
  | [], _ => none
  | x::rest, b => if x = b then rest.head? else nextBuffer rest b

def prevBuffer : List Nat → Nat → Option Nat
  | x::y::rest, b => if y = b then some x else prevBuffer (y::rest) b
  | _, _ => none

def listAdd (new b : Nat) : List Nat → List Nat
  | [] => []
  | x::rest => if x = b then x::new::rest else x::listAdd new b rest

def binderBufferSize (p : Proc) (b : Nat) : Nat :=
  (nextBuffer p.buffers b).getD (p.buffer + p.bufferSize) - (b + headerSize)

def binderInsertFreeBuffer (p : Proc) (new : Nat) : Option Proc :=
  if (p.header new).free = false then none
  else
    let newSize := binderBufferSize p new
    (insertElem (fun b =>
      if (p.header b).free = false then none else some (decide (newSize < binderBufferSize p b)))
      new p.freeBuffers).map (setFreeBuffers p)

def binderInsertAllocatedBuffer (p : Proc) (new : Nat) : Option Proc :=
  if (p.header new).free then none
  else
    (insertElem (fun b =>
      if (p.header b).free then none
      else if new < b then some true
      else if b < new then some false
      else none) new p.allocatedBuffers).map (setAllocatedBuffers p)

def setPage (pages : Nat → Bool) (k : Nat) (v : Bool) : Nat → Bool := fun j => if j = k then v else pages j

def freeLoop (buffer start : Nat) : Nat → Nat → (Nat → Bool) → Option (Nat → Bool)
  | 0, _, pages => some pages
  | fuel+1, addr, pages =>
    if start ≤ addr then
      let k := (addr - buffer) / pageSize
      if pages k then freeLoop buffer start fuel (addr - pageSize) (setPage pages k false) else none
    else some pages

/- A failing step leaves the entry of its own page NULL and jumps into the
free_range loop, which goes on with the page below. -/
def allocLoop (p : Proc) (vma : Vma) (env : Env) (start stop : Nat) :
    Nat → Nat → (Nat → Bool) → Option ((Nat → Bool) × Bool)
  | 0, _, pages => some (pages,true)
  | fuel+1, addr, pages =>
    if addr < stop then
      let k := (addr - p.buffer) / pageSize
      let userPageAddr := (addr + p.userBufferOffset) % word
      if pages k then none
      else if env.page k = .ok ∧ vma.start ≤ userPageAddr ∧ userPageAddr < vma.stop then
        allocLoop p vma env start stop fuel (addr + pageSize) (setPage pages k true)
      else (freeLoop p.buffer start ((stop - start) / pageSize) (addr - pageSize) pages).map (·,false)
    else some (pages,true)

def binderUpdatePageRange (p : Proc) (allocate : Bool) (start stop : Nat) (vma : Option Vma) (env : Env) :
    Option (Proc × Bool) :=
  if stop ≤ start then some (p,true)
  else
    let vma := match vma with
      | some v => some v
      | none => if env.mm then p.vma else none
    if allocate then
      match vma with
      | none => some (p,false)
      | some v => (allocLoop p v env start stop ((stop - start) / pageSize) start p.pages).map
          fun out => (setPages p out.1,out.2)
    else (freeLoop p.buffer start ((stop - start) / pageSize) (stop - pageSize) p.pages).map
      fun pages => (setPages p pages,false)

-- The best-fit descent; the Bool says that the loop broke off at an exact fit.
def fitLoop (p : Proc) (size : Nat) : Rbtree.Tree Nat → Option Nat → Option (Option Nat × Bool)
  | .leaf, best => some (best,false)
  | .node _ l b r, best =>
    if (p.header b).free = false then none
    else if size < binderBufferSize p b then fitLoop p size l (some b)
    else if binderBufferSize p b < size then fitLoop p size r best
    else some (some b,true)

def splitTail (p : Proc) (b size : Nat) (env : Env) : Option Proc :=
  let new := b + headerSize + size
  let p := setBuffers p (listAdd new b p.buffers)
  binderInsertFreeBuffer (setHeader p new (((p.header new).setTransaction env.garbage).setFree true)) new

@[simps!] def recordRequest (p : Proc) (b size dataSize offsetsSize : Nat) (isAsync : Bool) : Proc :=
  setFreeAsyncSpace (setHeader p b ((p.header b).setRequest dataSize offsetsSize isAsync))
    (if isAsync then (p.freeAsyncSpace + (word - (size + headerSize) % word)) % word else p.freeAsyncSpace)

def takeBuffer (p : Proc) (b size bufferSize dataSize offsetsSize : Nat) (isAsync : Bool) (env : Env) :
    Option Proc := do
  let t ← eraseElem b p.freeBuffers
  let p ← binderInsertAllocatedBuffer (setHeader (setFreeBuffers p t) b ((p.header b).setFree false)) b
  let p ← if bufferSize ≠ size then splitTail p b size env else some p
  some (recordRequest p b size dataSize offsetsSize isAsync)

def requestSize (dataSize offsetsSize : Nat) : Nat := (alignPtr dataSize + alignPtr offsetsSize) % word

def binderAllocBuf (p : Proc) (dataSize offsetsSize : Nat) (isAsync : Bool) (env : Env) :
    Option (Proc × Option Nat) :=
  let size := requestSize dataSize offsetsSize
  if p.vma.isNone then some (p,none)
  else if size < dataSize ∨ size < offsetsSize then some (p,none)
  else if isAsync ∧ p.freeAsyncSpace < (size + headerSize) % word then some (p,none)
  else do
    let fit ← fitLoop p size p.freeBuffers none
    match fit with
    | (none,_) => some (p,none)
    | (some b,exactFit) =>
      let bufferSize := binderBufferSize p b
      let hasPageAddr := pageMask (b + headerSize + bufferSize)
      let bufferSize :=
        if exactFit then bufferSize
        else if bufferSize ≤ size + headerSize + 4 then size
        else size + headerSize
      let endPageAddr := min (pageAlign (b + headerSize + bufferSize)) hasPageAddr
      let out ← binderUpdatePageRange p true (pageAlign (b + headerSize)) endPageAddr none env
      if out.2 then do
        let p ← takeBuffer out.1 b size bufferSize dataSize offsetsSize isAsync env
        some (p,some b)
      else some (out.1,none)

def bufferStartPage (b : Nat) : Nat := pageMask b
def bufferEndPage (b : Nat) : Nat := pageMask (b + headerSize - 1)

def freePageStart (prev b : Nat) (next : Option Nat) : Bool :=
  bufferEndPage prev ≠ bufferStartPage b &&
  next.all fun n => !(bufferStartPage n = bufferEndPage b && bufferStartPage n = bufferStartPage b)
def freePageEnd (prev b : Nat) (next : Option Nat) : Bool :=
  !(bufferEndPage prev = bufferStartPage b && bufferEndPage prev = bufferEndPage b) &&
  next.all fun n => bufferStartPage n ≠ bufferEndPage b

def binderDeleteFreeBuffer (p : Proc) (b : Nat) (env : Env) : Option Proc :=
  match prevBuffer p.buffers b with
  | none => none
  | some prev =>
    if (p.header prev).free = false then none
    else
      let next := nextBuffer p.buffers b
      let start := freePageStart prev b next
      let stop := freePageEnd prev b next
      let p := setBuffers p (p.buffers.erase b)
      if start || stop then
        (binderUpdatePageRange p false (if start then bufferStartPage b else bufferEndPage b)
          ((if stop then bufferEndPage b else bufferStartPage b) + pageSize) none env).map (·.1)
      else some p

def mergeNext (p : Proc) (b : Nat) (env : Env) : Option Proc :=
  match nextBuffer p.buffers b with
  | none => some p
  | some next =>
    if (p.header next).free then do
      let t ← eraseElem next p.freeBuffers
      binderDeleteFreeBuffer (setFreeBuffers p t) next env
    else some p

def mergePrev (p : Proc) (b : Nat) (env : Env) : Option (Proc × Nat) :=
  match prevBuffer p.buffers b with
  | none => some (p,b)
  | some prev =>
    if (p.header prev).free then do
      let p ← binderDeleteFreeBuffer p b env
      let t ← eraseElem prev p.freeBuffers
      some (setFreeBuffers p t,prev)
    else some (p,b)

def binderFreeBuf (p : Proc) (b : Nat) (env : Env) : Option Proc :=
  let bufferSize := binderBufferSize p b
  let size := requestSize (p.header b).dataSize (p.header b).offsetsSize
  if (p.header b).free ∨ bufferSize < size ∨ (p.header b).transaction ∨ b < p.buffer ∨
      p.buffer + p.bufferSize < b then none
  else do
    let p := if (p.header b).asyncTransaction then
        setFreeAsyncSpace p ((p.freeAsyncSpace + size + headerSize) % word)
      else p
    let out ← binderUpdatePageRange p false (pageAlign (b + headerSize))
      (pageMask (b + headerSize + bufferSize)) none env
    let t ← eraseElem b out.1.allocatedBuffers
    let p := setHeader (setAllocatedBuffers out.1 t) b ((out.1.header b).setFree true)
    let p ← mergeNext p b env
    let merged ← mergePrev p b env
    binderInsertFreeBuffer merged.1 merged.2

/-- The arguments of `binder_mmap` and the answers to it: the vma, whether the
cache is VIPT aliasing, the address get_vm_area hands out with a guard page
behind, and whether the page array could be allocated. -/
structure MmapArgs where
  start : Nat
  stop : Nat
  flags : Nat
  aliasing : Bool
  area : Option Nat
  pagesAllocated : Bool
  env : Env
  order : start < stop
  inside : stop ≤ TASK_SIZE
  startWhole : start % pageSize = 0
  stopWhole : stop % pageSize = 0
  areaOk : ∀ a, area = some a → 0 < a ∧ a % pageSize = 0 ∧ a + min (stop - start) SZ_4M + pageSize ≤ word

def cacheColour (v : Nat) : Nat := v % (4 * pageSize) / pageSize

def colourLoop (buffer : Nat) : Nat → Nat → Nat
  | 0, start => start
  | fuel+1, start =>
    if cacheColour (start ^^^ buffer) = 0 then start else colourLoop buffer fuel ((start + pageSize) % word)

@[simps] def setArea (p : Proc) (buffer userBufferOffset : Nat) : Proc :=
  {p with buffer := buffer, userBufferOffset := userBufferOffset}
@[simps] def setBufferSize (p : Proc) (size : Nat) : Proc := {p with bufferSize := size}
@[simps] def setVma (p : Proc) (vma : Option Vma) : Proc := {p with vma := vma}

def firstBuffer (p : Proc) (vma : Vma) : Option Proc := do
  let p ← binderInsertFreeBuffer (setHeader (setBuffers p [p.buffer]) p.buffer ⟨true,false,false,0,0⟩) p.buffer
  some (setVma (setFreeAsyncSpace p (p.bufferSize / 2)) (some vma))

def binderMmap (p : Proc) (m : MmapArgs) : Option (Proc × Int) :=
  let stop := if SZ_4M < m.stop - m.start then m.start + SZ_4M else m.stop
  if m.flags / VM_WRITE % 2 = 1 then some (p,-EPERM)
  else if p.buffer ≠ 0 then some (p,-EBUSY)
  else match m.area with
    | none => some (p,-ENOMEM)
    | some addr =>
      let p := setArea p addr ((m.start + (word - addr)) % word)
      let start := if m.aliasing then colourLoop addr 4 m.start else m.start
      if m.pagesAllocated then do
        let vma : Vma := ⟨start,stop⟩
        let p := setBufferSize (setPages p fun _ => false) ((stop + (word - start)) % word)
        let out ← binderUpdatePageRange p true addr (addr + pageSize) (some vma) m.env
        if out.2 then do
          let p ← firstBuffer out.1 vma
          some (p,0)
        else some (setArea out.1 0 out.1.userBufferOffset,-ENOMEM)
      else some (setArea p 0 p.userBufferOffset,-ENOMEM)

def binderOpen : Proc :=
  { buffer := 0, bufferSize := 0, userBufferOffset := 0, vma := none, buffers := [],
    header := fun _ => ⟨false,false,false,0,0⟩, freeBuffers := .leaf, allocatedBuffers := .leaf,
    pages := fun _ => false, freeAsyncSpace := 0 }

inductive Op where
  | mmap (m : MmapArgs)
  | alloc (dataSize offsetsSize : UInt32) (isAsync : Bool) (env : Env)
  | free (b : Nat) (env : Env)
  | vmaClose

/-- One call. `binder_transaction` stores its transaction in a buffer it gets, and
every caller of `binder_free_buf` clears that pointer first. -/
def step (p : Proc) : Op → Option Proc
  | .mmap m => (binderMmap p m).map (·.1)
  | .alloc d o isAsync env => (binderAllocBuf p d.toNat o.toNat isAsync env).map fun out =>
      match out.2 with
      | some b => setHeader out.1 b ((out.1.header b).setTransaction true)
      | none => out.1
  | .free b env => binderFreeBuf (setHeader p b ((p.header b).setTransaction false)) b env
  | .vmaClose => some (setVma p none)

def stepAll (s : Option Proc) (op : Op) : Option Proc := s.bind fun p => step p op

def Admissible (s : Option Proc) : Op → Prop
  | .free b _ => ∀ p, s = some p → b ∈ inorder p.allocatedBuffers
  | _ => True

end EclairKernel.Arena
