import Mathlib.Data.Nat.ModEq
import EclairKernel.SlotList

/-! kernel/resource.c: the tree of resources. A resource is known by its address and the
memory holds its fields; child and sibling are slots, since the code walks the lists by a
pointer to them. Every loop has fuel. No result is a loop that does not end, or a NULL
pointer that is followed. A call holds resource_lock and runs undisturbed. -/
namespace EclairKernel.Resource
open Function

inductive Slot where
  | child (a : Nat)
  | sibling (a : Nat)
  deriving DecidableEq, Repr

structure Memory where
  start : Nat → Nat
  stop : Nat → Nat
  flags : Nat → BitVec 32
  parent : Nat → Option Nat
  link : Slot → Option Nat

def IORESOURCE_BUSY : BitVec 32 := 0x80000000

def busy (h : Memory) (a : Nat) : Bool := h.flags a &&& IORESOURCE_BUSY ≠ 0

def setStart (h : Memory) (a v : Nat) : Memory := { h with start := update h.start a v }
def setStop (h : Memory) (a v : Nat) : Memory := { h with stop := update h.stop a v }
def setParent (h : Memory) (a : Nat) (v : Option Nat) : Memory := { h with parent := update h.parent a v }
def store (h : Memory) (p : Slot) (v : Option Nat) : Memory := { h with link := update h.link p v }

def linkIn (h : Memory) (root new : Nat) (p : Slot) : Memory :=
  setParent (store (store h (.sibling new) (h.link p)) p (some new)) new (some root)

def requestLoop (root new : Nat) : Nat → Slot → Memory → Option (Option Nat × Memory)
  | 0,_,_ => none
  | fuel + 1,p,h =>
    match h.link p with
    | none => some (none,linkIn h root new p)
    | some tmp =>
      if h.stop new < h.start tmp then some (none,linkIn h root new p)
      else if h.stop tmp < h.start new then requestLoop root new fuel (.sibling tmp) h
      else some (some tmp,h)

def requestResource (fuel root new : Nat) (h : Memory) : Option (Option Nat × Memory) :=
  if h.stop new < h.start new then some (some root,h)
  else if h.start new < h.start root then some (some root,h)
  else if h.stop root < h.stop new then some (some root,h)
  else requestLoop root new fuel (.child root) h

def releaseLoop (old : Nat) : Nat → Slot → Memory → Option (Bool × Memory)
  | 0,_,_ => none
  | fuel + 1,p,h =>
    match h.link p with
    | none => some (false,h)
    | some tmp =>
      if tmp = old then some (true,setParent (store h p (h.link (.sibling tmp))) old none)
      else releaseLoop old fuel (.sibling tmp) h

def releaseResource (fuel old : Nat) (h : Memory) : Option (Bool × Memory) := do
  releaseLoop old fuel (.child (← h.parent old)) h

/-- How the first loop is left: the resource is in, or there is a conflict with the parent
itself, or with a child first that does not strictly contain it. -/
inductive Descent where
  | placed
  | refused (conflict : Nat)
  | beside (parent first : Nat)
  deriving DecidableEq, Repr

def descend (new : Nat) : Nat → Nat → Memory → Option (Descent × Memory)
  | 0,_,_ => none
  | fuel + 1,parent,h => do
    let (first,h) ← requestResource fuel parent new h
    match first with
    | none => some (.placed,h)
    | some first =>
      if first = parent then some (.refused first,h)
      else if h.start new < h.start first ∨ h.stop first < h.stop new then some (.beside parent first,h)
      else if h.start first = h.start new ∧ h.stop first = h.stop new then some (.beside parent first,h)
      else descend new fuel first h

def overlapLoop (new : Nat) : Nat → Nat → Memory → Option (Nat ⊕ Nat)
  | 0,_,_ => none
  | fuel + 1,next,h =>
    if h.start next < h.start new ∨ h.stop new < h.stop next then some (.inl next)
    else
      match h.link (.sibling next) with
      | none => some (.inr next)
      | some s => if h.stop new < h.start s then some (.inr next) else overlapLoop new fuel s h

def markParents (new : Nat) : Nat → Option Nat → Memory → Option Memory
  | 0,_,_ => none
  | _ + 1,none,h => some h
  | fuel + 1,some next,h => markParents new fuel (h.link (.sibling next)) (setParent h next (some new))

def beforeFirst (first : Nat) : Nat → Nat → Memory → Option Nat
  | 0,_,_ => none
  | fuel + 1,next,h =>
    if h.link (.sibling next) = some first then some next
    else do beforeFirst first fuel (← h.link (.sibling next)) h

def adopt (fuel parent new first last : Nat) (h : Memory) : Option Memory := do
  let h := setParent h new (some parent)
  let h := store h (.sibling new) (h.link (.sibling last))
  let h := store h (.child new) (some first)
  let h := store h (.sibling last) none
  let h ← markParents new fuel (some first) h
  if h.link (.child parent) = some first then some (store h (.child parent) (some new))
  else
    let next ← beforeFirst first fuel (← h.link (.child parent)) h
    some (store h (.sibling next) (some new))

def insertResource (fuel parent new : Nat) (h : Memory) : Option (Option Nat × Memory) := do
  match ← descend new fuel parent h with
  | (.placed,h) => some (none,h)
  | (.refused conflict,h) => some (some conflict,h)
  | (.beside parent first,h) =>
    match ← overlapLoop new fuel first h with
    | .inl conflict => some (some conflict,h)
    | .inr last => some (none,← adopt fuel parent new first last h)

def cover (h : Memory) (new conflict : Nat) : Memory :=
  let h := if h.start conflict < h.start new then setStart h new (h.start conflict) else h
  if h.stop new < h.stop conflict then setStop h new (h.stop conflict) else h

def expandLoop (root new : Nat) : Nat → Memory → Option (Bool × Memory)
  | 0,_ => none
  | fuel + 1,h => do
    match ← insertResource fuel root new h with
    | (none,h) => some (true,h)
    | (some conflict,h) => if conflict = root then some (false,h) else expandLoop root new fuel (cover h new conflict)

def expandToFit (fuel root new : Nat) (h : Memory) : Option (Bool × Memory) :=
  if h.parent new ≠ none then some (false,h) else expandLoop root new fuel h

/-! __request_region and __release_region; resource_size_t has 32 bits. -/

def lastByte (start n : Nat) : Nat := (start + n + (2^32 - 1)) % 2^32

def region (h : Memory) (a start n : Nat) (flags : BitVec 32) : Memory where
  start := update h.start a start
  stop := update h.stop a (lastByte start n)
  flags := update h.flags a (IORESOURCE_BUSY ||| flags)
  parent := update h.parent a none
  link := update (update h.link (.child a) none) (.sibling a) none

def regionLoop (res : Nat) : Nat → Nat → Memory → Option (Bool × Memory)
  | 0,_,_ => none
  | fuel + 1,parent,h => do
    match ← requestResource fuel parent res h with
    | (none,h) => some (true,h)
    | (some conflict,h) =>
      if conflict ≠ parent ∧ !busy h conflict then regionLoop res fuel conflict h else some (false,h)

def requestRegion (fuel parent start n : Nat) (flags : BitVec 32) (alloc : Option Nat) (h : Memory) :
    Option (Bool × Memory) :=
  match alloc with
  | none => some (false,h)
  | some res => regionLoop res fuel parent (region h res start n flags)

def releaseRegionLoop (start stop : Nat) : Nat → Slot → Memory → Option (Bool × Memory)
  | 0,_,_ => none
  | fuel + 1,p,h =>
    match h.link p with
    | none => some (false,h)
    | some res =>
      if h.start res ≤ start ∧ stop ≤ h.stop res then
        if !busy h res then releaseRegionLoop start stop fuel (.child res) h
        else if h.start res ≠ start ∨ h.stop res ≠ stop then some (false,h)
        else some (true,store h p (h.link (.sibling res)))
      else releaseRegionLoop start stop fuel (.sibling res) h

def releaseRegion (fuel parent start n : Nat) (h : Memory) : Option (Bool × Memory) :=
  releaseRegionLoop start (lastByte start n) fuel (.child parent) h

inductive Call where
  | requestResource (root new : Nat)
  | releaseResource (old : Nat)
  | insertResource (parent new : Nat)
  | expandToFit (root new : Nat)
  | requestRegion (parent start n : Nat) (flags : BitVec 32) (alloc : Option Nat)
  | releaseRegion (parent start n : Nat)
  deriving Repr

def Call.run (fuel : Nat) (h : Memory) : Call → Option (Bool × Memory)
  | .requestResource root new => do
    let (conflict,h) ← Resource.requestResource fuel root new h
    some (conflict.isNone,h)
  | .releaseResource old => Resource.releaseResource fuel old h
  | .insertResource parent new => do
    let (conflict,h) ← Resource.insertResource fuel parent new h
    some (conflict.isNone,h)
  | .expandToFit root new => Resource.expandToFit fuel root new h
  | .requestRegion parent start n flags alloc => Resource.requestRegion fuel parent start n flags alloc h
  | .releaseRegion parent start n => Resource.releaseRegion fuel parent start n h

def childrenInside (start stop : Nat) : Nat → Option Nat → Memory → Option Bool
  | 0,_,_ => none
  | _ + 1,none,_ => some true
  | fuel + 1,some tmp,h =>
    if h.start tmp < start ∨ stop < h.stop tmp then some false else childrenInside start stop fuel (h.link (.sibling tmp)) h

def previousClear (fuel parent res start : Nat) (h : Memory) : Option Bool := do
  let tmp ← h.link (.child parent)
  if tmp = res then some true
  else
    let tmp ← beforeFirst res fuel tmp h
    some (decide (h.stop tmp < start))

def adjustFits (fuel parent res start stop : Nat) (h : Memory) : Option Bool := do
  if start < h.start parent ∨ h.stop parent < stop then some false
  else
    let inside ← childrenInside start stop fuel (h.link (.child res)) h
    if !inside || (h.link (.sibling res)).any (fun next => decide (h.start next ≤ stop)) then some false
    else previousClear fuel parent res start h

def adjustResource (fuel res start size : Nat) (h : Memory) : Option (Bool × Memory) := do
  let stop := lastByte start size
  let fits ← adjustFits fuel (← h.parent res) res start stop h
  some (fits,if fits then setStop (setStart h res start) res stop else h)

/-! find_resource without an alignf, and allocate_resource; the resource is not in the tree, so
that its two fields are kept apart from the memory. -/

def align (x al : Nat) : Nat := (x + (al - 1)) % 2^32 / al * al

def findLoop (root size min max al : Nat) (h : Memory) : Nat → Option Nat → Nat → Option (Bool × Nat × Nat)
  | 0,_,_ => none
  | fuel + 1,this,start =>
    let stop := match this with
      | some this => lastByte 0 (h.start this)
      | none => h.stop root
    let start := align (if start < min then min else start) al
    let stop := if max < stop then max else stop
    if start < stop ∧ lastByte 0 size ≤ stop - start then some (true,start,lastByte start size)
    else match this with
      | none => some (false,start,stop)
      | some this => findLoop root size min max al h fuel (h.link (.sibling this)) ((h.stop this + 1) % 2^32)

def findResource (fuel root size min max al : Nat) (h : Memory) : Option (Bool × Nat × Nat) :=
  match h.link (.child root) with
  | none => findLoop root size min max al h fuel none (h.start root)
  | some this =>
    if h.start this = 0 then findLoop root size min max al h fuel (h.link (.sibling this)) ((h.stop this + 1) % 2^32)
    else findLoop root size min max al h fuel (some this) (h.start root)

def allocateResource (fuel root new size min max al : Nat) (h : Memory) : Option (Bool × Memory) := do
  let (found,start,stop) ← findResource fuel root size min max al h
  let h := setStop (setStart h new start) new stop
  if found then
    let (conflict,h) ← requestResource fuel root new h
    some (conflict.isNone,h)
  else some (false,h)

end EclairKernel.Resource
