import Mathlib.Data.Nat.ModEq
import Mathlib.Logic.Function.Basic

/-! lib/idr.c on a 32-bit machine. A layer holds layers, or in the lowest layer the pointers
of the users; layers in use form a tree, and those on the free list are zeroed and only
counted. The array pa is the list of the layers passed on the way down, each with the slot
that was taken. Numbers of type int are words of 32 bits. No result is a loop out of fuel,
or a BUG. -/
namespace EclairKernel.Idr

def IDR_BITS : Nat := 5
def IDR_FULL : BitVec 32 := 0xffffffff
def MAX_LEVEL : Nat := 7
def MAX_ID_MASK : BitVec 32 := 0x7fffffff
def IDR_FREE_MAX : Nat := 14

structure Layer (S : Type) where
  bitmap : BitVec 32
  ary : Fin 32 → S
  count : Int
  layer : Nat

inductive Slot (V : Type) where
  | null
  | ptr (v : V)
  | sub (p : Layer (Slot V))

abbrev Node (V : Type) := Layer (Slot V)

structure Handle (V : Type) where
  top : Option (Node V)
  layers : Nat
  idFreeCnt : Nat

variable {V : Type}

def idrInit : Handle V := ⟨none,0,0⟩

def Slot.ofPtr : Option V → Slot V
  | none => .null
  | some v => .ptr v

def Slot.isNull : Slot V → Bool
  | .null => true
  | _ => false

def zeroed (layer : Nat) : Node V := ⟨0,fun _ => .null,0,layer⟩

def Layer.setSlot (p : Node V) (n : Fin 32) (s : Slot V) : Node V := { p with ary := Function.update p.ary n s }

def setBit (n : Fin 32) (w : BitVec 32) : BitVec 32 := w ||| 1#32 <<< n.val
def clearBit (n : Fin 32) (w : BitVec 32) : BitVec 32 := w &&& ~~~(1#32 <<< n.val)

def findNextBit (w : BitVec 32) (size offset : Nat) : Nat :=
  ((List.range' offset (size - offset)).find? fun i => w.getLsbD i).getD size

def digit (id : BitVec 32) (l : Nat) : Fin 32 := Fin.ofNat 32 (id.sshiftRight (IDR_BITS * l)).toNat

structure Frame (V : Type) where
  parent : Node V
  slot : Fin 32

def close (p : Node V) (f : Frame V) : Node V := f.parent.setSlot f.slot (.sub p)

def plug : Node V → List (Frame V) → Node V
  | p, [] => p
  | p, f::pa => plug (close p f) pa

def idrMarkFull : Node V → List (Frame V) → BitVec 32 → Node V
  | p, [], id => { p with bitmap := setBit (digit id 0) p.bitmap }
  | p, f::pa, id =>
    let p := { p with bitmap := setBit (digit id 0) p.bitmap }
    if p.bitmap = IDR_FULL then idrMarkFull (close p f) pa (id.sshiftRight IDR_BITS) else plug p (f::pa)

structure Search (V : Type) where
  pa : List (Frame V)
  p : Node V
  l : Nat
  id : BitVec 32
  free : Nat

inductive Alloc (V : Type) where
  | slot (id : BitVec 32) (p : Node V) (pa : List (Frame V))
  | needToGrow (id : BitVec 32) (top : Node V)
  | noMoreSpace (top : Node V)
  | noMemory (top : Node V)

inductive Step (V : Type) where
  | again (s : Search V)
  | stop (a : Alloc V) (free : Nat)

def backUp (layers : Nat) (s : Search V) : Step V :=
  let l := s.l + 1
  let id := (s.id ||| (1#32 <<< (IDR_BITS * l) - 1)) + 1
  match s.pa with
  | [] => .stop (.needToGrow id s.p) s.free
  | f::pa =>
    let sh := IDR_BITS * (l + 1)
    if s.id.sshiftRight sh = id.sshiftRight sh then .again ⟨pa,close s.p f,l,id,s.free⟩
    else .again ⟨[],plug s.p (f::pa),layers - 1,id,s.free⟩

def goDown (s : Search V) (m : Fin 32) (id : BitVec 32) : Option (Step V) :=
  match s.p.ary m with
  | .sub c => some (.again ⟨⟨s.p,m⟩::s.pa,c,s.l - 1,id,s.free⟩)
  | .ptr _ => none
  | .null =>
    match s.free with
    | 0 => some (.stop (.noMemory (plug s.p s.pa)) 0)
    | free + 1 =>
      let c := zeroed (s.l - 1)
      some (.again ⟨⟨{ s.p.setSlot m (.sub c) with count := s.p.count + 1 },m⟩::s.pa,c,s.l - 1,id,free⟩)

def subAllocStep (layers : Nat) (s : Search V) : Option (Step V) :=
  let n := digit s.id s.l
  let m := findNextBit (~~~s.p.bitmap) 32 n
  if h : m < 32 then
    let sh := IDR_BITS * s.l
    let id := if m ≠ n then (s.id.sshiftRight sh ^^^ BitVec.ofNat 32 n ^^^ BitVec.ofNat 32 m) <<< sh else s.id
    -- id >= MAX_ID_BIT, which is unsigned
    if 2^31 ≤ id.toNat then some (.stop (.noMoreSpace (plug s.p s.pa)) s.free)
    else if s.l = 0 then some (.stop (.slot id s.p s.pa) s.free)
    else goDown s ⟨m,h⟩ id
  else some (backUp layers s)

def subAlloc (layers : Nat) : Nat → Search V → Option (Alloc V × Nat)
  | 0,_ => none
  | fuel + 1,s => do
    match ← subAllocStep layers s with
    | .again s => subAlloc layers fuel s
    | .stop a free => some (a,free)

inductive Built (V : Type) where
  | ready (p : Node V) (layers free : Nat)
  | failed (free : Nat)

/-- The loop that adds layers at the top. When the free list is empty, the new layers go back to it. -/
def buildUp (id : BitVec 32) : Nat → Node V → Nat → Nat → Nat → Built V
  | 0,p,layers,free,_ => .ready p layers free
  | rounds + 1,p,layers,free,new =>
    if layers < MAX_LEVEL - 1 ∧ (1#32 <<< (layers * IDR_BITS)).sle id then
      if p.count = 0 then buildUp id rounds { p with layer := p.layer + 1 } (layers + 1) free new
      else
        match free with
        | 0 => .failed new
        | free + 1 =>
          let bitmap := if p.bitmap = IDR_FULL then setBit 0 0 else 0
          buildUp id rounds ⟨bitmap,Function.update (fun _ => .null) 0 (.sub p),1,layers⟩ (layers + 1) free (new + 1)
    else .ready p layers free

inductive Errno where
  | EAGAIN
  | ENOSPC
  deriving DecidableEq, Repr

inductive Found (V : Type) where
  | slot (id : BitVec 32) (p : Node V) (pa : List (Frame V)) (layers free : Nat)
  | error (e : Errno) (s : Handle V)

def firstLayer (s : Handle V) : Option (Node V × Nat × Nat × Nat) :=
  match s.top,s.idFreeCnt with
  | some p,free => some (p,s.layers,free,0)
  | none,0 => none
  | none,free + 1 => some (zeroed 0,1,free,1)

def getEmptySlot : Nat → BitVec 32 → Handle V → Option (Found V)
  | 0,_,_ => none
  | fuel + 1,id,s =>
    match firstLayer s with
    | none => some (.error .EAGAIN s)
    | some (p,layers,free,new) =>
      match buildUp id MAX_LEVEL p layers free new with
      | .failed free => some (.error .EAGAIN { s with idFreeCnt := free })
      | .ready p layers free => do
        match ← subAlloc layers fuel ⟨[],p,layers - 1,id,free⟩ with
        | (.slot id p pa,free) => some (.slot id p pa layers free)
        | (.needToGrow id top,free) => getEmptySlot fuel id ⟨some top,layers,free⟩
        | (.noMoreSpace top,free) => some (.error .ENOSPC ⟨some top,layers,free⟩)
        | (.noMemory top,free) => some (.error .EAGAIN ⟨some top,layers,free⟩)

def idrGetNewAbove (fuel : Nat) (ptr : Option V) (startingId : BitVec 32) (s : Handle V) :
    Option (Except Errno (BitVec 32) × Handle V) := do
  match ← getEmptySlot fuel startingId s with
  | .error e s => some (.error e,s)
  | .slot id p pa layers free =>
    let p := { p.setSlot (digit id 0) (.ofPtr ptr) with count := p.count + 1 }
    some (.ok id,⟨some (idrMarkFull p pa id),layers,free⟩)

def idrPreGet : List Bool → Handle V → Bool × Handle V
  | [],s => (decide (IDR_FREE_MAX ≤ s.idFreeCnt),s)
  | answer::answers,s =>
    if s.idFreeCnt < IDR_FREE_MAX then
      if answer then idrPreGet answers { s with idFreeCnt := s.idFreeCnt + 1 } else (false,s)
    else (true,s)

def countDown (p : Node V) : Slot V := if p.count - 1 = 0 then .null else .sub { p with count := p.count - 1 }

/-- sub_remove from the layer in a slot down; false is the warning. -/
def subRemove (id : BitVec 32) : Nat → Slot V → Bool × Slot V
  | 0,.sub p =>
    let n := digit id 0
    if p.bitmap.getLsbD n then (true,countDown ({ p with bitmap := clearBit n p.bitmap }.setSlot n .null)) else (false,.sub p)
  | l + 1,.sub p =>
    let n := digit id (l + 1)
    let p := { p with bitmap := clearBit n p.bitmap }
    let (found,c) := subRemove id l (p.ary n)
    (found,if found && c.isNull then countDown (p.setSlot n .null) else .sub (p.setSlot n c))
  | _,s => (false,s)

def topOf : Slot V → Option (Node V)
  | .sub p => some p
  | _ => none

def removeId (id : BitVec 32) (s : Handle V) : Handle V :=
  match s.top with
  | none => s
  | some p =>
    let top := topOf (subRemove id (s.layers - 1) (.sub p)).2
    { s with top := top, layers := if top.isNone then 0 else s.layers }

def removeWarns (id : BitVec 32) (s : Handle V) : Bool :=
  match s.top with
  | none => true
  | some p => !(subRemove (id &&& MAX_ID_MASK) (s.layers - 1) (.sub p)).1

def shrink (s : Handle V) : Handle V :=
  match s.top with
  | none => s
  | some p =>
    match p.ary 0 with
    | .sub c => if p.count = 1 ∧ 1 < s.layers then { s with top := some c, layers := s.layers - 1 } else s
    | _ => s

def idrRemove (id : BitVec 32) (s : Handle V) : Handle V :=
  let s := shrink (removeId (id &&& MAX_ID_MASK) s)
  { s with idFreeCnt := min s.idFreeCnt (IDR_FREE_MAX - 1) }

def findLoop (id : BitVec 32) : Nat → Slot V → Option (Option V)
  | 0,.null => some none
  | 0,.ptr v => some (some v)
  | _ + 1,.null => some none
  -- BUG_ON(n != p->layer*IDR_BITS)
  | l + 1,.sub p => if p.layer = l then findLoop id l (p.ary (digit id l)) else none
  | _,_ => none

def idrFind (id : BitVec 32) (s : Handle V) : Option (Option V) :=
  match s.top with
  | none => some none
  | some p =>
    let id := id &&& MAX_ID_MASK
    if (1#32 <<< ((p.layer + 1) * IDR_BITS)).sle id then some none else findLoop id (p.layer + 1) (.sub p)

/-- The old pointer and the new slot; no old pointer is -ENOENT. -/
def replaceLoop (id : BitVec 32) (ptr : Option V) : Nat → Slot V → Option (Slot V) × Slot V
  | 0,.sub p =>
    let n := digit id 0
    if p.bitmap.getLsbD n then (some (p.ary n),.sub (p.setSlot n (.ofPtr ptr))) else (none,.sub p)
  | l + 1,.sub p =>
    let n := digit id (l + 1)
    let (old,c) := replaceLoop id ptr l (p.ary n)
    (old,.sub (p.setSlot n c))
  | _,s => (none,s)

def idrReplace (ptr : Option V) (id : BitVec 32) (s : Handle V) : Option (Slot V) × Handle V :=
  match s.top with
  | none => (none,s)
  | some p =>
    let id := id &&& MAX_ID_MASK
    if (1#32 <<< ((p.layer + 1) * IDR_BITS)).sle id then (none,s)
    else
      let (old,top) := replaceLoop id ptr p.layer (.sub p)
      (old,{ s with top := topOf top })

end EclairKernel.Idr
