import Mathlib.Data.Nat.ModEq
import Mathlib.Logic.Function.Basic

/-! The radix tree of lib/radix-tree.c. A slot's loops down the tree become
recursions on the height, the answers of the node allocator are handed in, and a
call that runs into a BUG_ON has no result. -/
namespace EclairKernel.RadixTree
open Function

def RADIX_TREE_MAP_SHIFT : Nat := 6
abbrev RADIX_TREE_MAP_SIZE : Nat := 64
abbrev RADIX_TREE_MAX_TAGS : Nat := 2
def RADIX_TREE_INDEX_BITS : Nat := 32
def RADIX_TREE_MAX_PATH : Nat := 6
def ENOMEM : Int := 12
def EEXIST : Int := 17

-- What callers may store: NULL means no item, and the low bit marks the root's
-- pointer to a node.
structure Item where
  ptr : Nat
  nonNull : ptr ≠ 0
  direct : ptr % 2 = 0
  deriving DecidableEq

def Item.isIndirectPtr (x : Item) : Bool := x.ptr % 2 == 1

structure Node (S : Type) where
  height : Nat
  count : Nat
  slots : Fin RADIX_TREE_MAP_SIZE → S
  tags : Fin RADIX_TREE_MAX_TAGS → Fin RADIX_TREE_MAP_SIZE → Bool

inductive Slot where
  | null
  | item (x : Item)
  | node (n : Node Slot)

def Slot.isNull : Slot → Bool
  | .null => true
  | _ => false

def Slot.toItem : Slot → Option Item
  | .item x => some x
  | _ => none

-- `tags` are the bits of `gfp_mask` above `__GFP_BITS_SHIFT`; `rnode` is an
-- indirect pointer exactly when it is a node.
structure Root where
  height : Nat
  tags : Fin RADIX_TREE_MAX_TAGS → Bool
  rnode : Slot

def radixTreeInit : Root := ⟨0,fun _ => false,.null⟩

namespace Node
variable (n : Node Slot)

def setSlot (offset : Fin RADIX_TREE_MAP_SIZE) (child : Slot) : Node Slot :=
  { n with slots := update n.slots offset child }

def store (offset : Fin RADIX_TREE_MAP_SIZE) (child : Slot) : Node Slot :=
  { n.setSlot offset child with
    count := if (n.slots offset).isNull && !child.isNull then n.count + 1 else n.count }

def setTag (tag : Fin RADIX_TREE_MAX_TAGS) (offset : Fin RADIX_TREE_MAP_SIZE) (bit : Bool) : Node Slot :=
  { n with tags := update n.tags tag (update (n.tags tag) offset bit) }

def anyTagSet (tag : Fin RADIX_TREE_MAX_TAGS) : Bool := (List.finRange RADIX_TREE_MAP_SIZE).any (n.tags tag)

def zeroed (height : Nat) : Node Slot := ⟨height,0,fun _ => .null,fun _ _ => false⟩

def rcuFree : Node Slot :=
  { ((n.setTag 0 0 false).setTag 1 0 false).setSlot 0 .null with count := 0 }

end Node

def radixTreeMaxindex (height : Nat) : Nat :=
  let shift : Int := RADIX_TREE_INDEX_BITS - height * RADIX_TREE_MAP_SHIFT
  if shift < 0 then 2^32 - 1
  else if 32 ≤ shift then 0
  else (2^32 - 1) >>> shift.toNat

def offsetAt (index h : Nat) : Fin RADIX_TREE_MAP_SIZE :=
  Fin.ofNat RADIX_TREE_MAP_SIZE (index >>> (RADIX_TREE_MAP_SHIFT * h))

def heightFor (index : Nat) : Nat → Nat → Nat
  | 0, height => height
  | fuel+1, height => if radixTreeMaxindex height < index then heightFor index fuel (height + 1) else height

def raise (root : Root) : Root :=
  { root with
    height := root.height + 1
    rnode := .node ⟨root.height + 1,1,update (fun _ => .null) 0 root.rnode,
      fun tag offset => offset == 0 && root.tags tag⟩ }

def extendLoop : Nat → Root → List Bool → Int × Root × List Bool
  | 0, root, allocs => (0,root,allocs)
  | k+1, root, true::allocs => extendLoop k (raise root) allocs
  | _+1, root, _ => (-ENOMEM,root,[])

def radixTreeExtend (root : Root) (index : Nat) (allocs : List Bool) : Int × Root × List Bool :=
  let height := heightFor index RADIX_TREE_MAX_PATH (root.height + 1)
  if root.rnode.isNull then (0,{ root with height := height },allocs)
  else extendLoop (height - root.height) root allocs

def nodeFor (height : Nat) : Slot → List Bool → Option (Node Slot × List Bool)
  | .null, true::allocs => some (.zeroed height,allocs)
  | .node n, allocs => some (n,allocs)
  | _, _ => none

def insertLoop (index : Nat) (x : Item) : Nat → Slot → List Bool → Option (Int × Slot)
  | 0, slot, _ => some (if slot.isNull then (0,.item x) else (-EEXIST,slot))
  | h+1, slot, allocs =>
    match nodeFor (h + 1) slot allocs with
    | none => some (-ENOMEM,slot)
    | some (n,allocs) =>
      let offset := offsetAt index h
      match insertLoop index x h (n.slots offset) allocs with
      | none => none
      | some (code,child) =>
        -- BUG_ON(tag_get(node, 0, offset)), BUG_ON(tag_get(node, 1, offset))
        if h = 0 ∧ code = 0 ∧ (n.tags 0 offset || n.tags 1 offset) then none
        else some (code,.node (n.store offset child))

def radixTreeInsert (root : Root) (index : Nat) (x : Item) (allocs : List Bool) : Option (Int × Root) :=
  if x.isIndirectPtr then none
  else
    let grown := if radixTreeMaxindex root.height < index then radixTreeExtend root index allocs else (0,root,allocs)
    if grown.1 ≠ 0 then some (grown.1,grown.2.1)
    else
      let root := grown.2.1
      match insertLoop index x root.height root.rnode grown.2.2 with
      | none => none
      | some (code,rnode) =>
        -- BUG_ON(root_tag_get(root, 0)), BUG_ON(root_tag_get(root, 1))
        if root.height = 0 ∧ code = 0 ∧ (root.tags 0 || root.tags 1) then none
        else some (code,{ root with rnode := rnode })

def slotAt (index : Nat) : Nat → Slot → Slot
  | 0, slot => slot
  | h+1, .node n => slotAt index h (n.slots (offsetAt index h))
  | _+1, _ => .null

def radixTreeLookup (root : Root) (index : Nat) : Option Item :=
  match root.rnode with
  | .null => none
  | .item x => if 0 < index then none else some x
  | .node n => if radixTreeMaxindex n.height < index then none else (slotAt index n.height (.node n)).toItem

def tagSetLoop (index : Nat) (tag : Fin RADIX_TREE_MAX_TAGS) : Nat → Slot → Option Slot
  | 0, slot => some slot
  | h+1, .node n =>
    let offset := offsetAt index h
    if (n.slots offset).isNull then none
    else (tagSetLoop index tag h (n.slots offset)).map fun child => .node ((n.setTag tag offset true).setSlot offset child)
  | _+1, _ => none

def radixTreeTagSet (root : Root) (index : Nat) (tag : Fin RADIX_TREE_MAX_TAGS) : Option (Option Item × Root) :=
  if radixTreeMaxindex root.height < index then none
  else (tagSetLoop index tag root.height root.rnode).map fun rnode =>
    let slot := slotAt index root.height root.rnode
    (slot.toItem,
      { root with
        rnode := rnode
        tags := if slot.isNull then root.tags else update root.tags tag true })

-- The way back up the path; the flag says that the level above is to be cleared too.
def tagClearLoop (index : Nat) (tag : Fin RADIX_TREE_MAX_TAGS) : Nat → Slot → Slot × Bool
  | 0, slot => (slot,true)
  | h+1, .node n =>
    let offset := offsetAt index h
    let below := tagClearLoop index tag h (n.slots offset)
    let n := n.setSlot offset below.1
    if !below.2 || !n.tags tag offset then (.node n,false)
    else (.node (n.setTag tag offset false),!(n.setTag tag offset false).anyTagSet tag)
  | _+1, slot => (slot,false)

def radixTreeTagClear (root : Root) (index : Nat) (tag : Fin RADIX_TREE_MAX_TAGS) : Option Item × Root :=
  if radixTreeMaxindex root.height < index then (none,root)
  else
    let slot := slotAt index root.height root.rnode
    if slot.isNull then (none,root)
    else
      let cleared := tagClearLoop index tag root.height root.rnode
      (slot.toItem,
        { root with
          rnode := cleared.1
          tags := if cleared.2 then update root.tags tag false else root.tags })

def tagGetLoop (index : Nat) (tag : Fin RADIX_TREE_MAX_TAGS) : Nat → Slot → Bool → Option Bool
  | h+1, .node n, sawUnsetTag =>
    let bit := n.tags tag (offsetAt index h)
    let sawUnsetTag := sawUnsetTag || !bit
    if h = 0 then if bit && sawUnsetTag then none else some bit
    else tagGetLoop index tag h (n.slots (offsetAt index h)) sawUnsetTag
  | _, _, _ => some false

def radixTreeTagGet (root : Root) (index : Nat) (tag : Fin RADIX_TREE_MAX_TAGS) : Option Bool :=
  if !root.tags tag then some false
  else match root.rnode with
    | .null => some false
    | .item _ => some (index == 0)
    | .node n => if radixTreeMaxindex n.height < index then some false else tagGetLoop index tag n.height (.node n) false

structure Shrunk where
  height : Nat
  rnode : Slot
  freed : List (Node Slot)

def shrinkLoop : Nat → Slot → Option Shrunk
  | 0, slot => some ⟨0,slot,[]⟩
  | h+1, .node n =>
    if n.count ≠ 1 ∨ (n.slots 0).isNull then some ⟨h + 1,.node n,[]⟩
    else (shrinkLoop h (n.slots 0)).map fun s => { s with freed := n::s.freed }
  | _+1, _ => none

-- The path upwards with the item's slot set to NULL. `here` says that a slot of
-- this very node was.
structure Removed where
  slot : Slot
  here : Bool
  freed : List (Node Slot)

def removeLoop (index : Nat) : Nat → Slot → Removed
  | 0, _ => ⟨.null,true,[]⟩
  | h+1, .node n =>
    let offset := offsetAt index h
    let below := removeLoop index h (n.slots offset)
    if below.slot.isNull then
      let n : Node Slot := { n.setSlot offset .null with count := n.count - 1 }
      if n.count ≠ 0 then ⟨.node n,true,below.freed⟩ else ⟨.null,true,n::below.freed⟩
    else ⟨.node (n.setSlot offset below.slot),false,below.freed⟩
  | _+1, slot => ⟨slot,false,[]⟩

def leafTag (index : Nat) (tag : Fin RADIX_TREE_MAX_TAGS) : Nat → Slot → Bool
  | h+1, .node n =>
    if h = 0 then n.tags tag (offsetAt index h) else leafTag index tag h (n.slots (offsetAt index h))
  | _, _ => false

def clearTags (root : Root) (index : Nat) : Root :=
  (List.finRange RADIX_TREE_MAX_TAGS).foldl
    (fun r tag => if leafTag index tag r.height r.rnode then (radixTreeTagClear r index tag).2 else r) root

structure Deleted where
  item : Option Item
  root : Root
  freed : List (Node Slot)

def radixTreeDelete (root : Root) (index : Nat) : Option Deleted :=
  if radixTreeMaxindex root.height < index then some ⟨none,root,[]⟩
  else if root.height = 0 then some ⟨root.rnode.toItem,{ root with tags := fun _ => false, rnode := .null },[]⟩
  else
    let slot := slotAt index root.height root.rnode
    if slot.isNull then some ⟨none,root,[]⟩
    else
      let root := clearTags root index
      let removed := removeLoop index root.height root.rnode
      if removed.slot.isNull then some ⟨slot.toItem,⟨0,fun _ => false,.null⟩,removed.freed⟩
      else if removed.here then
        (shrinkLoop root.height removed.slot).map fun s =>
          ⟨slot.toItem,{ root with height := s.height, rnode := s.rnode },removed.freed ++ s.freed⟩
      else some ⟨slot.toItem,{ root with rnode := removed.slot },removed.freed⟩

end EclairKernel.RadixTree
