import EclairKernel.Rbtree

/-! lib/rbtree.c on memory. A node is its address, a multiple of 4, and NULL is 0; the word
rb_parent_color holds the address of the parent with the color in the lowest bit. Following
a NULL pointer is no result, and so is a loop that runs out of fuel. What the source writes
out once for each side has the side as an argument. -/
namespace EclairKernel.RbPointers

abbrev Ptr := BitVec 32

inductive Side where
  | left
  | right
  deriving DecidableEq, Repr

def Side.other : Side → Side
  | .left => .right
  | .right => .left

structure RbNode where
  parentColor : BitVec 32
  right : Ptr
  left : Ptr
  deriving DecidableEq, Repr

def RbNode.child (n : RbNode) : Side → Ptr
  | .left => n.left
  | .right => n.right

def RbNode.setChild (n : RbNode) (p : Ptr) : Side → RbNode
  | .left => { n with left := p }
  | .right => { n with right := p }

structure Memory where
  node : Ptr → RbNode
  root : Ptr

def read (p : Ptr) (h : Memory) : Option RbNode := if p = 0 then none else some (h.node p)

def put (p : Ptr) (n : RbNode) (h : Memory) : Memory := { h with node := Function.update h.node p n }

def write (p : Ptr) (f : RbNode → RbNode) (h : Memory) : Option Memory := (read p h).map fun n => put p (f n) h

def child (s : Side) (p : Ptr) (h : Memory) : Option Ptr := (read p h).map (·.child s)

def setChild (s : Side) (p q : Ptr) : Memory → Option Memory := write p (·.setChild q s)

def RB_BLACK : BitVec 32 := 1

def RbNode.parent (n : RbNode) : Ptr := n.parentColor &&& ~~~3
def RbNode.color (n : RbNode) : BitVec 32 := n.parentColor &&& 1
def RbNode.setParent (n : RbNode) (p : Ptr) : RbNode := { n with parentColor := n.parentColor &&& 3 ||| p }
def RbNode.setRed (n : RbNode) : RbNode := { n with parentColor := n.parentColor &&& ~~~1 }
def RbNode.setBlack (n : RbNode) : RbNode := { n with parentColor := n.parentColor ||| 1 }
def RbNode.setColor (n : RbNode) (c : BitVec 32) : RbNode := { n with parentColor := n.parentColor &&& ~~~1 ||| c }

def rbParent (p : Ptr) (h : Memory) : Option Ptr := (read p h).map (·.parent)
def rbColor (p : Ptr) (h : Memory) : Option (BitVec 32) := (read p h).map (·.color)
def rbIsRed (p : Ptr) (h : Memory) : Option Bool := (rbColor p h).map (· = 0)
def rbIsBlack (p : Ptr) (h : Memory) : Option Bool := (rbColor p h).map (· ≠ 0)
def rbSetParent (p q : Ptr) : Memory → Option Memory := write p (·.setParent q)
def rbSetRed (p : Ptr) : Memory → Option Memory := write p (·.setRed)
def rbSetBlack (p : Ptr) : Memory → Option Memory := write p (·.setBlack)
def rbSetColor (p : Ptr) (c : BitVec 32) : Memory → Option Memory := write p (·.setColor c)

def unlessNull (p : Ptr) (f : Memory → Option Memory) (h : Memory) : Option Memory := if p = 0 then some h else f h

def redThere (p : Ptr) (h : Memory) : Option Bool := if p = 0 then some false else rbIsRed p h
def blackOrNull (p : Ptr) (h : Memory) : Option Bool := if p = 0 then some true else rbIsBlack p h

/-- The link to the node old, which is looked for on the side s first, is made to point to new. -/
def relink (s : Side) (parent old new : Ptr) (h : Memory) : Option Memory :=
  if parent = 0 then some { h with root := new }
  else do
    if old = (← child s parent h) then setChild s parent new h else setChild s.other parent new h

def rbRotate (s : Side) (node : Ptr) (h : Memory) : Option Memory := do
  let right ← child s.other node h
  let parent ← rbParent node h
  let inner ← child s right h
  let h ← setChild s.other node inner h
  let h ← unlessNull inner (fun h => do rbSetParent (← child s right h) node h) h
  let h ← setChild s right node h
  let h ← rbSetParent right parent h
  let h ← relink s parent node right h
  rbSetParent node right h

def rbRotateLeft : Ptr → Memory → Option Memory := rbRotate .left
def rbRotateRight : Ptr → Memory → Option Memory := rbRotate .right

inductive Link where
  | root
  | child (s : Side) (p : Ptr)
  deriving DecidableEq, Repr

def rbLinkNode (node parent : Ptr) (link : Link) (h : Memory) : Option Memory := do
  let h ← write node (fun _ => ⟨parent,0,0⟩) h
  match link with
  | .root => some { h with root := node }
  | .child s p => setChild s p node h

def insertRound (s : Side) (node parent gparent : Ptr) (h : Memory) : Option (Ptr × Memory) := do
  let uncle ← child s.other gparent h
  if ← redThere uncle h then
    let h ← rbSetBlack uncle h
    let h ← rbSetBlack parent h
    let h ← rbSetRed gparent h
    some (gparent,h)
  else
    let inner ← child s.other parent h
    let (parent,node,h) ← (if inner = node then do some (node,parent,← rbRotate s parent h) else some (parent,node,h))
    let h ← rbSetBlack parent h
    let h ← rbSetRed gparent h
    let h ← rbRotate s.other gparent h
    some (node,h)

def insertLoop : Nat → Ptr → Memory → Option Memory
  | 0,_,_ => none
  | fuel + 1,node,h => do
    let parent ← rbParent node h
    if ← redThere parent h then
      let gparent ← rbParent parent h
      let left ← child .left gparent h
      let (node,h) ← insertRound (if parent = left then .left else .right) node parent gparent h
      insertLoop fuel node h
    else some h

def rbInsertColor (fuel : Nat) (node : Ptr) (h : Memory) : Option Memory := do
  let h ← insertLoop fuel node h
  rbSetBlack h.root h

inductive Round where
  | up (node parent : Ptr) (h : Memory)
  | stop (h : Memory)

def blackSibling (s : Side) (parent : Ptr) (h : Memory) : Option (Ptr × Memory) := do
  let other ← child s.other parent h
  if ← rbIsRed other h then
    let h ← rbSetBlack other h
    let h ← rbSetRed parent h
    let h ← rbRotate s parent h
    some (← child s.other parent h,h)
  else some (other,h)

def outerRed (s : Side) (parent other : Ptr) (h : Memory) : Option (Ptr × Memory) := do
  if ← blackOrNull (← child s.other other h) h then
    let inner ← child s other h
    let h ← unlessNull inner (rbSetBlack inner) h
    let h ← rbSetRed other h
    let h ← rbRotate s.other other h
    some (← child s.other parent h,h)
  else some (other,h)

def eraseTurn (s : Side) (parent other : Ptr) (h : Memory) : Option Memory := do
  let h ← rbSetColor other (← rbColor parent h) h
  let h ← rbSetBlack parent h
  let outer ← child s.other other h
  let h ← unlessNull outer (rbSetBlack outer) h
  rbRotate s parent h

def blackRound (s : Side) (parent other : Ptr) (h : Memory) : Option Round := do
  if (← blackOrNull (← child .left other h) h) && (← blackOrNull (← child .right other h) h) then
    let h ← rbSetRed other h
    some (.up parent (← rbParent parent h) h)
  else
    let (other,h) ← outerRed s parent other h
    some (.stop (← eraseTurn s parent other h))

def eraseRound (s : Side) (parent : Ptr) (h : Memory) : Option Round := do
  let (other,h) ← blackSibling s parent h
  blackRound s parent other h

def eraseLoop : Nat → Ptr → Ptr → Memory → Option (Ptr × Memory)
  | 0,_,_,_ => none
  | fuel + 1,node,parent,h => do
    if (← blackOrNull node h) && node ≠ h.root then
      let left ← child .left parent h
      match ← eraseRound (if left = node then .left else .right) parent h with
      | .up node parent h => eraseLoop fuel node parent h
      | .stop h => some (h.root,h)
    else some (node,h)

def rbEraseColor (fuel : Nat) (node parent : Ptr) (h : Memory) : Option Memory := do
  let (node,h) ← eraseLoop fuel node parent h
  unlessNull node (rbSetBlack node) h

def leftmostLoop : Nat → Ptr → Memory → Option Ptr
  | 0,_,_ => none
  | fuel + 1,node,h => do
    let left ← child .left node h
    if left = 0 then some node else leftmostLoop fuel left h

/-- What is left to do: the color that went, the child that took the place, and its parent. -/
structure Gone where
  color : BitVec 32
  child : Ptr
  parent : Ptr
  deriving DecidableEq, Repr

def eraseSingle (node below : Ptr) (h : Memory) : Option (Gone × Memory) := do
  let parent ← rbParent node h
  let color ← rbColor node h
  let h ← unlessNull below (rbSetParent below parent) h
  let h ← relink .left parent node below h
  some (⟨color,below,parent⟩,h)

def takePlace (old node : Ptr) (h : Memory) : Option Memory := do
  let fields ← read old h
  let h ← write node (fun _ => fields) h
  let h ← relink .left (← rbParent old h) old node h
  let h ← rbSetParent (← child .left old h) node h
  let right ← child .right old h
  unlessNull right (rbSetParent right node) h

def eraseDouble (fuel : Nat) (old : Ptr) (h : Memory) : Option (Gone × Memory) := do
  let node ← leftmostLoop fuel (← child .right old h) h
  let below ← child .right node h
  let parent ← rbParent node h
  let color ← rbColor node h
  let h ← unlessNull below (rbSetParent below parent) h
  let h ← setChild (if parent = old then .right else .left) parent below h
  let h ← takePlace old node h
  some (⟨color,below,if parent = old then node else parent⟩,h)

def rbErase (fuel : Nat) (node : Ptr) (h : Memory) : Option Memory := do
  let left ← child .left node h
  let right ← child .right node h
  let (gone,h) ← (if left = 0 then eraseSingle node right h
    else if right = 0 then eraseSingle node left h
    else eraseDouble fuel node h)
  if gone.color = RB_BLACK then rbEraseColor fuel gone.child gone.parent h else some h

end EclairKernel.RbPointers
