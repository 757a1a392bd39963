import Mathlib.Data.List.Basic

/-! lib/rbtree.c on trees: a node pointer is a subtree together with the path of
frames above it, so that rb_parent is the head of the path. What would follow a
NULL pointer is no result. The parent pointers themselves are left out here. -/
namespace EclairKernel.Rbtree

inductive Color where
  | red
  | black
  deriving DecidableEq, Repr

inductive Tree (α : Type) where
  | leaf
  | node (c : Color) (l : Tree α) (x : α) (r : Tree α)
  deriving DecidableEq, Repr

inductive Frame (α : Type) where
  | left (c : Color) (x : α) (r : Tree α)
  | right (c : Color) (l : Tree α) (x : α)
  deriving DecidableEq, Repr

variable {α : Type}

def plug : Tree α → List (Frame α) → Tree α
  | t, [] => t
  | t, .left c x r::path => plug (.node c t x r) path
  | t, .right c l x::path => plug (.node c l x t) path

def isRed : Tree α → Bool
  | .node .red _ _ _ => true
  | _ => false

def setBlack : Tree α → Tree α
  | .leaf => .leaf
  | .node _ l x r => .node .black l x r

/- `rb_insert_color` from the red node t up. After a rotation the parent of the
node is black, so the loop ends there and the root is set black. -/
def rbInsertColor : Tree α → List (Frame α) → Option (Tree α)
  | t, .left .red p s::.left _ g u::rest =>
    if isRed u then rbInsertColor (.node .red (.node .black t p s) g (setBlack u)) rest
    else some (setBlack (plug (.node .black t p (.node .red s g u)) rest))
  | .node c a x b, .right .red s p::.left _ g u::rest =>
    if isRed u then
      rbInsertColor (.node .red (.node .black s p (.node c a x b)) g (setBlack u)) rest
    else some (setBlack (plug (.node .black (.node .red s p a) x (.node .red b g u)) rest))
  | .node c a x b, .left .red p s::.right _ u g::rest =>
    if isRed u then
      rbInsertColor (.node .red (setBlack u) g (.node .black (.node c a x b) p s)) rest
    else some (setBlack (plug (.node .black (.node .red u g a) x (.node .red b p s)) rest))
  | t, .right .red s p::.right _ u g::rest =>
    if isRed u then rbInsertColor (.node .red (setBlack u) g (.node .black s p t)) rest
    else some (setBlack (plug (.node .black (.node .red u g s) p t) rest))
  | _, [.left .red _ _] => none
  | _, [.right .red _ _] => none
  | .leaf, .right .red _ _::.left _ _ _::_ => none
  | .leaf, .left .red _ _::.right _ _ _::_ => none
  | t, path => some (setBlack (plug t path))

inductive Pass (α : Type) where
  | up (t : Tree α)
  | done (t : Tree α)
  deriving DecidableEq, Repr

def erasePassLeft (cp : Color) (t : Tree α) (p : α) : Tree α → Option (Pass α)
  | .leaf => none
  | .node _ ol o or =>
    if !isRed ol && !isRed or then some (.up (.node cp t p (.node .red ol o or)))
    else if !isRed or then
      match ol with
      | .leaf => none
      | .node _ a y b => some (.done (.node cp (.node .black t p a) y (.node .black b o or)))
    else some (.done (.node cp (.node .black t p ol) o (setBlack or)))

def erasePassRight (cp : Color) (p : α) (t : Tree α) : Tree α → Option (Pass α)
  | .leaf => none
  | .node _ ol o or =>
    if !isRed ol && !isRed or then some (.up (.node cp (.node .red ol o or) p t))
    else if !isRed ol then
      match or with
      | .leaf => none
      | .node _ a y b => some (.done (.node cp (.node .black ol o a) y (.node .black b p t)))
    else some (.done (.node cp (setBlack ol) o (.node .black or p t)))

/- `__rb_erase_color` from the child t that is one black node short. A red
sibling is rotated up first; the parent is red then, so that an `up` from there
ends the loop. -/
def rbEraseColor : Tree α → List (Frame α) → Option (Tree α)
  | t, [] => some (setBlack t)
  | t, .left cp p other::rest =>
    if isRed t then some (plug (setBlack t) (.left cp p other::rest))
    else match other with
      | .node .red ol o or =>
        match erasePassLeft .red t p ol with
        | none => none
        | some (.up t') => some (plug (setBlack t') (.left .black o or::rest))
        | some (.done t') => some (setBlack (plug t' (.left .black o or::rest)))
      | other =>
        match erasePassLeft cp t p other with
        | none => none
        | some (.up t') => rbEraseColor t' rest
        | some (.done t') => some (setBlack (plug t' rest))
  | t, .right cp other p::rest =>
    if isRed t then some (plug (setBlack t) (.right cp other p::rest))
    else match other with
      | .node .red ol o or =>
        match erasePassRight .red p t or with
        | none => none
        | some (.up t') => some (plug (setBlack t') (.right .black ol o::rest))
        | some (.done t') => some (setBlack (plug t' (.right .black ol o::rest)))
      | other =>
        match erasePassRight cp p t other with
        | none => none
        | some (.up t') => rbEraseColor t' rest
        | some (.done t') => some (setBlack (plug t' rest))

structure Spot (α : Type) where
  color : Color
  elem : α
  child : Tree α
  path : List (Frame α)

def leftmost : Tree α → List (Frame α) → Option (Spot α)
  | .leaf, _ => none
  | .node c .leaf x r, path => some ⟨c,x,r,path⟩
  | .node c (.node cl ll lx lr) x r, path => leftmost (.node cl ll lx lr) (.left c x r::path)

def eraseAt (color : Color) (child : Tree α) (path : List (Frame α)) : Option (Tree α) :=
  match color with
  | .black => rbEraseColor child path
  | .red => some (plug child path)

/- `rb_erase` of the node with color c and children l and r at path. With two
children its successor takes its place and color. -/
def rbErase (c : Color) (l r : Tree α) (path : List (Frame α)) : Option (Tree α) :=
  match l, r with
  | .leaf, r => eraseAt c r path
  | l, .leaf => eraseAt c l path
  | l, r =>
    match leftmost r [] with
    | none => none
    | some spot => eraseAt spot.color spot.child (spot.path ++ .right c l spot.elem::path)

def locate [DecidableEq α] (x : α) : Tree α → List (Frame α) → Option (Color × Tree α × Tree α × List (Frame α))
  | .leaf, _ => none
  | .node c l y r, path =>
    if y = x then some (c,l,r,path)
    else (locate x l (.left c y r::path)).or (locate x r (.right c l y::path))

def eraseElem [DecidableEq α] (x : α) (t : Tree α) : Option (Tree α) :=
  match locate x t [] with
  | none => none
  | some (c,l,r,path) => rbErase c l r path

/- The descent of an insertion: `goLeft` decides at each node, and has no result
where the caller's loop hits a BUG. -/
def descend (goLeft : α → Option Bool) : Tree α → List (Frame α) → Option (List (Frame α))
  | .leaf, path => some path
  | .node c l y r, path =>
    match goLeft y with
    | none => none
    | some true => descend goLeft l (.left c y r::path)
    | some false => descend goLeft r (.right c l y::path)

def insertElem (goLeft : α → Option Bool) (x : α) (t : Tree α) : Option (Tree α) :=
  match descend goLeft t [] with
  | none => none
  | some path => rbInsertColor (.node .red .leaf x .leaf) path

/- The search loop of a tree ordered by a key: `key` reads the key of an element
and has no result where that would read a freed object. -/
def search (key : α → Option Nat) (k : Nat) : Tree α → Option (Option α)
  | .leaf => some none
  | .node _ l x r =>
    match key x with
    | none => none
    | some v => if k < v then search key k l else if v < k then search key k r else some (some x)

def insertKeyed (key : α → Option Nat) (k : Nat) (x : α) (t : Tree α) : Option (Tree α) :=
  insertElem (fun y => (key y).bind fun v =>
    if k < v then some true else if v < k then some false else none) x t

def inorder : Tree α → List α
  | .leaf => []
  | .node _ l x r => inorder l ++ x::inorder r

end EclairKernel.Rbtree
