import EclairKernel.Run
import EclairKernel.Rbtree
import Mathlib.Data.Nat.ModEq
import Mathlib.Logic.Function.Basic
import Mathlib.Tactic.Simps.Basic

/-! drivers/staging/android/binder.c: nodes, references and the tables that hold
them. Objects are named by their addresses; reading a freed object, and a BUG, is
no result. What kzalloc answers is handed in call by call. -/
namespace EclairKernel.BinderRefs
open Function Rbtree

def word : Nat := 2^32

-- An int; the Makefile asks for -fwrapv.
def wrap (v : Int) : Int := (v + 2^31) % 2^32 - 2^31

/-- The list node->work.entry is on is left open: `queued` says that it is on one. -/
structure Node where
  proc : Option Nat
  ptr : Nat
  cookie : Nat
  internalStrongRefs : Int
  localWeakRefs : Int
  localStrongRefs : Int
  hasStrongRef : Bool
  hasWeakRef : Bool
  acceptFds : Bool
  queued : Bool
  refs : List Nat
  deriving DecidableEq, Repr

structure Ref where
  proc : Nat
  node : Nat
  desc : Nat
  strong : Int
  weak : Int
  deriving DecidableEq, Repr

structure Proc where
  nodes : Rbtree.Tree Nat
  refsByDesc : Rbtree.Tree Nat
  refsByNode : Rbtree.Tree Nat
  deriving DecidableEq, Repr

structure State where
  node : Nat → Option Node
  ref : Nat → Option Ref
  proc : Nat → Proc
  contextMgrNode : Option Nat

@[simps] def setNode (s : State) (n : Nat) (o : Option Node) : State := {s with node := update s.node n o}
@[simps] def setRef (s : State) (r : Nat) (o : Option Ref) : State := {s with ref := update s.ref r o}
@[simps] def setProc (s : State) (p : Nat) (t : Proc) : State := {s with proc := update s.proc p t}
@[simps] def Proc.setNodes (t : Proc) (nodes : Rbtree.Tree Nat) : Proc := {t with nodes := nodes}
@[simps] def Proc.setRefs (t : Proc) (byDesc byNode : Rbtree.Tree Nat) : Proc :=
  {t with refsByDesc := byDesc, refsByNode := byNode}
@[simps] def Node.setInternalStrong (d : Node) (v : Int) : Node := {d with internalStrongRefs := v}
@[simps] def Node.setLocalStrong (d : Node) (v : Int) : Node := {d with localStrongRefs := v}
@[simps] def Node.setLocalWeak (d : Node) (v : Int) : Node := {d with localWeakRefs := v}
@[simps] def Node.setQueued (d : Node) (v : Bool) : Node := {d with queued := v}
@[simps] def Node.setRefs (d : Node) (refs : List Nat) : Node := {d with refs := refs}

def kzalloc (used : Nat → Bool) (answer : Option Nat) : Option Nat :=
  answer.filter fun a => decide (0 < a ∧ a % 4 = 0 ∧ a < word) && !used a

def nodePtr (s : State) (n : Nat) : Option Nat := (s.node n).map (·.ptr)
def refDesc (s : State) (r : Nat) : Option Nat := (s.ref r).map (·.desc)
def refNode (s : State) (r : Nat) : Option Nat := (s.ref r).map (·.node)

def binderGetNode (s : State) (p ptr : Nat) : Option (Option Nat) :=
  search (nodePtr s) ptr (s.proc p).nodes

def binderNewNode (s : State) (p ptr cookie : Nat) (answer : Option Nat) : Option (State × Option Nat) := do
  let found ← binderGetNode s p ptr
  match found, kzalloc (fun a => (s.node a).isSome) answer with
  | none, some n => do
    let nodes ← insertKeyed (nodePtr s) ptr n (s.proc p).nodes
    some (setNode (setProc s p ((s.proc p).setNodes nodes)) n
      (some ⟨some p,ptr,cookie,0,0,0,false,false,false,false,[]⟩),some n)
  | _, _ => some (s,none)

/-- `target` says that a target_list is given; the Bool of the result is false for -EINVAL. -/
def binderIncNode (s : State) (n : Nat) (strong internal target : Bool) : Option (State × Bool) :=
  match s.node n with
  | none => none
  | some d =>
    if strong then
      let queued := d.queued || (!d.hasStrongRef && target)
      if internal then
        if target = false ∧ d.internalStrongRefs = 0 ∧ ¬ (s.contextMgrNode = some n ∧ d.hasStrongRef = true) then
          some (s,false)
        else some (setNode s n (some ((d.setInternalStrong (wrap (d.internalStrongRefs + 1))).setQueued queued)),true)
      else some (setNode s n (some ((d.setLocalStrong (wrap (d.localStrongRefs + 1))).setQueued queued)),true)
    else
      let d := if internal then d else d.setLocalWeak (wrap (d.localWeakRefs + 1))
      if d.hasWeakRef = false ∧ d.queued = false then
        if target then some (setNode s n (some (d.setQueued true)),true) else some (setNode s n (some d),false)
      else some (setNode s n (some d),true)

def freeNode (s : State) (n : Nat) (owner : Option Nat) : Option State :=
  match owner with
  | none => some (setNode s n none)
  | some p => (eraseElem n (s.proc p).nodes).map fun nodes =>
      setNode (setProc s p ((s.proc p).setNodes nodes)) n none

def binderDecNode (s : State) (n : Nat) (strong internal : Bool) : Option State :=
  match s.node n with
  | none => none
  | some d =>
    let d :=
      if strong then
        if internal then d.setInternalStrong (wrap (d.internalStrongRefs - 1))
        else d.setLocalStrong (wrap (d.localStrongRefs - 1))
      else if internal then d else d.setLocalWeak (wrap (d.localWeakRefs - 1))
    if (if strong then d.localStrongRefs ≠ 0 ∨ d.internalStrongRefs ≠ 0
        else d.localWeakRefs ≠ 0 ∨ d.refs ≠ []) then some (setNode s n (some d))
    else if d.proc.isSome ∧ (d.hasStrongRef ∨ d.hasWeakRef) then some (setNode s n (some (d.setQueued true)))
    else if d.refs = [] ∧ d.localStrongRefs = 0 ∧ d.localWeakRefs = 0 then freeNode s n d.proc
    else some (setNode s n (some d))

def descLoop (s : State) : List Nat → Nat → Option Nat
  | [], desc => some desc
  | r::rest, desc =>
    match s.ref r with
    | none => none
    | some x => if desc < x.desc then some desc else descLoop s rest ((x.desc + 1) % word)

def binderGetRefForNode (s : State) (p n : Nat) (answer : Option Nat) : Option (State × Option Nat) := do
  let found ← search (refNode s) n (s.proc p).refsByNode
  match found, kzalloc (fun a => (s.ref a).isSome) answer with
  | some r, _ => some (s,some r)
  | none, none => some (s,none)
  | none, some r => do
    let byNode ← insertKeyed (refNode s) n r (s.proc p).refsByNode
    let desc ← descLoop s (inorder (s.proc p).refsByDesc) (if s.contextMgrNode = some n then 0 else 1)
    let byDesc ← insertKeyed (refDesc s) desc r (s.proc p).refsByDesc
    let d ← s.node n
    some (setRef (setNode (setProc s p ((s.proc p).setRefs byDesc byNode)) n (some (d.setRefs (r::d.refs)))) r
      (some ⟨p,n,desc,0,0⟩),some r)

def binderDeleteRef (s : State) (r : Nat) : Option State := do
  let x ← s.ref r
  let byDesc ← eraseElem r (s.proc x.proc).refsByDesc
  let byNode ← eraseElem r (s.proc x.proc).refsByNode
  let s := setProc s x.proc ((s.proc x.proc).setRefs byDesc byNode)
  let s ← (if x.strong ≠ 0 then binderDecNode s x.node true true else some s)
  let d ← s.node x.node
  let s ← binderDecNode (setNode s x.node (some (d.setRefs (d.refs.erase r)))) x.node false true
  some (setRef s r none)

def Ref.count (x : Ref) (strong : Bool) : Int := if strong then x.strong else x.weak
def Ref.setCount (x : Ref) (strong : Bool) (v : Int) : Ref :=
  if strong then {x with strong := v} else {x with weak := v}

def binderIncRef (s : State) (r : Nat) (strong target : Bool) : Option (State × Bool) := do
  let x ← s.ref r
  let out ← (if x.count strong = 0 then binderIncNode s x.node strong true target else some (s,true))
  if out.2 then some (setRef out.1 r (some (x.setCount strong (wrap (x.count strong + 1)))),true)
  else some (out.1,false)

def binderDecRef (s : State) (r : Nat) (strong : Bool) : Option (State × Bool) := do
  let x ← s.ref r
  if x.count strong = 0 then some (s,false)
  else do
    let x := x.setCount strong (wrap (x.count strong - 1))
    let s := setRef s r (some x)
    let s ← (if strong = true ∧ x.strong = 0 then binderDecNode s x.node true true else some s)
    let s ← (if x.strong = 0 ∧ x.weak = 0 then binderDeleteRef s r else some s)
    some (s,true)

def binderReadNode (s : State) (n : Nat) : Option State :=
  match s.node n with
  | none => none
  | some d =>
    let strong := decide (d.internalStrongRefs ≠ 0 ∨ d.localStrongRefs ≠ 0)
    let weak := decide (d.refs ≠ [] ∨ d.localWeakRefs ≠ 0) || strong
    if weak ∧ d.hasWeakRef = false then
      some (setNode s n (some {d with hasWeakRef := true, localWeakRefs := wrap (d.localWeakRefs + 1)}))
    else if strong ∧ d.hasStrongRef = false then
      some (setNode s n (some {d with hasStrongRef := true, localStrongRefs := wrap (d.localStrongRefs + 1)}))
    else if strong = false ∧ d.hasStrongRef then some (setNode s n (some {d with hasStrongRef := false}))
    else if weak = false ∧ d.hasWeakRef then some (setNode s n (some {d with hasWeakRef := false}))
    else if weak = false ∧ strong = false then freeNode s n d.proc
    else some (setNode s n (some (d.setQueued false)))

def binderReleaseNode (s : State) (n : Nat) : Option State :=
  match s.node n with
  | none => none
  | some d =>
    if d.refs = [] then freeNode s n d.proc
    else (freeNode s n d.proc).map fun s =>
      setNode s n (some {d with proc := none, localStrongRefs := 0, localWeakRefs := 0, queued := false})

inductive Op where
  | getRefForNode (p n : Nat) (answer : Option Nat)
  | incRef (r : Nat) (strong target : Bool)
  | decRef (r : Nat) (strong : Bool)
  | deleteRef (r : Nat)
  | newNode (p ptr cookie : Nat) (answer : Option Nat)
  | incNode (n : Nat) (strong target : Bool)
  | decNode (n : Nat) (strong : Bool)
  | readNode (n : Nat)
  | flagNode (n : Nat) (hasStrong hasWeak acceptFds queued : Bool)
  | releaseNode (n : Nat)
  | contextMgr (n : Option Nat)
  deriving DecidableEq, Repr

def step (s : State) : Op → Option State
  | .getRefForNode p n answer => (binderGetRefForNode s p n answer).map (·.1)
  | .incRef r strong target => (binderIncRef s r strong target).map (·.1)
  | .decRef r strong => (binderDecRef s r strong).map (·.1)
  | .deleteRef r => binderDeleteRef s r
  | .newNode p ptr cookie answer => (binderNewNode s p ptr cookie answer).map (·.1)
  | .incNode n strong target => (binderIncNode s n strong false target).map (·.1)
  | .decNode n strong => binderDecNode s n strong false
  | .readNode n => binderReadNode s n
  | .flagNode n hasStrong hasWeak acceptFds queued => (s.node n).map fun d => setNode s n
      (some {d with hasStrongRef := hasStrong, hasWeakRef := hasWeak, acceptFds := acceptFds, queued := queued})
  | .releaseNode n => binderReleaseNode s n
  | .contextMgr n => some {s with contextMgrNode := n}

def stepAll (s : Option State) (op : Op) : Option State := s.bind fun s => step s op

-- Callers hold a pointer to a live object; a node is read and released by its owner.
def Live (s : State) : Op → Prop
  | .getRefForNode _ n _ | .incNode n _ _ | .decNode n _ | .flagNode n _ _ _ _ => (s.node n).isSome
  | .incRef r _ _ | .decRef r _ | .deleteRef r => (s.ref r).isSome
  | .readNode n | .releaseNode n => ((s.node n).bind (·.proc)).isSome
  | .newNode _ _ _ _ | .contextMgr _ => True

instance (s op) : Decidable (Live s op) := by cases op <;> unfold Live <;> infer_instance

def Admissible (s : Option State) (op : Op) : Prop := ∀ t, s = some t → Live t op
instance (s op) : Decidable (Admissible s op) := inferInstanceAs (Decidable (∀ t ∈ s, Live t op))

def CountFits (s : State) : Op → Prop
  | .incRef r true _ => ∀ x, s.ref r = some x → x.strong ≠ 2^31 - 1
  | _ => True
instance (s op) : Decidable (CountFits s op) := by
  unfold CountFits
  split
  · exact inferInstanceAs (Decidable (∀ x ∈ s.ref _, _))
  · infer_instance

def AdmissibleFits (s : Option State) (op : Op) : Prop := ∀ t, s = some t → Live t op ∧ CountFits t op
instance (s op) : Decidable (AdmissibleFits s op) := inferInstanceAs (Decidable (∀ t ∈ s, Live t op ∧ CountFits t op))

def empty : State := ⟨fun _ => none,fun _ => none,fun _ => ⟨.leaf,.leaf,.leaf⟩,none⟩

end EclairKernel.BinderRefs
