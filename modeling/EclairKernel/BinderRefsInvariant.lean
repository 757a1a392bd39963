import EclairKernel.BinderRefs
import EclairKernel.RbtreeBalance
import Mathlib.Data.List.Perm.Subperm

/-! The tables of nodes and references: the trees of a process hold exactly what
belongs to it, the list of a node its references, and the internal count the
strong ones among them. Every operation on references keeps this. -/
namespace EclairKernel.BinderRefs
open Function List Option Rbtree

def Owned (s : State) (p n : Nat) : Prop := ∃ d, s.node n = some d ∧ d.proc = some p
def RefOf (s : State) (p r : Nat) : Prop := ∃ x, s.ref r = some x ∧ x.proc = p

def ptrOf (s : State) (n : Nat) : Nat := (nodePtr s n).getD 0
def descOf (s : State) (r : Nat) : Nat := (refDesc s r).getD 0
def nodeOf (s : State) (r : Nat) : Nat := (refNode s r).getD 0
def isStrong (s : State) (r : Nat) : Bool := (s.ref r).any fun x => x.strong ≠ 0

structure Tables (s : State) : Prop where
  nodes : ∀ p, Holds (s.proc p).nodes (Owned s p) (fun a b => ptrOf s a < ptrOf s b)
  byDesc : ∀ p, Holds (s.proc p).refsByDesc (RefOf s p) (fun a b => descOf s a < descOf s b)
  byNode : ∀ p, Holds (s.proc p).refsByNode (RefOf s p) (fun a b => nodeOf s a < nodeOf s b)
  pointed : ∀ r x, s.ref r = some x → ∃ d, s.node x.node = some d ∧ r ∈ d.refs
  listed : ∀ n d, s.node n = some d → ∀ r ∈ d.refs, ∃ x, s.ref r = some x ∧ x.node = n
  once : ∀ n d, s.node n = some d → d.refs.Nodup
  strong : ∀ n d, s.node n = some d → d.internalStrongRefs = d.refs.countP (isStrong s)
  address : ∀ r x, s.ref r = some x → r % 4 = 0 ∧ r < word ∧ x.desc + 1 < word

variable {s s'}

structure Alike (s s' : State) : Prop where
  node : ∀ n, (s'.node n).map (fun d => (d.proc,d.ptr,d.cookie,d.refs)) =
    (s.node n).map fun d => (d.proc,d.ptr,d.cookie,d.refs)
  ref : ∀ r, (s'.ref r).map (fun x => (x.proc,x.node,x.desc)) = (s.ref r).map fun x => (x.proc,x.node,x.desc)

variable {n r d' d x}

section
variable (alike : Alike s s')
include alike

theorem alikeNode (known : s'.node n = some d') :
    ∃ d, s.node n = some d ∧ d'.proc = d.proc ∧ d'.ptr = d.ptr ∧ d'.cookie = d.cookie ∧ d'.refs = d.refs := by
  have same := alike.node n
  rw [known,map_some,eq_comm,map_eq_some_iff] at same
  obtain ⟨d,here,same⟩ := same
  exact ⟨d,here,by simpa only [Prod.mk.injEq] using same.symm⟩

theorem alikeRef {x'} (known : s'.ref r = some x') :
    ∃ x, s.ref r = some x ∧ x'.proc = x.proc ∧ x'.node = x.node ∧ x'.desc = x.desc := by
  have same := alike.ref r
  rw [known,map_some,eq_comm,map_eq_some_iff] at same
  obtain ⟨x,here,same⟩ := same
  exact ⟨x,here,by simpa only [Prod.mk.injEq] using same.symm⟩

theorem alikeSymm : Alike s' s :=
  ⟨fun n => (alike.node n).symm,fun r => (alike.ref r).symm⟩

theorem alikeOwned (p n : Nat) : Owned s p n ↔ Owned s' p n := by
  have back {s s'} (alike : Alike s s') : Owned s' p n → Owned s p n := by
    rintro ⟨d',known,owner⟩
    obtain ⟨d,there,same,_⟩ := alikeNode alike known
    exact ⟨d,there,same ▸ owner⟩
  exact ⟨back (alikeSymm alike),back alike⟩

theorem alikeRefOf (p r : Nat) : RefOf s p r ↔ RefOf s' p r := by
  have back {s s'} (alike : Alike s s') : RefOf s' p r → RefOf s p r := by
    rintro ⟨x',known,owner⟩
    obtain ⟨x,there,same,_⟩ := alikeRef alike known
    exact ⟨x,there,same ▸ owner⟩
  exact ⟨back (alikeSymm alike),back alike⟩

theorem alikeKeys (a : Nat) : ptrOf s' a = ptrOf s a ∧ descOf s' a = descOf s a ∧ nodeOf s' a = nodeOf s a := by
  have node := alike.node a
  have ref := alike.ref a
  refine ⟨?_,?_,?_⟩
  · cases here : s.node a <;> cases there : s'.node a <;> simp_all [ptrOf,nodePtr]
  · cases here : s.ref a <;> cases there : s'.ref a <;> simp_all [descOf,refDesc]
  · cases here : s.ref a <;> cases there : s'.ref a <;> simp_all [nodeOf,refNode]

end

structure NodeOk (s : State) (n : Nat) (d : Node) : Prop where
  listed : ∀ r, r ∈ d.refs ↔ ∃ x, s.ref r = some x ∧ x.node = n
  once : d.refs.Nodup
  strong : d.internalStrongRefs = d.refs.countP (isStrong s)

def strongList (s : State) (n : Nat) : List Nat := (s.node n).elim [] fun d => d.refs.filter (isStrong s)

def Placed (d d' : Node) : Prop := d'.proc = d.proc ∧ d'.ptr = d.ptr ∧ d'.cookie = d.cookie ∧ d'.refs = d.refs

theorem setNodeAlike (known : s.node n = some d) (same : Placed d d') : Alike s (setNode s n (some d')) := by
  refine ⟨?_,fun _ => rfl⟩
  intro m
  by_cases here : m = n
  · subst here
    obtain ⟨proc,ptr,cookie,refs⟩ := same
    simp [known,proc,ptr,cookie,refs]
  · simp [here]

theorem countFlip {l : List Nat} {f g : Nat → Bool} (once : l.Nodup) (mem : r ∈ l)
    (same : ∀ y ∈ l, y ≠ r → g y = f y) : l.countP g + (f r).toNat = l.countP f + (g r).toNat := by
  induction l with
  | nil => simp at mem
  | cons y rest ih =>
    obtain ⟨outside,once⟩ := nodup_cons.mp once
    by_cases here : y = r
    · subst here
      have rest : rest.countP g = rest.countP f := by
        refine countP_congr fun z hz => ?_
        rw [same z (mem_cons_of_mem _ hz) fun bad => outside (bad ▸ hz)]
      rw [countP_cons,countP_cons,rest]
      cases f y <;> cases g y <;> simp
    · have other := same y mem_cons_self here
      have tail := ih once ((mem_cons.mp mem).resolve_left (Ne.symm here)) fun z hz =>
        same z (mem_cons_of_mem _ hz)
      rw [countP_cons,countP_cons,other]
      omega

theorem countedAlike {x'} (known : s.ref r = some x) (there : s.node x.node = some d)
    (samex : x'.proc = x.proc ∧ x'.node = x.node ∧ x'.desc = x.desc) (samed : Placed d d') :
    Alike s (setRef (setNode s x.node (some d')) r (some x')) := by
  refine ⟨(setNodeAlike there samed).node,fun y => ?_⟩
  by_cases here : y = r
  · subst here
    simp [known,samex]
  · simp [here]

inductive Raised (s : State) (n : Nat) (d : Node) (strong internal target : Bool) : Node → Bool → Prop where
  | refusedStrong : strong = true → internal = true → target = false → Raised s n d strong internal target d false
  | refusedWeak : strong = false → target = false →
      Raised s n d strong internal target (if internal then d else d.setLocalWeak (wrap (d.localWeakRefs + 1))) false
  | internalStrong (queued : Bool) : strong = true → internal = true →
      Raised s n d strong internal target ((d.setInternalStrong (wrap (d.internalStrongRefs + 1))).setQueued queued) true
  | localStrong (queued : Bool) : strong = true → internal = false →
      Raised s n d strong internal target ((d.setLocalStrong (wrap (d.localStrongRefs + 1))).setQueued queued) true
  | weak (queued : Bool) : strong = false → Raised s n d strong internal target
      ((if internal then d else d.setLocalWeak (wrap (d.localWeakRefs + 1))).setQueued queued) true

theorem setNodeSame (known : s.node n = some d) : setNode s n (some d) = s := by
  simp [setNode,← known]

theorem incNodeRaised (known : s.node n = some d) (strong internal target : Bool) :
    ∃ d' ok, binderIncNode s n strong internal target = some (setNode s n (some d'),ok) ∧
      Raised s n d strong internal target d' ok := by
  cases strong with
  | true =>
    cases internal with
    | true =>
      simp only [binderIncNode,known,if_true]
      split
      · rename_i refused
        exact ⟨d,false,by rw [setNodeSame known],.refusedStrong rfl rfl refused.1⟩
      · exact ⟨_,true,rfl,.internalStrong _ rfl rfl⟩
    | false =>
      simp only [binderIncNode,known]
      exact ⟨_,true,rfl,.localStrong _ rfl rfl⟩
  | false =>
    simp only [binderIncNode,known,Bool.false_eq_true,if_false]
    generalize raised : (if internal = true then d else d.setLocalWeak (wrap (d.localWeakRefs + 1))) = e
    split
    · cases target with
      | true => exact ⟨_,true,rfl,raised ▸ .weak true rfl⟩
      | false => exact ⟨e,false,rfl,raised ▸ .refusedWeak rfl rfl⟩
    · exact ⟨e,true,rfl,by rw [← raised]; exact .weak _ rfl⟩

theorem wrapFits {v} (low : -2^31 ≤ v) (high : v < 2^31) : wrap v = v := by
  simp only [wrap]
  omega

theorem addressesBounded {l : List Nat} (once : l.Nodup) (address : ∀ r ∈ l, r % 4 = 0 ∧ r < word) :
    l.length ≤ 2 ^ 30 := by
  have apart : (l.map (· / 4)).Nodup := by
    refine once.map_on ?_
    intro a ha b hb same
    have wordA := (address a ha).1
    have wordB := (address b hb).1
    omega
  have inside : l.map (· / 4) ⊆ List.range (2 ^ 30) := by
    intro q hq
    obtain ⟨a,ha,rfl⟩ := mem_map.mp hq
    have := (address a ha).2
    simp only [mem_range,word] at this ⊢
    omega
  have short := (subperm_of_subset apart inside).length_le
  simpa using short

section
variable (tables : Tables s)
include tables

theorem tablesAlike (alike : Alike s s') (proc : s'.proc = s.proc)
    (strong : ∀ n d, s'.node n = some d → d.internalStrongRefs = d.refs.countP (isStrong s')) : Tables s' := by
  have keys := alikeKeys alike
  refine ⟨?_,?_,?_,?_,?_,?_,strong,?_⟩
  · intro p
    rw [proc]
    exact holdsKeys (tables.nodes p) (alikeOwned alike p) fun x _ => (keys x).1
  · intro p
    rw [proc]
    exact holdsKeys (tables.byDesc p) (alikeRefOf alike p) fun x _ => (keys x).2.1
  · intro p
    rw [proc]
    exact holdsKeys (tables.byNode p) (alikeRefOf alike p) fun x _ => (keys x).2.2
  · intro r x' known
    obtain ⟨x,there,_,node,_⟩ := alikeRef alike known
    obtain ⟨d,here,listed⟩ := tables.pointed r x there
    obtain ⟨d',here',_,_,_,refs⟩ := alikeNode (alikeSymm alike) here
    exact ⟨d',node ▸ here',refs ▸ listed⟩
  · intro n d' known r mem
    obtain ⟨d,there,_,_,_,refs⟩ := alikeNode alike known
    obtain ⟨x,here,points⟩ := tables.listed n d there r (refs ▸ mem)
    obtain ⟨x',here',_,node,_⟩ := alikeRef (alikeSymm alike) here
    exact ⟨x',here',node.symm.trans points⟩
  · intro n d' known
    obtain ⟨d,there,_,_,_,refs⟩ := alikeNode alike known
    exact refs ▸ tables.once n d there
  · intro r x' known
    obtain ⟨x,there,_,_,desc⟩ := alikeRef alike known
    exact desc ▸ tables.address r x there

theorem strongListNodup (n : Nat) : (strongList s n).Nodup := by
  cases known : s.node n with
  | none => simp [strongList,known]
  | some d => simpa [strongList,known] using (tables.once n d known).filter (isStrong s)

theorem strongListMem (n r : Nat) : r ∈ strongList s n ↔ ∃ x, s.ref r = some x ∧ x.node = n ∧ x.strong ≠ 0 := by
  constructor
  · intro mem
    cases known : s.node n with
    | none => simp [strongList,known] at mem
    | some d =>
      simp only [strongList,known,elim_some,mem_filter] at mem
      obtain ⟨x,here,points⟩ := tables.listed n d known r mem.1
      exact ⟨x,here,points,by simpa [isStrong,here] using mem.2⟩
  · rintro ⟨x,here,rfl,strong⟩
    obtain ⟨d,there,listed⟩ := tables.pointed r x here
    simp [strongList,there,listed,isStrong,here,strong]

section
variable (known : s.node n = some d)
include known

theorem Tables.nodeOk : NodeOk s n d := by
  refine ⟨fun r => ⟨tables.listed n d known r,?_⟩,tables.once n d known,tables.strong n d known⟩
  rintro ⟨x,here,rfl⟩
  obtain ⟨e,there,mem⟩ := tables.pointed r x here
  cases some.inj (there.symm.trans known)
  exact mem

theorem strongListLength : d.internalStrongRefs = (strongList s n).length := by
  rw [tables.strong n d known,countP_eq_length_filter]
  simp [strongList,known]

theorem tablesNode
    (same : Placed d d') (strong : d'.internalStrongRefs = d.internalStrongRefs) : Tables (setNode s n (some d')) := by
  refine tablesAlike tables (setNodeAlike known same) rfl ?_
  intro m e here
  by_cases own : m = n
  · subst own
    simp only [setNode_node,update_self,some.injEq] at here
    subst here
    rw [strong,same.2.2.2]
    exact tables.strong m d known
  · simp only [setNode_node,update_of_ne own] at here
    exact tables.strong m e here

theorem internalBound : 0 ≤ d.internalStrongRefs ∧ d.internalStrongRefs ≤ 2^30 := by
  have length := addressesBounded (tables.once n d known) fun r hr => by
    obtain ⟨x,here,_⟩ := tables.listed n d known r hr
    exact ⟨(tables.address r x here).1,(tables.address r x here).2.1⟩
  have count := countP_le_length (p := isStrong s) (l := d.refs)
  rw [tables.strong n d known]
  omega

end

-- Only the node n, the references to it and the trees change.
theorem tablesChange (nodes : ∀ m, m ≠ n → s'.node m = s.node m)
    (refs : ∀ r x, x.node ≠ n → (s'.ref r = some x ↔ s.ref r = some x)) (own : ∀ d, s'.node n = some d → NodeOk s' n d)
    (mine : ∀ r x, s'.ref r = some x → x.node = n → (s'.node n).isSome ∧ r % 4 = 0 ∧ r < word ∧ x.desc + 1 < word)
    (inNodes : ∀ p, Holds (s'.proc p).nodes (Owned s' p) fun a b => ptrOf s' a < ptrOf s' b)
    (inDesc : ∀ p, Holds (s'.proc p).refsByDesc (RefOf s' p) fun a b => descOf s' a < descOf s' b)
    (inNode : ∀ p, Holds (s'.proc p).refsByNode (RefOf s' p) fun a b => nodeOf s' a < nodeOf s' b) : Tables s' := by
  have each : ∀ m d, s'.node m = some d → NodeOk s' m d := by
    intro m d known
    by_cases here : m = n
    · subst here
      exact own d known
    have old := tables.nodeOk ((nodes m here).symm.trans known)
    refine ⟨fun r => (old.listed r).trans ?_,old.once,old.strong.trans (congrArg Nat.cast (countP_congr fun r mem => ?_))⟩
    · exact exists_congr fun x => and_congr_left fun points => (refs r x (points ▸ here)).symm
    · obtain ⟨x,before,points⟩ := (old.listed r).mp mem
      simp [isStrong,before,(refs r x (points ▸ here)).mpr before]
  refine ⟨inNodes,inDesc,inNode,fun r x known => ?_,fun m d known r => ((each m d known).listed r).mp,
    fun m d known => (each m d known).once,fun m d known => (each m d known).strong,fun r x known => ?_⟩
  all_goals by_cases here : x.node = n
  · obtain ⟨d,there⟩ := isSome_iff_exists.mp (mine r x known here).1
    exact ⟨d,here ▸ there,((own d there).listed r).mpr ⟨x,known,here⟩⟩
  · obtain ⟨d,there,mem⟩ := tables.pointed r x ((refs r x here).mp known)
    exact ⟨d,(nodes _ here).trans there,mem⟩
  · exact (mine r x known here).2
  · exact tables.address r x ((refs r x here).mp known)

theorem tablesCounts {x' : Ref} (known : s.ref r = some x)
    (there : s.node x.node = some d) (samex : x'.proc = x.proc ∧ x'.node = x.node ∧ x'.desc = x.desc)
    (samed : Placed d d') (strong : d'.internalStrongRefs + (decide (x.strong ≠ 0)).toNat =
      d.internalStrongRefs + (decide (x'.strong ≠ 0)).toNat) :
    Tables (setRef (setNode s x.node (some d')) r (some x')) := by
  have other : ∀ y, y ≠ r → isStrong (setRef (setNode s x.node (some d')) r (some x')) y = isStrong s y := by
    intro y apart
    simp [isStrong,apart]
  refine tablesAlike tables (countedAlike known there samex samed) rfl fun n e here => ?_
  by_cases own : n = x.node
  · subst own
    simp only [setRef_node,setNode_node,update_self,some.injEq] at here
    subst here
    have old := tables.nodeOk there
    have count := old.strong
    have flip := countFlip old.once ((old.listed r).mpr ⟨x,known,rfl⟩) fun y _ apart => other y apart
    have before : isStrong s r = decide (x.strong ≠ 0) := by simp [isStrong,known]
    have after_ : isStrong (setRef (setNode s x.node (some d')) r (some x')) r = decide (x'.strong ≠ 0) := by
      simp [isStrong]
    rw [samed.2.2.2]
    rw [before,after_] at flip
    omega
  · simp only [setRef_node,setNode_node,update_of_ne own] at here
    rw [tables.strong n e here]
    refine congrArg Nat.cast (countP_congr fun y mem => ?_)
    rw [other y]
    rintro rfl
    obtain ⟨x0,known0,points⟩ := tables.listed n e here y mem
    cases some.inj (known0.symm.trans known)
    exact own points.symm

theorem internalPositive (known : s.ref r = some x)
    (there : s.node x.node = some d) (strong : x.strong ≠ 0) : 0 < d.internalStrongRefs := by
  obtain ⟨e,here,listed⟩ := tables.pointed r x known
  cases some.inj (here.symm.trans there)
  rw [tables.strong x.node d there]
  have positive : 0 < d.refs.countP (isStrong s) := countP_pos_iff.mpr ⟨r,listed,by simp [isStrong,known,strong]⟩
  omega

end

def countOf (s : State) (r : Nat) (strong : Bool) : Int := (s.ref r).elim 0 (·.count strong)
def Node.localCount (d : Node) (strong : Bool) : Int := if strong then d.localStrongRefs else d.localWeakRefs
def localOf (s : State) (n : Nat) (strong : Bool) : Int := (s.node n).elim 0 (·.localCount strong)

@[simp] theorem setCountProc (x : Ref) (strong : Bool) (v : Int) : (x.setCount strong v).proc = x.proc := by
  cases strong <;> rfl
@[simp] theorem setCountNode (x : Ref) (strong : Bool) (v : Int) : (x.setCount strong v).node = x.node := by
  cases strong <;> rfl
@[simp] theorem setCountDesc (x : Ref) (strong : Bool) (v : Int) : (x.setCount strong v).desc = x.desc := by
  cases strong <;> rfl
theorem setCountCount (x : Ref) (strong other : Bool) (v : Int) :
    (x.setCount strong v).count other = if other = strong then v else x.count other := by
  cases strong <;> cases other <;> rfl

theorem countsMoved {strong} (v : Int) (known : s.ref r = some x) (there : s.node x.node = some d)
    (locals : d'.localStrongRefs = d.localStrongRefs ∧ d'.localWeakRefs = d.localWeakRefs) :
    (∀ y k, countOf (setRef (setNode s x.node (some d')) r (some (x.setCount strong v))) y k =
      if y = r ∧ k = strong then v else countOf s y k) ∧
    ∀ n k, localOf (setRef (setNode s x.node (some d')) r (some (x.setCount strong v))) n k = localOf s n k := by
  constructor
  · intro y k
    by_cases here : y = r
    · subst here
      simp [countOf,known,setCountCount]
    · simp [countOf,here]
  · intro n k
    by_cases here : n = x.node
    · subst here
      simp [localOf,there,Node.localCount,locals]
    · simp [localOf,here]

structure Counted (s s' : State) (r : Nat) (strong ok : Bool) : Prop where
  alike : Alike s s'
  proc : s'.proc = s.proc
  mgr : s'.contextMgrNode = s.contextMgrNode
  counts : ∀ y k, countOf s' y k = if ok = true ∧ y = r ∧ k = strong then wrap (countOf s y k + 1) else countOf s y k
  locals : ∀ n k, localOf s' n k = localOf s n k
  refused : ok = false → countOf s r strong = 0

def Node.lower (d : Node) (strong internal : Bool) : Node :=
  if strong then
    if internal then d.setInternalStrong (wrap (d.internalStrongRefs - 1)) else d.setLocalStrong (wrap (d.localStrongRefs - 1))
  else if internal then d else d.setLocalWeak (wrap (d.localWeakRefs - 1))

theorem lowerPlaced (d : Node) (strong internal : Bool) : Placed d (d.lower strong internal) := by
  cases strong <;> cases internal <;> exact ⟨rfl,rfl,rfl,rfl⟩

theorem decNodeCases (known : s.node n = some d) (strong internal : Bool) :
    (∃ queued, binderDecNode s n strong internal = some (setNode s n (some ((d.lower strong internal).setQueued queued)))) ∨
    (binderDecNode s n strong internal = freeNode s n d.proc ∧ d.refs = [] ∧
      (d.lower strong internal).localStrongRefs = 0 ∧ (d.lower strong internal).localWeakRefs = 0) := by
  obtain ⟨proc,_,_,refs⟩ := lowerPlaced d strong internal
  have unfolded : binderDecNode s n strong internal = (
      let e := d.lower strong internal
      if (if strong then e.localStrongRefs ≠ 0 ∨ e.internalStrongRefs ≠ 0
          else e.localWeakRefs ≠ 0 ∨ e.refs ≠ []) then some (setNode s n (some e))
      else if e.proc.isSome ∧ (e.hasStrongRef ∨ e.hasWeakRef) then some (setNode s n (some (e.setQueued true)))
      else if e.refs = [] ∧ e.localStrongRefs = 0 ∧ e.localWeakRefs = 0 then freeNode s n e.proc
      else some (setNode s n (some e))) := by
    simp only [binderDecNode,known]
    rfl
  rw [unfolded]
  generalize d.lower strong internal = e at *
  have keep : e.setQueued e.queued = e := rfl
  by_cases early : if strong then e.localStrongRefs ≠ 0 ∨ e.internalStrongRefs ≠ 0
      else e.localWeakRefs ≠ 0 ∨ e.refs ≠ []
  · exact .inl ⟨e.queued,by rw [keep]; exact if_pos early⟩
  simp only [if_neg early]
  split
  · exact .inl ⟨true,rfl⟩
  split
  · rename_i empty
    exact .inr ⟨by rw [proc],refs ▸ empty.1,empty.2.1,empty.2.2⟩
  · exact .inl ⟨e.queued,by rw [keep]⟩

theorem freeNodeSetRef {o} (owner : Option Nat) :
    freeNode (setRef s r o) n owner = (freeNode s n owner).map (setRef · r o) := by
  cases owner with
  | none => rfl
  | some p => cases erased : eraseElem n (s.proc p).nodes <;> simp [freeNode,erased,setRef,setNode,setProc]

section
variable (tables : Tables s)
include tables

theorem raisedCounted (strong : Bool) (known : s.ref r = some x) (there : s.node x.node = some d) (same : Placed d d')
    (locals : d'.localStrongRefs = d.localStrongRefs ∧ d'.localWeakRefs = d.localWeakRefs)
    (internal : d'.internalStrongRefs + (decide (x.strong ≠ 0)).toNat =
      d.internalStrongRefs + (decide ((x.setCount strong (wrap (x.count strong + 1))).strong ≠ 0)).toNat) :
    Tables (setRef (setNode s x.node (some d')) r (some (x.setCount strong (wrap (x.count strong + 1))))) ∧
    Counted s (setRef (setNode s x.node (some d')) r (some (x.setCount strong (wrap (x.count strong + 1))))) r strong true := by
  obtain ⟨counts,locals⟩ := countsMoved (wrap (x.count strong + 1)) known there locals
  refine ⟨tablesCounts tables known there (by simp) same internal,countedAlike known there (by simp) same,rfl,rfl,
    fun y k => ?_,locals,by simp⟩
  rw [counts]
  split
  · rename_i own
    obtain ⟨rfl,rfl⟩ := own
    simp [countOf,known]
  · simp [*]

theorem incRefSpec (known : s.ref r = some x) (strong target : Bool)
    (room : strong = true → 0 ≤ x.strong ∧ x.strong + 1 < 2^31) :
    ∃ s' ok, binderIncRef s r strong target = some (s',ok) ∧ Tables s' ∧ Counted s s' r strong ok := by
  obtain ⟨d,there,listed⟩ := tables.pointed r x known
  by_cases zero : x.count strong = 0
  · obtain ⟨d',ok,raised,cases_⟩ := incNodeRaised there strong true target
    simp only [binderIncRef,known,zero,raised,bind,bind_some]
    have refused : Tables (setNode s x.node (some d)) ∧ Counted s (setNode s x.node (some d)) r strong false := by
      rw [setNodeSame there]
      exact ⟨tables,⟨fun _ => rfl,fun _ => rfl⟩,rfl,rfl,by simp,by simp,by simp [countOf,known,zero]⟩
    cases cases_ with
    | refusedStrong | refusedWeak => exact ⟨_,false,rfl,refused⟩
    | internalStrong queued isStrong _ =>
      subst isStrong
      refine ⟨_,true,rfl,zero ▸ raisedCounted tables _ known there ⟨rfl,rfl,rfl,rfl⟩ ⟨rfl,rfl⟩ ?_⟩
      have zero : x.strong = 0 := zero
      have bound := internalBound tables there
      have fits : wrap (d.internalStrongRefs + 1) = d.internalStrongRefs + 1 := wrapFits (by omega) (by omega)
      have one : wrap (0 + 1) = 1 := wrapFits (by omega) (by omega)
      simp only [fits,zero,Ref.setCount,
        Ref.count,if_true,one]
      simp
    | localStrong _ _ isInternal => cases isInternal
    | weak queued isWeak =>
      subst isWeak
      exact ⟨_,true,rfl,zero ▸ raisedCounted tables _ known there ⟨rfl,rfl,rfl,rfl⟩ ⟨rfl,rfl⟩ rfl⟩
  · simp only [binderIncRef,known,zero,bind,bind_some]
    have counted := raisedCounted tables strong known there ⟨rfl,rfl,rfl,rfl⟩ ⟨rfl,rfl⟩ (by
      cases strong with
      | true =>
        have more : x.strong ≠ 0 := zero
        have room := room rfl
        have fits : wrap (x.strong + 1) = x.strong + 1 := wrapFits (by omega) (by omega)
        have still : x.strong + 1 ≠ 0 := by omega
        simp [more,Ref.setCount,Ref.count,fits,still]
      | false => rfl)
    rw [setNodeSame there] at counted
    exact ⟨_,true,rfl,counted⟩

theorem refTrees (refs : s'.ref = s.ref) (p : Nat) :
    Holds (s.proc p).refsByDesc (RefOf s' p) (fun a b => descOf s' a < descOf s' b) ∧
    Holds (s.proc p).refsByNode (RefOf s' p) (fun a b => nodeOf s' a < nodeOf s' b) := by
  obtain ⟨_,ref,_,_⟩ := s'
  obtain rfl : ref = s.ref := refs
  exact ⟨tables.byDesc p,tables.byNode p⟩

section
variable (known : s.node n = some d)
include known

theorem freeNodeTrees : ∃ procs : Nat → Proc,
    freeNode s n d.proc = some {s with node := update s.node n none, proc := procs} ∧
    (∀ p, Holds (procs p).nodes (fun m => Owned s p m ∧ m ≠ n) (fun a b => ptrOf s a < ptrOf s b)) ∧
    (∀ p, (procs p).refsByDesc = (s.proc p).refsByDesc) ∧ ∀ p, (procs p).refsByNode = (s.proc p).refsByNode := by
  have others : ∀ p, d.proc ≠ some p → Holds (s.proc p).nodes (fun m => Owned s p m ∧ m ≠ n)
      (fun a b => ptrOf s a < ptrOf s b) := by
    intro p other
    refine holdsSame (tables.nodes p) fun m => ?_
    refine ⟨fun owned => ⟨owned,?_⟩,And.left⟩
    rintro rfl
    obtain ⟨e,there,owner⟩ := owned
    cases some.inj (there.symm.trans known)
    exact other owner
  cases owner : d.proc with
  | none => exact ⟨s.proc,rfl,fun p => others p (by simp [owner]),fun _ => rfl,fun _ => rfl⟩
  | some p =>
    obtain ⟨tree,erased,holds⟩ := holdsErase (tables.nodes p) ⟨d,known,owner⟩
    refine ⟨update s.proc p ((s.proc p).setNodes tree),by simp [freeNode,erased,setNode,setProc],?_,?_,?_⟩
    · intro q
      by_cases here : q = p
      · subst here
        simpa using holds
      · simpa [here] using others q (by simp [owner,Ne.symm here])
    all_goals
      intro q
      by_cases here : q = p
      · subst here
        simp
      · simp [here]

theorem nodesStay (own : s'.node n = some d')
    (others : ∀ m, m ≠ n → s'.node m = s.node m) (place : d'.proc = d.proc ∧ d'.ptr = d.ptr)
    (trees : ∀ p, (s'.proc p).nodes = (s.proc p).nodes) (p : Nat) :
    Holds (s'.proc p).nodes (Owned s' p) (fun a b => ptrOf s' a < ptrOf s' b) := by
  have ptrs : ∀ m, ptrOf s' m = ptrOf s m := by
    intro m
    by_cases here : m = n
    · subst here
      simp [ptrOf,nodePtr,known,own,place.2]
    · simp [ptrOf,nodePtr,others m here]
  rw [trees]
  refine holdsKeys (tables.nodes p) (fun m => ?_) fun a _ => ptrs a
  by_cases here : m = n
  · subst here
    simp [Owned,known,own,place.1]
  · simp [Owned,others m here]

theorem tablesDrop (o : Option Node) (empty : o = none → d.refs = [])
    (dead : ∀ d', o = some d' → d'.proc = none ∧ d'.refs = d.refs ∧ d'.internalStrongRefs = d.internalStrongRefs) :
    ∃ s', freeNode s n d.proc = some s' ∧ Tables (setNode s' n o) ∧ s'.node = update s.node n none ∧ s'.ref = s.ref ∧
      s'.contextMgrNode = s.contextMgrNode := by
  obtain ⟨procs,freed,trees,byDesc,byNode⟩ := freeNodeTrees tables known
  refine ⟨_,freed,?_,rfl,rfl,rfl⟩
  generalize result : setNode {s with node := update s.node n none, proc := procs} n o = k
  have own : k.node n = o := by simp [← result]
  have others : ∀ m, m ≠ n → k.node m = s.node m := fun m other => by simp [← result,other]
  have procs : k.proc = procs := by rw [← result]; rfl
  have refs : k.ref = s.ref := by rw [← result]; rfl
  have old := tables.nodeOk known
  refine tablesChange tables others (fun _ _ _ => by rw [refs]) (fun d' here => ?_) (fun r x here points => ?_) (fun p => ?_)
    (fun p => ?_) fun p => ?_
  · obtain ⟨_,list,internal⟩ := dead d' (own.symm.trans here)
    have strongs : isStrong k = isStrong s := by
      funext y
      simp [isStrong,refs]
    exact ⟨by rw [list,refs]; exact old.listed,list ▸ old.once,by rw [list,internal,strongs]; exact old.strong⟩
  · rw [refs] at here
    refine ⟨?_,tables.address r x here⟩
    cases o with
    | none =>
      have mem := (old.listed r).mpr ⟨x,here,points⟩
      simp [empty rfl] at mem
    | some d' => simp [own]
  · rw [procs]
    refine holdsKeys (trees p) (fun m => ?_) fun a ha => by simp [ptrOf,nodePtr,others a ha.2]
    by_cases here : m = n
    · subst here
      cases o with
      | none => simp [Owned,own]
      | some d' => simp [Owned,own,(dead d' rfl).1]
    · simp [here,Owned,others m here]
  · rw [procs,byDesc]
    exact (refTrees tables refs p).1
  · rw [procs,byNode]
    exact (refTrees tables refs p).2

theorem tablesFree (empty : d.refs = []) :
    ∃ s', freeNode s n d.proc = some s' ∧ Tables s' ∧ s'.node = update s.node n none ∧ s'.ref = s.ref ∧
      s'.contextMgrNode = s.contextMgrNode := by
  obtain ⟨s',freed,tables',nodes,rest⟩ := tablesDrop tables known none (fun _ => empty) fun _ absurd => by cases absurd
  have gone : s'.node n = none := by simp [nodes]
  have same : setNode s' n none = s' := by simp [setNode,← gone]
  exact ⟨s',freed,same ▸ tables',nodes,rest⟩

end

theorem tablesRemove {byDesc byNode} (known : s.ref r = some x) (there : s.node x.node = some d)
    (desc : Holds byDesc (fun y => RefOf s x.proc y ∧ y ≠ r) (fun a b => descOf s a < descOf s b))
    (node : Holds byNode (fun y => RefOf s x.proc y ∧ y ≠ r) (fun a b => nodeOf s a < nodeOf s b))
    (place : d'.proc = d.proc ∧ d'.ptr = d.ptr ∧ d'.refs = d.refs.erase r)
    (strong : d'.internalStrongRefs + (decide (x.strong ≠ 0)).toNat = d.internalStrongRefs) :
    Tables (setRef (setNode (setProc s x.proc ((s.proc x.proc).setRefs byDesc byNode)) x.node (some d')) r none) := by
  generalize result :
    setRef (setNode (setProc s x.proc ((s.proc x.proc).setRefs byDesc byNode)) x.node (some d')) r none = k
  have refs : ∀ y, y ≠ r → k.ref y = s.ref y := fun y other => by simp [← result,other]
  have gone : k.ref r = none := by simp [← result]
  have own : k.node x.node = some d' := by simp [← result]
  have nodes : ∀ m, m ≠ x.node → k.node m = s.node m := fun m other => by simp [← result,other]
  have refOf : ∀ p y, RefOf k p y ↔ RefOf s p y ∧ y ≠ r := by
    intro p y
    by_cases here : y = r
    · subst here
      simp [RefOf,gone]
    · simp [RefOf,refs y here,here]
  have elsewhere : ∀ p, p ≠ x.proc → ∀ y, RefOf s p y → y ≠ r := by
    rintro p other y ⟨x0,known0,owner⟩ rfl
    cases some.inj (known0.symm.trans known)
    exact other owner.symm
  have stays : ∀ p, p ≠ x.proc → ∀ y, RefOf s p y ↔ RefOf k p y := fun p other y =>
    ⟨fun mem => (refOf p y).mpr ⟨mem,elsewhere p other y mem⟩,fun mem => ((refOf p y).mp mem).1⟩
  have keys : ∀ y, y ≠ r → descOf k y = descOf s y ∧ nodeOf k y = nodeOf s y := by
    intro y other
    simp [descOf,nodeOf,refDesc,refNode,refs y other]
  have old := tables.nodeOk there
  have left : ∀ y, y ∈ d'.refs ↔ y ≠ r ∧ y ∈ d.refs := fun y => by rw [place.2.2,old.once.mem_erase_iff]
  have stay : ∀ y z, z.node ≠ x.node → (k.ref y = some z ↔ s.ref y = some z) := by
    intro y z other
    by_cases here : y = r
    · subst here
      simp only [gone,known,reduceCtorEq,some.injEq,false_iff]
      rintro rfl
      exact other rfl
    · rw [refs y here]
  refine tablesChange tables nodes stay (fun e here => ?_) (fun y z here points => ?_) ?_ ?_ ?_
  · cases some.inj (own.symm.trans here)
    refine ⟨fun y => ?_,place.2.2 ▸ old.once.erase r,?_⟩
    · rw [left,old.listed]
      by_cases here : y = r
      · subst here
        simp [gone]
      · simp [refs y here,here]
    · have whole := old.strong
      have here : isStrong s r = decide (x.strong ≠ 0) := by simp [isStrong,known]
      have mine := (old.listed r).mpr ⟨x,known,rfl⟩
      have split : d.refs.countP (isStrong s) = (d.refs.erase r).countP (isStrong s) + (isStrong s r).toNat := by
        rw [(perm_cons_erase mine).countP_eq,countP_cons]
        cases isStrong s r <;> rfl
      have rest : d'.refs.countP (isStrong k) = (d.refs.erase r).countP (isStrong s) := by
        rw [place.2.2]
        refine countP_congr fun y hy => ?_
        simp [isStrong,refs y ((old.once.mem_erase_iff).mp hy).1]
      rw [split,here] at whole
      omega
  · have other : y ≠ r := by
      rintro rfl
      simp [gone] at here
    exact ⟨by simp [own],tables.address y z (refs y other ▸ here)⟩
  · refine nodesStay tables there own nodes ⟨place.1,place.2.1⟩ fun p => ?_
    by_cases here : p = x.proc
    · subst here
      simp [← result]
    · simp [← result,here]
  · have own : (k.proc x.proc).refsByDesc = byDesc := by simp [← result]
    exact holdsEach tables.byDesc (own ▸ holdsKeys desc (fun y => (refOf x.proc y).symm) fun y mem => (keys y mem.2).1)
      fun p other => ⟨by simp [← result,other],stays p other,fun y mem => (keys y (elsewhere p other y mem)).1⟩
  · have own : (k.proc x.proc).refsByNode = byNode := by simp [← result]
    exact holdsEach tables.byNode (own ▸ holdsKeys node (fun y => (refOf x.proc y).symm) fun y mem => (keys y mem.2).2)
      fun p other => ⟨by simp [← result,other],stays p other,fun y mem => (keys y (elsewhere p other y mem)).2⟩

end

end EclairKernel.BinderRefs
