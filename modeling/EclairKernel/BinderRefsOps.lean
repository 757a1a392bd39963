import EclairKernel.BinderRefsInvariant

/-! What the operations that create and destroy references and nodes do to the
tables: binder_delete_ref, binder_dec_ref, binder_get_ref_for_node, binder_new_node
and the death of a node's owner. -/
namespace EclairKernel.BinderRefs
open Function Option Rbtree

variable {s s'}

structure Deleted (s s' : State) (r : Nat) (x : Ref) : Prop where
  ref : s'.ref = update s.ref r none
  mgr : s'.contextMgrNode = s.contextMgrNode
  others : ∀ m, m ≠ x.node → s'.node m = s.node m
  own : ∀ d, s.node x.node = some d →
    (∃ d', s'.node x.node = some d' ∧ d'.proc = d.proc ∧ d'.ptr = d.ptr ∧ d'.cookie = d.cookie ∧
      d'.localStrongRefs = d.localStrongRefs ∧ d'.localWeakRefs = d.localWeakRefs) ∨
    (s'.node x.node = none ∧ d.refs = [r] ∧ d.localStrongRefs = 0 ∧ d.localWeakRefs = 0)

variable {n r x d}

theorem dropStrong (known : s.node n = some d) (listed : r ∈ d.refs) (last : Prop) [Decidable last]
    (bound : last → 0 < d.internalStrongRefs ∧ d.internalStrongRefs ≤ 2^30) :
    ∃ d', (if last then binderDecNode s n true true else some s) = some (setNode s n (some d')) ∧ Placed d d' ∧
      (d'.localStrongRefs = d.localStrongRefs ∧ d'.localWeakRefs = d.localWeakRefs) ∧
      d'.internalStrongRefs + (decide last).toNat = d.internalStrongRefs := by
  by_cases is : last
  · simp only [if_pos is]
    rcases decNodeCases known true true with ⟨queued,kept⟩ | ⟨_,empty,_⟩
    · refine ⟨_,kept,⟨rfl,rfl,rfl,rfl⟩,⟨rfl,rfl⟩,?_⟩
      have bound := bound is
      have fits : wrap (d.internalStrongRefs - 1) = d.internalStrongRefs - 1 := wrapFits (by omega) (by omega)
      simp [Node.lower,is,fits]
    · simp [empty] at listed
  · refine ⟨d,?_,⟨rfl,rfl,rfl,rfl⟩,⟨rfl,rfl⟩,by simp [is]⟩
    rw [if_neg is,setNodeSame known]

structure Shrunk (s s' : State) : Prop where
  ref : ∀ r x', s'.ref r = some x' → ∃ x, s.ref r = some x ∧ x'.proc = x.proc ∧ x'.node = x.node ∧ x'.desc = x.desc
  node : ∀ n d', s'.node n = some d' →
    ∃ d, s.node n = some d ∧ d'.proc = d.proc ∧ d'.ptr = d.ptr ∧ d'.cookie = d.cookie

theorem shrunkTrans {t} (first : Shrunk s s') (second : Shrunk s' t) : Shrunk s t := by
  constructor
  · intro r x'' here
    obtain ⟨x',there,proc',node',desc'⟩ := second.ref r x'' here
    obtain ⟨x,known,proc,node,desc⟩ := first.ref r x' there
    exact ⟨x,known,proc'.trans proc,node'.trans node,desc'.trans desc⟩
  · intro n d'' here
    obtain ⟨d',there,proc',ptr',cookie'⟩ := second.node n d'' here
    obtain ⟨d,known,proc,ptr,cookie⟩ := first.node n d' there
    exact ⟨d,known,proc'.trans proc,ptr'.trans ptr,cookie'.trans cookie⟩

theorem shrunkAlike (alike : Alike s s') : Shrunk s s' := by
  constructor
  · intro r x' here
    exact alikeRef alike here
  · intro n d' here
    obtain ⟨d,known,proc,ptr,cookie,_⟩ := alikeNode alike here
    exact ⟨d,known,proc,ptr,cookie⟩

theorem deletedShrunk (there : s.node x.node = some d) (deleted : Deleted s s' r x) : Shrunk s s' := by
  constructor
  · intro y z here
    rw [deleted.ref] at here
    have other : y ≠ r := by
      rintro rfl
      simp at here
    simp only [update_of_ne other] at here
    exact ⟨z,here,rfl,rfl,rfl⟩
  · intro n e here
    by_cases own : n = x.node
    · subst own
      rcases deleted.own d there with ⟨d',known,proc,ptr,cookie,_⟩ | ⟨gone,_⟩
      · cases some.inj (known.symm.trans here)
        exact ⟨d,there,proc,ptr,cookie⟩
      · simp [gone] at here
    · rw [deleted.others n own] at here
      exact ⟨e,here,rfl,rfl,rfl⟩

theorem deletedLocals (there : s.node x.node = some d) (deleted : Deleted s s' r x)
    (n : Nat) (k : Bool) : localOf s' n k = localOf s n k := by
  by_cases own : n = x.node
  · subst own
    rcases deleted.own d there with ⟨d',known,_,_,_,localStrong,localWeak⟩ | ⟨gone,_,localStrong,localWeak⟩
    · simp [localOf,known,there,Node.localCount,localStrong,localWeak]
    · simp [localOf,gone,there,Node.localCount,localStrong,localWeak]
  · simp [localOf,deleted.others n own]

structure Lowered (s s' : State) (r : Nat) (strong : Bool) : Prop where
  shrunk : Shrunk s s'
  mgr : s'.contextMgrNode = s.contextMgrNode
  counts : ∀ y k, countOf s' y k =
    if y = r ∧ k = strong ∧ countOf s y k ≠ 0 then wrap (countOf s y k - 1) else countOf s y k
  locals : ∀ n k, localOf s' n k = localOf s n k

section
variable (tables : Tables s)
include tables

theorem deleteRefSpec (known : s.ref r = some x) :
    ∃ s', binderDeleteRef s r = some s' ∧ Tables s' ∧ Deleted s s' r x := by
  obtain ⟨d,there,listed⟩ := tables.pointed r x known
  obtain ⟨byDesc,erasedDesc,desc⟩ := holdsErase (tables.byDesc x.proc) ⟨x,known,rfl⟩
  obtain ⟨byNode,erasedNode,node⟩ := holdsErase (tables.byNode x.proc) ⟨x,known,rfl⟩
  generalize trees : setProc s x.proc ((s.proc x.proc).setRefs byDesc byNode) = s1
  have there1 : s1.node x.node = some d := by simp [← trees,there]
  obtain ⟨d2,dropped,place,⟨localStrong,localWeak⟩,internal⟩ := dropStrong there1 listed (x.strong ≠ 0)
    fun strong => ⟨internalPositive tables known there strong,(internalBound tables there).2⟩
  obtain ⟨proc,ptr,cookie,refs⟩ := place
  have twice : ∀ a b, setNode (setNode s1 x.node a) x.node b = setNode s1 x.node b := by
    simp [setNode]
  have call : binderDeleteRef s r = (binderDecNode (setNode s1 x.node (some (d2.setRefs (d2.refs.erase r)))) x.node
      false true).map (setRef · r none) := by
    simp only [binderDeleteRef,known,erasedDesc,erasedNode,trees,dropped,bind,bind_some,
      setNode_node,update_self,twice]
    cases binderDecNode (setNode s1 x.node (some (d2.setRefs (d2.refs.erase r)))) x.node false true <;> rfl
  generalize last : d2.setRefs (d2.refs.erase r) = d3 at call
  have place3 : d3.proc = d.proc ∧ d3.ptr = d.ptr ∧ d3.cookie = d.cookie ∧ d3.refs = d.refs.erase r := by
    simp [← last,proc,ptr,cookie,refs]
  have counts3 : d3.localStrongRefs = d.localStrongRefs ∧ d3.localWeakRefs = d.localWeakRefs ∧
      d3.internalStrongRefs = d2.internalStrongRefs := by simp [← last,localStrong,localWeak]
  have removed : ∀ queued, Tables (setRef (setNode s1 x.node (some (d3.setQueued queued))) r none) := by
    intro queued
    rw [← trees]
    refine tablesRemove tables known there desc node ⟨place3.1,place3.2.1,place3.2.2.2⟩ ?_
    simpa [counts3.2.2] using internal
  have refs1 : s1.ref = s.ref := by rw [← trees]; rfl
  have others1 : ∀ m, s1.node m = s.node m := fun m => by simp [← trees]
  have mgr1 : s1.contextMgrNode = s.contextMgrNode := by simp [← trees]
  have known3 : (setNode s1 x.node (some d3)).node x.node = some d3 := by simp
  rcases decNodeCases known3 false true with ⟨queued,kept⟩ | ⟨freed,empty,noStrong,noWeak⟩
  · rw [kept,twice] at call
    refine ⟨_,call,removed queued,by rw [← refs1]; rfl,mgr1,?_,?_⟩
    · intro m other
      simp [other,others1]
    · intro e found
      cases some.inj (found.symm.trans there)
      left
      exact ⟨d3.setQueued queued,by simp [Node.lower],place3.1,place3.2.1,place3.2.2.1,counts3.1,counts3.2.1⟩
  · have same : setRef (setNode s1 x.node (some d3)) r none = setRef (setNode s1 x.node (some (d3.setQueued d3.queued))) r none := rfl
    have tables3 := removed d3.queued
    rw [← same] at tables3
    obtain ⟨s4,done,tables4,nodes4,refs4,mgr4⟩ := tablesFree (n := x.node) (d := d3) tables3 (by simp) empty
    rw [freeNodeSetRef] at done
    rw [freed,done] at call
    refine ⟨s4,call,tables4,?_,?_,?_,?_⟩
    · rw [refs4,← refs1]
      rfl
    · rw [mgr4]
      exact mgr1
    · intro m other
      rw [nodes4]
      simp [other,others1]
    · intro e found
      cases some.inj (found.symm.trans there)
      right
      refine ⟨by simp [nodes4],?_,counts3.1.symm.trans noStrong,counts3.2.1.symm.trans noWeak⟩
      rw [place3.2.2.2] at empty
      have perm := List.perm_cons_erase listed
      rw [empty] at perm
      exact List.perm_singleton.mp perm

theorem lowerTables {x' strong} (known : s.ref r = some x)
    (positive : x.count strong ≠ 0) (next : x.setCount strong (wrap (x.count strong - 1)) = x') :
    ∃ s1, (if strong = true ∧ x'.strong = 0 then binderDecNode (setRef s r (some x')) x.node true true
      else some (setRef s r (some x'))) = some s1 ∧ Tables s1 ∧ s1.ref r = some x' ∧ Lowered s s1 r strong := by
  obtain ⟨d,there,listed⟩ := tables.pointed r x known
  have there1 : (setRef s r (some x')).node x.node = some d := there
  obtain ⟨d',call,place,locals,internal⟩ := dropStrong there1 listed (strong = true ∧ x'.strong = 0) fun last => by
    obtain ⟨rfl,_⟩ := last
    exact ⟨internalPositive tables known there positive,(internalBound tables there).2⟩
  have moved : d'.internalStrongRefs + (decide (x.strong ≠ 0)).toNat =
      d.internalStrongRefs + (decide (x'.strong ≠ 0)).toNat := by
    subst next
    cases strong with
    | true =>
      have before : x.strong ≠ 0 := positive
      by_cases zero : (x.setCount true (wrap (x.count true - 1))).strong = 0
      · simpa [before,zero] using internal
      · simpa [before,zero] using internal
    | false => simpa [Ref.setCount] using internal
  have swap : setNode (setRef s r (some x')) x.node (some d') = setRef (setNode s x.node (some d')) r (some x') := rfl
  have samex : x'.proc = x.proc ∧ x'.node = x.node ∧ x'.desc = x.desc := by simp [← next]
  obtain ⟨counts,locals⟩ := countsMoved (wrap (x.count strong - 1)) known there locals
  rw [next] at counts locals
  refine ⟨_,call,swap ▸ tablesCounts tables known there samex place moved,by simp,
    shrunkAlike (countedAlike known there samex place),rfl,fun y k => ?_,locals⟩
  rw [swap,counts]
  by_cases own : y = r ∧ k = strong
  · obtain ⟨rfl,rfl⟩ := own
    simp [countOf,known,positive]
  · rw [if_neg own,if_neg fun both => own ⟨both.1,both.2.1⟩]

theorem decRefSpec (known : s.ref r = some x) (strong : Bool) :
    ∃ s' ok, binderDecRef s r strong = some (s',ok) ∧ Tables s' ∧ Lowered s s' r strong := by
  by_cases zero : x.count strong = 0
  · refine ⟨s,false,by simp [binderDecRef,known,zero],tables,shrunkAlike ⟨fun _ => rfl,fun _ => rfl⟩,rfl,?_,fun _ _ => rfl⟩
    intro y k
    rw [if_neg]
    rintro ⟨rfl,rfl,other⟩
    simp [countOf,known,zero] at other
  generalize next : x.setCount strong (wrap (x.count strong - 1)) = x'
  obtain ⟨s1,call,tables1,known1,lowered⟩ := lowerTables tables known zero next
  have node : x'.node = x.node := by simp [← next]
  have unfolded : binderDecRef s r strong =
      ((if x'.strong = 0 ∧ x'.weak = 0 then binderDeleteRef s1 r else some s1).map fun s' => (s',true)) := by
    simp only [binderDecRef,known,zero,bind,bind_some,next,node,call]
    generalize (if x'.strong = 0 ∧ x'.weak = 0 then binderDeleteRef s1 r else some s1) = out
    cases out <;> rfl
  rw [unfolded]
  split
  · rename_i last
    obtain ⟨s2,deletes,tables2,deleted⟩ := deleteRefSpec tables1 known1
    obtain ⟨d,there,_⟩ := tables1.pointed r x' known1
    refine ⟨s2,true,by simp [deletes],tables2,shrunkTrans lowered.shrunk (deletedShrunk there deleted),
      deleted.mgr.trans lowered.mgr,?_,?_⟩
    · intro y k
      rw [← lowered.counts]
      by_cases here : y = r
      · subst here
        have none_ : x'.count k = 0 := by cases k <;> simp [Ref.count,last]
        simp [countOf,deleted.ref,known1,none_]
      · simp [countOf,deleted.ref,here]
    · intro n k
      rw [deletedLocals there deleted,lowered.locals]
  · exact ⟨s1,true,rfl,tables1,lowered⟩

end

/-! New references and new nodes: binder_get_ref_for_node hands out the smallest
unused descriptor, and binder_new_node a node with nothing pointing to it. -/

open List

theorem descLoopSpec {l} (d : Nat) (sorted : l.Pairwise fun a b => descOf s a < descOf s b)
    (known : ∀ r ∈ l, ∃ x, s.ref r = some x ∧ x.desc + 1 < word) (low : ∀ r ∈ l, d ≤ descOf s r + 1) :
    ∃ e, descLoop s l d = some e ∧ d ≤ e ∧ e ≤ d + l.length ∧ (∀ r ∈ l, descOf s r ≠ e) ∧
      ∀ k, d ≤ k → k < e → ∃ r ∈ l, descOf s r = k := by
  induction l generalizing d with
  | nil => exact ⟨d,rfl,by omega,by simp,by simp,by omega⟩
  | cons r rest ih =>
    obtain ⟨x,here,small⟩ := known r mem_cons_self
    obtain ⟨above,sorted⟩ := pairwise_cons.mp sorted
    have desc : descOf s r = x.desc := by simp [descOf,refDesc,here]
    have first := low r mem_cons_self
    simp only [descLoop,here]
    split
    · refine ⟨d,rfl,by omega,by omega,forall_mem_cons.mpr ⟨by omega,fun y hy => ?_⟩,by omega⟩
      have := above y hy
      omega
    · rw [Nat.mod_eq_of_lt small]
      obtain ⟨e,found,least,length,unused,used⟩ := ih (x.desc + 1) sorted
        (forall_mem_cons.mp known).2 (fun y hy => by have := above y hy; omega)
      refine ⟨e,found,by omega,by simp only [length_cons]; omega,forall_mem_cons.mpr ⟨by omega,unused⟩,?_⟩
      intro k from_ below
      by_cases own : k = x.desc
      · exact ⟨r,mem_cons_self,by omega⟩
      · obtain ⟨y,hy,same⟩ := used k (by omega) below
        exact ⟨y,mem_cons_of_mem _ hy,same⟩

def DescUsed (s : State) (p desc : Nat) : Prop := ∃ r x, s.ref r = some x ∧ x.proc = p ∧ x.desc = desc

def firstDesc (s : State) (n : Nat) : Nat := if s.contextMgrNode = some n then 0 else 1

structure LeastUnused (s : State) (p n desc : Nat) : Prop where
  allowed : firstDesc s n ≤ desc
  unused : ¬ DescUsed s p desc
  least : ∀ k, firstDesc s n ≤ k → k < desc → DescUsed s p k

variable {p}

theorem refOfDesc (mine : RefOf s p r) : DescUsed s p (descOf s r) := by
  obtain ⟨x,known,owner⟩ := mine
  exact ⟨r,x,known,owner,by simp [descOf,refDesc,known]⟩

inductive Granted (s : State) (p n : Nat) : State → Option Nat → Prop where
  | found (r : Nat) (x : Ref) : s.ref r = some x → x.proc = p → x.node = n → Granted s p n s (some r)
  | refused : Granted s p n s none
  | created (r desc : Nat) (d : Node) (s' : State) : s.ref r = none → s.node n = some d → LeastUnused s p n desc →
      (∀ y, RefOf s p y → nodeOf s y ≠ n) → s'.ref = update s.ref r (some ⟨p,n,desc,0,0⟩) →
      s'.node = update s.node n (some (d.setRefs (r::d.refs))) → s'.contextMgrNode = s.contextMgrNode →
      Granted s p n s' (some r)

theorem kzallocSome {used answer a} (given : kzalloc used answer = some a) :
    a % 4 = 0 ∧ a < word ∧ used a = false := by
  simp only [kzalloc,filter_eq_some_iff,Bool.and_eq_true,decide_eq_true_eq,Bool.not_eq_true'] at given
  exact ⟨given.2.1.2.1,given.2.1.2.2,given.2.2⟩

inductive Made (s : State) (p ptr cookie : Nat) : State → Option Nat → Prop where
  | refused : Made s p ptr cookie s none
  | created (n : Nat) (s' : State) : s.node n = none →
      s'.node = update s.node n (some ⟨some p,ptr,cookie,0,0,0,false,false,false,false,[]⟩) →
      s'.ref = s.ref → s'.contextMgrNode = s.contextMgrNode → Made s p ptr cookie s' (some n)

theorem nodeKnown (mine : RefOf s p r) : refNode s r = some (nodeOf s r) := by
  obtain ⟨x,known,_⟩ := mine
  simp [refNode,nodeOf,known]

theorem descKnown (mine : RefOf s p r) : refDesc s r = some (descOf s r) := by
  obtain ⟨x,known,_⟩ := mine
  simp [refDesc,descOf,known]

theorem ptrKnown (owned : Owned s p n) : nodePtr s n = some (ptrOf s n) := by
  obtain ⟨d,known,_⟩ := owned
  simp [nodePtr,ptrOf,known]

section
variable (tables : Tables s)
include tables

theorem descLoopLeast (p n : Nat) :
    ∃ e, descLoop s (inorder (s.proc p).refsByDesc) (firstDesc s n) = some e ∧ LeastUnused s p n e ∧ e + 1 < word := by
  have holds := tables.byDesc p
  have here : ∀ r ∈ inorder (s.proc p).refsByDesc, ∃ x, s.ref r = some x ∧ x.desc + 1 < word := by
    intro r hr
    obtain ⟨x,known,_⟩ := (holds.mem r).mp hr
    exact ⟨x,known,(tables.address r x known).2.2⟩
  have start : firstDesc s n ≤ 1 := by
    unfold firstDesc
    split <;> omega
  have length := addressesBounded holds.nodup fun r hr => by
    obtain ⟨x,known,_⟩ := (holds.mem r).mp hr
    exact ⟨(tables.address r x known).1,(tables.address r x known).2.1⟩
  obtain ⟨e,found,from_,bound,unused,used⟩ := descLoopSpec (firstDesc s n) holds.sorted here fun r _ => by omega
  refine ⟨e,found,⟨from_,?_,?_⟩,by simp only [word]; omega⟩
  · rintro ⟨r,x,known,owner,same⟩
    exact unused r ((holds.mem r).mpr ⟨x,known,owner⟩) (by simp [descOf,refDesc,known,same])
  · intro k low below
    obtain ⟨r,hr,same⟩ := used k low below
    exact same ▸ refOfDesc ((holds.mem r).mp hr)

theorem tablesAdd {desc byDesc byNode}
    (fresh : s.ref r = none) (there : s.node n = some d) (address : r % 4 = 0 ∧ r < word) (small : desc + 1 < word)
    (result : setRef (setNode (setProc s p ((s.proc p).setRefs byDesc byNode)) n (some (d.setRefs (r::d.refs)))) r
      (some ⟨p,n,desc,0,0⟩) = s')
    (inDesc : Holds byDesc (fun y => y = r ∨ RefOf s p y) (fun a b => descOf s' a < descOf s' b))
    (inNode : Holds byNode (fun y => y = r ∨ RefOf s p y) (fun a b => nodeOf s' a < nodeOf s' b)) : Tables s' := by
  have refs : ∀ y, y ≠ r → s'.ref y = s.ref y := fun y other => by simp [← result,other]
  have new : s'.ref r = some ⟨p,n,desc,0,0⟩ := by simp [← result]
  have own : s'.node n = some (d.setRefs (r::d.refs)) := by simp [← result]
  have nodes : ∀ m, m ≠ n → s'.node m = s.node m := fun m other => by simp [← result,other]
  have old : ∀ y z, s.ref y = some z → y ≠ r := by
    rintro y z known rfl
    simp [fresh] at known
  have keys : ∀ q y, RefOf s q y → descOf s' y = descOf s y ∧ nodeOf s' y = nodeOf s y := by
    rintro q y ⟨z,known,_⟩
    simp [descOf,nodeOf,refDesc,refNode,refs y (old y z known)]
  have others : ∀ q, q ≠ p → ∀ y, RefOf s q y ↔ RefOf s' q y := by
    intro q other y
    by_cases here : y = r
    · subst here
      simp [RefOf,fresh,new,Ne.symm other]
    · simp [RefOf,refs y here]
  have mine : ∀ y, (y = r ∨ RefOf s p y) ↔ RefOf s' p y := by
    intro y
    by_cases here : y = r
    · subst here
      simp [RefOf,new]
    · simp [RefOf,refs y here,here]
  have stay : ∀ y z, z.node ≠ n → (s'.ref y = some z ↔ s.ref y = some z) := by
    intro y z other
    by_cases here : y = r
    · subst here
      simp only [new,fresh,reduceCtorEq,some.injEq,iff_false]
      rintro rfl
      exact other rfl
    · rw [refs y here]
  refine tablesChange tables nodes stay (fun e here => ?_) (fun y z here _ => ?_) ?_ ?_ ?_
  · cases some.inj (own.symm.trans here)
    have before := tables.nodeOk there
    have outside : r ∉ d.refs := by
      intro mem
      obtain ⟨x,known,_⟩ := (before.listed r).mp mem
      exact old r x known rfl
    have weak : isStrong s' r = false := by simp [isStrong,new]
    have rest : d.refs.countP (isStrong s') = d.refs.countP (isStrong s) := by
      refine countP_congr fun y mem => ?_
      obtain ⟨x,known,_⟩ := (before.listed y).mp mem
      simp [isStrong,refs y (old y x known)]
    refine ⟨fun y => ?_,nodup_cons.mpr ⟨outside,before.once⟩,?_⟩
    · rw [Node.setRefs_refs,mem_cons,before.listed]
      by_cases here : y = r
      · subst here
        simp [new]
      · simp [here,refs y here]
    · simp only [Node.setRefs_refs,countP_cons,weak,rest]
      exact before.strong
  · refine ⟨by simp [own],?_⟩
    by_cases new_ : y = r
    · subst new_
      cases some.inj (new.symm.trans here)
      exact ⟨address.1,address.2,small⟩
    · exact tables.address y z ((refs y new_).symm.trans here)
  · refine nodesStay tables there own nodes ⟨rfl,rfl⟩ fun q => ?_
    by_cases here : q = p
    · subst here
      simp [← result]
    · simp [← result,here]
  · have tree : (s'.proc p).refsByDesc = byDesc := by simp [← result]
    exact holdsEach tables.byDesc (tree ▸ holdsSame inDesc mine) fun q other =>
      ⟨by simp [← result,other],others q other,fun y mem => (keys q y mem).1⟩
  · have tree : (s'.proc p).refsByNode = byNode := by simp [← result]
    exact holdsEach tables.byNode (tree ▸ holdsSame inNode mine) fun q other =>
      ⟨by simp [← result,other],others q other,fun y mem => (keys q y mem).2⟩

theorem getRefForNodeSpec (p : Nat) (there : s.node n = some d) (answer : Option Nat) :
    ∃ s' out, binderGetRefForNode s p n answer = some (s',out) ∧ Tables s' ∧ Granted s p n s' out := by
  rcases holdsSearch n (tables.byNode p) (fun _ => nodeKnown) (fun _ _ _ _ order => order) with
    ⟨r,found,⟨x,known,owner⟩,points⟩ | ⟨missing,absent⟩
  · have points : x.node = n := by simpa [nodeOf,refNode,known] using points
    refine ⟨s,some r,?_,tables,.found r x known owner points⟩
    simp [binderGetRefForNode,found]
  cases given : kzalloc (fun a => (s.ref a).isSome) answer with
  | none =>
    refine ⟨s,none,?_,tables,.refused⟩
    simp [binderGetRefForNode,missing,given]
  | some r =>
    obtain ⟨aligned,inside,unused⟩ := kzallocSome given
    have fresh : s.ref r = none := by simpa using unused
    obtain ⟨desc,loop,least,small⟩ := descLoopLeast tables p n
    -- the keys of r in the state to come, those of the others as they are
    have others : ∀ y, RefOf s p y → y ≠ r := by
      rintro y ⟨x,known,_⟩ rfl
      simp [fresh] at known
    obtain ⟨byNode,insertedNode,inNode⟩ := holdsInsertKeyed (x := r) (refNode s)
      (update (nodeOf s) r n) n
      (holdsKeys (tables.byNode p) (fun _ => Iff.rfl) fun a ha => update_of_ne (others a ha) ..)
      (fun y hy => by simp [others y hy,nodeKnown hy]) (fun y hy => by simpa [others y hy] using absent y hy) (by simp)
    obtain ⟨byDesc,insertedDesc,inDesc⟩ := holdsInsertKeyed (x := r) (refDesc s)
      (update (descOf s) r desc) desc
      (holdsKeys (tables.byDesc p) (fun _ => Iff.rfl) fun a ha => update_of_ne (others a ha) ..)
      (fun y hy => by simp [others y hy,descKnown hy])
      (fun y hy same => least.unused (by
        have used := refOfDesc hy
        rw [update_of_ne (others y hy)] at same
        exact same ▸ used)) (by simp)
    generalize result : setRef (setNode (setProc s p ((s.proc p).setRefs byDesc byNode)) n
      (some (d.setRefs (r::d.refs)))) r (some ⟨p,n,desc,0,0⟩) = s'
    have descs : descOf s' = update (descOf s) r desc := by
      rw [← result]
      exact comp_update (fun o : Option Ref => (o.map (·.desc)).getD 0) s.ref r _
    have nodes : nodeOf s' = update (nodeOf s) r n := by
      rw [← result]
      exact comp_update (fun o : Option Ref => (o.map (·.node)).getD 0) s.ref r _
    refine ⟨s',some r,?_,tablesAdd tables fresh there ⟨aligned,inside⟩ small result (descs ▸ inDesc) (nodes ▸ inNode),
      .created r desc d s' fresh there least absent ?_ ?_ ?_⟩
    · simp only [binderGetRefForNode,missing,given,bind,bind_some,insertedNode]
      rw [show (if s.contextMgrNode = some n then 0 else 1) = firstDesc s n from rfl,loop]
      simp [insertedDesc,there,result]
    all_goals
      rw [← result]
      rfl

theorem getNodeSpec (p ptr : Nat) :
    (∃ n d, binderGetNode s p ptr = some (some n) ∧ s.node n = some d ∧ d.proc = some p ∧ d.ptr = ptr) ∨
    (binderGetNode s p ptr = some none ∧ ∀ n, Owned s p n → ptrOf s n ≠ ptr) := by
  rcases holdsSearch ptr (tables.nodes p) (fun _ => ptrKnown) (fun _ _ _ _ order => order) with
    ⟨n,found,⟨d,known,owner⟩,same⟩ | absent
  · exact .inl ⟨n,d,found,known,owner,by simpa [ptrOf,nodePtr,known] using same⟩
  · exact .inr absent

theorem tablesNew {ptr cookie nodes} (fresh : s.node n = none)
    (result : setNode (setProc s p ((s.proc p).setNodes nodes)) n
      (some ⟨some p,ptr,cookie,0,0,0,false,false,false,false,[]⟩) = s')
    (inNodes : Holds nodes (fun m => m = n ∨ Owned s p m) (fun a b => ptrOf s' a < ptrOf s' b)) : Tables s' := by
  have others : ∀ m, m ≠ n → s'.node m = s.node m := fun m other => by simp [← result,other]
  have new : s'.node n = some ⟨some p,ptr,cookie,0,0,0,false,false,false,false,[]⟩ := by simp [← result]
  have refs : s'.ref = s.ref := by rw [← result]; rfl
  have old : ∀ m e, s.node m = some e → m ≠ n := by
    rintro m e known rfl
    simp [fresh] at known
  have sameRefs : ∀ q, (s'.proc q).refsByDesc = (s.proc q).refsByDesc ∧
      (s'.proc q).refsByNode = (s.proc q).refsByNode := by
    intro q
    by_cases here : q = p
    · subst here
      simp [← result]
    · simp [← result,here]
  have mine : ∀ m, (m = n ∨ Owned s p m) ↔ Owned s' p m := by
    intro m
    by_cases here : m = n
    · subst here
      simp [Owned,new]
    · simp [Owned,others m here,here]
  have unused : ∀ r x, s.ref r = some x → x.node ≠ n := by
    rintro r x known rfl
    obtain ⟨d,there,_⟩ := tables.pointed r x known
    exact old _ d there rfl
  refine tablesChange tables others (fun _ _ _ => by rw [refs]) (fun d here => ?_) (fun r x known points => ?_) ?_
    (fun q => ?_) fun q => ?_
  · cases some.inj (new.symm.trans here)
    refine ⟨fun r => ⟨fun mem => absurd mem not_mem_nil,?_⟩,nodup_nil,rfl⟩
    rintro ⟨x,known,points⟩
    exact absurd points (unused r x (refs ▸ known))
  · exact absurd points (unused r x (refs ▸ known))
  · have tree : (s'.proc p).nodes = nodes := by simp [← result]
    refine holdsEach tables.nodes (tree ▸ holdsSame inNodes mine) fun q other =>
      ⟨by simp [← result,other],fun m => ?_,?_⟩
    · by_cases own : m = n
      · subst own
        simp [Owned,fresh,new,Ne.symm other]
      · simp [Owned,others m own]
    · rintro a ⟨d,ha,_⟩
      simp [ptrOf,nodePtr,others a (old a d ha)]
  · rw [(sameRefs q).1]
    exact (refTrees tables refs q).1
  · rw [(sameRefs q).2]
    exact (refTrees tables refs q).2

theorem newNodeSpec (p ptr cookie : Nat) (answer : Option Nat) :
    ∃ s' out, binderNewNode s p ptr cookie answer = some (s',out) ∧ Tables s' ∧ Made s p ptr cookie s' out := by
  rcases getNodeSpec tables p ptr with ⟨n,d,found,_⟩ | ⟨missing,absent⟩
  · refine ⟨s,none,?_,tables,.refused⟩
    simp [binderNewNode,found]
  cases given : kzalloc (fun a => (s.node a).isSome) answer with
  | none =>
    refine ⟨s,none,?_,tables,.refused⟩
    simp [binderNewNode,missing,given]
  | some n =>
    have fresh : s.node n = none := by simpa using (kzallocSome given).2.2
    have others : ∀ m, Owned s p m → m ≠ n := by
      rintro m ⟨d,known,_⟩ rfl
      simp [fresh] at known
    obtain ⟨nodes,inserted,inNodes⟩ := holdsInsertKeyed (x := n) (nodePtr s)
      (update (ptrOf s) n ptr) ptr
      (holdsKeys (tables.nodes p) (fun _ => Iff.rfl) fun a ha => update_of_ne (others a ha) ..)
      (fun m hm => by simp [others m hm,ptrKnown hm]) (fun m hm => by simpa [others m hm] using absent m hm) (by simp)
    generalize result : setNode (setProc s p ((s.proc p).setNodes nodes)) n
      (some ⟨some p,ptr,cookie,0,0,0,false,false,false,false,[]⟩) = s'
    have ptrs : ptrOf s' = update (ptrOf s) n ptr := by
      rw [← result]
      exact comp_update (fun o : Option Node => (o.map (·.ptr)).getD 0) s.node n _
    refine ⟨s',some n,?_,tablesNew tables fresh result (ptrs ▸ inNodes),.created n s' fresh ?_ ?_ ?_⟩
    · simp [binderNewNode,missing,given,inserted,result]
    all_goals
      rw [← result]
      rfl

end

end EclairKernel.BinderRefs
