import EclairKernel.BinderRefsOps
import Mathlib.Data.Set.Card

/-! Runs of the operations on references and nodes, from no object at all. No run
reaches a BUG or a freed object, and in every state reached the tables, the lists
and the counts agree. -/
namespace EclairKernel.BinderRefs
open Function List Option Rbtree Run

def StrongRefs (s : State) (n : Nat) : Set Nat := {r | ∃ x, s.ref r = some x ∧ x.node = n ∧ 0 < x.strong}

structure TablesOk (s : State) : Prop where
  sameRefs : ∀ p r, r ∈ inorder (s.proc p).refsByDesc ↔ r ∈ inorder (s.proc p).refsByNode
  ownRefs : ∀ p r, r ∈ inorder (s.proc p).refsByDesc ↔ ∃ x, s.ref r = some x ∧ x.proc = p
  descOnce : ∀ r x y z, s.ref r = some x → s.ref y = some z → x.proc = z.proc → x.desc = z.desc → r = y
  nodeOnce : ∀ r x y z, s.ref r = some x → s.ref y = some z → x.proc = z.proc → x.node = z.node → r = y
  listed : ∀ n d, s.node n = some d → d.refs.Nodup ∧ ∀ r, r ∈ d.refs ↔ ∃ x, s.ref r = some x ∧ x.node = n
  pointed : ∀ r x, s.ref r = some x → (s.node x.node).isSome
  strong : ∀ n d, s.node n = some d → (StrongRefs s n).Finite ∧ d.internalStrongRefs = (StrongRefs s n).ncard

structure StepOk (s : State) (op : Op) (s' : State) : Prop where
  least : ∀ r x, s.ref r = none → s'.ref r = some x → LeastUnused s x.proc x.node x.desc
  freed : ∀ n d, s.node n = some d → s'.node n = none → op ≠ .releaseNode n →
    (∀ r x, s'.ref r = some x → x.node ≠ n) ∧
    ∀ k, (if op = .decNode n k then wrap (d.localCount k - 1) else d.localCount k) = 0

abbrev Steps (s : State) (op : Op) (kept : State → Prop) : Prop := ∃ s', step s op = some s' ∧ Tables s' ∧ StepOk s op s' ∧ kept s'

def Sane (s : State) : Prop := ∀ r, 0 ≤ countOf s r true ∧ countOf s r true < 2^31

section
variable {s s'}

theorem tablesOk (tables : Tables s) (sane : Sane s) : TablesOk s := by
  refine ⟨?_,?_,?_,?_,?_,?_,?_⟩
  · intro p r
    rw [(tables.byDesc p).mem,(tables.byNode p).mem]
  · intro p r
    rw [(tables.byDesc p).mem]
    rfl
  · intro r x y z known there proc same
    refine holdsOnce (tables.byDesc x.proc) ⟨x,known,rfl⟩ ⟨z,there,proc.symm⟩ ?_
    simpa [descOf,refDesc,known,there] using same
  · intro r x y z known there proc same
    refine holdsOnce (tables.byNode x.proc) ⟨x,known,rfl⟩ ⟨z,there,proc.symm⟩ ?_
    simpa [nodeOf,refNode,known,there] using same
  · intro n d known
    exact ⟨tables.once n d known,(tables.nodeOk known).listed⟩
  · intro r x known
    obtain ⟨d,there,_⟩ := tables.pointed r x known
    simp [there]
  · intro n d known
    have same : StrongRefs s n = ↑(strongList s n).toFinset := by
      ext r
      simp only [coe_toFinset,strongListMem tables]
      constructor
      · rintro ⟨x,here,points,positive⟩
        exact ⟨x,here,points,by omega⟩
      · rintro ⟨x,here,points,nonzero⟩
        have low : 0 ≤ x.strong := by simpa [countOf,here,Ref.count] using (sane r).1
        exact ⟨x,here,points,by omega⟩
    rw [same]
    refine ⟨Finset.finite_toSet _,?_⟩
    rw [Set.ncard_coe_finset,toFinset_card_of_nodup (strongListNodup tables n)]
    exact strongListLength tables known

variable {op n}

theorem stepSame (refs : ∀ r, s.ref r = none → s'.ref r = none)
    (nodes : ∀ n d, s.node n = some d → s'.node n ≠ none) : StepOk s op s' := by
  constructor
  · intro r x fresh new
    simp [refs r fresh] at new
  · intro n d known gone
    exact absurd gone (nodes n d known)

theorem stepFreed (tables : Tables s') (refs : ∀ r, s.ref r = none → s'.ref r = none)
    (counts : ∀ n d, s.node n = some d → s'.node n = none → op ≠ .releaseNode n →
      ∀ k, (if op = .decNode n k then wrap (d.localCount k - 1) else d.localCount k) = 0) : StepOk s op s' := by
  constructor
  · intro r x fresh new
    simp [refs r fresh] at new
  · intro n d known gone other
    refine ⟨?_,counts n d known gone other⟩
    rintro r x here rfl
    obtain ⟨e,there,_⟩ := tables.pointed r x here
    simp [gone] at there

theorem stepShrunk (tables : Tables s') (shrunk : Shrunk s s') (locals : ∀ n k, localOf s' n k = localOf s n k)
    (other : ∀ n k, op ≠ .decNode n k) : StepOk s op s' := by
  refine stepFreed tables ?_ ?_
  · intro r fresh
    cases here : s'.ref r with
    | none => rfl
    | some x =>
      obtain ⟨x0,known,_⟩ := shrunk.ref r x here
      simp [fresh] at known
  · intro n d known gone _ k
    have same := locals n k
    rw [if_neg (other n k)]
    simpa [localOf,known,gone] using same.symm

theorem updateSome {α} {f : Nat → Option α} {m e v} (here : f m = some e) : update f n (some v) m ≠ none := by
  by_cases own : m = n
  · subst own
    simp
  · simp [own,here]

theorem stepNode (tables : Tables s) {d d'} (known : s.node n = some d) (same : Placed d d')
    (strong : d'.internalStrongRefs = d.internalStrongRefs) :
    Tables (setNode s n (some d')) ∧ StepOk s op (setNode s n (some d')) ∧ (setNode s n (some d')).ref = s.ref := by
  exact ⟨tablesNode tables known same strong,stepSame (fun _ fresh => fresh) fun _ _ => updateSome,rfl⟩

theorem stepFree (tables : Tables s) {d} (known : s.node n = some d) (empty : d.refs = [])
    (counts : op ≠ .releaseNode n → ∀ k, (if op = .decNode n k then wrap (d.localCount k - 1) else d.localCount k) = 0) :
    ∃ s', freeNode s n d.proc = some s' ∧ Tables s' ∧ StepOk s op s' ∧ s'.ref = s.ref := by
  obtain ⟨s',freed,tables',nodes,refs,_⟩ := tablesFree tables known empty
  refine ⟨s',freed,tables',stepFreed tables' (fun r fresh => by rw [refs,fresh]) ?_,refs⟩
  intro m e here gone other
  have own : m = n := by
    by_contra apart
    rw [nodes,update_of_ne apart,here] at gone
    cases gone
  subst own
  cases some.inj (here.symm.trans known)
  exact counts other

theorem stepGetRef (tables : Tables s) (p n : Nat) (answer : Option Nat) (live : (s.node n).isSome) :
    Steps s (.getRefForNode p n answer) fun s' => ∀ r, countOf s' r true = countOf s r true := by
  obtain ⟨d,there⟩ := isSome_iff_exists.mp live
  obtain ⟨s',out,call,tables',granted⟩ := getRefForNodeSpec tables p there answer
  refine ⟨s',by simp [step,call],tables',?_⟩
  cases granted with
  | found | refused => exact ⟨stepSame (fun _ fresh => fresh) fun m e here => by simp [here],fun _ => rfl⟩
  | created r desc e _ fresh known least absent refs nodes mgr =>
    refine ⟨⟨?_,?_⟩,?_⟩
    · intro y x before new
      by_cases own : y = r
      · subst own
        rw [refs,update_self] at new
        cases new
        exact least
      · rw [refs,update_of_ne own,before] at new
        cases new
    · intro m e here gone
      rw [nodes] at gone
      exact absurd gone (updateSome here)
    · intro y
      by_cases own : y = r
      · subst own
        simp [countOf,refs,fresh,Ref.count]
      · simp [countOf,refs,own]

theorem saneRefs (sane : Sane s) (refs : s'.ref = s.ref) : Sane s' := by
  intro r
  simpa [countOf,refs] using sane r

section
variable (tables : Tables s)
include tables

theorem stepNewNode (p ptr cookie : Nat) (answer : Option Nat) :
    Steps s (.newNode p ptr cookie answer) (·.ref = s.ref) := by
  obtain ⟨s',out,call,tables',made⟩ := newNodeSpec tables p ptr cookie answer
  refine ⟨s',by simp [step,call],tables',?_⟩
  cases made with
  | refused => exact ⟨stepSame (fun _ fresh => fresh) fun m e here => by simp [here],rfl⟩
  | created n _ fresh nodes refs mgr =>
    refine ⟨stepSame (fun r before => by rw [refs,before]) ?_,refs⟩
    intro m e here
    rw [nodes]
    exact updateSome here

theorem stepReadNode (n : Nat) (live : ((s.node n).bind (·.proc)).isSome) :
    Steps s (.readNode n) (·.ref = s.ref) := by
  cases known : s.node n with
  | none => simp [known] at live
  | some d =>
    simp only [Steps,step,binderReadNode,known]
    iterate 4
      split
      · exact ⟨_,rfl,stepNode tables known ⟨rfl,rfl,rfl,rfl⟩ rfl⟩
    split
    · rename_i idle
      simp only [Bool.or_eq_false_iff,decide_eq_false_iff_not,not_or,not_not] at idle
      refine stepFree tables known idle.1.1.1 ?_
      intro _ k
      cases k <;> simp [Node.localCount,idle]
    · exact ⟨_,rfl,stepNode tables known ⟨rfl,rfl,rfl,rfl⟩ rfl⟩

theorem stepReleaseNode (n : Nat) (live : ((s.node n).bind (·.proc)).isSome) :
    Steps s (.releaseNode n) (·.ref = s.ref) := by
  cases known : s.node n with
  | none => simp [known] at live
  | some d =>
    simp only [Steps,step,binderReleaseNode,known]
    split
    · rename_i empty
      exact stepFree tables known empty fun other => absurd rfl other
    obtain ⟨s1,freed,tables1,nodes,refs,_⟩ := tablesDrop tables known
      (some {d with proc := none, localStrongRefs := 0, localWeakRefs := 0, queued := false}) (fun absurd => by cases absurd)
      fun d' is => by cases is; exact ⟨rfl,rfl,rfl⟩
    refine ⟨_,by rw [freed]; rfl,tables1,stepSame (fun r fresh => by rw [setNode_ref,refs,fresh]) ?_,refs⟩
    intro m e here
    rw [setNode_node,nodes,update_idem]
    exact updateSome here

theorem stepDecNode (n : Nat) (strong : Bool) (live : (s.node n).isSome) :
    Steps s (.decNode n strong) (·.ref = s.ref) := by
  obtain ⟨d,known⟩ := isSome_iff_exists.mp live
  simp only [Steps,step]
  rcases decNodeCases known strong false with ⟨queued,kept⟩ | ⟨freed,empty,noStrong,noWeak⟩
  · refine ⟨_,kept,stepNode tables known ?_ ?_⟩
    · exact lowerPlaced d strong false
    · cases strong <;> rfl
  rw [freed]
  refine stepFree tables known empty ?_
  intro _ k
  cases strong <;> cases k <;> simp_all [Node.localCount,Node.lower]

theorem stepIncNode (n : Nat) (strong target : Bool) (live : (s.node n).isSome) :
    Steps s (.incNode n strong target) (·.ref = s.ref) := by
  obtain ⟨d,known⟩ := isSome_iff_exists.mp live
  obtain ⟨d',ok,call,raised⟩ := incNodeRaised known strong false target
  refine ⟨_,by simp only [step,call]; rfl,?_⟩
  cases raised with
  | refusedStrong _ internal _ | internalStrong _ _ internal => cases internal
  | refusedWeak | localStrong | weak => exact stepNode tables known ⟨rfl,rfl,rfl,rfl⟩ rfl

theorem stepIncRef (sane : Sane s) {r strong target} (live : (s.ref r).isSome)
    (fits : CountFits s (.incRef r strong target)) :
    Steps s (.incRef r strong target) Sane := by
  obtain ⟨x,known⟩ := isSome_iff_exists.mp live
  have range := sane r
  simp only [countOf,known,elim_some,Ref.count,if_true] at range
  have room : strong = true → 0 ≤ x.strong ∧ x.strong + 1 < 2^31 := by
    rintro rfl
    have below := fits x known
    omega
  obtain ⟨s',ok,call,tables',counted⟩ := incRefSpec tables known strong target room
  refine ⟨s',by simp [step,call],tables',
    stepShrunk tables' (shrunkAlike counted.alike) counted.locals fun _ _ => by simp,?_⟩
  intro y
  rw [counted.counts]
  split
  · rename_i own
    obtain ⟨_,rfl,same⟩ := own
    have room := room same.symm
    simp only [countOf,known,elim_some,Ref.count,if_true]
    rw [wrapFits (by omega) (by omega)]
    omega
  · exact sane y

theorem stepDecRef (sane : Sane s) {r strong} (live : (s.ref r).isSome) :
    Steps s (.decRef r strong) Sane := by
  obtain ⟨x,known⟩ := isSome_iff_exists.mp live
  obtain ⟨s',ok,call,tables',lowered⟩ := decRefSpec tables known strong
  refine ⟨s',by simp [step,call],tables',stepShrunk tables' lowered.shrunk lowered.locals fun _ _ => by simp,?_⟩
  intro y
  have range := sane y
  rw [lowered.counts]
  split
  · rw [wrapFits (by omega) (by omega)]
    omega
  · exact range

theorem stepDeleteRef (sane : Sane s) {r} (live : (s.ref r).isSome) :
    Steps s (.deleteRef r) Sane := by
  obtain ⟨x,known⟩ := isSome_iff_exists.mp live
  obtain ⟨s',call,tables',deleted⟩ := deleteRefSpec tables known
  obtain ⟨d,there,_⟩ := tables.pointed r x known
  refine ⟨s',call,tables',
    stepShrunk tables' (deletedShrunk there deleted) (deletedLocals there deleted) fun _ _ => by simp,?_⟩
  intro y
  by_cases own : y = r
  · subst own
    simp [countOf,deleted.ref]
  · simpa [countOf,deleted.ref,own] using sane y

theorem stepSpec (sane : Sane s) {op} (live : Live s op) (fits : CountFits s op) :
    Steps s op Sane := by
  have keep : Steps s op (·.ref = s.ref) → Steps s op Sane := by
    rintro ⟨s',stepped,tables',ok,refs⟩
    exact ⟨s',stepped,tables',ok,saneRefs sane refs⟩
  cases op with
  | getRefForNode p n answer =>
    obtain ⟨s',stepped,tables',ok,counts⟩ := stepGetRef tables p n answer live
    exact ⟨s',stepped,tables',ok,fun r => counts r ▸ sane r⟩
  | incRef r strong target => exact stepIncRef tables sane live fits
  | decRef r strong => exact stepDecRef tables sane live
  | deleteRef r => exact stepDeleteRef tables sane live
  | newNode p ptr cookie answer => exact keep (stepNewNode tables p ptr cookie answer)
  | incNode n strong target => exact keep (stepIncNode tables n strong target live)
  | decNode n strong => exact keep (stepDecNode tables n strong live)
  | readNode n => exact keep (stepReadNode tables n live)
  | flagNode n hasStrong hasWeak acceptFds queued =>
    obtain ⟨d,known⟩ := isSome_iff_exists.mp live
    simp only [Steps,step,known] at keep ⊢
    exact keep ⟨_,rfl,stepNode tables known ⟨rfl,rfl,rfl,rfl⟩ rfl⟩
  | releaseNode n => exact keep (stepReleaseNode tables n live)
  | contextMgr n =>
    refine keep ⟨_,rfl,tablesAlike tables ⟨fun _ => rfl,fun _ => rfl⟩ rfl tables.strong,
      stepSame (fun _ fresh => fresh) ?_,rfl⟩
    intro m e here
    simp [here]

end

theorem emptyTables : Tables empty := by
  have noNode : ∀ p n, ¬ Owned empty p n := by
    rintro p n ⟨d,known,_⟩
    cases known
  have noRef : ∀ p r, ¬ RefOf empty p r := by
    rintro p r ⟨x,known,_⟩
    cases known
  exact ⟨fun p => holdsLeaf (noNode p),fun p => holdsLeaf (noRef p),fun p => holdsLeaf (noRef p),
    nofun,nofun,nofun,nofun,nofun⟩

theorem runTables {ops} (admitted : Admitted stepAll AdmissibleFits (some empty) ops) :
    ∃ s, run stepAll (some empty) ops = some s ∧ Tables s ∧ Sane s := by
  have keeps : ∀ s op, (∃ t, s = some t ∧ Tables t ∧ Sane t) → AdmissibleFits s op →
      ∃ t, stepAll s op = some t ∧ Tables t ∧ Sane t := by
    rintro _ op ⟨t,rfl,tables,sane⟩ allowed
    obtain ⟨t',stepped,tables',_,sane'⟩ := stepSpec tables sane (allowed t rfl).1 (allowed t rfl).2
    exact ⟨t',stepped,tables',sane'⟩
  exact runInvariant keeps ⟨empty,rfl,emptyTables,fun r => by simp [countOf,empty]⟩ admitted

end

theorem runTablesOk {ops} (admitted : Admitted stepAll AdmissibleFits (some empty) ops) :
    ∃ s, run stepAll (some empty) ops = some s ∧ TablesOk s ∧
      ∀ op, Live s op → CountFits s op → ∃ s', step s op = some s' ∧ StepOk s op s' := by
  obtain ⟨s,reached,tables,sane⟩ := runTables admitted
  refine ⟨s,reached,tablesOk tables sane,?_⟩
  intro op live fits
  obtain ⟨s',stepped,_,ok,_⟩ := stepSpec tables sane live fits
  exact ⟨s',stepped,ok⟩

def exampleOps : List Op :=
  [.newNode 1 0x100 0x108 (some 0x1000),.newNode 1 0x200 0x208 (some 0x1100),.contextMgr (some 0x1000),
   .getRefForNode 2 0x1100 (some 0x2000),.incRef 0x2000 true true,.getRefForNode 2 0x1000 (some 0x2040),
   .incRef 0x2040 false true,.getRefForNode 3 0x1100 (some 0x2080),.deleteRef 0x2080,.decRef 0x2000 true,
   .getRefForNode 2 0x1000 none]

theorem exampleTablesOk : ∃ s, run stepAll (some empty) exampleOps = some s ∧ TablesOk s ∧
    step s (.getRefForNode 3 0x1000 (some 0x2000)) ≠ none := by
  have admitted : Admitted stepAll AdmissibleFits (some empty) exampleOps := by decide +kernel
  obtain ⟨s,reached,ok,next⟩ := runTablesOk admitted
  have live : (run stepAll (some empty) exampleOps).map (fun s => (s.node 0x1000).isSome) = some true := by
    decide +kernel
  rw [reached] at live
  obtain ⟨s',stepped,_⟩ := next (.getRefForNode 3 0x1000 (some 0x2000)) (some.inj live) trivial
  exact ⟨s,reached,ok,by simp [stepped]⟩

variable {s r} {x : Ref}

theorem acquireStep (known : s.ref r = some x) (taken : x.strong ≠ 0) :
    step s (.incRef r true false) = some (setRef s r (some (x.setCount true (wrap (x.strong + 1))))) := by
  simp [step,binderIncRef,known,Ref.count,taken]

theorem acquireRun (known : s.ref r = some x) (low : 0 < x.strong) (k : Nat) (high : x.strong + k < 2^31) :
    Admitted stepAll Admissible (some s) (List.replicate k (.incRef r true false)) ∧
    ∃ s', run stepAll (some s) (List.replicate k (.incRef r true false)) = some s' ∧ s'.node = s.node ∧
      ∃ x', s'.ref r = some x' ∧ x'.strong = x.strong + k := by
  induction k generalizing s x with
  | zero => exact ⟨trivial,s,rfl,rfl,x,known,by simp⟩
  | succ k ih =>
    have fits : wrap (x.strong + 1) = x.strong + 1 := wrapFits (by omega) (by omega)
    have stepped : stepAll (some s) (.incRef r true false) = some (setRef s r (some (x.setCount true (x.strong + 1)))) := by
      rw [← fits]
      exact acquireStep known (by omega)
    have raised : (x.setCount true (x.strong + 1)).strong = x.strong + 1 := rfl
    obtain ⟨admitted,s',reached,nodes,x',there,count⟩ := ih
      (s := setRef s r (some (x.setCount true (x.strong + 1)))) (x := x.setCount true (x.strong + 1)) (by simp)
      (by omega) (by omega)
    refine ⟨⟨?_,by rw [stepped]; exact admitted⟩,s',?_,nodes,x',there,by omega⟩
    · intro t same
      cases same
      simp [Live,known]
    · rw [← reached,← stepped]
      rfl

def handleOps : List Op :=
  [.newNode 1 0x100 0x108 (some 0x1000),.getRefForNode 2 0x1000 (some 0x2000),.incRef 0x2000 true true]
def overflowOps : List Op :=
  (handleOps ++ List.replicate (2^31 - 2) (.incRef 0x2000 true false)) ++ [.incRef 0x2000 true false]

theorem handleReached : Admitted stepAll Admissible (some empty) handleOps ∧
    (run stepAll (some empty) handleOps).map (fun s => (s.ref 0x2000,s.node 0x1000)) =
    some (some ⟨2,0x1000,1,1,0⟩,some ⟨some 1,0x100,0x108,1,0,0,false,false,false,true,[0x2000]⟩) := by
  decide +kernel

theorem strongCountOverflows : Admitted stepAll Admissible (some empty) overflowOps ∧
    ∃ s, run stepAll (some empty) overflowOps = some s ∧ ¬ TablesOk s := by
  obtain ⟨first,objects⟩ := handleReached
  obtain ⟨s,reached,same⟩ := map_eq_some_iff.mp objects
  obtain ⟨handle,node⟩ := Prod.mk.inj same
  obtain ⟨later,s1,reached1,nodes,x,there,count⟩ := acquireRun handle (by decide) (2^31 - 2) (by decide)
  have count : x.strong = 2^31 - 1 := count.trans (by decide)
  have last := acquireStep there (by omega)
  have before : run stepAll (some empty) (handleOps ++ replicate (2^31 - 2) (.incRef 0x2000 true false)) =
      some s1 := by
    rw [runAppend,reached,reached1]
  have admitted : Admitted stepAll Admissible (some empty)
      (handleOps ++ replicate (2^31 - 2) (.incRef 0x2000 true false)) := by
    rw [admittedAppend,reached]
    exact ⟨first,later⟩
  refine ⟨(admittedAppend _ _ _ _ _).mpr ⟨admitted,?_⟩,_,by rw [overflowOps,runAppend _ _ _ [_],before]; exact last,?_⟩
  · rw [before]
    refine ⟨?_,trivial⟩
    intro t same
    cases same
    simp [Live,there]
  · intro ok
    have negative : wrap (x.strong + 1) < 0 := by
      rw [count]
      decide
    have known : (setRef s1 0x2000 (some (x.setCount true (wrap (x.strong + 1))))).node 0x1000 =
        some ⟨some 1,0x100,0x108,1,0,0,false,false,false,true,[0x2000]⟩ := by
      simp [nodes,node]
    -- the node counts one strong reference, but the only one there is has a negative count
    obtain ⟨_,counted⟩ := ok.strong 0x1000 _ known
    have one : (StrongRefs (setRef s1 0x2000 (some (x.setCount true (wrap (x.strong + 1))))) 0x1000).ncard ≠ 0 := by
      intro zero
      rw [zero] at counted
      cases counted
    obtain ⟨r,y,here,points,positive⟩ := Set.nonempty_of_ncard_ne_zero one
    have mem := ((ok.listed 0x1000 _ known).2 r).mpr ⟨y,here,points⟩
    cases mem_singleton.mp mem
    simp only [setRef_ref,update_self,some.injEq] at here
    subst here
    have same : (x.setCount true (wrap (x.strong + 1))).strong = wrap (x.strong + 1) := rfl
    omega

end EclairKernel.BinderRefs
