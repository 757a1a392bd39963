import EclairKernel.ResourceCalls

/-! Runs of calls on one tree, with the memory outside it free to change in between: another
tree, or a resource that its owner fills in. What is said of the tree is said of the
pointers. -/
namespace EclairKernel.Resource
open SlotList Fuel

inductive Node (h : Memory) (root : Nat) : Nat → Prop
  | root : Node h root root
  | child {a c : Nat} {l : List Nat} : Node h root a → Chain .sibling h.link (.child a) l → c ∈ l → Node h root c

structure ChildrenOk (h : Memory) (a : Nat) (l : List Nat) : Prop where
  listed : Chain .sibling h.link (.child a) l
  sorted : l.Pairwise fun c d => h.start c ≤ h.start d
  disjoint : l.Pairwise fun c d => h.stop c < h.start d ∨ h.stop d < h.start c
  contained : ∀ c ∈ l, h.start a ≤ h.start c ∧ h.start c ≤ h.stop c ∧ h.stop c ≤ h.stop a
  parent : ∀ c ∈ l, h.parent c = some a

def WellFormed (h : Memory) (root : Nat) : Prop := ∀ a, Node h root a → ∃ l, ChildrenOk h a l

structure Unchanged (root : Nat) (h h' : Memory) : Prop where
  nodes : ∀ a, Node h' root a ↔ Node h root a
  fields : ∀ a, Node h root a → h'.start a = h.start a ∧ h'.stop a = h.stop a ∧ h'.flags a = h.flags a ∧
    h'.link (.child a) = h.link (.child a)
  links : ∀ a, Node h root a → a ≠ root → h'.link (.sibling a) = h.link (.sibling a) ∧ h'.parent a = h.parent a

def Admissible (root : Nat) (h : Memory) : Call → Prop
  | .requestResource parent new | .insertResource parent new | .expandToFit parent new =>
    Node h root parent ∧ ¬Node h root new ∧ h.link (.child new) = none
  | .releaseResource _ => True
  | .requestRegion parent _ _ _ alloc => Node h root parent ∧ ∀ res, alloc = some res → ¬Node h root res
  | .releaseRegion parent _ _ => Node h root parent

inductive Reach (root : Nat) : Memory → Prop
  | init {h : Memory} : h.link (.child root) = none → Reach root h
  | call {h h' : Memory} {success : Bool} (c : Call) : Reach root h → Admissible root h c →
      Ends (c.run · h) (success,h') → Reach root h'
  | outside {h h' : Memory} : Reach root h → Unchanged root h h' → Reach root h'

section
variable {h h' root a old kids c success}

section
variable (ok : TreeOk h root kids)
include ok

theorem TreeOk.node : Node h root a ↔ InTree root kids a := by
  constructor
  · intro node
    induction node with
    | root => exact .root
    | child _ chain listed ih => exact .child ih (chainUnique (ok.chain _ ih) chain ▸ listed)
  · intro mem
    induction mem with
    | root => exact .root
    | child mem kid ih => exact .child ih (ok.chain _ mem) kid

theorem TreeOk.wellFormed : WellFormed h root := by
  intro a node
  have mem := ok.node.mp node
  refine ⟨kids a,ok.chain a mem,?_,(ok.ordered a mem).imp .inl,ok.inside a mem,ok.parent a mem⟩
  refine (ok.ordered a mem).imp_of_mem fun {c d} left _ less => ?_
  have := ok.inside a mem c left
  omega

theorem SameTree.unchanged (same : SameTree root kids h h') : Unchanged root h h' := by
  refine ⟨fun a => (ok.same same).node.trans ok.node.symm,fun a node => ?_,fun a node other => ?_⟩
  · have mem := ok.node.mp node
    exact ⟨same.start a mem,same.stop a mem,same.flags a mem,same.child a mem⟩
  · cases ok.node.mp node with
    | root => exact absurd rfl other
    | child mem kid => exact ⟨same.sibling _ mem a kid,same.parent _ mem a kid⟩

theorem Unchanged.same (unchanged : Unchanged root h h') : SameTree root kids h h' := by
  have fields {a : Nat} (mem : InTree root kids a) := unchanged.fields a (ok.node.mpr mem)
  have links {a c : Nat} (mem : InTree root kids a) (kid : c ∈ kids a) :=
    unchanged.links c (ok.node.mpr (.child mem kid)) fun eq => ok.rootNotKid mem (eq ▸ kid)
  exact ⟨fun a mem => (fields mem).1,fun a mem => (fields mem).2.1,fun a mem => (fields mem).2.2.1,
    fun a mem => (fields mem).2.2.2,fun a mem c kid => (links mem kid).1,fun a mem c kid => (links mem kid).2⟩

theorem callEnds (admissible : Admissible root h c)
    (listed : ∀ old, c = .releaseResource old → ∃ a, InTree root kids a ∧ old ∈ kids a) :
    ∃ r, Ends (c.run · h) r ∧ Outcome h root kids r := by
  cases c with
  | requestResource parent new =>
    obtain ⟨node,outside,childless⟩ := admissible
    have mem := ok.node.mp node
    obtain ⟨r,ends,requested⟩ := requestEnds ok mem new
    refine ⟨_,endsBind ends endsDone,?_⟩
    cases requested with
    | refused => exact .failed (.refl h)
    | placed before after split place =>
      obtain ⟨kids',grown⟩ := placedOk ok mem (fun mem => outside (ok.node.mpr mem)) split childless place
      exact .done grown
    | conflict => exact .failed (.refl h)
  | releaseResource old =>
    obtain ⟨a,mem,kid⟩ := listed old rfl
    obtain ⟨r,ends,outcome⟩ := releaseLoopEnds ok mem (List.nil_append (kids a)).symm kid
    refine ⟨r,?_,outcome⟩
    simpa [Call.run,releaseResource,ok.parent a mem old kid,slotAfter] using ends
  | insertResource parent new =>
    obtain ⟨node,outside,childless⟩ := admissible
    obtain ⟨r,ends,inserted⟩ := insertEnds ok (ok.node.mp node) (fun mem => outside (ok.node.mpr mem)) childless
    refine ⟨_,endsBind ends endsDone,?_⟩
    cases inserted with
    | added grown => exact .done grown
    | refused => exact .failed (.refl h)
    | partly => exact .failed (.refl h)
  | expandToFit parent new =>
    obtain ⟨node,outside,childless⟩ := admissible
    by_cases placed : h.parent new ≠ none
    · exact ⟨_,endsAt 0 fun _ => if_pos placed,.failed (.refl h)⟩
    obtain ⟨r,ends,outcome⟩ := expandLoopEnds ok (ok.node.mp node) (fun mem => outside (ok.node.mpr mem)) childless
    refine ⟨r,?_,outcome⟩
    simpa [Call.run,expandToFit,if_neg placed] using ends
  | requestRegion parent start n flags alloc =>
    obtain ⟨node,outside⟩ := admissible
    cases alloc with
    | none => exact ⟨_,endsDone,.failed (.refl h)⟩
    | some res =>
      have out : ¬InTree root kids res := fun mem => outside res rfl (ok.node.mpr mem)
      have same : SameTree root kids h (region h res start n flags) := sameRegion out start n flags
      obtain ⟨r,ends,outcome⟩ := regionLoopEnds (ok.same same) (ok.node.mp node) out (by simp [region])
      exact ⟨r,ends,outcome.since same⟩
  | releaseRegion parent start n =>
    exact releaseRegionLoopEnds ok (ok.node.mp admissible) (List.nil_append (kids parent)).symm

end

theorem orphanReleased {r} (ok : TreeOk h root kids) (orphan : ∀ a, InTree root kids a → old ∉ kids a)
    (ends : Ends (Call.run · h (.releaseResource old)) r) : SameTree root kids h r.2 := by
  obtain ⟨n,ends⟩ := ends
  have ran := ends n le_rfl
  simp only [Call.run,releaseResource,bind,Option.bind_eq_some_iff] at ran
  obtain ⟨_,_,ran⟩ := ran
  exact releaseLoopSame ok orphan ran

theorem callKeeps (ok : TreeOk h root kids) (admissible : Admissible root h c) (ends : Ends (c.run · h) (success,h')) :
    (∃ kids', TreeOk h' root kids') ∧ (success = false → SameTree root kids h h') := by
  by_cases listed : ∀ old, c = .releaseResource old → ∃ a, InTree root kids a ∧ old ∈ kids a
  · obtain ⟨r,ends',outcome⟩ := callEnds ok admissible listed
    cases endsUnique ends ends'
    cases outcome with
    | done grown => exact ⟨⟨_,grown⟩,Bool.noConfusion⟩
    | failed same => exact ⟨⟨kids,ok.same same⟩,fun _ => same⟩
  · push Not at listed
    obtain ⟨old,rfl,orphan⟩ := listed
    have same := orphanReleased ok orphan ends
    exact ⟨⟨kids,ok.same same⟩,fun _ => same⟩

theorem emptyOnly (mem : InTree root (fun _ => []) a) : a = root := by
  cases mem with
  | root => rfl
  | child _ kid => cases kid

theorem emptyOk (empty : h.link (.child root) = none) : TreeOk h root fun _ => [] :=
  ⟨fun a mem => emptyOnly mem ▸ empty,by simp,by simp,by simp,fun _ => 0,by simp⟩

theorem reachOk (reach : Reach root h) : ∃ kids, TreeOk h root kids := by
  induction reach with
  | init empty => exact ⟨_,emptyOk empty⟩
  | call c _ admissible ends ih =>
    obtain ⟨kids,ok⟩ := ih
    exact (callKeeps ok admissible ends).1
  | outside _ unchanged ih =>
    obtain ⟨kids,ok⟩ := ih
    exact ⟨kids,ok.same (unchanged.same ok)⟩

theorem resourceTreeWellFormed (reach : Reach root h) : WellFormed h root ∧ ∀ c, Admissible root h c →
    (∀ h', Ends (c.run · h) (false,h') → Unchanged root h h') ∧
    ((∀ old, c = .releaseResource old → Node h root old ∧ old ≠ root) → ∃ r, Ends (c.run · h) r) := by
  obtain ⟨kids,ok⟩ := reachOk reach
  refine ⟨ok.wellFormed,fun c admissible => ⟨fun h' ends => ?_,fun inside => ?_⟩⟩
  · exact ((callKeeps ok admissible ends).2 rfl).unchanged ok
  · have listed (old : Nat) (eq : c = .releaseResource old) : ∃ a, InTree root kids a ∧ old ∈ kids a := by
      obtain ⟨node,other⟩ := inside old eq
      cases ok.node.mp node with
      | root => exact absurd rfl other
      | child mem kid => exact ⟨_,mem,kid⟩
    obtain ⟨r,ends,_⟩ := callEnds ok admissible listed
    exact ⟨r,ends⟩

end

def ports : Memory := ⟨fun _ => 0,fun _ => 0xffff,fun _ => 0,fun _ => none,fun _ => none⟩

def portRegion : Memory := linkIn (region ports 1 0x60 16 0) 0 1 (.child 0)

theorem portRegionReach : Reach 0 portRegion := by
  have only (a : Nat) (node : Node ports 0 a) : a = 0 := by
    cases node with
    | root => rfl
    | @child b _ l _ chain listed =>
      cases l with
      | nil => cases listed
      | cons x l => cases chain.1
  have admissible : Admissible 0 ports (.requestRegion 0 0x60 16 0 (some 1)) :=
    ⟨.root,fun res eq node => by cases eq; cases only 1 node⟩
  have ends : Ends (Call.run · ports (.requestRegion 0 0x60 16 0 (some 1))) (true,portRegion) :=
    endsAt 2 fun fuel => by rw [add_comm]; rfl
  exact .call _ (.init rfl) admissible ends

theorem outsideNode {h root a} (reach : Reach root h) (orphan : h.parent a = none) (other : a ≠ root) : ¬Node h root a := by
  intro node
  obtain ⟨kids,ok⟩ := reachOk reach
  cases ok.node.mp node with
  | root => exact other rfl
  | child mem kid =>
    have placed := ok.parent _ mem a kid
    rw [orphan] at placed
    cases placed

def after (h : Memory) (c : Call) : Memory := ((c.run 12 h).getD (false,h)).2

theorem afterReach {h} (c : Call) (reach : Reach 0 h) (admissible : Admissible 0 h c)
    (ends : ∀ fuel, c.run (fuel + 12) h = some (true,after h c)) : Reach 0 (after h c) :=
  .call c reach admissible (endsAt 12 fun fuel => by rw [add_comm]; exact ends fuel)

def bridges : Memory :=
  ⟨fun a => [0,0x100,0x300,0x80,0x400].getD a 0,fun a => [0xffff,0x1ff,0x3ff,0x47f,0x4ff].getD a 0,fun _ => 0,fun _ => none,fun _ => none⟩

def siblings : Memory := after (after bridges (.requestResource 0 1)) (.requestResource 0 2)

/-- 3 adopts 1 and 2, 4 is widened over 3 and adopts it, and the region 5 goes down to 1. -/
def nested : Memory := after (after (after siblings (.insertResource 0 3)) (.expandToFit 0 4)) (.requestRegion 0 0x110 16 0 (some 5))

theorem siblingsReach : Reach 0 siblings := by
  have none : Reach 0 bridges := .init rfl
  have one := afterReach (.requestResource 0 1) none ⟨.root,outsideNode none rfl (by decide),rfl⟩ fun _ => rfl
  exact afterReach (.requestResource 0 2) one ⟨.root,outsideNode one rfl (by decide),rfl⟩ fun _ => rfl

theorem nestedReach : Reach 0 nested := by
  have two := siblingsReach
  have three := afterReach (.insertResource 0 3) two ⟨.root,outsideNode two rfl (by decide),rfl⟩ fun _ => rfl
  have four := afterReach (.expandToFit 0 4) three ⟨.root,outsideNode three rfl (by decide),rfl⟩ fun _ => rfl
  refine afterReach (.requestRegion 0 0x110 16 0 (some 5)) four ⟨.root,fun res eq => ?_⟩ fun _ => rfl
  cases eq
  exact outsideNode four rfl (by decide)

theorem nestedWellFormed : let h := after nested (.releaseResource 2)
    WellFormed h 0 ∧ (h.start 4 = 0x80 ∧ h.link (.child 0) = some 4 ∧ h.link (.child 4) = some 3 ∧ h.link (.child 3) = some 1 ∧
      h.link (.sibling 1) = none ∧ h.link (.child 1) = some 5) ∧
    ∃ h', Ends (Call.run · h (.requestResource 0 2)) (false,h') ∧ Unchanged 0 h h' := by
  have reach := afterReach (.releaseResource 2) nestedReach trivial fun _ => rfl
  obtain ⟨formed,calls⟩ := resourceTreeWellFormed reach
  have ends : Ends (Call.run · (after nested (.releaseResource 2)) (.requestResource 0 2)) (false,after nested (.releaseResource 2)) :=
    endsAt 12 fun fuel => by rw [add_comm]; rfl
  exact ⟨formed,⟨rfl,rfl,rfl,rfl,rfl,rfl⟩,_,ends,(calls (.requestResource 0 2) ⟨.root,outsideNode reach rfl (by decide),rfl⟩).1 _ ends⟩

/-! reserve_region_with_split, with kzalloc handing out one new address after the other. A range
that sticks out of the root conflicts with the root itself, and the part outside is asked for again
without end; inside the root every split leaves shorter ranges. -/

open Function List

structure Reserve where
  h : Memory
  name : Nat → Nat
  fresh : Nat

def splitLoop (res : Nat) : Nat → Nat → Memory → Option (Option Nat × Memory)
  | 0,_,_ => none
  | fuel + 1,parent,h => do
    match ← requestResource fuel parent res h with
    | (none,h) => some (none,h)
    | (some conflict,h) =>
      if conflict ≠ parent ∧ !busy h conflict then splitLoop res fuel conflict h else some (some conflict,h)

def newResource (s : Reserve) (name start stop : Nat) : Reserve :=
  ⟨setStop (region s.h s.fresh start 0 0) s.fresh stop,update s.name s.fresh name,s.fresh + 1⟩

def reserveSplit (root name : Nat) : Nat → Nat → Nat → Reserve → Option Reserve
  | 0,_,_,_ => none
  | fuel + 1,start,stop,s => do
    let new := newResource s name start stop
    let (conflict,h) ← splitLoop s.fresh fuel root new.h
    let s := { new with h := h }
    match conflict with
    | none => some s
    | some conflict =>
      if s.h.start conflict ≤ start ∧ stop ≤ s.h.stop conflict then some s
      else
        let s ← (if start < s.h.start conflict then reserveSplit root name fuel start (s.h.start conflict - 1) s else some s)
        let commonStart := max (s.h.start conflict) start
        let commonEnd := min (s.h.stop conflict) stop
        let s ← (if !busy s.h conflict ∧ commonStart < commonEnd then reserveSplit root name fuel commonStart commonEnd s else some s)
        if s.h.stop conflict < stop then reserveSplit root name fuel (s.h.stop conflict + 1) stop s else some s

def Covers (s : Reserve) (a x : Nat) : Prop := s.h.start a ≤ x ∧ x ≤ s.h.stop a

def Marked (name : Nat) (s : Reserve) (a : Nat) : Prop := busy s.h a = true ∧ s.name a = name

structure SameFields (s s' : Reserve) (a : Nat) : Prop where
  start : s'.h.start a = s.h.start a
  stop : s'.h.stop a = s.h.stop a
  flags : s'.h.flags a = s.h.flags a
  name : s'.name a = s.name a

structure Reserved (root name : Nat) (asked : Nat → Prop) (s : Reserve) (kids : Nat → List Nat) (s' : Reserve) (kids' : Nat → List Nat) :
    Prop where
  ok : TreeOk s'.h root kids'
  known : ∀ a, InTree root kids' a → a < s'.fresh
  kept : ∀ a, InTree root kids a → InTree root kids' a ∧ SameFields s s' a
  new : ∀ c ∈ kids' root, c ∈ kids root ∨ Marked name s' c
  covered : ∀ x, asked x → (∃ c ∈ kids root, Covers s c x) ∨ ∃ a, InTree root kids' a ∧ Marked name s' a ∧ Covers s' a x

section
variable {h root parent res name start stop a x kids kids' kids'' before after}
  {s s' s'' : Reserve} {asked asked'}

theorem SameFields.covers (same : SameFields s s' a) : Covers s' a x ↔ Covers s a x := by
  rw [Covers,Covers,same.start,same.stop]

theorem SameFields.marked (same : SameFields s s' a) : Marked name s' a ↔ Marked name s a := by
  rw [Marked,Marked,busy,busy,same.flags,same.name]

theorem Reserved.next (first : Reserved root name asked s kids s' kids') (second : Reserved root name asked' s' kids' s'' kids'') :
    Reserved root name (fun x => asked x ∨ asked' x) s kids s'' kids'' := by
  have later {a x : Nat} (mem : InTree root kids' a) (marked : Marked name s' a) (covers : Covers s' a x) :
      ∃ a, InTree root kids'' a ∧ Marked name s'' a ∧ Covers s'' a x :=
    have kept := second.kept a mem
    ⟨a,kept.1,kept.2.marked.mpr marked,kept.2.covers.mpr covers⟩
  refine ⟨second.ok,second.known,fun a mem => ?_,fun c kid => ?_,fun x either => ?_⟩
  · obtain ⟨mem',same⟩ := first.kept a mem
    obtain ⟨mem'',same'⟩ := second.kept a mem'
    exact ⟨mem'',same'.start.trans same.start,same'.stop.trans same.stop,same'.flags.trans same.flags,same'.name.trans same.name⟩
  · rcases second.new c kid with kid' | marked
    · exact (first.new c kid').imp_right (second.kept c (.child .root kid')).2.marked.mpr
    · exact .inr marked
  · rcases either with early | late
    · refine (first.covered x early).imp_right fun ⟨a,mem,marked,covers⟩ => later mem marked covers
    rcases second.covered x late with ⟨c,kid,covers⟩ | done
    · rcases first.new c kid with old | marked
      · exact .inl ⟨c,old,(first.kept c (.child .root old)).2.covers.mp covers⟩
      · exact .inr (later (.child .root kid) marked covers)
    · exact .inr done

inductive Split (h : Memory) (root : Nat) (kids : Nat → List Nat) (res : Nat) : Option Nat × Memory → Prop
  | placed (parent : Nat) (before after : List Nat) : InTree root kids parent → kids parent = before ++ after →
      Place h parent res before [] after → Split h root kids res (none,linkIn h parent res (spot parent before))
  | conflict (c : Nat) : InTree root kids c → h.start c ≤ h.stop res ∧ h.start res ≤ h.stop c →
      ¬Fits h c res ∨ busy h c = true ∧ c ≠ root → Split h root kids res (some c,h)

theorem splitLoopEnds (res : Nat) (ok : TreeOk h root kids) (mem : InTree root kids parent)
    (meets : h.start parent ≤ h.stop res ∧ h.start res ≤ h.stop parent) :
    ∃ r, Ends (splitLoop res · parent h) r ∧ Split h root kids res r := by
  obtain ⟨rank,falls⟩ := ok.ranked
  induction low : rank parent using Nat.strong_induction_on generalizing parent with
  | _ n ih =>
    obtain ⟨r,ends,requested⟩ := requestEnds ok mem res
    cases requested with
    | refused unfit => exact ⟨_,endsRound (fun _ => rfl) ends fun _ => if_neg fun other => other.1 rfl,.conflict parent mem meets (.inl unfit)⟩
    | placed before after split place => exact ⟨_,endsRound (fun _ => rfl) ends fun _ => rfl,.placed parent before after mem split place⟩
    | conflict before first after split fits left early late =>
      have kid : first ∈ kids parent := split ▸ by simp
      by_cases more : first ≠ parent ∧ !busy h first
      · obtain ⟨r,ends',lower⟩ := ih (rank first) (low ▸ falls parent mem first kid) (.child mem kid) ⟨early,late⟩ rfl
        refine ⟨r,endsSucc (fun _ => rfl) (endsBind ends ?_),lower⟩
        simpa only [if_pos more] using ends'
      · refine ⟨_,endsRound (fun _ => rfl) ends fun _ => if_neg more,.conflict first (.child mem kid) ⟨early,late⟩ (.inr ⟨?_,?_⟩)⟩
        · by_contra idle
          exact more ⟨fun eq => ok.selfNotKid mem (eq ▸ kid),by simpa using idle⟩
        · exact fun eq => ok.rootNotKid mem (eq ▸ kid)

theorem graftKeeps (split : kids parent = before ++ after) (outside : ¬InTree root kids res) (mem : InTree root kids a) :
    InTree root (graft kids parent res before [] after) a := by
  induction mem with
  | root => exact .root
  | @child a c mem kid ih =>
    refine .child ih ?_
    rw [graft,update_of_ne (mem.ne outside)]
    by_cases here : a = parent
    · subst here
      rw [update_self]
      rw [split] at kid
      exact mem_append.mpr ((mem_append.mp kid).imp_right (mem_cons_of_mem res))
    · rwa [update_of_ne here]

theorem TreeOk.underKid (ok : TreeOk h root kids) (mem : InTree root kids a) :
    a = root ∨ ∃ c ∈ kids root, h.start c ≤ h.start a ∧ h.stop a ≤ h.stop c := by
  induction mem with
  | root => exact .inl rfl
  | @child a c mem kid ih =>
    have inside := ok.inside a mem c kid
    rcases ih with rfl | ⟨top,listed,around⟩
    · exact .inr ⟨c,kid,le_rfl,le_rfl⟩
    · exact .inr ⟨top,listed,by omega⟩

theorem Reserved.weaken (step : Reserved root name asked s kids s' kids')
    (fewer : ∀ x, asked' x → asked x ∨ ∃ c ∈ kids root, Covers s c x) : Reserved root name asked' s kids s' kids' :=
  ⟨step.ok,step.known,step.kept,step.new,fun x want => (fewer x want).elim (step.covered x) .inl⟩

section
variable (s) (name start stop : Nat)

theorem newOwn : (newResource s name start stop).h.start s.fresh = start ∧ (newResource s name start stop).h.stop s.fresh = stop :=
  ⟨update_self ..,update_self ..⟩

theorem newOther (known : a < s.fresh) : (newResource s name start stop).h.start a = s.h.start a ∧
    (newResource s name start stop).h.stop a = s.h.stop a :=
  ⟨update_of_ne (ne_of_lt known) ..,(update_of_ne (ne_of_lt known) ..).trans (update_of_ne (ne_of_lt known) ..)⟩

end

section
variable (ok : TreeOk s.h root kids) (known : ∀ a, InTree root kids a → a < s.fresh)
include ok known

theorem Reserved.none : Reserved root name (fun _ => False) s kids s kids :=
  ⟨ok,known,fun _ mem => ⟨mem,rfl,rfl,rfl,rfl⟩,fun _ => .inl,fun _ => False.elim⟩

theorem maybeReserved {cond} [Decidable cond] (low high : Nat) (call : cond → ∃ s' kids', Ends (reserveSplit root name · low high s) s' ∧
      Reserved root name (fun x => low ≤ x ∧ x ≤ high) s kids s' kids') :
    ∃ s' kids', Ends (fun fuel => if cond then reserveSplit root name fuel low high s else some s) s' ∧
      Reserved root name (fun x => cond ∧ low ≤ x ∧ x ≤ high) s kids s' kids' := by
  by_cases holds : cond
  · obtain ⟨s',kids',ends,step⟩ := call holds
    simp only [if_pos holds]
    exact ⟨s',kids',ends,step.weaken fun x want => .inl want.2⟩
  · simp only [if_neg holds]
    exact ⟨s,kids,endsDone,(Reserved.none ok known).weaken fun x want => absurd want.1 holds⟩

theorem newReserved (name start stop : Nat) : Reserved root name (fun _ => False) s kids (newResource s name start stop) kids := by
  have ne {a : Nat} (mem : InTree root kids a) := ne_of_lt (known a mem)
  have same := sameRegion (h := s.h) (fun mem => ne mem rfl) start 0 0
  have stops {a : Nat} (mem : InTree root kids a) := (newOther s name start stop (known a mem)).2
  exact ⟨ok.same ⟨same.start,fun a => stops,same.flags,same.child,same.sibling,same.parent⟩,fun a mem => Nat.lt_succ_of_lt (known a mem),
    fun a mem => ⟨mem,same.start a mem,stops mem,same.flags a mem,update_of_ne (ne mem) ..⟩,fun _ => .inl,fun _ => False.elim⟩

theorem placedReserved (mem : InTree root kids parent)
    (outside : ¬InTree root kids res) (list : kids parent = before ++ after) (place : Place s.h parent res before [] after)
    (childless : s.h.link (.child res) = none) (fresh : res < s.fresh) (marked : Marked name s res) :
    Reserved root name (Covers s res) s kids { s with h := linkIn s.h parent res (spot parent before) }
      (graft kids parent res before [] after) := by
  have listed : res ∈ graft kids parent res before [] after parent := by
    rw [graft,update_of_ne (mem.ne outside)]
    simp
  refine ⟨ok.graft mem (by simpa using list) outside place (linkInGrafted ok mem outside list childless),fun a mem' => ?_,
    fun a old => ⟨graftKeeps list outside old,rfl,rfl,rfl,rfl⟩,fun c kid => ?_,
    fun x covers => .inr ⟨res,.child (graftKeeps list outside mem) listed,marked,covers⟩⟩
  · rcases graftTree mem (by simpa using list) mem' with old | rfl
    · exact known a old
    · exact fresh
  · rcases graftKid kid with ⟨rfl,_⟩ | ⟨rfl,rfl | among⟩ | ⟨_,among⟩
    · exact absurd .root outside
    · exact .inr marked
    · exact .inl (list ▸ by simpa using among)
    · exact .inl among

theorem reserveCovered (within : s.h.start root ≤ start ∧ start ≤ stop ∧ stop ≤ s.h.stop root) :
    ∃ s' kids', Ends (reserveSplit root name · start stop s) s' ∧
      Reserved root name (fun x => start ≤ x ∧ x ≤ stop) s kids s' kids' := by
  induction size : stop - start using Nat.strong_induction_on generalizing start stop s kids with
  | _ n ih =>
    have fresh := newReserved ok known name start stop
    have outside : ¬InTree root kids s.fresh := fun mem => lt_irrefl _ (known _ mem)
    obtain ⟨ownStart,ownStop⟩ := newOwn s name start stop
    have top := (fresh.kept root .root).2
    obtain ⟨r,ends,split⟩ := splitLoopEnds s.fresh fresh.ok .root (by rw [top.start,top.stop]; omega)
    cases split with
    | placed parent before after mem list place =>
      have childless : (newResource s name start stop).h.link (.child s.fresh) = none := by simp [newResource,setStop,region]
      have marked : Marked name (newResource s name start stop) s.fresh := by simp [Marked,busy,newResource,setStop,region,IORESOURCE_BUSY]
      have placed := placedReserved fresh.ok fresh.known mem outside list place childless (Nat.lt_succ_self _) marked
      refine ⟨_,_,endsRound (fun _ => rfl) ends fun _ => rfl,(fresh.next placed).weaken fun x want => .inl (.inr ?_)⟩
      rwa [Covers,ownStart,ownStop]
    | conflict c mem meets unfit =>
      have same := (fresh.kept c mem).2
      rw [same.stop] at meets
      have notRoot : c ≠ root := by
        rintro rfl
        refine (unfit.resolve_right fun other => other.2 rfl) ⟨?_,?_,?_⟩
        all_goals
          simp only [ownStop,top.start,top.stop]
          omega
      have held (x : Nat) (inside : s.h.start c ≤ x ∧ x ≤ s.h.stop c) : ∃ k ∈ kids root, Covers s k x := by
        obtain ⟨k,listed,around⟩ := (ok.underKid mem).resolve_left notRoot
        exact ⟨k,listed,around.1.trans inside.1,inside.2.trans around.2⟩
      by_cases whole : (newResource s name start stop).h.start c ≤ start ∧ stop ≤ (newResource s name start stop).h.stop c
      · refine ⟨_,kids,endsRound (fun _ => rfl) ends fun _ => if_pos whole,fresh.weaken fun x want => .inr (held x ?_)⟩
        rw [same.start,same.stop] at whole
        omega
      -- each part is inside the root and shorter
      have call {s' : Reserve} {kids' : Nat → List Nat} {P : Nat → Prop} (step : Reserved root name P s kids s' kids') (low high : Nat)
          (part : start ≤ low ∧ low ≤ high ∧ high ≤ stop ∧ (start < low ∨ high < stop)) : ∃ s'' kids'',
          Ends (reserveSplit root name · low high s') s'' ∧ Reserved root name (fun x => low ≤ x ∧ x ≤ high) s' kids' s'' kids'' := by
        have same := (step.kept root .root).2
        exact ih (high - low) (by omega) step.ok step.known (by rw [same.start,same.stop]; omega) rfl
      obtain ⟨s₂,kids₂,ends₂,first⟩ := maybeReserved fresh.ok fresh.known start ((newResource s name start stop).h.start c - 1)
        fun (early : start < (newResource s name start stop).h.start c) => call fresh _ _ (by rw [same.start] at *; omega)
      have first := fresh.next first
      have same₂ := (first.kept c mem).2
      obtain ⟨s₃,kids₃,ends₃,second⟩ := maybeReserved first.ok first.known (max (s₂.h.start c) start) (min (s₂.h.stop c) stop)
        fun (free : !busy s₂.h c ∧ max (s₂.h.start c) start < min (s₂.h.stop c) stop) => call first _ _ (by
          rw [same.start,same.stop] at whole
          rw [same₂.start,same₂.stop] at *
          omega)
      have second := first.next second
      have same₃ := (second.kept c mem).2
      obtain ⟨s₄,kids₄,ends₄,third⟩ := maybeReserved second.ok second.known (s₃.h.stop c + 1) stop
        fun (late : s₃.h.stop c < stop) => call second _ _ (by rw [same₃.stop] at *; omega)
      refine ⟨s₄,kids₄,endsSucc (fun _ => rfl) (endsBind ends ?_),(second.next third).weaken fun x want => ?_⟩
      · simp only [if_neg whole]
        exact endsBind ends₂ (endsBind ends₃ ends₄)
      · rw [same.start,same₃.stop]
        by_cases inside : s.h.start c ≤ x ∧ x ≤ s.h.stop c
        · exact .inr (held x inside)
        · omega

end

theorem sticksOut {fuel} (known : root < s.fresh) (whole : ¬(s.h.start root ≤ start ∧ stop ≤ s.h.stop root)) :
    splitLoop s.fresh (fuel + 1) root (newResource s name start stop).h = some (some root,(newResource s name start stop).h) := by
  obtain ⟨ownStart,ownStop⟩ := newOwn s name start stop
  obtain ⟨first,last⟩ := newOther s name start stop known
  have refused : requestResource fuel root s.fresh (newResource s name start stop).h = some (some root,(newResource s name start stop).h) := by
    simp only [requestResource,ownStart,ownStop,first,last]
    split
    · rfl
    split
    · rfl
    rw [if_pos (by omega)]
  simp [splitLoop,refused]

/-- A range that begins outside the root is met with the root as the conflict, and asked for again. -/
theorem reserveLoops (outside : start < s.h.start root ∨ s.h.stop root < start) (proper : start ≤ stop) (known : root < s.fresh)
    (fuel : Nat) : reserveSplit root name fuel start stop s = none := by
  induction fuel generalizing start stop s with
  | zero => rfl
  | succ fuel ih =>
    cases fuel with
    | zero => rfl
    | succ fuel =>
      obtain ⟨first,last⟩ := newOther s name start stop known
      have whole : ¬(s.h.start root ≤ start ∧ stop ≤ s.h.stop root) := by omega
      rw [reserveSplit,sticksOut known whole]
      simp only [bind,Option.bind_some,first,last,if_neg whole]
      by_cases below : start < s.h.start root
      · rw [if_pos below,ih (by rw [first]; exact .inl below) (by omega) (Nat.lt_succ_of_lt known)]
        rfl
      · rw [if_neg below]
        simp only [Option.bind_some,first,last]
        rw [if_neg (by omega)]
        simp only [Option.bind_some,last]
        rw [if_pos (by omega)]
        exact ih (by rw [last]; exact .inr (Nat.lt_succ_self _)) (by omega) (Nat.lt_succ_of_lt known)

theorem reserveCovers (ok : TreeOk s.h root kids) (known : ∀ a, InTree root kids a → a < s.fresh) (proper : start ≤ stop) :
    (∃ s' kids', Ends (reserveSplit root name · start stop s) s' ∧
      Reserved root name (fun x => (start ≤ x ∧ x ≤ stop) ∧ s.h.start root ≤ x ∧ x ≤ s.h.stop root) s kids s' kids') ↔
    s.h.start root ≤ start ∧ stop ≤ s.h.stop root := by
  constructor
  · rintro ⟨s',kids',⟨n,ends⟩,_⟩
    by_contra whole
    have old := known root .root
    by_cases outside : start < s.h.start root ∨ s.h.stop root < start
    · have ended : reserveSplit root name n start stop s = some s' := ends n le_rfl
      rw [reserveLoops outside proper old] at ended
      cases ended
    -- the part inside is reserved, and the part above is asked for without end
    have fresh := newReserved ok known name start stop
    have top := (fresh.kept root .root).2
    obtain ⟨s₂,kids₂,⟨m,ends₂⟩,inside⟩ := maybeReserved fresh.ok fresh.known (max (s.h.start root) start) (min (s.h.stop root) stop)
      fun (free : !busy (newResource s name start stop).h root ∧ max (s.h.start root) start < min (s.h.stop root) stop) =>
        @reserveCovered _ name _ _ _ _ fresh.ok fresh.known (by rw [top.start,top.stop]; omega)
    have top₂ := (inside.kept root .root).2
    have ended : reserveSplit root name (max n m + 2) start stop s = some s' := ends _ (by omega)
    rw [reserveSplit,sticksOut old whole] at ended
    simp only [bind,Option.bind_some,top.start,top.stop,if_neg whole,if_neg fun below => outside (.inl below),ends₂ (max n m + 1) (by omega),
      top₂.stop] at ended
    rw [if_pos (by omega),reserveLoops (.inr (by rw [top₂.stop,top.stop]; omega)) (by omega) (inside.known root (inside.kept root .root).1)] at ended
    cases ended
  · intro within
    obtain ⟨s',kids',ends,reserved⟩ := @reserveCovered _ name _ _ _ _ ok known ⟨within.1,proper,within.2⟩
    exact ⟨s',kids',ends,reserved.weaken fun x want => .inl want.1⟩

end

def bridgeNames : Reserve := ⟨siblings,fun _ => 0,6⟩

/-- The range runs from the middle of 1 to the middle of 2: one part is reserved inside each of
them and one between. -/
theorem bridgesReserved : (∃ kids s kids', TreeOk siblings 0 kids ∧ Ends (reserveSplit 0 7 · 0x180 0x37f bridgeNames) s ∧
      Reserved 0 7 (fun x => (0x180 ≤ x ∧ x ≤ 0x37f) ∧ 0 ≤ x ∧ x ≤ 0xffff) bridgeNames kids s kids') ∧
    (reserveSplit 0 7 12 0x180 0x37f bridgeNames).map (fun s => (s.h.link (.child 1),s.h.link (.sibling 1),s.h.link (.child 2))) =
      some (some 7,some 9,some 10) := by
  obtain ⟨kids,ok⟩ := reachOk siblingsReach
  have known (a : Nat) (mem : InTree 0 kids a) : a < 6 := by
    by_contra past
    refine outsideNode siblingsReach (a := a) ?_ (by omega) (ok.node.mpr mem)
    show update (update (fun _ => none) 1 (some 0)) 2 (some 0) a = none
    rw [update_of_ne (by omega),update_of_ne (by omega)]
  obtain ⟨s,kids',ends,reserved⟩ := (reserveCovers (s := bridgeNames) ok known (show 0x180 ≤ 0x37f by decide)).mpr ⟨by decide,by decide⟩
  exact ⟨⟨kids,s,kids',ok,ends,reserved⟩,by decide +kernel⟩

/-- The part below the root is asked for again and again. -/
theorem reserveBelowLoops : ¬∃ fuel r, reserveSplit 0 7 fuel 0 0x10 ⟨{ ports with start := fun _ => 0x100 },fun _ => 0,1⟩ = some r := by
  rintro ⟨fuel,r,ends⟩
  rw [reserveLoops (.inl (by decide)) (by decide) (by decide)] at ends
  cases ends

end EclairKernel.Resource
