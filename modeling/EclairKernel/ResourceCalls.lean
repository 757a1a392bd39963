import EclairKernel.Fuel
import EclairKernel.ResourceTree

/-! What each call does to a tree in shape: it ends, and with the resource in or out of its
place, or with the tree as it was. -/
namespace EclairKernel.Resource
open SlotList Fuel Function List Option

abbrev spot (a : Nat) (l : List Nat) : Slot := slotAfter .sibling (.child a) l

variable {h h' root parent new old a c d kids before run after l}

theorem storeSelf {p v} : (store h p v).link p = v := update_self ..
theorem storeOther {p q v} (ne : q ≠ p) : (store h p v).link q = h.link q := update_of_ne ne ..

theorem siblingInjective : Function.Injective Slot.sibling := fun _ _ eq => Slot.sibling.inj eq

theorem otherChild (ne : a ≠ parent) : Slot.child a ≠ spot parent l := by
  intro eq
  rcases slotAfterMem Slot.sibling (.child parent) l with slot | ⟨x,_,slot⟩
  · exact ne (Slot.child.inj (eq.trans slot))
  · cases eq.trans slot

theorem otherSibling (absent : c ∉ l) : Slot.sibling c ≠ spot parent l := by
  intro eq
  rcases slotAfterMem Slot.sibling (.child parent) l with slot | ⟨x,mem,slot⟩
  · cases eq.trans slot
  · exact absent (Slot.sibling.inj (eq.trans slot) ▸ mem)

section
variable (ok : TreeOk h root kids) (mem : InTree root kids parent)
include ok mem

section
variable (outside : ¬InTree root kids new) (split : kids parent = before ++ after)
include outside split

theorem linkInTop :
    Chain .sibling (linkIn h parent new (spot parent before)).link (.child parent) (before ++ new::after) := by
  obtain ⟨leads,rest⟩ := chainAppend.mp (split ▸ ok.chain parent mem)
  obtain ⟨early,_,across⟩ := nodup_append.mp (split ▸ ok.once mem)
  have apart {c : Nat} (listed : c ∈ before ++ after) : Slot.sibling c ≠ .sibling new :=
    fun eq => outside (Slot.sibling.inj eq ▸ .child mem (split ▸ listed))
  have leads' (v : Option Nat) : Leads .sibling (store h (.sibling new) v).link (.child parent) before :=
    leadsCongr (storeOther (by simp)) (fun x listed => storeOther (apart (by simp [listed]))) leads
  refine chainStore siblingInjective (by simp) early (leads' _) ⟨storeSelf,chainCongr ?_ (fun x listed => ?_) rest⟩
  · exact (storeOther (otherSibling fun listed => apart (mem_append_left _ listed) rfl)).trans storeSelf
  · exact (storeOther (otherSibling fun listed' => across x listed' x listed rfl)).trans (storeOther (apart (by simp [listed])))

variable (childless : h.link (.child new) = none)
include childless

theorem linkInGrafted :
    Grafted h (linkIn h parent new (spot parent before)) root kids parent new before [] after := by
  refine ⟨rfl,rfl,linkInTop ok mem outside split,?_,fun a mem ne => ?_,fun c mem absent => ?_,update_self ..,by simp,fun c mem _ => ?_⟩
  · exact ((storeOther (otherChild (mem.ne outside).symm)).trans (storeOther (by simp))).trans childless
  · exact (storeOther (otherChild ne)).trans (storeOther (by simp))
  · exact (storeOther (otherSibling fun listed => absent (split ▸ by simp [listed]))).trans
      (storeOther fun eq => mem.ne outside (Slot.sibling.inj eq))
  · exact update_of_ne (mem.ne outside) ..

theorem placedOk (place : Place h parent new before [] after) :
    ∃ kids', TreeOk (linkIn h parent new (spot parent before)) root kids' :=
  ⟨_,ok.graft mem (by simpa using split) outside place (linkInGrafted ok mem outside split childless)⟩

end

section
variable (split : kids parent = before ++ old::after)
include split

theorem unlinkChain : Chain .sibling (update h.link (spot parent before) (h.link (.sibling old))) (.child parent)
      (before ++ after) := by
  obtain ⟨leads,_,rest⟩ := chainAppend.mp (split ▸ ok.chain parent mem)
  obtain ⟨early,_,across⟩ := nodup_append.mp (split ▸ ok.once mem)
  refine chainStore siblingInjective (by simp) early leads (chainCongr (update_self ..) (fun x listed => ?_) rest)
  exact update_of_ne (otherSibling fun listed' => across x listed' x (mem_cons_of_mem old listed) rfl) ..

theorem unlinkCut (start : h'.start = h.start) (stop : h'.stop = h.stop)
    (link : h'.link = update h.link (spot parent before) (h.link (.sibling old)))
    (others : ∀ c, c ≠ old → h'.parent c = h.parent c) : Cut h h' root kids parent old before after := by
  refine ⟨start,stop,?_,fun a _ ne => ?_,fun c _ absent => ?_,fun c _ ne => others c ne⟩
  · rw [link]
    exact unlinkChain ok mem split
  · rw [link,update_of_ne (otherChild ne)]
  · rw [link,update_of_ne (otherSibling fun listed => absent (split ▸ by simp [listed]))]

end
end

def Fits (h : Memory) (parent new : Nat) : Prop :=
  h.start parent ≤ h.start new ∧ h.start new ≤ h.stop new ∧ h.stop new ≤ h.stop parent

inductive Requested (h : Memory) (kids : Nat → List Nat) (parent new : Nat) : Option Nat × Memory → Prop
  | refused : ¬Fits h parent new → Requested h kids parent new (some parent,h)
  | placed (before after : List Nat) : kids parent = before ++ after → Place h parent new before [] after →
      Requested h kids parent new (none,linkIn h parent new (spot parent before))
  | conflict (before : List Nat) (tmp : Nat) (after : List Nat) : kids parent = before ++ tmp::after → Fits h parent new →
      (∀ c ∈ before, h.stop c < h.start new) → h.start tmp ≤ h.stop new → h.start new ≤ h.stop tmp →
      Requested h kids parent new (some tmp,h)

variable {rest first next last r}

inductive Descended (h : Memory) (root : Nat) (kids : Nat → List Nat) (top new : Nat) : Descent × Memory → Prop
  | placed {h' : Memory} {kids' : Nat → List Nat} : TreeOk h' root kids' → Descended h root kids top new (.placed,h')
  | refused : ¬Fits h top new → Descended h root kids top new (.refused top,h)
  | beside {parent first : Nat} (before after : List Nat) : InTree root kids parent →
      h.start top ≤ h.start parent ∧ h.stop parent ≤ h.stop top → Fits h parent new → kids parent = before ++ first::after →
      (∀ c ∈ before, h.stop c < h.start new) → Descended h root kids top new (.beside parent first,h)

theorem Descended.deeper {r} (lower : Descended h root kids first new r)
    (inside : h.start parent ≤ h.start first ∧ h.stop first ≤ h.stop parent) (fits : Fits h first new) :
    Descended h root kids parent new r := by
  cases lower with
  | placed grown => exact .placed grown
  | refused unfit => exact absurd fits unfit
  | beside before after mem within fits split left => exact .beside before after mem (by omega) fits split left

def marked (h : Memory) (new : Nat) (run : List Nat) : Memory :=
  { h with parent := fun c => if c ∈ run then some new else h.parent c }

theorem markParentsEnds {p} (chain : Chain .sibling h.link p run) : Ends (markParents new · run.head? h) (marked h new run) := by
  induction run generalizing h p with
  | nil =>
    refine endsOnce fun fuel => ?_
    simp [markParents,marked]
  | cons x rest ih =>
    have same : marked (setParent h x (some new)) new rest = marked h new (x::rest) := by
      simp only [marked,setParent,Memory.mk.injEq,true_and,and_true]
      funext c
      by_cases eq : c = x
      · simp [eq]
      · simp [eq]
    rw [← same]
    refine endsSucc (fun fuel => ?_) (@ih (setParent h x (some new)) _ chain.2)
    rw [head?_cons,markParents,chainHead chain.2]

theorem beforeFirstEnds (leads : Leads .sibling h.link (.sibling next) (l ++ [first])) (absent : first ∉ l) :
    ∃ x, Ends (beforeFirst first · next h) x ∧ slotAfter Slot.sibling (.sibling next) l = .sibling x := by
  induction l generalizing next with
  | nil =>
    refine ⟨next,endsOnce fun fuel => ?_,rfl⟩
    exact if_pos leads.1
  | cons y rest ih =>
    obtain ⟨x,ends,slot⟩ := ih leads.2 fun mem => absent (mem_cons_of_mem y mem)
    have other : h.link (.sibling next) ≠ some first := fun eq =>
      absent (some.inj (leads.1.symm.trans eq) ▸ mem_cons_self)
    refine ⟨x,endsSucc (fun fuel => ?_) ends,slot⟩
    rw [beforeFirst,if_neg other,leads.1]
    rfl

def adopted (h : Memory) (parent new first last : Nat) : Memory :=
  let h := setParent h new (some parent)
  let h := store h (.sibling new) (h.link (.sibling last))
  let h := store h (.child new) (some first)
  store h (.sibling last) none

theorem adoptedOther {p} (sibling : p ≠ .sibling new) (child : p ≠ .child new) (end' : p ≠ .sibling last) :
    (adopted h parent new first last).link p = h.link p :=
  ((storeOther end').trans (storeOther child)).trans (storeOther sibling)

theorem adoptEnds (chain : Chain .sibling (adopted h parent new first last).link (.child new) run) (head : run.head? = some first)
    (leads : Leads .sibling (adopted h parent new first last).link (.child parent) before)
    (top : (adopted h parent new first last).link (spot parent before) = some first) (absent : first ∉ before) :
    Ends (adopt · parent new first last h)
      (store (marked (adopted h parent new first last) new run) (spot parent before) (some new)) := by
  refine endsBind (head ▸ markParentsEnds chain) ?_
  have link : (marked (adopted h parent new first last) new run).link = (adopted h parent new first last).link := rfl
  rw [← link] at leads top
  generalize marked (adopted h parent new first last) new run = h' at leads top ⊢
  cases before with
  | nil => exact endsAt 0 fun _ => if_pos top
  | cons x before =>
    have whole : Leads .sibling h'.link (.child parent) ((x::before) ++ [first]) := leadsAppend.mpr ⟨leads,top,trivial⟩
    have other : some x ≠ some first := fun eq => absent (some.inj eq ▸ mem_cons_self)
    obtain ⟨y,ends,slot⟩ := beforeFirstEnds whole.2 fun mem => absent (mem_cons_of_mem x mem)
    have walk : Ends (fun fuel => beforeFirst first fuel x h' >>= fun next => some (store h' (.sibling next) (some new)))
        (store h' (slotAfter .sibling (.child parent) (x::before)) (some new)) :=
      endsBind ends (endsAt 0 fun _ => congrArg (fun p => some (store h' p (some new))) slot.symm)
    simpa only [leads.1,if_neg other,bind,bind_some] using walk

inductive Inserted (h : Memory) (root : Nat) (parent new : Nat) : Option Nat × Memory → Prop
  | added {h' : Memory} {kids' : Nat → List Nat} : TreeOk h' root kids' → Inserted h root parent new (none,h')
  | refused : Inserted h root parent new (some parent,h)
  | partly {c : Nat} : h.start parent ≤ h.start c ∧ h.stop c ≤ h.stop parent → h.start c < h.start new ∨ h.stop new < h.stop c →
      Inserted h root parent new (some c,h)

inductive Outcome (h : Memory) (root : Nat) (kids : Nat → List Nat) : Bool × Memory → Prop
  | done {h' : Memory} {kids' : Nat → List Nat} : TreeOk h' root kids' → Outcome h root kids (true,h')
  | failed {h' : Memory} : SameTree root kids h h' → Outcome h root kids (false,h')

theorem Outcome.since (same : SameTree root kids h h') (later : Outcome h' root kids r) : Outcome h root kids r := by
  cases later with
  | done grown => exact .done grown
  | failed same' => exact .failed (same.trans same')

section
variable (outside : ¬InTree root kids new)
include outside

theorem sameSetStart (v : Nat) : SameTree root kids h (setStart h new v) :=
  { SameTree.refl h with start := fun _ mem => update_of_ne (mem.ne outside) .. }

theorem sameSetStop (v : Nat) : SameTree root kids h (setStop h new v) :=
  { SameTree.refl h with stop := fun _ mem => update_of_ne (mem.ne outside) .. }

theorem sameCover (c : Nat) : SameTree root kids h (cover h new c) := by
  unfold cover
  dsimp only
  split_ifs
  · exact (sameSetStart outside _).trans (sameSetStop outside _)
  · exact sameSetStart outside _
  · exact sameSetStop outside _
  · exact .refl h

theorem sameRegion (start n : Nat) (flags : BitVec 32) : SameTree root kids h (region h new start n flags) := by
  refine ⟨fun a mem => ?_,fun a mem => ?_,fun a mem => ?_,fun a mem => ?_,fun a mem c kid => ?_,fun a mem c kid => ?_⟩
  · exact update_of_ne (mem.ne outside) ..
  · exact update_of_ne (mem.ne outside) ..
  · exact update_of_ne (mem.ne outside) ..
  · simp [region,mem.ne outside]
  · simp [region,(mem.child kid).ne outside]
  · exact update_of_ne ((mem.child kid).ne outside) ..

end

theorem coverRange (h : Memory) (new c : Nat) : (cover h new c).start new = min (h.start new) (h.start c) ∧
    (cover h new c).stop new = max (h.stop new) (h.stop c) ∧ (cover h new c).link = h.link := by
  unfold cover
  dsimp only
  split_ifs with first second third
  all_goals simp only [setStart,setStop,update_self,and_true] at *
  all_goals omega

section
variable (ok : TreeOk h root kids) (mem : InTree root kids parent)
include ok mem

theorem TreeOk.beyond (split : kids parent = before ++ next::rest)
    {stop} (beyond : stop < h.start next) : ∀ c ∈ next::rest, stop < h.start c := by
  refine forall_mem_cons.mpr ⟨beyond,fun c listed => ?_⟩
  have ordered := (pairwise_append.mp (split ▸ ok.ordered parent mem)).2.1
  have := rel_of_pairwise_cons ordered listed
  have := ok.inside parent mem next (split ▸ by simp)
  omega

theorem requestLoopEnds (fits : Fits h parent new)
    (split : kids parent = before ++ rest) (left : ∀ c ∈ before, h.stop c < h.start new) :
    ∃ r, Ends (requestLoop parent new · (spot parent before) h) r ∧ Requested h kids parent new r := by
  induction rest generalizing before with
  | nil =>
    have last := (chainAppend.mp (split ▸ ok.chain parent mem)).2
    refine ⟨_,endsOnce fun fuel => ?_,.placed before [] split ⟨fits,left,by simp,by simp⟩⟩
    rw [requestLoop,chainHead last]
    rfl
  | cons tmp rest ih =>
    obtain ⟨_,here,_⟩ := chainAppend.mp (split ▸ ok.chain parent mem)
    by_cases beyond : h.stop new < h.start tmp
    · refine ⟨_,endsOnce fun fuel => ?_,.placed before (tmp::rest) split ⟨fits,left,ok.beyond mem split beyond,by simp⟩⟩
      rw [requestLoop,here]
      exact if_pos beyond
    by_cases behind : h.stop tmp < h.start new
    · have left' := forall_mem_append.mpr ⟨left,forall_mem_singleton.mpr behind⟩
      obtain ⟨r,ends,requested⟩ := ih (split.trans (append_cons ..)) left'
      rw [spot,slotAfterAppend] at ends
      refine ⟨r,endsSucc (fun fuel => ?_) ends,requested⟩
      rw [requestLoop,here]
      exact (if_neg beyond).trans (if_pos behind)
    · refine ⟨_,endsOnce fun fuel => ?_,.conflict before tmp rest split fits left (not_lt.mp beyond) (not_lt.mp behind)⟩
      rw [requestLoop,here]
      exact (if_neg beyond).trans (if_neg behind)

theorem requestEnds (new : Nat) : ∃ r, Ends (requestResource · parent new h) r ∧ Requested h kids parent new r := by
  by_cases fits : Fits h parent new
  · obtain ⟨r,ends,requested⟩ := requestLoopEnds ok mem fits (nil_append (kids parent)).symm (by simp)
    obtain ⟨first,second,third⟩ := fits
    refine ⟨r,?_,requested⟩
    simp only [requestResource,if_neg (not_lt.mpr first),if_neg (not_lt.mpr second),if_neg (not_lt.mpr third)]
    exact ends
  · refine ⟨_,endsAt 0 fun fuel => ?_,.refused fits⟩
    unfold requestResource
    split_ifs with first second third
    · rfl
    · rfl
    · rfl
    · exact absurd ⟨not_lt.mp second,not_lt.mp first,not_lt.mp third⟩ fits

theorem overlapEnds
    (split : kids parent = before ++ run ++ next::rest) (around : ∀ c ∈ run, h.start new ≤ h.start c ∧ h.stop c ≤ h.stop new) :
    (∃ c ∈ kids parent, Ends (overlapLoop new · next h) (.inl c) ∧ (h.start c < h.start new ∨ h.stop new < h.stop c)) ∨
    ∃ run last after, Ends (overlapLoop new · next h) (.inr last) ∧ kids parent = before ++ (run ++ [last]) ++ after ∧
      (∀ c ∈ run ++ [last], h.start new ≤ h.start c ∧ h.stop c ≤ h.stop new) ∧ ∀ c ∈ after, h.stop new < h.start c := by
  induction rest generalizing run next with
  | nil | cons s rest ih => ?_
  all_goals
    obtain ⟨_,_,rest'⟩ := chainAppend.mp (split ▸ ok.chain parent mem)
    have link := chainHead rest'
    by_cases out : h.start next < h.start new ∨ h.stop new < h.stop next
    · refine .inl ⟨next,split ▸ by simp,endsOnce fun fuel => ?_,out⟩
      exact if_pos out
    have around' : ∀ c ∈ run ++ [next], h.start new ≤ h.start c ∧ h.stop c ≤ h.stop new :=
      forall_mem_append.mpr ⟨around,forall_mem_singleton.mpr (by omega)⟩
  · refine .inr ⟨run,next,[],endsOnce fun fuel => ?_,by simp [split],around',by simp⟩
    rw [overlapLoop,if_neg out,link]
    rfl
  · have split' : kids parent = before ++ (run ++ [next]) ++ s::rest := by simp [split]
    by_cases beyond : h.stop new < h.start s
    · refine .inr ⟨run,next,s::rest,endsOnce fun fuel => ?_,split',around',ok.beyond mem split' beyond⟩
      rw [overlapLoop,if_neg out,link]
      exact if_pos beyond
    have round : ∀ fuel, overlapLoop new (fuel + 1) next h = overlapLoop new fuel s h := by
      intro fuel
      rw [overlapLoop,if_neg out,link]
      exact if_neg beyond
    rcases ih split' around' with ⟨c,kid,ends,partly⟩ | ⟨run,last,after,ends,found⟩
    · exact .inl ⟨c,kid,endsSucc round ends,partly⟩
    · exact .inr ⟨run,last,after,endsSucc round ends,found⟩

theorem adoptGrafted (outside : ¬InTree root kids new)
    (split : kids parent = before ++ (run ++ [last]) ++ after) (head : (run ++ [last]).head? = some first) :
    ∃ h', Ends (adopt · parent new first last h) h' ∧ Grafted h h' root kids parent new before (run ++ [last]) after := by
  obtain ⟨front,tail⟩ := chainAppend.mp (split ▸ ok.chain parent mem)
  obtain ⟨leads,taken⟩ := leadsAppend.mp front
  obtain ⟨once,_,across⟩ := nodup_append.mp (split ▸ ok.once mem)
  obtain ⟨early,taken',across'⟩ := nodup_append.mp once
  have kid {c : Nat} (listed : c ∈ before ++ (run ++ [last]) ++ after) : InTree root kids c := .child mem (split ▸ listed)
  have inBefore {c : Nat} (listed : c ∈ before) := kid (mem_append_left after (mem_append_left (run ++ [last]) listed))
  have inRun {c : Nat} (listed : c ∈ run ++ [last]) := kid (mem_append_left after (mem_append_right before listed))
  have inAfter {c : Nat} (listed : c ∈ after) := kid (mem_append_right (before ++ (run ++ [last])) listed)
  have apart {c : Nat} (mem : InTree root kids c) : Slot.sibling c ≠ .sibling new := fun eq => mem.ne outside (Slot.sibling.inj eq)
  have isLast {c : Nat} (ne : c ≠ last) : Slot.sibling c ≠ .sibling last := fun eq => ne (Slot.sibling.inj eq)
  have lastIn : last ∈ run ++ [last] := by simp
  have firstIn := mem_of_mem_head? head
  have begin : h.link (spot parent before) = some first := by
    cases run with
    | nil | cons => exact taken.1.trans head
  -- inside the new resource
  have own : Chain .sibling (adopted h parent new first last).link (.child new) (run ++ [last]) := by
    let links := (store (store (setParent h new (some parent)) (.sibling new) (h.link (.sibling last))) (.child new) (some first)).link
    have leads' : Leads .sibling links (.child new) (run ++ [last]) :=
      leadsCongr (storeSelf.trans begin.symm) (fun x listed => (storeOther (by simp)).trans (storeOther (apart (inRun listed)))) taken
    have slot : slotAfter Slot.sibling (.child new) (run ++ [last]) = .sibling last := slotAfterAppend ..
    have ended : Chain .sibling (update links (slotAfter .sibling (.child new) (run ++ [last])) none)
        (slotAfter .sibling (.child new) (run ++ [last])) [] := update_self ..
    have chain := chainStore siblingInjective (by simp) taken' leads' ended
    rw [slot,append_nil] at chain
    exact chain
  -- before it
  have leads' : Leads .sibling (adopted h parent new first last).link (.child parent) before :=
    leadsCongr (adoptedOther (by simp) (by simpa using mem.ne outside) (by simp))
      (fun x listed => adoptedOther (apart (inBefore listed)) (by simp) (isLast (across' x listed last lastIn))) leads
  have top : (adopted h parent new first last).link (spot parent before) = some first := by
    rw [adoptedOther (otherSibling fun listed => outside (inBefore listed)).symm (otherChild (mem.ne outside).symm).symm
      (otherSibling fun listed => across' last listed last lastIn rfl).symm]
    exact begin
  refine ⟨_,adoptEnds own head leads' top fun listed => across' first listed first firstIn rfl,?_⟩
  refine ⟨rfl,rfl,?_,?_,fun a mem' ne => ?_,fun c mem' absent => ?_,?_,fun c listed => if_pos listed,fun c mem' absent => ?_⟩
  · refine chainStore siblingInjective (by simp) early leads' ⟨update_self ..,?_⟩
    have slot : slotAfter Slot.sibling (.child parent) (before ++ (run ++ [last])) = .sibling last := by
      rw [← append_assoc]
      exact slotAfterAppend ..
    rw [slot] at tail
    refine chainCongr ?_ (fun x listed => ?_) tail
    · rw [update_of_ne (otherSibling fun listed => outside (inBefore listed))]
      exact (storeOther (apart (inRun lastIn)).symm).trans ((storeOther (by simp)).trans storeSelf)
    · rw [update_of_ne (otherSibling fun listed' => across x (by simp [listed']) x listed rfl)]
      exact adoptedOther (apart (inAfter listed)) (by simp) (isLast fun eq => across last (by simp) x listed eq.symm)
  · refine chainCongr ?_ (fun x listed => ?_) own
    · exact storeOther (otherChild (mem.ne outside).symm)
    · exact storeOther (otherSibling fun listed' => across' x listed' x listed rfl)
  · have other : (adopted h parent new first last).link (.child a) = h.link (.child a) :=
      adoptedOther (by simp) (by simpa using mem'.ne outside) (by simp)
    exact (storeOther (otherChild ne)).trans other
  · have absent' := split ▸ absent
    have other : (adopted h parent new first last).link (.sibling c) = h.link (.sibling c) :=
      adoptedOther (apart mem') (by simp) (isLast fun eq => absent' (by simp [eq]))
    exact (storeOther (otherSibling fun listed => absent' (by simp [listed]))).trans other
  · show (if new ∈ run ++ [last] then _ else _) = _
    rw [if_neg fun listed => outside (inRun listed)]
    exact update_self ..
  · show (if c ∈ run ++ [last] then _ else _) = _
    rw [if_neg absent]
    exact update_of_ne (mem'.ne outside) ..

section
variable (outside : ¬InTree root kids new) (childless : h.link (.child new) = none)
include outside childless

theorem descendEnds : ∃ r, Ends (descend new · parent h) r ∧ Descended h root kids parent new r := by
  obtain ⟨rank,falls⟩ := ok.ranked
  induction low : rank parent using Nat.strong_induction_on generalizing parent with
  | _ n ih =>
    obtain ⟨r,ends,requested⟩ := requestEnds ok mem new
    cases requested with
    | refused unfit => exact ⟨_,endsRound (fun _ => rfl) ends fun _ => if_pos rfl,.refused unfit⟩
    | placed before after split place =>
      obtain ⟨kids',grown⟩ := placedOk ok mem outside split childless place
      exact ⟨_,endsRound (fun _ => rfl) ends fun _ => rfl,.placed grown⟩
    | conflict before first after split fits left _ _ =>
      have kid : first ∈ kids parent := split ▸ by simp
      have inside := ok.inside parent mem first kid
      have other : first ≠ parent := fun eq => ok.selfNotKid mem (eq ▸ kid)
      by_cases out : h.start new < h.start first ∨ h.stop first < h.stop new
      · exact ⟨_,endsRound (fun _ => rfl) ends fun _ => (if_neg other).trans (if_pos out),
          .beside before after mem ⟨le_rfl,le_rfl⟩ fits split left⟩
      by_cases equal : h.start first = h.start new ∧ h.stop first = h.stop new
      · exact ⟨_,endsRound (fun _ => rfl) ends fun _ => ((if_neg other).trans (if_neg out)).trans (if_pos equal),
          .beside before after mem ⟨le_rfl,le_rfl⟩ fits split left⟩
      have fits' : Fits h first new := ⟨by omega,fits.2.1,by omega⟩
      obtain ⟨r,ends',lower⟩ := ih (rank first) (low ▸ falls parent mem first kid) (.child mem kid) rfl
      refine ⟨r,endsSucc (fun _ => rfl) (endsBind ends ?_),lower.deeper (by omega) fits'⟩
      simpa [if_neg other,if_neg out,if_neg equal] using ends'

theorem insertEnds : ∃ r, Ends (insertResource · parent new h) r ∧ Inserted h root parent new r := by
  obtain ⟨r,ends,descended⟩ := descendEnds ok mem outside childless
  cases descended with
  | placed grown => exact ⟨_,endsBind ends endsDone,.added grown⟩
  | refused _ => exact ⟨_,endsBind ends endsDone,.refused⟩
  | @beside lower first before rest mem' within fits split left =>
    have split' : kids lower = before ++ [] ++ first::rest := by simpa using split
    rcases overlapEnds ok mem' split' (by simp) with ⟨c,kid,ends',partly⟩ | ⟨run,last,after,ends',taken,around,right⟩
    · have := ok.inside lower mem' c kid
      exact ⟨_,endsBind ends (endsBind ends' endsDone),.partly (by omega) partly⟩
    have head : (run ++ [last]).head? = some first := by
      have same : first::rest = run ++ [last] ++ after := by
        rw [split,append_assoc] at taken
        exact append_cancel_left taken
      cases run with
      | nil => exact congrArg some (cons.inj same).1.symm
      | cons x run => exact congrArg some (cons.inj same).1.symm
    obtain ⟨h',ends'',linked⟩ := adoptGrafted ok mem' outside taken head
    have grown := ok.graft mem' taken outside ⟨fits,left,right,around⟩ linked
    exact ⟨_,endsBind ends (endsBind ends' (endsBind ends'' endsDone)),.added grown⟩

theorem expandLoopEnds : ∃ r, Ends (expandLoop parent new · h) r ∧ Outcome h root kids r := by
  -- the range grows inside the parent's
  induction room : h.start new - h.start parent + (h.stop parent - h.stop new) using Nat.strong_induction_on generalizing h with
  | _ n ih =>
    obtain ⟨r,ends,inserted⟩ := insertEnds ok mem outside childless
    cases inserted with
    | added grown => exact ⟨_,endsRound (fun _ => rfl) ends fun _ => rfl,.done grown⟩
    | refused => exact ⟨_,endsRound (fun _ => rfl) ends fun _ => if_pos rfl,.failed (.refl h)⟩
    | @partly c inside partly =>
      by_cases top : c = parent
      · exact ⟨_,endsRound (fun _ => rfl) ends fun _ => if_pos top,.failed (.refl h)⟩
      have same : SameTree root kids h (cover h new c) := sameCover outside c
      obtain ⟨start,stop,link⟩ := coverRange h new c
      have less : (cover h new c).start new - (cover h new c).start parent + ((cover h new c).stop parent - (cover h new c).stop new) < n := by
        rw [same.start parent mem,same.stop parent mem]
        omega
      obtain ⟨r,ends',outcome⟩ := ih _ less (ok.same same) (link ▸ childless) rfl
      refine ⟨r,endsSucc (fun _ => rfl) (endsBind ends ?_),outcome.since same⟩
      simpa [if_neg top] using ends'

theorem regionLoopEnds : ∃ r, Ends (regionLoop new · parent h) r ∧ Outcome h root kids r := by
  obtain ⟨rank,falls⟩ := ok.ranked
  induction low : rank parent using Nat.strong_induction_on generalizing parent with
  | _ n ih =>
    obtain ⟨r,ends,requested⟩ := requestEnds ok mem new
    cases requested with
    | refused => exact ⟨_,endsRound (fun _ => rfl) ends fun _ => if_neg (by simp),.failed (.refl h)⟩
    | placed before after split place =>
      obtain ⟨kids',grown⟩ := placedOk ok mem outside split childless place
      exact ⟨_,endsRound (fun _ => rfl) ends fun _ => rfl,.done grown⟩
    | conflict before c after split =>
      have kid : c ∈ kids parent := split ▸ by simp
      by_cases down : c ≠ parent ∧ !busy h c
      · obtain ⟨r,ends',outcome⟩ := ih (rank c) (low ▸ falls parent mem c kid) (.child mem kid) rfl
        refine ⟨r,endsSucc (fun _ => rfl) (endsBind ends ?_),outcome⟩
        simpa only [if_pos down] using ends'
      · exact ⟨_,endsRound (fun _ => rfl) ends fun _ => if_neg down,.failed (.refl h)⟩

end

theorem releaseRegionLoopEnds {start stop} (split : kids parent = before ++ rest) :
    ∃ r, Ends (releaseRegionLoop start stop · (spot parent before) h) r ∧ Outcome h root kids r := by
  obtain ⟨rank,falls⟩ := ok.ranked
  induction low : rank parent using Nat.strong_induction_on generalizing parent before rest with
  | _ n down =>
    induction rest generalizing before with
    | nil =>
      have last := (chainAppend.mp (split ▸ ok.chain parent mem)).2
      refine ⟨_,endsOnce fun fuel => ?_,.failed (.refl h)⟩
      rw [releaseRegionLoop,chainHead last]
      rfl
    | cons res rest ih =>
      obtain ⟨_,here,_⟩ := chainAppend.mp (split ▸ ok.chain parent mem)
      have kid : res ∈ kids parent := split ▸ by simp
      have round (fuel : Nat) : releaseRegionLoop start stop (fuel + 1) (spot parent before) h =
          if h.start res ≤ start ∧ stop ≤ h.stop res then
            if !busy h res then releaseRegionLoop start stop fuel (.child res) h
            else if h.start res ≠ start ∨ h.stop res ≠ stop then some (false,h)
            else some (true,store h (spot parent before) (h.link (.sibling res)))
          else releaseRegionLoop start stop fuel (.sibling res) h := by
        rw [releaseRegionLoop,here]
      by_cases covers : h.start res ≤ start ∧ stop ≤ h.stop res
      · simp only [if_pos covers] at round
        by_cases free : !busy h res
        · simp only [if_pos free] at round
          obtain ⟨r,ends,outcome⟩ := down (rank res) (low ▸ falls parent mem res kid) (.child mem kid) (nil_append (kids res)).symm rfl
          exact ⟨r,endsSucc round ends,outcome⟩
        simp only [if_neg free] at round
        by_cases differs : h.start res ≠ start ∨ h.stop res ≠ stop
        · simp only [if_pos differs] at round
          exact ⟨_,endsSucc round endsDone,.failed (.refl h)⟩
        simp only [if_neg differs] at round
        have linked : Cut h (store h (spot parent before) (h.link (.sibling res))) root kids parent res before rest :=
          unlinkCut ok mem split rfl rfl rfl fun _ _ => rfl
        exact ⟨_,endsSucc round endsDone,.done (ok.cut mem split linked)⟩
      · simp only [if_neg covers] at round
        obtain ⟨r,ends,outcome⟩ := ih (split.trans (append_cons ..))
        rw [spot,slotAfterAppend] at ends
        exact ⟨r,endsSucc round ends,outcome⟩

theorem releaseLoopEnds (split : kids parent = before ++ rest) (listed : old ∈ rest) :
    ∃ r, Ends (releaseLoop old · (spot parent before) h) r ∧ Outcome h root kids r := by
  induction rest generalizing before with
  | nil => cases listed
  | cons tmp rest ih =>
    obtain ⟨_,here,_⟩ := chainAppend.mp (split ▸ ok.chain parent mem)
    by_cases found : tmp = old
    · subst found
      have linked : Cut h (setParent (store h (spot parent before) (h.link (.sibling tmp))) tmp none) root kids
          parent tmp before rest :=
        unlinkCut ok mem split rfl rfl rfl fun c ne => update_of_ne ne ..
      refine ⟨_,endsOnce fun fuel => ?_,.done (ok.cut mem split linked)⟩
      rw [releaseLoop,here]
      exact if_pos rfl
    · obtain ⟨r,ends,outcome⟩ := ih (split.trans (append_cons ..)) (mem_of_ne_of_mem (Ne.symm found) listed)
      rw [spot,slotAfterAppend] at ends
      refine ⟨r,endsSucc (fun fuel => ?_) ends,outcome⟩
      rw [releaseLoop,here]
      exact if_neg found

end

theorem TreeOk.kidLinks (ok : TreeOk h root kids) (mem : InTree root kids a) :
    (h.link (.child a) = some d → d ∈ kids a) ∧ ∀ c ∈ kids a, h.link (.sibling c) = some d → d ∈ kids a := by
  have chain := ok.chain a mem
  constructor
  · intro link
    exact mem_of_mem_head? ((chainHead chain).symm.trans link)
  · intro c kid link
    obtain ⟨before,after,split⟩ := append_of_mem kid
    rw [split] at chain ⊢
    obtain ⟨_,_,rest⟩ := chainAppend.mp chain
    have listed := mem_of_mem_head? ((chainHead rest).symm.trans link)
    simp [listed]

theorem releaseLoopSame {p fuel} (ok : TreeOk h root kids)
    (orphan : ∀ a, InTree root kids a → old ∉ kids a) (ran : releaseLoop old fuel p h = some r) : SameTree root kids h r.2 := by
  induction fuel generalizing p with
  | zero => cases ran
  | succ fuel ih =>
    rw [releaseLoop] at ran
    cases link : h.link p with
    | none =>
      rw [link] at ran
      cases ran
      exact .refl h
    | some tmp =>
      simp only [link] at ran
      by_cases found : tmp = old
      · rw [if_pos found] at ran
        cases ran
        refine { SameTree.refl h with child := fun a mem => ?_, sibling := fun a mem c kid => ?_, parent := fun a mem c kid => ?_ }
        · exact storeOther fun eq => orphan a mem ((ok.kidLinks mem).1 (eq ▸ found ▸ link))
        · exact storeOther fun eq => orphan a mem ((ok.kidLinks mem).2 c kid (eq ▸ found ▸ link))
        · exact update_of_ne (fun eq : c = old => orphan a mem (eq ▸ kid)) ..
      · rw [if_neg found] at ran
        exact ih ran

end EclairKernel.Resource
