import EclairKernel.Resource

/-! The shape of the tree. The lists of children are told beside the memory; a resource has
its place by its parent pointer, so that no two lists share one, and ranks that fall from
parent to child bound every way down. Putting a resource in, with a run of siblings below
it or none, and cutting one out keep the shape. -/
namespace EclairKernel.Resource
open SlotList Function List Resource

inductive InTree (root : Nat) (kids : Nat → List Nat) : Nat → Prop
  | root : InTree root kids root
  | child {a c : Nat} : InTree root kids a → c ∈ kids a → InTree root kids c

structure TreeOk (h : Memory) (root : Nat) (kids : Nat → List Nat) : Prop where
  chain : ∀ a, InTree root kids a → Chain .sibling h.link (.child a) (kids a)
  parent : ∀ a, InTree root kids a → ∀ c ∈ kids a, h.parent c = some a
  ordered : ∀ a, InTree root kids a → (kids a).Pairwise fun c d => h.stop c < h.start d
  inside : ∀ a, InTree root kids a → ∀ c ∈ kids a, h.start a ≤ h.start c ∧ h.start c ≤ h.stop c ∧ h.stop c ≤ h.stop a
  ranked : ∃ rank : Nat → Nat, ∀ a, InTree root kids a → ∀ c ∈ kids a, rank c < rank a

structure SameTree (root : Nat) (kids : Nat → List Nat) (h h' : Memory) : Prop where
  start : ∀ a, InTree root kids a → h'.start a = h.start a
  stop : ∀ a, InTree root kids a → h'.stop a = h.stop a
  flags : ∀ a, InTree root kids a → h'.flags a = h.flags a
  child : ∀ a, InTree root kids a → h'.link (.child a) = h.link (.child a)
  sibling : ∀ a, InTree root kids a → ∀ c ∈ kids a, h'.link (.sibling c) = h.link (.sibling c)
  parent : ∀ a, InTree root kids a → ∀ c ∈ kids a, h'.parent c = h.parent c

variable {h h' root parent new old a b c kids before run after}

theorem InTree.ne (mem : InTree root kids a) (outside : ¬InTree root kids new) : a ≠ new := fun eq => outside (eq ▸ mem)

theorem SameTree.refl (h : Memory) : SameTree root kids h h :=
  ⟨fun _ _ => rfl,fun _ _ => rfl,fun _ _ => rfl,fun _ _ => rfl,fun _ _ _ _ => rfl,fun _ _ _ _ => rfl⟩

theorem SameTree.trans {h''} (first : SameTree root kids h h') (later : SameTree root kids h' h'') :
    SameTree root kids h h'' where
  start a mem := (later.start a mem).trans (first.start a mem)
  stop a mem := (later.stop a mem).trans (first.stop a mem)
  flags a mem := (later.flags a mem).trans (first.flags a mem)
  child a mem := (later.child a mem).trans (first.child a mem)
  sibling a mem c kid := (later.sibling a mem c kid).trans (first.sibling a mem c kid)
  parent a mem c kid := (later.parent a mem c kid).trans (first.parent a mem c kid)

theorem TreeOk.same (ok : TreeOk h root kids) (same : SameTree root kids h h') : TreeOk h' root kids where
  chain a mem := chainCongr (same.child a mem) (same.sibling a mem) (ok.chain a mem)
  parent a mem c kid := (same.parent a mem c kid).trans (ok.parent a mem c kid)
  ordered a mem := by
    refine (ok.ordered a mem).imp_of_mem fun {c d} left right less => ?_
    rw [same.stop c (.child mem left),same.start d (.child mem right)]
    exact less
  inside a mem c kid := by
    rw [same.start a mem,same.stop a mem,same.start c (.child mem kid),same.stop c (.child mem kid)]
    exact ok.inside a mem c kid
  ranked := ok.ranked

theorem TreeOk.rankLe (ok : TreeOk h root kids) : ∃ rank : Nat → Nat,
    (∀ a, InTree root kids a → ∀ c ∈ kids a, rank c < rank a) ∧ ∀ a, InTree root kids a → rank a ≤ rank root := by
  obtain ⟨rank,falls⟩ := ok.ranked
  refine ⟨rank,falls,fun a mem => ?_⟩
  induction mem with
  | root => exact le_rfl
  | child mem kid ih => exact le_trans (le_of_lt (falls _ mem _ kid)) ih

section
variable (ok : TreeOk h root kids) (mem : InTree root kids a)
include ok mem

theorem TreeOk.rootNotKid : root ∉ kids a := by
  intro kid
  obtain ⟨rank,falls,le⟩ := ok.rankLe
  have := falls a mem root kid
  have := le a mem
  omega

theorem TreeOk.selfNotKid : a ∉ kids a := by
  intro kid
  obtain ⟨rank,falls⟩ := ok.ranked
  exact absurd (falls a mem a kid) (lt_irrefl _)

theorem TreeOk.sameParent (mem' : InTree root kids b) (kid : c ∈ kids a) (kid' : c ∈ kids b) : a = b :=
  Option.some.inj ((ok.parent a mem c kid).symm.trans (ok.parent b mem' c kid'))

theorem TreeOk.once : (kids a).Nodup := by
  refine (ok.ordered a mem).imp_of_mem fun {c d} left _ less same => ?_
  have := ok.inside a mem c left
  subst same
  omega

end

def graft (kids : Nat → List Nat) (parent new : Nat) (before run after : List Nat) : Nat → List Nat :=
  update (update kids parent (before ++ new::after)) new run

theorem graftKid (listed : c ∈ graft kids parent new before run after a) : a = new ∧ c ∈ before ++ run ++ after ∨
    a = parent ∧ (c = new ∨ c ∈ before ++ run ++ after) ∨ a ≠ new ∧ c ∈ kids a := by
  unfold graft at listed
  by_cases isNew : a = new
  · rw [isNew,update_self] at listed
    exact .inl ⟨isNew,by simp [listed]⟩
  rw [update_of_ne isNew] at listed
  by_cases isParent : a = parent
  · rw [isParent,update_self,mem_append,mem_cons] at listed
    refine .inr (.inl ⟨isParent,?_⟩)
    simp only [mem_append]
    tauto
  · rw [update_of_ne isParent] at listed
    exact .inr (.inr ⟨isNew,listed⟩)

theorem graftTree (mem : InTree root kids parent) (split : kids parent = before ++ run ++ after)
    (grown : InTree root (graft kids parent new before run after) a) : InTree root kids a ∨ a = new := by
  induction grown with
  | root => exact .inl .root
  | @child a c _ listed ih =>
    rcases graftKid listed with ⟨_,listed⟩ | ⟨_,isNew | listed⟩ | ⟨notNew,listed⟩
    · exact .inl (.child mem (split ▸ listed))
    · exact .inr isNew
    · exact .inl (.child mem (split ▸ listed))
    · exact .inl (.child (ih.resolve_right notNew) listed)

structure Place (h : Memory) (parent new : Nat) (before run after : List Nat) : Prop where
  within : h.start parent ≤ h.start new ∧ h.start new ≤ h.stop new ∧ h.stop new ≤ h.stop parent
  left : ∀ c ∈ before, h.stop c < h.start new
  right : ∀ c ∈ after, h.stop new < h.start c
  around : ∀ c ∈ run, h.start new ≤ h.start c ∧ h.stop c ≤ h.stop new

structure Grafted (h h' : Memory) (root : Nat) (kids : Nat → List Nat) (parent new : Nat) (before run after : List Nat) : Prop where
  start : h'.start = h.start
  stop : h'.stop = h.stop
  top : Chain .sibling h'.link (.child parent) (before ++ new::after)
  own : Chain .sibling h'.link (.child new) run
  child : ∀ a, InTree root kids a → a ≠ parent → h'.link (.child a) = h.link (.child a)
  sibling : ∀ c, InTree root kids c → c ∉ kids parent → h'.link (.sibling c) = h.link (.sibling c)
  parentNew : h'.parent new = some parent
  parentRun : ∀ c ∈ run, h'.parent c = some new
  parentRest : ∀ c, InTree root kids c → c ∉ run → h'.parent c = h.parent c

section
variable (ok : TreeOk h root kids) (mem : InTree root kids parent) (split : kids parent = before ++ run ++ after)
  (outside : ¬InTree root kids new)
include ok mem split outside

theorem graftRanked : ∃ rank : Nat → Nat,
      ∀ a, InTree root (graft kids parent new before run after) a → ∀ c ∈ graft kids parent new before run after a, rank c < rank a := by
  obtain ⟨rank,falls⟩ := ok.ranked
  have below (c : Nat) (listed : c ∈ before ++ run ++ after) : c ≠ new ∧ rank c < rank parent :=
    ⟨(mem.child (split ▸ listed)).ne outside,falls parent mem c (split ▸ listed)⟩
  -- room for the new resource just below its parent
  refine ⟨fun a => if a = new then 2 * rank parent + 1 else 2 * rank a + 2,fun a grown c listed => ?_⟩
  rcases graftKid listed with ⟨rfl,among⟩ | ⟨rfl,rfl | among⟩ | ⟨isOld,listed⟩
  · obtain ⟨ne,less⟩ := below c among
    simp only [if_neg ne,if_true]
    omega
  · simp [mem.ne outside]
  · obtain ⟨ne,less⟩ := below c among
    simp only [if_neg ne,if_neg (mem.ne outside)]
    omega
  · have old := (graftTree mem split grown).resolve_right isOld
    have ne := (old.child listed).ne outside
    have less := falls a old c listed
    simp only [if_neg isOld,if_neg ne]
    omega

theorem TreeOk.graft (place : Place h parent new before run after)
    (linked : Grafted h h' root kids parent new before run after) :
    TreeOk h' root (graft kids parent new before run after) := by
  have kept {a : Nat} (mem : InTree root kids a) (ne : a ≠ parent) : Resource.graft kids parent new before run after a = kids a := by
    rw [Resource.graft,update_of_ne (mem.ne outside),update_of_ne ne]
  have ofNew : Resource.graft kids parent new before run after new = run := update_self ..
  have ofParent : Resource.graft kids parent new before run after parent = before ++ new::after := by
    rw [Resource.graft,update_of_ne (mem.ne outside),update_self]
  have inRun {c : Nat} (listed : c ∈ run) : c ∈ kids parent := split ▸ by simp [listed]
  have ordered := split ▸ ok.ordered parent mem
  obtain ⟨once,_,across⟩ := nodup_append.mp (split ▸ ok.once mem)
  have around {c : Nat} (listed : c ∈ before ++ new::after) : c = new ∨ c ∈ kids parent ∧ c ∉ run := by
    rcases mem_append.mp listed with listed | listed
    · exact .inr ⟨split ▸ by simp [listed],fun other => (nodup_append.mp once).2.2 c listed c other rfl⟩
    · exact (mem_cons.mp listed).imp_right fun listed => ⟨split ▸ by simp [listed],fun other => across c (by simp [other]) c listed rfl⟩
  -- the new resource, its parent, and every other node
  have cases {P : Nat → Prop} (atNew : P new) (atParent : P parent) (others : ∀ a, InTree root kids a → a ≠ parent → P a) :
      ∀ a, InTree root (Resource.graft kids parent new before run after) a → P a := by
    intro a grown
    rcases graftTree mem split grown with old | rfl
    · by_cases ne : a = parent
      · exact ne ▸ atParent
      · exact others a old ne
    · exact atNew
  refine ⟨cases ?_ ?_ fun a old ne => ?_,cases ?_ ?_ fun a old ne => ?_,cases ?_ ?_ fun a old ne => ?_,
    cases ?_ ?_ fun a old ne => ?_,graftRanked ok mem split outside⟩
  · rw [ofNew]
    exact linked.own
  · rw [ofParent]
    exact linked.top
  · rw [kept old ne]
    exact chainCongr (linked.child a old ne)
      (fun c kid => linked.sibling c (.child old kid) fun kid' => ne (ok.sameParent old mem kid kid')) (ok.chain a old)
  · rw [ofNew]
    exact linked.parentRun
  · rw [ofParent]
    intro c listed
    rcases around listed with rfl | ⟨kid,other⟩
    · exact linked.parentNew
    · rw [linked.parentRest c (.child mem kid) other]
      exact ok.parent parent mem c kid
  · rw [kept old ne]
    intro c kid
    rw [linked.parentRest c (.child old kid) fun listed => ne (ok.sameParent old mem kid (inRun listed))]
    exact ok.parent a old c kid
  · rw [ofNew,linked.start,linked.stop]
    exact (pairwise_append.mp (pairwise_append.mp ordered).1).2.1
  · rw [ofParent,linked.start,linked.stop]
    obtain ⟨front,back,across⟩ := pairwise_append.mp ordered
    exact pairwise_append.mpr ⟨(pairwise_append.mp front).1,pairwise_cons.mpr ⟨place.right,back⟩,
      fun c listed => forall_mem_cons.mpr ⟨place.left c listed,across c (by simp [listed])⟩⟩
  · rw [kept old ne,linked.start,linked.stop]
    exact ok.ordered a old
  · rw [ofNew,linked.start,linked.stop]
    intro c listed
    have := ok.inside parent mem c (inRun listed)
    have := place.around c listed
    omega
  · rw [ofParent,linked.start,linked.stop]
    intro c listed
    rcases around listed with rfl | ⟨kid,_⟩
    · exact place.within
    · exact ok.inside parent mem c kid
  · rw [kept old ne,linked.start,linked.stop]
    exact ok.inside a old

end

def cut (kids : Nat → List Nat) (parent : Nat) (before after : List Nat) : Nat → List Nat :=
  update kids parent (before ++ after)

structure Cut (h h' : Memory) (root : Nat) (kids : Nat → List Nat) (parent old : Nat) (before after : List Nat) : Prop where
  start : h'.start = h.start
  stop : h'.stop = h.stop
  top : Chain .sibling h'.link (.child parent) (before ++ after)
  child : ∀ a, InTree root kids a → a ≠ parent → h'.link (.child a) = h.link (.child a)
  sibling : ∀ c, InTree root kids c → c ∉ kids parent → h'.link (.sibling c) = h.link (.sibling c)
  parent : ∀ c, InTree root kids c → c ≠ old → h'.parent c = h.parent c

theorem TreeOk.cut (ok : TreeOk h root kids) (mem : InTree root kids parent) (split : kids parent = before ++ old::after)
    (linked : Cut h h' root kids parent old before after) : TreeOk h' root (cut kids parent before after) := by
  have once := split ▸ ok.once mem
  have fewer : (before ++ after).Sublist (kids parent) := by
    rw [split]
    exact List.Sublist.append (.refl _) (sublist_cons_self _ _)
  have gone {c : Nat} (listed : c ∈ before ++ after) : c ≠ old := by
    rintro rfl
    obtain ⟨_,back,across⟩ := nodup_append.mp once
    rcases mem_append.mp listed with listed | listed
    · exact across c listed c mem_cons_self rfl
    · exact (nodup_cons.mp back).1 listed
  have ofParent : Resource.cut kids parent before after parent = before ++ after := update_self ..
  have kept {a : Nat} (ne : a ≠ parent) : Resource.cut kids parent before after a = kids a := update_of_ne ne ..
  have sub (a : Nat) : (Resource.cut kids parent before after a).Sublist (kids a) := by
    by_cases ne : a = parent
    · rw [ne,ofParent]
      exact fewer
    · rw [kept ne]
  have still {a : Nat} (less : InTree root (Resource.cut kids parent before after) a) : InTree root kids a := by
    induction less with
    | root => exact .root
    | child _ kid ih => exact .child ih ((sub _).subset kid)
  refine ⟨fun a less => ?_,fun a less c kid => ?_,fun a less => ?_,fun a less c kid => ?_,?_⟩
  · by_cases ne : a = parent
    · rw [ne,ofParent]
      exact linked.top
    · rw [kept ne]
      exact chainCongr (linked.child a (still less) ne)
        (fun c kid => linked.sibling c (.child (still less) kid) fun kid' => ne (ok.sameParent (still less) mem kid kid'))
        (ok.chain a (still less))
  · have kid' := (sub a).subset kid
    rw [linked.parent c (.child (still less) kid')]
    · exact ok.parent a (still less) c kid'
    · rintro rfl
      have same := ok.sameParent (still less) mem kid' (split ▸ by simp)
      exact gone (ofParent ▸ same ▸ kid) rfl
  · rw [linked.start,linked.stop]
    exact (ok.ordered a (still less)).sublist (sub a)
  · rw [linked.start,linked.stop]
    exact ok.inside a (still less) c ((sub a).subset kid)
  · obtain ⟨rank,falls⟩ := ok.ranked
    exact ⟨rank,fun a less c kid => falls a (still less) c ((sub a).subset kid)⟩

end EclairKernel.Resource
