import EclairKernel.RadixTreeInsert
import Mathlib.Tactic.FinCases
import EclairKernel.Run

/-! Tags: set on the whole path of an item, and cleared upwards as long as the node
has no other slot with the tag. -/
namespace EclairKernel.RadixTree
open Function Bool Nat Run

section
variable {m : Contents} {h p k index} {n : Node Slot} {slot root bit}
  {tag other} {offset}

theorem setTagElsewhere (away : k ≠ index) : (m.setTag tag index bit).tagged other k = m.tagged other k := by
  by_cases same : other = tag
  · subst same
    simp [Contents.setTag,update_of_ne away]
  · simp [Contents.setTag,update_of_ne same]

theorem setTagOther (different : other ≠ tag) : (m.setTag tag index bit).tagged other k = m.tagged other k := by
  simp [Contents.setTag,update_of_ne different]

theorem setTagOwn : (m.setTag tag index bit).tagged tag index = bit := by simp [Contents.setTag]

theorem setTagSame (unset : m.tagged tag index = bit) : m.setTag tag index bit = m := by
  subst unset
  simp [Contents.setTag]

theorem taggedClear (tagged : TaggedUnder (m.setTag tag index false) other h p) : TaggedUnder m other h p := by
  obtain ⟨k,under,set⟩ := tagged
  refine ⟨k,under,?_⟩
  by_cases own : k = index
  · subst own
    by_cases same : other = tag
    · subst same
      simp [setTagOwn] at set
    · exact (setTagOther same) ▸ set
  · exact (setTagElsewhere own) ▸ set

theorem taggedOther (different : other ≠ tag) :
    TaggedUnder (m.setTag tag index bit) other h p ↔ TaggedUnder m other h p :=
  exists_congr fun k => and_congr_right fun _ => by rw [setTagOther different]

theorem NodeOk.anyTagSet (ok : NodeOk m (Holds m h) h p n) :
    n.anyTagSet tag = true ↔ TaggedUnder m tag (h + 1) p := by
  rw [Node.anyTagSet,List.any_eq_true]
  constructor
  · rintro ⟨i,-,set⟩
    obtain ⟨k,under,tagged⟩ := (ok.tags tag i).mp set
    exact ⟨k,(underChild.mp under).1,tagged⟩
  · rintro ⟨k,under,tagged⟩
    exact ⟨offsetAt k h,List.mem_finRange _,(ok.tags tag _).mpr ⟨k,underOwn under,tagged⟩⟩

theorem usedSame {slots} (same : slot.isNull = (slots offset).isNull) :
    used (update slots offset slot) = used slots := by
  have update := usedUpdate slots offset slot
  rw [same] at update
  exact add_right_cancel update

theorem Holds.present (holds : Holds m (h + 1) p slot) (under : Under (h + 1) p index) (found : m.item index ≠ none) :
    ∃ n, slot = .node n ∧ NodeOk m (Holds m h) h p n := by
  cases slot with
  | null => exact absurd (holds index under) found
  | item x => exact holds.elim
  | node n => exact ⟨n,rfl,holds⟩

theorem Holds.filled (holds : Holds m h p slot) (under : Under h p index) (found : m.item index ≠ none) :
    slot.isNull = false := by
  refine eq_false_iff.mpr fun null => found ?_
  rw [isNullIff.mp null] at holds
  exact holds.absent under

theorem setTagAt (different : offset ≠ offsetAt index h) (child : Slot) :
    ((n.setTag tag (offsetAt index h) bit).setSlot (offsetAt index h) child).tags other offset = n.tags other offset := by
  by_cases same : other = tag
  · subst same
    simp [Node.setTag,Node.setSlot,update_of_ne different]
  · simp [Node.setTag,Node.setSlot,update_of_ne same]

theorem NodeOk.retag {s set} (bit : Bool) (ok : NodeOk m (Holds m h) h p n)
    (holds : Holds (m.setTag tag index set) h (child p (offsetAt index h)) s)
    (null : s.isNull = (n.slots (offsetAt index h)).isNull)
    (bits : bit = true ↔ TaggedUnder (m.setTag tag index set) tag h (child p (offsetAt index h))) :
    NodeOk (m.setTag tag index set) (Holds (m.setTag tag index set) h) h p
      ((n.setSlot (offsetAt index h) s).setTag tag (offsetAt index h) bit) := by
  refine ok.replace index (fun k away => ⟨rfl,fun t => setTagElsewhere away⟩) rfl ?_
    (fun i away => update_of_ne away _ _) ?_ (fun t i away => setTagAt away s) fun t => ?_
  · exact ok.count.trans (usedSame null).symm
  · have own : ((n.setSlot (offsetAt index h) s).setTag tag (offsetAt index h) bit).slots (offsetAt index h) = s :=
      update_self ..
    rwa [own]
  · by_cases same : t = tag
    · subst same
      simpa [Node.setTag] using bits
    · rw [taggedOther same,← ok.tags t]
      simp [Node.setTag,Node.setSlot,update_of_ne same]

theorem tagSetHolds (tag) (holds : Holds m h p slot) (under : Under h p index) (found : m.item index ≠ none) :
    ∃ s, tagSetLoop index tag h slot = some s ∧ Holds (m.setTag tag index true) h p s ∧ s.isNull = slot.isNull := by
  induction h generalizing p slot with
  | zero =>
    refine ⟨slot,rfl,?_,rfl⟩
    cases slot with
    | null => exact holds
    | item x => exact holds
    | node n => exact holds
  | succ h ih =>
    obtain ⟨n,rfl,ok⟩ := holds.present under found
    have below := ok.below (offsetAt index h)
    obtain ⟨s,eq,sets,null⟩ := ih below (underOwn under)
    have filled := below.filled (underOwn under) found
    refine ⟨.node ((n.setTag tag (offsetAt index h) true).setSlot (offsetAt index h) s),?_,?_,rfl⟩
    · simp [tagSetLoop,filled,eq]
    · exact ok.retag true sets null (iff_of_true rfl ⟨index,underOwn under,setTagOwn⟩)

theorem Represents.tagSet (tag) (rep : Represents m root) (index32 : index < 2^32)
    (found : m.item index ≠ none) :
    ∃ r, radixTreeTagSet root index tag = some (m.item index,r) ∧ Represents (m.setTag tag index true) r := by
  have under := rep.under found
  have fits := mt (maxindexIff rep.height index32).mp (not_not.mpr under)
  obtain ⟨s,eq,holds,-⟩ := tagSetHolds tag rep.holds under found
  obtain ⟨item,null⟩ := slotAtHolds rep.holds under
  have filled := eq_false_iff.mpr (mt null.mp found)
  refine ⟨{ root with rnode := s, tags := update root.tags tag true },?_,?_,rep.height,holds,rep.outside,
    rep.bounded,fun t => ?_⟩
  · simp [radixTreeTagSet,if_neg fits,eq,item,filled]
  · intro t k set
    by_cases own : k = index
    · exact own ▸ found
    · exact rep.proper t k ((setTagElsewhere own) ▸ set)
  · by_cases same : t = tag
    · subst same
      exact iff_of_true (update_self ..) ⟨index,setTagOwn⟩
    · change update root.tags tag true t = true ↔ _
      rw [update_of_ne same,rep.tags t]
      exact exists_congr fun k => by rw [setTagOther same]

structure Cleared (m : Contents) (tag : Fin RADIX_TREE_MAX_TAGS) (index h p : Nat) (slot : Slot) (r : Slot × Bool) :
    Prop where
  holds : Holds (m.setTag tag index false) h p r.1
  null : r.1.isNull = slot.isNull
  gone : r.2 = true → ¬TaggedUnder (m.setTag tag index false) tag h p
  kept : r.2 = false → (TaggedUnder m tag h p → TaggedUnder (m.setTag tag index false) tag h p)

theorem setTagSelf (n : Node Slot) : n.setTag tag offset (n.tags tag offset) = n := by
  simp [Node.setTag]

theorem tagClearHolds (tag) (holds : Holds m h p slot) (under : Under h p index) (found : m.item index ≠ none) :
    Cleared m tag index h p slot (tagClearLoop index tag h slot) := by
  induction h generalizing p slot with
  | zero =>
    obtain rfl := underZero.mp under
    refine ⟨?_,rfl,fun _ => ?_,fun flag => nomatch flag⟩
    · cases slot with
      | null => exact holds
      | item x => exact holds
      | node n => exact holds
    · rintro ⟨k,own,set⟩
      obtain rfl := underZero.mp own
      simp [setTagOwn] at set
  | succ h ih =>
    obtain ⟨n,rfl,ok⟩ := holds.present under found
    have below := ih (ok.below (offsetAt index h)) (underOwn under)
    have tags : (n.setSlot (offsetAt index h) (tagClearLoop index tag h (n.slots (offsetAt index h))).1).tags = n.tags := rfl
    by_cases go : (tagClearLoop index tag h (n.slots (offsetAt index h))).2 = true ∧
        n.tags tag (offsetAt index h) = true
    · have clear := ok.retag false below.holds below.null
        (iff_of_false false_ne_true (below.gone go.1))
      simp only [tagClearLoop,go.1,tags,go.2]
      refine ⟨clear,rfl,fun flag => ?_,fun flag _ => ?_⟩
      · rw [← clear.anyTagSet]
        simpa using flag
      · rw [← clear.anyTagSet]
        simpa using flag
    · -- The bit stays, and so does what it says.
      have bit : n.tags tag (offsetAt index h) = true ↔
          TaggedUnder (m.setTag tag index false) tag h (child p (offsetAt index h)) := by
        refine ⟨fun set => ?_,fun tagged => (ok.tags tag _).mpr (taggedClear tagged)⟩
        have stopped := eq_false_iff.mpr fun flag => go ⟨flag,set⟩
        exact below.kept stopped ((ok.tags tag _).mp set)
      have clear := ok.retag _ below.holds below.null bit
      rw [← tags,setTagSelf] at clear
      have stop : (!(tagClearLoop index tag h (n.slots (offsetAt index h))).2 || !n.tags tag (offsetAt index h)) = true := by
        simpa using not_and_or.mp go
      simp only [tagClearLoop,tags,stop]
      refine ⟨clear,rfl,(fun flag => nomatch flag),fun _ tagged => ?_⟩
      rw [← clear.anyTagSet]
      exact ok.anyTagSet.mpr tagged

theorem taggedAnywhere (proper : m.Proper) (outside : ∀ k, ¬Under h 0 k → m.item k = none) :
    (∃ k, m.tagged tag k = true) ↔ TaggedUnder m tag h 0 :=
  exists_congr fun k => ⟨fun set => ⟨not_not.mp (mt (outside k) (proper tag k set)),set⟩,And.right⟩

theorem clearProper (tag) (index : Nat) (proper : m.Proper) : (m.setTag tag index false).Proper := by
  intro t k set
  obtain ⟨k',own,tagged⟩ := taggedClear ⟨k,underZero.mpr rfl,set⟩
  obtain rfl := underZero.mp own
  exact proper t k' tagged

theorem Represents.tagClear (tag) (rep : Represents m root) (index32 : index < 2^32) :
    ∃ r, radixTreeTagClear root index tag = (m.item index,r) ∧ Represents (m.setTag tag index false) r ∧
      r.height = root.height := by
  by_cases found : m.item index = none
  · rw [setTagSame (rep.proper.untagged found)]
    refine ⟨root,?_,rep,rfl⟩
    rw [radixTreeTagClear]
    by_cases under : Under root.height 0 index
    · have null := (slotAtHolds rep.holds under).2.mpr found
      rw [if_neg (mt (maxindexIff rep.height index32).mp (not_not.mpr under)),if_pos null,found]
    · rw [if_pos ((maxindexIff rep.height index32).mpr under),found]
  · have under := rep.under found
    have fits := mt (maxindexIff rep.height index32).mp (not_not.mpr under)
    obtain ⟨item,null⟩ := slotAtHolds rep.holds under
    have filled := mt null.mp found
    have clear := tagClearHolds tag rep.holds under found
    rw [radixTreeTagClear,if_neg fits,if_neg filled,item]
    have proper := clearProper tag index rep.proper
    refine ⟨_,rfl,⟨proper,rep.height,clear.holds,rep.outside,rep.bounded,fun t => ?_⟩,rfl⟩
    by_cases same : t = tag
    · subst same
      rw [taggedAnywhere proper rep.outside]
      cases flag : (tagClearLoop index t root.height root.rnode).2 with
      | true => exact iff_of_false (by simp) (clear.gone flag)
      | false =>
        change root.tags t = true ↔ _
        rw [rep.tags t,taggedAnywhere rep.proper rep.outside]
        exact ⟨clear.kept flag,taggedClear⟩
    · have kept : (if (tagClearLoop index tag root.height root.rnode).2 then update root.tags tag false
          else root.tags) t = root.tags t := by
        split
        · exact update_of_ne same _ _
        · rfl
      refine (eq_iff_iff.mp kept).trans ((rep.tags t).trans (exists_congr fun k => ?_))
      rw [setTagOther same]

/-! Deletion: the item's tags are cleared, the nodes that hold nothing else are
freed, and a root with its first slot alone is taken away. What goes back to the
slab is zeroed. -/

open List Finset

structure Blank (n : Node Slot) : Prop where
  count : n.count = 0
  slots : ∀ i, n.slots i = .null
  tags : ∀ tag i, n.tags tag i = false

theorem deleteSame (proper : m.Proper) (absent : m.item index = none) : m.delete index = m := by
  have tagged : ∀ tag, update (m.tagged tag) index false = m.tagged tag :=
    fun tag => update_eq_self_iff.mpr (proper.untagged absent).symm
  rw [Contents.delete,update_eq_self_iff.mpr absent.symm]
  simp [tagged]

theorem deleteItem (other : k ≠ index) : (m.delete index).item k = m.item k := update_of_ne other _ _

theorem deleteOwn : (m.delete index).item index = none := update_self ..

theorem deleteTagged (untagged : ∀ tag, m.tagged tag index = false) : (m.delete index).tagged tag k = m.tagged tag k := by
  by_cases own : k = index
  · subst own
    exact (update_self ..).trans (untagged tag).symm
  · exact update_of_ne own _ _

theorem deleteProper (proper : m.Proper) : (m.delete index).Proper := by
  intro tag k set
  by_cases own : k = index
  · subst own
    simp [Contents.delete] at set
  · rw [deleteItem own]
    exact proper tag k ((update_of_ne own _ _).symm.trans set)

variable {slots}

theorem usedNull (empty : used slots = 0) (i : Fin RADIX_TREE_MAP_SIZE) : slots i = .null := by
  have absent := filter_eq_empty_iff.mp (card_eq_zero.mp empty) (mem_univ i)
  simpa using absent

theorem NodeOk.freed (ok : NodeOk m (Holds m h) h p n) (proper : m.Proper)
    (others : ∀ i, i ≠ 0 → n.slots i = .null) : Blank n.rcuFree := by
  have bits : ∀ tag i, i ≠ 0 → n.tags tag i = false := by
    refine fun tag i other => eq_false_iff.mpr fun set => ?_
    obtain ⟨k,under,tagged⟩ := (ok.tags tag i).mp set
    have below := ok.below i
    rw [others i other] at below
    exact proper tag k tagged (below.absent under)
  refine ⟨rfl,fun i => ?_,fun tag i => ?_⟩
  · by_cases first : i = 0
    · subst first
      simp [Node.rcuFree,Node.setSlot]
    · have same : n.rcuFree.slots i = n.slots i := update_of_ne first _ _
      exact same.trans (others i first)
  · by_cases first : i = 0
    · subst first
      fin_cases tag <;> rfl
    · have same : n.rcuFree.tags tag i = n.tags tag i := by
        fin_cases tag <;> simp [Node.rcuFree,Node.setTag,Node.setSlot,update_of_ne first]
      exact same.trans (bits tag i first)

structure Taken (m : Contents) (index h p : Nat) (r : Removed) : Prop where
  holds : Holds (m.delete index) h p r.slot
  freed : ∀ n ∈ r.freed, Blank n.rcuFree

theorem NodeOk.setSlot {s} (count : Nat) (ok : NodeOk m (Holds m h) h p n)
    (untagged : ∀ tag, m.tagged tag index = false) (holds : Holds (m.delete index) h (child p (offsetAt index h)) s)
    (counted : count = used (update n.slots (offsetAt index h) s)) :
    NodeOk (m.delete index) (Holds (m.delete index) h) h p
      { n.setSlot (offsetAt index h) s with count := count } := by
  refine ok.replace index (fun k other => ⟨deleteItem other,fun tag => deleteTagged untagged⟩) rfl counted
    (fun i other => update_of_ne other _ _) ?_ (fun tag i other => rfl) fun tag => ?_
  · change Holds _ _ _ (update n.slots (offsetAt index h) s (offsetAt index h))
    rwa [update_self]
  · refine (ok.tags tag _).trans (exists_congr fun k => and_congr_right fun _ => ?_)
    rw [deleteTagged untagged]

theorem removeHolds (proper : m.Proper) (holds : Holds m h p slot) (under : Under h p index)
    (found : m.item index ≠ none) (untagged : ∀ tag, m.tagged tag index = false) :
    Taken m index h p (removeLoop index h slot) := by
  induction h generalizing p slot with
  | zero =>
    obtain rfl := underZero.mp under
    exact ⟨deleteOwn,fun n mem => absurd mem not_mem_nil⟩
  | succ h ih =>
    obtain ⟨n,rfl,ok⟩ := holds.present under found
    have below := ih (ok.below (offsetAt index h)) (underOwn under)
    have filled := (ok.below (offsetAt index h)).filled (underOwn under) found
    have counts := usedUpdate n.slots (offsetAt index h) (removeLoop index h (n.slots (offsetAt index h))).slot
    rw [filled] at counts
    cases null : (removeLoop index h (n.slots (offsetAt index h))).slot.isNull with
    | false =>
      simp only [removeLoop,null]
      rw [null] at counts
      refine ⟨ok.setSlot n.count untagged below.holds ?_,below.freed⟩
      rw [ok.count]
      exact (add_right_cancel counts).symm
    | true =>
      have empty := isNullIff.mp null
      rw [empty] at counts
      have counted : n.count - 1 = used (update n.slots (offsetAt index h) .null) := by
        rw [ok.count]
        simp [Slot.isNull] at counts
        omega
      have rest := ok.setSlot (n.count - 1) untagged (empty ▸ below.holds) counted
      simp only [removeLoop,null,if_true]
      split
      next left => exact ⟨rest,below.freed⟩
      next last =>
        have none' := counted ▸ not_not.mp last
        refine ⟨fun k inside => ?_,fun f mem => ?_⟩
        · have slot : Holds (m.delete index) h (child p (offsetAt k h))
              (update n.slots (offsetAt index h) .null (offsetAt k h)) := rest.below (offsetAt k h)
          rw [usedNull none'] at slot
          exact slot.absent (underOwn inside)
        · rcases mem_cons.mp mem with rfl | mem
          · exact rest.freed (deleteProper proper) fun i _ => usedNull none' i
          · exact below.freed f mem

theorem usedFirst (one : used slots = 1) (first : (slots 0).isNull = false)
    (i : Fin RADIX_TREE_MAP_SIZE) (other : i ≠ 0) : slots i = .null := by
  obtain ⟨a,only⟩ := card_eq_one.mp one
  have alone : ∀ j, (slots j).isNull = false → j = a := by
    intro j full
    have mem : j ∈ univ.filter fun i => (slots i).isNull = false := by simpa using full
    rwa [only,Finset.mem_singleton] at mem
  by_contra full
  have filled := eq_false_iff.mpr (mt isNullIff.mp full)
  exact other ((alone i filled).trans (alone 0 first).symm)

theorem shrinkHolds (proper : m.Proper) (holds : Holds m h 0 slot) (filled : slot.isNull = false)
    (outside : ∀ k, ¬Under h 0 k → m.item k = none) :
    ∃ s, shrinkLoop h slot = some s ∧ s.height ≤ h ∧ Holds m s.height 0 s.rnode ∧
      (∀ k, ¬Under s.height 0 k → m.item k = none) ∧ ∀ n ∈ s.freed, Blank n.rcuFree := by
  induction h generalizing slot with
  | zero => exact ⟨_,rfl,le_rfl,holds,outside,fun n mem => absurd mem not_mem_nil⟩
  | succ h ih =>
    cases slot with
    | null => simp [Slot.isNull] at filled
    | item x => exact holds.elim
    | node n =>
      have ok := holds
      by_cases stop : n.count ≠ 1 ∨ (n.slots 0).isNull = true
      · refine ⟨⟨h + 1,.node n,[]⟩,?_,le_rfl,holds,outside,fun n mem => absurd mem not_mem_nil⟩
        rw [shrinkLoop,if_pos stop]
      have one := not_not.mp (mt .inl stop)
      have first := eq_false_iff.mpr (mt .inr stop)
      have others := usedFirst (ok.count.symm.trans one) first
      -- An index beyond the first child is under a NULL slot.
      have beyond : ∀ k, ¬Under h 0 k → m.item k = none := by
        intro k away
        by_cases under : Under (h + 1) 0 k
        · have own := underOwn under
          have other : offsetAt k h ≠ 0 := by
            intro zero
            rw [zero] at own
            exact away own
          have slot := ok.below (offsetAt k h)
          rw [others _ other] at slot
          exact slot.absent own
        · exact outside k under
      obtain ⟨s,eq,le,below,rest,freed⟩ := ih (ok.below 0) first beyond
      refine ⟨{ s with freed := n::s.freed },?_,le_succ_of_le le,below,rest,fun f mem => ?_⟩
      · rw [shrinkLoop,if_neg stop,eq]
        rfl
      · rcases mem_cons.mp mem with rfl | mem
        · exact ok.freed proper others
        · exact freed f mem

theorem leafTagHolds (holds : Holds m (h + 1) p slot) (under : Under (h + 1) p index) (found : m.item index ≠ none) :
    leafTag index tag (h + 1) slot = m.tagged tag index := by
  induction h generalizing p slot with
  | zero =>
    obtain ⟨n,rfl,ok⟩ := holds.present under found
    rw [leafTag,if_pos rfl,Bool.eq_iff_iff,ok.tags tag]
    have own := underZero.mp (underOwn under)
    simp [TaggedUnder,← own]
  | succ h ih =>
    obtain ⟨n,rfl,ok⟩ := holds.present under found
    exact ih (ok.below _) (underOwn under)

theorem clearedDelete : ((m.setTag 0 index false).setTag 1 index false).delete index = m.delete index := by
  have tagged : ∀ tag, update (((m.setTag 0 index false).setTag 1 index false).tagged tag) index false =
      update (m.tagged tag) index false := by
    intro tag
    funext k
    by_cases own : k = index
    · subst own
      rw [update_self,update_self]
    · rw [update_of_ne own,update_of_ne own,setTagElsewhere own,setTagElsewhere own]
  rw [Contents.delete]
  simp only [tagged]
  rfl

theorem clearedUntagged (tag) :
    ((m.setTag 0 index false).setTag 1 index false).tagged tag index = false := by
  fin_cases tag
  · exact (setTagOther (by decide)).trans setTagOwn
  · exact setTagOwn

theorem emptyRepresents (absent : ∀ k, m.item k = none) (proper : m.Proper) : Represents m radixTreeInit :=
  ⟨proper,Nat.zero_le _,absent 0,fun k _ => absent k,fun k present => absurd (absent k) present,
    fun tag => iff_of_false false_ne_true fun tagged =>
      tagged.elim fun k set => proper tag k set (absent k)⟩

section
variable (rep : Represents m root)
include rep

theorem Represents.clearTag (index32 : index < 2^32) (found : m.item index ≠ none)
    (tag) (high : root.height ≠ 0) :
    ∃ r, (if leafTag index tag root.height root.rnode then (radixTreeTagClear root index tag).2 else root) = r ∧
      Represents (m.setTag tag index false) r ∧ r.height = root.height := by
  obtain ⟨h,height⟩ := exists_eq_succ_of_ne_zero high
  have under := rep.under found
  have bit : leafTag index tag root.height root.rnode = m.tagged tag index := by
    have holds := rep.holds
    rw [height] at holds under ⊢
    exact leafTagHolds holds under found
  rw [bit]
  cases set : m.tagged tag index with
  | true =>
    obtain ⟨r,eq,rep',same⟩ := rep.tagClear tag index32
    exact ⟨r,by rw [if_pos rfl,eq],rep',same⟩
  | false => exact ⟨root,if_neg Bool.false_ne_true,(setTagSame set).symm ▸ rep,rfl⟩

theorem Represents.clearTags (index32 : index < 2^32) (found : m.item index ≠ none)
    (high : root.height ≠ 0) : Represents ((m.setTag 0 index false).setTag 1 index false) (clearTags root index) := by
  obtain ⟨r,first,rep1,height1⟩ := rep.clearTag index32 found 0 high
  obtain ⟨r',second,rep2,-⟩ := rep1.clearTag index32 found 1 (height1 ▸ high)
  have both : RadixTree.clearTags root index = r' := by
    rw [← second,← first]
    rfl
  exact both ▸ rep2

theorem Represents.deleted (untagged : ∀ tag, m.tagged tag index = false) {height}
    {rnode} (low : height ≤ RADIX_TREE_MAX_PATH) (holds : Holds (m.delete index) height 0 rnode)
    (outside : ∀ k, ¬Under height 0 k → (m.delete index).item k = none) :
    Represents (m.delete index) ⟨height,root.tags,rnode⟩ := by
  refine ⟨deleteProper rep.proper,low,holds,outside,fun k present => ?_,fun tag => ?_⟩
  · by_cases own : k = index
    · exact absurd (own ▸ deleteOwn) present
    · exact rep.bounded k (deleteItem own ▸ present)
  · refine (rep.tags tag).trans (exists_congr fun k => ?_)
    rw [deleteTagged untagged]

theorem Represents.unlink {removed} (found : m.item index ≠ none)
    (untagged : ∀ tag, m.tagged tag index = false) (taken : Taken m index root.height 0 removed) (item : Option Item) :
    ∃ d, (if removed.slot.isNull then some ⟨item,⟨0,fun _ => false,.null⟩,removed.freed⟩
      else if removed.here then (shrinkLoop root.height removed.slot).map fun s =>
        ⟨item,{ root with height := s.height, rnode := s.rnode },removed.freed ++ s.freed⟩
      else some ⟨item,{ root with rnode := removed.slot },removed.freed⟩) = some (d : Deleted) ∧ d.item = item ∧
      Represents (m.delete index) d.root ∧ ∀ n ∈ d.freed, Blank n.rcuFree := by
  have under := rep.under found
  have outside : ∀ k, ¬Under root.height 0 k → (m.delete index).item k = none := by
    intro k away
    have other : k ≠ index := fun same => away (same ▸ under)
    rw [deleteItem other]
    exact rep.outside k away
  cases null : removed.slot.isNull with
  | true =>
    refine ⟨_,rfl,rfl,emptyRepresents (fun k => ?_) (deleteProper rep.proper),taken.freed⟩
    by_cases inside : Under root.height 0 k
    · exact ((isNullIff.mp null) ▸ taken.holds).absent inside
    · exact outside k inside
  | false =>
    rw [if_neg Bool.false_ne_true]
    split
    · obtain ⟨s,eq,low,holds,beyond,freed⟩ := shrinkHolds (deleteProper rep.proper) taken.holds null outside
      rw [eq]
      refine ⟨_,rfl,rfl,rep.deleted untagged (le_trans low rep.height) holds beyond,fun n mem => ?_⟩
      rcases mem_append.mp mem with mem | mem
      · exact taken.freed n mem
      · exact freed n mem
    · exact ⟨_,rfl,rfl,rep.deleted untagged rep.height taken.holds outside,taken.freed⟩

theorem Represents.delete (index32 : index < 2^32) :
    ∃ d, radixTreeDelete root index = some d ∧ d.item = m.item index ∧ Represents (m.delete index) d.root ∧
      ∀ n ∈ d.freed, Blank n.rcuFree := by
  have nothing : ∀ n : Node Slot, n ∈ ([] : List (Node Slot)) → Blank n.rcuFree := fun n mem => absurd mem not_mem_nil
  by_cases under : Under root.height 0 index
  case neg =>
    have absent := rep.outside index under
    rw [radixTreeDelete,if_pos ((maxindexIff rep.height index32).mpr under),deleteSame rep.proper absent]
    exact ⟨_,rfl,absent.symm,rep,nothing⟩
  have fits := mt (maxindexIff rep.height index32).mp (not_not.mpr under)
  obtain ⟨item,null⟩ := slotAtHolds rep.holds under
  rw [radixTreeDelete,if_neg fits]
  by_cases zero : root.height = 0
  · rw [if_pos zero]
    rw [zero] at item under
    have gone : ∀ k, (m.delete index).item k = none := by
      intro k
      by_cases own : k = index
      · exact own ▸ deleteOwn
      rw [deleteItem own]
      refine rep.outside k fun first => own ?_
      rw [zero] at first
      exact (underZero.mp first).trans (underZero.mp under).symm
    refine ⟨_,rfl,item,?_,nothing⟩
    rw [zero]
    exact emptyRepresents gone (deleteProper rep.proper)
  · rw [if_neg zero]
    by_cases found : m.item index = none
    · rw [if_pos (null.mpr found),deleteSame rep.proper found]
      exact ⟨_,rfl,found.symm,rep,nothing⟩
    rw [if_neg (mt null.mp found),item]
    have cleared := rep.clearTags index32 found zero
    have taken := removeHolds cleared.proper cleared.holds (cleared.under found) found clearedUntagged
    obtain ⟨d,eq,out,rep',freed⟩ := cleared.unlink found clearedUntagged taken (m.item index)
    exact ⟨d,eq,out,clearedDelete ▸ rep',freed⟩

end

end

/-! Whole runs of the radix tree's calls beside the map with tag sets that the
callers see. -/

open EclairKernel

inductive Call where
  | insert (index : Nat) (x : Item) (allocs : List Bool)
  | delete (index : Nat)
  | tagSet (index : Nat) (tag : Fin RADIX_TREE_MAX_TAGS)
  | tagClear (index : Nat) (tag : Fin RADIX_TREE_MAX_TAGS)

def Call.index : Call → Nat
  | .insert index _ _ => index
  | .delete index => index
  | .tagSet index _ => index
  | .tagClear index _ => index

structure Traced where
  root : Root
  contents : Contents

def serve (t : Traced) : Call → Option Traced
  | .insert index x allocs => (radixTreeInsert t.root index x allocs).map fun r =>
      ⟨r.2,if r.1 = 0 then t.contents.insert index x else t.contents⟩
  | .delete index => (radixTreeDelete t.root index).map fun d => ⟨d.root,t.contents.delete index⟩
  | .tagSet index tag => (radixTreeTagSet t.root index tag).map fun r => ⟨r.2,t.contents.setTag tag index true⟩
  | .tagClear index tag => some ⟨(radixTreeTagClear t.root index tag).2,t.contents.setTag tag index false⟩

def callStep (s : Option Traced) (call : Call) : Option Traced := s.bind fun t => serve t call

def mayCall : Option Traced → Call → Bool
  | some t, .tagSet index _ => (t.contents.item index).isSome
  | _, _ => true

def Allowed (s : Option Traced) (call : Call) : Prop := call.index < 2^32 ∧ mayCall s call = true

instance (s : Option Traced) (call : Call) : Decidable (Allowed s call) := inferInstanceAs (Decidable (_ ∧ _))

def emptyTree : Option Traced := some ⟨radixTreeInit,.empty⟩

inductive NodeIn (root : Root) : Nat → Nat → Node Slot → Prop where
  | top {h n} (height : root.height = h + 1) (rnode : root.rnode = .node n) : NodeIn root h 0 n
  | down {h p n i c} (above : NodeIn root (h + 1) p n) (slot : n.slots i = .node c) : NodeIn root h (child p i) c

section
variable {m m' root root' h p index n tag}

section
variable (rep : Represents m root)
include rep

theorem Represents.node (inside : NodeIn root h p n) : NodeOk m (Holds m h) h p n := by
  induction inside with
  | top height rnode =>
    have holds := rep.holds
    rwa [height,rnode] at holds
  | @down h p n i c above slot ih =>
    have holds := ih.below i
    rwa [slot] at holds

theorem Represents.tagGetPresent (index32 : index < 2^32) :
    radixTreeTagGet root index tag = some ((m.item index).isSome && m.tagged tag index) := by
  rw [rep.tagGet index32]
  cases found : m.item index with
  | none => simp [rep.proper.untagged found]
  | some x => simp

theorem Represents.alike (rep' : Represents m root') (index32 : index < 2^32) :
    radixTreeLookup root' index = radixTreeLookup root index ∧
      ∀ tag, radixTreeTagGet root' index tag = radixTreeTagGet root index tag :=
  ⟨(rep'.lookup index32).trans (rep.lookup index32).symm,
    fun _ => (rep'.tagGet index32).trans (rep.tagGet index32).symm⟩

theorem Represents.insertFailed (index32 : index < 2^32) (x : Item) (allocs : List Bool) :
    ∃ code r, radixTreeInsert root index x allocs = some (code,r) ∧ (code ≠ 0 → (code = -EEXIST ∨ code = -ENOMEM) ∧
      ∀ k < 2^32, radixTreeLookup r k = radixTreeLookup root k ∧
        ∀ tag, radixTreeTagGet r k tag = radixTreeTagGet root k tag) := by
  obtain ⟨code,r,m',eq,result,rep'⟩ := rep.insert x allocs index32
  refine ⟨code,r,eq,fun failed => ?_⟩
  cases result with
  | done free => exact absurd rfl failed
  | present found => exact ⟨.inl rfl,fun k small => rep.alike rep' small⟩
  | noMemory free => exact ⟨.inr rfl,fun k small => rep.alike rep' small⟩

end

end

def Follows (s : Option Traced) : Prop := ∃ t, s = some t ∧ Represents t.contents t.root

theorem emptyFollows : Follows emptyTree :=
  ⟨_,rfl,emptyRepresents (fun _ => rfl) fun _ _ set => absurd set Bool.false_ne_true⟩

theorem callFollows (s : Option Traced) (call : Call) (follows : Follows s) (allowed : Allowed s call) :
    Follows (callStep s call) := by
  obtain ⟨t,rfl,rep⟩ := follows
  cases call with
  | insert index x allocs =>
    have index32 : index < 2^32 := allowed.1
    obtain ⟨code,r,m',eq,result,rep'⟩ := rep.insert x allocs index32
    have recorded : (if code = 0 then t.contents.insert index x else t.contents) = m' := by
      cases result with
      | done free => rfl
      | present found => rfl
      | noMemory free => rfl
    refine ⟨⟨r,m'⟩,?_,rep'⟩
    simp [callStep,serve,eq,recorded]
  | delete index =>
    have index32 : index < 2^32 := allowed.1
    obtain ⟨d,eq,-,rep',-⟩ := rep.delete index32
    exact ⟨⟨d.root,t.contents.delete index⟩,by simp [callStep,serve,eq],rep'⟩
  | tagSet index tag =>
    have index32 : index < 2^32 := allowed.1
    have found := Option.isSome_iff_ne_none.mp allowed.2
    obtain ⟨r,eq,rep'⟩ := rep.tagSet tag index32 found
    exact ⟨⟨r,t.contents.setTag tag index true⟩,by simp [callStep,serve,eq],rep'⟩
  | tagClear index tag =>
    have index32 : index < 2^32 := allowed.1
    obtain ⟨r,eq,rep',-⟩ := rep.tagClear tag index32
    exact ⟨⟨r,t.contents.setTag tag index false⟩,by simp [callStep,serve,eq],rep'⟩

theorem treeIsMap (calls : List Call) (admitted : Admitted callStep Allowed emptyTree calls) :
    ∃ root m, run callStep emptyTree calls = some ⟨root,m⟩ ∧
      (∀ index < 2^32, radixTreeLookup root index = m.item index ∧
        ∀ tag, radixTreeTagGet root index tag = some ((m.item index).isSome && m.tagged tag index)) ∧
      (∀ h p n, NodeIn root h p n → n.count = used n.slots ∧
        ∀ tag i, n.tags tag i = true ↔ ∃ k, Under h (child p i) k ∧ m.item k ≠ none ∧ m.tagged tag k = true) ∧
      (∀ tag, root.tags tag = true ↔ ∃ k, m.item k ≠ none ∧ m.tagged tag k = true) ∧
      ∀ index < 2^32, ∀ x allocs, ∃ code r, radixTreeInsert root index x allocs = some (code,r) ∧
        (code ≠ 0 → (code = -EEXIST ∨ code = -ENOMEM) ∧ ∀ k < 2^32, radixTreeLookup r k = radixTreeLookup root k ∧
          ∀ tag, radixTreeTagGet r k tag = radixTreeTagGet root k tag) := by
  obtain ⟨⟨root,m⟩,eq,rep⟩ := runInvariant callFollows emptyFollows admitted
  have present : ∀ tag k, m.tagged tag k = true ↔ m.item k ≠ none ∧ m.tagged tag k = true :=
    fun tag k => ⟨fun set => ⟨rep.proper tag k set,set⟩,And.right⟩
  refine ⟨root,m,eq,fun index index32 => ⟨rep.lookup index32,fun tag => rep.tagGetPresent index32⟩,
    fun h p n inside => ?_,fun tag => ?_,fun index index32 x allocs => rep.insertFailed index32 x allocs⟩
  · have ok := rep.node inside
    refine ⟨ok.count,fun tag i => (ok.tags tag i).trans (exists_congr fun k => and_congr_right fun _ => present tag k)⟩
  · exact (rep.tags tag).trans (exists_congr (present tag))

local instance tagsNonzero : NeZero RADIX_TREE_MAX_TAGS := ⟨by decide⟩

def sampleCalls : List Call :=
  [.insert 0 ⟨16,succ_ne_zero 15,rfl⟩ [],.tagSet 0 1,.insert 70000 ⟨32,succ_ne_zero 31,rfl⟩ [true,false],
    .insert 70000 ⟨32,succ_ne_zero 31,rfl⟩ [true,true,true,true,true],.tagSet 70000 0,.tagClear 0 1,.delete 70000]

theorem sampleIsMap : Admitted callStep Allowed emptyTree sampleCalls ∧
    ∃ root m, run callStep emptyTree sampleCalls = some ⟨root,m⟩ ∧
      ∀ index < 2^32, radixTreeLookup root index = m.item index := by
  have admitted : Admitted callStep Allowed emptyTree sampleCalls := by decide +kernel
  obtain ⟨root,m,eq,lookup,-⟩ := treeIsMap sampleCalls admitted
  exact ⟨admitted,root,m,eq,fun index index32 => (lookup index index32).1⟩

end EclairKernel.RadixTree
