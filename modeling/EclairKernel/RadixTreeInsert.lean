import EclairKernel.RadixTree
import Mathlib.Algebra.BigOperators.Group.Finset.Basic
import Mathlib.Data.Fintype.BigOperators
import Mathlib.Tactic.IntervalCases

/-! The finite map with tag sets that a radix tree stands for, and what each node
says about it: its count, its tag bits and the items below. -/
namespace EclairKernel.RadixTree
open Finset Bool Function Nat

structure Contents where
  item : Nat → Option Item
  tagged : Fin RADIX_TREE_MAX_TAGS → Nat → Bool

namespace Contents

def empty : Contents := ⟨fun _ => none,fun _ _ => false⟩

def insert (m : Contents) (index : Nat) (x : Item) : Contents :=
  ⟨update m.item index (some x),fun tag => update (m.tagged tag) index false⟩

def delete (m : Contents) (index : Nat) : Contents :=
  ⟨update m.item index none,fun tag => update (m.tagged tag) index false⟩

def setTag (m : Contents) (tag : Fin RADIX_TREE_MAX_TAGS) (index : Nat) (bit : Bool) : Contents :=
  { m with tagged := update m.tagged tag (update (m.tagged tag) index bit) }

def Proper (m : Contents) : Prop := ∀ tag k, m.tagged tag k = true → m.item k ≠ none

end Contents

def Under (h p k : Nat) : Prop := k >>> (RADIX_TREE_MAP_SHIFT * h) = p

def TaggedUnder (m : Contents) (tag : Fin RADIX_TREE_MAX_TAGS) (h p : Nat) : Prop :=
  ∃ k, Under h p k ∧ m.tagged tag k = true

def child (p : Nat) (offset : Fin RADIX_TREE_MAP_SIZE) : Nat := RADIX_TREE_MAP_SIZE * p + offset

def used (slots : Fin RADIX_TREE_MAP_SIZE → Slot) : Nat := (Finset.univ.filter fun i => (slots i).isNull = false).card

structure NodeOk (m : Contents) (Below : Nat → Slot → Prop) (h p : Nat) (n : Node Slot) : Prop where
  height : n.height = h + 1
  count : n.count = used n.slots
  below : ∀ i, Below (child p i) (n.slots i)
  tags : ∀ tag i, n.tags tag i = true ↔ TaggedUnder m tag h (child p i)

def Holds (m : Contents) : Nat → Nat → Slot → Prop
  | 0, p, .null => m.item p = none
  | 0, p, .item x => m.item p = some x
  | 0, _, .node _ => False
  | h+1, p, .null => ∀ k, Under (h + 1) p k → m.item k = none
  | _+1, _, .item _ => False
  | h+1, p, .node n => NodeOk m (fun q slot => Holds m h q slot) h p n

structure Represents (m : Contents) (root : Root) : Prop where
  proper : m.Proper
  height : root.height ≤ RADIX_TREE_MAX_PATH
  holds : Holds m root.height 0 root.rnode
  outside : ∀ k, ¬Under root.height 0 k → m.item k = none
  bounded : ∀ k, m.item k ≠ none → k < 2^32
  tags : ∀ tag, root.tags tag = true ↔ ∃ k, m.tagged tag k = true

section
variable {m m' : Contents} {h p k index n} {slot : Slot}
  {tag} {offset}

@[simp] theorem isNullIff : slot.isNull = true ↔ slot = .null := by
  cases slot <;> simp [Slot.isNull]

theorem Contents.Proper.untagged (proper : m.Proper) (absent : m.item k = none) : m.tagged tag k = false :=
  eq_false_iff.mpr fun set => proper tag k set absent

@[simp] theorem underZero : Under 0 p k ↔ k = p := by simp [Under]

theorem underChild : Under h (child p offset) k ↔ Under (h + 1) p k ∧ offsetAt k h = offset := by
  have above : k >>> (RADIX_TREE_MAP_SHIFT * (h + 1)) = k >>> (RADIX_TREE_MAP_SHIFT * h) / 64 := by
    rw [mul_succ,shiftRight_add,shiftRight_eq_div_pow _ RADIX_TREE_MAP_SHIFT]
    rfl
  have digit : offsetAt k h = offset ↔ k >>> (RADIX_TREE_MAP_SHIFT * h) % 64 = offset := by
    rw [Fin.ext_iff]
    rfl
  rw [Under,Under]
  have bound : offset.val < 64 := offset.isLt
  change _ = 64 * p + offset.val ↔ _
  omega

theorem underOwn (under : Under (h + 1) p k) : Under h (child p (offsetAt k h)) k := underChild.mpr ⟨under,rfl⟩

theorem underOther (under : Under h (child p offset) k) (other : offset ≠ offsetAt index h) : k ≠ index := by
  rintro rfl
  exact other (underChild.mp under).2.symm

theorem maxindexIff (height : h ≤ RADIX_TREE_MAX_PATH) (index32 : index < 2^32) :
    radixTreeMaxindex h < index ↔ ¬Under h 0 index := by
  have six : h ≤ 6 := height
  rw [Under,shiftRight_eq_div_pow]
  interval_cases h <;> simp [radixTreeMaxindex,RADIX_TREE_MAP_SHIFT,RADIX_TREE_INDEX_BITS] <;> omega

theorem usedUpdate (slots : Fin RADIX_TREE_MAP_SIZE → Slot) (offset : Fin RADIX_TREE_MAP_SIZE) (s : Slot) :
    used (update slots offset s) + (if (slots offset).isNull = false then 1 else 0) =
      used slots + if s.isNull = false then 1 else 0 := by
  have rest : ∀ f : Fin RADIX_TREE_MAP_SIZE → Slot, used f = (if (f offset).isNull = false then 1 else 0) +
      ∑ i ∈ univ.erase offset, if (f i).isNull = false then 1 else 0 := by
    intro f
    rw [used,card_filter,add_sum_erase _ (fun i => if (f i).isNull = false then 1 else 0)
      (mem_univ offset)]
  have others : (∑ i ∈ univ.erase offset, if (update slots offset s i).isNull = false then 1 else 0) =
      ∑ i ∈ univ.erase offset, if (slots i).isNull = false then 1 else 0 :=
    sum_congr rfl fun i mem => by rw [update_of_ne (ne_of_mem_erase mem)]
  rw [rest (update slots offset s),rest slots,update_self]
  omega

theorem Holds.congr (same : ∀ k, Under h p k → m'.item k = m.item k ∧ ∀ tag, m'.tagged tag k = m.tagged tag k)
    (holds : Holds m h p slot) : Holds m' h p slot := by
  induction h generalizing p slot with
  | zero =>
    have here := (same p (by simp)).1
    cases slot with
    | null => exact here.trans holds
    | item x => exact here.trans holds
    | node n => exact holds
  | succ h ih =>
    cases slot with
    | null => exact fun k under => (same k under).1.trans (holds k under)
    | item x => exact holds
    | node n =>
      have inside : ∀ i k, Under h (child p i) k →
          m'.item k = m.item k ∧ ∀ tag, m'.tagged tag k = m.tagged tag k :=
        fun i k under => same k (underChild.mp under).1
      refine ⟨holds.height,holds.count,fun i => ih (inside i) (holds.below i),fun tag i => ?_⟩
      refine (holds.tags tag i).trans (exists_congr fun k => and_congr_right fun under => ?_)
      rw [(inside i k under).2 tag]

theorem NodeOk.replace {n'} (index : Nat) (ok : NodeOk m (Holds m h) h p n)
    (same : ∀ k, k ≠ index → m'.item k = m.item k ∧ ∀ tag, m'.tagged tag k = m.tagged tag k)
    (height : n'.height = n.height) (count : n'.count = used n'.slots)
    (slots : ∀ i, i ≠ offsetAt index h → n'.slots i = n.slots i)
    (path : Holds m' h (child p (offsetAt index h)) (n'.slots (offsetAt index h)))
    (tags : ∀ tag i, i ≠ offsetAt index h → n'.tags tag i = n.tags tag i)
    (bit : ∀ tag, n'.tags tag (offsetAt index h) = true ↔ TaggedUnder m' tag h (child p (offsetAt index h))) :
    NodeOk m' (Holds m' h) h p n' := by
  have inside : ∀ i, i ≠ offsetAt index h → ∀ k, Under h (child p i) k →
      m'.item k = m.item k ∧ ∀ tag, m'.tagged tag k = m.tagged tag k :=
    fun i other k under => same k (underOther under other)
  refine ⟨height.trans ok.height,count,fun i => ?_,fun tag i => ?_⟩
  · by_cases own : i = offsetAt index h
    · subst own
      exact path
    · rw [slots i own]
      exact (ok.below i).congr (inside i own)
  · by_cases own : i = offsetAt index h
    · subst own
      exact bit tag
    · rw [tags tag i own,ok.tags tag i]
      refine exists_congr fun k => and_congr_right fun under => ?_
      rw [(inside i own k under).2 tag]

end

variable {m h p index slot root tag}

theorem slotAtHolds (holds : Holds m h p slot) (under : Under h p index) :
    (slotAt index h slot).toItem = m.item index ∧ ((slotAt index h slot).isNull = true ↔ m.item index = none) := by
  induction h generalizing p slot with
  | zero =>
    obtain rfl := underZero.mp under
    cases slot with
    | null =>
      have item : m.item index = none := holds
      exact ⟨item.symm,by simp [slotAt,item]⟩
    | item x =>
      have item : m.item index = some x := holds
      exact ⟨item.symm,by simp [slotAt,item]⟩
    | node n => exact holds.elim
  | succ h ih =>
    cases slot with
    | null =>
      have item := holds index under
      exact ⟨item.symm,by simp [slotAt,item]⟩
    | item x => exact holds.elim
    | node n => exact ih (holds.below _) (underOwn under)

theorem tagGetHolds (proper : m.Proper) (holds : Holds m (h + 1) p slot) (under : Under (h + 1) p index)
    {saw} (seen : saw = true → m.tagged tag index = false) :
    tagGetLoop index tag (h + 1) slot saw = some (m.tagged tag index) := by
  induction h generalizing p slot saw with
  | zero =>
    cases slot with
    | null => simp [tagGetLoop,proper.untagged (holds index under)]
    | item x => exact holds.elim
    | node n =>
      have bit : n.tags tag (offsetAt index 0) = m.tagged tag index := by
        rw [Bool.eq_iff_iff,holds.tags tag]
        have own := underZero.mp (underOwn under)
        simp [TaggedUnder,← own]
      simp only [tagGetLoop,bit]
      cases set : m.tagged tag index with
      | false => simp
      | true =>
        have unseen : saw = false := eq_false_iff.mpr fun s => by simp [seen s] at set
        simp [unseen]
  | succ h ih =>
    cases slot with
    | null => simp [tagGetLoop,proper.untagged (holds index under)]
    | item x => exact holds.elim
    | node n =>
      refine ih (holds.below _) (underOwn under) fun s => ?_
      rcases or_eq_true_iff.mp s with before | unset
      · exact seen before
      · refine eq_false_iff.mpr fun set => ?_
        have bit := (holds.tags tag (offsetAt index (h + 1))).mpr ⟨index,underOwn under,set⟩
        simp [bit] at unset

theorem Represents.lookup (rep : Represents m root) (index32 : index < 2^32) :
    radixTreeLookup root index = m.item index := by
  have holds := rep.holds
  obtain ⟨height,tags,rnode⟩ := root
  by_cases under : Under height 0 index
  · have found := (slotAtHolds holds under).1
    cases height with
    | zero =>
      obtain rfl := underZero.mp under
      cases rnode with
      | null => exact found
      | item x => exact found
      | node n => exact holds.elim
    | succ h =>
      cases rnode with
      | null => exact found
      | item x => exact holds.elim
      | node n =>
        have fits := mt (maxindexIff rep.height index32).mp (not_not.mpr under)
        have same := holds.height
        simp only [radixTreeLookup,same]
        rw [if_neg fits]
        exact found
  · have beyond := (maxindexIff rep.height index32).mpr under
    have none' := rep.outside index under
    cases rnode with
    | null => exact none'.symm
    | item x =>
      cases height with
      | zero =>
        have pos := Nat.pos_of_ne_zero fun zero => under (underZero.mpr zero)
        simp [radixTreeLookup,pos,none']
      | succ h => exact holds.elim
    | node n =>
      cases height with
      | zero => exact holds.elim
      | succ h =>
        have same := holds.height
        simp only [radixTreeLookup,same]
        rw [if_pos beyond,none']

theorem Holds.absent (holds : Holds m h p .null) (under : Under h p k) : m.item k = none := by
  cases h with
  | zero => exact (underZero.mp under) ▸ holds
  | succ h => exact holds k under

theorem Represents.under (rep : Represents m root) (present : m.item k ≠ none) : Under root.height 0 k :=
  not_not.mp (mt (rep.outside k) present)

theorem Represents.tagGet (rep : Represents m root) (index32 : index < 2^32) :
    radixTreeTagGet root index tag = some (m.tagged tag index) := by
  have holds := rep.holds
  have tags := rep.tags tag
  have untagged : m.item index = none → m.tagged tag index = false := rep.proper.untagged
  rw [radixTreeTagGet]
  cases any : root.tags tag with
  | false =>
    have none' : m.tagged tag index = false :=
      eq_false_iff.mpr fun set => by simp [tags.mpr ⟨index,set⟩] at any
    simp [none']
  | true =>
    obtain ⟨height,rootTags,rnode⟩ := root
    have outside := rep.outside index
    have empty (null : rnode = .null) : m.item index = none :=
      by_contra fun found => found ((null ▸ holds).absent (rep.under found))
    simp only [Bool.not_true,Bool.false_eq_true,if_false]
    cases height with
    | zero =>
      cases rnode with
      | null => simp [untagged (empty rfl)]
      | item x =>
        by_cases zero : index = 0
        · subst zero
          obtain ⟨k,set⟩ := tags.mp any
          have own : k = 0 := by
            by_contra other
            exact rep.proper tag k set (rep.outside k (mt underZero.mp other))
          subst own
          simp [set]
        · simp [zero,untagged (outside (mt underZero.mp zero))]
      | node n => exact holds.elim
    | succ h =>
      cases rnode with
      | null => simp [untagged (empty rfl)]
      | item x => exact holds.elim
      | node n =>
        have same := holds.height
        simp only [same]
        by_cases under : Under (h + 1) 0 index
        · rw [if_neg (mt (maxindexIff rep.height index32).mp (not_not.mpr under))]
          exact tagGetHolds rep.proper holds under (by simp)
        · rw [if_pos ((maxindexIff rep.height index32).mpr under),untagged (outside under)]

/-! Insertion: the tree grows above its nodes with the tags carried up, and the path
of the index is completed from the top. An insertion that fails on the way leaves
nodes behind, but no item and no tag. -/

inductive Inserted (m : Contents) (index : Nat) (x : Item) : Int → Contents → Prop where
  | done (free : m.item index = none) : Inserted m index x 0 (m.insert index x)
  | present (found : m.item index ≠ none) : Inserted m index x (-EEXIST) m
  | noMemory (free : m.item index = none) : Inserted m index x (-ENOMEM) m

variable {m' k x code} {n : Node Slot} {offset}

theorem Inserted.item (result : Inserted m index x code m') (other : k ≠ index) : m'.item k = m.item k := by
  cases result with
  | done free => exact update_of_ne other _ _
  | present | noMemory => rfl

theorem Inserted.tagged (result : Inserted m index x code m') (proper : m.Proper) (k : Nat) :
    m'.tagged tag k = m.tagged tag k := by
  cases result with
  | done free =>
    by_cases own : k = index
    · subst own
      rw [proper.untagged free]
      exact update_self ..
    · exact update_of_ne own _ _
  | present | noMemory => rfl

theorem Inserted.proper (result : Inserted m index x code m') (proper : m.Proper) : m'.Proper := by
  intro tag k set
  have before := proper tag k ((result.tagged proper k).symm.trans set)
  by_cases own : k = index
  · subst own
    cases result with
    | done free => exact absurd free before
    | present found => exact found
    | noMemory free => exact before
  · rwa [result.item own]

theorem holdsNull (absent : ∀ k, Under h p k → m.item k = none) : Holds m h p .null := by
  cases h with
  | zero => exact absent p (underZero.mpr rfl)
  | succ h => exact absent

theorem usedNone : used (fun _ => .null) = 0 := by simp [used,Slot.isNull]

theorem zeroedOk (proper : m.Proper) (absent : ∀ k, Under (h + 1) p k → m.item k = none) :
    NodeOk m (Holds m h) h p (.zeroed (h + 1)) := by
  have inside : ∀ i k, Under h (child p i) k → m.item k = none := fun i k under => absent k (underChild.mp under).1
  refine ⟨rfl,usedNone.symm,fun i => holdsNull (inside i),fun tag i => ?_⟩
  refine iff_of_false false_ne_true ?_
  rintro ⟨k,under,set⟩
  exact proper tag k set (inside i k under)

theorem storeCount (count : n.count = used n.slots) (filled : slot = .null → n.slots offset = .null) :
    (n.store offset slot).count = used (n.store offset slot).slots := by
  have counts := usedUpdate n.slots offset slot
  change (if (n.slots offset).isNull && !slot.isNull then n.count + 1 else n.count) =
    used (update n.slots offset slot)
  cases old : (n.slots offset).isNull <;> cases new : slot.isNull <;> simp only [old,new] at counts ⊢ <;>
    simp at counts ⊢
  · omega
  · have empty := filled (isNullIff.mp new)
    simp [empty,Slot.isNull] at old
  · omega
  · omega

theorem NodeOk.store {s} (ok : NodeOk m (Holds m h) h p n) (proper : m.Proper)
    (result : Inserted m index x code m') (holds : Holds m' h (child p (offsetAt index h)) s)
    (filled : s = .null → n.slots (offsetAt index h) = .null) :
    NodeOk m' (Holds m' h) h p (n.store (offsetAt index h) s) := by
  refine ok.replace index (fun k other => ⟨result.item other,fun tag => result.tagged proper k⟩) rfl
    (storeCount ok.count filled) (fun i other => update_of_ne other _ _) ?_ (fun tag i other => rfl) fun tag => ?_
  · have own : (n.store (offsetAt index h) s).slots (offsetAt index h) = s := update_self ..
    rwa [own]
  · refine (ok.tags tag _).trans (exists_congr fun k => and_congr_right fun under => ?_)
    rw [result.tagged proper k]

theorem NodeOk.noBug (ok : NodeOk m (Holds m h) h p n) (proper : m.Proper)
    (under : Under (h + 1) p index) (result : Inserted m index x code m') :
    ¬(h = 0 ∧ code = 0 ∧ (n.tags 0 (offsetAt index h) || n.tags 1 (offsetAt index h)) = true) := by
  rintro ⟨rfl,rfl,set⟩
  cases result with
  | done free =>
    have unset : ∀ tag, n.tags tag (offsetAt index 0) = false := by
      refine fun tag => eq_false_iff.mpr fun bit => ?_
      obtain ⟨k,below,tagged⟩ := (ok.tags tag _).mp bit
      have own := (underZero.mp below).trans (underZero.mp (underOwn under)).symm
      exact proper tag k tagged (own ▸ free)
    simp [unset] at set

theorem insertLoopHolds (allocs : List Bool) (proper : m.Proper) (holds : Holds m h p slot) (under : Under h p index) :
    ∃ code s m', insertLoop index x h slot allocs = some (code,s) ∧ Inserted m index x code m' ∧ Holds m' h p s ∧
      (s = .null → slot = .null) := by
  induction h generalizing p slot allocs with
  | zero =>
    obtain rfl := underZero.mp under
    cases slot with
    | null =>
      refine ⟨0,.item x,_,rfl,.done holds,?_,fun null => nomatch null⟩
      exact update_self ..
    | item y =>
      have found : m.item index = some y := holds
      exact ⟨-EEXIST,.item y,m,rfl,.present (by simp [found]),holds,id⟩
    | node n => exact holds.elim
  | succ h ih =>
    cases node : nodeFor (h + 1) slot allocs with
    | none =>
      have null : slot = .null := by
        cases slot with
        | null => rfl
        | item y => exact holds.elim
        | node n => simp [nodeFor] at node
      subst null
      exact ⟨-ENOMEM,.null,m,by simp [insertLoop,node],.noMemory (holds.absent under),holds,id⟩
    | some opened =>
      obtain ⟨n,rest⟩ := opened
      have ok : NodeOk m (Holds m h) h p n := by
        cases slot with
        | null =>
          cases allocs with
          | nil => simp [nodeFor] at node
          | cons answer rest =>
            cases answer with
            | false => simp [nodeFor] at node
            | true =>
              obtain ⟨rfl,rfl⟩ := Prod.mk.inj (Option.some.inj node)
              exact zeroedOk proper holds
        | item y => exact holds.elim
        | node n =>
          obtain ⟨rfl,rfl⟩ := Prod.mk.inj (Option.some.inj node)
          exact holds
      obtain ⟨code,s,m',eq,result,below,filled⟩ := ih rest (ok.below (offsetAt index h)) (underOwn under)
      refine ⟨code,.node (n.store (offsetAt index h) s),m',?_,result,ok.store proper result below filled,
        fun null => nomatch null⟩
      simp only [insertLoop,node,eq]
      rw [if_neg (ok.noBug proper under result)]

theorem heightForFits (fuel : Nat) (index32 : index < 2^32) (low : h ≤ RADIX_TREE_MAX_PATH)
    (enough : RADIX_TREE_MAX_PATH ≤ h + fuel) : h ≤ heightFor index fuel h ∧
      heightFor index fuel h ≤ RADIX_TREE_MAX_PATH ∧ Under (heightFor index fuel h) 0 index := by
  have top : Under RADIX_TREE_MAX_PATH 0 index := by
    by_contra beyond
    have large := (maxindexIff le_rfl index32).mpr beyond
    simp [radixTreeMaxindex,RADIX_TREE_MAX_PATH,RADIX_TREE_MAP_SHIFT,RADIX_TREE_INDEX_BITS] at large
    omega
  induction fuel generalizing h with
  | zero =>
    have same : h = RADIX_TREE_MAX_PATH := by omega
    exact ⟨le_rfl,low,same ▸ top⟩
  | succ fuel ih =>
    rw [heightFor]
    split
    next beyond =>
      have less : h ≠ RADIX_TREE_MAX_PATH := by
        rintro rfl
        exact (maxindexIff le_rfl index32).mp beyond top
      obtain ⟨le,fits⟩ := ih (h := h + 1) (by omega) (by omega)
      exact ⟨by omega,fits⟩
    next fits => exact ⟨le_rfl,low,not_not.mp (mt (maxindexIff low index32).mpr fits)⟩

theorem underUp (under : Under h 0 k) : Under (h + 1) 0 k := by
  have first : Under h (child 0 0) k := under
  exact (underChild.mp first).1

theorem Represents.raise (rep : Represents m root) (filled : root.rnode ≠ .null) (low : root.height < RADIX_TREE_MAX_PATH) :
    Represents m (raise root) := by
  have others : ∀ i : Fin RADIX_TREE_MAP_SIZE, i ≠ 0 → ∀ k, Under root.height (child 0 i) k → m.item k = none := by
    intro i other k below
    refine rep.outside k fun first => other (Fin.ext ?_)
    have same := below.symm.trans first
    simpa [child] using same
  refine ⟨rep.proper,low,?_,fun k beyond => rep.outside k (mt underUp beyond),rep.bounded,rep.tags⟩
  refine ⟨rfl,?_,fun i => ?_,fun tag i => ?_⟩
  · have counts := usedUpdate (fun _ => .null) 0 root.rnode
    rw [usedNone] at counts
    simpa [Slot.isNull] using counts.symm
  · by_cases own : i = 0
    · subst own
      exact (update_self (f := fun _ => Slot.null) 0 root.rnode).symm ▸ rep.holds
    · change Holds m root.height (child 0 i) (update (fun _ => Slot.null) 0 root.rnode i)
      rw [update_of_ne own]
      exact holdsNull (others i own)
  · by_cases own : i = 0
    · subst own
      change (true && root.tags tag) = true ↔ _
      rw [Bool.true_and,rep.tags tag]
      exact exists_congr fun k => ⟨fun set => ⟨rep.under (rep.proper tag k set),set⟩,And.right⟩
    · refine iff_of_false (by simp [own]) ?_
      rintro ⟨k,below,set⟩
      exact rep.proper tag k set (others i own k below)

theorem Represents.extendLoop {steps} (allocs : List Bool) (rep : Represents m root)
    (filled : root.rnode ≠ .null) (low : root.height + steps ≤ RADIX_TREE_MAX_PATH) : ∃ code r rest,
      RadixTree.extendLoop steps root allocs = (code,r,rest) ∧ Represents m r ∧
        (code = 0 ∧ r.height = root.height + steps ∨ code = -ENOMEM) := by
  induction steps generalizing root allocs with
  | zero => exact ⟨0,root,allocs,rfl,rep,.inl ⟨rfl,rfl⟩⟩
  | succ steps ih =>
    cases allocs with
    | nil => exact ⟨-ENOMEM,root,[],rfl,rep,.inr rfl⟩
    | cons answer rest =>
      cases answer with
      | false => exact ⟨-ENOMEM,root,[],rfl,rep,.inr rfl⟩
      | true =>
        have height : (RadixTree.raise root).height = root.height + 1 := rfl
        have grown := ih rest (rep.raise filled (by omega)) (fun null => nomatch null) (by omega)
        obtain ⟨code,r,rest',eq,rep',ends⟩ := grown
        refine ⟨code,r,rest',eq,rep',?_⟩
        rcases ends with ⟨done,same⟩ | failed
        · exact .inl ⟨done,by omega⟩
        · exact .inr failed

theorem Represents.extend (allocs : List Bool) (rep : Represents m root) (index32 : index < 2^32)
    (beyond : ¬Under root.height 0 index) :
    ∃ code r rest, radixTreeExtend root index allocs = (code,r,rest) ∧ Represents m r ∧
      (code = 0 ∧ Under r.height 0 index ∨ code = -ENOMEM) := by
  have low : root.height + 1 ≤ RADIX_TREE_MAX_PATH := by
    refine lt_of_le_of_ne rep.height fun top => ?_
    have fits := heightForFits 0 index32 (le_of_eq top) (by omega)
    exact beyond fits.2.2
  obtain ⟨more,small,fits⟩ := heightForFits RADIX_TREE_MAX_PATH index32 low (by omega)
  rw [radixTreeExtend]
  cases null : root.rnode.isNull with
  | true =>
    have empty := isNullIff.mp null
    have absent : ∀ k, m.item k = none := by
      intro k
      by_cases under : Under root.height 0 k
      · exact (empty ▸ rep.holds).absent under
      · exact rep.outside k under
    refine ⟨0,_,_,rfl,⟨rep.proper,small,?_,fun k _ => absent k,rep.bounded,rep.tags⟩,.inl ⟨rfl,fits⟩⟩
    rw [empty]
    exact holdsNull fun k _ => absent k
  | false =>
    have filled : root.rnode ≠ .null := fun e => by simp [e,Slot.isNull] at null
    have steps : root.height + (heightFor index RADIX_TREE_MAX_PATH (root.height + 1) - root.height) =
        heightFor index RADIX_TREE_MAX_PATH (root.height + 1) := by omega
    obtain ⟨code,r,rest,eq,rep',ends⟩ := rep.extendLoop allocs filled (steps ▸ small)
    refine ⟨code,r,rest,eq,rep',?_⟩
    rcases ends with ⟨done,height⟩ | failed
    · exact .inl ⟨done,by rw [height,steps]; exact fits⟩
    · exact .inr failed

theorem Represents.fill (x : Item) (allocs : List Bool) (rep : Represents m root) (index32 : index < 2^32)
    (under : Under root.height 0 index) :
    ∃ code s m', insertLoop index x root.height root.rnode allocs = some (code,s) ∧ Inserted m index x code m' ∧
      Represents m' { root with rnode := s } ∧
        ¬(root.height = 0 ∧ code = 0 ∧ (root.tags 0 || root.tags 1) = true) := by
  obtain ⟨code,s,m',eq,result,holds,-⟩ := insertLoopHolds allocs rep.proper rep.holds under
  refine ⟨code,s,m',eq,result,⟨result.proper rep.proper,rep.height,holds,fun k beyond => ?_,fun k present => ?_,
    fun tag => ?_⟩,?_⟩
  · have other : k ≠ index := fun same => beyond (same ▸ under)
    rw [result.item other]
    exact rep.outside k beyond
  · by_cases own : k = index
    · exact own ▸ index32
    · exact rep.bounded k (result.item own ▸ present)
  · exact (rep.tags tag).trans (exists_congr fun k => by rw [result.tagged rep.proper k])
  · rintro ⟨zero,rfl,set⟩
    cases result with
    | done free =>
      have unset : ∀ tag, root.tags tag = false := by
        refine fun tag => eq_false_iff.mpr fun bit => ?_
        obtain ⟨k,tagged⟩ := (rep.tags tag).mp bit
        have present := rep.proper tag k tagged
        have first := rep.under present
        rw [zero,underZero] at first under
        exact present (first.trans under.symm ▸ free)
      simp [unset] at set

theorem Represents.insert (x : Item) (allocs : List Bool) (rep : Represents m root) (index32 : index < 2^32) :
    ∃ code r m', radixTreeInsert root index x allocs = some (code,r) ∧ Inserted m index x code m' ∧ Represents m' r := by
  have direct : x.isIndirectPtr = false := by simp [Item.isIndirectPtr,x.direct]
  rw [radixTreeInsert,direct,if_neg Bool.false_ne_true]
  by_cases under : Under root.height 0 index
  · have fits := mt (maxindexIff rep.height index32).mp (not_not.mpr under)
    obtain ⟨code,s,m',eq,result,rep',noBug⟩ := rep.fill x allocs index32 under
    refine ⟨code,_,m',?_,result,rep'⟩
    simp only [if_neg fits,ne_eq,not_true_eq_false,if_false,eq]
    rw [if_neg noBug]
  · obtain ⟨grown,r,rest,extended,grownRep,ends⟩ := rep.extend allocs index32 under
    simp only [if_pos ((maxindexIff rep.height index32).mpr under),extended]
    rcases ends with ⟨rfl,high⟩ | rfl
    · obtain ⟨code,s,m',eq,result,rep',noBug⟩ := grownRep.fill x rest index32 high
      refine ⟨code,_,m',?_,result,rep'⟩
      simp only [ne_eq,not_true_eq_false,if_false,eq]
      rw [if_neg noBug]
    · exact ⟨-ENOMEM,r,m,rfl,.noMemory (rep.outside index under),grownRep⟩

end EclairKernel.RadixTree
