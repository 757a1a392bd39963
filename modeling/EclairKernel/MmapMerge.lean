import EclairKernel.MmapShape

/-! vma_adjust, case by case: the VMA takes in its successor or its two successors, moves the
boundary to its successor up or down, or keeps clear of it; and split_vma, which puts the new
VMA beside the old one. -/
namespace EclairKernel.Mmap
open Function List Pointers Nat Rbtree

variable {mm mm' : Mm} {l left right low high : List Nat} {addr start stop x v n k pgoff a}

theorem shapeSet (shape : Shape mm l) (x : Nat) (a : Area) : Shape (setVma mm x a) l := by
  obtain ⟨walk,tree,balanced,count,cache,old,once⟩ := shape
  exact ⟨walk,tree,balanced,count,cache,old,once⟩

theorem shapeNew (shape : Shape mm l) (a : Area) : Shape (newVma mm a) l := by
  obtain ⟨walk,tree,balanced,count,cache,old,once⟩ := shape
  exact ⟨walk,tree,balanced,count,cache,fun x mem => lt_succ_of_lt (old x mem),once⟩

theorem freshOutside (shape : Shape mm l) : mm.fresh ∉ l := fun mem => lt_irrefl _ (shape.old _ mem)

theorem areasSame (same : ∀ x ∈ l, mm'.vma x = mm.vma x) : areas mm' l = areas mm l := map_congr_left same

theorem areasUpdate (vma : mm'.vma = update mm.vma x a) (outside : x ∉ l) : areas mm' l = areas mm l :=
  areasSame fun y mem => by rw [vma,update_of_ne fun same : y = x => outside (same ▸ mem)]

theorem areasAppend : areas mm (left ++ right) = areas mm left ++ areas mm right := map_append
theorem areasMiddle : areas mm (left ++ v::right) = areas mm left ++ mm.vma v::areas mm right := map_append

theorem middleOutside (once : (left ++ v::right).Nodup) : v ∉ left ++ right := (nodup_cons.mp (nodup_middle.mp once)).1

theorem eraseMiddle {t} (balanced : RedBlack t) (once : (left ++ x::right).Nodup)
    (tree : inorder t = left ++ x::right) :
    ∃ t', eraseElem x t = some t' ∧ RedBlack t' ∧ inorder t' = left ++ right := by
  have outside : x ∉ left := fun mem => middleOutside once (mem_append_left _ mem)
  obtain ⟨t',found,redBlack,order⟩ := eraseElemSpec balanced (tree ▸ once) (x := x) (by simp [tree])
  rw [tree,erase_append_right _ outside,erase_cons_head] at order
  exact ⟨t',found,redBlack,order⟩

theorem areasTwo {a b} (once : (left ++ v::n::right).Nodup) (vma : mm'.vma = update (update mm.vma v a) n b) :
    areas mm' left = areas mm left ∧ mm'.vma v = a ∧ mm'.vma n = b ∧ areas mm' right = areas mm right := by
  have outside := middleOutside once
  have outside' := middleOutside (show ((left ++ [v]) ++ n::right).Nodup by simpa using once)
  simp only [mem_append,mem_cons,not_or] at outside outside'
  have same : ∀ x, x ≠ v → x ≠ n → mm'.vma x = mm.vma x := fun x other other' => by
    rw [vma,update_of_ne other',update_of_ne other]
  refine ⟨areasSame fun x mem => same x (fun h => outside.1 (h ▸ mem)) fun h => outside'.1.1 (h ▸ mem),?_,
    by rw [vma,update_self],areasSame fun x mem => same x (fun h => outside.2.2 (h ▸ mem)) fun h => outside'.2 (h ▸ mem)⟩
  rw [vma,update_of_ne outside.2.1,update_self]

theorem wholePages (page : PAGE_SIZE ∣ start) (page' : PAGE_SIZE ∣ stop) :
    (start - stop) >>> PAGE_SHIFT <<< PAGE_SHIFT = start - stop := by
  rw [shiftRight_eq_div_pow,shiftLeft_eq]
  exact Nat.div_mul_cancel (Nat.dvd_sub page page')

section
variable (shape : Shape mm (left ++ v::n::right))
include shape

theorem vmaUnlinkSpec :
    ∃ mm', vmaUnlink mm n v = some mm' ∧ Shape (setCount mm' (mm'.mapCount - 1)) (left ++ v::right) ∧ mm'.vma = mm.vma := by
  obtain ⟨walk,tree,balanced,count,cache,old,once⟩ := shape
  have shift : left ++ v::n::right = (left ++ [v]) ++ n::right := by simp
  have back : left ++ v::right = (left ++ [v]) ++ right := by simp
  obtain ⟨t,found,redBlack,order⟩ := eraseMiddle balanced (shift ▸ once) (shift ▸ tree)
  rw [← back] at order
  have next := walkNext (shift ▸ walk)
  have cut : Walk (update mm.vmNext v (mm.vmNext n)) mm.mmap (left ++ v::right) none := by
    rw [next]
    exact cutAfter (show (left ++ v::([n] ++ right)).Nodup from once) walk
  have members : ∀ x, x ∈ left ++ v::n::right ↔ x = n ∨ x ∈ left ++ v::right := fun x => by
    simp only [mem_append,mem_cons]
    tauto
  have old' : ∀ x ∈ left ++ v::right, x < mm.fresh := fun x mem => old x ((members x).mpr (.inr mem))
  have fewer : mm.mapCount - 1 = (left ++ v::right).length := by
    rw [count]
    simp
  have once' := back ▸ (nodup_cons.mp (nodup_middle.mp (shift ▸ once))).2
  simp only [vmaUnlink,found,setRb_mmapCache]
  split
  · refine ⟨_,rfl,⟨cut,order,redBlack,fewer,fun c known => ?_,old',once'⟩,rfl⟩
    cases known
    simp
  · rename_i other
    refine ⟨_,rfl,⟨cut,order,redBlack,fewer,fun c known => ?_,old',once'⟩,rfl⟩
    exact ((members c).mp (cache c known)).resolve_left fun same => other (same ▸ known)

theorem removeNextRound (start stop : Nat) (pgoff : BitVec 32) (k : Nat) :
    ∃ mm', Shape mm' (left ++ v::right) ∧ mm'.vma = update mm.vma v (moveArea (mm.vma v) start (mm.vma n).vmEnd pgoff) ∧
      removeNext mm v start stop pgoff (k + 1) =
        if stop > (mm.vma n).vmEnd then removeNext mm' v start (mm.vma n).vmEnd pgoff k else some mm' := by
  have next := walkNext shape.walk
  obtain ⟨mm',unlinked,shape',vma⟩ := vmaUnlinkSpec (shapeSet shape v (moveArea (mm.vma v) start (mm.vma n).vmEnd pgoff))
  refine ⟨_,shape',vma,?_⟩
  simp [removeNext,next,unlinked]

theorem adjustRemove (start : Nat) (pgoff : BitVec 32) :
    ∃ mm', vmaAdjust mm v start (mm.vma n).vmEnd pgoff none = some mm' ∧ Shape mm' (left ++ v::right) ∧
      mm'.vma = update mm.vma v (moveArea (mm.vma v) start (mm.vma n).vmEnd pgoff) := by
  have next := walkNext shape.walk
  obtain ⟨k,some_⟩ : ∃ k, mm.mapCount = k + 1 := ⟨mm.mapCount - 1,by rw [shape.count]; simp; omega⟩
  obtain ⟨mm',shape',vma,round⟩ := removeNextRound shape start (mm.vma n).vmEnd pgoff k
  refine ⟨mm',?_,shape',vma⟩
  simp [vmaAdjust,next,some_,round]

theorem adjustUp (start : Nat) (pgoff : BitVec 32) (low : (mm.vma n).vmStart < stop)
    (high : stop < (mm.vma n).vmEnd) (page : PAGE_SIZE ∣ stop) (page' : PAGE_SIZE ∣ (mm.vma n).vmStart) :
    ∃ mm', vmaAdjust mm v start stop pgoff none = some mm' ∧ Shape mm' (left ++ v::n::right) ∧
      mm'.vma = update (update mm.vma v (moveArea (mm.vma v) start stop pgoff)) n (highPart (mm.vma n) stop) := by
  have next : mm.vmNext v = some n := walkNext shape.walk
  refine ⟨_,?_,shapeSet (shapeSet shape v _) n (highPart (mm.vma n) stop),rfl⟩
  have inside := not_le.mpr high
  simp only [vmaAdjust,next,inside,low,wholePages page page',Nat.add_sub_cancel' low.le]
  rfl

theorem adjustDown (start : Nat) (pgoff : BitVec 32) (touch : (mm.vma v).vmEnd = (mm.vma n).vmStart)
    (some_ : (mm.vma n).vmStart < (mm.vma n).vmEnd) (low : stop < (mm.vma v).vmEnd) (page : PAGE_SIZE ∣ stop)
    (page' : PAGE_SIZE ∣ (mm.vma v).vmEnd) :
    ∃ mm', vmaAdjust mm v start stop pgoff none = some mm' ∧ Shape mm' (left ++ v::n::right) ∧
      mm'.vma = update (update mm.vma v (moveArea (mm.vma v) start stop pgoff)) n
        (moveArea (mm.vma n) stop (mm.vma n).vmEnd ((mm.vma n).vmPgoff - pgoffOf ((mm.vma v).vmEnd - stop))) := by
  have next : mm.vmNext v = some n := walkNext shape.walk
  refine ⟨_,?_,shapeSet (shapeSet shape v _) n _,rfl⟩
  have inside : ¬ stop ≥ (mm.vma n).vmEnd := by omega
  have below : ¬ stop > (mm.vma n).vmStart := by omega
  have back : (mm.vma n).vmStart - ((mm.vma v).vmEnd - stop) = stop := by omega
  simp only [vmaAdjust,next,inside,below,low,wholePages page' page,back]
  rfl

end

theorem adjustRemoveTwo (shape : Shape mm (left ++ v::n::x::right)) (start : Nat) (pgoff : BitVec 32)
    (order : (mm.vma n).vmEnd < (mm.vma x).vmEnd) :
    ∃ mm', vmaAdjust mm v start (mm.vma x).vmEnd pgoff none = some mm' ∧ Shape mm' (left ++ v::right) ∧
      mm'.vma = update mm.vma v (moveArea (mm.vma v) start (mm.vma x).vmEnd pgoff) := by
  have next : mm.vmNext v = some n := walkNext shape.walk
  have other : x ≠ v := fun same => middleOutside shape.once (by simp [← same])
  obtain ⟨k,some_⟩ : ∃ k, mm.mapCount = k + 2 := ⟨mm.mapCount - 2,by rw [shape.count]; simp; omega⟩
  obtain ⟨mm1,shape1,vma1,round1⟩ := removeNextRound shape start (mm.vma x).vmEnd pgoff (k + 1)
  obtain ⟨mm2,shape2,vma2,round2⟩ := removeNextRound shape1 start (mm.vma n).vmEnd pgoff k
  have same : mm1.vma x = mm.vma x := by rw [vma1,update_of_ne other]
  rw [same] at vma2 round2
  refine ⟨mm2,?_,shape2,?_⟩
  · have less := Nat.not_lt.mpr order.le
    simp only [vmaAdjust,next,some_,order.le,if_true,round1,order,round2,less,if_false]
  · rw [vma2,vma1,update_idem,update_self]
    rfl

theorem adjustClear (shape : Shape mm (left ++ v::right)) (start : Nat) (pgoff : BitVec 32) (grows : (mm.vma v).vmEnd ≤ stop)
    (clear : ∀ n ∈ right, stop ≤ (mm.vma n).vmStart ∧ (mm.vma n).vmStart < (mm.vma n).vmEnd) :
    ∃ mm', vmaAdjust mm v start stop pgoff none = some mm' ∧ Shape mm' (left ++ v::right) ∧
      mm'.vma = update mm.vma v (moveArea (mm.vma v) start stop pgoff) := by
  have next := walkNext shape.walk
  refine ⟨_,?_,shapeSet shape v (moveArea (mm.vma v) start stop pgoff),rfl⟩
  cases right with
  | nil => simp only [vmaAdjust,next,head?_nil]
  | cons n rest =>
    obtain ⟨beyond,some_⟩ := clear n (by simp)
    have inside : ¬ stop ≥ (mm.vma n).vmEnd := by omega
    have below : ¬ stop > (mm.vma n).vmStart := by omega
    have shrinks : ¬ stop < (mm.vma v).vmEnd := by omega
    simp [vmaAdjust,next,inside,below,shrinks]

theorem insertSpec (well : Well mm (low ++ high)) (new : x ∉ low ++ high) (known : x < mm.fresh) (formed : Formed (mm.vma x))
    (below : ∀ y ∈ low, (mm.vma y).vmEnd ≤ (mm.vma x).vmStart) (above : ∀ y ∈ high, (mm.vma x).vmEnd ≤ (mm.vma y).vmStart) :
    Gap mm (mm.vma x).vmStart (findVmaPrepare mm (mm.vma x).vmStart) low high ∧
      ∃ mm', insertVmStruct mm x = some mm' ∧ Shape mm' (low ++ x::high) ∧ mm'.vma = mm.vma := by
  have some_ := formed.some_
  have ends : ∀ y ∈ high, (mm.vma y).vmStart < (mm.vma y).vmEnd := fun y mem =>
    (orderedFormed well.ordered (mem_append_right low mem)).some_
  have cut : Cut mm (mm.vma x).vmStart low high := ⟨below,fun y mem => by
    have := above y mem
    have := ends y mem
    omega⟩
  have gap : Gap mm (mm.vma x).vmStart (findVmaPrepare mm (mm.vma x).vmStart) low high := by
    rcases prepareSpec well (mm.vma x).vmStart with ⟨y,mem,held⟩ | ⟨low',high',same,gap⟩
    · have inside := held.low
      have inside' := held.high
      rcases mem_append.mp mem with early | late
      · have := below y early
        omega
      · have := above y late
        omega
    · have cut' : Cut mm (mm.vma x).vmStart low' high' := ⟨gap.below,fun y mem => by
        have := gap.above y mem
        have := (orderedFormed well.ordered (same ▸ mem_append_right low' mem)).some_
        omega⟩
      obtain ⟨rfl,rfl⟩ := cutUnique cut cut' same
      exact gap
  obtain ⟨mm',linked,shape,vma⟩ := vmaLinkSpec well.shape gap new known
  refine ⟨gap,mm',?_,shape,vma⟩
  unfold insertVmStruct
  dsimp only
  split
  · rename_i y found
    have head : high.head? = some y := by rw [← gap.highIs,← gap.placed.vma,found]
    rw [if_neg (not_lt.mpr (above y (mem_of_head? head)))]
    exact linked
  · exact linked

theorem areasAround (vma : ∀ x ∈ left ++ right, mm'.vma x = mm.vma x) :
    areas mm' (left ++ v::right) = areas mm left ++ mm'.vma v::areas mm right := by
  rw [areasAppend,areasSame fun x mem => vma x (mem_append_left _ mem)]
  exact congrArg (areas mm left ++ mm'.vma v::·) (areasSame fun x mem => vma x (mem_append_right _ mem))

structure SplitAt (mm : Mm) (left : List Nat) (v : Nat) (right : List Nat) (addr : Nat) (newBelow : Bool) (mm' : Mm) : Prop where
  well : Well mm' (if newBelow then left ++ mm.fresh::v::right else left ++ v::mm.fresh::right)
  new : mm'.vma mm.fresh = if newBelow then lowPart (mm.vma v) addr else highPart (mm.vma v) addr
  own : mm'.vma v = if newBelow then highPart (mm.vma v) addr else lowPart (mm.vma v) addr
  same : ∀ x ∈ left ++ right, mm'.vma x = mm.vma x

theorem areasPair {y b c} (first : mm'.vma x = b) (second : mm'.vma y = c)
    (same : ∀ z ∈ left ++ right, mm'.vma z = mm.vma z) :
    areas mm' (left ++ x::y::right) = areas mm left ++ b::c::areas mm right := by
  have before_ := areasSame fun z mem => same z (mem_append_left _ mem)
  have after_ := areasSame fun z mem => same z (mem_append_right _ mem)
  rw [areasAppend,before_,← after_,← first,← second]
  rfl

theorem splitAreas (split_ : SplitAt mm left v right addr newBelow mm') :
    areas mm' (if newBelow then left ++ mm.fresh::v::right else left ++ v::mm.fresh::right) =
      areas mm left ++ lowPart (mm.vma v) addr::highPart (mm.vma v) addr::areas mm right := by
  obtain ⟨_,new,own,same⟩ := split_
  cases newBelow with
  | true => exact areasPair new own same
  | false => exact areasPair own new same

theorem splitPages (well : Well mm (left ++ v::right)) (inside : Inside (mm.vma v) addr)
    (split_ : SplitAt mm left v right addr newBelow mm') :
    pageAt (areas mm' (if newBelow then left ++ mm.fresh::v::right else left ++ v::mm.fresh::right)) =
      pageAt (areas mm (left ++ v::right)) := by
  have formed := orderedFormed well.ordered mem_append_cons_self
  funext b
  rw [splitAreas split_,areasMiddle,pageAppend,pageAppend,
    pageCons,pageCons,pageCons,← splitEntry formed inside,Option.or_assoc]

theorem splitKept (shape : Shape mm (left ++ v::right)) (new moved : Area) :
    ∀ y ∈ left ++ right, (setVma (newVma mm new) v moved).vma y = mm.vma y := fun y mem => by
  have notNew : y ≠ mm.fresh := fun same => freshOutside shape (by simp only [← same,mem_append,mem_cons] at mem ⊢; tauto)
  have notOld : y ≠ v := fun same => middleOutside shape.once (same ▸ mem)
  rw [setVma_vma,update_of_ne notOld,newVma_vma,update_of_ne notNew]

theorem notFresh (shape : Shape mm (left ++ v::right)) : v ≠ mm.fresh := fun same => freshOutside shape (by simp [← same])

theorem splitLink {new moved} (well : Well mm (left ++ v::right)) (here : left ++ v::right = low ++ high)
    (ordered : Ordered (areas mm left ++ moved::areas mm right)) (formed : Formed new)
    (lefts : ∀ y ∈ left, (mm.vma y).vmEnd ≤ new.vmStart) (rights : ∀ y ∈ right, new.vmEnd ≤ (mm.vma y).vmStart)
    (below : ∀ y ∈ low, y ∈ left ∨ y = v ∧ moved.vmEnd ≤ new.vmStart)
    (above : ∀ y ∈ high, y ∈ right ∨ y = v ∧ new.vmEnd ≤ moved.vmStart) :
    ∃ mm', insertVmStruct (setVma (newVma mm new) v moved) mm.fresh = some mm' ∧ Shape mm' (low ++ mm.fresh::high) ∧
      mm'.vma mm.fresh = new ∧ mm'.vma v = moved ∧ ∀ y ∈ left ++ right, mm'.vma y = mm.vma y := by
  have outside := freshOutside well.shape
  have rest := splitKept well.shape new moved
  have still : Well (setVma (newVma mm new) v moved) (low ++ high) := by
    refine ⟨here ▸ shapeSet (shapeNew well.shape new) v moved,?_⟩
    rw [← here,areasAround rest]
    simpa using ordered
  have own : (setVma (newVma mm new) v moved).vma mm.fresh = new := by
    rw [setVma_vma,update_of_ne (notFresh well.shape).symm,newVma_vma,update_self]
  have old : (setVma (newVma mm new) v moved).vma v = moved := update_self ..
  obtain ⟨_,mm',inserted,shape,vma⟩ := insertSpec still (here ▸ outside) (lt_succ_self _) (by rwa [own])
    (fun y mem => by
      rw [own]
      rcases below y mem with early | ⟨rfl,apart⟩
      · rw [rest y (mem_append_left _ early)]
        exact lefts y early
      · rwa [old])
    fun y mem => by
      rw [own]
      rcases above y mem with late | ⟨rfl,apart⟩
      · rw [rest y (mem_append_right _ late)]
        exact rights y late
      · rwa [old]
  exact ⟨mm',inserted,shape,vma ▸ own,by rw [vma,old],fun y mem => by rw [vma,rest y mem]⟩

section
variable (well : Well mm (left ++ v::right)) (inside : Inside (mm.vma v) addr)
include well inside

theorem splitOrders : Ordered (areas mm left ++ lowPart (mm.vma v) addr::highPart (mm.vma v) addr::areas mm right) ∧
      (∀ y ∈ left, (mm.vma y).vmEnd ≤ (mm.vma v).vmStart) ∧ ∀ y ∈ right, (mm.vma v).vmEnd ≤ (mm.vma y).vmStart := by
  have ordered := areasMiddle ▸ well.ordered
  obtain ⟨_,tail,across⟩ := pairwise_append.mp (orderedSorted well.ordered)
  exact ⟨orderedSplit ordered inside,fun y mem => across y mem v mem_cons_self,(pairwise_cons.mp tail).1⟩

theorem splitBelow :
    ∃ mm', insertVmStruct (setVma (newVma mm (lowPart (mm.vma v) addr)) v (highPart (mm.vma v) addr)) mm.fresh = some mm' ∧
      SplitAt mm left v right addr true mm' := by
  obtain ⟨both,lefts,rights⟩ := splitOrders well inside
  have formed := orderedFormed well.ordered mem_append_cons_self
  obtain ⟨mm',linked,shape,new,own,same⟩ := splitLink well rfl
    (orderedSub (List.Sublist.append_left (sublist_cons_self _ _) _) both) (formedLow formed inside) lefts
    (fun y mem => inside.high.le.trans (rights y mem)) (fun y => .inl)
    fun y mem => (mem_cons.mp mem).symm.imp_right fun same => ⟨same,le_refl addr⟩
  refine ⟨mm',linked,⟨⟨shape,?_⟩,new,own,same⟩⟩
  rw [if_pos rfl,areasPair new own same]
  exact both

theorem splitAbove :
    ∃ mm', insertVmStruct (setVma (newVma mm (highPart (mm.vma v) addr)) v (lowPart (mm.vma v) addr)) mm.fresh = some mm' ∧
      SplitAt mm left v right addr false mm' := by
  obtain ⟨both,lefts,rights⟩ := splitOrders well inside
  have formed := orderedFormed well.ordered mem_append_cons_self
  obtain ⟨mm',linked,shape,new,own,same⟩ := splitLink well (by simp)
    (orderedSub (List.Sublist.append_left ((sublist_cons_self _ _).cons_cons _) _) both) (formedHigh formed inside)
    (fun y mem => (lefts y mem).trans inside.low.le) rights
    (fun y mem => (mem_append.mp mem).imp_right fun own => ⟨mem_singleton.mp own,le_refl addr⟩) fun y => .inl
  refine ⟨mm',linked,⟨⟨by simpa using shape,?_⟩,new,own,same⟩⟩
  rw [if_neg Bool.false_ne_true,areasPair own new same]
  exact both

end

theorem splitVmaSpec (env : Env) (k : Nat) (well : Well mm (left ++ v::right)) (newBelow : Bool) (inside : Inside (mm.vma v) addr) :
    (∃ e, e ≠ 0 ∧ splitVma env k mm v addr newBelow = some (e,mm)) ∨
    ∃ mm', splitVma env k mm v addr newBelow = some (0,mm') ∧ SplitAt mm left v right addr newBelow mm' := by
  by_cases full : mm.mapCount ≥ env.maxMapCount
  · exact .inl ⟨-ENOMEM,by decide,by simp [splitVma,full]⟩
  by_cases alloc : env.alloc k
  swap
  · exact .inl ⟨-ENOMEM,by decide,by simp [splitVma,full,alloc]⟩
  by_cases policy : env.policy k
  swap
  · exact .inl ⟨-ENOMEM,by decide,by simp [splitVma,full,alloc,policy]⟩
  right
  have own : ∀ new : Area, (newVma mm new).vma v = mm.vma v := fun new => update_of_ne (notFresh well.shape) _ _
  cases newBelow with
  | true =>
    obtain ⟨mm',linked,after_⟩ := splitBelow well inside
    refine ⟨mm',?_,after_⟩
    simp only [splitVma,full,alloc,policy,vmaAdjust,own,if_true,if_false,Bool.not_true,Bool.false_eq_true]
    exact congrArg (Option.map (0,·)) linked
  | false =>
    obtain ⟨mm',linked,after_⟩ := splitAbove well inside
    refine ⟨mm',?_,after_⟩
    simp only [splitVma,full,alloc,policy,vmaAdjust,own,if_false,Bool.not_true,Bool.false_eq_true]
    exact congrArg (Option.map (0,·)) linked

/-! vma_merge where its callers use it: for a range that begins inside a VMA, at its start or
is the VMA itself, and for a range no VMA has. Whatever is merged, the areas are those of the
request taken in by its neighbours. -/

open Option

/-- The request is refused and nothing changes, or it is one of the shapes of Joined once the
VMA that is returned has its flags. -/
def MergeOut (out : Option (Option Nat × Mm)) (mm : Mm) (left : List Area) (mid : Area) (right : List Area) : Prop :=
  out = some (none,mm) ∨ ∃ m mm' l, out = some (some m,mm') ∧ Shape mm' l ∧ m ∈ l ∧
    Joined mid left right (areas (setFlags mm' m mid.vmFlags) l)

variable {env prev area next source p m mid}

theorem mergeableSame (h : isMergeableVma env mm v file flags = true) :
    (mm.vma v).vmFlags &&& ~~~VM_CAN_NONLINEAR = flags &&& ~~~VM_CAN_NONLINEAR ∧ (mm.vma v).vmFile = file := by
  unfold isMergeableVma at h
  split at h <;> try contradiction
  split at h <;> try contradiction
  exact ⟨sameFlags (not_not.mp ‹_›),not_not.mp ‹_›⟩

theorem extendsPrevJoins (h : extendsPrev env mm mid.vmStart mid.vmFlags source mid.vmFile mid.vmPgoff p = true) :
    Joinable (mm.vma p) mid := by
  simp only [extendsPrev,canVmaMergeAfter,Bool.and_eq_true,decide_eq_true_eq] at h
  obtain ⟨⟨touch,_⟩,⟨mergeable,_⟩,pgoff⟩ := h
  obtain ⟨flags,file⟩ := mergeableSame mergeable
  exact ⟨touch,flags,file,pgoff⟩

theorem extendsNextJoins
    (h : extendsNext env mm mid.vmEnd mid.vmFlags source mid.vmFile (mid.vmPgoff + pgoffOf (mid.vmEnd - mid.vmStart)) n = true) :
    Joinable mid (mm.vma n) := by
  simp only [extendsNext,canVmaMergeBefore,Bool.and_eq_true,decide_eq_true_eq] at h
  obtain ⟨⟨touch,_⟩,⟨mergeable,_⟩,pgoff⟩ := h
  obtain ⟨flags,file⟩ := mergeableSame mergeable
  exact ⟨touch,flags.symm,file.symm,pgoff.symm⟩

def mergeRequest (env : Env) (mm : Mm) (prev source : Option Nat) (mid : Area) : Option (Option Nat × Mm) :=
  vmaMerge env mm prev mid.vmStart mid.vmEnd mid.vmFlags source mid.vmFile mid.vmPgoff

variable {before_ after_ out}

theorem mergeCases (areaIs : nextOf mm prev = area)
    (nextIs : (area.bind fun a => if (mm.vma a).vmEnd = mid.vmEnd then mm.vmNext a else some a) = next)
    (both : ∀ p n, prev = some p → next = some n → Joinable (mm.vma p) mid → Joinable mid (mm.vma n) →
      MergeOut ((vmaAdjust mm p (mm.vma p).vmStart (mm.vma n).vmEnd (mm.vma p).vmPgoff none).map (some p,·)) mm before_ mid after_)
    (first : ∀ p, prev = some p → Joinable (mm.vma p) mid →
      MergeOut ((vmaAdjust mm p (mm.vma p).vmStart mid.vmEnd (mm.vma p).vmPgoff none).map (some p,·)) mm before_ mid after_)
    (down : ∀ p n, prev = some p → next = some n → mid.vmStart < (mm.vma p).vmEnd → Joinable mid (mm.vma n) →
      MergeOut ((vmaAdjust mm p (mm.vma p).vmStart mid.vmStart (mm.vma p).vmPgoff none).map (area,·)) mm before_ mid after_)
    (last : ∀ a n, area = some a → next = some n → (∀ p, prev = some p → (mm.vma p).vmEnd ≤ mid.vmStart) → Joinable mid (mm.vma n) →
      MergeOut ((vmaAdjust mm a mid.vmStart (mm.vma n).vmEnd ((mm.vma n).vmPgoff - pgoffOf (mid.vmEnd - mid.vmStart)) none).map
        (some a,·)) mm before_ mid after_) :
    MergeOut (mergeRequest env mm prev source mid) mm before_ mid after_ := by
  unfold mergeRequest vmaMerge
  dsimp only
  split
  · exact .inl rfl
  rw [areaIs,nextIs]
  split
  · rename_i p found
    obtain ⟨same,joins⟩ := filter_eq_some_iff.mp found
    split
    · rename_i n found'
      obtain ⟨found'',_⟩ := filter_eq_some_iff.mp found'
      obtain ⟨same',joins'⟩ := filter_eq_some_iff.mp found''
      exact both p n same same' (extendsPrevJoins joins) (extendsNextJoins joins')
    · exact first p same (extendsPrevJoins joins)
  · split
    · exact .inl rfl
    · rename_i n found
      obtain ⟨same,joins⟩ := filter_eq_some_iff.mp found
      split
      · rename_i p found'
        obtain ⟨same',inside⟩ := filter_eq_some_iff.mp found'
        exact down p n same' same (of_decide_eq_true inside) (extendsNextJoins joins)
      rename_i outside
      have clear : ∀ p, prev = some p → (mm.vma p).vmEnd ≤ mid.vmStart := fun p same' => by
        have := filter_eq_none_iff.mp outside p same'
        simpa using this
      cases area with
      | none => cases nextIs.trans same
      | some a => exact last a n rfl same clear (extendsNextJoins joins)

theorem mergeDone (adjusted : out = some mm') (shape : Shape mm' (left ++ m::right))
    (taken : Joined mid before_ after_ (areas mm' left ++ withFlags (mm'.vma m) mid.vmFlags::areas mm' right)) :
    MergeOut (out.map (some m,·)) mm before_ mid after_ := by
  have outside := middleOutside shape.once
  refine .inr ⟨m,mm',_,by rw [adjusted,map_some],shape,by simp,?_⟩
  rw [areasAround fun x mem => update_of_ne (fun same : x = m => outside (same ▸ mem)) _ _]
  simpa [setFlags,withFlags] using taken

theorem mergeOne {a}
    (adjusted : ∃ mm', out = some mm' ∧ Shape mm' (left ++ m::right) ∧ mm'.vma = update mm.vma m a)
    (taken : Joined mid before_ after_ (areas mm left ++ withFlags a mid.vmFlags::areas mm right)) :
    MergeOut (out.map (some m,·)) mm before_ mid after_ := by
  obtain ⟨mm',adjusted,shape,vma⟩ := adjusted
  have outside := middleOutside shape.once
  simp only [mem_append,not_or] at outside
  refine mergeDone adjusted shape ?_
  rw [areasUpdate vma outside.1,areasUpdate vma outside.2,vma,update_self]
  exact taken

theorem lastIs (h : left.getLast? = some p) : ∃ front, left = front ++ [p] := getLast?_eq_some_iff.mp h

theorem firstIs (h : right.head? = some n) : ∃ rest, right = n::rest := head?_eq_some_iff.mp h

theorem joinedBack {a b} (joinable : Joinable mid a) (file : b.vmFile = mid.vmFile) :
    withFlags (moveArea b mid.vmStart a.vmEnd (a.vmPgoff - pgoffOf (mid.vmEnd - mid.vmStart))) mid.vmFlags = joined mid a := by
  simp [← joinable.pgoff,withFlags,moveArea,joined,file]

theorem nextIsHead (apart : ∀ n, right.head? = some n → (mm.vma n).vmEnd ≠ stop) :
    (right.head?.bind fun a => if (mm.vma a).vmEnd = stop then mm.vmNext a else some a) = right.head? := by
  cases right with
  | nil => rfl
  | cons n rest => simp [apart n rfl]

theorem mergeHole (well : Well mm (low ++ high)) (some_ : mid.vmStart < mid.vmEnd) (below : ∀ x ∈ low, (mm.vma x).vmEnd ≤ mid.vmStart)
    (above : ∀ x ∈ high, mid.vmEnd ≤ (mm.vma x).vmStart) :
    MergeOut (mergeRequest env mm low.getLast? source mid) mm (areas mm low) mid (areas mm high) := by
  have shape := well.shape
  have formed : ∀ x ∈ low ++ high, (mm.vma x).vmStart < (mm.vma x).vmEnd := fun x mem => (orderedFormed well.ordered mem).some_
  have apart (n : Nat) (head : high.head? = some n) : (mm.vma n).vmEnd ≠ mid.vmEnd := by
    have := above n (mem_of_head? head)
    have := formed n (mem_append_right _ (mem_of_head? head))
    omega
  refine mergeCases (nextOfSpec shape) (nextIsHead apart) (fun p n prev next joins joins' => ?_) (fun p prev joins => ?_)
    (fun p n prev _ inside _ => ?_) fun a n area next _ joins => ?_
  · obtain ⟨front,rfl⟩ := lastIs prev
    obtain ⟨rest,rfl⟩ := firstIs next
    refine mergeOne (adjustRemove (show Shape mm (front ++ p::n::rest) by simpa using shape) _ _) ?_
    rw [areasAppend]
    exact .both joins joins'
  · obtain ⟨front,rfl⟩ := lastIs prev
    refine mergeOne (adjustClear (show Shape mm (front ++ p::high) by simpa using shape) _ _
      ((below p (by simp)).trans some_.le) fun n mem => ⟨above n mem,formed n (mem_append_right _ mem)⟩) ?_
    rw [areasAppend]
    exact .before joins
  · obtain ⟨front,rfl⟩ := lastIs prev
    have := below p (by simp)
    omega
  · obtain rfl := some.inj (area.symm.trans next)
    obtain ⟨rest,rfl⟩ := firstIs next
    obtain ⟨_,tail,_⟩ := pairwise_append.mp (orderedSorted well.ordered)
    refine mergeOne (adjustClear shape _ _ le_rfl fun x mem => ⟨(pairwise_cons.mp tail).1 x mem,formed x (by simp [mem])⟩) ?_
    rw [joinedBack joins joins.file.symm]
    exact .after joins

variable (well : Well mm (left ++ v::right)) (flags : BitVec 32)
include well flags

theorem mergeWhole :
    MergeOut (mergeRequest env mm left.getLast? source (withFlags (mm.vma v) flags)) mm (areas mm left) (withFlags (mm.vma v) flags)
      (areas mm right) := by
  have shape := well.shape
  have formed : ∀ x ∈ left ++ v::right, (mm.vma x).vmStart < (mm.vma x).vmEnd := fun x mem => (orderedFormed well.ordered mem).some_
  have next := walkNext shape.walk
  obtain ⟨_,tail,across⟩ := pairwise_append.mp (orderedSorted well.ordered)
  obtain ⟨onward,_⟩ := pairwise_cons.mp tail
  refine mergeCases (nextOfSpec shape) (show _ = right.head? by simp [withFlags,next])
    (fun p n prev next joins joins' => ?_) (fun p prev joins => ?_)
    (fun p n prev _ inside _ => ?_) fun a n area next _ joins => ?_
  · obtain ⟨front,rfl⟩ := lastIs prev
    obtain ⟨rest,rfl⟩ := firstIs next
    have shape : Shape mm (front ++ p::v::n::rest) := by simpa using shape
    have further : (mm.vma v).vmEnd < (mm.vma n).vmEnd := (onward n (by simp)).trans_lt (formed n (by simp))
    refine mergeOne (adjustRemoveTwo shape _ _ further) ?_
    rw [areasAppend]
    exact .both joins joins'
  · obtain ⟨front,rfl⟩ := lastIs prev
    refine mergeOne (adjustRemove (show Shape mm (front ++ p::v::right) by simpa using shape) _ _) ?_
    rw [areasAppend]
    exact .before joins
  · obtain ⟨front,rfl⟩ := lastIs prev
    exact absurd inside (not_lt.mpr (across p (by simp) v mem_cons_self))
  · cases area
    obtain ⟨rest,rfl⟩ := firstIs next
    refine mergeOne (adjustRemove shape _ _) ?_
    exact (joinedBack joins rfl) ▸ .after joins

theorem mergeStart (page : PAGE_SIZE ∣ stop) (low : (mm.vma v).vmStart < stop) (high : stop < (mm.vma v).vmEnd) :
    MergeOut (mergeRequest env mm left.getLast? source (withFlags (lowPart (mm.vma v) stop) flags)) mm (areas mm left)
      (withFlags (lowPart (mm.vma v) stop) flags) (highPart (mm.vma v) stop::areas mm right) := by
  have shape := well.shape
  have formed := orderedFormed well.ordered mem_append_cons_self
  obtain ⟨_,tail,across⟩ := pairwise_append.mp (orderedSorted well.ordered)
  have apart : ¬ Joinable (withFlags (lowPart (mm.vma v) stop) flags) (mm.vma v) := fun joins => low.ne' joins.touch
  refine mergeCases (nextOfSpec shape) (show _ = some v by simp [withFlags,lowPart,high.ne'])
    (fun p n prev next joins joins' => ?_) (fun p prev joins => ?_)
    (fun p n prev next inside joins => ?_) fun a n area next _ joins => ?_
  · cases next
    exact absurd joins' apart
  · obtain ⟨front,rfl⟩ := lastIs prev
    obtain ⟨mm',adjusted,shape',vma⟩ := adjustUp (show Shape mm (front ++ p::v::right) by simpa using shape) (mm.vma p).vmStart
      (mm.vma p).vmPgoff
      low high page formed.start
    obtain ⟨front_,own,here,right_⟩ := areasTwo shape'.once vma
    refine mergeDone adjusted shape' ?_
    rw [front_,own,areasAppend,show areas mm' (v::right) = mm'.vma v::areas mm' right from rfl,here,right_]
    exact .before joins
  · cases next
    exact absurd joins apart
  · cases next
    exact absurd joins apart

theorem mergeInner (page : PAGE_SIZE ∣ start) (some_ : start < stop) (high : stop ≤ (mm.vma v).vmEnd) :
    MergeOut (mergeRequest env mm (some v) source (withFlags (lowPart (highPart (mm.vma v) start) stop) flags)) mm
      (areas mm left ++ [lowPart (mm.vma v) start]) (withFlags (lowPart (highPart (mm.vma v) start) stop) flags)
      (overPart (highPart (mm.vma v) start) stop ++ areas mm right) := by
  have shape := well.shape
  have formed : ∀ x ∈ left ++ v::right, Formed (mm.vma x) := fun x mem => orderedFormed well.ordered mem
  have area := walkNext shape.walk
  obtain ⟨_,tail,_⟩ := pairwise_append.mp (orderedSorted well.ordered)
  obtain ⟨onward,_⟩ := pairwise_cons.mp tail
  have apart : ¬ Joinable (mm.vma v) (withFlags (lowPart (highPart (mm.vma v) start) stop) flags) := fun joins => by
    have touch : (mm.vma v).vmEnd = start := joins.touch
    omega
  have beyond (n : Nat) (head : right.head? = some n) : (mm.vma n).vmEnd ≠ stop := by
    have := onward n (mem_of_head? head)
    have := (formed n (by simp [mem_of_head? head])).some_
    omega
  refine mergeCases area (nextIsHead beyond) (fun p n prev _ joins _ => ?_) (fun p prev joins => ?_)
    (fun p n prev next _ joins => ?_) fun a n _ _ clear _ => ?_
  · cases prev
    exact absurd joins apart
  · cases prev
    exact absurd joins apart
  · cases prev
    obtain ⟨rest,rfl⟩ := firstIs next
    have touch : stop = (mm.vma n).vmStart := joins.touch
    have reach := onward n mem_cons_self
    obtain rfl : stop = (mm.vma v).vmEnd := by omega
    have here := formed v (by simp)
    have nothing : overPart (highPart (mm.vma v) start) (mm.vma v).vmEnd = [] := if_neg (lt_irrefl _)
    obtain ⟨mm',adjusted,shape',vma⟩ := adjustDown shape (mm.vma v).vmStart (mm.vma v).vmPgoff touch (formed n (by simp)).some_
      some_ page here.stop
    obtain ⟨left_,own,moved,right_⟩ := areasTwo shape'.once vma
    refine mergeDone adjusted (show Shape mm' ((left ++ [v]) ++ n::rest) by simpa using shape') ?_
    rw [areasAppend,left_,right_,moved,show areas mm' [v] = [mm'.vma v] from rfl,own,nothing]
    exact (joinedBack joins joins.file.symm) ▸ .after joins
  · have reach : (mm.vma v).vmEnd ≤ start := clear v rfl
    omega

end EclairKernel.Mmap
