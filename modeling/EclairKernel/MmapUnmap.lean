import EclairKernel.MmapMerge

/-! mprotect_fixup changes the flags of its range and nothing else in the map, whichever
shape of vma_merge it takes, and when it cannot split the VMA it leaves the map alone. -/
namespace EclairKernel.Mmap
open List Pointers
open Rbtree (inorder)

def pagesOf (mm : Mm) : Nat → Option Entry := pageAt (areas mm (inorder mm.mmRb))
def WellFormed (mm : Mm) : Prop := Well mm (inorder mm.mmRb)

section
variable {env mm mm' l left right start stop v k newflags}

theorem wellFormed (well : Well mm l) : WellFormed mm ∧ pagesOf mm = pageAt (areas mm l) := by
  have tree := well.shape.tree
  unfold WellFormed pagesOf
  rw [tree]
  exact ⟨well,rfl⟩

variable {rest}

theorem orFailError {e} (failed : e ≠ 0) : orFail (some (e,mm)) rest = some (e,mm) :=
  if_pos failed
theorem orFailDone : orFail (some (0,mm)) rest = rest mm := rfl

theorem splitUnder (env : Env) (k : Nat) (well : Well mm (left ++ v::right)) (page : PAGE_SIZE ∣ start)
    (low : (mm.vma v).vmStart ≤ start) (high : start < (mm.vma v).vmEnd) :
    (∃ e, e ≠ 0 ∧ splitWhen (decide (start ≠ (mm.vma v).vmStart)) env k mm v start true = some (e,mm)) ∨
    ∃ mm' left', splitWhen (decide (start ≠ (mm.vma v).vmStart)) env k mm v start true = some (0,mm') ∧
      Shape mm' (left' ++ v::right) ∧ areas mm' left' = areas mm left ++ underPart (mm.vma v) start ∧
        mm'.vma v = highPart (mm.vma v) start ∧
      areas mm' right = areas mm right := by
  unfold splitWhen
  by_cases same : start = (mm.vma v).vmStart
  · refine .inr ⟨mm,left,by simp [same],well.shape,?_,?_,rfl⟩
    · rw [same,underPart,if_neg (lt_irrefl _),append_nil]
    · rw [same,highWhole]
  have low' : (mm.vma v).vmStart < start := by omega
  rw [if_pos (decide_eq_true same)]
  rcases splitVmaSpec env k well true ⟨page,low',high⟩ with failed | ⟨mm',done,split_⟩
  · exact .inl failed
  refine .inr ⟨mm',left ++ [mm.fresh],done,by simpa using split_.well.shape,?_,split_.own,areasSame fun x mem =>
    split_.same x (mem_append_right _ mem)⟩
  rw [areasAppend,areasSame fun x mem => split_.same x (mem_append_left _ mem),underPart,if_pos low']
  exact congrArg (areas mm left ++ [·]) split_.new

theorem splitOver (env : Env) (k : Nat) (well : Well mm (left ++ v::right)) (page : PAGE_SIZE ∣ stop) (low : (mm.vma v).vmStart < stop)
    (high : stop ≤ (mm.vma v).vmEnd) :
    (∃ e, e ≠ 0 ∧ splitWhen (decide (stop ≠ (mm.vma v).vmEnd)) env k mm v stop false = some (e,mm)) ∨
    ∃ mm' right', splitWhen (decide (stop ≠ (mm.vma v).vmEnd)) env k mm v stop false = some (0,mm') ∧
      Shape mm' (left ++ v::right') ∧ areas mm' left = areas mm left ∧ mm'.vma v = lowPart (mm.vma v) stop ∧
      areas mm' right' = overPart (mm.vma v) stop ++ areas mm right := by
  unfold splitWhen
  by_cases same : stop = (mm.vma v).vmEnd
  · refine .inr ⟨mm,right,by simp [same],well.shape,rfl,by rw [same,lowWhole],?_⟩
    rw [same,overPart,if_neg (lt_irrefl _),nil_append]
  have high' : stop < (mm.vma v).vmEnd := by omega
  rw [if_pos (decide_eq_true same)]
  rcases splitVmaSpec env k well false ⟨page,low,high'⟩ with failed | ⟨mm',done,split_⟩
  · exact .inl failed
  refine .inr ⟨mm',mm.fresh::right,done,split_.well.shape,areasSame fun x mem => split_.same x (mem_append_left _ mem),
    split_.own,?_⟩
  rw [overPart,if_pos high',← areasSame fun x mem => split_.same x (mem_append_right _ mem)]
  exact congrArg (·::areas mm' right) split_.new

theorem fixupSplitSpec (well : Well mm (left ++ v::right)) (within : Within (mm.vma v) start stop) (flags : BitVec 32) :
    (∃ e mm' l, e ≠ 0 ∧ fixupSplit env mm v start stop flags = some (e,mm') ∧ Well mm' l ∧
      pageAt (areas mm' l) = pageAt (areas mm (left ++ v::right))) ∨
    ∃ mm' l, fixupSplit env mm v start stop flags = some (0,mm') ∧ Shape mm' l ∧
      areas mm' l = areas mm left ++ carved (mm.vma v) start stop flags ++ areas mm right := by
  have ordered := areasMiddle ▸ well.ordered
  obtain ⟨page,page',low,some_,high⟩ := within
  have high' := some_.trans_le high
  unfold fixupSplit
  rcases splitUnder env 0 well page low high' with ⟨e,failed,first⟩ | ⟨mm1,left',first,shape1,areas1,own1,right1⟩
  · rw [first,orFailError failed]
    exact .inl ⟨e,mm,_,failed,rfl,well,rfl⟩
  have now : areas mm1 (left' ++ v::right) =
      areas mm left ++ underPart (mm.vma v) start ++ highPart (mm.vma v) start::areas mm right := by
    rw [areasAppend,areas1,← own1,← right1]
    rfl
  have well1 : Well mm1 (left' ++ v::right) := ⟨shape1,now ▸ orderedUnder ordered page low high'⟩
  have low1 : (mm1.vma v).vmStart < stop := by rwa [own1]
  have high1 : stop ≤ (mm1.vma v).vmEnd := by rwa [own1]
  rw [first,orFailDone]
  rcases splitOver env 1 well1 page' low1 high1 with ⟨e,failed,second⟩ | ⟨mm2,right',second,shape2,left2,own2,areas2⟩
  · rw [second]
    exact .inl ⟨e,mm1,_,failed,orFailError failed,well1,by rw [now,areasMiddle,underPages ordered page low high'.le]⟩
  rw [second]
  refine .inr ⟨setFlags mm2 v flags,_,rfl,shapeSet shape2 v _,?_⟩
  have outside := middleOutside shape2.once
  rw [areasAround fun x mem => Function.update_of_ne (fun same : x = v => outside (same ▸ mem)) _ _,left2,areas1,areas2,right1]
  simp [setFlags,carved,withFlags,own2,own1]

theorem sortedAfter (ordered : Ordered (areas mm (left ++ v::right))) : ∀ x ∈ right, (mm.vma v).vmEnd ≤ (mm.vma x).vmStart := by
  obtain ⟨_,tail,_⟩ := pairwise_append.mp (orderedSorted ordered)
  exact (pairwise_cons.mp tail).1

theorem sortedFrom (ordered : Ordered (areas mm (left ++ v::right))) (first : stop ≤ (mm.vma v).vmStart) :
    ∀ x ∈ v::right, stop ≤ (mm.vma x).vmStart := by
  refine forall_mem_cons.mpr ⟨first,fun x late => ?_⟩
  have := sortedAfter ordered x late
  have := (orderedFormed ordered mem_append_cons_self).some_
  omega

theorem mergeRange (env : Env) (well : Well mm (left ++ v::right)) (within : Within (mm.vma v) start stop) (flags : BitVec 32) :
    MergeOut (mergeRequest env mm (mprotectPrev mm v start) (some v) (withFlags (lowPart (highPart (mm.vma v) start) stop) flags)) mm
      (areas mm left ++ underPart (mm.vma v) start) (withFlags (lowPart (highPart (mm.vma v) start) stop) flags)
      (overPart (highPart (mm.vma v) start) stop ++ areas mm right) := by
  obtain ⟨page,page',low,some_,high⟩ := within
  unfold mprotectPrev
  by_cases inner : (mm.vma v).vmStart < start
  · rw [if_pos inner,underPart,if_pos inner]
    exact mergeInner well flags page some_ high
  obtain rfl : start = (mm.vma v).vmStart := by omega
  obtain ⟨_,_,across⟩ := pairwise_append.mp (orderedSorted well.ordered)
  have cut : Cut mm (mm.vma v).vmStart left (v::right) :=
    ⟨fun x mem => across x mem v mem_cons_self,fun x mem => (sortedFrom well.ordered le_rfl x mem).trans_lt
      (orderedFormed well.ordered (mem_append_right _ mem)).some_⟩
  rw [if_neg inner,findVmaPrevSpec well cut,underPart,if_neg inner,append_nil,highWhole]
  by_cases whole : stop = (mm.vma v).vmEnd
  · rw [whole,overPart,if_neg (lt_irrefl _)]
    exact mergeWhole well flags
  · have inside : stop < (mm.vma v).vmEnd := by omega
    rw [overPart,if_pos inside]
    exact mergeStart well flags page' some_ inside

theorem chargedSame (env : Env) (flags : BitVec 32) : chargedFlags env flags flags = some flags := by
  refine if_neg fun ⟨write,none_⟩ => write ?_
  rw [show VM_WRITE = (VM_ACCOUNT ||| VM_WRITE ||| VM_HUGETLB ||| VM_SHARED ||| VM_NORESERVE) &&& VM_WRITE by decide,← BitVec.and_assoc,
    none_]
  exact BitVec.zero_and

theorem mprotectSpec (env : Env) (newflags : BitVec 32) (well : Well mm (left ++ v::right)) (within : Within (mm.vma v) start stop) :
    ∃ r mm' l, mprotectFixup env mm v (mprotectPrev mm v start) start stop newflags = some (r,mm') ∧ Well mm' l ∧
      (r = 0 → ∃ flags, chargedFlags env (mm.vma v).vmFlags newflags = some flags ∧
        Alike (pageAt (areas mm' l)) (protect (pageAt (areas mm (left ++ v::right))) start stop flags)) ∧
      (r ≠ 0 → pageAt (areas mm' l) = pageAt (areas mm (left ++ v::right))) := by
  have ordered := areasMiddle ▸ well.ordered
  unfold mprotectFixup
  by_cases same : newflags = (mm.vma v).vmFlags
  · rw [if_pos same]
    refine ⟨0,mm,_,rfl,well,fun _ => ⟨newflags,same ▸ chargedSame env _,fun a => ?_⟩,absurd rfl⟩
    rw [same,areasMiddle,protectSame ordered within.low within.high]
  rw [if_neg same]
  cases charged : chargedFlags env (mm.vma v).vmFlags newflags with
  | none => exact ⟨-ENOMEM,mm,_,rfl,well,⟨fun done => absurd done (by decide),fun _ => rfl⟩⟩
  | some flags =>
    have carve := carvedOrdered flags ordered within
    have pages : pageAt (areas mm left ++ carved (mm.vma v) start stop flags ++ areas mm right) =
      protect (pageAt (areas mm (left ++ v::right))) start stop flags :=
      areasMiddle ▸ carvedPages ordered within
    rcases mergeRange env well within flags with refused | ⟨m,mm',l,taken,shape,_,shapes⟩
    · have refused : vmaMerge env mm (mprotectPrev mm v start) start stop flags (some v) (mm.vma v).vmFile
        ((mm.vma v).vmPgoff + pgoffOf (start - (mm.vma v).vmStart)) = some (none,mm) := refused
      simp only [refused]
      rcases fixupSplitSpec well within flags with ⟨e,mm',l,failed,out,well',kept⟩ | ⟨mm',l,out,shape,now⟩
      · exact ⟨e,mm',l,out,well',⟨fun done => absurd done failed,fun _ => kept⟩⟩
      · refine ⟨0,mm',l,out,⟨shape,now ▸ carve⟩,⟨fun _ => ⟨flags,rfl,fun a => ?_⟩,absurd rfl⟩⟩
        rw [now,pages]
    · have taken : vmaMerge env mm (mprotectPrev mm v start) start stop flags (some v) (mm.vma v).vmFile
        ((mm.vma v).vmPgoff + pgoffOf (start - (mm.vma v).vmStart)) = some (some m,mm') := taken
      simp only [taken]
      have parts : areas mm left ++ carved (mm.vma v) start stop flags ++ areas mm right =
        areas mm left ++ underPart (mm.vma v) start ++
        withFlags (lowPart (highPart (mm.vma v) start) stop) flags::(overPart (highPart (mm.vma v) start) stop ++ areas mm right) := by
        simp [carved]
      obtain ⟨order,alike⟩ := joinedSpec (parts ▸ carve) shapes
      refine ⟨0,_,l,rfl,⟨shapeSet shape m _,order⟩,⟨fun _ => ⟨flags,rfl,?_⟩,absurd rfl⟩⟩
      rw [← pages,parts]
      exact alike

end

theorem wellAround {mm v} (formed : WellFormed mm) (mem : v ∈ inorder mm.mmRb) : ∃ left right, Well mm (left ++ v::right) := by
  obtain ⟨left,right,list⟩ := append_of_mem mem
  exact ⟨left,right,list ▸ formed⟩

theorem mprotectPages {mm v start stop} (env : Env) (newflags : BitVec 32) (formed : WellFormed mm)
    (mem : v ∈ inorder mm.mmRb) (within : Within (mm.vma v) start stop) :
    ∃ r mm', mprotectFixup env mm v (mprotectPrev mm v start) start stop newflags = some (r,mm') ∧ WellFormed mm' ∧
      (r = 0 → ∃ flags, chargedFlags env (mm.vma v).vmFlags newflags = some flags ∧
        Alike (pagesOf mm') (protect (pagesOf mm) start stop flags)) ∧
      (r ≠ 0 → pagesOf mm' = pagesOf mm) := by
  obtain ⟨left,right,well⟩ := wellAround formed mem
  obtain ⟨r,mm',l,out,well',done,failed⟩ := mprotectSpec env newflags well within
  obtain ⟨formed',pages'⟩ := wellFormed well'
  rw [(wellFormed well).2]
  exact ⟨r,mm',out,formed',by rwa [pages'],by rwa [pages']⟩

def oneVma : Mm := ⟨some 0,fun _ => none,.node .black .leaf 0 .leaf,none,1,fun _ => ⟨4096,16384,0,VM_READ,none⟩,1,0⟩
def plainEnv : Env := ⟨65536,fun _ => true,fun _ => true,true,true,0,fun _ => false,fun _ _ => true,fun _ _ => true⟩

theorem oneVmaFormed : WellFormed oneVma := by
  refine ⟨⟨⟨rfl,rfl⟩,rfl,⟨1,.black .leaf .leaf⟩,rfl,fun c known => (by cases known),?_,?_⟩,?_⟩
  · simp [oneVma,inorder]
  · simp [oneVma,inorder]
  · exact orderedOne ⟨by decide,by decide,by decide⟩

theorem oneVmaProtected : ∃ r mm', mprotectFixup plainEnv oneVma 0 (mprotectPrev oneVma 0 8192) 8192 12288 (VM_READ ||| VM_WRITE) =
    some (r,mm') ∧ WellFormed mm' ∧
    (r = 0 → ∃ flags, chargedFlags plainEnv (oneVma.vma 0).vmFlags (VM_READ ||| VM_WRITE) = some flags ∧
      Alike (pagesOf mm') (protect (pagesOf oneVma) 8192 12288 flags)) ∧ (r ≠ 0 → pagesOf mm' = pagesOf oneVma) :=
  mprotectPages plainEnv (VM_READ ||| VM_WRITE) oneVmaFormed (by decide) (by decide)

/-! do_munmap: after its two splits the range is a run of whole VMAs, which
detach_vmas_to_be_unmapped takes out of the tree and of the list in one go. A failed split,
the second one too, leaves the map as it was. -/

open Rbtree (inorder RedBlack)

structure Border (mm : Mm) (low high : List Nat) (addr : Nat) : Prop where
  well : Well mm (low ++ high)
  below : ∀ x ∈ low, (mm.vma x).vmEnd ≤ addr
  above : ∀ x ∈ high, addr ≤ (mm.vma x).vmStart

structure Range (mm : Mm) (low mid high : List Nat) (start stop : Nat) : Prop where
  well : Well mm (low ++ (mid ++ high))
  below : ∀ x ∈ low, (mm.vma x).vmEnd ≤ start
  inside : ∀ x ∈ mid, start ≤ (mm.vma x).vmStart ∧ (mm.vma x).vmEnd ≤ stop
  above : ∀ x ∈ high, stop ≤ (mm.vma x).vmStart

section
variable {env mm mm' l low mid high more start stop x v n}

theorem detachLoopSpec (tree : inorder mm.mmRb = low ++ (x::more ++ high)) (balanced : RedBlack mm.mmRb)
    (once : (low ++ (x::more ++ high)).Nodup)
    (count : mm.mapCount = (low ++ (x::more ++ high)).length) (walk : Walk mm.vmNext (some x) (x::more ++ high) none)
    (inside : ∀ y ∈ more, (mm.vma y).vmStart < stop) (above : ∀ y ∈ high, stop ≤ (mm.vma y).vmStart) (fuel : more.length < n) :
    ∃ t tail, detachLoop mm x stop n = some (setCount (setRb mm t) (low ++ high).length,high.head?,tail) ∧ inorder t = low ++ high ∧
      RedBlack t ∧
      tail ∈ x::more := by
  induction more generalizing mm x n with
  | nil =>
    obtain ⟨n,rfl⟩ := Nat.exists_eq_add_of_lt fuel
    obtain ⟨t,erased,redBlack,order⟩ := eraseMiddle balanced once tree
    have next := walkHead walk.2
    refine ⟨t,x,?_,order,redBlack,by simp⟩
    have fewer : mm.mapCount - 1 = (low ++ high).length := by
      rw [count]
      simp
    simp only [detachLoop,erased,fewer,setCount_vmNext,setRb_vmNext,next]
    cases high with
    | nil => rfl
    | cons y rest =>
      have beyond := not_lt.mpr (above y mem_cons_self)
      simp [beyond]
  | cons y more ih =>
    obtain ⟨n,rfl⟩ := Nat.exists_eq_add_of_lt fuel
    obtain ⟨t,erased,redBlack,order⟩ := eraseMiddle balanced once tree
    have next := walk.2.1
    have here := inside y mem_cons_self
    have once' := (nodup_cons.mp (nodup_middle.mp once)).2
    have fewer : mm.mapCount - 1 = (low ++ (y::more ++ high)).length := by
      rw [count]
      simp
    obtain ⟨t',tail,rest,order',redBlack',mem⟩ := ih
      (show inorder (setCount (setRb mm t) (mm.mapCount - 1)).mmRb = _ from order) redBlack once' fewer
      (walk.2.1 ▸ walk.2) (forall_mem_cons.mp inside).2 above
        (show more.length < (y::more).length + n by simp; omega)
    refine ⟨t',tail,?_,order',redBlack',mem_cons_of_mem x mem⟩
    simp only [detachLoop,erased,setCount_vmNext,setRb_vmNext,next,setCount_vma,setRb_vma,here]
    exact rest

theorem detachSpec (shape : Shape mm (low ++ (x::more ++ high))) (inside : ∀ y ∈ more, (mm.vma y).vmStart < stop)
    (above : ∀ y ∈ high, stop ≤ (mm.vma y).vmStart) :
    ∃ mm', detachVmasToBeUnmapped mm x low.getLast? stop = some mm' ∧ Shape mm' (low ++ high) ∧ mm'.vma = mm.vma := by
  obtain ⟨walk,tree,balanced,count,cache,old,once⟩ := shape
  obtain ⟨m,_,here,onward⟩ := walkAppend.mp walk
  obtain ⟨t,tail,loop,order,redBlack,mem⟩ := detachLoopSpec tree balanced once count ⟨rfl,onward⟩ inside above
    (show more.length < mm.mapCount by rw [count]; simp; omega)
  have kept : ∀ y ∈ low ++ high, y ∈ low ++ (x::more ++ high) := fun y mem => by
    simp only [mem_append] at mem ⊢
    tauto
  have once' := once.sublist (List.Sublist.append_left (sublist_append_right _ _) _)
  have outside : tail ∉ low ++ high := fun both => by
    obtain ⟨_,inner,apart⟩ := nodup_append.mp once
    obtain ⟨_,_,apart'⟩ := nodup_append.mp inner
    rcases mem_append.mp both with early | late
    · exact apart tail early tail (mem_append_left _ mem) rfl
    · exact apart' tail mem tail late rfl
  have old' : ∀ y ∈ low ++ high, y < mm.fresh := fun y mem => old y (kept y mem)
  simp only [detachVmasToBeUnmapped,loop]
  rcases eq_nil_or_concat' low with rfl | ⟨front,p,rfl⟩
  · refine ⟨_,rfl,⟨?_,order,redBlack,rfl,fun c known => (by cases known),old',once'⟩,rfl⟩
    exact walkUpdate outside (cutHead walk)
  rw [getLast?_concat]
  refine ⟨_,rfl,⟨?_,order,redBlack,rfl,fun c known => (by cases known),old',once'⟩,rfl⟩
  refine walkUpdate outside ?_
  rw [append_assoc] at once walk ⊢
  exact cutAfter once walk

theorem munmapFirst (env : Env) (well : Well mm (low ++ v::high)) (cut : Cut mm start low (v::high)) (page : PAGE_SIZE ∣ start)
    (reach : (mm.vma v).vmStart < stop) (some_ : start < stop) :
    (∃ e, e ≠ 0 ∧ splitWhen (decide (start > (mm.vma v).vmStart)) env 0 mm v start false = some (e,mm)) ∨
    ∃ mm' low' x high', splitWhen (decide (start > (mm.vma v).vmStart)) env 0 mm v start false = some (0,mm') ∧
      (if decide (start > (mm.vma v).vmStart) then some v else low.getLast?) = low'.getLast? ∧ Border mm' low' (x::high') start ∧
      (mm'.vma x).vmStart < stop ∧ pageAt (areas mm' (low' ++ x::high')) = pageAt (areas mm (low ++ v::high)) := by
  have reachEnd := cut.above v mem_cons_self
  by_cases inner : start > (mm.vma v).vmStart
  · simp only [inner]
    rcases splitVmaSpec env 0 well false ⟨page,inner,reachEnd⟩ with failed | ⟨mm',done,split_⟩
    · exact .inl failed
    have new := split_.new
    have list : low ++ v::mm.fresh::high = (low ++ [v]) ++ mm.fresh::high := by simp
    have well' := list ▸ split_.well
    refine .inr ⟨mm',low ++ [v],mm.fresh,high,done,by simp,⟨well',forall_mem_append.mpr ⟨fun x early => ?_,forall_mem_singleton.mpr ?_⟩,
      sortedFrom well'.ordered (by rw [new]; exact le_rfl)⟩,by rwa [new],list ▸ splitPages well ⟨page,inner,reachEnd⟩ split_⟩
    · rw [split_.same x (mem_append_left _ early)]
      exact cut.below x early
    · rw [split_.own]
      exact le_rfl
  · simp only [inner]
    exact .inr ⟨mm,low,v,high,rfl,rfl,⟨well,cut.below,sortedFrom well.ordered (not_lt.mp inner)⟩,reach,rfl⟩

theorem munmapLast (env : Env) (border : Border mm low (v::high) start) (page : PAGE_SIZE ∣ stop) (reach : (mm.vma v).vmStart < stop)
    (some_ : start < stop) :
    (∃ e mm', e ≠ 0 ∧ splitLast env mm stop = some (e,mm') ∧ Well mm' (low ++ v::high) ∧ mm'.vma = mm.vma) ∨
    ∃ mm' mid high', splitLast env mm stop = some (0,mm') ∧ mid ≠ [] ∧ Range mm' low mid high' start stop ∧
      pageAt (areas mm' (low ++ (mid ++ high'))) = pageAt (areas mm (low ++ v::high)) := by
  obtain ⟨well,below,above⟩ := border
  obtain ⟨_,tail,_⟩ := orderedAppend.mp (areasAppend ▸ well.ordered)
  obtain ⟨mid,hi,list,cut⟩ := cutExists tail stop
  have list' : low ++ v::high = (low ++ mid) ++ hi := by rw [list,append_assoc]
  have cut' : Cut mm stop (low ++ mid) hi :=
    ⟨forall_mem_append.mpr ⟨fun x early => (below x early).trans some_.le,cut.below⟩,cut.above⟩
  have inside : ∀ x ∈ mid, start ≤ (mm.vma x).vmStart ∧ (mm.vma x).vmEnd ≤ stop := fun x mem =>
    ⟨above x (list ▸ mem_append_left _ mem),cut.below x mem⟩
  obtain ⟨found,well2,vma2⟩ := findVmaSpec (list' ▸ well) cut'
  unfold splitLast
  rcases result : findVma mm stop with ⟨last,mm2⟩
  rw [result] at found well2 vma2
  dsimp only at found well2 vma2 ⊢
  have areas2 : ∀ l, areas mm2 l = areas mm l := fun l => by rw [areas,vma2,areas]
  rw [found,list']
  cases hi with
  | nil =>
    have some_' : mid ≠ [] := by
      rw [append_nil] at list
      exact list ▸ cons_ne_nil v high
    refine .inr ⟨mm2,mid,[],rfl,some_',⟨append_assoc low mid [] ▸ well2,vma2 ▸ below,vma2 ▸ inside,by simp⟩,?_⟩
    rw [areas2,append_assoc]
  | cons l hi =>
    have reachEnd := vma2 ▸ cut.above l mem_cons_self
    dsimp only [head?_cons]
    by_cases inner : stop > (mm2.vma l).vmStart
    · simp only [inner]
      rcases splitVmaSpec env 1 well2 true ⟨page,inner,reachEnd⟩ with ⟨e,failed,out⟩ | ⟨mm3,done,split_⟩
      · exact .inl ⟨e,mm2,failed,out,well2,vma2⟩
      have same : ∀ x ∈ (low ++ mid) ++ hi, mm3.vma x = mm.vma x := fun x mem => (split_.same x mem).trans (congrFun vma2 x)
      have list3 : low ++ mid ++ mm2.fresh::l::hi = low ++ ((mid ++ [mm2.fresh]) ++ l::hi) := by simp
      have pages := splitPages well2 ⟨page,inner,reachEnd⟩ split_
      rw [areas2] at pages
      refine .inr ⟨mm3,mid ++ [mm2.fresh],l::hi,done,by simp,⟨list3 ▸ split_.well,fun x mem => ?_,
        forall_mem_append.mpr ⟨fun x here => ?_,forall_mem_singleton.mpr ?_⟩,
        sortedFrom (show Ordered (areas mm3 ((low ++ mid ++ [mm2.fresh]) ++ l::hi)) by simpa using split_.well.ordered) ?_⟩,list3 ▸ pages⟩
      · rw [same x (by simp [mem])]
        exact below x mem
      · rw [same x (by simp [here])]
        exact inside x here
      · rw [split_.new]
        exact ⟨vma2 ▸ above l (by simp [list]),le_rfl⟩
      · rw [split_.own]
        exact le_rfl
    · simp only [inner]
      have some_' : mid ≠ [] := fun nothing => by
        subst nothing
        cases list
        exact inner (vma2 ▸ reach)
      refine .inr ⟨mm2,mid,l::hi,rfl,some_',⟨append_assoc low mid (l::hi) ▸ well2,vma2 ▸ below,vma2 ▸ inside,
        sortedFrom well2.ordered (not_lt.mp inner)⟩,?_⟩
      rw [areas2,append_assoc]

theorem unmapPages (range : Range mm low mid high start stop) :
    pageAt (areas mm (low ++ high)) = unmap (pageAt (areas mm (low ++ (mid ++ high)))) start stop := by
  funext a
  rw [unmap,areasAppend,areasAppend,areasAppend,pageAppend,pageAppend,pageAppend]
  split
  · rename_i here
    have first : pageAt (areas mm low) a = none :=
      pageAbsent (forall_mem_map.mpr fun x mem => .inr ((range.below x mem).trans here.1))
    have last : pageAt (areas mm high) a = none :=
      pageAbsent (forall_mem_map.mpr fun x mem => .inl (here.2.trans_le (range.above x mem)))
    rw [first,last,Option.or_none]
  · have nothing : pageAt (areas mm mid) a = none := pageAbsent (forall_mem_map.mpr fun x mem => by
      have := range.inside x mem
      omega)
    rw [nothing,Option.none_or]

def roundUp (n : Nat) : Nat := (n + (PAGE_SIZE - 1)) / PAGE_SIZE * PAGE_SIZE

theorem alignExact (page : start % PAGE_SIZE = 0) (low : start ≤ TASK_SIZE) (fits : n ≤ TASK_SIZE - start) :
    pageAlign n = roundUp n ∧ start + roundUp n ≤ TASK_SIZE ∧ PAGE_SIZE ∣ start + roundUp n := by
  unfold pageAlign roundUp PAGE_SIZE TASK_SIZE word at *
  omega

theorem unmapRangeSpec (env : Env) (well : Well mm (low ++ v::high)) (cut : Cut mm start low (v::high)) (page : PAGE_SIZE ∣ start)
    (page' : PAGE_SIZE ∣ stop) (reach : (mm.vma v).vmStart < stop) (some_ : start < stop) :
    ∃ r mm' l, unmapRange env mm v low.getLast? start stop = some (r,mm') ∧ Well mm' l ∧
      (r = 0 → pageAt (areas mm' l) = unmap (pageAt (areas mm (low ++ v::high))) start stop) ∧
      (r ≠ 0 → pageAt (areas mm' l) = pageAt (areas mm (low ++ v::high))) := by
  unfold unmapRange
  dsimp only
  rcases munmapFirst env well cut page reach some_ with ⟨e,failed,out⟩ | ⟨mm1,low1,x,high1,out,prev,border,reach1,pages1⟩
  · rw [out,orFailError failed]
    exact ⟨e,mm,_,rfl,well,fun done => absurd done failed,fun _ => rfl⟩
  rw [out,orFailDone,prev]
  rcases munmapLast env border page' reach1 some_ with ⟨e,mm2,failed,out2,well2,vma2⟩ | ⟨mm2,mid,high2,out2,some_',range,pages2⟩
  · rw [out2,orFailError failed]
    refine ⟨e,mm2,_,rfl,well2,fun done => absurd done failed,fun _ => ?_⟩
    rw [areas,vma2,← areas,pages1]
  rw [out2,orFailDone,nextOfSpec range.well.shape]
  obtain ⟨y,more,rfl⟩ := exists_cons_of_ne_nil some_'
  have formed : ∀ z ∈ low1 ++ (y::more ++ high2), (mm2.vma z).vmStart < (mm2.vma z).vmEnd :=
    fun z mem => (orderedFormed range.well.ordered mem).some_
  obtain ⟨mm3,detached,shape,vma3⟩ := detachSpec range.well.shape
    (fun z mem => (formed z (by simp [mem])).trans_le (range.inside z (mem_cons_of_mem y mem)).2) range.above
  have areas3 : ∀ l, areas mm3 l = areas mm2 l := fun l => by rw [areas,vma3,areas]
  refine ⟨0,mm3,low1 ++ high2,by simp [detached],⟨shape,?_⟩,fun _ => ?_,absurd rfl⟩
  · rw [areas3]
    exact orderedSub (List.Sublist.map _ (List.Sublist.append_left (sublist_append_right _ _) _)) range.well.ordered
  · rw [areas3,unmapPages range,pages2,pages1]

theorem munmapSpec (env : Env) (well : Well mm l) (start len : Nat) :
    ∃ r mm' l', doMunmap env mm start len = some (r,mm') ∧ Well mm' l' ∧
      (r = 0 → pageAt (areas mm' l') = unmap (pageAt (areas mm l)) start (start + pageAlign len)) ∧
      (r ≠ 0 → pageAt (areas mm' l') = pageAt (areas mm l)) ∧ (TASK_SIZE < start + roundUp len → r = -EINVAL) := by
  unfold doMunmap
  by_cases bad : start % PAGE_SIZE ≠ 0 ∨ start > TASK_SIZE ∨ len > TASK_SIZE - start
  · rw [if_pos bad]
    exact ⟨-EINVAL,mm,l,rfl,well,fun done => absurd done (by decide),fun _ => rfl,fun _ => rfl⟩
  rw [if_neg bad]
  simp only [not_or,not_not,not_lt] at bad
  obtain ⟨page,low,fits⟩ := bad
  obtain ⟨exact_,within,page'⟩ := alignExact page low fits
  have small : (start + pageAlign len) % word = start + pageAlign len :=
    Nat.mod_eq_of_lt (by rw [exact_]; exact within.trans_lt (by decide))
  have fine := not_lt.mpr within
  by_cases empty : pageAlign len = 0
  · rw [if_pos empty]
    exact ⟨-EINVAL,mm,l,rfl,well,fun done => absurd done (by decide),fun _ => rfl,fun _ => rfl⟩
  rw [if_neg empty,small]
  obtain ⟨lo,hi,rfl,cut⟩ := cutExists well.ordered start
  have nothing : (∀ x ∈ hi, start + pageAlign len ≤ (mm.vma x).vmStart) →
      pageAt (areas mm (lo ++ hi)) = unmap (pageAt (areas mm (lo ++ hi))) start (start + pageAlign len) := fun clear =>
    unmapPages (show Range mm lo [] hi start (start + pageAlign len) from ⟨well,cut.below,by simp,clear⟩)
  rw [findVmaPrevSpec well cut]
  cases hi with
  | nil => exact ⟨0,mm,_,rfl,well,fun _ => nothing (by simp),absurd rfl,fun over_ => absurd over_ fine⟩
  | cons v hi =>
    dsimp only [head?_cons]
    by_cases away : (mm.vma v).vmStart ≥ start + pageAlign len
    · rw [if_pos away]
      exact ⟨0,mm,_,rfl,well,fun _ => nothing (sortedFrom well.ordered away),absurd rfl,fun over_ => absurd over_ fine⟩
    · rw [if_neg away]
      obtain ⟨r,mm',l',out,rest⟩ := unmapRangeSpec env well cut (Nat.dvd_of_mod_eq_zero page) (exact_ ▸ page') (not_le.mp away)
        (by omega)
      exact ⟨r,mm',l',out,rest.1,rest.2.1,rest.2.2,fun over_ => absurd over_ fine⟩

end

theorem munmapPages {mm} (env : Env) (formed : WellFormed mm) (start len : Nat) :
    ∃ r mm', doMunmap env mm start len = some (r,mm') ∧ WellFormed mm' ∧
      (r = 0 → pagesOf mm' = unmap (pagesOf mm) start (start + pageAlign len)) ∧ (r ≠ 0 → pagesOf mm' = pagesOf mm) ∧
      (TASK_SIZE < start + roundUp len → r = -EINVAL) := by
  obtain ⟨r,mm',l,out,well,rest⟩ := munmapSpec env formed start len
  obtain ⟨formed',pages⟩ := wellFormed well
  rw [← pages] at rest
  exact ⟨r,mm',out,formed',rest⟩

theorem oneVmaUnmapped : ∃ r mm', doMunmap plainEnv oneVma 8192 4096 = some (r,mm') ∧ WellFormed mm' ∧
    (r = 0 → pagesOf mm' = unmap (pagesOf oneVma) 8192 (8192 + pageAlign 4096)) ∧ (r ≠ 0 → pagesOf mm' = pagesOf oneVma) ∧
    (TASK_SIZE < 8192 + roundUp 4096 → r = -EINVAL) :=
  munmapPages plainEnv oneVmaFormed 8192 4096

end EclairKernel.Mmap
