import EclairKernel.MmapUnmap

/-! do_brk, and whole runs: from an empty mm the list, the tree, the count and the cache
agree after every call, and the three searches find their VMA and its place. -/
namespace EclairKernel.Mmap
open Function List Option
open Rbtree (inorder plug)

section
variable {env mm mm' l low high addr len start stop x v m place a mid}

theorem placeVma (well : Well mm l) (found : (findVmaPrepare mm addr).vma = some x) : x ∈ l ∧ addr < (mm.vma x).vmEnd := by
  rcases prepareSpec well addr with ⟨y,mem,held⟩ | ⟨low,high,rfl,gap⟩
  · cases held.vma.symm.trans found
    exact ⟨mem,held.high⟩
  · have head : high.head? = some x := by rw [← gap.highIs,← gap.placed.vma,found]
    have here : x ∈ low ++ high := mem_append_right _ (mem_of_head? head)
    exact ⟨here,(gap.above x (mem_of_head? head)).trans (orderedFormed well.ordered here).some_⟩

abbrev Hole (mm : Mm) (addr stop : Nat) : Prop := (findVmaPrepare mm addr).vma.filter (fun v => decide ((mm.vma v).vmStart < stop)) = none

theorem holeGap (well : Well mm l) (some_ : addr < stop) (clear : Hole mm addr stop) :
    ∃ low high, l = low ++ high ∧ Gap mm addr (findVmaPrepare mm addr) low high ∧ ∀ x ∈ high, stop ≤ (mm.vma x).vmStart := by
  rcases prepareSpec well addr with ⟨y,mem,held⟩ | ⟨low,high,rfl,gap⟩
  · have := filter_eq_none_iff.mp clear y held.vma
    have := held.low
    simp only [decide_eq_true_eq] at *
    omega
  · refine ⟨low,high,rfl,gap,?_⟩
    cases high with
    | nil => simp
    | cons n rest =>
      have found : (findVmaPrepare mm addr).vma = some n := by rw [gap.placed.vma,gap.highIs,List.head?_cons]
      exact sortedFrom well.ordered (by simpa using filter_eq_none_iff.mp clear n found)

theorem unmappedClear (well : Well mm l) (space : Nat → Option Entry) (gone : pageAt (areas mm l) = unmap space addr stop)
    (some_ : addr < stop) : Hole mm addr stop := by
  refine filter_eq_none_iff.mpr fun x found => ?_
  simp only [decide_eq_true_eq]
  obtain ⟨mem,ends⟩ := placeVma well found
  obtain ⟨low,high,rfl⟩ := append_of_mem mem
  by_contra reach
  have formed := (orderedFormed well.ordered mem).some_
  have here := pageInside (a := max addr (mm.vma x).vmStart) (areasMiddle ▸ well.ordered) (le_max_right _ _) (by omega)
  rw [← areasMiddle,gone,unmap,if_pos (by omega)] at here
  cases here

theorem linkNew (well : Well mm (low ++ high)) (gap : Gap mm addr place low high) (formed : Formed a) (begins : a.vmStart = addr)
    (above : ∀ x ∈ high, a.vmEnd ≤ (mm.vma x).vmStart) :
    ∃ mm', vmaLink (newVma mm a) mm.fresh place = some mm' ∧ Well mm' (low ++ mm.fresh::high) := by
  have outside := freshOutside well.shape
  have kept : ∀ x ∈ low ++ high, (newVma mm a).vma x = mm.vma x := fun x mem =>
    update_of_ne (fun same : x = mm.fresh => outside (same ▸ mem)) _ _
  have gap' : Gap (newVma mm a) addr place low high := by
    refine ⟨gap.placed,gap.link,gap.lowIs,gap.highIs,gap.hole,fun x mem => ?_,fun x mem => ?_⟩
    · rw [kept x (mem_append_left _ mem)]
      exact gap.below x mem
    · rw [kept x (mem_append_right _ mem)]
      exact gap.above x mem
  obtain ⟨mm',linked,shape,vma⟩ := vmaLinkSpec (shapeNew well.shape a) gap' outside (Nat.lt_succ_self _)
  refine ⟨mm',linked,shape,?_⟩
  rw [areasAround fun x mem => (congrFun vma x).trans (kept x mem),
    show mm'.vma mm.fresh = a by rw [vma,newVma_vma,update_self]]
  refine orderedInsert (areasAppend ▸ well.ordered) formed ?_ ?_
  · rw [begins]
    exact forall_mem_map.mpr gap.below
  · exact forall_mem_map.mpr above

theorem mergeWell {before_ after_ out} (well : Well mm l)
    (ordered : Ordered (before_ ++ mid::after_))
    (merged : MergeOut out mm before_ mid after_) : ∃ m mm' l', out = some (m,mm') ∧ Well mm' l' ∧ (m = none → mm' = mm) := by
  rcases merged with refused | ⟨m,mm',l',taken,shape,_,shapes⟩
  · exact ⟨none,mm,l,refused,well,fun _ => rfl⟩
  refine ⟨some m,mm',l',taken,⟨shape,orderedCongr (fun x => ?_) (joinedSpec ordered shapes).1⟩,fun none_ => by cases none_⟩
  by_cases same : x = m
  · rw [same,setFlags,setVma_vma,update_self]
    exact ⟨rfl,rfl⟩
  · rw [setFlags,setVma_vma,update_of_ne same]
    exact ⟨rfl,rfl⟩

theorem mergeGap {pgoff flags f} (env : Env) (source : Option Nat) (well : Well mm (low ++ high)) (gap : Gap mm addr place low high)
    (formed : Formed ⟨addr,stop,pgoff,flags,f⟩) (above : ∀ x ∈ high, stop ≤ (mm.vma x).vmStart) :
    ∃ m mm' l', vmaMerge env mm place.prev addr stop flags source f pgoff = some (m,mm') ∧ Well mm' l' ∧ (m = none → mm' = mm) := by
  have prev : place.prev = low.getLast? := by rw [gap.placed.prev,gap.lowIs]
  have request : MergeOut (mergeRequest env mm place.prev source ⟨addr,stop,pgoff,flags,f⟩) mm (areas mm low)
      ⟨addr,stop,pgoff,flags,f⟩ (areas mm high) := prev ▸ mergeHole well formed.some_ gap.below above
  exact mergeWell well (orderedInsert (areasAppend ▸ well.ordered) formed (forall_mem_map.mpr gap.below) (forall_mem_map.mpr above))
    request

theorem munmapBackHole (env : Env) (n : Nat) (hole : Hole mm addr (addr + len)) :
    munmapBack env mm addr len (n + 1) = some (some (findVmaPrepare mm addr),mm) := by simp [munmapBack,hole]

theorem munmapBackSpec (env : Env) (well : Well mm l) (some_ : 0 < len) (exact_ : pageAlign len = len) :
    ∃ out mm' l', munmapBack env mm addr len 2 = some (out,mm') ∧ Well mm' l' ∧ ∀ place, out = some place →
      ∃ low high, l' = low ++ high ∧ Gap mm' addr place low high ∧ ∀ x ∈ high, addr + len ≤ (mm'.vma x).vmStart := by
  cases first : (findVmaPrepare mm addr).vma.filter (fun v => decide ((mm.vma v).vmStart < addr + len)) with
  | none => exact ⟨_,mm,l,munmapBackHole env 1 first,well,fun _ same => some.inj same ▸ holeGap well (by omega) first⟩
  | some v =>
    obtain ⟨r,mm',l',out,well',gone,_⟩ := munmapSpec env well addr len
    rw [munmapBack]
    simp only [first,out]
    by_cases failed : r ≠ 0
    · rw [if_pos failed]
      exact ⟨none,mm',l',rfl,well',fun _ same => by cases same⟩
    · rw [if_neg failed]
      rw [exact_] at gone
      have hole := unmappedClear well' _ (gone (not_not.mp failed)) (by omega)
      exact ⟨_,mm',l',munmapBackHole env 0 hole,well',fun _ same => some.inj same ▸ holeGap well' (by omega) hole⟩

theorem brkMapSpec (env : Env) (flags : BitVec 32) (well : Well mm (low ++ high)) (gap : Gap mm addr place low high)
    (formed : ∀ pgoff file, Formed ⟨addr,addr + len,pgoff,flags,file⟩) (above : ∀ x ∈ high, addr + len ≤ (mm.vma x).vmStart) :
    ∃ r mm' l, brkMap env mm place addr len flags = some (r,mm') ∧ Well mm' l := by
  obtain ⟨m,mm2,l2,out,well2,same⟩ := mergeGap env none well gap (formed (pgoffOf addr) none) above
  obtain ⟨mm3,linked,well3⟩ := linkNew well gap (formed (pgoffOf addr) none) rfl above
  unfold brkMap
  rw [out]
  cases m with
  | some m =>
    dsimp only
    split_ifs
    iterate 3 exact ⟨_,mm,_,rfl,well⟩
    exact ⟨_,mm2,l2,rfl,well2⟩
  | none =>
    obtain rfl := same rfl
    dsimp only
    rw [linked]
    split_ifs
    iterate 4 exact ⟨_,mm2,_,rfl,well⟩
    exact ⟨_,mm3,_,rfl,well3⟩

theorem brkSpec (env : Env) (well : Well mm l) (page : PAGE_SIZE ∣ addr) (len : Nat) :
    ∃ r mm' l', doBrk env mm addr len = some (r,mm') ∧ Well mm' l' := by
  have whole : PAGE_SIZE ∣ pageAlign len := dvd_mul_left _ _
  have exact_ : pageAlign (pageAlign len) = pageAlign len := by
    unfold pageAlign PAGE_SIZE word
    omega
  unfold doBrk
  dsimp only
  split_ifs with empty
  iterate 3 exact ⟨_,mm,l,rfl,well⟩
  have some_ := Nat.pos_of_ne_zero empty
  obtain ⟨out,mm1,l1,back,well1,gaps⟩ := munmapBackSpec env well some_ exact_
  rw [back]
  cases out with
  | none => exact ⟨_,mm1,l1,rfl,well1⟩
  | some place =>
    obtain ⟨low,high,rfl,gap,above⟩ := gaps place rfl
    exact brkMapSpec env _ well1 gap (fun _ _ => ⟨Nat.lt_add_of_pos_right some_,page,Nat.dvd_add page whole⟩) above

end

/-- The calls that change an mm, find_vma among them for its cache. vma_merge is called with a
range no VMA has, or with a range of a VMA. -/
inductive MmOp where
  | find (addr : Nat)
  | munmap (env : Env) (start len : Nat)
  | brk (env : Env) (addr len : Nat)
  | mprotect (env : Env) (vma start stop : Nat) (newflags : BitVec 32)
  | split (env : Env) (vma addr : Nat) (newBelow : Bool)
  | merge (env : Env) (addr stop : Nat) (flags : BitVec 32) (source file : Option Nat) (pgoff : BitVec 32)
  | mergeIn (env : Env) (vma start stop : Nat) (flags : BitVec 32)

def mmStep (s : Option Mm) (op : MmOp) : Option Mm :=
  s.bind fun mm =>
    match op with
    | .find addr => some (findVma mm addr).2
    | .munmap env start len => (doMunmap env mm start len).map Prod.snd
    | .brk env addr len => (doBrk env mm addr len).map Prod.snd
    | .mprotect env vma start stop newflags => (mprotectFixup env mm vma (mprotectPrev mm vma start) start stop newflags).map Prod.snd
    | .split env vma addr newBelow => (splitVma env 0 mm vma addr newBelow).map Prod.snd
    | .merge env addr stop flags source file pgoff =>
      (vmaMerge env mm (findVmaPrepare mm addr).prev addr stop flags source file pgoff).map Prod.snd
    | .mergeIn env vma start stop flags =>
      let v := mm.vma vma
      (vmaMerge env mm (mprotectPrev mm vma start) start stop flags (some vma) v.vmFile
        (v.vmPgoff + pgoffOf (start - v.vmStart))).map Prod.snd

def Callable (mm : Mm) : MmOp → Prop
  | .find _ => True
  | .munmap _ _ _ => True
  | .brk _ addr _ => PAGE_SIZE ∣ addr
  | .mprotect _ vma start stop _ => vma ∈ inorder mm.mmRb ∧ Within (mm.vma vma) start stop
  | .split _ vma addr _ => vma ∈ inorder mm.mmRb ∧ Inside (mm.vma vma) addr
  | .merge _ addr stop _ _ _ _ => PAGE_SIZE ∣ addr ∧ PAGE_SIZE ∣ stop ∧ addr < stop ∧
      ∀ x ∈ inorder mm.mmRb, (mm.vma x).vmEnd ≤ addr ∨ stop ≤ (mm.vma x).vmStart
  | .mergeIn _ vma start stop _ => vma ∈ inorder mm.mmRb ∧ Within (mm.vma vma) start stop

instance (mm op) : Decidable (Callable mm op) := by
  cases op <;> unfold Callable <;> infer_instance

def callableIn (s : Option Mm) (op : MmOp) : Prop := ∀ mm ∈ s, Callable mm op

instance (s op) : Decidable (callableIn s op) := by
  unfold callableIn
  infer_instance

def Good (s : Option Mm) : Prop := ∃ mm, s = some mm ∧ WellFormed mm

theorem goodOf {out : Option (β × Mm)} (h : ∃ r mm' l, out = some (r,mm') ∧ Well mm' l) : Good (out.map Prod.snd) := by
  obtain ⟨r,mm',l,rfl,well⟩ := h
  exact ⟨mm',rfl,(wellFormed well).1⟩

section
variable {mm addr stop start v}

theorem findGood (formed : WellFormed mm) (addr : Nat) : WellFormed (findVma mm addr).2 := by
  obtain ⟨low,high,list,cut⟩ := cutExists formed.ordered addr
  exact (wellFormed (findVmaSpec (list ▸ formed) cut).2.1).1

theorem mergeGood (env : Env) (flags : BitVec 32) (source file : Option Nat) (pgoff : BitVec 32) (formed : WellFormed mm)
    (page : PAGE_SIZE ∣ addr) (page' : PAGE_SIZE ∣ stop) (some_ : addr < stop)
    (clear : ∀ x ∈ inorder mm.mmRb, (mm.vma x).vmEnd ≤ addr ∨ stop ≤ (mm.vma x).vmStart) :
    ∃ m mm' l, vmaMerge env mm (findVmaPrepare mm addr).prev addr stop flags source file pgoff = some (m,mm') ∧ Well mm' l := by
  have hole : Hole mm addr stop := by
    refine filter_eq_none_iff.mpr fun x found => ?_
    obtain ⟨mem,ends⟩ := placeVma formed found
    have := clear x mem
    simp only [decide_eq_true_eq]
    omega
  obtain ⟨low,high,list,gap,above⟩ := holeGap formed some_ hole
  obtain ⟨m,mm',l,out,well',_⟩ := mergeGap (f := file) env source (list ▸ formed) gap ⟨some_,page,page'⟩ above
  exact ⟨m,mm',l,out,well'⟩

theorem stepGood (s : Option Mm) (op : MmOp) (good : Good s) (ok : callableIn s op) : Good (mmStep s op) := by
  obtain ⟨mm,rfl,formed⟩ := good
  have ok := ok mm rfl
  cases op with
  | find addr => exact ⟨_,rfl,findGood formed addr⟩
  | munmap env start len =>
    obtain ⟨r,mm',l,out,well,_⟩ := munmapSpec env formed start len
    exact goodOf ⟨r,mm',l,out,well⟩
  | brk env addr len => exact goodOf (brkSpec env formed ok len)
  | mprotect env vma start stop newflags =>
    obtain ⟨left,right,well⟩ := wellAround formed ok.1
    obtain ⟨r,mm',l,out,well',_⟩ := mprotectSpec env newflags well ok.2
    exact goodOf ⟨r,mm',l,out,well'⟩
  | split env vma addr newBelow =>
    obtain ⟨left,right,well⟩ := wellAround formed ok.1
    rcases splitVmaSpec env 0 well newBelow ok.2 with ⟨e,_,out⟩ | ⟨mm',out,split_⟩
    · exact goodOf ⟨e,mm,_,out,formed⟩
    · exact goodOf ⟨0,mm',_,out,split_.well⟩
  | merge env addr stop flags source file pgoff =>
    obtain ⟨page,page',some_,clear⟩ := ok
    exact goodOf (mergeGood env flags source file pgoff formed page page' some_ clear)
  | mergeIn env vma start stop flags =>
    obtain ⟨left,right,well⟩ := wellAround formed ok.1
    have carve := carvedOrdered flags (areasMiddle ▸ well.ordered) ok.2
    obtain ⟨m,mm',l,out,well',_⟩ := mergeWell well (by simpa [carved] using carve) (mergeRange env well ok.2 flags)
    exact goodOf ⟨m,mm',l,out,well'⟩

end

structure Search (mm : Mm) (addr : Nat) (low high : List Nat) : Prop where
  list : inorder mm.mmRb = low ++ high
  cut : Cut mm addr low high
  find : (findVma mm addr).1 = high.head?
  prev : findVmaPrev mm addr = (high.head?,low.getLast?)
  prepare : (findVmaPrepare mm addr).vma = high.head?
  place : (∃ x, Held mm addr (findVmaPrepare mm addr) x mm.mmRb) ∨ Gap mm addr (findVmaPrepare mm addr) low high

theorem searchSpec {mm} (formed : WellFormed mm) (addr : Nat) : ∃ low high, Search mm addr low high := by
  obtain ⟨low,high,list,cut⟩ := cutExists formed.ordered addr
  have well : Well mm (low ++ high) := list ▸ formed
  have ends : ∀ x ∈ low ++ high, (mm.vma x).vmStart < (mm.vma x).vmEnd := fun x mem => (orderedFormed well.ordered mem).some_
  have placed : (findVmaPrepare mm addr).vma = high.head? ∧
      ((∃ x, Held mm addr (findVmaPrepare mm addr) x mm.mmRb) ∨ Gap mm addr (findVmaPrepare mm addr) low high) := by
    rcases prepareSpec well addr with ⟨x,mem,held⟩ | ⟨low',high',same,gap⟩
    · refine ⟨?_,.inl ⟨x,held⟩⟩
      rw [held.vma]
      rcases mem_append.mp mem with early | late
      · exact absurd held.high (not_lt.mpr (cut.below x early))
      -- a VMA before it among those that end later would have to end at its start
      cases high with
      | nil => cases late
      | cons n rest =>
        rcases mem_cons.mp late with rfl | later
        · rfl
        have := cut.above n mem_cons_self
        have := sortedAfter well.ordered x later
        have := held.low
        omega
    · have cut' : Cut mm addr low' high' := ⟨gap.below,fun x mem =>
        (gap.above x mem).trans (ends x (same ▸ mem_append_right _ mem))⟩
      obtain ⟨rfl,rfl⟩ := cutUnique cut cut' same
      exact ⟨by rw [gap.placed.vma,gap.highIs],.inr gap⟩
  exact ⟨low,high,list,cut,(findVmaSpec well cut).1,findVmaPrevSpec well cut,placed.1,placed.2⟩

structure Empty (mm : Mm) : Prop where
  mmap : mm.mmap = none
  tree : mm.mmRb = .leaf
  cache : mm.mmapCache = none
  count : mm.mapCount = 0

theorem emptyFormed {mm} (empty : Empty mm) : WellFormed mm := by
  unfold WellFormed
  rw [empty.tree]
  refine ⟨⟨empty.mmap,by rw [empty.tree],⟨0,by rw [empty.tree]; exact .leaf⟩,empty.count,fun c known => ?_,by simp [inorder],
    by simp [inorder]⟩,by simp [areas,inorder],by simp [areas,inorder]⟩
  rw [empty.cache] at known
  cases known

theorem runVmasAgree {mm ops} (empty : Empty mm) (admitted : Run.Admitted mmStep callableIn (some mm) ops) :
    ∃ mm', Run.run mmStep (some mm) ops = some mm' ∧ WellFormed mm' ∧ ∀ addr, ∃ low high, Search mm' addr low high := by
  obtain ⟨mm',out,formed⟩ := Run.runInvariant stepGood ⟨mm,rfl,emptyFormed empty⟩ admitted
  exact ⟨mm',out,formed,searchSpec formed⟩

def emptyMm : Mm := ⟨none,fun _ => none,.leaf,none,0,fun _ => ⟨0,0,0,0,none⟩,0,0⟩

def exampleOps : List MmOp := [.brk plainEnv 4096 12288,.mprotect plainEnv 0 12288 16384 VM_READ,.find 12288,
    .munmap plainEnv 4096 4096]

theorem exampleVmasAgree : ∃ mm', Run.run mmStep (some emptyMm) exampleOps = some mm' ∧ WellFormed mm' ∧
    ∀ addr, ∃ low high, Search mm' addr low high :=
  runVmasAgree ⟨rfl,rfl,rfl,rfl⟩ (by decide +kernel)

/-! arch/arm/mm/mmap.c: where a mapping goes on a processor whose caches may alias. Addresses
are numbers below 2^32 and a mask of the low bits is a remainder. An error is the negated errno. -/

open Pointers (Walk walkHead cutHead)

def SHMLBA : Nat := 4 * PAGE_SIZE
def TASK_UNMAPPED_BASE : Nat := 0x40000000
def MAP_SHARED : BitVec 32 := 0x01
def MAP_FIXED : BitVec 32 := 0x10

structure Cpu where
  cachetype : BitVec 32
  id : BitVec 32

def aliasing (cpu : Cpu) : Bool :=
  decide (cpu.cachetype ≠ cpu.id) && decide ((cpu.cachetype ||| cpu.cachetype >>> 12) &&& (1 <<< 11) ≠ 0)

structure Space where
  mm : Mm
  freeAreaCache : Nat
  cachedHoleSize : Nat

def colourAlign (addr pgoff : Nat) : Nat :=
  ((addr + SHMLBA - 1) % word / SHMLBA * SHMLBA + (pgoff <<< PAGE_SHIFT) % word % SHMLBA) % word

def cacheColour (vaddr : Nat) : Nat := vaddr % SHMLBA / PAGE_SIZE

def placed (doAlign : Bool) (addr pgoff : Nat) : Nat := if doAlign then colourAlign addr pgoff else pageAlign addr

def endsBefore (mm : Mm) (vma : Option Nat) (addr len : Nat) : Bool :=
  match vma with
  | none => true
  | some v => decide ((addr + len) % word ≤ (mm.vma v).vmStart)

inductive Scan where
  | exhausted (hole : Nat)
  | found (addr hole : Nat)
  deriving DecidableEq, Repr

def scan (mm : Mm) (doAlign : Bool) (len pgoff : Nat) : Nat → Option Nat → Nat → Nat → Option Scan
  | 0, _, _, _ => none
  | n+1, vma, addr, hole =>
    if TASK_SIZE - len < addr then some (.exhausted hole)
    else if endsBefore mm vma addr len then some (.found addr hole)
    else match vma with
      | none => none
      | some v =>
        let a := mm.vma v
        let hole := if (addr + hole) % word < a.vmStart then a.vmStart - addr else hole
        scan mm doAlign len pgoff n (mm.vmNext v) (if doAlign then colourAlign a.vmEnd pgoff else a.vmEnd) hole

def fullSearch (s : Space) (doAlign : Bool) (len pgoff startAddr : Nat) : Option (Scan × Space) :=
  let addr := placed doAlign startAddr pgoff
  let found := findVma s.mm addr
  (scan found.2 doAlign len pgoff (found.2.mapCount + 1) found.1 addr s.cachedHoleSize).map fun end_ => (end_,{s with mm := found.2})

def settle (len : Nat) (s : Space) : Scan → Except Int Nat × Space
  | .found addr hole => (.ok addr,{s with cachedHoleSize := hole, freeAreaCache := (addr + len) % word})
  | .exhausted hole => (.error (-ENOMEM),{s with cachedHoleSize := hole})

def search (s : Space) (doAlign : Bool) (len pgoff startAddr : Nat) : Option (Except Int Nat × Space) :=
  (fullSearch s doAlign len pgoff startAddr).bind fun (end_,s) =>
    match end_ with
    | .found addr hole => some (settle len s (.found addr hole))
    | .exhausted hole =>
      if startAddr = TASK_UNMAPPED_BASE then some (settle len s (.exhausted hole))
      else (fullSearch {s with cachedHoleSize := 0} doAlign len pgoff TASK_UNMAPPED_BASE).map fun (end_,s) => settle len s end_

def searchCached (s : Space) (doAlign : Bool) (len pgoff : Nat) : Option (Except Int Nat × Space) :=
  if s.cachedHoleSize < len then search s doAlign len pgoff s.freeAreaCache
  else search {s with cachedHoleSize := 0} doAlign len pgoff TASK_UNMAPPED_BASE

def archGetUnmappedArea (cpu : Cpu) (s : Space) (filp : Option Nat) (addr len pgoff : Nat) (flags : BitVec 32) :
    Option (Except Int Nat × Space) :=
  let shared := decide (flags &&& MAP_SHARED ≠ 0)
  let doAlign := aliasing cpu && (filp.isSome || shared)
  if flags &&& MAP_FIXED ≠ 0 then
    if aliasing cpu && shared && decide (addr % SHMLBA ≠ 0) then some (.error (-EINVAL),s) else some (.ok addr,s)
  else if TASK_SIZE < len then some (.error (-ENOMEM),s)
  else if addr ≠ 0 then
    let hint := placed doAlign addr pgoff
    let found := findVma s.mm hint
    if hint ≤ TASK_SIZE - len && endsBefore found.2 found.1 hint len then some (.ok hint,{s with mm := found.2})
    else searchCached {s with mm := found.2} doAlign len pgoff
  else searchCached s doAlign len pgoff

section
variable {cpu} {s s' : Space} {mm doAlign len pgoff addr hole n vma}

def Coloured (pgoff addr : Nat) : Prop := addr % SHMLBA = (pgoff <<< PAGE_SHIFT) % SHMLBA

theorem colourAlignColoured (addr pgoff : Nat) : Coloured pgoff (colourAlign addr pgoff) := by
  unfold Coloured colourAlign SHMLBA word PAGE_SIZE
  omega

variable {a l hole' startAddr}

theorem scanColoured (here : Coloured pgoff addr)
    (found : scan mm true len pgoff n vma addr hole = some (.found a hole')) : Coloured pgoff a := by
  induction n generalizing vma addr hole with
  | zero => cases found
  | succ n ih =>
    unfold scan at found
    split at found
    · cases found
    split at found
    · cases found
      exact here
    split at found
    · cases found
    · exact ih (colourAlignColoured _ pgoff) found

theorem fullSearchColoured (found : fullSearch s true len pgoff startAddr = some (.found a hole',s')) :
    Coloured pgoff a := by
  obtain ⟨end_,scanned,same⟩ := map_eq_some_iff.mp found
  cases same
  exact scanColoured (colourAlignColoured startAddr pgoff) scanned

theorem settleOk {end_} (ok : settle len s end_ = (.ok a,s')) : ∃ hole, end_ = .found a hole := by
  cases end_ with
  | found addr hole => cases ok; exact ⟨hole,rfl⟩
  | exhausted hole => cases ok

theorem searchColoured (ok : search s true len pgoff startAddr = some (.ok a,s')) : Coloured pgoff a := by
  obtain ⟨⟨end_,s₁⟩,first,rest⟩ := bind_eq_some_iff.mp ok
  cases end_ with
  | found addr hole =>
    obtain ⟨hole',same⟩ := settleOk (some.inj rest)
    cases same
    exact fullSearchColoured first
  | exhausted hole =>
    dsimp only at rest
    split at rest
    · obtain ⟨hole',same⟩ := settleOk (some.inj rest)
      cases same
    · obtain ⟨⟨end_,s₂⟩,second,last⟩ := map_eq_some_iff.mp rest
      obtain ⟨hole',rfl⟩ := settleOk last
      exact fullSearchColoured second

theorem searchCachedColoured (ok : searchCached s true len pgoff = some (.ok a,s')) : Coloured pgoff a := by
  unfold searchCached at ok
  split at ok <;> exact searchColoured ok

/-- The range ends at or below TASK_SIZE and meets no VMA, if every VMA ends there too. -/
def Clear (area : Nat → Area) (l : List Nat) (len a : Nat) : Prop :=
  (∀ x ∈ l, (area x).vmEnd ≤ TASK_SIZE) → a + len ≤ TASK_SIZE ∧ ∀ x ∈ l, (area x).vmEnd ≤ a ∨ a + len ≤ (area x).vmStart

def Answers (area : Nat → Area) (l : List Nat) (len : Nat) (out : Option (Except Int Nat × Space)) : Prop :=
  ∃ r s', out = some (r,s') ∧ Well s'.mm l ∧ ∀ a, r = .ok a → Clear area l len a

section
variable (small : len ≤ TASK_SIZE)
include small

section
variable {low high} (ordered : Ordered (areas mm (low ++ high)))
  (below : (∀ x ∈ low ++ high, (mm.vma x).vmEnd ≤ TASK_SIZE) → ∀ x ∈ low, (mm.vma x).vmEnd ≤ addr)
include ordered below

theorem clearHere (fits : addr ≤ TASK_SIZE - len) (free : endsBefore mm high.head? addr len = true) :
    Clear mm.vma (low ++ high) len addr := by
  refine fun bound => ⟨by omega,fun x mem => ?_⟩
  rcases mem_append.mp mem with early | late
  · exact .inl (below bound x early)
  cases high with
  | nil => cases late
  | cons n rest =>
    have first : (addr + len) % word ≤ (mm.vma n).vmStart := of_decide_eq_true free
    rw [Nat.mod_eq_of_lt (by unfold TASK_SIZE at *; unfold word; omega)] at first
    exact .inr (sortedFrom ordered first x late)

-- the scan has passed low: a colour only moves the address up
theorem scanEnds (walk : Walk mm.vmNext vma high none) (rounds : high.length < n) :
    ∃ end_, scan mm doAlign len pgoff n vma addr hole = some end_ ∧ ∀ a h, end_ = .found a h → Clear mm.vma (low ++ high) len a := by
  induction n generalizing vma addr hole low high with
  | zero => omega
  | succ n ih =>
    unfold scan
    split
    · exact ⟨_,rfl,fun _ _ same => by cases same⟩
    rename_i fits
    split
    · rename_i free
      refine ⟨_,rfl,fun _ _ same => ?_⟩
      cases same
      exact clearHere small ordered below (not_lt.mp fits) (walkHead walk ▸ free)
    rename_i room
    cases high with
    | nil =>
      cases walk
      exact absurd rfl room
    | cons v rest =>
      obtain ⟨rfl,onward⟩ := walk
      have passed := (pairwise_append.mp (endsSorted ordered)).2.2
      rw [append_cons] at ordered ⊢
      refine ih ordered (fun bound x mem => ?_) onward (Nat.lt_of_succ_lt_succ rounds)
      refine le_trans (b := (mm.vma v).vmEnd) ?_ ?_
      · rcases mem_append.mp mem with early | last
        · exact (passed x early v mem_cons_self).le
        · rw [mem_singleton.mp last]
      · have := bound v (by simp)
        unfold TASK_SIZE at this
        unfold colourAlign SHMLBA PAGE_SIZE word
        split <;> omega

end

section
variable {area} (well : Well s.mm l) (same : s.mm.vma = area)
include well same

theorem fullSearchEnds (startAddr : Nat) : ∃ end_ s', fullSearch s doAlign len pgoff startAddr = some (end_,s') ∧
    Well s'.mm l ∧ s'.mm.vma = area ∧ ∀ a h, end_ = .found a h → Clear area l len a := by
  obtain ⟨low,high,rfl,cut⟩ := cutExists well.ordered (placed doAlign startAddr pgoff)
  obtain ⟨first,kept,areas⟩ := findVmaSpec well cut
  have walk := cutHead kept.shape.walk
  rw [← first] at walk
  have rounds : high.length < (findVma s.mm (placed doAlign startAddr pgoff)).2.mapCount + 1 := by
    rw [kept.shape.count,List.length_append]
    omega
  obtain ⟨end_,scanned,clear⟩ := scanEnds small kept.ordered (fun _ => areas ▸ cut.below) walk rounds
  have area := areas.trans same
  exact ⟨end_,_,map_eq_some_iff.mpr ⟨end_,scanned,rfl⟩,kept,area,area ▸ clear⟩

theorem searchEnds (startAddr : Nat) : Answers area l len (search s doAlign len pgoff startAddr) := by
  have settled {s' : Space} {end_} (well : Well s'.mm l) (clear : ∀ a h, end_ = .found a h → Clear area l len a) :
      Answers area l len (some (settle len s' end_)) := by
    refine ⟨_,_,rfl,by cases end_ <;> exact well,fun a ok => ?_⟩
    obtain ⟨hole,found⟩ := settleOk (Prod.ext ok rfl)
    exact clear a hole found
  obtain ⟨end_,s₁,first,well₁,same₁,clear⟩ := fullSearchEnds small well same startAddr
  unfold search
  rw [first]
  cases end_ with
  | found addr hole => exact settled well₁ clear
  | exhausted hole =>
    dsimp only [Option.bind]
    split
    · exact settled well₁ clear
    · obtain ⟨end_,s₂,second,well₂,_,clear⟩ := fullSearchEnds (s := {s₁ with cachedHoleSize := 0}) small well₁ same₁ TASK_UNMAPPED_BASE
      rw [second]
      exact settled well₂ clear

theorem searchCachedEnds : Answers area l len (searchCached s doAlign len pgoff) := by
  unfold searchCached
  split
  · exact searchEnds small well same _
  · exact searchEnds (s := {s with cachedHoleSize := 0}) small well same _

end

end

theorem archReturns (well : Well s.mm l) (cpu : Cpu) (filp : Option Nat) (addr len pgoff : Nat) {flags : BitVec 32}
    (anywhere : flags &&& MAP_FIXED = 0) : Answers s.mm.vma l len (archGetUnmappedArea cpu s filp addr len pgoff flags) := by
  unfold archGetUnmappedArea
  rw [if_neg (not_not.mpr anywhere)]
  dsimp only
  split
  · exact ⟨_,_,rfl,well,fun _ ok => by cases ok⟩
  rename_i long
  have small := not_lt.mp long
  split
  · obtain ⟨low,high,rfl,cut⟩ :=
      cutExists well.ordered (placed (aliasing cpu && (filp.isSome || decide (flags &&& MAP_SHARED ≠ 0))) addr pgoff)
    obtain ⟨first,kept,same⟩ := findVmaSpec well cut
    split
    · rename_i hint
      obtain ⟨fits,free⟩ := Bool.and_eq_true_iff.mp hint
      refine ⟨_,_,rfl,kept,fun a ok => ?_⟩
      cases ok
      exact same ▸ clearHere small kept.ordered (fun _ => same ▸ cut.below) (of_decide_eq_true fits) (first ▸ free)
    · exact searchCachedEnds (s := {s with mm := _}) small kept same
  · exact searchCachedEnds small well rfl

theorem colouredPage {page} (coloured : Coloured pgoff a) (past : pgoff ≤ page) :
    cacheColour (a + (page - pgoff) * PAGE_SIZE) = page % 4 := by
  unfold Coloured SHMLBA PAGE_SHIFT PAGE_SIZE at coloured
  unfold cacheColour SHMLBA PAGE_SIZE
  omega

end

theorem sharedColour (cpu : Cpu) (s : Space) (filp : Option Nat) (addr len pgoff : Nat) (flags : BitVec 32)
    (aliases : aliasing cpu = true) (shared : flags &&& MAP_SHARED ≠ 0) :
    (∀ a s', archGetUnmappedArea cpu s filp addr len pgoff flags = some (.ok a,s') → a % SHMLBA = (pgoff <<< PAGE_SHIFT) % SHMLBA ∧
      ∀ page, pgoff ≤ page → cacheColour (a + (page - pgoff) * PAGE_SIZE) = page % 4) ↔
    flags &&& MAP_FIXED = 0 ∨ addr % SHMLBA ≠ 0 ∨ pgoff % 4 = 0 := by
  simp only [archGetUnmappedArea,aliases,Bool.true_and,decide_eq_true shared,Bool.or_true,decide_eq_true_eq]
  constructor
  · intro right
    by_contra! fault
    obtain ⟨fixed,even,offset⟩ := fault
    rw [if_pos fixed,if_neg (not_not.mpr even)] at right
    have coloured := (right addr s rfl).1
    unfold SHMLBA PAGE_SHIFT PAGE_SIZE at *
    omega
  · intro meets a s' ok
    suffices coloured : Coloured pgoff a from ⟨coloured,fun page past => colouredPage coloured past⟩
    split at ok
    · rename_i fixed
      split at ok
      · cases ok
      rename_i passed
      cases ok
      have offset := (meets.resolve_left fixed).resolve_left passed
      unfold Coloured SHMLBA PAGE_SHIFT PAGE_SIZE at *
      omega
    split at ok
    · cases ok
    split at ok
    · split at ok
      · obtain ⟨same,-⟩ := Prod.mk.inj (some.inj ok)
        rw [← Except.ok.inj same]
        exact colourAlignColoured addr pgoff
      · exact searchCachedColoured ok
    · exact searchCachedColoured ok

def aliasingCpu : Cpu := ⟨0x800,0⟩

def emptySpace : Space := ⟨emptyMm,TASK_UNMAPPED_BASE,0⟩

theorem besideHeap : ∃ mm, mmStep (some emptyMm) (.brk plainEnv 0x40000000 8192) = some mm ∧ Answers mm.vma (inorder mm.mmRb) 4096
    (archGetUnmappedArea aliasingCpu ⟨mm,TASK_UNMAPPED_BASE,0⟩ none 0 4096 0 MAP_SHARED) := by
  obtain ⟨mm,made,formed⟩ := stepGood (some emptyMm) (.brk plainEnv 0x40000000 8192) ⟨_,rfl,emptyFormed ⟨rfl,rfl,rfl,rfl⟩⟩ (by decide)
  exact ⟨mm,made,archReturns (s := ⟨mm,TASK_UNMAPPED_BASE,0⟩) formed aliasingCpu none 0 4096 0 (by decide)⟩

theorem sharedPageColoured : ∃ s', archGetUnmappedArea aliasingCpu emptySpace none 0 8192 3 MAP_SHARED = some (.ok 0x40003000,s') ∧
    0x40003000 % SHMLBA = (3 <<< PAGE_SHIFT) % SHMLBA :=
  ⟨_,rfl,((sharedColour aliasingCpu emptySpace none 0 8192 3 MAP_SHARED (by decide) (by decide)).mpr (.inl (by decide)) _ _ rfl).1⟩

theorem fixedMisplaced : archGetUnmappedArea aliasingCpu emptySpace none 0x40000000 4096 1 (MAP_SHARED ||| MAP_FIXED) =
    some (.ok 0x40000000,emptySpace) ∧ 0x40000000 % SHMLBA ≠ (1 <<< PAGE_SHIFT) % SHMLBA :=
  ⟨rfl,by decide⟩

end EclairKernel.Mmap
