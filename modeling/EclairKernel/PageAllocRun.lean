import EclairKernel.PageAllocSteps
import Mathlib.Algebra.BigOperators.Ring.Finset
import Mathlib.Data.Set.Card

/-! __rmqueue takes a free block from one of the lists it searches, whichever lists
move_freepages has shuffled before, and comes back empty-handed only if all of those lists are
empty from the order asked for upwards. -/
namespace EclairKernel.PageAlloc
open Buddy List Run

variable {z z' p o n page order t t' held}

structure Moved (z z' : Zone) : Prop where
  start : z'.startPfn = z.startPfn
  span : z'.spanned = z.spanned
  hole : z'.hole = z.hole
  page : z'.page = z.page
  nrFree : z'.nrFree = z.nrFree
  pages : z'.nrFreePages = z.nrFreePages
  linked : Linked z'

theorem movedTrans {z''} (first : Moved z z') (second : Moved z' z'') : Moved z z'' :=
  ⟨second.start.trans first.start,second.span.trans first.span,second.hole.trans first.hole,second.page.trans first.page,
    second.nrFree.trans first.nrFree,second.pages.trans first.pages,second.linked⟩

theorem moveOne (linked : Linked z) (mem : ⟨p,o⟩ ∈ freeBlocks z) : Moved z (listAdd (listDel z p) p o t) := by
  obtain ⟨here,buddy,order⟩ := memFree.mp mem
  have own : z.page p = ⟨true,o⟩ := by
    rw [← buddy,show o = (z.page p).order from order.symm]
  have back : Function.update (Function.update z.page p ⟨false,0⟩) p ⟨true,o⟩ = z.page := by
    rw [Function.update_idem,← own,Function.update_eq_self]
  refine ⟨rfl,rfl,rfl,rfl,rfl,rfl,?_⟩
  have off := linkedDelist linked mem
  have on : Linked (enlist (rmvPageOrder (listDel z p) p) p o t) := linkedEnlist off here (by simp)
  exact linkedSame on rfl (freeBlocksSame rfl rfl rfl back.symm)

theorem moveLoopMoved {last moved} (linked : Linked z) (first : z.startPfn ≤ page) (bound : last < z.startPfn + z.spanned) :
    Moved z (moveLoop z page last t moved n).1 := by
  induction n generalizing z page moved with
  | zero => exact ⟨rfl,rfl,rfl,rfl,rfl,rfl,linked⟩
  | succ n ih =>
    simp only [moveLoop]
    split
    · exact ⟨rfl,rfl,rfl,rfl,rfl,rfl,linked⟩
    split
    · exact ih linked (by omega) bound
    rename_i whole
    split
    · exact ih linked (by omega) bound
    rename_i buddy
    have free : ⟨page,(z.page page).order⟩ ∈ freeBlocks z := by
      refine memFree.mpr ⟨⟨?_,by simpa using whole⟩,by simpa using buddy,rfl⟩
      simp only [inSpan,Bool.and_eq_true,decide_eq_true_eq]
      omega
    have one := moveOne (t := t) linked free
    exact movedTrans one (ih one.linked (Nat.le_add_right_of_le first) bound)

theorem moveBlockMoved (linked : Linked z) (here : z.startPfn ≤ page) : Moved z (moveFreepagesBlock z page t).1 := by
  unfold moveFreepagesBlock
  dsimp only
  split
  · exact ⟨rfl,rfl,rfl,rfl,rfl,rfl,linked⟩
  refine moveLoopMoved linked ?_ (by omega)
  split
  · exact here
  · omega

theorem blockTypeMoved (moved : Moved z z') : Moved z (setPageblockMigratetype z' page t) := by
  obtain ⟨start,span,hole,page,nrFree,pages,linked⟩ := moved
  exact ⟨start,span,hole,page,nrFree,pages,linkedSame linked rfl rfl⟩

theorem blockTypeInHand {hand extra} (inHand : InHand z held hand extra) :
    InHand (setPageblockMigratetype z page t) held hand extra := by
  have same : InHand (setPageblockMigratetype z page t) held hand (extra + 0) :=
    inHandSame inHand rfl rfl rfl rfl rfl rfl (Int.add_zero _).symm
  rwa [Int.add_zero] at same

theorem chargeInHand (whole : Whole z held) (mem : ⟨p,o⟩ ∈ freeBlocks z) (moved : Moved (modNrFree z o (-1)) z') :
    InHand (modZonePageState (rmvPageOrder (listDel z' p) p) (-2^order)) held ⟨p,o⟩ (2^o + -2^order) :=
  inHandSame (takeInHand whole mem moved.start moved.span moved.hole moved.page moved.linked moved.nrFree moved.pages) rfl rfl rfl rfl rfl rfl rfl

theorem expandWhole (charged : InHand z held ⟨p,o⟩ (2^o + -2^order)) (le : order ≤ o) :
    Whole (expand z p order t (o - order)) (insert ⟨p,order⟩ held) ∧ (⟨p,order⟩ : Block) ∉ held := by
  obtain ⟨more,rfl⟩ := Nat.exists_eq_add_of_le le
  rw [Nat.add_sub_cancel_left]
  have used := expandInHand (t := t) charged
  exact ⟨useWhole used,used.holding.fresh⟩

theorem modNrFreeMoved (linked : Linked z) : Moved (modNrFree z o (-1)) (modNrFree z o (-1)) :=
  ⟨rfl,rfl,rfl,rfl,rfl,rfl,linkedSame linked rfl rfl⟩

theorem smallestWhole (whole : Whole z held) (found : rmqueueSmallest z order t = some (p,z')) :
    Whole z' (insert ⟨p,order⟩ held) ∧ (⟨p,order⟩ : Block) ∉ held := by
  obtain ⟨o,range,here⟩ := exists_of_findSome?_eq_some found
  rw [mem_range'_1] at range
  cases list : z.freeList o t with
  | nil => simp [list] at here
  | cons page rest =>
    simp only [list,Option.some.injEq,Prod.mk.injEq] at here
    obtain ⟨rfl,rfl⟩ := here
    have free := whole.linked.free o t page (by simp [list])
    exact expandWhole (chargeInHand whole free (modNrFreeMoved whole.linked)) range.1

theorem fallbackPageWhole (whole : Whole z held) (mem : ⟨page,o⟩ ∈ freeBlocks z) (le : order ≤ o) :
    Whole (fallbackPage z order o page t t').2 (insert ⟨page,order⟩ held) ∧ (⟨page,order⟩ : Block) ∉ held := by
  have here : z.startPfn ≤ page := by
    have present := (memFree.mp mem).1.1
    simp only [inSpan,Bool.and_eq_true,decide_eq_true_eq] at present
    exact present.1
  have same := modNrFreeMoved (o := o) whole.linked
  have moved := moveBlockMoved (t := t) same.linked here
  simp only [fallbackPage]
  generalize (decide (o ≥ pageblockOrder >>> 1) || decide (t = .reclaimable)) = claim
  -- the lists may have been shuffled, and the type of the pageblock changed, before and after
  have shuffled : Moved (modNrFree z o (-1))
      (if claim = true then
        if (moveFreepagesBlock (modNrFree z o (-1)) page t).2 ≥ 2^(pageblockOrder - 1) then
          setPageblockMigratetype (moveFreepagesBlock (modNrFree z o (-1)) page t).1 page t
        else (moveFreepagesBlock (modNrFree z o (-1)) page t).1
      else modNrFree z o (-1)) := by
    split
    · split
      · exact blockTypeMoved moved
      · exact moved
    · exact same
  refine expandWhole ?_ le
  have charged : InHand _ held ⟨page,o⟩ (2^o + -2^order) := chargeInHand whole mem shuffled
  split
  · exact blockTypeInHand charged
  · exact charged

theorem rmqueueCases {out} (found : rmqueue z order t = some out) :
    (∃ t', (t' = t ∨ t' = .reserve) ∧ rmqueueSmallest z order t' = some out) ∨
      ∃ o page t', order ≤ o ∧ t' ∈ fallbacks t ∧ page ∈ z.freeList o t' ∧ fallbackPage z order o page t t' = out := by
  unfold rmqueue at found
  split at found
  · rename_i first
    cases found
    exact .inl ⟨t,.inl rfl,first⟩
  unfold rmqueueFallback at found
  dsimp only at found
  split at found
  · rename_i first
    cases found
    obtain ⟨o,range,here⟩ := exists_of_findSome?_eq_some first
    rw [mem_reverse,mem_range'_1] at range
    obtain ⟨t',row,there⟩ := exists_of_findSome?_eq_some here
    split at there
    · cases there
    split at there
    · cases there
    · rename_i page rest list
      exact .inr ⟨o,page,t',range.1,row,by simp [list],Option.some.inj there⟩
  · exact .inl ⟨.reserve,.inr rfl,found⟩

theorem rmqueueWhole (whole : Whole z held) (found : rmqueue z order t = some (p,z')) :
    Whole z' (insert ⟨p,order⟩ held) ∧ (⟨p,order⟩ : Block) ∉ held := by
  rcases rmqueueCases found with ⟨t',_,smallest⟩ | ⟨o,page,t',le,_,mem,result⟩
  · exact smallestWhole whole smallest
  have after : Whole (fallbackPage z order o page t t').2 _ ∧ _ := fallbackPageWhole whole (whole.linked.free o t' page mem) le
  rw [result] at after
  have same : page = p := congrArg Prod.fst result
  exact same ▸ after

theorem smallestEmpty (nothing : rmqueueSmallest z order t = none) (low : order ≤ o) (high : o < MAX_ORDER) : z.freeList o t = [] := by
  have range : o ∈ range' order (MAX_ORDER - order) := by
    rw [mem_range'_1]
    omega
  have here := findSome?_eq_none_iff.mp nothing o range
  cases list : z.freeList o t with
  | nil => rfl
  | cons page rest => simp [list] at here

theorem rmqueueEmpty (nothing : rmqueue z order t = none) (low : order ≤ o) (high : o < MAX_ORDER) :
    z.freeList o t = [] ∧ z.freeList o .reserve = [] ∧ ∀ t' ∈ fallbacks t, z.freeList o t' = [] := by
  unfold rmqueue at nothing
  split at nothing
  · cases nothing
  rename_i first
  unfold rmqueueFallback at nothing
  dsimp only at nothing
  split at nothing
  · cases nothing
  rename_i searched
  have reserve := smallestEmpty nothing low high
  refine ⟨smallestEmpty first low high,reserve,fun t' mem => ?_⟩
  have range : o ∈ (range' order (MAX_ORDER - order)).reverse := by
    rw [mem_reverse,mem_range'_1]
    omega
  have here := findSome?_eq_none_iff.mp (findSome?_eq_none_iff.mp searched o range) t' mem
  split at here
  · rename_i same
    exact same ▸ reserve
  · cases list : z.freeList o t' with
    | nil => rfl
    | cons page rest => simp [list] at here

/-! Runs of __free_one_page and __rmqueue from a zone in which every block is in use. The
free blocks tile the free pages in the one way that leaves no two buddies free, and an
allocation that fails for a type the page allocator asks for leaves no block large enough. -/

open Finset

def IsFree (z : Zone) (p o : Nat) : Prop := present z p ∧ (z.page p).buddy = true ∧ (z.page p).order = o
def FreePage (z : Zone) (q : Nat) : Prop := ∃ p o, IsFree z p o ∧ p ≤ q ∧ q < p + 2^o

structure Fresh (s : Memory) : Prop where
  clear : ∀ p, present s.zone p → (s.zone.page p).buddy = false
  lists : ∀ o t, s.zone.freeList o t = []
  nrFree : ∀ o, s.zone.nrFree o = 0
  nrFreePages : s.zone.nrFreePages = 0
  once : s.used.Nodup
  aligned : ∀ b ∈ s.used, 2^b.order ∣ b.head ∧ b.order < MAX_ORDER
  inside : ∀ b ∈ s.used, ∀ q ∈ pages b, present s.zone q
  apart : ∀ b ∈ s.used, ∀ c ∈ s.used, b ≠ c → Disjoint (pages b) (pages c)

structure ZoneOk (s : Memory) : Prop where
  aligned : ∀ p o, IsFree s.zone p o → 2^o ∣ p ∧ o < MAX_ORDER
  apart : ∀ p o p' o', IsFree s.zone p o → IsFree s.zone p' o' → p ≠ p' → p + 2^o ≤ p' ∨ p' + 2^o' ≤ p
  inUse : ∀ p o, IsFree s.zone p o → ∀ b ∈ s.used, p + 2^o ≤ b.head ∨ b.head + 2^b.order ≤ p
  nrFree : ∀ o, s.zone.nrFree o = {p | IsFree s.zone p o}.ncard
  nrFreePages : s.zone.nrFreePages = {q | FreePage s.zone q}.ncard
  listed : ∀ p o, IsFree s.zone p o → ∃ t, (s.zone.freeList o t).count p = 1 ∧
    ∀ o' t', p ∈ s.zone.freeList o' t' → o' = o ∧ t' = t
  noBuddies : ∀ p o, o < MAX_ORDER - 1 → IsFree s.zone p o → ¬ IsFree s.zone (p ^^^ 2^o) o

structure Sound (s : Memory) : Prop where
  whole : Whole s.zone s.used.toFinset
  once : s.used.Nodup

structure Plain (z : Zone) : Prop where
  list : ∀ o, z.freeList o .isolate = []
  block : ∀ i, z.blockType i ≠ .isolate

section
variable {q idx held_ s s'}

theorem isFreeIff : IsFree z p o ↔ ⟨p,o⟩ ∈ freeBlocks z := (memFree (b := ⟨p,o⟩)).symm

theorem freePageIff : FreePage z q ↔ q ∈ freePages (freeBlocks z) := by
  simp only [FreePage,isFreeIff,freePages,mem_biUnion,memPages]
  constructor
  · rintro ⟨p,o,mem,here⟩
    exact ⟨⟨p,o⟩,mem,here⟩
  · rintro ⟨b,mem,here⟩
    exact ⟨b.head,b.order,mem,here⟩

theorem freshSound (fresh : Fresh s) : Sound s := by
  have none_ : freeBlocks s.zone = ∅ := by
    refine eq_empty_of_forall_notMem fun b mem => ?_
    obtain ⟨here,buddy,_⟩ := memFree.mp mem
    cases (fresh.clear _ here).symm.trans buddy
  have linked : Linked s.zone := ⟨by simp [fresh.lists],by simp [fresh.lists],by simp [none_],by simp [fresh.lists]⟩
  have counted : Counted s.zone := fun o => by simpa [none_] using fresh.nrFree o
  refine ⟨⟨⟨?_,?_,?_,?_,?_⟩,?_,linked,counted,?_⟩,fresh.once⟩
  all_goals simp only [none_,total,empty_union,mem_toFinset]
  · exact fun b mem => (fresh.aligned b mem).1
  · exact fun b mem => Nat.le_sub_one_of_lt (fresh.aligned b mem).2
  · intro b mem c mem' q left right
    by_contra other
    exact disjoint_left.mp (fresh.apart b mem c mem' other) left right
  · exact disjoint_empty_left _
  · simp
  · exact fresh.inside
  · simpa using fresh.nrFreePages

theorem stepSound (s : Memory) (op : MemOp) (sound : Sound s) : Sound (memStep s op) := by
  obtain ⟨whole,once⟩ := sound
  cases op with
  | free b =>
    simp only [memStep]
    split
    · rename_i mem
      have left : (s.used.erase b).toFinset = s.used.toFinset.erase b := by
        ext c
        simp [once.mem_erase_iff]
      refine ⟨?_,once.erase b⟩
      rw [left]
      exact freeWhole whole (mem_toFinset.mpr mem)
    · exact ⟨whole,once⟩
  | rmqueue order t =>
    simp only [memStep]
    split
    · rename_i page zone found
      obtain ⟨after,new⟩ := rmqueueWhole whole found
      refine ⟨?_,nodup_cons.mpr ⟨fun mem => new (mem_toFinset.mpr mem),once⟩⟩
      rw [toFinset_cons]
      exact after
    · exact ⟨whole,once⟩

theorem apartOrShared (p o p' o' : Nat) : p + 2^o ≤ p' ∨ p' + 2^o' ≤ p ∨ ∃ q, q ∈ pages ⟨p,o⟩ ∧ q ∈ pages ⟨p',o'⟩ := by
  have positive := Nat.two_pow_pos o
  have positive' := Nat.two_pow_pos o'
  by_cases left : p + 2^o ≤ p'
  · exact .inl left
  by_cases right : p' + 2^o' ≤ p
  · exact .inr (.inl right)
  refine .inr (.inr ⟨max p p',?_,?_⟩)
  all_goals
    rw [memPages]
    dsimp only
    omega

theorem soundOk (sound : Sound s) : ZoneOk s := by
  obtain ⟨⟨layout,inside,linked,counted,count⟩,once⟩ := sound
  refine ⟨fun p o free => ?_,fun p o p' o' free free' other => ?_,fun p o free b used => ?_,fun o => ?_,?_,fun p o free => ?_,
    fun p o low free free' => ?_⟩
  · have mem := mem_union_left s.used.toFinset (isFreeIff.mp free)
    exact ⟨layout.aligned _ mem,Nat.lt_of_le_pred (by decide) (layout.small _ mem)⟩
  · rcases apartOrShared p o p' o' with before | after | ⟨q,left,right⟩
    · exact .inl before
    · exact .inr after
    · have same := layout.apart _ (mem_union_left _ (isFreeIff.mp free)) _
        (mem_union_left _ (isFreeIff.mp free')) q left right
      exact absurd (congrArg Block.head same) other
  · have mem := isFreeIff.mp free
    have mem' := mem_toFinset.mpr used
    rcases apartOrShared p o b.head b.order with before | after | ⟨q,left,right⟩
    · exact .inl before
    · exact .inr after
    · have same := layout.apart _ (Finset.mem_union_left _ mem) b (Finset.mem_union_right _ mem') q left right
      exact absurd (same ▸ mem') (disjoint_left.mp layout.separate mem)
  · have heads : {p | IsFree s.zone p o} = (((freeBlocks s.zone).filter (·.order = o)).image Block.head : Finset Nat) := by
      ext p
      simp only [isFreeIff,coe_image,coe_filter]
      constructor
      · exact fun mem => ⟨⟨p,o⟩,⟨mem,rfl⟩,rfl⟩
      · rintro ⟨⟨p',o'⟩,⟨mem,rfl⟩,rfl⟩
        exact mem
    rw [heads,Set.ncard_coe_finset,card_image_of_injOn,counted o]
    intro b mem c mem' same
    obtain ⟨head,order⟩ := b
    obtain ⟨head',order'⟩ := c
    simp only [coe_filter,Set.mem_ofPred_eq] at mem mem' same
    rw [same,mem.2,mem'.2]
  · have all : {q | FreePage s.zone q} = (freePages (freeBlocks s.zone) : Finset Nat) := by
      ext q
      exact freePageIff
    rw [all,Set.ncard_coe_finset,cardFreePages layout,count]
    push_cast
    rfl
  · have mem := isFreeIff.mp free
    obtain ⟨t,here⟩ := linked.listed p o mem
    refine ⟨t,count_eq_one_of_mem (linked.once o t) here,fun o' t' there => ?_⟩
    have same := freeOrder (linked.free o' t' p there) mem
    subst same
    exact ⟨rfl,linked.one p _ t' t there here⟩
  · exact layout.clear ⟨p,o⟩ (isFreeIff.mp free) low (isFreeIff.mp free')

theorem soundUnique (sound : Sound s) (sound' : Sound s') (same : ∀ q, FreePage s.zone q ↔ FreePage s'.zone q) :
    IsFree s.zone p o ↔ IsFree s'.zone p o := by
  have equal : freePages (freeBlocks s.zone) = freePages (freeBlocks s'.zone) := by
    ext q
    rw [← freePageIff,← freePageIff]
    exact same q
  rw [isFreeIff,isFreeIff,layoutUnique sound.whole.layout sound'.whole.layout equal]

section
variable (plain : Plain z)
include plain

theorem plainSame (lists : ∀ o, z.freeList o .isolate = [] → z'.freeList o .isolate = [])
    (block : z'.blockType = z.blockType) : Plain z' :=
  ⟨fun o => lists o (plain.list o),block ▸ plain.block⟩

theorem plainDel (p : Nat) : Plain (listDel z p) :=
  plainSame plain (fun o empty => by simp [empty]) rfl

theorem plainAdd (usual : t ≠ .isolate) (p o : Nat) : Plain (listAdd z p o t) := by
  refine plainSame plain (fun o' empty => ?_) rfl
  by_cases same : o' = o
  · subst same
    simp [usual.symm,empty]
  · simp [same,empty]

theorem plainEnlist (usual : t ≠ .isolate) : Plain (enlist z p o t) :=
  plainSame (plainAdd plain usual p o) (fun _ => id) rfl

theorem plainBlockType (usual : t ≠ .isolate) : Plain (setPageblockMigratetype z page t) := by
  refine ⟨plain.list,fun i => ?_⟩
  by_cases same : i = pfnToBitidx z page
  · simpa [same] using usual
  · simpa [same] using plain.block i

theorem plainMerge : Plain (mergeLoop z page idx order n).1 := by
  induction n generalizing z page idx order with
  | zero => exact plain
  | succ n ih =>
    simp only [mergeLoop]
    split
    · exact ih (plainSame (plainDel plain _) (fun _ => id) rfl)
    · exact plain

theorem plainFree : Plain (freeOnePage z page order) := by
  have usual : getPageblockMigratetype z page ≠ .isolate := by
    unfold getPageblockMigratetype
    split
    · decide
    · exact plain.block _
  exact plainEnlist (plainMerge (plainSame plain (fun _ => id) rfl)) usual

theorem plainExpand (usual : t ≠ .isolate) : Plain (expand z page o t n) := by
  induction n generalizing z with
  | zero => exact plain
  | succ n ih => exact ih (plainEnlist plain usual)

end

theorem plainMove {last moved} (plain : Plain z) (usual : t ≠ .isolate) : Plain (moveLoop z page last t moved n).1 := by
  induction n generalizing z page moved with
  | zero => exact plain
  | succ n ih =>
    simp only [moveLoop]
    split
    · exact plain
    split
    · exact ih plain
    split
    · exact ih plain
    · exact ih (plainAdd (plainDel plain _) usual _ _)

theorem plainSmallest (plain : Plain z) (usual : t ≠ .isolate) (found : rmqueueSmallest z order t = some (p,z')) : Plain z' := by
  obtain ⟨o,_,here⟩ := exists_of_findSome?_eq_some found
  split at here
  · cases here
  · cases here
    exact plainExpand (plainSame (plainDel plain p) (fun _ => id) rfl) usual

theorem plainFallbackPage (plain : Plain z) (usual : t ≠ .isolate) (usual' : t' ≠ .isolate) :
    Plain (fallbackPage z order o page t t').2 := by
  have dec : Plain (modNrFree z o (-1)) := plainSame plain (fun _ => id) rfl
  have moved : Plain (moveFreepagesBlock (modNrFree z o (-1)) page t).1 := by
    unfold moveFreepagesBlock
    dsimp only
    split
    · exact dec
    · exact plainMove dec usual
  simp only [fallbackPage]
  generalize (decide (o ≥ pageblockOrder >>> 1) || decide (t = .reclaimable)) = claim
  generalize modNrFree z o (-1) = z' at *
  generalize moveFreepagesBlock z' page t = out at *
  have shuffled : Plain (if claim = true then
        if out.2 ≥ 2^(pageblockOrder - 1) then setPageblockMigratetype out.1 page t else out.1
      else z') := by
    split
    · split
      · exact plainBlockType moved usual
      · exact moved
    · exact dec
  have charged : Plain (modZonePageState (rmvPageOrder (listDel _ page) page) (-2^order)) :=
    plainSame (plainDel shuffled page) (fun _ => id) rfl
  refine plainExpand ?_ ?_
  · split
    · exact plainBlockType charged usual
    · exact charged
  · split
    · exact usual
    · exact usual'

theorem fallbackUsual (mem : t' ∈ fallbacks t) : t' ≠ .isolate := by
  cases t <;> simp [fallbacks] at mem <;> aesop

theorem plainRmqueue (plain : Plain z) (usual : t ≠ .isolate) (found : rmqueue z order t = some (p,z')) : Plain z' := by
  rcases rmqueueCases found with ⟨t',rfl | rfl,smallest⟩ | ⟨o,page,t',_,row,_,result⟩
  · exact plainSmallest plain usual smallest
  · exact plainSmallest plain (by decide) smallest
  · have after : Plain (fallbackPage z order o page t t').2 := plainFallbackPage plain usual (fallbackUsual row)
    rwa [result] at after

def Usual : MemOp → Prop
  | .rmqueue _ t => t ≠ .isolate
  | .free _ => True

theorem stepPlain (s : Memory) (op : MemOp) (plain : Plain s.zone) (usual : Usual op) : Plain (memStep s op).zone := by
  cases op with
  | free b =>
    simp only [memStep]
    split
    · exact plainFree plain
    · exact plain
  | rmqueue order t =>
    simp only [memStep]
    split
    · rename_i page zone found
      exact plainRmqueue plain usual found
    · exact plain

theorem searchedAll (t' : MigrateType) (asked : t = .unmovable ∨ t = .reclaimable ∨ t = .movable) (usual : t' ≠ .isolate) :
    t' = t ∨ t' = .reserve ∨ t' ∈ fallbacks t := by
  rcases asked with rfl | rfl | rfl <;> cases t' <;> simp_all [fallbacks]

theorem nothingLeft (whole : Whole z held_) (plain : Plain z) (asked : t = .unmovable ∨ t = .reclaimable ∨ t = .movable)
    (nothing : rmqueue z order t = none) (free : IsFree z p o) : o < order := by
  by_contra large
  have mem := isFreeIff.mp free
  obtain ⟨t',here⟩ := whole.linked.listed p o mem
  have small : o < MAX_ORDER := Nat.lt_of_le_pred (by decide) (whole.layout.small _ (mem_union_left _ mem))
  obtain ⟨own,reserve,others⟩ := rmqueueEmpty nothing (not_lt.mp large) small
  have usual : t' ≠ .isolate := fun same => by
    rw [same,plain.list o] at here
    cases here
  have empty : z.freeList o t' = [] := by
    rcases searchedAll t' asked usual with rfl | rfl | row
    · exact own
    · exact reserve
    · exact others t' row
  rw [empty] at here
  cases here

end

theorem runZoneOk {s} (fresh : Fresh s) (ops : List MemOp) : ZoneOk (run memStep s ops) ∧
    (∀ s' ops', Fresh s' → (∀ q, FreePage (run memStep s ops).zone q ↔ FreePage (run memStep s' ops').zone q) →
      ∀ p o, IsFree (run memStep s ops).zone p o ↔ IsFree (run memStep s' ops').zone p o) ∧
    ((∀ i, s.zone.blockType i ≠ .isolate) → (∀ op ∈ ops, Usual op) → ∀ order t,
      rmqueue (run memStep s ops).zone order t = none →
        ((t = .unmovable ∨ t = .reclaimable ∨ t = .movable) → ∀ p o, IsFree (run memStep s ops).zone p o → o < order) ∧
        (t = .reserve → ∀ p o, IsFree (run memStep s ops).zone p o → order ≤ o →
          p ∉ (run memStep s ops).zone.freeList o .reserve ∧ p ∉ (run memStep s ops).zone.freeList o .unmovable)) := by
  have reached : ∀ {s : Memory} (ops : List MemOp), Fresh s → Sound (run memStep s ops) :=
    fun ops fresh => runAlways stepSound (freshSound fresh) ops
  have sound := reached ops fresh
  refine ⟨soundOk sound,fun s' ops' fresh' same p o => soundUnique sound (reached ops' fresh') same,fun blocks usual order t nothing => ?_⟩
  have plain := runEach stepPlain ⟨fun o => fresh.lists o _,blocks⟩ usual
  refine ⟨fun asked p o free => nothingLeft sound.whole plain asked nothing free,fun reserve p o free large => ?_⟩
  have small := (soundOk sound).aligned p o free
  obtain ⟨own,_,others⟩ := rmqueueEmpty nothing large small.2
  subst reserve
  rw [own,others .unmovable (by decide)]
  exact ⟨not_mem_nil,not_mem_nil⟩

def inUse (used : List Block) : Memory :=
  ⟨⟨0,2048,fun _ => false,false,fun _ => ⟨false,0⟩,fun _ _ => [],fun _ => 0,0,fun _ => .movable⟩,used⟩

def onePage : Memory := inUse [⟨0,0⟩]

theorem eightPagesFresh : Fresh (inUse [⟨0,3⟩]) := by
  refine ⟨fun _ _ => rfl,fun _ _ => rfl,fun _ => rfl,rfl,by decide,by decide,?_,?_⟩
  · simp only [inUse,List.mem_singleton,forall_eq,pages,present,inSpan,Finset.mem_Ico]
    intro q inside
    simp
    omega
  · simp [inUse]

/-- A page is split off eight movable ones for MIGRATE_UNMOVABLE, then two blocks of two pages
are taken, and the page and one of the blocks come back to their buddies. -/
def splitAndMerge : List MemOp :=
  [.free ⟨0,3⟩, .rmqueue 0 .unmovable, .rmqueue 1 .movable, .rmqueue 1 .movable, .free ⟨0,0⟩, .free ⟨2,1⟩]

theorem splitAndMergeOk : let s := run memStep (inUse [⟨0,3⟩]) splitAndMerge
    ZoneOk s ∧ s.used = [⟨4,1⟩] ∧ IsFree s.zone 0 2 ∧ IsFree s.zone 6 1 ∧ ∀ p o, IsFree s.zone p o → o < 3 := by
  obtain ⟨ok,_,nothing⟩ := runZoneOk eightPagesFresh splitAndMerge
  have none_ : (rmqueue (run memStep (inUse [⟨0,3⟩]) splitAndMerge).zone 3 .movable).isNone = true := by decide +kernel
  refine ⟨ok,by decide +kernel,⟨⟨by decide +kernel,rfl⟩,by decide +kernel,by decide +kernel⟩,
    ⟨⟨by decide +kernel,rfl⟩,by decide +kernel,by decide +kernel⟩,?_⟩
  exact (nothing (by simp [inUse]) (by simp [Usual,splitAndMerge]) 3 .movable (by simpa using none_)).1 (.inr (.inr rfl))

/-- A page on the list of MIGRATE_MOVABLE does not serve a request for MIGRATE_RESERVE: the
row of that type in fallbacks leads nowhere. -/
theorem reserveRefused : (∀ i, onePage.zone.blockType i ≠ .isolate) ∧
    IsFree (run memStep onePage [.free ⟨0,0⟩]).zone 0 0 ∧
    rmqueue (run memStep onePage [.free ⟨0,0⟩]).zone 0 .reserve = none := by
  refine ⟨fun i => by simp [onePage,inUse],⟨⟨by decide +kernel,rfl⟩,by decide +kernel,by decide +kernel⟩,?_⟩
  have none_ : (rmqueue (run memStep onePage [.free ⟨0,0⟩]).zone 0 .reserve).isNone = true := by decide +kernel
  simpa using none_

end EclairKernel.PageAlloc
