import EclairKernel.PageAlloc

/-! What the struct pages, the lists and the counters of a zone say is one layout of blocks.
A block being freed or split is in hand: neither free nor in use. -/
namespace EclairKernel.PageAlloc
open Buddy Function Finset Nat

def present (z : Zone) (p : Nat) : Prop := inSpan z p = true ∧ z.hole p = false

def freeBlocks (z : Zone) : Finset Block :=
  ((Finset.Ico z.startPfn (z.startPfn + z.spanned)).filter fun p => z.hole p = false ∧ (z.page p).buddy = true).image
    fun p => ⟨p,(z.page p).order⟩

structure Linked (z : Zone) : Prop where
  once : ∀ o t, (z.freeList o t).Nodup
  free : ∀ o t, ∀ p ∈ z.freeList o t, ⟨p,o⟩ ∈ freeBlocks z
  listed : ∀ p o, ⟨p,o⟩ ∈ freeBlocks z → ∃ t, p ∈ z.freeList o t
  one : ∀ p o t t', p ∈ z.freeList o t → p ∈ z.freeList o t' → t = t'

def Counted (z : Zone) : Prop := ∀ o, z.nrFree o = ((freeBlocks z).filter (·.order = o)).card

def total (z : Zone) : Int := ∑ b ∈ freeBlocks z, (2 : Int)^b.order

structure Whole (z : Zone) (held : Finset Block) : Prop where
  layout : Layout (MAX_ORDER - 1) (freeBlocks z) held
  inside : ∀ b ∈ freeBlocks z ∪ held, ∀ q ∈ pages b, present z q
  linked : Linked z
  counted : Counted z
  pages : z.nrFreePages = total z

structure InHand (z : Zone) (held : Finset Block) (hand : Block) (extra : Int) : Prop where
  holding : Holding (MAX_ORDER - 1) (freeBlocks z) held hand
  inside : ∀ b ∈ freeBlocks z ∪ insert hand held, ∀ q ∈ Buddy.pages b, present z q
  linked : Linked z
  counted : Counted z
  pages : z.nrFreePages = total z + extra

variable {z z' p o page order t held b hand extra}

theorem memFree : b ∈ freeBlocks z ↔ present z b.head ∧ (z.page b.head).buddy = true ∧ (z.page b.head).order = b.order := by
  obtain ⟨head,order⟩ := b
  simp only [freeBlocks,mem_image,mem_filter,mem_Ico,Block.mk.injEq,present,inSpan,Bool.and_eq_true,decide_eq_true_eq]
  constructor
  · rintro ⟨p,⟨span,whole,buddy⟩,rfl,same⟩
    exact ⟨⟨span,whole⟩,buddy,same⟩
  · rintro ⟨⟨span,whole⟩,buddy,same⟩
    exact ⟨head,⟨span,whole,buddy⟩,rfl,same⟩

theorem freeOrder (mem : ⟨p,o⟩ ∈ freeBlocks z) (mem' : ⟨p,order⟩ ∈ freeBlocks z) : o = order :=
  (memFree.mp mem).2.2.symm.trans (memFree.mp mem').2.2

theorem freeBlocksSame (start : z'.startPfn = z.startPfn) (span : z'.spanned = z.spanned) (hole : z'.hole = z.hole)
    (page : z'.page = z.page) : freeBlocks z' = freeBlocks z := by
  rw [freeBlocks,start,span,hole,page]
  rfl

theorem freeBlocksSet (here : present z p) (clear : (z.page p).buddy = false) :
    freeBlocks (setPageOrder z p o) = insert ⟨p,o⟩ (freeBlocks z) := by
  ext ⟨head,order⟩
  rw [mem_insert,memFree,memFree]
  by_cases same : head = p
  · subst same
    have fresh : present (setPageOrder z head o) head := here
    simp [fresh,clear,eq_comm]
  · simp only [setPageOrder_page,update_of_ne same,Block.mk.injEq,same,false_and,false_or]
    rfl

theorem freeBlocksRmv (mem : ⟨p,o⟩ ∈ freeBlocks z) : freeBlocks (rmvPageOrder z p) = (freeBlocks z).erase ⟨p,o⟩ := by
  ext ⟨head,order⟩
  rw [mem_erase]
  by_cases same : head = p
  · subst same
    have own : ⟨head,order⟩ ∈ freeBlocks z → order = o := fun there => freeOrder there mem
    rw [memFree]
    simpa using fun other there => other (own there)
  · rw [memFree,memFree]
    simp only [rmvPageOrder_page,update_of_ne same,ne_eq,Block.mk.injEq,same,false_and,not_false_eq_true,true_and]
    rfl

theorem freeBlocksEnlist (here : present z p) (clear : (z.page p).buddy = false) :
    freeBlocks (enlist z p o t) = insert ⟨p,o⟩ (freeBlocks z) :=
  (freeBlocksSame rfl rfl rfl rfl).trans (freeBlocksSet here clear)

theorem linkedEnlist (linked : Linked z) (here : present z p) (clear : (z.page p).buddy = false) : Linked (enlist z p o t) := by
  have absent : ∀ o t, p ∉ z.freeList o t := fun o t mem => by
    have free := (memFree.mp (linked.free o t p mem)).2.1
    cases clear.symm.trans free
  have lists : ∀ o' t', (enlist z p o t).freeList o' t' = if o' = o ∧ t' = t then p::z.freeList o t else z.freeList o' t' := fun o' t' => by
    by_cases sameOrder : o' = o
    · subst sameOrder
      by_cases sameType : t' = t
      · simp [enlist,sameType]
      · simp [enlist,sameType]
    · simp [enlist,sameOrder]
  have members : ∀ o' t' q, q ∈ (enlist z p o t).freeList o' t' ↔ (q = p ∧ o' = o ∧ t' = t) ∨ q ∈ z.freeList o' t' := fun o' t' q => by
    rw [lists]
    split
    · rename_i same
      simp [same.1,same.2]
    · rename_i other
      simp [other]
  have blocks : freeBlocks (enlist z p o t) = insert ⟨p,o⟩ (freeBlocks z) := freeBlocksEnlist here clear
  refine ⟨fun o' t' => ?_,fun o' t' q mem => ?_,fun q o' mem => ?_,fun q o' t1 t2 mem1 mem2 => ?_⟩
  · rw [lists]
    split
    · exact List.nodup_cons.mpr ⟨absent o t,linked.once o t⟩
    · exact linked.once o' t'
  · rw [blocks,mem_insert]
    rcases (members o' t' q).mp mem with ⟨rfl,rfl,_⟩ | old
    · exact .inl rfl
    · exact .inr (linked.free o' t' q old)
  · rw [blocks] at mem
    rcases mem_insert.mp mem with new | old
    · cases new
      exact ⟨t,(members _ _ _).mpr (.inl ⟨rfl,rfl,rfl⟩)⟩
    · obtain ⟨t',there⟩ := linked.listed q o' old
      exact ⟨t',(members _ _ _).mpr (.inr there)⟩
  · rcases (members o' t1 q).mp mem1 with ⟨rfl,_,rfl⟩ | old <;> rcases (members o' t2 q).mp mem2 with ⟨same,_,rfl⟩ | old'
    · rfl
    · exact absurd old' (absent o' t2)
    · exact absurd (same ▸ old) (absent o' t1)
    · exact linked.one q o' t1 t2 old old'

theorem linkedDelist (linked : Linked z) (mem : ⟨p,o⟩ ∈ freeBlocks z) : Linked (rmvPageOrder (listDel z p) p) := by
  have blocks : freeBlocks (rmvPageOrder (listDel z p) p) = (freeBlocks z).erase ⟨p,o⟩ :=
    (freeBlocksSame rfl rfl rfl rfl).trans (freeBlocksRmv mem)
  have members : ∀ o t q, q ∈ (rmvPageOrder (listDel z p) p).freeList o t ↔ q ≠ p ∧ q ∈ z.freeList o t := fun o t q => by
    rw [rmvPageOrder_freeList,listDel_freeList,(linked.once o t).mem_erase_iff]
  refine ⟨fun o t => (linked.once o t).erase p,fun o' t q there => ?_,fun q o' there => ?_,fun q o' t1 t2 mem1 mem2 => ?_⟩
  · obtain ⟨other,old⟩ := (members o' t q).mp there
    rw [blocks,mem_erase]
    exact ⟨fun same => other (congrArg Block.head same),linked.free o' t q old⟩
  · rw [blocks,mem_erase] at there
    obtain ⟨other,old⟩ := there
    obtain ⟨t,listed⟩ := linked.listed q o' old
    refine ⟨t,(members o' t q).mpr ⟨fun same => other ?_,listed⟩⟩
    subst same
    rw [freeOrder old mem]
  · exact linked.one q o' t1 t2 ((members o' t1 q).mp mem1).2 ((members o' t2 q).mp mem2).2

theorem cardInsert {free : Finset Block} (fresh : b ∉ free) (o : Nat) :
    (((insert b free).filter (·.order = o)).card : Int) = (free.filter (·.order = o)).card + if o = b.order then 1 else 0 := by
  rw [filter_insert]
  by_cases same : b.order = o
  · rw [if_pos same,if_pos same.symm,card_insert_of_notMem (by simp [fresh])]
    simp
  · rw [if_neg same,if_neg (Ne.symm same),Int.add_zero]

theorem countedInsert (counted : Counted z) (fresh : b ∉ freeBlocks z) (blocks : freeBlocks z' = insert b (freeBlocks z))
    (nrFree : z'.nrFree = update z.nrFree b.order (z.nrFree b.order + 1)) : Counted z' := fun o => by
  rw [blocks,cardInsert fresh,nrFree,← counted o]
  by_cases same : o = b.order
  · subst same
    simp
  · simp [same]

theorem countedErase (counted : Counted z) (mem : b ∈ freeBlocks z) (blocks : freeBlocks z' = (freeBlocks z).erase b)
    (nrFree : z'.nrFree = update z.nrFree b.order (z.nrFree b.order + -1)) : Counted z' := fun o => by
  have back := cardInsert (notMem_erase b (freeBlocks z)) o
  rw [insert_erase mem,← counted o] at back
  rw [blocks,nrFree]
  by_cases same : o = b.order
  · subst same
    rw [update_self]
    omega
  · rw [update_of_ne same]
    omega

theorem totalInsert (fresh : b ∉ freeBlocks z) (blocks : freeBlocks z' = insert b (freeBlocks z)) : total z' = total z + 2^b.order := by
  rw [total,blocks,sum_insert fresh,total,add_comm]

theorem totalErase (mem : b ∈ freeBlocks z) (blocks : freeBlocks z' = (freeBlocks z).erase b) : total z' + 2^b.order = total z := by
  rw [total,blocks,sum_erase_add _ _ mem,total]

/-! Each step of __free_one_page and __rmqueue moves one block: a free block comes into hand,
the block in hand takes in its buddy or gives up its upper half, and in the end it is free or
in use. -/

variable {k n t'}

theorem linkedSame (linked : Linked z) (lists : z'.freeList = z.freeList) (blocks : freeBlocks z' = freeBlocks z) : Linked z' := by
  obtain ⟨once,free,listed,one⟩ := linked
  exact ⟨lists ▸ once,lists ▸ blocks ▸ free,lists ▸ blocks ▸ listed,lists ▸ one⟩

theorem inHandSame {more} (inHand : InHand z held hand extra) (start : z'.startPfn = z.startPfn) (span : z'.spanned = z.spanned)
    (hole : z'.hole = z.hole) (page : z'.page = z.page) (lists : z'.freeList = z.freeList) (nrFree : z'.nrFree = z.nrFree)
    (pages : z'.nrFreePages = z.nrFreePages + more) : InHand z' held hand (extra + more) := by
  obtain ⟨holding,inside,linked,counted,count⟩ := inHand
  have blocks := freeBlocksSame start span hole page
  have here : present z' = present z := by
    funext q
    rw [present,inSpan,start,span,hole]
    rfl
  refine ⟨blocks ▸ holding,blocks ▸ here ▸ inside,linkedSame linked lists blocks,fun o => ?_,?_⟩
  · rw [blocks,nrFree,counted o]
  · have sum : total z' = total z := by rw [total,blocks,total]
    omega

theorem handClear {q} (inHand : InHand z held hand extra) (mem : q ∈ pages hand) : present z q ∧ (z.page q).buddy = false := by
  have here := inHand.inside hand (by simp) q mem
  refine ⟨here,?_⟩
  cases buddy : (z.page q).buddy with
  | false => rfl
  | true =>
    have free : ⟨q,(z.page q).order⟩ ∈ freeBlocks z := memFree.mpr ⟨here,buddy,rfl⟩
    exact absurd (headPage _) (handApart inHand.holding (mem_union_left held free) mem)

theorem takeInHand (whole : Whole z held) (mem : ⟨p,o⟩ ∈ freeBlocks z) (start : z'.startPfn = z.startPfn) (span : z'.spanned = z.spanned)
    (hole : z'.hole = z.hole) (page : z'.page = z.page) (linked : Linked z')
    (nrFree : z'.nrFree = Function.update z.nrFree o (z.nrFree o + -1)) (pages : z'.nrFreePages = z.nrFreePages) :
    InHand (rmvPageOrder (listDel z' p) p) held ⟨p,o⟩ (2^o) := by
  have same := freeBlocksSame start span hole page
  have blocks : freeBlocks (rmvPageOrder (listDel z' p) p) = (freeBlocks z).erase ⟨p,o⟩ := by
    rw [← same]
    exact (freeBlocksSame rfl rfl rfl rfl).trans (freeBlocksRmv (same ▸ mem))
  have here : ∀ q, present z q → present (rmvPageOrder (listDel z' p) p) q := fun q there => by
    rw [present,inSpan] at there ⊢
    rwa [rmvPageOrder_startPfn,rmvPageOrder_spanned,rmvPageOrder_hole,listDel_startPfn,listDel_spanned,listDel_hole,start,span,hole]
  refine ⟨blocks ▸ takeLayout whole.layout mem,fun b there q inside => here q (whole.inside b ?_ q inside),
    linkedDelist linked (same ▸ mem),countedErase whole.counted mem blocks nrFree,?_⟩
  · rw [blocks] at there
    simp only [mem_union,mem_erase,mem_insert] at there ⊢
    rcases there with ⟨_,free⟩ | rfl | used
    · exact .inl free
    · exact .inl mem
    · exact .inr used
  · have sum : total _ + 2^o = total z := totalErase mem blocks
    rw [rmvPageOrder_nrFreePages,listDel_nrFreePages,pages,whole.pages]
    omega

theorem splitInHand (inHand : InHand z held ⟨p,k + 1⟩ extra) : InHand (enlist z (p + 2^k) k t) held ⟨p,k⟩ (extra - 2^k) := by
  obtain ⟨here,clear⟩ := handClear inHand ((halves k p _).mpr (.inr (headPage ⟨p + 2^k,k⟩)))
  obtain ⟨holding,fresh⟩ := splitLayout inHand.holding
  have blocks : freeBlocks (enlist z (p + 2^k) k t) = insert ⟨p + 2^k,k⟩ (freeBlocks z) := freeBlocksEnlist here clear
  refine ⟨blocks ▸ holding,fun b mem q inside => ?_,linkedEnlist inHand.linked here clear,countedInsert inHand.counted fresh blocks rfl,?_⟩
  · have whole : ∀ q ∈ pages ⟨p,k + 1⟩, present z q := fun q => inHand.inside ⟨p,k + 1⟩ (by simp) q
    rw [blocks] at mem
    simp only [mem_union,mem_insert] at mem
    rcases mem with (rfl | free) | rfl | used
    · exact whole q ((halves k p q).mpr (.inr inside))
    · exact inHand.inside b (by simp [free]) q inside
    · exact whole q ((halves k p q).mpr (.inl inside))
    · exact inHand.inside b (by simp [used]) q inside
  · have sum : total _ = total z + 2^k := totalInsert fresh blocks
    have count : (enlist z (p + 2^k) k t).nrFreePages = z.nrFreePages := rfl
    rw [count,inHand.pages]
    omega

theorem expandInHand (inHand : InHand z held ⟨p,o + n⟩ (2^(o + n) - 2^o)) : InHand (expand z p o t n) held ⟨p,o⟩ 0 := by
  induction n generalizing z with
  | zero => simpa [expand] using inHand
  | succ n ih =>
    have less : InHand (enlist z (p + 2^(o + n)) (o + n) t) held ⟨p,o + n⟩ (2^(o + (n + 1)) - 2^o - 2^(o + n)) := splitInHand inHand
    have left : (2 : Int)^(o + (n + 1)) - 2^o - 2^(o + n) = 2^(o + n) - 2^o := by
      rw [← add_assoc]
      omega
    rw [left] at less
    exact ih less

theorem useWhole (inHand : InHand z held hand 0) : Whole z (insert hand held) := by
  obtain ⟨holding,inside,linked,counted,count⟩ := inHand
  exact ⟨holding.layout,inside,linked,counted,by rw [count,Int.add_zero]⟩

theorem reuseInHand (whole : Whole z held) (mem : b ∈ held) : InHand z (held.erase b) b 0 := by
  obtain ⟨layout,inside,linked,counted,count⟩ := whole
  rw [← insert_erase mem] at layout inside
  exact ⟨⟨layout,notMem_erase b held⟩,inside,linked,counted,by rw [count,Int.add_zero]⟩

theorem releaseWhole (inHand : InHand z held b (2^b.order)) (alone : b.order < MAX_ORDER - 1 → buddyOf b ∉ freeBlocks z) :
    Whole (enlist z b.head b.order t) held := by
  obtain ⟨here,clear⟩ := handClear inHand (headPage b)
  have fresh : b ∉ freeBlocks z := fun mem => by
    cases clear.symm.trans (memFree.mp mem).2.1
  have blocks : freeBlocks (enlist z b.head b.order t) = insert b (freeBlocks z) := freeBlocksEnlist here clear
  refine ⟨blocks ▸ releaseLayout inHand.holding alone,fun c mem q inside => ?_,linkedEnlist inHand.linked here clear,
    countedInsert inHand.counted fresh blocks rfl,?_⟩
  · rw [blocks] at mem
    refine inHand.inside c ?_ q inside
    simp only [mem_union,mem_insert] at mem ⊢
    tauto
  · rw [totalInsert fresh blocks]
    exact inHand.pages

theorem isBuddyIff (z : Zone) (p o : Nat) : pageIsBuddy z p o = true ↔ ⟨p,o⟩ ∈ freeBlocks z := by
  rw [memFree,pageIsBuddy,present]
  cases inSpan z p <;> cases z.hole p <;> simp

theorem combinedIndex {low} (aligned : 2^(o + 1) ∣ low) (small : low < 2^32) (order : o < 32) :
    findCombinedIndex low o = low ∧ findCombinedIndex (low + 2^o) o = low := by
  have bit : low.testBit o = false := by
    obtain ⟨q,rfl⟩ := aligned
    simp [testBit_two_pow_mul]
  have mask : 2^o < 2^32 := Nat.pow_lt_pow_right (by decide) order
  have high : ∀ i, 32 ≤ i → low.testBit i = false := fun i above =>
    testBit_lt_two_pow (lt_of_lt_of_le small (Nat.pow_le_pow_right (by decide) above))
  have cleared : ∀ i, (low.testBit i && (decide (i < 32) && !decide (o = i))) = low.testBit i := fun i => by
    by_cases same : o = i
    · subst same
      simp [bit]
    · rcases lt_or_ge i 32 with less | more
      · simp [less,same]
      · simp [high i more]
  constructor
  · apply eq_of_testBit_eq
    intro i
    rw [findCombinedIndex,testBit_and,testBit_two_pow_sub_succ mask,testBit_two_pow]
    exact cleared i
  · rw [← xorAdd aligned]
    apply eq_of_testBit_eq
    intro i
    rw [findCombinedIndex,testBit_and,testBit_two_pow_sub_succ mask,← cleared i]
    by_cases same : o = i
    · simp [same]
    · simp [same]

structure Pair (page order low : Nat) : Prop where
  found : pageFindBuddy page (page % 2^MAX_ORDER) order = (buddyOf ⟨page,order⟩).head
  next : page + findCombinedIndex (page % 2^MAX_ORDER) order - page % 2^MAX_ORDER = low
  index : findCombinedIndex (page % 2^MAX_ORDER) order = low % 2^MAX_ORDER
  aligned : 2^(order + 1) ∣ low
  both : ∀ q ∈ pages ⟨low,order + 1⟩, q ∈ pages ⟨page,order⟩ ∨ q ∈ pages (buddyOf ⟨page,order⟩)

theorem pairOf (aligned : 2^order ∣ page) (small : order < MAX_ORDER - 1) : ∃ low, Pair page order low := by
  have coarse : 2^(order + 1) ∣ 2^MAX_ORDER := pow_dvd_pow 2 (by omega)
  have word : order < 32 := lt_trans small (by decide)
  have fits : ∀ n, n % 2^MAX_ORDER < 2^32 := fun n =>
    lt_of_lt_of_le (mod_lt n (Nat.two_pow_pos MAX_ORDER)) (by decide)
  obtain ⟨low,half,⟨rfl,upper⟩ | ⟨lower,rfl⟩⟩ := xorPair aligned
  · have idxHalf := (dvd_mod_iff coarse).mpr half
    have keep := (combinedIndex idxHalf (fits page) word).1
    refine ⟨page,⟨?_,?_,keep,half,fun q mem => ?_⟩⟩
    · rw [pageFindBuddy,xorAdd idxHalf,buddyOf]
      dsimp only
      omega
    · omega
    · rw [buddyOf,upper]
      exact (halves order page q).mp mem
  · have idxHalf := (dvd_mod_iff coarse).mpr half
    have room := alignedApart idxHalf coarse (mod_lt low (Nat.two_pow_pos MAX_ORDER))
    have idx : (low + 2^order) % 2^MAX_ORDER = low % 2^MAX_ORDER + 2^order := by
      rw [add_mod,mod_eq_of_lt (show 2^order < 2^MAX_ORDER by omega),mod_eq_of_lt (by omega)]
    have keep := (combinedIndex idxHalf (fits low) word).2
    have back : (low % 2^MAX_ORDER + 2^order) ^^^ 2^order = low % 2^MAX_ORDER := by
      rw [← xorAdd idxHalf,Nat.xor_assoc,Nat.xor_self,xor_zero]
    refine ⟨low,⟨?_,?_,idx ▸ keep,half,fun q mem => ?_⟩⟩
    · rw [pageFindBuddy,idx,buddyOf]
      dsimp only
      omega
    · rw [idx]
      omega
    · rw [buddyOf,lower]
      exact ((halves order low q).mp mem).symm

theorem mergeInHand {low} (inHand : InHand z held ⟨page,order⟩ (2^order)) (small : order < MAX_ORDER - 1)
    (pair : Pair page order low) (mem : buddyOf ⟨page,order⟩ ∈ freeBlocks z) :
    InHand (rmvPageOrder (modNrFree (listDel z (buddyOf ⟨page,order⟩).head) order (-1)) (buddyOf ⟨page,order⟩).head)
      held ⟨low,order + 1⟩ (2^(order + 1)) := by
  generalize after : rmvPageOrder (modNrFree (listDel z (buddyOf ⟨page,order⟩).head) order (-1)) (buddyOf ⟨page,order⟩).head = z'
  have blocks : freeBlocks z' = (freeBlocks z).erase (buddyOf ⟨page,order⟩) := by
    subst after
    exact (freeBlocksSame rfl rfl rfl rfl).trans (freeBlocksRmv mem)
  have linked : Linked z' := by
    subst after
    exact linkedSame (linkedDelist inHand.linked mem) rfl rfl
  have here : ∀ q, present z q → present z' q := fun q there => by
    subst after
    exact there
  have counted := countedErase inHand.counted mem blocks (by subst after; rfl)
  have merged := mergeLayout inHand.holding mem pair.aligned small pair.both
  refine ⟨blocks ▸ merged,fun b there q inside => here q ?_,linked,counted,?_⟩
  · rw [blocks] at there
    simp only [mem_union,mem_erase,mem_insert] at there
    rcases there with ⟨_,free⟩ | rfl | used
    · exact inHand.inside b (by simp [free]) q inside
    · rcases pair.both q inside with mine | buddys
      · exact inHand.inside _ (by simp) q mine
      · exact inHand.inside _ (mem_union_left _ mem) q buddys
    · exact inHand.inside b (by simp [used]) q inside
  · have sum : total z' + 2^order = total z := totalErase mem blocks
    have count : z'.nrFreePages = z.nrFreePages := by
      subst after
      rfl
    rw [count,inHand.pages]
    omega

theorem mergeLoopInHand (inHand : InHand z held ⟨page,order⟩ (2^order)) (top : order + n = MAX_ORDER - 1) :
    ∃ page' order', (mergeLoop z page (page % 2^MAX_ORDER) order n).2 = (page',order') ∧
      InHand (mergeLoop z page (page % 2^MAX_ORDER) order n).1 held ⟨page',order'⟩ (2^order') ∧
      (order' < MAX_ORDER - 1 → buddyOf ⟨page',order'⟩ ∉ freeBlocks (mergeLoop z page (page % 2^MAX_ORDER) order n).1) := by
  induction n generalizing z page order with
  | zero => exact ⟨page,order,rfl,inHand,fun less => absurd less (by omega)⟩
  | succ n ih =>
    have aligned : 2^order ∣ page := inHand.holding.layout.aligned ⟨page,order⟩ (by simp)
    obtain ⟨low,pair⟩ := pairOf aligned (by omega)
    simp only [mergeLoop,pair.found]
    split
    · rename_i free
      have mem := (isBuddyIff z _ _).mp free
      rw [pair.next,pair.index]
      exact ih (mergeInHand inHand (by omega) pair mem) (by omega)
    · rename_i busy
      exact ⟨page,order,rfl,inHand,fun _ mem => busy ((isBuddyIff z _ _).mpr mem)⟩

theorem freeWhole (whole : Whole z held) (mem : b ∈ held) : Whole (freeOnePage z b.head b.order) (held.erase b) := by
  have inHand := reuseInHand whole mem
  have small := whole.layout.small b (mem_union_right _ mem)
  have charged : InHand (modZonePageState z (2^b.order)) (held.erase b) b (0 + 2^b.order) := inHandSame inHand rfl rfl rfl rfl rfl rfl rfl
  rw [Int.zero_add] at charged
  obtain ⟨page,order,ends,merged,alone⟩ := mergeLoopInHand charged (n := MAX_ORDER - 1 - b.order) (by omega)
  unfold freeOnePage
  dsimp only
  rw [and_two_pow_sub_one_eq_mod,ends]
  exact releaseWhole merged alone

end EclairKernel.PageAlloc
