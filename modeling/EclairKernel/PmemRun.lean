import EclairKernel.Pmem

/-! The invariant of the pmem bitmap over allocate and free: the blocks tile the
device, only block heads carry the allocated bit although interior entries keep
stale orders, and no two free blocks of one order are buddies. -/
namespace EclairKernel.Pmem
open Buddy List Run

variable {i fuel : Nat} {p l}

theorem orderSetSame (p : Info) {k} (small : k < 128) : pmemOrderAt (setOrder p i k) i = k := by
  simp [pmemOrderAt,setOrder,Nat.mod_eq_of_lt small]

variable {j order curr p' best}

theorem orderSetOther (p : Info) (k : Nat) (other : j ≠ i) : pmemOrderAt (setOrder p i k) j = pmemOrderAt p j := by
  simp [pmemOrderAt,setOrder,other]

theorem allocatedSetOrder (p : Info) (i k j : Nat) :
    ((setOrder p i k).bitmap j).allocated = (p.bitmap j).allocated := by
  simp only [setOrder]
  split <;> rfl

theorem orderSetAllocated (p : Info) (i j : Nat) (a : Bool) :
    pmemOrderAt (setAllocated p i a) j = pmemOrderAt p j := by
  simp only [pmemOrderAt,setAllocated]
  split <;> rfl

theorem walkChain (chain : Chain (pmemOrderAt p) i l p.numEntries)
    (enough : p.numEntries ≤ i + fuel) : walk p fuel i = l := by
  induction fuel generalizing i l with
  | zero =>
    have low := chainLe chain
    have same : i = p.numEntries := by omega
    subst same
    exact (chainEmpty chain).symm
  | succ fuel ih =>
    cases l with
    | nil =>
      have same : i = p.numEntries := chain
      simp [walk,same]
    | cons j rest =>
      have inside := chainBelow chain mem_cons_self
      obtain ⟨rfl,_,tail⟩ := chain
      simp only [walk,inside]
      exact congrArg _ (ih tail (by omega))

def Unallocated (p : Info) (j : Nat) : Prop := j < p.numEntries → (p.bitmap j).allocated = false
instance (p j) : Decidable (Unallocated p j) := by unfold Unallocated; infer_instance

theorem unallocatedOfFree (free : pmemIsFree p i = true) : Unallocated p i :=
  fun _ => by simpa [pmemIsFree] using free

structure Tiles (p : Info) (l : List Nat) (free : Nat → Prop) : Prop where
  small : p.numEntries < 2^20
  chain : Chain (pmemOrderAt p) 0 l p.numEntries
  heads : ∀ j, ¬ Unallocated p j → j ∈ l
  clear : NoBuddies (pmemOrderAt p) free l

theorem tilesBlocks {free} (tiles : Tiles p l free) : blocks p = l :=
  walkChain tiles.chain (by omega)

theorem orderSmall {free} (tiles : Tiles p l free) (mem : j ∈ l) : pmemOrderAt p j < 20 := by
  have inside := (chainMember tiles.chain mem).2.2
  have := tiles.small
  exact (Nat.pow_lt_pow_iff_right (by decide)).mp (show 2^pmemOrderAt p j < 2^20 by omega)

structure Frame (p p' : Info) : Prop where
  noAllocator : p'.noAllocator = p.noAllocator
  numEntries : p'.numEntries = p.numEntries
  marks : ∀ j, (p'.bitmap j).allocated = (p.bitmap j).allocated

theorem Frame.unallocated (frame : Frame p p') (j : Nat) : Unallocated p' j ↔ Unallocated p j := by
  rw [Unallocated,Unallocated,frame.numEntries,frame.marks]

theorem frameRefl (p : Info) : Frame p p := ⟨rfl,rfl,fun _ => rfl⟩

theorem frameSetOrder (p : Info) (i k : Nat) : Frame p (setOrder p i k) := ⟨rfl,rfl,allocatedSetOrder p i k⟩

theorem frameTrans {q r} (first : Frame p q) (second : Frame q r) : Frame p r :=
  ⟨second.1.trans first.1,second.2.trans first.2,fun j => (second.3 j).trans (first.3 j)⟩

theorem tilesExcept (tiles : Tiles p l (Unallocated p)) (best : Nat) : Tiles p l (fun j => Unallocated p j ∧ j ≠ best) :=
  ⟨tiles.small,tiles.chain,tiles.heads,fun x hx hy freeX freeY => tiles.clear x hx hy freeX.1 freeY.1⟩

theorem splitStep (tiles : Tiles p l (fun j => Unallocated p j ∧ j ≠ best)) (mem : best ∈ l)
    (larger : pmemOrderAt p best ≠ 0) :
    ∃ k p' l', pmemOrderAt p best = k + 1 ∧ p' = setOrder (setOrder p best k) (best + 2^k) k ∧
      pmemBuddyIndex (setOrder p best (pmemOrderAt p best - 1)) best = best + 2^k ∧
      setOrder (setOrder p best (pmemOrderAt p best - 1)) (best + 2^k) (pmemOrderAt (setOrder p best (pmemOrderAt p best - 1)) best) = p' ∧
      Frame p p' ∧ Tiles p' l' (fun j => Unallocated p' j ∧ j ≠ best) ∧ best ∈ l' ∧ pmemOrderAt p' best = k := by
  obtain ⟨k,order⟩ := Nat.exists_eq_succ_of_ne_zero larger
  have bound := orderSmall tiles mem
  have aligned := (chainMember tiles.chain mem).2.1
  rw [order] at aligned
  have kept : pmemOrderAt (setOrder p best k) best = k := orderSetSame p (by omega)
  have buddy : pmemBuddyIndex (setOrder p best k) best = best + 2^k := by
    rw [pmemBuddyIndex,kept]
    exact xorAdd aligned
  have frame := frameTrans (frameSetOrder p best k) (frameSetOrder (setOrder p best k) (best + 2^k) k)
  have low : pmemOrderAt (setOrder (setOrder p best k) (best + 2^k) k) best = k := by
    rw [orderSetOther _ _ (by omega),orderSetSame _ (by omega)]
  have high : pmemOrderAt (setOrder (setOrder p best k) (best + 2^k) k) (best + 2^k) = k :=
    orderSetSame _ (by omega)
  have others : ∀ x, x ≠ best → x ≠ best + 2^k →
      pmemOrderAt (setOrder (setOrder p best k) (best + 2^k) k) x = pmemOrderAt p x := by
    intro x other apart
    rw [orderSetOther _ _ apart,orderSetOther _ _ other]
  obtain ⟨l',chain,members⟩ := chainSplit tiles.chain mem order low high others
  refine ⟨k,_,l',order,rfl,by rw [order]; exact buddy,by rw [order,Nat.succ_sub_one,kept],frame,⟨tiles.small,chain,?_,?_⟩,(members best).mpr (.inl mem),low⟩
  · intro j taken
    exact (members j).mpr (.inl (tiles.heads j (fun free => taken ((frame.unallocated j).mpr free))))
  · have clear := noBuddiesSplit tiles.clear aligned high others members
    simpa [frame.unallocated] using clear

theorem splitLoopTiles (tiles : Tiles p l (fun j => Unallocated p j ∧ j ≠ best))
    (mem : best ∈ l) (low : order ≤ pmemOrderAt p best) (enough : pmemOrderAt p best ≤ order + fuel) :
    ∃ l', Frame p (splitLoop order best fuel p) ∧
      Tiles (splitLoop order best fuel p) l' (fun j => Unallocated (splitLoop order best fuel p) j ∧ j ≠ best) ∧
      best ∈ l' ∧ pmemOrderAt (splitLoop order best fuel p) best = order := by
  induction fuel generalizing p l with
  | zero => exact ⟨l,frameRefl _,tiles,mem,le_antisymm enough low⟩
  | succ fuel ih =>
    unfold splitLoop
    split
    · rename_i larger
      obtain ⟨k,p',l',order',_,buddy,same,frame,tiles',mem',now⟩ := splitStep tiles mem (Nat.ne_zero_of_lt larger)
      dsimp only
      rw [buddy,same]
      obtain ⟨l'',frame',rest⟩ := ih tiles' mem' (by omega) (by omega)
      exact ⟨l'',frameTrans frame frame',rest⟩
    · exact ⟨l,frameRefl _,tiles,mem,by omega⟩

theorem mergeStep {lo hi k} (tiles : Tiles p l (fun j => Unallocated p j ∧ j ≠ lo ∧ j ≠ hi))
    (left : lo ∈ l) (right : hi ∈ l) (pair : hi = lo + 2^k) (low : pmemOrderAt p lo = k)
    (high : pmemOrderAt p hi = k) (aligned : 2^(k+1) ∣ lo) (frame : Frame p p')
    (free : Unallocated p hi) (merged : pmemOrderAt p' lo = k + 1)
    (others : ∀ x, x ≠ lo → x ≠ hi → pmemOrderAt p' x = pmemOrderAt p x) :
    ∃ l', Tiles p' l' (fun j => Unallocated p' j ∧ j ≠ lo) ∧ lo ∈ l' := by
  subst pair
  obtain ⟨l',chain,members⟩ := chainMerge tiles.chain left right low high aligned merged others
  refine ⟨l',⟨frame.numEntries ▸ tiles.small,frame.numEntries ▸ chain,?_,?_⟩,(members lo).mpr ⟨left,by omega⟩⟩
  · intro j taken
    have old : ¬ Unallocated p j := fun h => taken ((frame.unallocated j).mpr h)
    exact (members j).mpr ⟨tiles.heads j old,fun same => old (same ▸ free)⟩
  · exact noBuddiesMerge tiles.clear others members
      fun x hx other apart => ⟨(frame.unallocated x).mp hx,other,apart⟩

section
variable (tiles : Tiles p l (fun j => Unallocated p j ∧ j ≠ curr)) (mem : curr ∈ l)
include tiles mem

theorem mergeStops (stop : ¬ (pmemIsFree p (pmemBuddyIndex p curr) = true ∧
      pmemOrderAt p (pmemBuddyIndex p curr) = pmemOrderAt p curr)) : Tiles p l (Unallocated p) := by
  refine ⟨tiles.small,tiles.chain,tiles.heads,?_⟩
  intro x hx hy freeX freeY same aligned
  have blocked : ∀ y ∈ l, Unallocated p y → pmemOrderAt p y = pmemOrderAt p curr →
      pmemBuddyIndex p curr ≠ y := by
    rintro y hy free order rfl
    refine stop ⟨?_,order⟩
    rw [pmemIsFree,free (chainBelow tiles.chain hy)]
    rfl
  by_cases lower : x = curr
  · subst lower
    exact blocked _ hy freeY same (xorAdd aligned)
  by_cases upper : x + 2^pmemOrderAt p x = curr
  · refine blocked x hx freeX (upper ▸ same.symm) ?_
    rw [pmemBuddyIndex,← upper,same,← xorAdd aligned,Nat.xor_assoc,Nat.xor_self,Nat.xor_zero]
  · exact tiles.clear x hx hy ⟨freeX,lower⟩ ⟨freeY,upper⟩ same aligned

theorem mergePass (free : Unallocated p curr) {buddy} (named : pmemBuddyIndex p curr = buddy)
    (inside : buddy < p.numEntries) (buddyFree : Unallocated p buddy)
    (order : pmemOrderAt p buddy = pmemOrderAt p curr) (frame : Frame p p')
    (ownNow : pmemOrderAt p' curr = pmemOrderAt p curr + 1) (buddyNow : pmemOrderAt p' buddy = pmemOrderAt p curr + 1)
    (others : ∀ x, x ≠ curr → x ≠ buddy → pmemOrderAt p' x = pmemOrderAt p x) :
    ∃ l', Tiles p' l' (fun j => Unallocated p' j ∧ j ≠ min buddy curr) ∧ min buddy curr ∈ l' ∧
      Unallocated p' (min buddy curr) ∧ pmemOrderAt p' (min buddy curr) = pmemOrderAt p curr + 1 := by
  generalize own : pmemOrderAt p curr = k at *
  have aligned := (chainMember tiles.chain mem).2.1
  rw [pmemBuddyIndex,own] at named
  rw [own] at aligned
  have weaker : Tiles p l (fun j => Unallocated p j ∧ j ≠ curr ∧ j ≠ buddy) :=
    ⟨tiles.small,tiles.chain,tiles.heads,fun x hx hy freeX freeY =>
      tiles.clear x hx hy ⟨freeX.1,freeX.2.1⟩ ⟨freeY.1,freeY.2.1⟩⟩
  obtain ⟨lo,even,⟨rfl,upper⟩ | ⟨lower,upper⟩⟩ := xorPair aligned
  · rw [named] at upper
    have above : buddy ∈ l := by
      have next := nextMember tiles.chain mem (by rw [own,← upper]; exact inside)
      rwa [own,← upper] at next
    have least : min buddy curr = curr := by omega
    rw [least]
    obtain ⟨l',tiles',mem'⟩ := mergeStep weaker mem above upper own order even frame buddyFree ownNow others
    exact ⟨l',tiles',mem',(frame.unallocated curr).mpr free,ownNow⟩
  · rw [named] at lower
    subst lower
    have below := lowerHalfMember tiles.chain (upper ▸ mem) even
    have least : min buddy curr = buddy := by omega
    rw [least]
    have weaker : Tiles p l (fun j => Unallocated p j ∧ j ≠ buddy ∧ j ≠ curr) :=
      ⟨weaker.small,weaker.chain,weaker.heads,by simpa only [and_comm] using weaker.clear⟩
    obtain ⟨l',tiles',mem'⟩ := mergeStep weaker below mem upper order own even frame free buddyNow
      fun x other apart => others x apart other
    exact ⟨l',tiles',mem',(frame.unallocated buddy).mpr buddyFree,buddyNow⟩

theorem mergeRound (free : Unallocated p curr) (inside : pmemBuddyIndex p curr < p.numEntries) (found : pmemIsFree p (pmemBuddyIndex p curr) = true ∧
      pmemOrderAt p (pmemBuddyIndex p curr) = pmemOrderAt p curr) :
    ∃ p', setOrder (setOrder p (pmemBuddyIndex p curr) (pmemOrderAt p (pmemBuddyIndex p curr) + 1)) curr
        (pmemOrderAt (setOrder p (pmemBuddyIndex p curr) (pmemOrderAt p (pmemBuddyIndex p curr) + 1)) curr + 1) = p' ∧
      Frame p p' ∧ ∃ l', Tiles p' l' (fun j => Unallocated p' j ∧ j ≠ min (pmemBuddyIndex p curr) curr) ∧
        min (pmemBuddyIndex p curr) curr ∈ l' ∧ Unallocated p' (min (pmemBuddyIndex p curr) curr) ∧
        pmemOrderAt p' (min (pmemBuddyIndex p curr) curr) = pmemOrderAt p curr + 1 := by
  obtain ⟨isFree,order⟩ := found
  have buddyFree := unallocatedOfFree isFree
  have bound := orderSmall tiles mem
  generalize named : pmemBuddyIndex p curr = buddy at *
  have apart : curr ≠ buddy := by
    intro same
    rw [pmemBuddyIndex,same] at named
    have zero := congrArg (buddy ^^^ ·) named
    simp only [← Nat.xor_assoc,Nat.xor_self,Nat.zero_xor] at zero
    exact absurd zero (Nat.two_pow_pos _).ne'
  have kept : pmemOrderAt (setOrder p buddy (pmemOrderAt p buddy + 1)) curr = pmemOrderAt p curr :=
    orderSetOther _ _ apart
  rw [kept,order]
  have ownNow := orderSetSame (setOrder p buddy (pmemOrderAt p curr + 1)) (i := curr)
    (k := pmemOrderAt p curr + 1) (by omega)
  have buddyNow : pmemOrderAt (setOrder (setOrder p buddy (pmemOrderAt p curr + 1)) curr
      (pmemOrderAt p curr + 1)) buddy = pmemOrderAt p curr + 1 := by
    rw [orderSetOther _ _ apart.symm,orderSetSame _ (by omega)]
  have frame := frameTrans (frameSetOrder p buddy (pmemOrderAt p curr + 1))
    (frameSetOrder (setOrder p buddy (pmemOrderAt p curr + 1)) curr (pmemOrderAt p curr + 1))
  exact ⟨_,rfl,frame,mergePass tiles mem free named inside buddyFree order frame
    ownNow buddyNow fun x other other' => by rw [orderSetOther _ _ other,orderSetOther _ _ other']⟩

end

/-! The merge loop looks at the buddy before it knows that there is one. Only the last block
that the setup made has none; for it the entry behind the bitmap is read. -/

def lastHead (numEntries : Nat) : Nat := numEntries &&& (numEntries - 1)

def Incomplete (p : Info) (index : Nat) : Prop :=
  index < lastHead p.numEntries ∨ ∃ j ∈ blocks p, lastHead p.numEntries ≤ j ∧ j ≠ index ∧ ¬Unallocated p j

/-- The entry behind the bitmap does not read as a free block of the size of the last one. -/
def Fenced (p : Info) : Prop :=
  pmemIsFree p p.numEntries = true → lastHead p.numEntries + 2^pmemOrderAt p p.numEntries ≠ p.numEntries

theorem lastHeadEq {n k} (aligned : 2^(k + 1) ∣ curr) (whole : curr + 2^k = n) : lastHead n = curr := by
  obtain ⟨q,rfl⟩ := aligned
  have less : 2^k < 2^(k + 1) := Nat.pow_lt_pow_right (by decide) (Nat.lt_succ_self k)
  have before : n - 1 = 2^(k + 1) * q + (2^k - 1) := by omega
  rw [lastHead,before,← whole,Nat.two_pow_add_eq_or_of_lt less,Nat.two_pow_add_eq_or_of_lt (by omega),
    ← Nat.or_and_distrib_left,Nat.and_two_pow_sub_one_eq_mod,Nat.mod_self,Nat.or_zero]

theorem buddyEnds {free} (tiles : Tiles p l free) (mem : curr ∈ l) : pmemBuddyIndex p curr < p.numEntries ∨
    pmemBuddyIndex p curr = p.numEntries ∧ lastHead p.numEntries = curr ∧ curr + 2^pmemOrderAt p curr = p.numEntries := by
  obtain ⟨_,aligned,fits⟩ := chainMember tiles.chain mem
  unfold pmemBuddyIndex
  obtain ⟨lo,even,⟨own,upper⟩ | ⟨lower,own⟩⟩ := xorPair aligned
  · subst own
    rw [upper]
    rcases Nat.lt_or_eq_of_le fits with inside | whole
    · exact .inl inside
    · exact .inr ⟨whole,lastHeadEq even whole,whole⟩
  · exact .inl (by omega)

structure Merging (p : Info) (index curr : Nat) : Prop where
  low : curr ≤ index
  high : index < curr + 2^pmemOrderAt p curr
  rest : index < lastHead p.numEntries ∨ ∃ j, lastHead p.numEntries ≤ j ∧ ¬Unallocated p j

theorem Merging.buddy {index free} (merging : Merging p index curr) (tiles : Tiles p l free) (mem : curr ∈ l)
    (unallocated : Unallocated p curr) : pmemBuddyIndex p curr < p.numEntries := by
  refine (buddyEnds tiles mem).resolve_right ?_
  rintro ⟨_,last,whole⟩
  rcases merging.rest with below | ⟨j,after,taken⟩
  · have := merging.low
    omega
  have listed := tiles.heads j taken
  have below := chainBelow tiles.chain listed
  rcases Nat.lt_or_eq_of_le (last ▸ after) with less | rfl
  · have := chainApart tiles.chain mem listed less
    omega
  · exact taken unallocated

theorem Merging.next {index} (merging : Merging p index curr) (aligned : 2^pmemOrderAt p curr ∣ curr) (frame : Frame p p')
    (order : pmemOrderAt p' (min (pmemBuddyIndex p curr) curr) = pmemOrderAt p curr + 1) :
    Merging p' index (min (pmemBuddyIndex p curr) curr) := by
  obtain ⟨low,high,rest⟩ := merging
  have kept : index < lastHead p'.numEntries ∨ ∃ j, lastHead p'.numEntries ≤ j ∧ ¬Unallocated p' j := by
    rw [frame.numEntries]
    refine rest.imp id ?_
    rintro ⟨j,after,taken⟩
    exact ⟨j,after,fun free => taken ((frame.unallocated j).mp free)⟩
  refine ⟨le_trans (min_le_right ..) low,?_,kept⟩
  rw [order]
  unfold pmemBuddyIndex
  obtain ⟨lo,even,⟨own,upper⟩ | ⟨lower,own⟩⟩ := xorPair aligned
  all_goals omega

theorem guardInside {index free} (guard : Fenced p ∨ Merging p index curr) (tiles : Tiles p l free) (mem : curr ∈ l)
    (unallocated : Unallocated p curr) (found : pmemIsFree p (pmemBuddyIndex p curr) = true ∧
      pmemOrderAt p (pmemBuddyIndex p curr) = pmemOrderAt p curr) : pmemBuddyIndex p curr < p.numEntries := by
  rcases guard with fenced | merging
  · refine (buddyEnds tiles mem).resolve_right ?_
    rintro ⟨past,last,whole⟩
    rw [past] at found
    exact fenced found.1 (by rw [found.2,last,whole])
  · exact merging.buddy tiles mem unallocated

theorem mergeLoopTiles {index} (guard : Fenced p ∨ Merging p index curr) (tiles : Tiles p l (fun j => Unallocated p j ∧ j ≠ curr))
    (mem : curr ∈ l) (free : Unallocated p curr) (enough : p.numEntries < 2^(pmemOrderAt p curr + fuel)) :
    ∃ l', Frame p (mergeLoop fuel curr p) ∧
      Tiles (mergeLoop fuel curr p) l' (Unallocated (mergeLoop fuel curr p)) := by
  induction fuel generalizing p l curr with
  | zero =>
    have inside := (chainMember tiles.chain mem).2.2
    rw [add_zero] at enough
    omega
  | succ fuel ih =>
    unfold mergeLoop
    dsimp only
    split
    · rename_i found
      have inside := guardInside guard tiles mem free found
      obtain ⟨p',same,frame,l',tiles',mem',free',order'⟩ := mergeRound tiles mem free inside found
      have room := chainBelow tiles'.chain mem'
      have here := chainBelow tiles.chain mem
      have guard' : Fenced p' ∨ Merging p' index (min (pmemBuddyIndex p curr) curr) := by
        refine guard.imp (fun fenced => ?_) fun merging => merging.next (chainMember tiles.chain mem).2.1 frame order'
        have past : pmemOrderAt p' p.numEntries = pmemOrderAt p p.numEntries := by
          rw [← same,orderSetOther _ _ here.ne',orderSetOther _ _ inside.ne']
        rw [Fenced,frame.numEntries,past,pmemIsFree,frame.marks]
        exact fenced
      rw [same,if_pos room]
      obtain ⟨l'',frame',rest⟩ := ih guard' tiles' mem' free' (by
        rw [frame.numEntries]
        exact Nat.lt_of_lt_of_eq enough (by congr 1; omega))
      exact ⟨l'',frameTrans frame frame',rest⟩
    · exact ⟨l,frameRefl _,mergeStops tiles mem ‹_›⟩

structure Inv (p : Info) : Prop where
  buddy : p.noAllocator = false
  tiles : Tiles p (blocks p) (Unallocated p)

theorem unallocatedCleared : Unallocated (setAllocated p i false) j ↔ j = i ∨ Unallocated p j := by
  simp only [Unallocated,setAllocated]
  split <;> simp [*]

theorem unallocatedTaken (inside : i < p.numEntries) : Unallocated (setAllocated p i true) j ↔ Unallocated p j ∧ j ≠ i := by
  simp only [Unallocated,setAllocated]
  split <;> simp [*]

theorem clearedTiles (inv : Inv p) (index : Nat) : Tiles (setAllocated p index false) (blocks p)
    (fun j => Unallocated (setAllocated p index false) j ∧ j ≠ index) := by
  have tiles := inv.tiles
  have order : pmemOrderAt (setAllocated p index false) = pmemOrderAt p :=
    funext fun j => orderSetAllocated p index j false
  refine ⟨tiles.small,order ▸ tiles.chain,?_,?_⟩
  · exact fun j taken => tiles.heads j fun free => taken (unallocatedCleared.mpr (.inr free))
  · rw [order]
    intro x hx hy freeX freeY
    have drop : ∀ {y}, Unallocated (setAllocated p index false) y ∧ y ≠ index → Unallocated p y :=
      fun free => (unallocatedCleared.mp free.1).resolve_left free.2
    exact tiles.clear x hx hy (drop freeX) (drop freeY)

theorem clearedMerging {index} (incomplete : Incomplete p index) : Merging (setAllocated p index false) index index := by
  have positive : 0 < 2^pmemOrderAt (setAllocated p index false) index := Nat.two_pow_pos _
  refine ⟨le_rfl,by omega,incomplete.imp id ?_⟩
  rintro ⟨j,_,after,other,taken⟩
  exact ⟨j,after,fun free => taken ((unallocatedCleared.mp free).resolve_left other)⟩

theorem freeKeeps (inv : Inv p) {index} (mem : index ∈ blocks p) (guard : Fenced p ∨ Incomplete p index) :
    Inv (pmemFree p index) ∧ Frame (setAllocated p index false) (pmemFree p index) := by
  have enough : p.numEntries < 2^(pmemOrderAt (setAllocated p index false) index + p.numEntries) :=
    lt_of_lt_of_le Nat.lt_two_pow_self (Nat.pow_le_pow_right (by decide) (Nat.le_add_left _ _))
  have inside := chainBelow inv.tiles.chain mem
  have cleared : Fenced (setAllocated p index false) ∨ Merging (setAllocated p index false) index index := by
    refine guard.imp (fun fenced => ?_) clearedMerging
    rw [Fenced,orderSetAllocated]
    simpa [Fenced,pmemIsFree,setAllocated,inside.ne'] using fenced
  obtain ⟨l,frame,rest⟩ := mergeLoopTiles cleared (clearedTiles inv index) mem (unallocatedCleared.mpr (.inl rfl)) enough
  rw [pmemFree,inv.buddy]
  have same := tilesBlocks rest
  exact ⟨⟨frame.noAllocator.trans inv.buddy,same ▸ rest⟩,frame⟩

theorem fitLoopNone (chain : Chain (pmemOrderAt p) curr l p.numEntries) (enough : p.numEntries ≤ curr + fuel)
    (none : fitLoop p order fuel curr best = none) :
    best = .none ∧ ∀ j ∈ l, pmemIsFree p j = true → pmemOrderAt p j < order := by
  induction fuel generalizing curr best l with
  | zero =>
    have low := chainLe chain
    have same : curr = p.numEntries := by omega
    subst same
    rw [chainEmpty chain]
    exact ⟨none,by simp⟩
  | succ fuel ih =>
    cases l with
    | nil =>
      have same : curr = p.numEntries := chain
      simp only [fitLoop,same,lt_irrefl] at none
      exact ⟨none,by simp⟩
    | cons j rest =>
      have inside := chainBelow chain mem_cons_self
      obtain ⟨rfl,_,tail⟩ := chain
      have deeper : p.numEntries ≤ pmemNextIndex p j + fuel := by
        simp only [pmemNextIndex]
        omega
      simp only [fitLoop,inside,if_true] at none
      split at none
      · split at none <;> try contradiction
        split at none
        · have := (ih tail deeper none).1
          contradiction
        rename_i skipped
        obtain ⟨start,below⟩ := ih tail deeper none
        refine ⟨start,forall_mem_cons.mpr ⟨fun _ => ?_,below⟩⟩
        simp only [start,Option.all_none,and_true] at skipped
        omega
      · rename_i taken
        obtain ⟨start,below⟩ := ih tail deeper none
        exact ⟨start,forall_mem_cons.mpr ⟨fun free => absurd free taken,below⟩⟩

theorem fitLoopSome (Fits : Nat → Prop) (chain : Chain (pmemOrderAt p) curr l p.numEntries)
    (fits : ∀ j ∈ l, pmemIsFree p j = true → order ≤ pmemOrderAt p j → Fits j)
    (start : ∀ b, best = some b → Fits b) (found : fitLoop p order fuel curr best = some i) : Fits i := by
  induction fuel generalizing curr best l with
  | zero => exact start i found
  | succ fuel ih =>
    cases l with
    | nil =>
      have same : curr = p.numEntries := chain
      simp only [fitLoop,same,lt_irrefl] at found
      exact start i found
    | cons j rest =>
      have inside := chainBelow chain mem_cons_self
      obtain ⟨rfl,_,tail⟩ := chain
      obtain ⟨here,later⟩ := forall_mem_cons.mp fits
      simp only [fitLoop,inside,if_true] at found
      split at found
      · rename_i free
        split at found
        · cases found
          exact here free (by omega)
        split at found
        · rename_i larger
          refine ih tail later ?_ found
          intro b same
          cases same
          exact here free (le_of_lt larger.1)
        · exact ih tail later start found
      · exact ih tail later start found

/-! What pmem_allocate promises, what pmem_setup builds, and both over whole
runs of a device. -/

open Bool

variable {size}

theorem shiftZero {x} : x >>> i = 0 ↔ x < 2^i := by
  rw [Nat.shiftRight_eq_div_pow,Nat.div_eq_zero_iff_lt (Nat.two_pow_pos i)]

theorem orderLoopLe {x k} (fits : x < 2^(i + fuel)) : orderLoop x fuel i ≤ k ↔ i ≤ k ∧ x < 2^k := by
  have grow {n} (small : x < 2^n) : n ≤ k → x < 2^k := fun h => lt_of_lt_of_le small (Nat.pow_le_pow_right (by decide) h)
  induction fuel generalizing i with
  | zero =>
    have grow := grow fits
    tauto
  | succ fuel ih =>
    simp only [orderLoop,shiftZero]
    split
    · have grow := grow ‹_›
      tauto
    rename_i large
    refine (ih (i := i + 1) (by rwa [add_right_comm])).trans ?_
    constructor
    · exact fun h => ⟨Nat.le_of_succ_le h.1,h.2⟩
    · rintro ⟨low,small⟩
      refine ⟨lt_of_le_of_ne low ?_,small⟩
      rintro rfl
      exact large small

/- Blocks that fit the device have orders below 20. There the order computed for
a length asks for enough pages and no more; it is zero that wraps around. -/
theorem pmemOrderLe {len k} (small : len < word) (positive : len ≠ 0) (order : k < 20) :
    pmemOrder len ≤ k ↔ len ≤ 2^k * PMEM_MIN_ALLOC := by
  have pages : 2^k ≤ 2^19 := Nat.pow_le_pow_right (by decide) (by omega)
  simp only [pmemOrder]
  rw [orderLoopLe (Nat.lt_of_lt_of_eq (Nat.mod_lt _ (by decide)) (by rfl))]
  simp only [word,PMEM_MIN_ALLOC] at *
  omega

theorem pmemOrderZero : pmemOrder 0 = 32 := by decide

theorem pmemOrderBound (len : Nat) : pmemOrder len ≤ 32 := by
  simp only [pmemOrder]
  rw [orderLoopLe (Nat.lt_of_lt_of_eq (Nat.mod_lt _ (by decide)) (by rfl))]
  exact ⟨by decide,Nat.mod_lt _ (by decide)⟩

inductive Allocated (p : Info) (len : Nat) : Info × Int → Prop where
  | failed (none : ∀ j ∈ blocks p, pmemIsFree p j = true → pmemOrderAt p j < pmemOrder len) :
      Allocated p len (p,-1)
  | taken {p' : Info} {i : Nat} (inv : Inv p') (old : i ∈ blocks p) (free : pmemIsFree p i = true)
      (order : pmemOrder len ≤ pmemOrderAt p i) (now : i ∈ blocks p') (exactly : pmemOrderAt p' i = pmemOrder len)
      (entries : p'.numEntries = p.numEntries)
      (marks : ∀ j, Unallocated p' j ↔ Unallocated p j ∧ j ≠ i)
      (past : pmemIsFree p' p'.numEntries = pmemIsFree p p.numEntries) : Allocated p len (p',i)

theorem allocateCases (inv : Inv p) (len : Nat) : Allocated p len (pmemAllocate p len) := by
  have bound := pmemOrderBound len
  have noCap : ¬ PMEM_MAX_ORDER < pmemOrder len := by
    simp only [PMEM_MAX_ORDER]
    omega
  simp only [pmemAllocate,inv.buddy,noCap,if_false,false_eq_true]
  split
  · rename_i none
    exact .failed (fitLoopNone inv.tiles.chain (by omega) none).2
  rename_i best found
  obtain ⟨old,free,order⟩ := fitLoopSome
    (fun j => j ∈ blocks p ∧ pmemIsFree p j = true ∧ pmemOrder len ≤ pmemOrderAt p j)
    inv.tiles.chain (fun j mem free order => ⟨mem,free,order⟩) (by simp) found
  obtain ⟨l,frame,tiles,mem,exactly⟩ := splitLoopTiles (tilesExcept inv.tiles best) old order (Nat.le_add_left _ _)
  generalize splitLoop (pmemOrder len) best (pmemOrderAt p best) p = split at *
  have orders : pmemOrderAt (setAllocated split best true) = pmemOrderAt split :=
    funext fun j => orderSetAllocated split best j true
  have inside := chainBelow tiles.chain mem
  have marks : ∀ j, Unallocated (setAllocated split best true) j ↔ Unallocated split j ∧ j ≠ best := fun j => unallocatedTaken inside
  have whole : Tiles (setAllocated split best true) l (Unallocated (setAllocated split best true)) := by
    refine ⟨tiles.small,orders ▸ tiles.chain,?_,?_⟩
    · intro j taken
      by_cases head : j = best
      · exact head ▸ mem
      · exact tiles.heads j fun free => taken ((marks j).mpr ⟨free,head⟩)
    · rw [orders,funext fun j => propext (marks j)]
      exact tiles.clear
  have same := tilesBlocks whole
  refine .taken ⟨frame.noAllocator.trans inv.buddy,same ▸ whole⟩ old free order (same ▸ mem)
    ((congrFun orders best).trans exactly) frame.numEntries (fun j => by rw [marks,frame.unallocated]) ?_
  rw [frame.numEntries] at inside
  simp [pmemIsFree,setAllocated,inside.ne',frame.marks,frame.numEntries]

theorem setupLoopChain {index} (orders : i ≤ 32) (aligned : 2^i ∣ index)
    (low : index ≤ p.numEntries) (high : p.numEntries < index + 2^i) :
    Frame p (setupLoop i index p) ∧ (∀ j, j < index → pmemOrderAt (setupLoop i index p) j = pmemOrderAt p j) ∧
    ∃ l, Chain (pmemOrderAt (setupLoop i index p)) index l p.numEntries ∧
      (∀ x ∈ l, pmemOrderAt (setupLoop i index p) x < i) ∧
      ∀ x ∈ l, ∀ y ∈ l, pmemOrderAt (setupLoop i index p) x = pmemOrderAt (setupLoop i index p) y → x = y := by
  induction i generalizing index p with
  | zero =>
    have same : index = p.numEntries := by omega
    exact ⟨frameRefl _,fun _ _ => rfl,[],same,by simp,by simp⟩
  | succ i ih =>
    have double : 2^(i+1) = 2^i + 2^i := by rw [pow_succ]; omega
    have half := dvd_trans (pow_dvd_pow 2 (Nat.le_succ i)) aligned
    have bit : (p.numEntries &&& 2^i ≠ 0) ↔ index + 2^i ≤ p.numEntries := by
      have rest := testBitRest aligned low high
      rw [Nat.and_two_pow,rest]
      simp
    unfold setupLoop
    split
    · rename_i set
      have own : pmemOrderAt (setOrder p index i) index = i := orderSetSame p (by omega)
      simp only [pmemNextIndex,own]
      have inside : index + 2^i ≤ (setOrder p index i).numEntries := bit.mp set
      have rest : (setOrder p index i).numEntries < index + 2^i + 2^i := by
        rw [add_assoc,← double]
        exact high
      obtain ⟨frame,below,l,chain,smaller,distinct⟩ := ih (by omega)
        (Nat.dvd_add half (Nat.dvd_refl _)) inside rest
      have head := (below index (by omega)).trans own
      refine ⟨frameTrans (frameSetOrder p index i) frame,?_,index::l,⟨rfl,?_,?_⟩,?_,?_⟩
      · intro j before
        rw [below j (by omega),orderSetOther _ _ (by omega)]
      · rw [head]
        exact half
      · rw [head]
        exact chain
      · exact forall_mem_cons.mpr ⟨by omega,fun x hx => Nat.lt_succ_of_lt (smaller x hx)⟩
      · intro x hx y hy same
        rcases mem_cons.mp hx with firstX | restX <;> rcases mem_cons.mp hy with firstY | restY
        · rw [firstX,firstY]
        · have := smaller y restY
          rw [firstX] at same
          omega
        · have := smaller x restX
          rw [firstY] at same
          omega
        · exact distinct x restX y restY same
    · obtain ⟨frame,below,l,chain,smaller,distinct⟩ := ih (by omega) half low (by omega)
      exact ⟨frame,below,l,chain,fun x hx => Nat.lt_succ_of_lt (smaller x hx),distinct⟩

theorem blankFree (j : Nat) : Unallocated (blank size false) j := fun inside => decide_eq_false (not_le.mpr inside)

theorem blankFits (small : size < word) : (blank size false).numEntries < 2^20 := by
  simp only [blank,word,PMEM_MIN_ALLOC] at *
  omega

theorem setupFrame (small : size < word) : Frame (blank size false) (pmemSetup size false) := by
  have fits := blankFits small
  exact (setupLoopChain le_rfl (Nat.dvd_zero _) (Nat.zero_le _) (by omega)).1

theorem setupInv (small : size < word) : Inv (pmemSetup size false) := by
  have fits := blankFits small
  have frame := setupFrame small
  obtain ⟨_,_,l,chain,_,distinct⟩ := setupLoopChain (p := blank size false) (le_refl 32) (Nat.dvd_zero _)
    (Nat.zero_le _) (by omega)
  have tiles : Tiles (pmemSetup size false) l (Unallocated (pmemSetup size false)) := by
    refine ⟨frame.numEntries ▸ fits,frame.numEntries ▸ chain,?_,?_⟩
    · intro j taken
      exact absurd ((frame.unallocated j).mpr (blankFree j)) taken
    · intro x hx hy _ _ same
      have := distinct _ hy x hx same
      omega
  have same := tilesBlocks tiles
  exact ⟨frame.noAllocator,same ▸ tiles⟩

theorem freeLayout (inv : Inv p) (allFree : ∀ j ∈ blocks p, Unallocated p j) :
    layout p = decompose p.numEntries 32 0 := by
  have small := inv.tiles.small
  exact decomposition inv.tiles.chain (Nat.dvd_zero _) (by omega) inv.tiles.clear allFree

def Apart (p : Info) (i : Nat) (p' : Info) (j : Nat) : Prop :=
  i + 2^pmemOrderAt p i ≤ j ∨ j + 2^pmemOrderAt p' j ≤ i

def FailsOnlyWhenFull (p : Info) (len : UInt32) : Prop :=
  (pmemAllocate p len.toNat).2 = -1 →
    ∀ j ∈ blocks p, pmemIsFree p j = true → 2^pmemOrderAt p j * PMEM_MIN_ALLOC < len.toNat

structure DeviceOk (size : Nat) (p : Info) : Prop where
  entries : p.numEntries = size / PMEM_MIN_ALLOC
  tiles : Chain (pmemOrderAt p) 0 (blocks p) p.numEntries
  disjoint : ∀ i ∈ blocks p, ∀ j ∈ blocks p, i ≠ j → Apart p i p j
  returned : ∀ (len : UInt32) (i : Nat), (pmemAllocate p len.toNat).2 = i →
    i ∈ blocks (pmemAllocate p len.toNat).1 ∧ pmemIsFree p i = true ∧
    len.toNat ≤ 2^pmemOrderAt (pmemAllocate p len.toNat).1 i * PMEM_MIN_ALLOC ∧
    ∀ j ∈ blocks p, ¬ Unallocated p j → Apart (pmemAllocate p len.toNat).1 i p j
  failed : ∀ len : UInt32,
    FailsOnlyWhenFull p len ↔ len ≠ 0 ∨ ∀ j ∈ blocks p, pmemIsFree p j = false
  restored : (∀ j ∈ blocks p, Unallocated p j) → layout p = layout (pmemSetup size false)

theorem blocksApart (inv : Inv p) {j} (left : i ∈ blocks p) (right : j ∈ blocks p)
    (other : i ≠ j) : Apart p i p j := by
  rcases Nat.lt_or_gt_of_ne other with below | above
  · exact .inl (chainApart inv.tiles.chain left right below)
  · exact .inr (chainApart inv.tiles.chain right left above)

theorem returnedBlock (inv : Inv p) {len : UInt32} (ret : (pmemAllocate p len.toNat).2 = i) :
    i ∈ blocks (pmemAllocate p len.toNat).1 ∧ pmemIsFree p i = true ∧
    len.toNat ≤ 2^pmemOrderAt (pmemAllocate p len.toNat).1 i * PMEM_MIN_ALLOC ∧
    ∀ j ∈ blocks p, ¬ Unallocated p j → Apart (pmemAllocate p len.toNat).1 i p j := by
  have outcome := allocateCases inv len.toNat
  generalize pmemAllocate p len.toNat = out at outcome ret ⊢
  cases outcome with
  | failed none => omega
  | @taken p' i' inv' old free order now exactly entries marks past =>
    have same : i' = i := by simpa using ret
    subst same
    have bound := orderSmall inv'.tiles now
    refine ⟨now,free,?_,?_⟩
    · by_cases zero : len.toNat = 0
      · omega
      rw [exactly] at bound ⊢
      exact (pmemOrderLe len.toNat_lt zero bound).mp le_rfl
    · intro j mem taken
      have other : i' ≠ j := fun same => taken (same ▸ unallocatedOfFree free)
      have smaller : 2^pmemOrderAt p' i' ≤ 2^pmemOrderAt p i' :=
        Nat.pow_le_pow_right (by decide) (exactly ▸ order)
      rcases blocksApart inv old mem other with below | above
      · exact .inl (le_trans (Nat.add_le_add_left smaller i') below)
      · exact .inr above

theorem failsOnlyWhenFull (inv : Inv p) (len : UInt32) :
    FailsOnlyWhenFull p len ↔ len ≠ 0 ∨ ∀ j ∈ blocks p, pmemIsFree p j = false := by
  have outcome := allocateCases inv len.toNat
  constructor
  · intro full
    by_cases zero : len = 0
    · subst zero
      refine .inr fun j mem => ?_
      by_contra free
      -- an order of 32 is asked for, and no block has it
      have refused : (pmemAllocate p (0 : UInt32).toNat).2 = -1 := by
        generalize pmemAllocate p (0 : UInt32).toNat = out at outcome ⊢
        cases outcome with
        | failed none => rfl
        | taken _ old _ order _ _ _ _ _ =>
          have := orderSmall inv.tiles old
          have asked : pmemOrder (0 : UInt32).toNat = 32 := pmemOrderZero
          omega
      have := full refused j mem (by simpa using free)
      simp at this
    · exact .inl zero
  · intro cond ret j mem free
    rcases cond with positive | full
    · generalize pmemAllocate p len.toNat = out at outcome ret
      cases outcome with
      | failed none =>
        have bound := orderSmall inv.tiles mem
        have nonzero : len.toNat ≠ 0 := fun h => positive (UInt32.toNat_inj.mp h)
        have enough := pmemOrderLe len.toNat_lt nonzero bound
        have := none j mem free
        omega
      | taken => omega
    · simp [full j mem] at free

def Admissible (p : Info) : Op → Prop
  | .allocate _ => True
  | .free index => index ∈ blocks p ∧ ¬ Unallocated p index

theorem stepKeeps {op : Op} (inv : Inv p) (admitted : Admissible p op) (guard : ∀ i, op = .free i → Fenced p ∨ Incomplete p i) :
    Inv (step p op) ∧ (step p op).numEntries = p.numEntries ∧
    pmemIsFree (step p op) (step p op).numEntries = pmemIsFree p p.numEntries := by
  cases op with
  | allocate len =>
    have outcome := allocateCases inv len.toNat
    simp only [step]
    generalize pmemAllocate p len.toNat = out at outcome ⊢
    cases outcome with
    | failed => exact ⟨inv,rfl,rfl⟩
    | taken inv' _ _ _ _ _ same _ past => exact ⟨inv',same,past⟩
  | free index =>
    obtain ⟨inv',frame⟩ := freeKeeps inv admitted.1 (guard index rfl)
    refine ⟨inv',frame.numEntries,?_⟩
    have inside := chainBelow inv.tiles.chain admitted.1
    rw [step,frame.numEntries,pmemIsFree,frame.marks]
    simp [setAllocated,pmemIsFree,inside.ne']

theorem runDeviceOk (small : size < word) {ops : List Op}
    (admitted : Admitted step Admissible (pmemSetup size false) ops) :
    DeviceOk size (run step (pmemSetup size false) ops) := by
  have setup := setupInv small
  have start : Inv (pmemSetup size false) ∧ (pmemSetup size false).numEntries = size / PMEM_MIN_ALLOC :=
    ⟨setup,(setupFrame small).numEntries⟩
  have walled : pmemIsFree (pmemSetup size false) (pmemSetup size false).numEntries = false := by
    rw [pmemIsFree,(setupFrame small).marks,start.2]
    simp [blank]
  -- what lies behind the bitmap never reads as free
  have keeps (p : Info) (op : Op) (before : (Inv p ∧ p.numEntries = size / PMEM_MIN_ALLOC) ∧ pmemIsFree p p.numEntries = false)
      (admitted : Admissible p op) : (Inv (step p op) ∧ (step p op).numEntries = size / PMEM_MIN_ALLOC) ∧
        pmemIsFree (step p op) (step p op).numEntries = false := by
    obtain ⟨⟨inv,entries⟩,walled⟩ := before
    obtain ⟨inv',same,past⟩ := stepKeeps inv admitted fun _ _ => .inl fun free => by rw [walled] at free; cases free
    exact ⟨⟨inv',same.trans entries⟩,past.trans walled⟩
  obtain ⟨⟨inv,entries⟩,_⟩ := runInvariant keeps ⟨start,walled⟩ admitted
  refine ⟨entries,inv.tiles.chain,fun i hi j hj => blocksApart inv hi hj,fun len i => returnedBlock inv,
    failsOnlyWhenFull inv,fun allFree => ?_⟩
  have fresh : ∀ j ∈ blocks (pmemSetup size false), Unallocated (pmemSetup size false) j :=
    fun j _ => ((setupFrame small).unallocated j).mpr (blankFree j)
  rw [freeLayout inv allFree,freeLayout setup fresh,entries,start.2]

theorem thirteenEntriesOk :
    DeviceOk 53248 (run step (pmemSetup 53248 false) [.allocate 8192,.allocate 4096,.free 8]) := by
  have admitted : Admitted step Admissible (pmemSetup 53248 false)
      [.allocate 8192,.allocate 4096,.free 8] := by
    refine ⟨trivial,trivial,?_,trivial⟩
    exact ⟨by decide,by decide⟩
  exact runDeviceOk (by decide) admitted

theorem emptyRequestRefused : ¬ FailsOnlyWhenFull (pmemSetup 4096 false) 0 := by
  intro full
  exact absurd (full (by decide) 0 (by decide) (by decide)) (by decide)

end EclairKernel.Pmem
