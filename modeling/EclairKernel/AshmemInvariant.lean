import EclairKernel.AshmemOrder
import Mathlib.Algebra.BigOperators.Group.List.Basic
import Mathlib.Data.List.Perm.Basic
import Mathlib.Tactic.Linarith
import Mathlib.Data.List.Nodup

/-! The LRU accounting of one unpinned list: which of its ranges the global list
refers to, and by how much lru_count moves when the list is reshaped. Primitive
facts about add, delete and shrink compose along the pin and unpin traces. -/
namespace EclairKernel.Ashmem
open List Bool Nat Run

def onLru (r : Range) : Bool := !r.purged
def evictable (asma : Nat) (ranges : List Range) : List (Nat × Nat) :=
  (ranges.filter onLru).map (fun r => (asma,r.id))
def weight (ranges : List Range) : Nat := ((ranges.filter onLru).map rangeSize).sum
def mine (asma : Nat) (l : Lru) : List (Nat × Nat) := l.list.filter (fun x => x.1 = asma)
def others (asma : Nat) (l : Lru) : List (Nat × Nat) := l.list.filter (fun x => x.1 ≠ asma)

theorem weightCons (r : Range) (rest : List Range) :
    weight (r::rest) = (if r.purged then 0 else rangeSize r) + weight rest := by
  cases h : r.purged <;> simp [weight,onLru,h]

theorem weightPerm {a b} (h : a.Perm b) : weight a = weight b :=
  ((h.filter _).map _).sum_eq

theorem rangeSizeLt (r : Range) : rangeSize r < word := mod_lt _ (by decide)

structure Linked (asma : Nat) (ranges : List Range) (l : Lru) : Prop where
  perm : (mine asma l).Perm (evictable asma ranges)
  ids : (ranges.map Range.id).Nodup
  fresh : ∀ r ∈ ranges, r.id < l.next

theorem linkedPerm {asma a b l} (h : a.Perm b) (linked : Linked asma a l) : Linked asma b l :=
  ⟨linked.perm.trans ((h.filter _).map _),((h.map _).nodup_iff).mp linked.ids,
    fun r hr => linked.fresh r (h.mem_iff.mpr hr)⟩

structure Accounts (asma : Nat) (ranges ranges' : List Range) (l l' : Lru) : Prop where
  linked : Linked asma ranges' l'
  others : others asma l' = others asma l
  count : l'.count + weight ranges ≡ l.count + weight ranges' [MOD word]
  next : l.next ≤ l'.next
  small : l.count < word → l'.count < word

theorem accountsRefl {asma ranges l} (linked : Linked asma ranges l) : Accounts asma ranges ranges l l :=
  ⟨linked,rfl,rfl,le_rfl,id⟩

theorem accountsTrans {asma a b c l m n} (h : Accounts asma a b l m) (k : Accounts asma b c m n) :
    Accounts asma a c l n := by
  refine ⟨k.linked,k.others.trans h.others,?_,le_trans h.next k.next,fun s => k.small (h.small s)⟩
  have first := h.count
  have second := k.count
  simp only [Nat.ModEq,word] at *
  omega

theorem accountsPerm {asma a b c d l l'} (h : a.Perm b) (k : c.Perm d) (acc : Accounts asma a c l l') :
    Accounts asma b d l l' :=
  ⟨linkedPerm k acc.linked,acc.others,by rw [← weightPerm h,← weightPerm k]; exact acc.count,
    acc.next,acc.small⟩

theorem mineErase {asma id} (l : List (Nat × Nat)) :
    (l.erase (asma,id)).filter (fun x => x.1 = asma) = (l.filter (fun x => x.1 = asma)).erase (asma,id) := by
  induction l with
  | nil => rfl
  | cons x rest ih =>
    by_cases same : x = (asma,id)
    · subst x; simp
    · by_cases area : x.1 = asma <;> simp [same,area,ih]

theorem othersErase {asma id} (l : List (Nat × Nat)) :
    (l.erase (asma,id)).filter (fun x => x.1 ≠ asma) = l.filter (fun x => x.1 ≠ asma) := by
  induction l with
  | nil => rfl
  | cons x rest ih =>
    by_cases same : x = (asma,id)
    · subst x; simp
    · have tail : (x::rest).erase (asma,id) = x::rest.erase (asma,id) := by simp [same]
      rw [tail,filter_cons,filter_cons,ih]

theorem accountsDel {asma r rest l} (linked : Linked asma (r::rest) l) :
    Accounts asma (r::rest) rest l (rangeDel l asma r) := by
  have ids := nodup_cons.mp linked.ids
  have fresh : ∀ x ∈ rest, x.id < l.next := fun x hx => linked.fresh x (mem_cons_of_mem _ hx)
  unfold rangeDel
  split
  · rename_i live
    have live : r.purged = false := live
    refine ⟨⟨?_,ids.2,fresh⟩,othersErase l.list,?_,le_rfl,fun _ => mod_lt _ (by decide)⟩
    · have here : mine asma (lruDel l asma r) = (mine asma l).erase (asma,r.id) := mineErase l.list
      have listed : evictable asma (r::rest) = (asma,r.id)::evictable asma rest := by
        simp [evictable,onLru,live]
      have := linked.perm.erase (asma,r.id)
      rw [listed,erase_cons_head] at this
      rw [here]
      exact this
    · have := rangeSizeLt r
      rw [weightCons,live]
      simp only [lruDel,Nat.ModEq,word,false_eq_true,if_false] at this ⊢
      omega
  · rename_i dead
    have dead : r.purged = true := by simpa [RangeOnLru] using dead
    refine ⟨⟨?_,ids.2,fresh⟩,rfl,?_,le_rfl,id⟩
    · have listed : evictable asma (r::rest) = evictable asma rest := by simp [evictable,onLru,dead]
      rw [← listed]
      exact linked.perm
    · rw [weightCons,dead]
      simp [Nat.ModEq.refl]

theorem accountsShrink {asma r rest l} (start stop : Nat) (linked : Linked asma (r::rest) l) :
    Accounts asma (r::rest) ((rangeShrink l r start stop).1::rest) l (rangeShrink l r start stop).2 := by
  have evict : evictable asma ((rangeShrink l r start stop).1::rest) = evictable asma (r::rest) := by
    cases h : r.purged <;> simp [evictable,onLru,rangeShrink,h]
  have list : (rangeShrink l r start stop).2.list = l.list := by
    simp only [rangeShrink]; split <;> rfl
  have next : (rangeShrink l r start stop).2.next = l.next := by
    simp only [rangeShrink]; split <;> rfl
  refine ⟨⟨?_,?_,?_⟩,?_,?_,le_of_eq next.symm,?_⟩
  · rw [evict]
    simpa [mine,list] using linked.perm
  · simpa [rangeShrink] using linked.ids
  · rw [next]
    exact forall_mem_cons.mpr (forall_mem_cons.mp linked.fresh)
  · simp [others,list]
  · rw [weightCons,weightCons]
    have before := rangeSizeLt r
    have after := rangeSizeLt (rangeShrink l r start stop).1
    cases h : r.purged with
    | true => simp [rangeShrink,RangeOnLru,h,Nat.ModEq.refl]
    | false =>
      simp only [rangeShrink,RangeOnLru,h,Nat.ModEq,word,if_true,false_eq_true,if_false]
        at before after ⊢
      omega
  · intro small
    simp only [rangeShrink]
    split
    · exact mod_lt _ (by decide)
    · exact small

theorem accountsAlloc {asma ok purged start stop r rest l l'} (linked : Linked asma rest l)
    (allocated : rangeAlloc l asma ok purged start stop = some (r,l')) : Accounts asma rest (r::rest) l l' := by
  obtain ⟨rfl,rfl⟩ := rangeAllocated allocated
  have ids : (l.next::rest.map Range.id).Nodup := by
    refine nodup_cons.mpr ⟨?_,linked.ids⟩
    intro member
    obtain ⟨x,hx,same⟩ := mem_map.mp member
    exact lt_irrefl _ (same ▸ linked.fresh x hx)
  have bound : ∀ x ∈ Range.mk l.next start stop purged::rest, x.id < l.next + 1 :=
    forall_mem_cons.mpr ⟨lt_succ_self _,fun x hx => lt_succ_of_lt (linked.fresh x hx)⟩
  cases purged with
  | true =>
    refine ⟨⟨linked.perm,ids,bound⟩,rfl,?_,le_succ _,id⟩
    rw [weightCons]
    simp [Nat.ModEq.refl]
  | false =>
    refine ⟨⟨?_,ids,bound⟩,?_,?_,le_succ _,fun _ => mod_lt _ (by decide)⟩
    · have here : mine asma (lruAdd {l with next := l.next + 1} asma ⟨l.next,start,stop,false⟩) =
          mine asma l ++ [(asma,l.next)] := by simp [mine,lruAdd]
      rw [if_pos rfl,here]
      exact (perm_append_singleton _ _).trans (linked.perm.cons _)
    · simp [others,lruAdd]
    · rw [weightCons]
      simp only [if_true,lruAdd,Nat.ModEq,word,false_eq_true,if_false]
      omega

theorem accountsPin {asma pgstart pgend ok ranges l out} (rest : List Range)
    (trace : PinTrace asma pgstart pgend ok ranges l out) (linked : Linked asma (ranges ++ rest) l) :
    Accounts asma (ranges ++ rest) (out.unpinned ++ rest) l out.lru := by
  induction trace generalizing rest with
  | nil | stop => exact accountsRefl linked
  | remove low high tail ih =>
    have del := accountsDel linked
    exact accountsTrans del (ih rest del.linked)
  | @front r others l out low touch high tail ih =>
    have cut := accountsShrink (pgend + 1) r.pgend linked
    have moved := linkedPerm perm_middle.symm cut.linked
    exact accountsTrans cut (accountsPerm perm_middle perm_middle (ih _ moved))
  | @back r others l out low reach high tail ih =>
    have cut := accountsShrink r.pgstart (pgstart - 1) linked
    have moved := linkedPerm perm_middle.symm cut.linked
    exact accountsTrans cut (accountsPerm perm_middle perm_middle (ih _ moved))
  | @hole r others l upper l' low high allocated =>
    have new := accountsAlloc linked allocated
    have moved := linkedPerm (List.Perm.swap _ _ _) new.linked
    have cut := accountsShrink r.pgstart (pgstart - 1) moved
    exact accountsTrans new (accountsPerm (List.Perm.swap _ _ _) (List.Perm.swap _ _ _) cut)
  | holeLost low high failed => exact accountsShrink _ _ linked
  | skip above reach tail ih =>
    have moved := linkedPerm perm_middle.symm linked
    exact accountsPerm perm_middle perm_middle (ih _ moved)

theorem insertPerm (new : Range) (ranges : List Range) : (new::ranges).Perm (insertRange new ranges) := by
  induction ranges with
  | nil => exact List.Perm.refl _
  | cons r rest ih =>
    simp only [insertRange]
    split
    · exact List.Perm.refl _
    · exact (List.Perm.swap _ _ _).trans (ih.cons r)

theorem accountsUnpin {asma ok pgstart pgend purged ranges l out}
    (trace : UnpinTrace asma ok pgstart pgend purged ranges l out) (linked : Linked asma ranges l) :
    Accounts asma ranges out.unpinned l out.lru := by
  induction trace with
  | subsumed => exact accountsRefl linked
  | insert scan allocated =>
    exact accountsPerm (List.Perm.refl _) (insertPerm _ _) (accountsAlloc linked allocated)
  | failed => exact accountsRefl linked
  | merge mem reach partly inside later ih =>
    have moved := perm_cons_erase mem
    have del := accountsDel (linkedPerm moved linked)
    exact accountsTrans (accountsPerm moved.symm (List.Perm.refl _) del) (ih del.linked)

/-! The range lists of all areas, the LRU and lru_count over whole runs. The
invariant fails exactly through an unpin request for no page at all (length zero
from the very end of the area), or through a sum of sizes that no longer fits
the counter; every run without such a request keeps it. -/

def sizeAt (s : State) (x : Nat × Nat) : Nat :=
  match s.area x.1 with
  | none => 0
  | some a =>
    match a.unpinned.find? (fun r => r.id = x.2) with
    | none => 0
    | some r => rangeSize r

def evictablePages (s : State) : Nat := (s.lru.list.map (sizeAt s)).sum

structure RangeListsOk (s : State) : Prop where
  descending : ∀ k a, s.area k = some a → a.unpinned.Pairwise (fun hi lo => lo.pgend < hi.pgstart)
  nonEmpty : ∀ k a, s.area k = some a → ∀ r ∈ a.unpinned, r.pgstart ≤ r.pgend
  within : ∀ k a, s.area k = some a → ∀ r ∈ a.unpinned, r.pgend < areaPages a
  distinct : ∀ k a, s.area k = some a → (a.unpinned.map Range.id).Nodup
  lruOnce : s.lru.list.Nodup
  lruExact : ∀ k i, (k,i) ∈ s.lru.list ↔
    ∃ a, s.area k = some a ∧ ∃ r ∈ a.unpinned, r.id = i ∧ r.purged = false
  count : s.lru.count = evictablePages s

structure Inv (s : State) : Prop where
  ordered : ∀ k a, s.area k = some a → Ordered a.unpinned
  nonEmpty : ∀ k a, s.area k = some a → NonEmpty a.unpinned
  within : ∀ k a, s.area k = some a → Within (areaPages a) a.unpinned
  mapped : ∀ k a, s.area k = some a → a.file = false → a.unpinned = []
  linked : ∀ k a, s.area k = some a → Linked k a.unpinned s.lru
  absent : ∀ k, s.area k = none → mine k s.lru = []
  count : s.lru.count = evictablePages s
  fits : evictablePages s < word

theorem areaPagesSmall (a : Area) : areaPages a < word - 1 := by
  simp only [areaPages,pageAlign,pageSize,word]
  omega

variable {ranges ranges' : List Range} {r s k pages a l'}

theorem findById (ids : (ranges.map Range.id).Nodup) (mem : r ∈ ranges) :
    ranges.find? (fun x => x.id = r.id) = some r := by
  induction ranges with
  | nil => simp at mem
  | cons x rest ih =>
    obtain ⟨notIn,ids⟩ := nodup_cons.mp ids
    rcases mem_cons.mp mem with rfl | mem
    · simp
    · have different : x.id ≠ r.id := fun same => notIn (mem_map.mpr ⟨r,mem,same.symm⟩)
      simp [different,ih ids mem]

theorem sizeAtMember (at_ : s.area k = some a) (ids : (a.unpinned.map Range.id).Nodup)
    {r} (mem : r ∈ a.unpinned) : sizeAt s (k,r.id) = rangeSize r := by
  simp only [sizeAt,at_,findById ids mem]

theorem mineSum (at_ : s.area k = some a) (linked : Linked k a.unpinned s.lru) :
    ((mine k s.lru).map (sizeAt s)).sum = weight a.unpinned := by
  rw [(linked.perm.map (sizeAt s)).sum_eq]
  simp only [evictable,map_map]
  congr 1
  apply map_congr_left
  intro r hr
  exact sizeAtMember at_ linked.ids (mem_filter.mp hr).1

theorem totalSplit (s : State) (k : Nat) :
    evictablePages s = ((mine k s.lru).map (sizeAt s)).sum + ((others k s.lru).map (sizeAt s)).sum := by
  have split := (filter_append_perm (fun x : Nat × Nat => decide (x.1 = k)) s.lru.list)
  rw [evictablePages,← (split.map (sizeAt s)).sum_eq,map_append,List.sum_append]
  congr 3
  simp [others]

theorem othersSum {s'} (same : ∀ j, j ≠ k → s'.area j = s.area j) (l : Lru) :
    ((others k l).map (sizeAt s')).sum = ((others k l).map (sizeAt s)).sum := by
  congr 1
  apply map_congr_left
  intro x hx
  have different : x.1 ≠ k := by simpa using (mem_filter.mp hx).2
  simp [sizeAt,same x.1 different]

theorem totalMoves {t} (elsewhere : ∀ j, j ≠ k → t.area j = s.area j) (same : others k t.lru = others k s.lru) :
    evictablePages t + ((mine k s.lru).map (sizeAt s)).sum = evictablePages s + ((mine k t.lru).map (sizeAt t)).sum := by
  rw [totalSplit s k,totalSplit t k,same,othersSum elsewhere]
  omega

theorem mineOther {j l} (h : j ≠ k) (same : others k l' = others k l) : mine j l' = mine j l := by
  have keep : ∀ m : Lru, mine j m = (others k m).filter (fun x => x.1 = j) := by
    intro m
    simp only [others,filter_filter]
    apply filter_congr
    intro x _
    by_cases at_ : x.1 = j
    · simp [at_,h]
    · simp [at_]
  rw [keep l,keep l',same]

theorem countFollows {l total total'}
    (acc : Accounts k ranges ranges' l l') (count : l.count = total) (fits : total < word)
    (moves : total' + weight ranges = total + weight ranges') (fits' : total' < word) : l'.count = total' := by
  have small := acc.small (by omega)
  have same := acc.count
  simp only [Nat.ModEq,word] at *
  omega

structure AreaOk (l : Lru) (k : Nat) (a : Area) : Prop where
  ordered : Ordered a.unpinned
  nonEmpty : NonEmpty a.unpinned
  within : Within (areaPages a) a.unpinned
  mapped : a.file = false → a.unpinned = []
  linked : Linked k a.unpinned l

theorem Inv.area (inv : Inv s) (at_ : s.area k = some a) : AreaOk s.lru k a :=
  ⟨inv.ordered k a at_,inv.nonEmpty k a at_,inv.within k a at_,inv.mapped k a at_,inv.linked k a at_⟩

theorem setAreaInv {x : Option Area} (inv : Inv s) (own : ∀ a, x = some a → AreaOk l' k a) (gone : x = none → mine k l' = [])
    (rest : others k l' = others k s.lru) (next : s.lru.next ≤ l'.next)
    (count : l'.count = evictablePages (setArea {s with lru := l'} k x))
    (fits : evictablePages (setArea {s with lru := l'} k x) < word) : Inv (setArea {s with lru := l'} k x) := by
  have areas : ∀ j b, (setArea {s with lru := l'} k x).area j = some b → AreaOk l' j b := by
    intro j b found
    by_cases here : j = k
    · subst here
      rw [setAreaSame] at found
      exact own b found
    · rw [setAreaOther _ _ here] at found
      have old := inv.area found
      exact {old with linked := ⟨(mineOther here rest).symm ▸ old.linked.perm,old.linked.ids,
        fun r hr => lt_of_lt_of_le (old.linked.fresh r hr) next⟩}
  refine ⟨fun j b h => (areas j b h).ordered,fun j b h => (areas j b h).nonEmpty,fun j b h => (areas j b h).within,
    fun j b h => (areas j b h).mapped,fun j b h => (areas j b h).linked,fun j none => ?_,count,fits⟩
  by_cases here : j = k
  · subst here
    rw [setAreaSame] at none
    exact gone none
  · rw [setAreaOther _ _ here] at none
    exact (mineOther here rest).trans (inv.absent j none)

theorem replaceArea (inv : Inv s) (at_ : s.area k = some a) (acc : Accounts k a.unpinned ranges' s.lru l')
    (ordered : Ordered ranges') (nonEmpty : NonEmpty ranges') (within : Within (areaPages a) ranges')
    (mapped : a.file = false → ranges' = []) (fits : evictablePages s + weight ranges' < word + weight a.unpinned) :
    Inv (setArea {s with lru := l'} k (some {a with unpinned := ranges'})) := by
  have moves := totalMoves (s := s) (t := setArea {s with lru := l'} k (some {a with unpinned := ranges'}))
    (fun j => setAreaOther _ _) acc.others
  rw [mineSum at_ (inv.linked k a at_),mineSum (setAreaSame ..) acc.linked] at moves
  have fits' := Nat.lt_of_add_lt_add_right (moves ▸ fits)
  refine setAreaInv inv ?_ (by simp) acc.others acc.next (countFollows acc inv.count inv.fits moves fits') fits'
  rintro _ ⟨⟩
  exact ⟨ordered,nonEmpty,within,mapped,acc.linked⟩

theorem rangeSizeEq (nonEmpty : r.pgstart ≤ r.pgend) (within : r.pgend < pages)
    (small : pages < word - 1) : rangeSize r = r.pgend + 1 - r.pgstart := by
  simp only [rangeSize,word] at *
  omega

theorem weightLe {r' rest rest'} (same : r'.purged = r.purged)
    (smaller : rangeSize r' ≤ rangeSize r) (tail : weight rest' ≤ weight rest) :
    weight (r'::rest') ≤ weight (r::rest) := by
  rw [weightCons,weightCons,same]
  split <;> omega

theorem weightSplit {upper lower rest} (up : upper.purged = r.purged)
    (low : lower.purged = r.purged) (smaller : rangeSize upper + rangeSize lower ≤ rangeSize r) :
    weight (upper::lower::rest) ≤ weight (r::rest) := by
  rw [weightCons,weightCons,weightCons,up,low]
  split <;> omega

theorem shrunkSize {l start stop} (low : r.pgstart ≤ start) (high : stop ≤ r.pgend)
    (proper : start ≤ stop) (within : r.pgend < pages) (small : pages < word - 1) :
    rangeSize (rangeShrink l r start stop).1 ≤ rangeSize r := by
  rw [rangeSizeEq (by omega) within small,
    rangeSizeEq proper (lt_of_le_of_lt high within) small]
  simp only [rangeShrink]
  omega

theorem pinWeight {asma pgstart pgend ok l out} (proper : pgstart ≤ pgend + 1)
    (trace : PinTrace asma pgstart pgend ok ranges l out) (nonEmpty : NonEmpty ranges)
    (within : Within pages ranges) (small : pages < word - 1) : weight out.unpinned ≤ weight ranges := by
  induction trace with
  | nil | stop => exact le_rfl
  | remove low high tail ih =>
    have := ih (forall_mem_cons.mp nonEmpty).2
      (forall_mem_cons.mp within).2
    rw [weightCons]
    exact le_trans this (Nat.le_add_left _ _)
  | front low touch high tail ih =>
    exact weightLe rfl (shrunkSize touch le_rfl high (within _ mem_cons_self) small)
      (ih (forall_mem_cons.mp nonEmpty).2
        (forall_mem_cons.mp within).2)
  | back low reach high tail ih =>
    exact weightLe rfl (shrunkSize le_rfl (by omega) (by omega) (within _ mem_cons_self) small)
      (ih (forall_mem_cons.mp nonEmpty).2
        (forall_mem_cons.mp within).2)
  | @hole r rest l upper l' low high allocated =>
    obtain ⟨rfl,_⟩ := rangeAllocated allocated
    have bound := within r mem_cons_self
    have lower : r.pgstart ≤ pgstart - 1 := by omega
    have below : pgstart - 1 < pages := by omega
    refine weightSplit rfl rfl ?_
    rw [rangeSizeEq (nonEmpty r mem_cons_self) bound small,
      rangeSizeEq (r := ⟨l.next,pgend + 1,r.pgend,r.purged⟩) high bound small,
      rangeSizeEq lower below small]
    simp only [rangeShrink]
    omega
  | holeLost low high failed =>
    exact weightLe rfl (shrunkSize le_rfl (by omega) (by omega) (within _ mem_cons_self) small)
      le_rfl
  | skip above reach tail ih =>
    have := ih (forall_mem_cons.mp nonEmpty).2
      (forall_mem_cons.mp within).2
    rw [weightCons,weightCons]
    exact Nat.add_le_add_left this _

theorem unpinWeight {asma ok pgstart pgend purged l out}
    (trace : UnpinTrace asma ok pgstart pgend purged ranges l out) (nonEmpty : NonEmpty ranges)
    (within : Within pages ranges) (small : pages < word - 1) (proper : pgstart ≤ pgend) (bound : pgend < pages) :
    weight out.unpinned ≤ weight ranges + (if purged then 0 else pgend + 1 - pgstart) := by
  induction trace with
  | subsumed => exact Nat.le_add_right _ _
  | insert scan allocated =>
    obtain ⟨rfl,_⟩ := rangeAllocated allocated
    rw [← weightPerm (insertPerm _ _),weightCons,rangeSizeEq proper bound small,add_comm]
  | failed => exact Nat.le_add_right _ _
  | @merge pgstart pgend purged ranges l r out mem reach partly inside later ih =>
    have low := nonEmpty r mem
    have high := within r mem
    have next := ih (fun x hx => nonEmpty x (mem_of_mem_erase hx))
      (fun x hx => within x (mem_of_mem_erase hx)) (by omega) (by omega)
    rw [weightPerm (perm_cons_erase mem),weightCons,rangeSizeEq low high small]
    rw [inRange] at inside
    refine le_trans next ?_
    cases purged with
    | true => simp
    | false =>
      cases r.purged with
      | true => simp
      | false =>
        simp only [Bool.or_self,Bool.false_eq_true,if_false]
        omega

def EmptyRequest (a : Area) (offset len : UInt32) : Prop :=
  len = 0 ∧ offset.toNat = pageAlign a.size
instance (a offset len) : Decidable (EmptyRequest a offset len) := by unfold EmptyRequest; infer_instance

theorem intervalProper {offset len pgstart pgend}
    (h : pinInterval a offset.toNat len.toNat = some (pgstart,pgend))
    (proper : ¬ EmptyRequest a offset len) : pgstart ≤ pgend ∧ pgend < areaPages a := by
  have small := offset.toNat_lt
  have bound : pageAlign a.size < word := by simp only [pageAlign,pageSize,word]; omega
  have positive : 0 < pinLen a offset.toNat len.toNat := by
    have missed : len.toNat = 0 → offset.toNat ≠ pageAlign a.size := fun l o =>
      proper ⟨UInt32.toNat.inj l,o⟩
    simp only [pinLen,word] at *
    split <;> omega
  simp only [pinInterval,Option.ite_none_left_eq_some,Option.some.injEq,Prod.mk.injEq] at h
  simp only [areaPages,pageSize,word] at *
  omega

theorem markedPerm (ids : (ranges.map Range.id).Nodup) (mem : r ∈ ranges) :
    ∃ rest, ranges.Perm (r::rest) ∧ (markPurged r.id ranges).Perm ({r with purged := true}::rest) := by
  have moved := perm_cons_erase mem
  refine ⟨ranges.erase r,moved,(moved.map _).trans ?_⟩
  have ids := (nodup_cons.mp (((moved.map Range.id).nodup_iff).mp ids)).1
  have same : markPurged r.id (ranges.erase r) = ranges.erase r := by
    refine (map_congr_left ?_).trans (map_id _)
    intro x hx
    have different : x.id ≠ r.id := fun eq => ids (mem_map.mpr ⟨x,hx,eq⟩)
    simp [different]
  simp only [map_cons]
  exact List.Perm.cons _ (List.Perm.of_eq same)

theorem accountsPurge {l} (linked : Linked k ranges l) (mem : r ∈ ranges) (live : r.purged = false) :
    Accounts k ranges (markPurged r.id ranges) l (lruDel l k r) := by
  obtain ⟨rest,moved,marked⟩ := markedPerm linked.ids mem
  have del := accountsDel (linkedPerm moved linked)
  rw [rangeDel,if_pos (show RangeOnLru r from live)] at del
  refine accountsPerm moved.symm marked.symm ⟨⟨?_,?_,?_⟩,del.others,?_,del.next,del.small⟩
  · simpa [evictable,onLru] using del.linked.perm
  · exact ((moved.map Range.id).nodup_iff).mp linked.ids
  · exact forall_mem_cons.mpr ⟨linked.fresh r mem,del.linked.fresh⟩
  · rw [weightCons (r := {r with purged := true})]
    simpa using del.count

theorem delRangesAccounts {l} (linked : Linked k ranges l) :
    Accounts k ranges [] l (delRanges k ranges l) := by
  induction ranges generalizing l with
  | nil => exact accountsRefl linked
  | cons r rest ih =>
    have del := accountsDel linked
    exact accountsTrans del (ih del.linked)

def Admissible (s : State) : Op → Prop
  | .pinUnpin k .unpin offset len false true =>
    ∀ a, s.area k = some a → a.file = true →
      ¬ EmptyRequest a offset len ∧
      ∀ i, pinInterval a offset.toNat len.toNat = some i → evictablePages s + (i.2 + 1 - i.1) < word
  | _ => True

/- Without a new range an unpin can only merge: with kmem_cache_zalloc failing
the request's interval never enters the list. -/
theorem unpinFailedKeeps {pgstart pgend purged l out}
    (trace : UnpinTrace k false pgstart pgend purged ranges l out) (ordered : Ordered ranges)
    (nonEmpty : NonEmpty ranges) (within : Within pages ranges) :
    Ordered out.unpinned ∧ NonEmpty out.unpinned ∧ Within pages out.unpinned ∧
    weight out.unpinned ≤ weight ranges := by
  generalize failed : false = ok at trace
  induction trace with
  | subsumed => exact ⟨ordered,nonEmpty,within,le_rfl⟩
  | insert scan allocated => subst failed; simp [rangeAlloc] at allocated
  | failed => exact ⟨ordered,nonEmpty,within,le_rfl⟩
  | merge mem reach partly inside later ih =>
    obtain ⟨o,n,w,lighter⟩ := ih (orderedErase _ ordered) (fun x hx => nonEmpty x (mem_of_mem_erase hx))
      (fun x hx => within x (mem_of_mem_erase hx))
    refine ⟨o,n,w,le_trans lighter ?_⟩
    rw [weightPerm (perm_cons_erase mem),weightCons]
    exact Nat.le_add_left _ _

theorem bootInv : Inv boot :=
  ⟨by simp [boot],by simp [boot],by simp [boot],by simp [boot],by simp [boot],fun _ _ => rfl,rfl,by decide⟩

section
variable (inv : Inv s)
include inv

theorem pinKeeps {pgstart pgend ok} (at_ : s.area k = some a)
    (file : a.file = true) (proper : pgstart ≤ pgend + 1) :
    Inv (setArea {s with lru := (ashmemPin k pgstart pgend ok a.unpinned s.lru).lru} k
      (some {a with unpinned := (ashmemPin k pgstart pgend ok a.unpinned s.lru).unpinned})) := by
  have trace := pinTrace k ok s.lru (inv.ordered k a at_).2 proper
  have acc := accountsPin [] trace (by simpa using inv.linked k a at_)
  simp only [append_nil] at acc
  have bounds := pinBounds proper trace (inv.nonEmpty k a at_) (inv.within k a at_)
  have lighter := pinWeight proper trace (inv.nonEmpty k a at_) (inv.within k a at_) (areaPagesSmall a)
  have := inv.fits
  exact replaceArea inv at_ acc (pinOrdered proper trace (inv.ordered k a at_)) bounds.1 bounds.2
    (by simp [file]) (by omega)

theorem unpinKeeps {pgstart pgend ok} (at_ : s.area k = some a)
    (file : a.file = true) (proper : pgstart ≤ pgend) (bound : pgend < areaPages a)
    (room : evictablePages s + (pgend + 1 - pgstart) < word) :
    Inv (setArea {s with lru := (ashmemUnpin k pgstart pgend ok a.unpinned s.lru).lru} k
      (some {a with unpinned := (ashmemUnpin k pgstart pgend ok a.unpinned s.lru).unpinned})) := by
  have trace := unpinTrace k pgstart pgend ok a.unpinned s.lru
  have acc := accountsUnpin trace (inv.linked k a at_)
  have small := areaPagesSmall a
  have bounds := unpinBounds trace (inv.nonEmpty k a at_) (inv.within k a at_) proper bound
  have heavier := unpinWeight trace (inv.nonEmpty k a at_) (inv.within k a at_) small proper bound
  simp only [Bool.false_eq_true,if_false] at heavier
  exact replaceArea inv at_ acc (unpinOrdered trace (inv.ordered k a at_) (by omega) (by omega))
    bounds.1 bounds.2 (by simp [file]) (by omega)

theorem evictableMember {i} (mem : (k,i) ∈ s.lru.list) :
    ∃ a, s.area k = some a ∧ ∃ r ∈ a.unpinned, r.id = i ∧ r.purged = false := by
  have here : (k,i) ∈ mine k s.lru := mem_filter.mpr ⟨mem,by simp⟩
  cases at_ : s.area k with
  | none => simp [inv.absent k at_] at here
  | some a =>
    obtain ⟨r,hr,same⟩ := mem_map.mp ((inv.linked k a at_).perm.mem_iff.mp here)
    obtain ⟨hr,live⟩ := mem_filter.mp hr
    exact ⟨a,rfl,r,hr,congrArg Prod.snd same,by simpa [onLru] using live⟩

theorem purgeKeeps (at_ : s.area k = some a) (mem : r ∈ a.unpinned) (live : r.purged = false) :
    Inv (setArea {s with lru := lruDel s.lru k r} k
      (some {a with unpinned := markPurged r.id a.unpinned})) := by
  have acc := accountsPurge (inv.linked k a at_) mem live
  have lighter : weight (markPurged r.id a.unpinned) ≤ weight a.unpinned := by
    obtain ⟨rest,moved,marked⟩ := markedPerm (inv.linked k a at_).ids mem
    rw [weightPerm moved,weightPerm marked,weightCons,weightCons]
    simp
  have := inv.fits
  refine replaceArea inv at_ acc (markedOrdered (inv.ordered k a at_)) ?_ ?_ ?_ (by omega)
  · intro x hx
    obtain ⟨y,hy,low,high⟩ := markedMember hx
    rw [low,high]
    exact inv.nonEmpty k a at_ y hy
  · intro x hx
    obtain ⟨y,hy,_,high⟩ := markedMember hx
    rw [high]
    exact inv.within k a at_ y hy
  · intro file
    have empty := inv.mapped k a at_ file
    simp [empty] at mem

theorem shrinkKeeps {entries nr}
    (snapshot : entries = s.lru.list) : Inv (shrinkLoop entries nr s).1 := by
  induction entries generalizing nr s with
  | nil => exact inv
  | cons x rest ih =>
    obtain ⟨k,i⟩ := x
    obtain ⟨a,at_,r,mem,rfl,live⟩ := evictableMember inv (k := k) (i := i) (by simp [← snapshot])
    have found := findById (inv.linked k a at_).ids mem
    have next := purgeKeeps inv at_ mem live
    simp only [shrinkLoop,at_,found]
    split
    · exact next
    · refine ih next ?_
      simp [setArea,lruDel,← snapshot]

theorem releaseKeeps (k : Nat) : Inv (ashmemRelease s k) := by
  unfold ashmemRelease
  split
  · exact inv
  rename_i a at_
  have acc := delRangesAccounts (inv.linked k a at_)
  have none_ := List.Perm.eq_nil acc.linked.perm
  have moves := totalMoves (s := s) (t := setArea {s with lru := delRanges k a.unpinned s.lru} k none)
    (fun j => setAreaOther _ _) acc.others
  rw [mineSum at_ (inv.linked k a at_)] at moves
  simp only [setArea,none_,map_nil,sum_nil] at moves
  have fits := Nat.lt_of_le_of_lt (Nat.le.intro moves) inv.fits
  exact setAreaInv inv (by simp) (fun _ => none_) acc.others acc.next (countFollows acc inv.count inv.fits moves fits) fits

theorem setAreaKeeps (same : ∀ i, sizeAt (setArea s k (some a)) (k,i) = sizeAt s (k,i)) (own : AreaOk s.lru k a) :
    Inv (setArea s k (some a)) := by
  have sizes : sizeAt (setArea s k (some a)) = sizeAt s := by
    funext ⟨j,i⟩
    by_cases here : j = k
    · exact here ▸ same i
    · simp [sizeAt,setArea,here]
  have total : evictablePages (setArea s k (some a)) = evictablePages s := by
    simp only [evictablePages,sizes]
    rfl
  refine setAreaInv inv ?_ (by simp) rfl le_rfl (total ▸ inv.count) (total ▸ inv.fits)
  rintro _ ⟨⟩
  exact own

theorem reconfigureKeeps {a'} (at_ : s.area k = some a)
    (ranges : a'.unpinned = a.unpinned) (within : Within (areaPages a') a.unpinned)
    (mapped : a'.file = false → a.unpinned = []) : Inv (setArea s k (some a')) :=
  setAreaKeeps inv (by simp [sizeAt,setArea,at_,ranges])
    ⟨ranges ▸ inv.ordered k a at_,ranges ▸ inv.nonEmpty k a at_,ranges ▸ within,ranges ▸ mapped,ranges ▸ inv.linked k a at_⟩

theorem openKeeps (k : Nat) : Inv (ashmemOpen s k) := by
  unfold ashmemOpen
  split
  · rename_i closed
    have none := inv.absent k closed
    exact setAreaKeeps inv (by simp [sizeAt,setArea,closed])
      ⟨by simp [Ordered],by simp [NonEmpty],by simp [Within],fun _ => rfl,none ▸ List.Perm.refl _,nodup_nil,by simp⟩
  · exact inv

theorem pinUnpinKeeps {cmd offset len fault ok} (admitted : Admissible s (.pinUnpin k cmd offset len fault ok)) :
    Inv (ashmemPinUnpin s k cmd offset len fault ok).1 := by
  unfold ashmemPinUnpin
  split
  · exact inv
  rename_i a at_
  split
  · exact inv
  rename_i file
  have file : a.file = true := by simpa using file
  split
  · exact inv
  rename_i noFault
  have noFault : fault = false := by simpa using noFault
  split
  · exact inv
  rename_i pgstart pgend interval
  cases cmd with
  | getPinStatus => exact inv
  | pin => exact pinKeeps inv at_ file (intervalWeak interval).1.1
  | unpin =>
    cases ok with
    | true =>
      subst noFault
      obtain ⟨proper,room⟩ := admitted a at_ file
      have bounds := intervalProper interval proper
      exact unpinKeeps inv at_ file bounds.1 bounds.2 (room _ interval)
    | false =>
      have trace := unpinTrace k pgstart pgend false a.unpinned s.lru
      have acc := accountsUnpin trace (inv.linked k a at_)
      obtain ⟨o,n,w,lighter⟩ := unpinFailedKeeps trace (inv.ordered k a at_) (inv.nonEmpty k a at_)
        (inv.within k a at_)
      have := inv.fits
      exact replaceArea inv at_ acc o n w (by simp [file]) (by omega)

theorem ashmemShrinkKeeps (nr : Int) (gfpFs : Bool) : Inv (ashmemShrink s nr gfpFs).1 := by
  unfold ashmemShrink
  split
  · exact inv
  split
  · exact inv
  · exact shrinkKeeps inv rfl

theorem purgeCountedKeeps (ret : Int) : Inv (purgeCounted s ret).1 :=
  ashmemShrinkKeeps inv ret true

theorem purgeAllKeeps (capable : Bool) : Inv (purgeAllCaches s capable).1 := by
  unfold purgeAllCaches
  split
  · exact purgeCountedKeeps inv _
  · exact inv

theorem invRangeLists : RangeListsOk s := by
  have once : s.lru.list.Nodup := by
    rw [nodup_iff_count]
    rintro ⟨k,i⟩
    by_cases mem : (k,i) ∈ s.lru.list
    · obtain ⟨a,at_,_⟩ := evictableMember inv mem
      have linked := inv.linked k a at_
      have nodup : (mine k s.lru).Nodup := by
        refine linked.perm.nodup_iff.mpr ?_
        have ids : ((a.unpinned.filter onLru).map Range.id).Nodup :=
          linked.ids.sublist (filter_sublist.map _)
        refine List.Nodup.of_map Prod.snd ?_
        simpa only [evictable,map_map,Function.comp_def] using ids
      have count := nodup_iff_count.mp nodup (k,i)
      rwa [mine,count_filter (by simp)] at count
    · rw [count_eq_zero_of_not_mem mem]
      exact Nat.zero_le 1
  refine ⟨fun k a h => (inv.ordered k a h).1,inv.nonEmpty,inv.within,fun k a h => (inv.linked k a h).ids,
    once,?_,inv.count⟩
  intro k i
  refine ⟨evictableMember inv,?_⟩
  rintro ⟨a,at_,r,mem,rfl,live⟩
  have listed : (k,r.id) ∈ evictable k a.unpinned :=
    mem_map.mpr ⟨r,mem_filter.mpr ⟨mem,by simp [onLru,live]⟩,rfl⟩
  exact (mem_filter.mp ((inv.linked k a at_).perm.mem_iff.mpr listed)).1

end

theorem stepKeeps (s : State) (op : Op) (inv : Inv s) (admitted : Admissible s op) : Inv (step s op) := by
  cases op with
  | «open» k => exact openKeeps inv k
  | setSize k size =>
    simp only [step,setSize]
    split
    · exact inv
    rename_i a at_
    split
    · exact inv
    rename_i file
    have empty := inv.mapped k a at_ (by simpa using file)
    exact reconfigureKeeps inv at_ rfl (by simp [empty,Within]) (fun _ => empty)
  | setProtMask k prot exec =>
    simp only [step,setProtMask]
    split
    · exact inv
    rename_i a at_
    split
    · exact inv
    · exact reconfigureKeeps inv at_ rfl (inv.within k a at_) (inv.mapped k a at_)
  | mmap k flags setup =>
    simp only [step,ashmemMmap]
    split
    · exact inv
    rename_i a at_
    split
    · exact inv
    split
    · exact inv
    split
    · exact inv
    split
    · exact reconfigureKeeps inv at_ rfl (inv.within k a at_) (by simp)
    · exact inv
  | pinUnpin k cmd offset len fault ok => exact pinUnpinKeeps inv admitted
  | shrink nr gfpFs => exact ashmemShrinkKeeps inv nr gfpFs
  | purgeAllCaches capable => exact purgeAllKeeps inv capable
  | release k => exact releaseKeeps inv k

theorem runRangeLists {ops} (admitted : Admitted step Admissible boot ops) :
    RangeListsOk (run step boot ops) :=
  invRangeLists (runInvariant stepKeeps bootInv admitted)

def exampleRun : List Op :=
  [.open 0,.setSize 0 8192,.mmap 0 3 true,.pinUnpin 0 .unpin 0 0 false true,
    .pinUnpin 0 .pin 0 4096 false true,.shrink 1 true]

theorem exampleRunRangeLists :
    Admitted step Admissible boot exampleRun ∧ RangeListsOk (run step boot exampleRun) := by
  have admitted : Admitted step Admissible boot exampleRun := by
    refine ⟨trivial,trivial,trivial,?_,trivial,trivial,trivial⟩
    intro a at_ _
    have known : (run step boot (exampleRun.take 3)).area 0 = some ⟨[],true,8192,7⟩ := by
      decide +kernel
    cases known.symm.trans at_
    refine ⟨by decide +kernel,?_⟩
    intro i found
    have whole : pinInterval ⟨[],true,8192,7⟩ 0 0 = some (0,1) := by decide +kernel
    cases whole.symm.trans found
    decide +kernel
  exact ⟨admitted,runRangeLists admitted⟩

def emptyUnpinRun : List Op :=
  [.open 0,.setSize 0 4096,.mmap 0 3 true,.pinUnpin 0 .unpin 4096 0 false true]

theorem emptyUnpinBreaksRangeLists : ¬ RangeListsOk (run step boot emptyUnpinRun) := by
  intro ok
  have listed : (run step boot emptyUnpinRun).area 0 = some ⟨[⟨0,1,0,false⟩],true,4096,7⟩ := by
    decide +kernel
  exact absurd (ok.nonEmpty 0 _ listed ⟨0,1,0,false⟩ (by decide)) (by decide)

end EclairKernel.Ashmem
