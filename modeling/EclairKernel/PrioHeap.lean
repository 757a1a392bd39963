import Mathlib.Data.List.Nodup
import Mathlib.Data.List.Perm.Subperm
import Mathlib.Logic.Equiv.Basic
import Mathlib.Order.Lattice
import Mathlib.Data.List.Induction

/-! lib/prio_heap.c. The pointers are a type with a total order, which is heap->gt, and
ptrs is a function: what stands at or above heap->size is never read. -/
namespace EclairKernel.PrioHeap
open Function List

variable {α : Type}

structure Heap (α : Type) where
  ptrs : Nat → α
  size : Nat
  max : Nat

def kept (n : Nat) (f : Nat → α) : List α := (range n).map f

section
variable {n : Nat} {f : Nat → α}

theorem swapKept {i j : Nat} (hi : i < n) (hj : j < n) : kept n (update (update f i (f j)) j (f i)) ~ kept n f := by
  rw [kept,← Equiv.comp_swap_eq_update,← map_map]
  refine .map f ((subperm_of_subset (Nodup.map (Equiv.injective _) nodup_range) fun a mem => ?_).perm_of_length_le (by simp))
  obtain ⟨b,less,rfl⟩ := mem_map.mp mem
  rw [Equiv.swap_apply_def]
  split_ifs <;> simp_all

theorem keptNew (n : Nat) (f : Nat → α) (p : α) : kept (n + 1) (update f n p) ~ p::kept n f := by
  have same : kept n (update f n p) = kept n f := map_congr_left fun i mem => update_of_ne (Nat.ne_of_lt (mem_range.mp mem)) ..
  rw [kept,range_succ,map_append,← kept,same,map_singleton,update_self]
  exact perm_append_singleton ..

theorem keptTop (positive : 0 < n) (f : Nat → α) (p : α) : f 0::kept n (update f 0 p) ~ p::kept n f := by
  obtain ⟨m,rfl⟩ := Nat.exists_eq_succ_of_ne_zero (Nat.ne_of_gt positive)
  simp only [kept,range_succ_eq_map,map_cons,map_map]
  exact .swap ..

end

variable [LinearOrder α]

def parent (pos : Nat) : Nat := (pos - 1) / 2

def rise (p : α) : Nat → Nat → (Nat → α) → Nat → α
  | 0,pos,ptrs => update ptrs pos p
  | fuel + 1,pos,ptrs =>
    if 0 < pos ∧ p > ptrs (parent pos) then rise p fuel (parent pos) (update ptrs pos (ptrs (parent pos)))
    else update ptrs pos p

def largest (p : α) (size pos : Nat) (ptrs : Nat → α) : Nat :=
  let left := 2 * pos + 1
  let right := 2 * pos + 2
  let largest := if left < size ∧ ptrs left > p then left else pos
  if right < size ∧ ptrs right > ptrs largest then right else largest

def sink (p : α) (size : Nat) : Nat → Nat → (Nat → α) → Nat → α
  | 0,_,ptrs => ptrs
  | fuel + 1,pos,ptrs =>
    let l := largest p size pos ptrs
    if l = pos then ptrs else sink p size fuel l (update (update ptrs pos (ptrs l)) l p)

def heapInsert (h : Heap α) (p : α) : Option α × Heap α :=
  if h.size < h.max then (none,{ h with size := h.size + 1, ptrs := rise p h.size h.size h.ptrs })
  else if p > h.ptrs 0 then (some p,h)
  else (some (h.ptrs 0),{ h with ptrs := sink p h.size h.size 0 (update h.ptrs 0 p) })

def insertNext (s : List α × Heap α) (p : α) : List α × Heap α :=
  ((heapInsert s.2 p).1.toList ++ s.1,(heapInsert s.2 p).2)

def Ordered (n : Nat) (f : Nat → α) : Prop := ∀ i, 0 < i → i < n → f i ≤ f (parent i)

/-- The order away from an element at pos that may stand too low (`up`) or too high. -/
structure Hole (up : Bool) (n pos : Nat) (f : Nat → α) : Prop where
  away : ∀ i, 0 < i → i < n → (if up then i else parent i) ≠ pos → f i ≤ f (parent i)
  across : 0 < pos → ∀ i, 0 < i → i < n → parent i = pos → f i ≤ f (parent pos)

variable {n pos : Nat} {f : Nat → α} {p : α}

theorem parentLt (positive : 0 < pos) : parent pos < pos := by
  unfold parent
  omega

theorem Hole.rise (hole : Hole true n pos f) (positive : 0 < pos) (less : pos < n) (higher : f (parent pos) < f pos) :
    Hole true n (parent pos) (update (update f pos (f (parent pos))) (parent pos) (f pos)) := by
  obtain ⟨away,across⟩ := hole
  have lower := parentLt positive
  constructor
  · intro i low high apart
    have := @parentLt i low
    simp only [if_true] at apart away
    grind
  · grind

theorem Hole.done (hole : Hole true n pos f) (stop : 0 < pos → f pos ≤ f (parent pos)) : Ordered n f := by
  intro i positive less
  by_cases here : i = pos
  · subst here
    exact stop positive
  · exact hole.away i positive less here

theorem riseSpec {fuel ptrs} (enough : pos ≤ fuel) (less : pos < n) (hole : Hole true n pos (update ptrs pos p)) :
    Ordered n (rise p fuel pos ptrs) ∧ kept n (rise p fuel pos ptrs) ~ kept n (update ptrs pos p) := by
  induction fuel generalizing pos ptrs with
  | zero => exact ⟨hole.done fun positive => by omega,.rfl⟩
  | succ fuel ih =>
    rw [PrioHeap.rise]
    split
    · next up =>
      have lower := parentLt up.1
      have moved : update (update ptrs pos (ptrs (parent pos))) (parent pos) p =
          update (update (update ptrs pos p) pos (update ptrs pos p (parent pos))) (parent pos) (update ptrs pos p pos) := by
        rw [update_self,update_of_ne (Nat.ne_of_lt lower),update_idem]
      obtain ⟨ordered,perm⟩ := ih (by omega) (by omega) (moved ▸ hole.rise up.1 less (by simpa [Nat.ne_of_lt lower] using up.2))
      exact ⟨ordered,perm.trans (moved ▸ swapKept less (by omega))⟩
    · next stop =>
      refine ⟨hole.done fun positive => ?_,.rfl⟩
      rw [update_self,update_of_ne (Nat.ne_of_lt (parentLt positive))]
      exact not_lt.mp fun higher => stop ⟨positive,higher⟩

theorem largestSpec (here : f pos = p) : largest p n pos f = pos ∧ (∀ i, 0 < i → i < n → parent i = pos → f i ≤ p) ∨
    ∃ l, largest p n pos f = l ∧ pos < l ∧ l < n ∧ parent l = pos ∧ p ≤ f l ∧
      ∀ i, 0 < i → i < n → parent i = pos → f i ≤ f l := by
  have children (i : Nat) (low : 0 < i) (is : parent i = pos) : i = 2 * pos + 1 ∨ i = 2 * pos + 2 := by
    unfold parent at is
    omega
  have left : parent (2 * pos + 1) = pos := by
    unfold parent
    omega
  have right : parent (2 * pos + 2) = pos := by
    unfold parent
    omega
  simp only [largest]
  grind

theorem Hole.sink {l : Nat} (hole : Hole false n pos f) (low : pos < l) (high : l < n) (child : parent l = pos)
    (above : f pos ≤ f l) (most : ∀ i, 0 < i → i < n → parent i = pos → f i ≤ f l) :
    Hole false n l (update (update f pos (f l)) l (f pos)) := by
  obtain ⟨away,across⟩ := hole
  constructor
  · intro i positive less apart
    have own := away i positive less
    have sibling := most i positive less
    have outer (more : 0 < pos) := across more l (by omega) high child
    simp only [update_apply]
    clear away across most
    grind
  · intro _ i positive less here
    have own := away i positive less
    grind

theorem sinkSpec {fuel} (enough : n ≤ pos + fuel) (less : pos < n) (here : f pos = p) (hole : Hole false n pos f) :
    Ordered n (sink p n fuel pos f) ∧ kept n (sink p n fuel pos f) ~ kept n f := by
  induction fuel generalizing pos f with
  | zero => omega
  | succ fuel ih =>
    rw [PrioHeap.sink]
    rcases largestSpec here with ⟨same,most⟩ | ⟨l,found,low,high,child,above,most⟩
    · rw [if_pos same]
      refine ⟨fun i positive below => ?_,.rfl⟩
      by_cases under : parent i = pos
      · rw [under,here]
        exact most i positive below under
      · exact hole.away i positive below under
    · have moved := hole.sink low high child (here ▸ above) most
      have perm := swapKept (f := f) less high
      rw [here] at moved perm
      obtain ⟨ordered,perm'⟩ := ih (by omega) high (update_self ..) moved
      rw [found,if_neg (by omega)]
      exact ⟨ordered,perm'.trans perm⟩

theorem Ordered.top (ordered : Ordered n f) {i : Nat} (less : i < n) : f i ≤ f 0 := by
  induction i using Nat.strongRecOn with
  | ind i ih =>
    by_cases positive : 0 < i
    · have lower := parentLt positive
      exact (ordered i positive less).trans (ih _ lower (by omega))
    · rw [Nat.eq_zero_of_not_pos positive]

structure Good (max : Nat) (ps : List α) (s : List α × Heap α) : Prop where
  room : s.2.max = max
  size : s.2.size = min max ps.length
  ordered : Ordered s.2.size s.2.ptrs
  perm : kept s.2.size s.2.ptrs ++ s.1 ~ ps
  least : ∀ a ∈ kept s.2.size s.2.ptrs, ∀ b ∈ s.1, a ≤ b

theorem Good.insert {max ps s} (positive : 1 ≤ max) (good : Good max ps s) (p : α) : Good max (ps ++ [p]) (insertNext s p) := by
  obtain ⟨out,ptrs,size,room⟩ := s
  obtain ⟨rfl,fill,ordered,perm,least⟩ := good
  dsimp only at *
  have count := perm.length_eq
  rw [length_append,kept,length_map,length_range] at count
  simp only [insertNext,heapInsert]
  split
  · have none_ : out = [] := length_eq_zero_iff.mp (by omega)
    subst none_
    have hole : Hole true (size + 1) size (update ptrs size p) := by
      refine ⟨fun i positive less apart => ?_,fun _ i positive less here => ?_⟩
      · have lower := parentLt positive
        simp only [if_true] at apart
        rw [update_of_ne apart,update_of_ne (by omega)]
        exact ordered i positive (by omega)
      · have lower := parentLt positive
        omega
    obtain ⟨ordered',perm'⟩ := riseSpec (Nat.le_refl size) (Nat.lt_succ_self size) hole
    refine ⟨rfl,by simp; omega,ordered',?_,by simp⟩
    simp only [Option.toList_none,append_nil] at perm ⊢
    exact (perm'.trans (keptNew ..)).trans ((perm.cons p).trans (perm_append_singleton ..).symm)
  · have some_ : 0 < size := by omega
    have top : ∀ a ∈ kept size ptrs, a ≤ ptrs 0 := by
      simp only [kept,forall_mem_map,mem_range]
      exact fun i less => ordered.top less
    split
    · next above =>
      refine ⟨rfl,by simp; omega,ordered,?_,?_⟩
      · exact perm_middle.trans ((perm.cons p).trans (perm_append_singleton ..).symm)
      · simp only [Option.toList_some,singleton_append,forall_mem_cons]
        exact fun a mem => ⟨(top a mem).trans (le_of_lt above),least a mem⟩
    · next below =>
      have hole : Hole false size 0 (update ptrs 0 p) := by
        refine ⟨fun i positive less apart => ?_,fun more => absurd more (Nat.lt_irrefl 0)⟩
        have apart : parent i ≠ 0 := apart
        rw [update_of_ne (by omega),update_of_ne apart]
        exact ordered i positive less
      obtain ⟨ordered',perm'⟩ := sinkSpec (Nat.le_add_left size 0) some_ (update_self ..) hole
      have swapped := (perm'.cons (ptrs 0)).trans (keptTop some_ ptrs p)
      refine ⟨rfl,by simp; omega,ordered',?_,fun a mem => ?_⟩
      · exact perm_middle.trans ((swapped.append_right out).trans ((perm.cons p).trans (perm_append_singleton ..).symm))
      · have first : ptrs 0 ∈ kept size ptrs := mem_map.mpr ⟨0,mem_range.mpr some_,rfl⟩
        simp only [Option.toList_some,singleton_append,forall_mem_cons]
        rcases mem_cons.mp (swapped.subset (mem_cons_of_mem _ mem)) with rfl | old
        · exact ⟨not_lt.mp below,fun b later => (not_lt.mp below).trans (least _ first b later)⟩
        · exact ⟨top a old,least a old⟩

theorem heapKeepsLeast {max : Nat} (positive : 1 ≤ max) (ptrs : Nat → α) (ps : List α) :
    Good max ps (ps.foldl insertNext ([],⟨ptrs,0,max⟩)) := by
  induction ps using reverseRecOn with
  | nil => exact ⟨rfl,by simp,fun i _ less => absurd less (Nat.not_lt_zero i),by simp [kept],by simp⟩
  | append_singleton ps p ih =>
    rw [foldl_concat]
    exact ih.insert positive p

theorem heapKeepsTwo : Good 2 [3,1,2] ([3,1,2].foldl insertNext ([],⟨fun _ => 0,0,2⟩)) :=
  heapKeepsLeast (by decide) (fun _ => 0) [3,1,2]

end EclairKernel.PrioHeap
