import Mathlib.Data.Nat.Bitwise
import Mathlib.Tactic.Ring
import Mathlib.Algebra.BigOperators.Group.Finset.Basic
import Mathlib.Order.Interval.Finset.Nat

/-! Buddy tilings. An order function on the naturals is read as a chain of
aligned blocks by stepping from each block to the next; splitting and merging
change the chain by one member, and a chain of free blocks without free buddies
is the binary decomposition of its length. -/
namespace EclairKernel.Buddy
open List

def Chain (order : Nat → Nat) : Nat → List Nat → Nat → Prop
  | i, [], n => i = n
  | i, j::rest, n => j = i ∧ 2^order i ∣ i ∧ Chain order (i + 2^order i) rest n

variable {o o' : Nat → Nat} {i j k n : Nat} {l : List Nat}

theorem chainAppend {before after} :
    Chain o i (before ++ after) n ↔ ∃ m, Chain o i before m ∧ Chain o m after n := by
  induction before generalizing i with
  | nil => simp [Chain]
  | cons j rest ih =>
    simp only [cons_append,Chain,ih]
    constructor
    · rintro ⟨same,aligned,m,left,right⟩
      exact ⟨m,⟨same,aligned,left⟩,right⟩
    · rintro ⟨m,⟨same,aligned,left⟩,right⟩
      exact ⟨same,aligned,m,left,right⟩

theorem chainCongr (same : ∀ x ∈ l, o' x = o x) (chain : Chain o i l n) : Chain o' i l n := by
  induction l generalizing i with
  | nil => exact chain
  | cons x rest ih =>
    obtain ⟨rfl,aligned,tail⟩ := chain
    have here := same x mem_cons_self
    refine ⟨rfl,here ▸ aligned,here ▸ ih (forall_mem_cons.mp same).2 tail⟩

theorem alignedApart (left : 2^k ∣ i) (right : 2^k ∣ j) (below : i < j) : i + 2^k ≤ j := by
  have gap := Nat.le_of_dvd (by omega) (Nat.dvd_sub right left)
  omega

theorem xorAdd (aligned : 2^(k+1) ∣ j) : j ^^^ 2^k = j + 2^k := by
  obtain ⟨q,rfl⟩ := aligned
  have small : 2^k < 2^(k+1) := Nat.pow_lt_pow_right (by decide) (Nat.lt_succ_self k)
  apply Nat.eq_of_testBit_eq
  intro b
  have bare := Nat.testBit_two_pow_mul_add q (Nat.two_pow_pos (k+1)) b
  rw [add_zero] at bare
  rw [Nat.testBit_xor,bare,Nat.testBit_two_pow_mul_add q small b]
  split
  · simp
  · have above : k ≠ b := by omega
    simp [above]

theorem xorSub (aligned : 2^k ∣ j) (upper : ¬ 2^(k+1) ∣ j) : 2^(k+1) ∣ j ^^^ 2^k ∧ j = (j ^^^ 2^k) + 2^k := by
  obtain ⟨q,rfl⟩ := aligned
  have odd : q % 2 = 1 := by
    by_contra even
    refine upper ⟨q / 2,?_⟩
    rw [pow_succ,mul_assoc]
    congr 1
    omega
  have lower : 2^k * q = 2^(k+1) * (q / 2) + 2^k := by
    calc 2^k * q = 2^k * (2 * (q / 2) + 1) := by congr 1; omega
      _ = 2^(k+1) * (q / 2) + 2^k := by ring
  have pair : 2^(k+1) * (q / 2) ^^^ 2^k = 2^(k+1) * (q / 2) + 2^k := xorAdd (dvd_mul_right _ _)
  have back : 2^k * q ^^^ 2^k = 2^(k+1) * (q / 2) := by
    rw [lower,← pair,Nat.xor_assoc,Nat.xor_self,Nat.xor_zero]
  rw [back]
  exact ⟨dvd_mul_right _ _,lower⟩

theorem xorPair (aligned : 2^k ∣ j) :
    ∃ low, 2^(k+1) ∣ low ∧ ((j = low ∧ j ^^^ 2^k = low + 2^k) ∨ (j ^^^ 2^k = low ∧ j = low + 2^k)) := by
  by_cases lower : 2^(k+1) ∣ j
  · exact ⟨j,lower,.inl ⟨rfl,xorAdd lower⟩⟩
  · obtain ⟨half,upper⟩ := xorSub aligned lower
    exact ⟨_,half,.inr ⟨rfl,upper⟩⟩

section
variable (chain : Chain o i l n)
include chain

theorem chainLe : i ≤ n := by
  induction l generalizing i with
  | nil => exact le_of_eq chain
  | cons j rest ih => exact le_trans (Nat.le_add_right _ _) (ih chain.2.2)

theorem chainMember (mem : j ∈ l) : i ≤ j ∧ 2^o j ∣ j ∧ j + 2^o j ≤ n := by
  induction l generalizing i with
  | nil => simp at mem
  | cons x rest ih =>
    obtain ⟨rfl,aligned,tail⟩ := chain
    rcases mem_cons.mp mem with rfl | mem
    · exact ⟨le_rfl,aligned,chainLe tail⟩
    · obtain ⟨above,rest⟩ := ih tail mem
      exact ⟨le_trans (Nat.le_add_right _ _) above,rest⟩

theorem chainBelow (mem : j ∈ l) : j < n := by
  have inside := (chainMember chain mem).2.2
  have : 0 < 2^o j := Nat.two_pow_pos _
  omega

theorem chainSplitAt (mem : j ∈ l) :
    ∃ before after, l = before ++ j::after ∧ Chain o i before j ∧ 2^o j ∣ j ∧ Chain o (j + 2^o j) after n := by
  obtain ⟨before,after,rfl⟩ := append_of_mem mem
  obtain ⟨m,left,rfl,aligned,right⟩ := chainAppend.mp chain
  exact ⟨before,after,rfl,left,aligned,right⟩

theorem chainApart (left : j ∈ l) (right : k ∈ l) (below : j < k) : j + 2^o j ≤ k := by
  obtain ⟨before,after,rfl,prior,_,later⟩ := chainSplitAt chain right
  rcases mem_append.mp left with mem | mem
  · exact (chainMember prior mem).2.2
  rcases mem_cons.mp mem with rfl | mem
  · exact absurd below (lt_irrefl _)
  · have := (chainMember later mem).1
    omega

theorem chainCover (low : i ≤ k) (high : k < n) : ∃ j ∈ l, j ≤ k ∧ k < j + 2^o j := by
  induction l generalizing i with
  | nil =>
    have same : i = n := chain
    omega
  | cons x rest ih =>
    obtain ⟨rfl,_,tail⟩ := chain
    by_cases inside : k < x + 2^o x
    · exact ⟨x,mem_cons_self,low,inside⟩
    · obtain ⟨j,mem,found⟩ := ih tail (not_lt.mp inside)
      exact ⟨j,mem_cons_of_mem _ mem,found⟩

theorem chainSplit (mem : j ∈ l) (old : o j = k + 1) (low : o' j = k)
    (high : o' (j + 2^k) = k) (frame : ∀ x, x ≠ j → x ≠ j + 2^k → o' x = o x) :
    ∃ l', Chain o' i l' n ∧ ∀ x, x ∈ l' ↔ x ∈ l ∨ x = j + 2^k := by
  obtain ⟨before,after,rfl,prior,aligned,later⟩ := chainSplitAt chain mem
  rw [old] at aligned later
  have half := dvd_trans (dvd_mul_right _ _) aligned
  refine ⟨before ++ j::(j + 2^k)::after,chainAppend.mpr ⟨j,?_,rfl,?_⟩,?_⟩
  · refine chainCongr (fun x hx => frame x ?_ ?_) prior
    all_goals
      have := chainBelow prior hx
      omega
  · rw [low]
    refine ⟨half,rfl,?_⟩
    rw [high]
    refine ⟨Nat.dvd_add half (Nat.dvd_refl _),?_⟩
    rw [show j + 2^k + 2^k = j + 2^k * 2 by omega]
    refine chainCongr (fun x hx => frame x ?_ ?_) later
    all_goals
      have := (chainMember later hx).1
      omega
  · intro x
    simp only [mem_append,mem_cons,or_assoc]
    rw [or_comm (a := x ∈ after)]

theorem chainMerge (left : j ∈ l) (right : j + 2^k ∈ l) (low : o j = k)
    (high : o (j + 2^k) = k) (aligned : 2^(k+1) ∣ j) (merged : o' j = k + 1)
    (frame : ∀ x, x ≠ j → x ≠ j + 2^k → o' x = o x) : ∃ l', Chain o' i l' n ∧ ∀ x, x ∈ l' ↔ x ∈ l ∧ x ≠ j + 2^k := by
  obtain ⟨before,after,rfl,prior,_,later⟩ := chainSplitAt chain left
  rw [low] at later
  have second : ∃ rest, after = (j + 2^k)::rest := by
    rcases mem_append.mp right with mem | mem
    · have := chainBelow prior mem
      omega
    rcases mem_cons.mp mem with same | mem
    · omega
    cases after with
    | nil => simp at mem
    | cons x rest => exact ⟨rest,by rw [later.1]⟩
  obtain ⟨rest,rfl⟩ := second
  obtain ⟨_,_,later⟩ := later
  rw [high] at later
  refine ⟨before ++ j::rest,chainAppend.mpr ⟨j,?_,rfl,merged ▸ aligned,?_⟩,?_⟩
  · refine chainCongr (fun x hx => frame x ?_ ?_) prior
    all_goals
      have := chainBelow prior hx
      omega
  · rw [merged,show j + 2^(k+1) = j + 2^k + 2^k by rw [pow_succ]; omega]
    refine chainCongr (fun x hx => frame x ?_ ?_) later
    all_goals
      have := (chainMember later hx).1
      omega
  · intro x
    have kept : x ∈ before ++ j::rest → x ≠ j + 2^k := by
      intro hx
      rcases mem_append.mp hx with hx | hx
      · have := chainBelow prior hx
        omega
      rcases mem_cons.mp hx with rfl | hx
      · omega
      · have := (chainMember later hx).1
        omega
    have longer : x ∈ before ++ j::(j + 2^k)::rest ↔ x = j + 2^k ∨ x ∈ before ++ j::rest := by
      simp only [mem_append,mem_cons]
      rw [or_left_comm (a := x = j),or_left_comm]
    rw [longer]
    exact ⟨fun mem => ⟨.inr mem,kept mem⟩,fun mem => mem.1.resolve_left mem.2⟩

theorem nextMember (mem : j ∈ l) (inside : j + 2^o j < n) : j + 2^o j ∈ l := by
  obtain ⟨before,after,rfl,_,_,later⟩ := chainSplitAt chain mem
  cases after with
  | nil =>
    have same : j + 2^o j = n := later
    omega
  | cons x rest => simp [later.1]

end

theorem lowerHalfMember (chain : Chain o 0 l n) (mem : j + 2^k ∈ l) (aligned : 2^(k+1) ∣ j) : j ∈ l := by
  have bound := chainBelow chain mem
  obtain ⟨x,hx,low,high⟩ := chainCover chain (Nat.zero_le j) (by omega)
  obtain ⟨_,own,_⟩ := chainMember chain hx
  have before := chainApart chain hx mem (by omega)
  rcases lt_or_ge (o x) (k+1) with small | large
  · have half := dvd_trans (pow_dvd_pow 2 (le_of_lt small)) aligned
    rcases Nat.lt_or_eq_of_le low with below | rfl
    · have := alignedApart own half below
      omega
    · exact hx
  · have coarse := pow_dvd_pow 2 large
    have reach := alignedApart aligned (Nat.dvd_add (Nat.dvd_trans coarse own) coarse) high
    omega

def NoBuddies (order : Nat → Nat) (free : Nat → Prop) (l : List Nat) : Prop :=
  ∀ x ∈ l, x + 2^order x ∈ l → free x → free (x + 2^order x) → order (x + 2^order x) = order x →
    ¬ 2^(order x + 1) ∣ x

variable {free free' : Nat → Prop} {l' : List Nat}

theorem noBuddiesSplit (clear : NoBuddies o (fun x => free x ∧ x ≠ j) l) (aligned : 2^(k+1) ∣ j)
    (high : o' (j + 2^k) = k) (frame : ∀ x, x ≠ j → x ≠ j + 2^k → o' x = o x)
    (members : ∀ x, x ∈ l' ↔ x ∈ l ∨ x = j + 2^k) : NoBuddies o' (fun x => free x ∧ x ≠ j) l' := by
  rintro x hx hy ⟨freeX,other⟩ ⟨freeY,other'⟩ same
  have positive := Nat.two_pow_pos k
  by_cases new : x = j + 2^k
  · subst new
    rw [high]
    intro bad
    have := (Nat.dvd_add_right aligned).mp bad
    have small : 2^k < 2^(k+1) := Nat.pow_lt_pow_right (by decide) (Nat.lt_succ_self k)
    exact absurd (Nat.le_of_dvd positive this) (Nat.not_le_of_lt small)
  have ordX := frame x other new
  rw [ordX] at hy other' freeY same ⊢
  by_cases buddy : x + 2^o x = j + 2^k
  · rw [buddy,high] at same
    rw [← same] at buddy
    omega
  rw [frame _ other' buddy] at same
  exact clear x (((members x).mp hx).resolve_right new) (((members _).mp hy).resolve_right buddy)
    ⟨freeX,other⟩ ⟨freeY,other'⟩ same

theorem noBuddiesMerge (clear : NoBuddies o free l) (frame : ∀ x, x ≠ j → x ≠ j + 2^k → o' x = o x)
    (members : ∀ x, x ∈ l' ↔ x ∈ l ∧ x ≠ j + 2^k) (weaker : ∀ x, free' x → x ≠ j → x ≠ j + 2^k → free x) :
    NoBuddies o' (fun x => free' x ∧ x ≠ j) l' := by
  rintro x hx hy ⟨freeX,other⟩ ⟨freeY,other'⟩ same
  obtain ⟨hx,apart⟩ := (members x).mp hx
  have ordX := frame x other apart
  rw [ordX] at hy freeY other' same ⊢
  obtain ⟨hy,apart'⟩ := (members _).mp hy
  rw [frame _ other' apart'] at same
  exact clear x hx hy (weaker x freeX other apart) (weaker _ freeY other' apart') same

theorem noBuddiesSub (clear : NoBuddies o free l) (sub : ∀ x ∈ l', x ∈ l) : NoBuddies o free l' :=
  fun x hx hy => clear x (sub x hx) (sub _ hy)

theorem chainEmpty (chain : Chain o n l n) : l = [] := by
  cases l with
  | nil => rfl
  | cons x rest =>
    have := chainBelow chain mem_cons_self
    have := (chainMember chain (mem_cons_self)).1
    omega

variable {a : Nat}

theorem chainBoundary (chain : Chain o a l n) (aligned : 2^i ∣ a) (small : ∀ x ∈ l, o x ≤ i) (room : a + 2^i ≤ n) :
    ∃ lower upper, l = lower ++ upper ∧ Chain o a lower (a + 2^i) ∧ Chain o (a + 2^i) upper n := by
  rcases Nat.lt_or_eq_of_le room with inside | rfl
  · obtain ⟨x,hx,low,high⟩ := chainCover chain (Nat.le_add_right a (2^i)) inside
    have own := (chainMember chain hx).2.1
    have coarse := Nat.dvd_trans (Nat.pow_dvd_pow 2 (small x hx)) (Nat.dvd_add aligned (Nat.dvd_refl _))
    have head : x = a + 2^i := by
      by_contra other
      have := alignedApart own coarse (by omega)
      omega
    subst head
    obtain ⟨before,after,rfl,prior,aligned',later⟩ := chainSplitAt chain hx
    exact ⟨before,(a + 2^i)::after,rfl,prior,rfl,aligned',later⟩
  · exact ⟨l,[],by simp,chain,rfl⟩

theorem chainFirst (chain : Chain o a l n) (room : a < n) : a ∈ l := by
  cases l with
  | nil =>
    have same : a = n := chain
    omega
  | cons x rest => exact chain.1 ▸ mem_cons_self

theorem chainSingle (chain : Chain o a l (a + 2^o a)) : l = [a] := by
  cases l with
  | nil =>
    have same : a = a + 2^o a := chain
    have : 0 < 2^o a := Nat.two_pow_pos _
    omega
  | cons x rest =>
    obtain ⟨rfl,_,tail⟩ := chain
    rw [chainEmpty tail]

theorem orderLe {b} (h : 2^a ≤ 2^b) : a ≤ b := (Nat.pow_le_pow_iff_right (by decide)).mp h

/- An aligned region of free blocks without free buddies is one block: otherwise
each half is one block by induction, and the halves are buddies. -/
theorem freeRegionWhole (chain : Chain o a l (a + 2^k)) (aligned : 2^k ∣ a)
    (clear : NoBuddies o free l) (allFree : ∀ x ∈ l, free x) : l = [a] ∧ o a = k := by
  induction k generalizing a l with
  | zero =>
    have mem := chainFirst chain (Nat.lt_succ_self a)
    have bound := (chainMember chain mem).2.2
    have least := Nat.le_zero.mp (orderLe (Nat.le_of_add_le_add_left bound))
    rw [← least] at chain
    exact ⟨chainSingle chain,least⟩
  | succ k ih =>
    have double : 2^(k+1) = 2^k + 2^k := by rw [pow_succ]; omega
    by_cases whole : o a = k + 1
    · rw [← whole] at chain
      exact ⟨chainSingle chain,whole⟩
    have half := dvd_trans (pow_dvd_pow 2 (Nat.le_succ k)) aligned
    have small : ∀ x ∈ l, o x ≤ k := by
      intro x hx
      obtain ⟨above,_,below⟩ := chainMember chain hx
      have fits : o x ≤ k + 1 := orderLe (by omega)
      rcases Nat.lt_or_eq_of_le fits with smaller | equal
      · omega
      · rw [equal] at below
        have same : x = a := by omega
        exact absurd (same ▸ equal) whole
    obtain ⟨lower,upper,rfl,left,right⟩ := chainBoundary chain half small (by omega)
    rw [double,← add_assoc] at right
    obtain ⟨rfl,low⟩ := ih left half (noBuddiesSub clear fun x hx => mem_append_left _ hx)
      (forall_mem_append.mp allFree).1
    obtain ⟨rfl,high⟩ := ih right (Nat.dvd_add half (Nat.dvd_refl _))
      (noBuddiesSub clear fun x hx => mem_append_right _ hx)
      (forall_mem_append.mp allFree).2
    have pair := clear a (by simp)
    rw [low] at pair
    exact absurd aligned (pair (by simp) (allFree a (by simp)) (allFree _ (by simp)) high)

def decompose (n : Nat) : Nat → Nat → List (Nat × Nat)
  | 0, _ => []
  | i+1, a => if n.testBit i then (a,i)::decompose n i (a + 2^i) else decompose n i a

theorem testBitRest (aligned : 2^(i+1) ∣ a) (low : a ≤ n) (high : n < a + 2^(i+1)) :
    n.testBit i = decide (a + 2^i ≤ n) := by
  obtain ⟨q,rfl⟩ := aligned
  obtain ⟨r,rfl⟩ := Nat.exists_eq_add_of_le low
  have small : r < 2^(i+1) := by omega
  rw [Nat.testBit_two_pow_mul_add q small]
  by_cases set : 2^i ≤ r
  · have one : r / 2^i = 1 := by
      apply Nat.div_eq_of_lt_le <;> omega
    simp [Nat.testBit_eq_decide_div_mod_eq,one,set]
  · simp [Nat.testBit_lt_two_pow (not_le.mp set),set]

theorem decomposition (chain : Chain o a l n) (aligned : 2^i ∣ a) (high : n < a + 2^i)
    (clear : NoBuddies o free l) (allFree : ∀ x ∈ l, free x) : l.map (fun x => (x,o x)) = decompose n i a := by
  induction i generalizing a l with
  | zero =>
    have low := chainLe chain
    have same : a = n := by omega
    subst same
    rw [chainEmpty chain]
    rfl
  | succ i ih =>
    have low := chainLe chain
    have half : 2^i ∣ a := dvd_trans (pow_dvd_pow 2 (Nat.le_succ i)) aligned
    have small : ∀ x ∈ l, o x ≤ i := by
      intro x hx
      obtain ⟨above,_,below⟩ := chainMember chain hx
      exact Nat.le_of_lt_succ ((Nat.pow_lt_pow_iff_right (by decide)).mp (show 2^o x < 2^(i+1) by omega))
    rw [decompose,testBitRest aligned low high]
    by_cases set : a + 2^i ≤ n
    · obtain ⟨lower,upper,rfl,left,right⟩ := chainBoundary chain half small set
      obtain ⟨rfl,order⟩ := freeRegionWhole left half
        (noBuddiesSub clear fun x hx => mem_append_left _ hx)
        (forall_mem_append.mp allFree).1
      have rest := ih right (Nat.dvd_add half (Nat.dvd_refl _)) (by omega)
        (noBuddiesSub clear fun x hx => mem_append_right _ hx)
        (forall_mem_append.mp allFree).2
      simp [set,order,rest]
    · simpa [set] using ih chain half (by omega) clear allFree

/-! Sets of aligned blocks, some free and some held. Taking, splitting, merging and releasing
blocks keep them apart; as long as no two buddies are free together, the free blocks are the
largest aligned blocks of free pages, so the set of free pages determines them. -/

open Finset

structure Block where
  head : Nat
  order : Nat
  deriving DecidableEq, Repr

def pages (b : Block) : Finset Nat := Finset.Ico b.head (b.head + 2^b.order)
def buddyOf (b : Block) : Block := ⟨b.head ^^^ 2^b.order,b.order⟩
def freePages (free : Finset Block) : Finset Nat := free.biUnion pages

structure Layout (top : Nat) (free held : Finset Block) : Prop where
  aligned : ∀ b ∈ free ∪ held, 2^b.order ∣ b.head
  small : ∀ b ∈ free ∪ held, b.order ≤ top
  apart : ∀ b ∈ free ∪ held, ∀ c ∈ free ∪ held, ∀ q ∈ pages b, q ∈ pages c → b = c
  separate : Disjoint free held
  clear : ∀ b ∈ free, b.order < top → buddyOf b ∉ free

structure Holding (top : Nat) (free held : Finset Block) (hand : Block) : Prop where
  layout : Layout top free (insert hand held)
  fresh : hand ∉ held

variable {top p q} {free held free' held' : Finset Block} {b c}

theorem memPages : q ∈ pages b ↔ b.head ≤ q ∧ q < b.head + 2^b.order := mem_Ico

theorem headPage (b : Block) : b.head ∈ pages b := memPages.mpr ⟨le_rfl,Nat.lt_add_of_pos_right (Nat.two_pow_pos _)⟩

theorem buddyBuddy (b : Block) : buddyOf (buddyOf b) = b := by
  simp [buddyOf]

theorem halves (k p q : Nat) : q ∈ pages ⟨p,k + 1⟩ ↔ q ∈ pages ⟨p,k⟩ ∨ q ∈ pages ⟨p + 2^k,k⟩ := by
  simp only [memPages]
  omega

theorem halvesApart (low : q ∈ pages ⟨p,k⟩) : q ∉ pages ⟨p + 2^k,k⟩ := fun high => by
  rw [memPages] at low high
  dsimp only at low high
  omega

theorem releaseLayout (holding : Holding top free held b) (alone : b.order < top → buddyOf b ∉ free) :
    Layout top (insert b free) held := by
  obtain ⟨layout,fresh⟩ := holding
  have same : insert b free ∪ held = free ∪ insert b held := by
    rw [insert_union,union_insert]
  refine ⟨same ▸ layout.aligned,same ▸ layout.small,same ▸ layout.apart,?_,fun c mem small buddy => ?_⟩
  · rw [disjoint_insert_left]
    exact ⟨fresh,layout.separate.mono_right (subset_insert b held)⟩
  have other : buddyOf c ≠ c := fun same => by
    have zero : c.head ^^^ 2^c.order = c.head ^^^ 0 := by simpa [buddyOf] using congrArg Block.head same
    exact absurd (Nat.xor_right_inj.mp zero) (Nat.two_pow_pos _).ne'
  rcases mem_insert.mp mem with rfl | old
  · exact alone small ((mem_insert.mp buddy).resolve_left other)
  rcases mem_insert.mp buddy with here | there
  · refine alone (here ▸ small) ?_
    rwa [← here,buddyBuddy]
  · exact layout.clear c old small there

theorem handApart (holding : Holding top free held b) (other : c ∈ free ∪ held) (mine : q ∈ pages b) : q ∉ pages c := fun theirs => by
  obtain ⟨layout,fresh⟩ := holding
  have inside : c ∈ free ∪ insert b held := by
    rw [union_insert]
    exact mem_insert_of_mem other
  have same := layout.apart b (by simp) c inside q mine theirs
  subst same
  rcases mem_union.mp other with mem | mem
  · exact disjoint_left.mp layout.separate mem (mem_insert_self b held)
  · exact fresh mem

theorem handNew (inside : ∀ q ∈ pages c, ∀ d ∈ free ∪ held, q ∉ pages d) : c ∉ free ∧ c ∉ held :=
  ⟨fun mem => inside c.head (headPage c) c (mem_union_left _ mem) (headPage c),
   fun mem => inside c.head (headPage c) c (mem_union_right _ mem) (headPage c)⟩

theorem dropHand (holding : Holding top free held b) : Layout top free held := by
  obtain ⟨layout,_⟩ := holding
  have more : free ∪ held ⊆ free ∪ insert b held := union_subset_union_right (subset_insert b held)
  exact ⟨fun c mem => layout.aligned c (more mem),fun c mem => layout.small c (more mem),
    fun c mem d mem' => layout.apart c (more mem) d (more mem'),layout.separate.mono_right (subset_insert b held),layout.clear⟩

theorem buddyUpper (aligned : 2^(k + 1) ∣ p) : buddyOf ⟨p + 2^k,k⟩ = ⟨p,k⟩ := by
  rw [buddyOf,← xorAdd aligned]
  simp

theorem nested (own : 2^b.order ∣ b.head) (aligned : 2^k ∣ p) (le : k ≤ b.order) (mine : q ∈ pages ⟨p,k⟩) (theirs : q ∈ pages b) :
    pages ⟨p,k⟩ ⊆ pages b := by
  have coarse := pow_dvd_pow 2 le
  rw [memPages] at mine theirs
  dsimp only at mine
  have low : b.head ≤ p := by
    by_contra above
    have := alignedApart aligned (dvd_trans coarse own) (by omega)
    omega
  have high := alignedApart aligned (Nat.dvd_add (Nat.dvd_trans coarse own) coarse) (by omega)
  intro x mem
  rw [memPages] at mem ⊢
  dsimp only at mem
  omega

theorem pagesLe (sub : pages b ⊆ pages c) : b.order ≤ c.order := by
  have le := card_le_card sub
  simp only [pages,Nat.card_Ico,Nat.add_sub_cancel_left] at le
  exact orderLe le

theorem pagesSame (sub : pages b ⊆ pages c) (order : c.order ≤ b.order) : b = c := by
  have same := le_antisymm (pagesLe sub) order
  have first := memPages.mp (sub (headPage b))
  have positive : 0 < 2^b.order := Nat.two_pow_pos _
  have last := memPages.mp (sub (memPages.mpr ⟨Nat.le_sub_one_of_lt (Nat.lt_add_of_pos_right positive),Nat.sub_one_lt (by omega)⟩))
  obtain ⟨head,order⟩ := b
  obtain ⟨head',order'⟩ := c
  dsimp only at same first last positive
  subst same
  rw [show head = head' by omega]

section
variable (layout : Layout top free held)
include layout

theorem takeLayout (mem : b ∈ free) : Holding top (free.erase b) held b := by
  have outside := disjoint_left.mp layout.separate mem
  have same : free.erase b ∪ insert b held = free ∪ held := by
    ext c
    by_cases here : c = b
    · simp [here,mem]
    · simp [here]
  refine ⟨⟨same ▸ layout.aligned,same ▸ layout.small,same ▸ layout.apart,?_,fun c mem small buddy => ?_⟩,outside⟩
  · rw [disjoint_insert_right]
    exact ⟨notMem_erase b free,layout.separate.mono_left (erase_subset b free)⟩
  · exact layout.clear c (mem_of_mem_erase mem) small (mem_of_mem_erase buddy)

theorem pickLayout (aligned : 2^b.order ∣ b.head) (small : b.order ≤ top)
    (outside : ∀ q ∈ pages b, ∀ d ∈ free ∪ held, q ∉ pages d) : Holding top free held b := by
  obtain ⟨notFree,notHeld⟩ := handNew outside
  have cases_ : ∀ c ∈ free ∪ insert b held, c = b ∨ c ∈ free ∪ held := fun c mem => by
    rwa [union_insert,mem_insert] at mem
  refine ⟨⟨fun c mem => ?_,fun c mem => ?_,fun c mem d mem' q left right => ?_,?_,layout.clear⟩,notHeld⟩
  · rcases cases_ c mem with rfl | old
    · exact aligned
    · exact layout.aligned c old
  · rcases cases_ c mem with rfl | old
    · exact small
    · exact layout.small c old
  · rcases cases_ c mem with rfl | old <;> rcases cases_ d mem' with rfl | old'
    · rfl
    · exact absurd right (outside q left d old')
    · exact absurd left (outside q right c old)
    · exact layout.apart c old d old' q left right
  · rw [disjoint_insert_right]
    exact ⟨notFree,layout.separate⟩

/- Free pages that make up an aligned block lie in one free block: otherwise each half is a
free block by induction, and the halves are buddies. -/
theorem coverBlock (aligned : 2^k ∣ p) (small : k ≤ top) (inside : pages ⟨p,k⟩ ⊆ freePages free) :
    ∃ b ∈ free, pages ⟨p,k⟩ ⊆ pages b := by
  have own : ∀ b ∈ free, 2^b.order ∣ b.head := fun b mem => layout.aligned b (mem_union_left _ mem)
  induction k generalizing p with
  | zero =>
    obtain ⟨b,mem,here⟩ := mem_biUnion.mp (inside (headPage ⟨p,0⟩))
    exact ⟨b,mem,nested (own b mem) aligned (Nat.zero_le _) (headPage _) here⟩
  | succ k ih =>
    have half := dvd_trans (pow_dvd_pow 2 (Nat.le_succ k)) aligned
    have lowIn : pages ⟨p,k⟩ ⊆ pages ⟨p,k + 1⟩ := fun q mem => (halves k p q).mpr (.inl mem)
    have highIn : pages ⟨p + 2^k,k⟩ ⊆ pages ⟨p,k + 1⟩ := fun q mem => (halves k p q).mpr (.inr mem)
    obtain ⟨b,memB,low⟩ := ih half (Nat.le_of_succ_le small) (lowIn.trans inside)
    obtain ⟨c,memC,high⟩ := ih (Nat.dvd_add half (Nat.dvd_refl _)) (Nat.le_of_succ_le small) (highIn.trans inside)
    rcases lt_or_ge k b.order with large | le
    · exact ⟨b,memB,nested (own b memB) aligned large (lowIn (headPage _)) (low (headPage _))⟩
    rcases lt_or_ge k c.order with large | le'
    · exact ⟨c,memC,nested (own c memC) aligned large (highIn (headPage _)) (high (headPage _))⟩
    cases pagesSame low le
    cases pagesSame high le'
    refine absurd memB ?_
    rw [← buddyUpper aligned]
    exact layout.clear _ memC small

theorem layoutSub (layout' : Layout top free' held') (same : freePages free = freePages free') :
    free ⊆ free' := fun b mem => by
  have subB : pages b ⊆ freePages free' := same ▸ subset_biUnion_of_mem pages mem
  have bounds := mem_union_left held mem
  obtain ⟨c,memC,into⟩ := coverBlock layout' (layout.aligned b bounds) (layout.small b bounds) subB
  have subC : pages c ⊆ freePages free := same ▸ subset_biUnion_of_mem pages memC
  have bounds' := mem_union_left held' memC
  obtain ⟨d,memD,back⟩ := coverBlock layout (layout'.aligned c bounds') (layout'.small c bounds') subC
  have whole := layout.apart b bounds d (mem_union_left _ memD) b.head (headPage b) (back (into (headPage b)))
  subst whole
  have equal : b = c := pagesSame into (pagesLe back)
  exact equal ▸ memC

theorem layoutUnique (layout' : Layout top free' held') (same : freePages free = freePages free') : free = free' :=
  (layoutSub layout layout' same).antisymm (layoutSub layout' layout same.symm)

theorem cardFreePages : (freePages free).card = ∑ b ∈ free, 2^b.order := by
  rw [freePages,card_biUnion]
  · exact sum_congr rfl fun b _ => by simp [pages]
  · refine fun b mem c mem' other => disjoint_left.mpr fun q left right => other ?_
    exact layout.apart b (mem_union_left _ mem) c (mem_union_left _ mem') q left right

end

theorem splitLayout (holding : Holding top free held ⟨p,k + 1⟩) :
    Holding top (insert ⟨p + 2^k,k⟩ free) held ⟨p,k⟩ ∧ (⟨p + 2^k,k⟩ : Block) ∉ free := by
  have aligned := holding.layout.aligned ⟨p,k + 1⟩ (by simp)
  have small := holding.layout.small ⟨p,k + 1⟩ (by simp)
  have half := dvd_trans (pow_dvd_pow 2 (Nat.le_succ k)) aligned
  have lowOut : ∀ q ∈ pages ⟨p,k⟩, ∀ d ∈ free ∪ held, q ∉ pages d :=
    fun q mem d other => handApart holding other ((halves k p q).mpr (.inl mem))
  have highOut : ∀ q ∈ pages ⟨p + 2^k,k⟩, ∀ d ∈ free ∪ held, q ∉ pages d :=
    fun q mem d other => handApart holding other ((halves k p q).mpr (.inr mem))
  have upper := pickLayout (dropHand holding) (Nat.dvd_add half (Nat.dvd_refl _)) (Nat.le_of_succ_le small) highOut
  have released := releaseLayout upper fun _ => buddyUpper aligned ▸ (handNew lowOut).1
  refine ⟨pickLayout released half (Nat.le_of_succ_le small) fun q mem d other => ?_,(handNew highOut).1⟩
  rw [insert_union] at other
  rcases mem_insert.mp other with rfl | old
  · exact halvesApart mem
  · exact lowOut q mem d old

theorem mergeLayout (holding : Holding top free held b) (mem : buddyOf b ∈ free) (aligned : 2^(b.order + 1) ∣ p) (small : b.order < top)
    (pair : ∀ q ∈ pages ⟨p,b.order + 1⟩, q ∈ pages b ∨ q ∈ pages (buddyOf b)) :
    Holding top (free.erase (buddyOf b)) held ⟨p,b.order + 1⟩ := by
  have taken := takeLayout (dropHand holding) mem
  refine pickLayout (dropHand taken) aligned small fun q inside d other => ?_
  rcases pair q inside with mine | buddys
  · exact handApart holding (union_subset_union_left (erase_subset _ free) other) mine
  · exact handApart taken other buddys

end EclairKernel.Buddy
