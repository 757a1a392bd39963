import EclairKernel.Ashmem
import Mathlib.Data.Set.Lattice
import Mathlib.Order.CompletePartialOrder
import Mathlib.Order.Interval.Set.Basic

/-! The order of one unpinned list through pin and unpin. `Ordered` admits the
empty interval [n, n-1]; non-emptiness is a separate fact, so that what holds of
every request and what holds of proper requests can be told apart. The traces
say once what a pass over the list can do, with the word arithmetic resolved. -/
namespace EclairKernel.Ashmem
open List Nat Set

def Ordered (ranges : List Range) : Prop :=
  ranges.Pairwise (fun hi lo => lo.pgend < hi.pgstart) ∧
  ∀ r ∈ ranges, r.pgstart ≤ r.pgend + 1 ∧ r.pgend < word

def NonEmpty (ranges : List Range) : Prop := ∀ r ∈ ranges, r.pgstart ≤ r.pgend
def Within (pages : Nat) (ranges : List Range) : Prop := ∀ r ∈ ranges, r.pgend < pages

theorem orderedTail {r rest} (h : Ordered (r::rest)) : Ordered rest :=
  ⟨(pairwise_cons.mp h.1).2,fun x hx => h.2 x (mem_cons_of_mem _ hx)⟩

theorem orderedHead {r rest} (h : Ordered (r::rest)) :
    (∀ x ∈ rest, x.pgend < r.pgstart) ∧ r.pgstart ≤ r.pgend + 1 ∧ r.pgend < word :=
  ⟨(pairwise_cons.mp h.1).1,h.2 r mem_cons_self⟩

theorem orderedCons {r rest} (above : ∀ x ∈ rest, x.pgend < r.pgstart)
    (weak : r.pgstart ≤ r.pgend + 1) (bound : r.pgend < word) (tail : Ordered rest) : Ordered (r::rest) :=
  ⟨pairwise_cons.mpr ⟨above,tail.1⟩,forall_mem_cons.mpr ⟨⟨weak,bound⟩,tail.2⟩⟩

theorem wrapSucc {n bound} (below : n < bound) (small : bound < word) : (n + 1) % word = n + 1 :=
  mod_eq_of_lt (by omega)

theorem wrapPred {n} (positive : 0 < n) (small : n < word) : (n + (word - 1)) % word = n - 1 := by
  have same : n + (word - 1) = (n - 1) + word := by
    omega
  rw [same,add_mod_right,mod_eq_of_lt (by omega)]

inductive PinTrace (asma pgstart pgend : Nat) (ok : Bool) : List Range → Lru → PinResult → Prop where
  | nil (l) : PinTrace asma pgstart pgend ok [] l ⟨[],l,false⟩
  | stop (r rest l) (passed : r.pgend < pgstart) :
      PinTrace asma pgstart pgend ok (r::rest) l ⟨r::rest,l,false⟩
  | remove {r rest l out} (low : pgstart ≤ r.pgstart) (high : r.pgend ≤ pgend)
      (tail : PinTrace asma pgstart pgend ok rest (rangeDel l asma r) out) :
      PinTrace asma pgstart pgend ok (r::rest) l ⟨out.unpinned,out.lru,r.purged || out.purged⟩
  | front {r rest l out} (low : pgstart ≤ r.pgstart) (touch : r.pgstart ≤ pgend + 1)
      (high : pgend < r.pgend)
      (tail : PinTrace asma pgstart pgend ok rest (rangeShrink l r (pgend + 1) r.pgend).2 out) :
      PinTrace asma pgstart pgend ok (r::rest) l
        ⟨(rangeShrink l r (pgend + 1) r.pgend).1::out.unpinned,out.lru,r.purged || out.purged⟩
  | back {r rest l out} (low : r.pgstart < pgstart) (reach : pgstart ≤ r.pgend) (high : r.pgend ≤ pgend)
      (tail : PinTrace asma pgstart pgend ok rest (rangeShrink l r r.pgstart (pgstart - 1)).2 out) :
      PinTrace asma pgstart pgend ok (r::rest) l
        ⟨(rangeShrink l r r.pgstart (pgstart - 1)).1::out.unpinned,out.lru,r.purged || out.purged⟩
  | hole {r rest l upper l'} (low : r.pgstart < pgstart) (high : pgend < r.pgend)
      (allocated : rangeAlloc l asma ok r.purged (pgend + 1) r.pgend = some (upper,l')) :
      PinTrace asma pgstart pgend ok (r::rest) l
        ⟨upper::(rangeShrink l' r r.pgstart (pgstart - 1)).1::rest,
          (rangeShrink l' r r.pgstart (pgstart - 1)).2,r.purged⟩
  | holeLost {r rest l} (low : r.pgstart < pgstart) (high : pgend < r.pgend) (failed : ok = false) :
      PinTrace asma pgstart pgend ok (r::rest) l
        ⟨(rangeShrink l r r.pgstart (pgstart - 1)).1::rest,
          (rangeShrink l r r.pgstart (pgstart - 1)).2,r.purged⟩
  | skip {r rest l out} (above : pgend < r.pgstart) (reach : pgstart ≤ r.pgend)
      (tail : PinTrace asma pgstart pgend ok rest l out) :
      PinTrace asma pgstart pgend ok (r::rest) l ⟨r::out.unpinned,out.lru,out.purged⟩

theorem rangeAllocFailed {l asma ok purged start stop}
    (h : rangeAlloc l asma ok purged start stop = none) : ok = false := by
  cases ok with
  | false => rfl
  | true => simp [rangeAlloc] at h

theorem pinTrace (asma : Nat) {pgstart pgend} (ok : Bool) {ranges} (l : Lru)
    (weak : ∀ r ∈ ranges, r.pgstart ≤ r.pgend + 1 ∧ r.pgend < word) (proper : pgstart ≤ pgend + 1) :
    PinTrace asma pgstart pgend ok ranges l (ashmemPin asma pgstart pgend ok ranges l) := by
  induction ranges generalizing l with
  | nil => exact .nil l
  | cons r rest ih =>
    obtain ⟨shape,bound⟩ := weak r mem_cons_self
    have next := fun l => ih l (forall_mem_cons.mp weak).2
    unfold ashmemPin
    split
    · exact .stop r rest l ‹_›
    rename_i reached
    simp only [RangeBeforePage] at reached
    split
    · rename_i inside
      rw [inRange] at inside
      split
      · rename_i subsumed
        exact .remove subsumed.1 subsumed.2 (next _)
      rename_i notSubsumed
      simp only [PageRangeSubsumesRange] at notSubsumed
      split
      · rename_i low
        have high : pgend < r.pgend := by omega
        rw [wrapSucc high bound]
        exact .front low (by omega) high (next _)
      have wrap : (pgstart + (word - 1)) % word = pgstart - 1 := wrapPred (by omega) (by omega)
      rw [wrap]
      split
      · exact .back (by omega) (by omega) ‹_› (next _)
      have high : pgend < r.pgend := by omega
      rw [wrapSucc high bound]
      split
      · exact .hole (by omega) high ‹_›
      · exact .holeLost (by omega) high (rangeAllocFailed ‹_›)
    · rename_i outside
      rw [inRange] at outside
      exact .skip (by omega) (by omega) (next l)

structure Piece (r' r : Range) : Prop where
  high : r'.pgend ≤ r.pgend
  nonEmpty : r.pgstart ≤ r.pgend → r'.pgstart ≤ r'.pgend

theorem rangeAllocated {l l' asma ok purged start stop r} (h : rangeAlloc l asma ok purged start stop = some (r,l')) :
    r = ⟨l.next,start,stop,purged⟩ ∧
    l' = (if purged = false then lruAdd {l with next := l.next + 1} asma r else {l with next := l.next + 1}) := by
  simp only [rangeAlloc] at h
  split at h <;> try contradiction
  cases h
  exact ⟨rfl,rfl⟩

theorem pieceBack {l r pgstart} (low : r.pgstart < pgstart) (reach : pgstart ≤ r.pgend + 1) :
    Piece (rangeShrink l r r.pgstart (pgstart - 1)).1 r := by
  refine ⟨?_,fun _ => ?_⟩
  all_goals simp only [rangeShrink]; omega

theorem pinPieces {asma pgstart pgend ok ranges l out} (proper : pgstart ≤ pgend + 1)
    (trace : PinTrace asma pgstart pgend ok ranges l out) : ∀ r' ∈ out.unpinned, ∃ r ∈ ranges, Piece r' r := by
  have lift : ∀ {r : Range} {rest news : List Range}, (∀ x ∈ news, ∃ y ∈ rest, Piece x y) →
      ∀ x ∈ news, ∃ y ∈ r::rest, Piece x y := fun h x hx =>
    let ⟨y,hy,hp⟩ := h x hx
    ⟨y,mem_cons_of_mem _ hy,hp⟩
  have cons : ∀ {r r' : Range} {rest news : List Range}, Piece r' r → (∀ x ∈ news, ∃ y ∈ rest, Piece x y) →
      ∀ x ∈ r'::news, ∃ y ∈ r::rest, Piece x y := fun head tail =>
    forall_mem_cons.mpr ⟨⟨_,mem_cons_self,head⟩,lift tail⟩
  have self : ∀ {rest : List Range}, ∀ x ∈ rest, ∃ y ∈ rest, Piece x y := fun x hx => ⟨x,hx,le_rfl,id⟩
  induction trace with
  | nil => simp
  | stop => exact self
  | remove low high tail ih => exact lift ih
  | front low touch high tail ih => exact cons ⟨le_rfl,fun _ => high⟩ ih
  | back low reach high tail ih => exact cons (pieceBack low (le_succ_of_le reach)) ih
  | @hole r rest l upper l' low high allocated =>
    obtain ⟨rfl,_⟩ := rangeAllocated allocated
    exact forall_mem_cons.mpr ⟨⟨r,mem_cons_self,le_rfl,fun _ => high⟩,cons (pieceBack low (by omega)) self⟩
  | @holeLost r rest l low high failed => exact cons (pieceBack low (by omega)) self
  | skip above reach tail ih => exact cons ⟨le_rfl,id⟩ ih

theorem pinOrdered {asma pgstart pgend ok ranges l out} (proper : pgstart ≤ pgend + 1)
    (trace : PinTrace asma pgstart pgend ok ranges l out) (ordered : Ordered ranges) : Ordered out.unpinned := by
  -- the pieces of the tail stay below whatever the head was above
  have below : ∀ {r : Range} {rest : List Range} {l out}, PinTrace asma pgstart pgend ok rest l out →
      Ordered (r::rest) → ∀ x ∈ out.unpinned, x.pgend < r.pgstart := by
    intro r rest l out tail h x hx
    obtain ⟨y,hy,piece⟩ := pinPieces proper tail x hx
    exact lt_of_le_of_lt piece.high ((orderedHead h).1 y hy)
  induction trace with
  | nil | stop => exact ordered
  | remove low high tail ih => exact ih (orderedTail ordered)
  | front low touch high tail ih =>
    have head := orderedHead ordered
    refine orderedCons ?_ (le_succ_of_le high) head.2.2 (ih (orderedTail ordered))
    intro x hx
    exact lt_of_lt_of_le (below tail ordered x hx) touch
  | back low reach high tail ih =>
    have head := orderedHead ordered
    refine orderedCons (fun x hx => below tail ordered x hx) ?_ ?_ (ih (orderedTail ordered))
    all_goals simp only [rangeShrink]; omega
  | @hole r rest l upper l' low high allocated =>
    obtain ⟨rfl,_⟩ := rangeAllocated allocated
    have head := orderedHead ordered
    have lower : Ordered ((rangeShrink l' r r.pgstart (pgstart - 1)).1::rest) := by
      refine orderedCons head.1 ?_ ?_ (orderedTail ordered)
      all_goals simp only [rangeShrink]; omega
    refine orderedCons (forall_mem_cons.mpr ⟨?_,fun x hx => ?_⟩) (le_succ_of_le high) head.2.2 lower
    · simp only [rangeShrink]; omega
    · have := head.1 x hx
      simp only
      omega
  | @holeLost r rest l low high failed =>
    have head := orderedHead ordered
    refine orderedCons head.1 ?_ ?_ (orderedTail ordered)
    all_goals simp only [rangeShrink]; omega
  | skip above reach tail ih =>
    have head := orderedHead ordered
    exact orderedCons (below tail ordered) head.2.1 head.2.2 (ih (orderedTail ordered))

theorem scanCases {pgstart pgend} (ranges : List Range) :
    (unpinScan pgstart pgend ranges = .subsumed → ∃ r ∈ ranges, PageRangeSubsumedByRange r pgstart pgend) ∧
    ∀ r, unpinScan pgstart pgend ranges = .merge r → r ∈ ranges ∧ pgstart ≤ r.pgend ∧
      ¬ PageRangeSubsumedByRange r pgstart pgend ∧ PageRangeInRange r pgstart pgend := by
  induction ranges with
  | nil => simp [unpinScan]
  | cons x rest ih =>
    simp only [unpinScan]
    split
    · simp
    rename_i reached
    split
    · exact ⟨fun _ => ⟨x,mem_cons_self,‹_›⟩,by simp⟩
    split
    · refine ⟨by simp,?_⟩
      rintro _ ⟨⟩
      exact ⟨mem_cons_self,not_lt.mp reached,‹_›,‹_›⟩
    · refine ⟨fun found => ?_,fun r found => (ih.2 r found).imp_left (mem_cons_of_mem x)⟩
      obtain ⟨r,mem,inside⟩ := ih.1 found
      exact ⟨r,mem_cons_of_mem x mem,inside⟩

inductive UnpinTrace (asma : Nat) (ok : Bool) :
    Nat → Nat → Bool → List Range → Lru → UnpinResult → Prop where
  | subsumed {pgstart pgend purged ranges l r} (mem : r ∈ ranges)
      (inside : PageRangeSubsumedByRange r pgstart pgend) :
      UnpinTrace asma ok pgstart pgend purged ranges l ⟨ranges,l,0⟩
  | insert {pgstart pgend purged ranges l new l'} (scan : unpinScan pgstart pgend ranges = .insert)
      (allocated : rangeAlloc l asma ok purged pgstart pgend = some (new,l')) :
      UnpinTrace asma ok pgstart pgend purged ranges l ⟨insertRange new ranges,l',0⟩
  | failed {pgstart pgend purged ranges l} (scan : unpinScan pgstart pgend ranges = .insert)
      (failed : ok = false) :
      UnpinTrace asma ok pgstart pgend purged ranges l ⟨ranges,l,-ENOMEM⟩
  | merge {pgstart pgend purged ranges l r out} (mem : r ∈ ranges) (reach : pgstart ≤ r.pgend)
      (partly : ¬ PageRangeSubsumedByRange r pgstart pgend)
      (inside : PageRangeInRange r pgstart pgend)
      (later : UnpinTrace asma ok (min r.pgstart pgstart) (max r.pgend pgend) (purged || r.purged)
        (ranges.erase r) (rangeDel l asma r) out) :
      UnpinTrace asma ok pgstart pgend purged ranges l out

theorem unpinLoopTrace {asma ok fuel pgstart pgend purged ranges} (l : Lru) (enough : ranges.length < fuel) :
    UnpinTrace asma ok pgstart pgend purged ranges l (unpinLoop asma ok fuel pgstart pgend purged ranges l) := by
  induction fuel generalizing pgstart pgend purged ranges l with
  | zero => omega
  | succ fuel ih =>
    unfold unpinLoop
    split
    · obtain ⟨r,mem,inside⟩ := (scanCases ranges).1 ‹_›
      exact .subsumed mem inside
    · split
      · exact .insert ‹_› ‹_›
      · exact .failed ‹_› (rangeAllocFailed ‹_›)
    · rename_i r scan
      obtain ⟨mem,reach,partly,inside⟩ := (scanCases ranges).2 r scan
      have shorter : (ranges.erase r).length < fuel := by
        rw [length_erase_of_mem mem]
        have := length_pos_of_mem mem
        omega
      exact .merge mem reach partly inside (ih _ shorter)

theorem unpinTrace (asma pgstart pgend : Nat) (ok : Bool) (ranges : List Range) (l : Lru) :
    UnpinTrace asma ok pgstart pgend false ranges l (ashmemUnpin asma pgstart pgend ok ranges l) :=
  unpinLoopTrace l (lt_succ_self _)

variable {ranges} {new x pages id}

theorem memInsertRange : x ∈ insertRange new ranges ↔ x = new ∨ x ∈ ranges := by
  induction ranges with
  | nil => simp [insertRange]
  | cons r rest ih =>
    simp only [insertRange]
    split
    · simp
    · simp only [mem_cons]
      tauto

theorem insertOrdered (ordered : Ordered ranges) (weak : new.pgstart ≤ new.pgend + 1) (bound : new.pgend < word)
    (scan : unpinScan new.pgstart new.pgend ranges = .insert) : Ordered (insertRange new ranges) := by
  induction ranges with
  | nil => exact orderedCons (by simp) weak bound ordered
  | cons r rest ih =>
    obtain ⟨below,shape,small⟩ := orderedHead ordered
    simp only [unpinScan] at scan
    simp only [insertRange]
    split at scan
    · rename_i passed
      rw [if_pos passed]
      refine orderedCons (forall_mem_cons.mpr ⟨passed,fun x hx => ?_⟩) weak bound ordered
      have := below x hx
      simp only [RangeBeforePage] at passed
      omega
    rename_i reached
    rw [if_neg reached]
    split at scan <;> try contradiction
    split at scan <;> try contradiction
    rename_i outside
    simp only [RangeBeforePage] at reached
    rw [inRange] at outside
    refine orderedCons ?_ shape small (ih (orderedTail ordered) scan)
    intro x hx
    rcases memInsertRange.mp hx with rfl | hx
    · omega
    · exact below x hx

theorem orderedErase (r : Range) (ordered : Ordered ranges) : Ordered (ranges.erase r) :=
  ⟨ordered.1.sublist erase_sublist,fun x hx => ordered.2 x (mem_of_mem_erase hx)⟩

theorem unpinOrdered {asma ok pgstart pgend purged l out}
    (trace : UnpinTrace asma ok pgstart pgend purged ranges l out) (ordered : Ordered ranges)
    (proper : pgstart ≤ pgend + 1) (bound : pgend < word) : Ordered out.unpinned := by
  induction trace with
  | subsumed => exact ordered
  | insert scan allocated =>
    obtain ⟨rfl,_⟩ := rangeAllocated allocated
    exact insertOrdered ordered proper bound scan
  | failed => exact ordered
  | @merge pgstart pgend purged ranges l r out mem reach partly inside later ih =>
    have shape := ordered.2 r mem
    exact ih (orderedErase r ordered) (by omega) (by omega)

theorem unpinBounds {asma ok pgstart pgend purged l out}
    (trace : UnpinTrace asma ok pgstart pgend purged ranges l out)
    (nonEmpty : NonEmpty ranges) (within : Within pages ranges) (proper : pgstart ≤ pgend) (bound : pgend < pages) :
    NonEmpty out.unpinned ∧ Within pages out.unpinned := by
  induction trace with
  | subsumed => exact ⟨nonEmpty,within⟩
  | insert scan allocated =>
    obtain ⟨rfl,_⟩ := rangeAllocated allocated
    simp only [NonEmpty,Within,memInsertRange,forall_eq_or_imp]
    exact ⟨⟨proper,nonEmpty⟩,bound,within⟩
  | failed => exact ⟨nonEmpty,within⟩
  | @merge pgstart pgend purged ranges l r out mem reach partly inside later ih =>
    have high := within r mem
    exact ih (fun x hx => nonEmpty x (mem_of_mem_erase hx))
      (fun x hx => within x (mem_of_mem_erase hx)) (by omega) (by omega)

theorem pinBounds {asma pgstart pgend ok l out} (proper : pgstart ≤ pgend + 1)
    (trace : PinTrace asma pgstart pgend ok ranges l out)
    (nonEmpty : NonEmpty ranges) (within : Within pages ranges) :
    NonEmpty out.unpinned ∧ Within pages out.unpinned := by
  have pieces := pinPieces proper trace
  constructor
  all_goals
    intro x hx
    obtain ⟨r,hr,piece⟩ := pieces x hx
  · exact piece.nonEmpty (nonEmpty r hr)
  · exact lt_of_le_of_lt piece.high (within r hr)

theorem markedMember (mem : x ∈ markPurged id ranges) : ∃ r ∈ ranges, x.pgstart = r.pgstart ∧ x.pgend = r.pgend := by
  obtain ⟨r,hr,rfl⟩ := mem_map.mp mem
  refine ⟨r,hr,?_⟩
  split <;> simp

theorem markedOrdered (ordered : Ordered ranges) : Ordered (markPurged id ranges) := by
  refine ⟨pairwise_map.mpr (ordered.1.imp ?_),?_⟩
  · intro hi lo below
    split <;> split <;> exact below
  · intro x hx
    obtain ⟨r,hr,low,high⟩ := markedMember hx
    rw [low,high]
    exact ordered.2 r hr

theorem intervalWeak {a} {offset len : UInt32} {pgstart pgend : Nat}
    (h : pinInterval a offset.toNat len.toNat = some (pgstart,pgend)) :
    (pgstart ≤ pgend + 1 ∧ pgend < word) ∧ pgstart < 2^20 ∧ (pgend + 1 < 2^20 ∨ pgend = word - 1) := by
  have small := offset.toNat_lt
  simp only [pinInterval,Option.ite_none_left_eq_some,Option.some.injEq,Prod.mk.injEq] at h
  simp only [pageSize,word] at *
  omega

/-! Pin, unpin and the pin status as operations on the set of unpinned pages, and what a
failed unpin has done by then. -/

structure WellFormed (ranges : List Range) : Prop where
  ordered : Ordered ranges
  nonEmpty : NonEmpty ranges

def unpinnedPages (ranges : List Range) : Set Nat := {q | ∃ r ∈ ranges, PageInRange r q}

section
variable {asma pgstart pgend ok purged r rest l} {q}

theorem memCons : q ∈ unpinnedPages (r::rest) ↔ (r.pgstart ≤ q ∧ q ≤ r.pgend) ∨ q ∈ unpinnedPages rest := by
  simp [unpinnedPages,PageInRange]

theorem memErase (mem : r ∈ ranges) :
    q ∈ unpinnedPages ranges ↔ (r.pgstart ≤ q ∧ q ≤ r.pgend) ∨ q ∈ unpinnedPages (ranges.erase r) := by
  rw [← memCons]
  exact exists_congr fun x => and_congr_left fun _ => (perm_cons_erase mem).mem_iff

theorem pagesPassed (ordered : Ordered (r::rest)) (passed : r.pgend < pgstart) (mem : q ∈ unpinnedPages (r::rest)) : q < pgstart := by
  obtain ⟨x,listed,inside⟩ := mem
  have bound := inside.2
  rcases mem_cons.mp listed with rfl | later
  · omega
  · have below := (orderedHead ordered).1 x later
    have shape := (orderedHead ordered).2.1
    omega

theorem pagesBelow (ordered : Ordered (r::rest)) (mem : q ∈ unpinnedPages rest) : q < r.pgstart := by
  obtain ⟨x,listed,inside⟩ := mem
  exact lt_of_le_of_lt inside.2 ((orderedHead ordered).1 x listed)

theorem pinPages {out} (trace : PinTrace asma pgstart pgend true ranges l out) (proper : pgstart ≤ pgend + 1) (ordered : Ordered ranges)
    (q : Nat) : q ∈ unpinnedPages out.unpinned ↔ q ∈ unpinnedPages ranges ∧ ¬(pgstart ≤ q ∧ q ≤ pgend) := by
  induction trace with
  | nil => simp [unpinnedPages]
  | stop r rest l passed =>
    refine ⟨fun mem => ⟨mem,fun inside => ?_⟩,And.left⟩
    have := pagesPassed ordered passed mem
    omega
  | remove low high tail ih =>
    rw [ih (orderedTail ordered),memCons]
    refine and_congr_left fun outside => ⟨.inr,fun mem => mem.resolve_left fun inside => outside ?_⟩
    omega
  | @front r rest l out low touch high tail ih =>
    rw [memCons,memCons,ih (orderedTail ordered),or_and_right]
    refine or_congr_left ?_
    show pgend + 1 ≤ q ∧ q ≤ r.pgend ↔ _
    omega
  | @back r rest l out low reach high tail ih =>
    rw [memCons,memCons,ih (orderedTail ordered),or_and_right]
    refine or_congr_left ?_
    show r.pgstart ≤ q ∧ q ≤ pgstart - 1 ↔ _
    omega
  | @hole r rest l upper l' low high allocated =>
    obtain ⟨rfl,_⟩ := rangeAllocated allocated
    rw [memCons,memCons,memCons]
    have below := pagesBelow ordered (q := q)
    show pgend + 1 ≤ q ∧ q ≤ r.pgend ∨ r.pgstart ≤ q ∧ q ≤ pgstart - 1 ∨ _ ↔ _
    by_cases mem : q ∈ unpinnedPages rest
    · have := below mem
      simp only [mem,or_true,true_and,true_iff]
      omega
    · simp only [mem,or_false]
      omega
  | holeLost low high failed => cases failed
  | @skip r rest l out above reach tail ih =>
    rw [memCons,memCons,ih (orderedTail ordered),or_and_right]
    exact or_congr_left (by omega)

theorem scanInsert (ordered : Ordered ranges) (scan : unpinScan pgstart pgend ranges = .insert)
    (mem : q ∈ unpinnedPages ranges) : ¬(pgstart ≤ q ∧ q ≤ pgend) := by
  induction ranges with
  | nil => simp [unpinnedPages] at mem
  | cons r rest ih =>
    simp only [unpinScan] at scan
    split at scan
    · have := pagesPassed ordered ‹_› mem
      omega
    split at scan <;> try contradiction
    split at scan <;> try contradiction
    rename_i outside
    rw [inRange] at outside
    rcases memCons.mp mem with here | later
    · omega
    · exact ih (orderedTail ordered) scan later

theorem pagesInsert :
    q ∈ unpinnedPages (insertRange new ranges) ↔ (new.pgstart ≤ q ∧ q ≤ new.pgend) ∨ q ∈ unpinnedPages ranges := by
  rw [← memCons]
  exact exists_congr fun x => and_congr_left fun _ => memInsertRange.trans mem_cons.symm

theorem unpinPages {out} (trace : UnpinTrace asma true pgstart pgend purged ranges l out) (nonEmpty : NonEmpty ranges)
    (proper : pgstart ≤ pgend) (q : Nat) :
    out.ret = 0 ∧ (q ∈ unpinnedPages out.unpinned ↔ q ∈ unpinnedPages ranges ∨ (pgstart ≤ q ∧ q ≤ pgend)) := by
  induction trace with
  | @subsumed pgstart pgend purged ranges l r mem inside =>
    refine ⟨rfl,.inl,fun either => either.elim id fun asked => ⟨r,mem,?_⟩⟩
    have low := inside.1
    have high := inside.2
    exact ⟨by omega,by omega⟩
  | insert scan allocated =>
    obtain ⟨rfl,_⟩ := rangeAllocated allocated
    exact ⟨rfl,pagesInsert.trans or_comm⟩
  | failed scan failed => cases failed
  | @merge pgstart pgend purged ranges l r out mem reach partly inside later ih =>
    obtain ⟨done,pages⟩ := ih (fun x listed => nonEmpty x (mem_of_mem_erase listed)) (by omega)
    refine ⟨done,?_⟩
    rw [pages,memErase mem]
    rw [inRange] at inside
    by_cases kept : q ∈ unpinnedPages (ranges.erase r)
    · simp [kept]
    · simp only [kept,false_or,or_false]
      omega

theorem pinStatus (ordered : Ordered ranges) (nonEmpty : NonEmpty ranges) (proper : pgstart ≤ pgend) :
    ashmemGetPinStatus pgstart pgend ranges = ASHMEM_IS_UNPINNED ↔ ∃ q ∈ unpinnedPages ranges, pgstart ≤ q ∧ q ≤ pgend := by
  induction ranges with
  | nil => simp [ashmemGetPinStatus,unpinnedPages,ASHMEM_IS_PINNED,ASHMEM_IS_UNPINNED]
  | cons r rest ih =>
    have shape := nonEmpty r mem_cons_self
    unfold ashmemGetPinStatus
    split
    · rename_i passed
      refine iff_of_false (by decide) ?_
      rintro ⟨q,mem,inside⟩
      have := pagesPassed ordered passed mem
      omega
    split
    · rename_i touch
      refine iff_of_true rfl ⟨max r.pgstart pgstart,memCons.mpr (.inl ?_),?_⟩
      all_goals
        rw [inRange] at touch
        omega
    · rename_i outside
      rw [ih (orderedTail ordered) fun x listed => nonEmpty x (mem_cons_of_mem _ listed)]
      rw [inRange] at outside
      constructor
      · rintro ⟨q,mem,inside⟩
        exact ⟨q,memCons.mpr (.inr mem),inside⟩
      · rintro ⟨q,mem,inside⟩
        refine ⟨q,(memCons.mp mem).resolve_left fun here => ?_,inside⟩
        omega

end

theorem pinUnpinSets {asma pgstart pgend} (wellFormed : WellFormed ranges) (proper : pgstart ≤ pgend)
    (bound : pgend < word) (l : Lru) : ((ashmemUnpin asma pgstart pgend true ranges l).ret = 0 ∧
      unpinnedPages (ashmemUnpin asma pgstart pgend true ranges l).unpinned = unpinnedPages ranges ∪ Icc pgstart pgend ∧
      WellFormed (ashmemUnpin asma pgstart pgend true ranges l).unpinned) ∧
    (unpinnedPages (ashmemPin asma pgstart pgend true ranges l).unpinned = unpinnedPages ranges \ Icc pgstart pgend ∧
      WellFormed (ashmemPin asma pgstart pgend true ranges l).unpinned) ∧
    (ashmemGetPinStatus pgstart pgend ranges = ASHMEM_IS_UNPINNED ↔ (unpinnedPages ranges ∩ Icc pgstart pgend).Nonempty) := by
  obtain ⟨ordered,nonEmpty⟩ := wellFormed
  have weak := le_succ_of_le proper
  have within : Within word ranges := fun r mem => (ordered.2 r mem).2
  have unpinned := unpinTrace asma pgstart pgend true ranges l
  have pinned := pinTrace asma true l ordered.2 weak
  refine ⟨⟨(unpinPages unpinned nonEmpty proper 0).1,?_,?_⟩,⟨?_,?_⟩,pinStatus ordered nonEmpty proper⟩
  · ext q
    exact (unpinPages unpinned nonEmpty proper q).2
  · exact ⟨unpinOrdered unpinned ordered weak bound,(unpinBounds unpinned nonEmpty within proper bound).1⟩
  · ext q
    exact pinPages pinned weak ordered q
  · exact ⟨pinOrdered weak pinned ordered,(pinBounds weak pinned nonEmpty within).1⟩

def twoRanges : List Range := [⟨1,8,9,false⟩,⟨0,2,5,true⟩]

theorem twoRangesWellFormed : WellFormed twoRanges := by
  refine ⟨⟨by decide,?_⟩,?_⟩
  all_goals
    intro r mem
    simp only [twoRanges,mem_cons,not_mem_nil,or_false] at mem
    rcases mem with rfl | rfl <;> decide

theorem twoRangesSets : WellFormed twoRanges ∧
    unpinnedPages (ashmemUnpin 0 4 8 true twoRanges ⟨[(0,1)],2,2⟩).unpinned = unpinnedPages twoRanges ∪ Icc 4 8 ∧
    unpinnedPages (ashmemPin 0 3 4 true twoRanges ⟨[(0,1)],2,2⟩).unpinned = unpinnedPages twoRanges \ Icc 3 4 :=
  ⟨twoRangesWellFormed,(pinUnpinSets twoRangesWellFormed (by decide) (by decide) _).1.2.1,
    (pinUnpinSets twoRangesWellFormed (by decide) (by decide) _).2.1.1⟩

section
variable {asma pgstart pgend ok purged l out}

theorem failedShorter (trace : UnpinTrace asma ok pgstart pgend purged ranges l out) (failed : out.ret = -ENOMEM) :
    out.unpinned.length ≤ ranges.length := by
  induction trace with
  | subsumed => exact le_rfl
  | insert => cases failed
  | failed => exact le_rfl
  | merge mem reach partly inside later ih => exact le_trans (ih failed) length_erase_le

theorem failedTrace (trace : UnpinTrace asma ok pgstart pgend purged ranges l out) (ordered : Ordered ranges) (nonEmpty : NonEmpty ranges)
    (proper : pgstart ≤ pgend) (failed : out.ret = -ENOMEM) :
    (out.unpinned = ranges ∧ out.lru = l) ↔ ∀ q ∈ unpinnedPages ranges, ¬(pgstart ≤ q ∧ q ≤ pgend) := by
  cases trace with
  | subsumed | insert => cases failed
  | failed scan => exact iff_of_true ⟨rfl,rfl⟩ fun q => scanInsert ordered scan
  | @merge _ _ _ _ _ r _ mem reach partly inside later =>
    have shape := nonEmpty r mem
    rw [inRange] at inside
    refine iff_of_false (fun same => ?_) fun apart => ?_
    · have shorter := failedShorter later failed
      rw [same.1,length_erase_of_mem mem] at shorter
      have := length_pos_of_mem mem
      omega
    · exact apart (max r.pgstart pgstart) ⟨r,mem,by omega,by omega⟩ (by omega)

end

theorem unpinFailedUnchanged {asma pgstart pgend ok l} (wellFormed : WellFormed ranges)
    (proper : pgstart ≤ pgend) (failed : (ashmemUnpin asma pgstart pgend ok ranges l).ret = -ENOMEM) :
    ((ashmemUnpin asma pgstart pgend ok ranges l).unpinned = ranges ∧ (ashmemUnpin asma pgstart pgend ok ranges l).lru = l) ↔
      Disjoint (unpinnedPages ranges) (Icc pgstart pgend) := by
  rw [failedTrace (unpinTrace asma pgstart pgend ok ranges l) wellFormed.ordered wellFormed.nonEmpty proper failed]
  exact disjoint_left.symm

theorem pinnedUnpinFails : (ashmemUnpin 0 6 7 false twoRanges ⟨[(0,1)],2,2⟩).unpinned = twoRanges ∧
    (ashmemUnpin 0 6 7 false twoRanges ⟨[(0,1)],2,2⟩).lru = ⟨[(0,1)],2,2⟩ := by
  refine (unpinFailedUnchanged twoRangesWellFormed (by decide) (by decide)).mpr (disjoint_left.mpr ?_)
  rintro q ⟨r,mem,inside⟩ asked
  simp only [twoRanges,mem_cons,not_mem_nil,or_false] at mem
  rcases mem with rfl | rfl <;> simp only [PageInRange,mem_Icc] at inside asked <;> omega

theorem mergedUnpinFails : WellFormed twoRanges ∧
    ashmemUnpin 0 9 12 false twoRanges ⟨[(0,1)],2,2⟩ = ⟨[⟨0,2,5,true⟩],⟨[],0,2⟩,-ENOMEM⟩ :=
  ⟨twoRangesWellFormed,by decide⟩

end EclairKernel.Ashmem
