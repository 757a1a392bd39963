import EclairKernel.Mmap
import Mathlib.Data.BitVec
import EclairKernel.Pointers
import EclairKernel.RbtreeBalance

/-! The address space as a map: page address to flags, file and file offset. Cutting an area
in two leaves the map alone, and so does joining two areas of the same file that follow each
other in memory and in the file, up to VM_CAN_NONLINEAR. -/
namespace EclairKernel.Mmap
open List Option Rbtree Pointers

structure Entry where
  flags : BitVec 32
  file : Option Nat
  pgoff : BitVec 32
  deriving DecidableEq, Repr

def entryAt (v : Area) (a : Nat) : Option Entry :=
  if v.vmStart ≤ a ∧ a < v.vmEnd then some ⟨v.vmFlags,v.vmFile,v.vmPgoff + pgoffOf (a - v.vmStart)⟩ else none

def pageAt (areas : List Area) (a : Nat) : Option Entry := areas.findSome? (entryAt · a)

def plain (e : Entry) : Entry := {e with flags := e.flags &&& ~~~VM_CAN_NONLINEAR}

def protect (space : Nat → Option Entry) (start stop : Nat) (flags : BitVec 32) (a : Nat) : Option Entry :=
  if start ≤ a ∧ a < stop then (space a).map ({· with flags := flags}) else space a

def unmap (space : Nat → Option Entry) (start stop : Nat) (a : Nat) : Option Entry :=
  if start ≤ a ∧ a < stop then none else space a

def Alike (space space' : Nat → Option Entry) : Prop := ∀ a, (space a).map plain = (space' a).map plain

structure Formed (v : Area) : Prop where
  some_ : v.vmStart < v.vmEnd
  start : PAGE_SIZE ∣ v.vmStart
  stop : PAGE_SIZE ∣ v.vmEnd

structure Ordered (areas : List Area) : Prop where
  formed : ∀ v ∈ areas, Formed v
  sorted : areas.Pairwise fun u v => u.vmEnd ≤ v.vmStart

structure Within (v : Area) (start stop : Nat) : Prop where
  page : PAGE_SIZE ∣ start
  page' : PAGE_SIZE ∣ stop
  low : v.vmStart ≤ start
  some_ : start < stop
  high : stop ≤ v.vmEnd

structure Inside (v : Area) (addr : Nat) : Prop where
  page : PAGE_SIZE ∣ addr
  low : v.vmStart < addr
  high : addr < v.vmEnd

instance (v start stop) : Decidable (Within v start stop) :=
  decidable_of_iff (PAGE_SIZE ∣ start ∧ PAGE_SIZE ∣ stop ∧ v.vmStart ≤ start ∧ start < stop ∧ stop ≤ v.vmEnd)
    ⟨fun ⟨page,page',low,some_,high⟩ => ⟨page,page',low,some_,high⟩,fun ⟨page,page',low,some_,high⟩ => ⟨page,page',low,some_,high⟩⟩

instance (v addr) : Decidable (Inside v addr) :=
  decidable_of_iff (PAGE_SIZE ∣ addr ∧ v.vmStart < addr ∧ addr < v.vmEnd) ⟨fun ⟨page,low,high⟩ => ⟨page,low,high⟩,
    fun ⟨page,low,high⟩ => ⟨page,low,high⟩⟩

def lowPart (v : Area) (addr : Nat) : Area := moveArea v v.vmStart addr v.vmPgoff
def highPart (v : Area) (addr : Nat) : Area := moveArea v addr v.vmEnd (v.vmPgoff + pgoffOf (addr - v.vmStart))
def withFlags (v : Area) (flags : BitVec 32) : Area := {v with vmFlags := flags}

structure Joinable (u v : Area) : Prop where
  touch : u.vmEnd = v.vmStart
  flags : u.vmFlags &&& ~~~VM_CAN_NONLINEAR = v.vmFlags &&& ~~~VM_CAN_NONLINEAR
  file : u.vmFile = v.vmFile
  pgoff : u.vmPgoff + pgoffOf (u.vmEnd - u.vmStart) = v.vmPgoff

def joined (u v : Area) : Area := {u with vmEnd := v.vmEnd}

inductive Joined (mid : Area) : List Area → List Area → List Area → Prop
  | before {left right u} (joinable : Joinable u mid) :
      Joined mid (left ++ [u]) right (left ++ withFlags (joined u mid) mid.vmFlags::right)
  | after {left right v} (joinable : Joinable mid v) : Joined mid left (v::right) (left ++ joined mid v::right)
  | both {left right u v} (joinable : Joinable u mid) (joinable' : Joinable mid v) :
      Joined mid (left ++ [u]) (v::right) (left ++ withFlags (joined (joined u mid) v) mid.vmFlags::right)

def underPart (v : Area) (start : Nat) : List Area := if v.vmStart < start then [lowPart v start] else []
def overPart (v : Area) (stop : Nat) : List Area := if stop < v.vmEnd then [highPart v stop] else []

variable {left right mid mid' u v a addr m n flags}

theorem pageAppend : pageAt (left ++ right) a = (pageAt left a).or (pageAt right a) := findSome?_append

theorem pageCons : pageAt (v::right) a = (entryAt v a).or (pageAt right a) := by
  cases here : entryAt v a <;> simp [pageAt,here]

theorem pgoffAdd (whole : PAGE_SIZE ∣ m) : pgoffOf (m + n) = pgoffOf m + pgoffOf n := by
  have sum : (m + n) >>> PAGE_SHIFT = m >>> PAGE_SHIFT + n >>> PAGE_SHIFT := by
    simp only [Nat.shiftRight_eq_div_pow]
    exact Nat.add_div_of_dvd_right whole
  rw [pgoffOf,sum,BitVec.ofNat_add]
  rfl

theorem pgoffVia (start : PAGE_SIZE ∣ m) (via : PAGE_SIZE ∣ addr) (low : m ≤ addr) (high : addr ≤ a) :
    pgoffOf (a - m) = pgoffOf (addr - m) + pgoffOf (a - addr) := by
  rw [← pgoffAdd (Nat.dvd_sub via start),show addr - m + (a - addr) = a - m by omega]

theorem entryOutside (outside : a < v.vmStart ∨ v.vmEnd ≤ a) : entryAt v a = none := if_neg (by omega)

theorem lowEntry (high : addr ≤ v.vmEnd) : entryAt (lowPart v addr) a = if a < addr then entryAt v a else none := by
  unfold entryAt lowPart
  simp only [moveArea_vmEnd]
  by_cases below : a < addr
  · simp only [below,show a < v.vmEnd by omega]
    rfl
  · simp [below]

theorem highEntry (formed : Formed v) (page : PAGE_SIZE ∣ addr) (low : v.vmStart ≤ addr) :
    entryAt (highPart v addr) a = if addr ≤ a then entryAt v a else none := by
  unfold entryAt highPart
  simp only [moveArea_vmStart,moveArea_vmPgoff]
  by_cases above : addr ≤ a
  · simp only [above,show v.vmStart ≤ a by omega,pgoffVia formed.start page low above,BitVec.add_assoc]
    rfl
  · simp [above]

theorem splitEntry (formed : Formed v) (inside : Inside v addr) :
    (entryAt (lowPart v addr) a).or (entryAt (highPart v addr) a) = entryAt v a := by
  rw [lowEntry inside.high.le,highEntry formed inside.page inside.low.le]
  by_cases below : a < addr
  · rw [if_pos below,if_neg (not_le.mpr below),or_none]
  · rw [if_neg below,if_pos (not_lt.mp below),none_or]

theorem flagsEntry (flags : BitVec 32) : entryAt (withFlags v flags) a = (entryAt v a).map fun e => {e with flags := flags} := by
  unfold entryAt withFlags
  split <;> rfl

theorem sameFlags {f g} (same : (f ^^^ g) &&& ~~~VM_CAN_NONLINEAR = 0) :
    f &&& ~~~VM_CAN_NONLINEAR = g &&& ~~~VM_CAN_NONLINEAR := by
  refine BitVec.eq_of_getLsbD_eq fun i _ => ?_
  have bit : ((f.getLsbD i ^^ g.getLsbD i) && (~~~VM_CAN_NONLINEAR).getLsbD i) = false := by
    rw [← BitVec.getLsbD_xor,← BitVec.getLsbD_and,same]
    exact BitVec.getLsbD_zero
  rw [BitVec.getLsbD_and,BitVec.getLsbD_and]
  revert bit
  cases f.getLsbD i <;> cases g.getLsbD i <;> simp only [Bool.false_and]
  all_goals tauto

theorem joinEntry (formed : Formed u) (formed' : Formed v) (joinable : Joinable u v) :
    (entryAt (joined u v) a).map plain = ((entryAt u a).or (entryAt v a)).map plain := by
  obtain ⟨touch,flags,file,pgoff⟩ := joinable
  have some_ := formed.some_
  have some_' := formed'.some_
  unfold entryAt joined
  by_cases below : a < u.vmEnd
  · have rest : ¬ v.vmStart ≤ a := by omega
    have inside : a < v.vmEnd := by omega
    simp [below,rest,inside]
  have above : v.vmStart ≤ a := by omega
  have inside : u.vmStart ≤ a := by omega
  have offset : u.vmPgoff + pgoffOf (a - u.vmStart) = v.vmPgoff + pgoffOf (a - v.vmStart) := by
    rw [pgoffVia formed.start formed.stop (le_of_lt some_) (not_lt.mp below),← BitVec.add_assoc,pgoff,touch]
  simp only [above,inside,true_and,offset]
  split
  · simp [plain,flags,file]
  · rfl

theorem orderedAppend : Ordered (left ++ right) ↔ Ordered left ∧ Ordered right ∧ ∀ u ∈ left, ∀ v ∈ right, u.vmEnd ≤ v.vmStart := by
  constructor
  · rintro ⟨formed,sorted⟩
    obtain ⟨first,second,across⟩ := pairwise_append.mp sorted
    obtain ⟨formed,formed'⟩ := forall_mem_append.mp formed
    exact ⟨⟨formed,first⟩,⟨formed',second⟩,across⟩
  · rintro ⟨⟨formed,first⟩,⟨formed',second⟩,across⟩
    exact ⟨forall_mem_append.mpr ⟨formed,formed'⟩,pairwise_append.mpr ⟨first,second,across⟩⟩

theorem orderedReplace (ordered : Ordered (left ++ mid ++ right)) (inner : Ordered mid')
    (within : ∀ v ∈ mid', (∃ u ∈ mid, u.vmStart ≤ v.vmStart) ∧ ∃ u ∈ mid, v.vmEnd ≤ u.vmEnd) : Ordered (left ++ mid' ++ right) := by
  obtain ⟨outer,last,across⟩ := orderedAppend.mp ordered
  obtain ⟨first,_,inner_⟩ := orderedAppend.mp outer
  refine orderedAppend.mpr ⟨orderedAppend.mpr ⟨first,inner,fun u mem v mem' => ?_⟩,last,fun u mem v mem' => ?_⟩
  · obtain ⟨⟨w,inside,le⟩,_⟩ := within v mem'
    exact (inner_ u mem w inside).trans le
  · rcases mem_append.mp mem with early | here
    · exact across u (mem_append_left _ early) v mem'
    · obtain ⟨_,w,inside,le⟩ := within u here
      exact le.trans (across w (mem_append_right _ inside) v mem')

theorem orderedInsert (ordered : Ordered (left ++ right)) (formed : Formed v) (below : ∀ u ∈ left, u.vmEnd ≤ v.vmStart)
    (above : ∀ u ∈ right, v.vmEnd ≤ u.vmStart) : Ordered (left ++ v::right) := by
  obtain ⟨⟨formed',first⟩,⟨formed'',second⟩,across⟩ := orderedAppend.mp ordered
  exact orderedAppend.mpr ⟨⟨formed',first⟩,⟨forall_mem_cons.mpr ⟨formed,formed''⟩,pairwise_cons.mpr ⟨above,second⟩⟩,
    fun u mem => forall_mem_cons.mpr ⟨below u mem,across u mem⟩⟩

theorem orderedCongr {ids : List Nat} {f g : Nat → Area} (same : ∀ x, (f x).vmStart = (g x).vmStart ∧ (f x).vmEnd = (g x).vmEnd)
    (ordered : Ordered (ids.map f)) : Ordered (ids.map g) := by
  refine ⟨forall_mem_map.mpr fun x mem => ?_,pairwise_map.mpr ((pairwise_map.mp ordered.sorted).imp fun h => ?_)⟩
  · obtain ⟨some_,start,stop⟩ := ordered.formed _ (mem_map_of_mem mem)
    rw [(same x).1] at some_ start
    rw [(same x).2] at some_ stop
    exact ⟨some_,start,stop⟩
  · rwa [← (same _).1,← (same _).2]

theorem orderedSub (sub : left.Sublist right) (ordered : Ordered right) : Ordered left :=
  ⟨fun v mem => ordered.formed v (sub.subset mem),ordered.sorted.sublist sub⟩

theorem orderedOne (formed : Formed v) : Ordered [v] := ⟨by simpa using formed,pairwise_singleton _ _⟩

theorem flagsPlain (same : v.vmFlags &&& ~~~VM_CAN_NONLINEAR = flags &&& ~~~VM_CAN_NONLINEAR) :
    (entryAt (withFlags v flags) a).map plain = (entryAt v a).map plain := by
  unfold entryAt withFlags
  split
  · simp [plain,same]
  · rfl

theorem joinableNext {w} (formed : Formed u) (formed' : Formed v) (first : Joinable u v) (second : Joinable v w) :
    Joinable (joined u v) w := by
  obtain ⟨touch,flags,file,pgoff⟩ := first
  obtain ⟨touch',flags',file',pgoff'⟩ := second
  have some_ := formed.some_
  have some_' := formed'.some_
  refine ⟨touch',flags.trans flags',file.trans file',?_⟩
  show u.vmPgoff + pgoffOf (v.vmEnd - u.vmStart) = w.vmPgoff
  rw [pgoffVia formed.start formed.stop some_.le (by omega),← BitVec.add_assoc,pgoff,touch,pgoff']

theorem formedJoined (formed : Formed u) (formed' : Formed v) (touch : u.vmEnd = v.vmStart) : Formed (joined u v) := by
  have some_ := formed.some_
  have some_' := formed'.some_
  exact ⟨show u.vmStart < v.vmEnd by omega,formed.start,formed'.stop⟩

theorem replaceAlike (ordered : Ordered (left ++ mid ++ right)) (formed : Formed v) (first : ∃ u ∈ mid, u.vmStart ≤ v.vmStart)
    (last : ∃ u ∈ mid, v.vmEnd ≤ u.vmEnd) (pages : ∀ a, (entryAt v a).map plain = (pageAt mid a).map plain) :
    Ordered (left ++ v::right) ∧ Alike (pageAt (left ++ v::right)) (pageAt (left ++ mid ++ right)) := by
  refine ⟨?_,fun a => ?_⟩
  · have := orderedReplace ordered (orderedOne formed) fun u mem => by
      cases mem_singleton.mp mem
      exact ⟨first,last⟩
    simpa using this
  · rw [pageAppend,pageCons,pageAppend,pageAppend,Option.or_assoc,Option.map_or,Option.map_or,pages a,Option.map_or,Option.map_or]

theorem joinedSpec {all} (ordered : Ordered (left ++ mid::right)) (joined_ : Joined mid left right all) :
    Ordered all ∧ Alike (pageAt all) (pageAt (left ++ mid::right)) := by
  have formed := ordered.formed
  cases joined_ with
  | @before left right u joinable =>
    have formedU := formed u (by simp)
    have formedMid := formed mid (by simp)
    have whole := formedJoined formedU formedMid joinable.touch
    have split_ : left ++ [u] ++ mid::right = left ++ [u,mid] ++ right := by simp
    rw [split_] at ordered ⊢
    refine replaceAlike ordered ⟨whole.some_,whole.start,whole.stop⟩ ⟨u,by simp,le_rfl⟩ ⟨mid,by simp,le_rfl⟩ fun a => ?_
    rw [flagsPlain (v := joined u mid) joinable.flags,joinEntry formedU formedMid joinable,pageCons]
    simp [pageAt]
  | @after left right v joinable =>
    have formedV := formed v (by simp)
    have formedMid := formed mid (by simp)
    have split_ : left ++ mid::v::right = left ++ [mid,v] ++ right := by simp
    rw [split_] at ordered ⊢
    refine replaceAlike ordered (formedJoined formedMid formedV joinable.touch) ⟨mid,by simp,le_rfl⟩
      ⟨v,by simp,le_rfl⟩ fun a => ?_
    rw [joinEntry formedMid formedV joinable,pageCons]
    simp [pageAt]
  | @both left right u v joinable joinable' =>
    have formedU := formed u (by simp)
    have formedMid := formed mid (by simp)
    have formedV := formed v (by simp)
    have first := formedJoined formedU formedMid joinable.touch
    have further := joinableNext formedU formedMid joinable joinable'
    have whole := formedJoined first formedV further.touch
    have split_ : left ++ [u] ++ mid::v::right = left ++ [u,mid,v] ++ right := by simp
    rw [split_] at ordered ⊢
    refine replaceAlike ordered ⟨whole.some_,whole.start,whole.stop⟩ ⟨u,by simp,le_rfl⟩ ⟨v,by simp,le_rfl⟩ fun a => ?_
    rw [flagsPlain (v := joined (joined u mid) v) joinable.flags,joinEntry first formedV further,Option.map_or,
      joinEntry formedU formedMid joinable,pageCons,pageCons]
    simp [pageAt,Option.map_or,Option.or_assoc]

theorem highWhole : highPart v v.vmStart = v := by
  simp [highPart,moveArea,pgoffOf]

theorem lowWhole : lowPart v v.vmEnd = v := rfl

theorem underEntry (low : v.vmStart ≤ addr) (high : addr ≤ v.vmEnd) :
    pageAt (underPart v addr) a = if a < addr then entryAt v a else none := by
  unfold underPart
  split
  · rw [pageCons,lowEntry high,pageAt,findSome?_nil,or_none]
  · split
    · exact (entryOutside (.inl (by omega))).symm
    · rfl

theorem overEntry (formed : Formed v) (page : PAGE_SIZE ∣ addr) (low : v.vmStart ≤ addr) :
    pageAt (overPart v addr) a = if addr ≤ a then entryAt v a else none := by
  unfold overPart
  split
  · rw [pageCons,highEntry formed page low,pageAt,findSome?_nil,or_none]
  · split
    · exact (entryOutside (.inr (by omega))).symm
    · rfl

def carved (v : Area) (start stop : Nat) (flags : BitVec 32) : List Area :=
  underPart v start ++ withFlags (lowPart (highPart v start) stop) flags::overPart (highPart v start) stop

variable {start stop}

theorem carvedEntry (formed : Formed v) (within : Within v start stop) : pageAt (carved v start stop flags) a =
      if start ≤ a ∧ a < stop then (entryAt v a).map ({· with flags := flags}) else entryAt v a := by
  obtain ⟨page,page',low,some_,high⟩ := within
  have upper : Formed (highPart v start) := ⟨some_.trans_le high,page,formed.stop⟩
  unfold carved
  rw [pageAppend,pageCons,flagsEntry,underEntry low (some_.le.trans high),lowEntry (show stop ≤ (highPart v start).vmEnd from high),
    overEntry upper page' some_.le,highEntry formed page low]
  by_cases below : a < start
  · simp [show ¬ start ≤ a by omega]
  · by_cases inside : a < stop
    · simp [below,inside,show start ≤ a by omega,show ¬ stop ≤ a by omega]
    · simp [below,inside,show stop ≤ a by omega]

theorem pageAbsent (outside : ∀ v ∈ left, a < v.vmStart ∨ v.vmEnd ≤ a) : pageAt left a = none :=
  findSome?_eq_none_iff.mpr fun v mem => entryOutside (outside v mem)

section
variable (ordered : Ordered (left ++ v::right))
include ordered

theorem pageBefore (low : v.vmStart ≤ a) : pageAt left a = none := by
  obtain ⟨_,_,across⟩ := orderedAppend.mp ordered
  exact pageAbsent fun u mem => .inr ((across u mem v mem_cons_self).trans low)

theorem pageInside (low : v.vmStart ≤ a) (high : a < v.vmEnd) :
    pageAt (left ++ v::right) a = some ⟨v.vmFlags,v.vmFile,v.vmPgoff + pgoffOf (a - v.vmStart)⟩ := by
  rw [pageAppend,pageBefore ordered low,none_or,pageCons,entryAt,if_pos ⟨low,high⟩,some_or]

theorem carvedPages (within : Within v start stop) :
    pageAt (left ++ carved v start stop flags ++ right) = protect (pageAt (left ++ v::right)) start stop flags := by
  funext a
  have formed := ordered.formed v (by simp)
  rw [protect,pageAppend,pageAppend,carvedEntry formed within]
  by_cases inside : start ≤ a ∧ a < stop
  · have low' := within.low.trans inside.1
    have high' := inside.2.trans_le within.high
    rw [if_pos inside,if_pos inside,pageInside ordered low' high',pageBefore ordered low',none_or,entryAt,if_pos ⟨low',high'⟩,
      map_some,some_or]
  · rw [if_neg inside,if_neg inside,pageAppend,pageCons,Option.or_assoc]

theorem protectSame (low : v.vmStart ≤ start) (high : stop ≤ v.vmEnd) :
    protect (pageAt (left ++ v::right)) start stop v.vmFlags = pageAt (left ++ v::right) := by
  funext a
  unfold protect
  split
  · rename_i inside
    rw [pageInside ordered (low.trans inside.1) (inside.2.trans_le high),map_some]
  · rfl

theorem underPages (page : PAGE_SIZE ∣ addr) (low : v.vmStart ≤ addr) (high : addr ≤ v.vmEnd) :
    pageAt (left ++ underPart v addr ++ highPart v addr::right) = pageAt (left ++ v::right) := by
  funext a
  rw [pageAppend,pageAppend,pageCons,pageAppend,pageCons,underEntry low high,highEntry (ordered.formed v (by simp)) page low,
    Option.or_assoc]
  by_cases below : a < addr
  · rw [if_pos below,if_neg (not_le.mpr below),none_or]
  · rw [if_neg below,if_pos (not_lt.mp below),none_or]

end

theorem formedLow (formed : Formed v) (inside : Inside v addr) : Formed (lowPart v addr) := ⟨inside.low,formed.start,inside.page⟩
theorem formedHigh (formed : Formed v) (inside : Inside v addr) : Formed (highPart v addr) := ⟨inside.high,inside.page,formed.stop⟩

theorem orderedSplit (ordered : Ordered (left ++ v::right)) (inside : Inside v addr) :
    Ordered (left ++ lowPart v addr::highPart v addr::right) := by
  have formed := ordered.formed v (by simp)
  have two : Ordered [lowPart v addr,highPart v addr] := by
    refine ⟨?_,by simp [lowPart,highPart]⟩
    simp only [mem_cons,not_mem_nil,or_false]
    rintro u (rfl | rfl)
    · exact formedLow formed inside
    · exact formedHigh formed inside
  have := orderedReplace (show Ordered (left ++ [v] ++ right) by simpa using ordered) two fun u mem => ?_
  · simpa using this
  · simp only [mem_cons,not_mem_nil,or_false] at mem
    rcases mem with rfl | rfl
    · exact ⟨⟨v,by simp,le_rfl⟩,v,by simp,le_of_lt inside.high⟩
    · exact ⟨⟨v,by simp,le_of_lt inside.low⟩,v,by simp,le_rfl⟩

theorem orderedFlags (flags : BitVec 32) (ordered : Ordered (left ++ v::right)) : Ordered (left ++ withFlags v flags::right) := by
  obtain ⟨some_,start,stop⟩ := ordered.formed v (by simp)
  have one : Ordered [withFlags v flags] := orderedOne ⟨some_,start,stop⟩
  have := orderedReplace (show Ordered (left ++ [v] ++ right) by simpa using ordered) one fun u mem => ?_
  · simpa using this
  · cases mem_singleton.mp mem
    exact ⟨⟨v,by simp,le_rfl⟩,v,by simp,le_rfl⟩

theorem orderedUnder (ordered : Ordered (left ++ v::right)) (page : PAGE_SIZE ∣ addr) (low : v.vmStart ≤ addr)
    (high : addr < v.vmEnd) : Ordered (left ++ underPart v addr ++ highPart v addr::right) := by
  unfold underPart
  split
  · simpa using orderedSplit ordered ⟨page,‹_›,high⟩
  · obtain rfl : addr = v.vmStart := by omega
    simpa [highWhole] using ordered

theorem orderedOver (ordered : Ordered (left ++ v::right)) (page : PAGE_SIZE ∣ addr) (low : v.vmStart < addr) (high : addr ≤ v.vmEnd) :
    Ordered (left ++ lowPart v addr::(overPart v addr ++ right)) := by
  unfold overPart
  split
  · exact orderedSplit ordered ⟨page,low,‹_›⟩
  · obtain rfl : addr = v.vmEnd := by omega
    exact ordered

theorem carvedOrdered (flags : BitVec 32) (ordered : Ordered (left ++ v::right)) (within : Within v start stop) :
    Ordered (left ++ carved v start stop flags ++ right) := by
  have cut := orderedUnder ordered within.page within.low (within.some_.trans_le within.high)
  have cut' := orderedOver cut within.page' within.some_ within.high
  simpa [carved] using orderedFlags flags cut'

/-! One list of VMAs behind the pointers, the tree, the count and the cache, and what the
three searches find: every address cuts the list into the VMAs that end at or below it and
those that end above it. -/

structure Shape (mm : Mm) (l : List Nat) : Prop where
  walk : Walk mm.vmNext mm.mmap l none
  tree : inorder mm.mmRb = l
  balanced : RedBlack mm.mmRb
  count : mm.mapCount = l.length
  cache : ∀ c, mm.mmapCache = some c → c ∈ l
  old : ∀ x ∈ l, x < mm.fresh
  once : l.Nodup

def areas (mm : Mm) (l : List Nat) : List Area := l.map mm.vma

structure Well (mm : Mm) (l : List Nat) : Prop where
  shape : Shape mm l
  ordered : Ordered (areas mm l)

structure Cut (mm : Mm) (addr : Nat) (low high : List Nat) : Prop where
  below : ∀ x ∈ low, (mm.vma x).vmEnd ≤ addr
  above : ∀ x ∈ high, addr < (mm.vma x).vmEnd

variable {mm mm' l low high x y}

theorem orderedFormed (ordered : Ordered (areas mm l)) (mem : x ∈ l) : Formed (mm.vma x) :=
  ordered.formed _ (mem_map_of_mem mem)

theorem orderedSorted (ordered : Ordered (areas mm l)) : l.Pairwise fun x y => (mm.vma x).vmEnd ≤ (mm.vma y).vmStart :=
  pairwise_map.mp ordered.sorted

theorem endsSorted (ordered : Ordered (areas mm l)) : l.Pairwise fun x y => (mm.vma x).vmEnd < (mm.vma y).vmEnd :=
  (orderedSorted ordered).imp_of_mem fun _ mem le => le.trans_lt (orderedFormed ordered mem).some_

theorem cutExists (ordered : Ordered (areas mm l)) (addr : Nat) : ∃ low high, l = low ++ high ∧ Cut mm addr low high := by
  induction l with
  | nil => exact ⟨[],[],rfl,by simp,by simp⟩
  | cons x rest ih =>
    by_cases here : addr < (mm.vma x).vmEnd
    · exact ⟨[],x::rest,rfl,by simp,forall_mem_cons.mpr
        ⟨here,fun y later => here.trans (rel_of_pairwise_cons (endsSorted ordered) later)⟩⟩
    · obtain ⟨low,high,rfl,cut⟩ := ih (orderedAppend.mp (show Ordered ([mm.vma x] ++ areas mm rest) from ordered)).2.1
      exact ⟨x::low,high,rfl,forall_mem_cons.mpr ⟨not_lt.mp here,cut.below⟩,cut.above⟩

theorem noneAbove {mm : Mm} {l : List Nat} (below : ∀ x ∈ l, (mm.vma x).vmEnd ≤ addr) : l.find? (fun x => decide (addr < (mm.vma x).vmEnd)) = none :=
  find?_eq_none.mpr fun x mem => by simpa using below x mem

theorem cutFind (cut : Cut mm addr low high) : (low ++ high).find? (fun x => decide (addr < (mm.vma x).vmEnd)) = high.head? := by
  rw [find?_append,noneAbove cut.below]
  cases high with
  | nil => rfl
  | cons x rest => simp [cut.above x]

variable {t place}

theorem findLoopSpec (best : Option Nat) (formed : ∀ x ∈ inorder t, Formed (mm.vma x))
    (sorted : (inorder t).Pairwise fun x y => (mm.vma x).vmEnd ≤ (mm.vma y).vmStart) :
    findLoop mm addr t best = ((inorder t).find? fun x => decide (addr < (mm.vma x).vmEnd)).or best := by
  induction t generalizing best with
  | leaf => rfl
  | node c l x r ihl ihr =>
    simp only [inorder] at formed sorted ⊢
    obtain ⟨first,rest,across⟩ := pairwise_append.mp sorted
    have before_ (le : (mm.vma x).vmStart ≤ addr) := noneAbove fun y mem => (across y mem x mem_cons_self).trans le
    have some_ := (formed x (by simp)).some_
    rw [find?_append]
    simp only [findLoop]
    split
    · rename_i ends
      have found : find? (fun y => decide (addr < (mm.vma y).vmEnd)) (x::inorder r) = some x := by simp [ends]
      rw [found]
      split
      · rename_i inside
        simp [before_ inside]
      · rw [ihl (some x) (fun y mem => formed y (by simp [mem])) first]
        cases find? (fun y => decide (addr < (mm.vma y).vmEnd)) (inorder l) <;> rfl
    · rename_i past
      rw [ihr best (fun y mem => formed y (by simp [mem])) (pairwise_cons.mp rest).2,before_ (by omega)]
      simp [past]

theorem findVmaSpec (well : Well mm (low ++ high)) (cut : Cut mm addr low high) :
    (findVma mm addr).1 = high.head? ∧ Well (findVma mm addr).2 (low ++ high) ∧ (findVma mm addr).2.vma = mm.vma := by
  obtain ⟨⟨walk,tree,balanced,count,cache,old,once⟩,ordered⟩ := well
  have cached : ∀ v, v ∈ low ++ high → Well (setCache mm (some v)) (low ++ high) := fun v mem =>
    ⟨⟨walk,tree,balanced,count,fun c same => some.inj same ▸ mem,old,once⟩,ordered⟩
  have search : findLoop mm addr mm.mmRb none = high.head? := by
    rw [findLoopSpec none (by rw [tree]; exact fun x mem => orderedFormed ordered mem) (by rw [tree]; exact orderedSorted ordered),
      tree,cutFind cut,or_none]
  unfold findVma
  dsimp only
  split
  · rename_i c hit
    obtain ⟨known,inside⟩ := filter_eq_some_iff.mp hit
    simp only [Bool.and_eq_true,decide_eq_true_eq] at inside
    refine ⟨?_,⟨⟨walk,tree,balanced,count,cache,old,once⟩,ordered⟩,rfl⟩
    -- the VMA that holds the address is the first that ends above it
    have mem := cache c known
    rw [← cutFind cut]
    obtain ⟨left,right,split⟩ := append_of_mem mem
    have sorted := orderedSorted ordered
    rw [split] at sorted ⊢
    have below y early := ((pairwise_append.mp sorted).2.2 y early c mem_cons_self).trans inside.2
    rw [find?_append,noneAbove below]
    simp [inside.1]
  · split
    · rename_i v found
      have head := search.symm.trans found
      exact ⟨head.symm,cached v (mem_append_right low (mem_of_head? head)),rfl⟩
    · rename_i nothing
      exact ⟨nothing.symm.trans search,⟨⟨walk,tree,balanced,count,cache,old,once⟩,ordered⟩,rfl⟩

theorem cutFilter (cut : Cut mm addr low high) : (low ++ high).filter (fun x => decide ((mm.vma x).vmEnd ≤ addr)) = low := by
  rw [filter_append,filter_eq_self.mpr fun x mem => decide_eq_true (cut.below x mem),
    filter_eq_nil_iff.mpr fun x mem => ?_,append_nil]
  have := cut.above x mem
  simp only [decide_eq_true_eq]
  omega

theorem cutUnique {low' high'} (cut : Cut mm addr low high) (cut' : Cut mm addr low' high')
    (same : low ++ high = low' ++ high') : low = low' ∧ high = high' := by
  have first : low = low' := by rw [← cutFilter cut,same,cutFilter cut']
  subst first
  exact ⟨rfl,append_cancel_left same⟩

theorem noneBelow {mm : Mm} (sorted : (x::l).Pairwise fun x y => (mm.vma x).vmEnd < (mm.vma y).vmEnd) (above : addr < (mm.vma x).vmEnd) :
    (x::l).filter (fun x => decide ((mm.vma x).vmEnd ≤ addr)) = [] := by
  refine filter_eq_nil_iff.mpr (forall_mem_cons.mpr ⟨by simpa using above,fun y mem => ?_⟩)
  simpa using above.trans (rel_of_pairwise_cons sorted mem)

theorem prevLoopSpec (walk : Walk mm.vmNext mm.mmap l none) (ordered : Ordered (areas mm l))
    (here : l = left ++ inorder t ++ right) (best : Option Nat) :
    prevLoop mm addr t best = ((inorder t).filter fun x => decide ((mm.vma x).vmEnd ≤ addr)).getLast?.or best := by
  induction t generalizing left right best with
  | leaf => rfl
  | node c s x r ihl ihr =>
    simp only [inorder,filter_append] at here ⊢
    have whole : l = (left ++ inorder s) ++ x::(inorder r ++ right) := by simp [here]
    have next := walkNext (whole ▸ walk)
    have sorted : (x::inorder r).Pairwise fun x y => (mm.vma x).vmEnd < (mm.vma y).vmEnd :=
      (endsSorted ordered).sublist (whole ▸ (sublist_append_left (x::inorder r) right).trans (sublist_append_right ..))
    simp only [prevLoop]
    split
    · rw [noneBelow sorted ‹_›,append_nil]
      exact ihl (show l = left ++ inorder s ++ (x::(inorder r ++ right)) by simp [here]) best
    · rename_i past
      have onward := ihr (show l = (left ++ inorder s ++ [x]) ++ inorder r ++ right by simp [here]) (some x)
      rw [filter_cons_of_pos (by simpa using past),getLast?_append,getLast?_cons,some_or,some_or]
      cases rest : inorder r with
      | nil =>
        rw [rest] at onward
        split
        · rfl
        · exact ite_eq_left_iff.mpr fun _ => onward
      | cons n others =>
        rw [rest] at next onward sorted
        simp only [next,cons_append,head?_cons]
        split
        · rw [noneBelow (pairwise_cons.mp sorted).2 ‹_›]
          rfl
        · rw [onward]
          cases getLast? _ <;> rfl

theorem nextOfSpec (shape : Shape mm (low ++ high)) : nextOf mm low.getLast? = high.head? := by
  rcases eq_nil_or_concat' low with rfl | ⟨front,p,rfl⟩
  · exact walkHead shape.walk
  · rw [getLast?_concat]
    exact walkNext (show Walk mm.vmNext mm.mmap (front ++ p::high) none by simpa using shape.walk)

theorem findVmaPrevSpec (well : Well mm (low ++ high)) (cut : Cut mm addr low high) :
    findVmaPrev mm addr = (high.head?,low.getLast?) := by
  obtain ⟨shape,ordered⟩ := well
  have whole : low ++ high = [] ++ inorder mm.mmRb ++ [] := by simp [shape.tree]
  have found : prevLoop mm addr mm.mmRb none = _ := prevLoopSpec shape.walk ordered whole none
  rw [shape.tree,cutFilter cut,or_none] at found
  simp [findVmaPrev,found,nextOfSpec shape]

def parentOf : List (Frame Nat) → Option Nat
  | [] => none
  | .left _ x _::_ => some x
  | .right _ _ x::_ => some x

structure Placed (place : Place) : Prop where
  vma : place.vma = (after place.rbLink).head?
  prev : place.prev = (before place.rbLink).getLast?
  parent : place.rbParent = parentOf place.rbLink

structure Held (mm : Mm) (addr : Nat) (place : Place) (x : Nat) (t : Rbtree.Tree Nat) : Prop where
  vma : place.vma = some x
  parent : place.rbParent = some x
  link : ∃ c l r, plug (.node c l x r) place.rbLink = t
  low : (mm.vma x).vmStart ≤ addr
  high : addr < (mm.vma x).vmEnd

theorem prepareLoopSpec (placed : Placed place)
    (formed : ∀ x ∈ inorder t, Formed (mm.vma x)) (sorted : (inorder t).Pairwise fun x y => (mm.vma x).vmEnd ≤ (mm.vma y).vmStart)
    (below : ∀ x ∈ before place.rbLink, (mm.vma x).vmEnd ≤ addr) (above : ∀ x ∈ after place.rbLink, addr < (mm.vma x).vmStart)
    (fits : Fits t place.rbLink) :
    (∃ x ∈ inorder t, Held mm addr (prepareLoop mm addr t place) x (plug t place.rbLink)) ∨
    (Placed (prepareLoop mm addr t place) ∧ plug .leaf (prepareLoop mm addr t place).rbLink = plug t place.rbLink ∧
      (∀ x ∈ before (prepareLoop mm addr t place).rbLink, (mm.vma x).vmEnd ≤ addr) ∧
      (∀ x ∈ after (prepareLoop mm addr t place).rbLink, addr < (mm.vma x).vmStart) ∧
      Hole (prepareLoop mm addr t place).rbLink .black 0) := by
  induction t generalizing place with
  | leaf =>
    obtain ⟨_,_,sub,hole⟩ := fits
    cases sub
    exact .inr ⟨placed,rfl,below,above,hole⟩
  | node color s x r ihl ihr =>
    simp only [inorder] at formed sorted
    obtain ⟨first,rest,across⟩ := pairwise_append.mp sorted
    obtain ⟨later,last⟩ := pairwise_cons.mp rest
    have some_ := (formed x (by simp)).some_
    simp only [prepareLoop]
    split
    · rename_i ends
      split
      · rename_i inside
        exact .inl ⟨x,by simp [inorder],rfl,rfl,⟨color,s,r,rfl⟩,inside,ends⟩
      have onward := @ihl ⟨some x,place.prev,.left color x r::place.rbLink,some x⟩ ⟨rfl,placed.prev,rfl⟩
        (fun y mem => formed y (by simp [mem])) first below (fun y mem => ?_) fits.down.1
      · exact onward.imp_left (.imp fun y => .imp_left fun mem => by simp [inorder,mem])
      · simp only [Rbtree.after,mem_cons,mem_append] at mem
        rcases mem with rfl | right | outer
        · omega
        · have := later y right
          omega
        · exact above y outer
    · have onward := @ihr ⟨place.vma,some x,.right color s x::place.rbLink,some x⟩ ⟨placed.vma,by simp [before],rfl⟩
        (fun y mem => formed y (by simp [mem])) last (fun y mem => ?_) above fits.down.2
      · exact onward.imp_left (.imp fun y => .imp_left fun mem => by simp [inorder,mem])
      · simp only [before,mem_append,mem_singleton] at mem
        rcases mem with outer | left | rfl
        · exact below y outer
        · have := across y left x mem_cons_self
          omega
        · omega

structure Gap (mm : Mm) (addr : Nat) (place : Place) (low high : List Nat) : Prop where
  placed : Placed place
  link : plug .leaf place.rbLink = mm.mmRb
  lowIs : before place.rbLink = low
  highIs : after place.rbLink = high
  hole : Hole place.rbLink .black 0
  below : ∀ x ∈ low, (mm.vma x).vmEnd ≤ addr
  above : ∀ x ∈ high, addr < (mm.vma x).vmStart

theorem prepareSpec (well : Well mm l) (addr : Nat) : (∃ x ∈ l, Held mm addr (findVmaPrepare mm addr) x mm.mmRb) ∨
    ∃ low high, l = low ++ high ∧ Gap mm addr (findVmaPrepare mm addr) low high := by
  obtain ⟨shape,ordered⟩ := well
  obtain ⟨n,balanced⟩ := shape.balanced
  have tree := shape.tree
  have root : Placed ⟨none,none,[],none⟩ := ⟨rfl,rfl,rfl⟩
  rcases prepareLoopSpec root (by rw [tree]; exact fun x mem => orderedFormed ordered mem)
    (by rw [tree]; exact orderedSorted ordered) (by simp [before]) (by simp [Rbtree.after]) ⟨_,_,balanced,.root⟩ with ⟨x,mem,found⟩ | ⟨placed,order,below,above,hole⟩
  · exact .inl ⟨x,tree ▸ mem,found⟩
  refine .inr ⟨_,_,?_,placed,order,rfl,rfl,hole,below,above⟩
  have same := congrArg inorder order
  rw [Rbtree.inorderPlug] at same
  simpa [inorder,plug,tree,findVmaPrepare] using same.symm

theorem parentFirst {path} (first : before path = []) : parentOf path = (after path).head? := by
  cases path with
  | nil => rfl
  | cons f path =>
    cases f with
    | left c x r => rfl
    | right c s x => simp [before] at first

theorem vmaLinkWalk (placed : Placed place)
    (walk : Walk mm.vmNext mm.mmap (before place.rbLink ++ after place.rbLink) none)
    (once : (before place.rbLink ++ after place.rbLink).Nodup) (new : x ∉ before place.rbLink ++ after place.rbLink) :
    Walk (vmaLinkList mm x place).vmNext (vmaLinkList mm x place).mmap (before place.rbLink ++ x::after place.rbLink) none := by
  have prev := placed.prev
  unfold vmaLinkList
  rcases eq_nil_or_concat (before place.rbLink) with nothing | ⟨front,p,last⟩
  · rw [nothing,nil_append] at walk new ⊢
    rw [nothing] at prev
    rw [prev,placed.parent,parentFirst nothing,← walkHead walk]
    exact linkHead new walk
  · rw [concat_eq_append] at last
    rw [last] at prev walk once new ⊢
    rw [getLast?_concat] at prev
    rw [append_assoc] at walk once new ⊢
    rw [prev]
    exact linkAfter once new walk

theorem vmaLinkSpec (shape : Shape mm (low ++ high)) (gap : Gap mm addr place low high) (new : x ∉ low ++ high)
    (known : x < mm.fresh) :
    ∃ mm', vmaLink mm x place = some mm' ∧ Shape mm' (low ++ x::high) ∧ mm'.vma = mm.vma := by
  obtain ⟨placed,_,rfl,rfl,hole,_,_⟩ := gap
  obtain ⟨walk,tree,balanced,count,cache,old,once⟩ := shape
  obtain ⟨t,inserted,redBlack⟩ := insertColorBalanced .leaf .leaf hole
  have order : inorder t = before place.rbLink ++ x::after place.rbLink := by
    simpa [inorderPlug,inorder] using insertColorInorder inserted
  have members : ∀ y, y ∈ before place.rbLink ++ x::after place.rbLink ↔ y = x ∨ y ∈ before place.rbLink ++ after place.rbLink :=
    fun y => by
    simp only [mem_append,mem_cons]
    tauto
  have list : (vmaLinkList mm x place).mapCount = mm.mapCount ∧ (vmaLinkList mm x place).mmapCache = mm.mmapCache ∧
      (vmaLinkList mm x place).fresh = mm.fresh ∧ (vmaLinkList mm x place).vma = mm.vma := by
    unfold vmaLinkList
    split <;> exact ⟨rfl,rfl,rfl,rfl⟩
  refine ⟨setCount (setRb (vmaLinkList mm x place) t) ((vmaLinkList mm x place).mapCount + 1),by simp [vmaLink,vmaLinkRb,inserted],
    ⟨vmaLinkWalk placed walk once new,order,redBlack,?_,fun c cached => ?_,fun y mem => ?_,?_⟩,list.2.2.2⟩
  · simp only [setCount_mapCount,list.1,count,length_append,length_cons]
    omega
  · exact (members c).mpr (.inr (cache c (list.2.1 ▸ cached)))
  · rcases (members y).mp mem with rfl | known'
    · exact list.2.2.1 ▸ known
    · exact list.2.2.1 ▸ old y known'
  · rw [nodup_middle]
    exact nodup_cons.mpr ⟨new,once⟩

end EclairKernel.Mmap
