import EclairKernel.AshmemOrder

/-! What the purged marks of an area remember. A history adds to the machine the
pages that were truncated after their last unpin and have not been pinned since;
the marks cover all of them as long as no failing range_alloc has to carry one.
No request has to be proper here: the inverted interval [n, n-1] is harmless. -/
namespace EclairKernel.Ashmem
open List Run

def Covered (page : Nat) (ranges : List Range) : Prop :=
  ∃ r ∈ ranges, r.purged = true ∧ PageInRange r page

theorem coveredCons {page r rest} : Covered page (r::rest) ↔ (r.purged = true ∧ PageInRange r page) ∨ Covered page rest := by
  simp [Covered]

theorem coveredTail {page r rest} (h : Covered page rest) : Covered page (r::rest) := coveredCons.mpr (.inr h)

theorem coveredBelow {page r rest} (ordered : Ordered (r::rest)) (h : Covered page rest) :
    page < r.pgstart ∧ page ≤ r.pgend := by
  obtain ⟨x,mem,_,_,high⟩ := h
  obtain ⟨below,shape,_⟩ := orderedHead ordered
  have := below x mem
  omega

theorem pinReturnsPurged {asma pgstart pgend ok ranges l out page}
    (trace : PinTrace asma pgstart pgend ok ranges l out) (ordered : Ordered ranges)
    (low : pgstart ≤ page) (high : page ≤ pgend) (covered : Covered page ranges) : out.purged = true := by
  induction trace with
  | nil => simp [Covered] at covered
  | stop r rest l passed =>
    rcases coveredCons.mp covered with ⟨_,_,reach⟩ | covered
    · omega
    · have := coveredBelow ordered covered
      omega
  | remove _ _ tail ih | front _ _ _ tail ih | back _ _ _ tail ih =>
    rcases coveredCons.mp covered with ⟨mark,_⟩ | covered
    · simp [mark]
    · simp [ih (orderedTail ordered) covered]
  | hole below _ _ | holeLost below _ _ =>
    rcases coveredCons.mp covered with ⟨mark,_⟩ | covered
    · exact mark
    · have := coveredBelow ordered covered
      omega
  | skip above _ tail ih =>
    rcases coveredCons.mp covered with ⟨_,start,_⟩ | covered
    · omega
    · exact ih (orderedTail ordered) covered

theorem pinKeepsCovered {asma pgstart pgend ok ranges l out page}
    (trace : PinTrace asma pgstart pgend ok ranges l out)
    (carried : ok = false → ∀ r ∈ ranges, r.purged = true → ¬ (r.pgstart < pgstart ∧ pgend < r.pgend))
    (outside : page < pgstart ∨ pgend < page) (covered : Covered page ranges) : Covered page out.unpinned := by
  induction trace with
  | nil | stop => exact covered
  | remove low high tail ih =>
    rcases coveredCons.mp covered with ⟨_,start,stop⟩ | covered
    · omega
    · exact ih (fun h => (forall_mem_cons.mp (carried h)).2) covered
  | front low touch high tail ih =>
    rcases coveredCons.mp covered with ⟨mark,start,stop⟩ | covered
    · exact ⟨_,mem_cons_self,mark,by simp only [rangeShrink]; omega,stop⟩
    · exact coveredTail (ih (fun h => (forall_mem_cons.mp (carried h)).2) covered)
  | back low reach high tail ih =>
    rcases coveredCons.mp covered with ⟨mark,start,stop⟩ | covered
    · exact ⟨_,mem_cons_self,mark,start,by simp only [rangeShrink]; omega⟩
    · exact coveredTail (ih (fun h => (forall_mem_cons.mp (carried h)).2) covered)
  | hole low high allocated =>
    obtain ⟨rfl,_⟩ := rangeAllocated allocated
    rcases coveredCons.mp covered with ⟨mark,start,stop⟩ | covered
    · rcases outside with below | above
      · exact coveredTail ⟨_,mem_cons_self,mark,start,by simp only [rangeShrink]; omega⟩
      · exact ⟨_,mem_cons_self,mark,above,stop⟩
    · exact coveredTail (coveredTail covered)
  | holeLost low high failed =>
    rcases coveredCons.mp covered with ⟨mark,_⟩ | covered
    · exact absurd ⟨low,high⟩ (carried failed _ mem_cons_self mark)
    · exact coveredTail covered
  | skip above reach tail ih =>
    rcases coveredCons.mp covered with mark | covered
    · exact ⟨_,mem_cons_self,mark⟩
    · exact coveredTail (ih (fun h => (forall_mem_cons.mp (carried h)).2) covered)

variable {page k asma ranges r a s l}

theorem coveredErase (r : Range) (covered : Covered page ranges) :
    (r.purged = true ∧ PageInRange r page) ∨ Covered page (ranges.erase r) := by
  obtain ⟨x,mem,mark⟩ := covered
  by_cases same : x = r
  · exact .inl (same ▸ mark)
  · exact .inr ⟨x,(mem_erase_of_ne same).mpr mem,mark⟩

theorem coveredInsert {new} (covered : Covered page ranges) : Covered page (insertRange new ranges) :=
  let ⟨x,mem,mark⟩ := covered
  ⟨x,memInsertRange.mpr (.inr mem),mark⟩

variable {x pgstart pgend j offset len}

theorem eraseApart (ordered : Ordered ranges) (mem : r ∈ ranges)
    (other : x ∈ ranges.erase r) : x.pgend < r.pgstart ∨ r.pgend < x.pgstart := by
  induction ranges with
  | nil => simp at mem
  | cons head rest ih =>
    have below := (orderedHead ordered).1
    by_cases same : head = r
    · subst same
      rw [erase_cons_head] at other
      exact .inl (below x other)
    rw [erase_cons_tail (by simpa using same)] at other
    have deeper := (mem_cons.mp mem).resolve_left (Ne.symm same)
    rcases mem_cons.mp other with rfl | other
    · exact .inr (below r deeper)
    · exact ih (orderedTail ordered) deeper other

theorem unpinKeepsCovered {ok purged out} (alloc : ok = true)
    (trace : UnpinTrace asma ok pgstart pgend purged ranges l out) (ordered : Ordered ranges)
    (covered : (purged = true ∧ pgstart ≤ page ∧ page ≤ pgend ∧ ∀ x ∈ ranges, ¬ PageInRange x page) ∨
      Covered page ranges) : Covered page out.unpinned := by
  induction trace with
  | subsumed mem inside =>
    rcases covered with ⟨_,low,high,alone⟩ | covered
    · exact absurd ⟨le_trans inside.1 low,le_trans high inside.2⟩ (alone _ mem)
    · exact covered
  | insert scan allocated =>
    obtain ⟨rfl,_⟩ := rangeAllocated allocated
    rcases covered with ⟨mark,low,high,_⟩ | covered
    · exact ⟨_,memInsertRange.mpr (.inl rfl),mark,low,high⟩
    · exact coveredInsert covered
  | failed scan failed => simp [failed] at alloc
  | @merge pgstart pgend purged ranges l r out mem reach partly inside later ih =>
    apply ih (orderedErase r ordered)
    rcases covered with ⟨mark,low,high,alone⟩ | covered
    · exact .inl ⟨by simp [mark],by omega,by omega,fun x hx => alone x (mem_of_mem_erase hx)⟩
    rcases coveredErase r covered with ⟨mark,low,high⟩ | covered
    · refine .inl ⟨by simp [mark],by omega,by omega,?_⟩
      rintro x hx ⟨_,_⟩
      have := eraseApart ordered mem hx
      omega
    · exact .inr covered

def MeetsMark (pgstart pgend : Nat) (ranges : List Range) : Prop :=
  ∃ r ∈ ranges, r.purged = true ∧ r.pgstart ≤ r.pgend ∧ PageRangeInRange r pgstart pgend ∧
    ¬ PageRangeSubsumedByRange r pgstart pgend

theorem mergeMeets (apart : x.pgend < r.pgstart ∨ r.pgend < x.pgstart)
    (request : pgstart ≤ pgend + 1) (shape : r.pgstart ≤ r.pgend + 1) (proper : x.pgstart ≤ x.pgend)
    (merged : PageRangeInRange r pgstart pgend) (partly : ¬ PageRangeSubsumedByRange r pgstart pgend)
    (meets : PageRangeInRange x (min r.pgstart pgstart) (max r.pgend pgend))
    (cut : ¬ PageRangeSubsumedByRange x (min r.pgstart pgstart) (max r.pgend pgend)) :
    PageRangeInRange x pgstart pgend ∧ ¬ PageRangeSubsumedByRange x pgstart pgend := by
  simp only [PageRangeInRange,PageInRange,PageRangeSubsumesRange,PageRangeSubsumedByRange] at *
  omega

theorem unpinFailedKeepsCovered {ok purged out}
    (trace : UnpinTrace asma ok pgstart pgend purged ranges l out) (failed : ok = false)
    (ordered : Ordered ranges) (request : pgstart ≤ pgend + 1) (carried : ¬ MeetsMark pgstart pgend ranges)
    (covered : Covered page ranges) : Covered page out.unpinned := by
  induction trace with
  | subsumed | failed => exact covered
  | insert scan allocated => simp [rangeAlloc,failed] at allocated
  | @merge pgstart pgend purged ranges l r out mem reach partly inside later ih =>
    have shape := (ordered.2 r mem).1
    apply ih (orderedErase r ordered) (by omega)
    · rintro ⟨x,hx,mark,proper,meets,cut⟩
      have before := mergeMeets (eraseApart ordered mem hx) request shape proper inside partly meets cut
      exact carried ⟨x,mem_of_mem_erase hx,mark,proper,before⟩
    · refine (coveredErase r covered).resolve_left ?_
      rintro ⟨mark,low,high⟩
      exact carried ⟨r,mem,mark,le_trans low high,inside,partly⟩

def cutsPage (k page : Nat) (c : Truncate) : Bool :=
  decide (c.asma = k ∧ c.start ≤ page * pageSize ∧ page * pageSize + (pageSize - 1) ≤ c.stop)

def StartsLow (ranges : List Range) : Prop := ∀ r ∈ ranges, r.pgstart < 2^20

theorem cutInside (low : r.pgstart < 2^20) (cut : cutsPage k page ⟨asma,r.pgstart * pageSize % word,
      (((r.pgend + 1) % word) * pageSize + (word - 1)) % word⟩ = true) : asma = k ∧ PageInRange r page := by
  simp only [cutsPage,decide_eq_true_eq] at cut
  simp only [PageInRange,pageSize,word] at *
  omega

theorem pinStartsLow {ok out} (trace : PinTrace asma pgstart pgend ok ranges l out)
    (request : pgend + 1 < 2^20 ∨ ∀ r ∈ ranges, r.pgend ≤ pgend) (low : StartsLow ranges) :
    StartsLow out.unpinned := by
  have start : ∀ {r : Range} {rest : List Range}, (pgend + 1 < 2^20 ∨ ∀ x ∈ r::rest, x.pgend ≤ pgend) →
      pgend < r.pgend → pgend + 1 < 2^20 := by
    intro r rest request high
    have := request.imp_right fun h => h r mem_cons_self
    omega
  have tails : ∀ {r : Range} {rest : List Range}, (pgend + 1 < 2^20 ∨ ∀ x ∈ r::rest, x.pgend ≤ pgend) →
      pgend + 1 < 2^20 ∨ ∀ x ∈ rest, x.pgend ≤ pgend :=
    fun h => h.imp_right fun h x hx => h x (mem_cons_of_mem _ hx)
  induction trace with
  | nil | stop => exact low
  | remove _ _ tail ih => exact ih (tails request) (forall_mem_cons.mp low).2
  | front _ _ high tail ih =>
    exact forall_mem_cons.mpr ⟨start request high,ih (tails request) (forall_mem_cons.mp low).2⟩
  | back _ _ _ tail ih | skip _ _ tail ih =>
    exact forall_mem_cons.mpr
      ⟨(forall_mem_cons.mp low).1,ih (tails request) (forall_mem_cons.mp low).2⟩
  | hole _ high allocated =>
    obtain ⟨rfl,_⟩ := rangeAllocated allocated
    exact forall_mem_cons.mpr ⟨start request high,forall_mem_cons.mpr (forall_mem_cons.mp low)⟩
  | holeLost => exact forall_mem_cons.mpr (forall_mem_cons.mp low)

theorem unpinStartsLow {ok purged out}
    (trace : UnpinTrace asma ok pgstart pgend purged ranges l out) (request : pgstart < 2^20)
    (low : StartsLow ranges) : StartsLow out.unpinned := by
  induction trace with
  | subsumed | failed => exact low
  | insert scan allocated =>
    obtain ⟨rfl,_⟩ := rangeAllocated allocated
    simp only [StartsLow,memInsertRange,forall_eq_or_imp]
    exact ⟨request,low⟩
  | merge mem reach partly inside later ih =>
    exact ih (by omega) fun x hx => low x (mem_of_mem_erase hx)

def Marks (s : State) (k page : Nat) : Prop := ∃ a, s.area k = some a ∧ Covered page a.unpinned

structure Shaped (s : State) : Prop where
  ordered : ∀ k a, s.area k = some a → Ordered a.unpinned
  low : ∀ k a, s.area k = some a → StartsLow a.unpinned

theorem replaceMarks {a'} (at_ : s.area k = some a)
    (keeps : j = k → Covered page a.unpinned → Covered page a'.unpinned) (marks : Marks s j page) :
    Marks (setArea {s with lru := l} k (some a')) j page := by
  obtain ⟨b,found,covered⟩ := marks
  by_cases same : j = k
  · subst j
    cases Option.some.inj (at_.symm.trans found)
    exact ⟨a',setAreaSame _ _ _,keeps rfl covered⟩
  · exact ⟨b,(setAreaOther _ _ same).trans found,covered⟩

theorem coveredMarked {id} (covered : Covered page ranges) : Covered page (markPurged id ranges) := by
  obtain ⟨r,mem,mark,inside⟩ := covered
  refine ⟨_,mem_map.mpr ⟨r,mem,rfl⟩,?_⟩
  split
  · exact ⟨rfl,inside⟩
  · exact ⟨mark,inside⟩

/-- The machine with the memory of its purges: `lost k page` holds when page of
area k was truncated after it was last unpinned and has not been pinned since. -/
structure History where
  state : State
  lost : Nat → Nat → Bool

def cuts (s : State) : Op → List Truncate
  | .shrink nr gfpFs => (ashmemShrink s nr gfpFs).2.2
  | .purgeAllCaches capable => (purgeAllCaches s capable).2.2
  | _ => []

def requests (s : State) (asma : Nat) (offset len : UInt32) (k page : Nat) : Bool :=
  match s.area asma with
  | none => false
  | some a =>
    match pinInterval a offset.toNat len.toNat with
    | none => false
    | some (pgstart,pgend) => decide (a.file = true ∧ k = asma ∧ pgstart ≤ page ∧ page ≤ pgend)

def renewed (s : State) : Op → Nat → Nat → Bool
  | .pinUnpin asma .pin offset len false _, k, page => requests s asma offset len k page
  | .pinUnpin asma .unpin offset len false ok, k, page =>
    requests s asma offset len k page && decide ((ashmemPinUnpin s asma .unpin offset len false ok).2 = 0)
  | .release asma, k, _ => decide (k = asma)
  | _, _, _ => false

def historyStep (h : History) (op : Op) : History :=
  ⟨step h.state op,fun k page =>
    (h.lost k page && !renewed h.state op k page) || (cuts h.state op).any (cutsPage k page)⟩

def historyBoot : History := ⟨boot,fun _ _ => false⟩

def KeepsMarks (s : State) : Op → Prop
  | .pinUnpin asma .pin offset len false false =>
    ∀ a i, s.area asma = some a → a.file = true → pinInterval a offset.toNat len.toNat = some i →
      ∀ r ∈ a.unpinned, r.purged = true → ¬ (r.pgstart < i.1 ∧ i.2 < r.pgend)
  | .pinUnpin asma .unpin offset len false false =>
    ∀ a i, s.area asma = some a → a.file = true → pinInterval a offset.toNat len.toNat = some i →
      ¬ MeetsMark i.1 i.2 a.unpinned
  | _ => True

structure Remembers (h : History) : Prop where
  shaped : Shaped h.state
  marks : ∀ k page, h.lost k page = true → Marks h.state k page

theorem otherMarks (other : j ≠ k)
    (marks : Marks s j page) : Marks (setArea {s with lru := l} k a) j page :=
  let ⟨b,found,covered⟩ := marks
  ⟨b,(setAreaOther _ _ other).trans found,covered⟩

inductive Configured (s : State) : State → Prop where
  | same : Configured s s
  | fresh {k : Nat} {a : Area} (closed : s.area k = none) (empty : a.unpinned = []) :
      Configured s (setArea s k (some a))
  | kept {k : Nat} {a a' : Area} (at_ : s.area k = some a) (ranges : a'.unpinned = a.unpinned) :
      Configured s (setArea s k (some a'))

theorem openConfigured (s : State) (k : Nat) : Configured s (ashmemOpen s k) := by
  unfold ashmemOpen
  split
  · exact .fresh ‹_› rfl
  · exact .same

theorem setConfigured (s : State) (k prot : Nat) (size : UInt32) (exec : Bool) :
    Configured s (setSize s k size).1 ∧ Configured s (setProtMask s k prot exec).1 := by
  unfold setSize setProtMask
  constructor
  all_goals
    split
    · exact .same
    rename_i a at_
    split
    · exact .same
    · exact .kept at_ rfl

theorem mmapConfigured (s : State) (k flags : Nat) (setup : Bool) : Configured s (ashmemMmap s k flags setup).1 := by
  unfold ashmemMmap
  split
  · exact .same
  rename_i a at_
  split
  · exact .same
  split
  · exact .same
  split
  · exact .same
  split
  · exact .kept at_ rfl
  · exact .same

def Evicts (s s' : State) (cut : List Truncate) : Prop :=
  Shaped s' ∧ ∀ k page, Marks s k page ∨ cut.any (cutsPage k page) = true → Marks s' k page

section
variable (shaped : Shaped s)
include shaped

theorem evictsNone : Evicts s s [] := ⟨shaped,fun k page h => h.resolve_right (by simp)⟩

theorem replaceShaped (ordered : Ordered a.unpinned) (low : StartsLow a.unpinned) :
    Shaped (setArea {s with lru := l} k (some a)) :=
  ⟨setAreaEvery ordered fun j b h _ => shaped.ordered j b h,setAreaEvery low fun j b h _ => shaped.low j b h⟩

theorem purgeMarks (at_ : s.area asma = some a) (mem : r ∈ a.unpinned) (l : Lru) :
    Shaped (setArea {s with lru := l} asma (some {a with unpinned := markPurged r.id a.unpinned})) ∧
    ∀ k page, Marks s k page ∨ (asma = k ∧ PageInRange r page) →
      Marks (setArea {s with lru := l} asma (some {a with unpinned := markPurged r.id a.unpinned})) k page := by
  have low : StartsLow (markPurged r.id a.unpinned) := by
    intro y hy
    obtain ⟨z,hz,same,_⟩ := markedMember hy
    rw [same]
    exact shaped.low asma a at_ z hz
  refine ⟨replaceShaped shaped (markedOrdered (shaped.ordered asma a at_)) low,?_⟩
  intro k page h
  rcases h with marks | ⟨rfl,inside⟩
  · exact replaceMarks at_ (fun _ => coveredMarked) marks
  · exact ⟨_,setAreaSame _ _ _,_,mem_map.mpr ⟨r,mem,if_pos rfl⟩,rfl,inside⟩

theorem shrinkMarks {entries nr} : Evicts s (shrinkLoop entries nr s).1 (shrinkLoop entries nr s).2 := by
  induction entries generalizing nr s with
  | nil => exact evictsNone shaped
  | cons x rest ih =>
    obtain ⟨asma,id⟩ := x
    unfold shrinkLoop
    split
    · exact evictsNone shaped
    rename_i a at_
    split
    · exact evictsNone shaped
    rename_i r found
    have mem := mem_of_find?_eq_some found
    have named : r.id = id := by simpa using List.find?_some found
    subst named
    obtain ⟨next,marked⟩ := purgeMarks shaped at_ mem (lruDel s.lru asma r)
    dsimp only
    split
    · refine ⟨next,fun k page h => marked k page (h.imp_right fun cut => ?_)⟩
      exact cutInside (shaped.low asma a at_ r mem) (by simpa using cut)
    obtain ⟨last,later⟩ := ih next
    refine ⟨last,fun k page h => later k page ?_⟩
    rcases h with marks | cut
    · exact .inl (marked k page (.inl marks))
    simp only [any_cons,Bool.or_eq_true] at cut
    exact cut.imp (fun cut => marked k page (.inr (cutInside (shaped.low asma a at_ r mem) cut))) id

theorem ashmemShrinkMarks (nr : Int) (gfpFs : Bool) :
    Evicts s (ashmemShrink s nr gfpFs).1 (ashmemShrink s nr gfpFs).2.2 := by
  unfold ashmemShrink
  split
  · exact evictsNone shaped
  split
  · exact evictsNone shaped
  · exact shrinkMarks shaped

theorem purgeCountedMarks (ret : Int) : Evicts s (purgeCounted s ret).1 (purgeCounted s ret).2.2 :=
  ashmemShrinkMarks shaped ret true

theorem purgeAllMarks (capable : Bool) : Evicts s (purgeAllCaches s capable).1 (purgeAllCaches s capable).2.2 := by
  unfold purgeAllCaches
  split
  · exact purgeCountedMarks shaped _
  · exact evictsNone shaped

theorem pinUnpinMarks (asma : Nat) (cmd : PinCmd) (offset len : UInt32) (fault ok : Bool) :
    Shaped (ashmemPinUnpin s asma cmd offset len fault ok).1 ∧ (KeepsMarks s (.pinUnpin asma cmd offset len fault ok) →
      ∀ k page, renewed s (.pinUnpin asma cmd offset len fault ok) k page = false → Marks s k page →
        Marks (ashmemPinUnpin s asma cmd offset len fault ok).1 k page) := by
  unfold ashmemPinUnpin
  split
  · exact ⟨shaped,fun _ _ _ _ => id⟩
  rename_i a at_
  split
  · exact ⟨shaped,fun _ _ _ _ => id⟩
  rename_i file
  split
  · exact ⟨shaped,fun _ _ _ _ => id⟩
  rename_i noFault
  split
  · exact ⟨shaped,fun _ _ _ _ => id⟩
  rename_i pgstart pgend interval
  have file : a.file = true := by simpa using file
  obtain rfl : fault = false := by simpa using noFault
  have ordered := shaped.ordered asma a at_
  have low := shaped.low asma a at_
  obtain ⟨weak,first⟩ := intervalWeak interval
  cases cmd with
  | getPinStatus => exact ⟨shaped,fun _ _ _ _ => id⟩
  | pin =>
    have trace := pinTrace asma ok s.lru ordered.2 weak.1
    refine ⟨replaceShaped shaped (pinOrdered weak.1 trace ordered) (pinStartsLow trace ?_ low),
      fun carried k page kept => replaceMarks at_ fun same => pinKeepsCovered trace ?_ ?_⟩
    · refine first.2.imp_right fun last r hr => ?_
      have := (ordered.2 r hr).2
      omega
    · rintro rfl
      exact carried a _ at_ file interval
    · simp only [renewed,requests,at_,interval,decide_eq_false_iff_not] at kept
      have apart : ¬ (pgstart ≤ page ∧ page ≤ pgend) := fun inside => kept ⟨file,same,inside⟩
      omega
  | unpin =>
    have trace := unpinTrace asma pgstart pgend ok a.unpinned s.lru
    refine ⟨replaceShaped shaped (unpinOrdered trace ordered weak.1 weak.2) (unpinStartsLow trace first.1 low),
      fun carried k page _ => replaceMarks at_ fun _ covered => ?_⟩
    cases ok with
    | true => exact unpinKeepsCovered rfl trace ordered (.inr covered)
    | false => exact unpinFailedKeepsCovered trace rfl ordered weak.1 (carried a _ at_ file interval) covered

theorem releaseMarks (k : Nat) :
    Shaped (ashmemRelease s k) ∧ ∀ j page, j ≠ k → Marks s j page → Marks (ashmemRelease s k) j page := by
  unfold ashmemRelease
  split
  · exact ⟨shaped,fun _ _ _ => id⟩
  rename_i a at_
  have back : ∀ j b, (setArea {s with lru := delRanges k a.unpinned s.lru} k none).area j = some b →
      s.area j = some b := by
    intro j b found
    by_cases same : j = k
    · simp [setArea,same] at found
    · rwa [setAreaOther _ _ same] at found
  exact ⟨⟨fun j b found => shaped.ordered j b (back j b found),fun j b found => shaped.low j b (back j b found)⟩,
    fun _ _ => otherMarks⟩

end

theorem configuredMarks {s'} (configured : Configured s s') (shaped : Shaped s) :
    Shaped s' ∧ ∀ j page, Marks s j page → Marks s' j page := by
  cases configured with
  | same => exact ⟨shaped,fun _ _ => id⟩
  | @fresh k a closed empty =>
    refine ⟨replaceShaped shaped (by simp [Ordered,empty]) (by simp [StartsLow,empty]),?_⟩
    intro j page marks
    refine otherMarks (fun same => ?_) marks
    obtain ⟨b,found,_⟩ := marks
    simp [same,closed] at found
  | @kept k a a' at_ ranges =>
    exact ⟨replaceShaped shaped (ranges ▸ shaped.ordered k a at_) (ranges ▸ shaped.low k a at_),
      fun _ _ => replaceMarks at_ fun _ covered => ranges ▸ covered⟩

theorem stepRemembers (h : History) (op : Op) (remembers : Remembers h) (carried : KeepsMarks h.state op) :
    Remembers (historyStep h op) := by
  obtain ⟨shaped,marks⟩ := remembers
  have quiet : ∀ {s'}, cuts h.state op = [] → step h.state op = s' → Shaped s' →
      (∀ k page, renewed h.state op k page = false → Marks h.state k page → Marks s' k page) →
      Remembers (historyStep h op) := by
    rintro s' none rfl shaped' keeps
    refine ⟨shaped',fun k page lost => ?_⟩
    simp only [historyStep,none,any_nil,Bool.or_false,Bool.and_eq_true,Bool.not_eq_true'] at lost
    exact keeps k page lost.2 (marks k page lost.1)
  have evicts : ∀ {s'}, (∀ k page, renewed h.state op k page = false) → step h.state op = s' → Shaped s' →
      (∀ k page, Marks h.state k page ∨ (cuts h.state op).any (cutsPage k page) = true → Marks s' k page) →
      Remembers (historyStep h op) := by
    rintro s' none rfl shaped' keeps
    refine ⟨shaped',fun k page lost => keeps k page ?_⟩
    simp only [historyStep,none,Bool.not_false,Bool.and_true,Bool.or_eq_true] at lost
    exact lost.imp_left (marks k page)
  have configures : cuts h.state op = [] → Configured h.state (step h.state op) →
      Remembers (historyStep h op) := fun none configured =>
    let ⟨shaped',keeps⟩ := configuredMarks configured shaped
    quiet none rfl shaped' fun k page _ => keeps k page
  cases op with
  | «open» k => exact configures rfl (openConfigured h.state k)
  | setSize k size => exact configures rfl (setConfigured h.state k 0 size true).1
  | setProtMask k prot exec => exact configures rfl (setConfigured h.state k prot 0 exec).2
  | mmap k flags setup => exact configures rfl (mmapConfigured h.state k flags setup)
  | pinUnpin k cmd offset len fault ok =>
    have keeps := pinUnpinMarks shaped k cmd offset len fault ok
    exact quiet rfl rfl keeps.1 (keeps.2 carried)
  | shrink nr gfpFs =>
    have keeps := ashmemShrinkMarks shaped nr gfpFs
    exact evicts (fun _ _ => rfl) rfl keeps.1 keeps.2
  | purgeAllCaches capable =>
    have keeps := purgeAllMarks shaped capable
    exact evicts (fun _ _ => rfl) rfl keeps.1 keeps.2
  | release k =>
    have keeps := releaseMarks shaped k
    refine quiet rfl rfl keeps.1 fun j page kept => keeps.2 j page ?_
    simpa [renewed] using kept

theorem bootRemembers : Remembers historyBoot :=
  ⟨⟨by simp [historyBoot,boot],by simp [historyBoot,boot]⟩,by simp [historyBoot]⟩

theorem runNeverHidesPurge {ops} (carried : Admitted historyStep (KeepsMarks ·.state) historyBoot ops)
    {k pgstart pgend page} {a} (ok : Bool)
    (at_ : (run historyStep historyBoot ops).state.area k = some a) (low : pgstart ≤ page) (high : page ≤ pgend)
    (lost : (run historyStep historyBoot ops).lost k page = true) :
    (ashmemPin k pgstart pgend ok a.unpinned (run historyStep historyBoot ops).state.lru).purged = true := by
  have remembers := runInvariant stepRemembers bootRemembers carried
  obtain ⟨b,found,covered⟩ := remembers.marks k page lost
  cases Option.some.inj (at_.symm.trans found)
  have ordered := remembers.shaped.ordered k a at_
  exact pinReturnsPurged (pinTrace k ok _ ordered.2 (by omega)) ordered low high covered

def purgeRun : List Op :=
  [.open 0,.setSize 0 8192,.mmap 0 3 true,.pinUnpin 0 .unpin 0 0 false true,.shrink 1 true,
    .pinUnpin 0 .pin 0 4096 false true]

theorem purgeRunReported :
    (ashmemPin 0 1 1 true [⟨0,1,1,true⟩] (run historyStep historyBoot purgeRun).state.lru).purged = true := by
  have carried : Admitted historyStep (KeepsMarks ·.state) historyBoot purgeRun :=
    ⟨trivial,trivial,trivial,trivial,trivial,trivial,trivial⟩
  have at_ : (run historyStep historyBoot purgeRun).state.area 0 = some ⟨[⟨0,1,1,true⟩],true,8192,7⟩ := by
    decide +kernel
  exact runNeverHidesPurge carried true at_ le_rfl le_rfl (by decide +kernel)

/-- Three pages unpinned and evicted; the middle one is pinned while
kmem_cache_zalloc fails, which drops the last one from the list. -/
def lostHoleRun : List Op :=
  [.open 0,.setSize 0 12288,.mmap 0 3 true,.pinUnpin 0 .unpin 0 0 false true,.shrink 1 true,
    .pinUnpin 0 .pin 4096 4096 false false]

theorem lostHoleHidesPurge : (run historyStep historyBoot lostHoleRun).lost 0 2 = true ∧
    (ashmemPinUnpin (run historyStep historyBoot lostHoleRun).state 0 .pin 8192 4096 false true).2 =
      ASHMEM_NOT_PURGED := by
  decide +kernel

end EclairKernel.Ashmem
