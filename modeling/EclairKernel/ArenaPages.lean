import EclairKernel.ArenaAlloc
import Mathlib.Algebra.BigOperators.Group.Finset.Basic

/-! The space that asynchronous transactions may take: `free_async_space` and the buffers
charged against it make up half of the area. -/
namespace EclairKernel.Arena
open List Finset Nat

def asyncCharge (h : Header) : Nat :=
  if h.free = false ∧ h.asyncTransaction = true then alignPtr h.dataSize + alignPtr h.offsetsSize + headerSize else 0

def asyncCharged (p : Proc) : Nat := (p.buffers.map fun b => asyncCharge (p.header b)).sum

structure Quota (p : Proc) : Prop where
  small : p.bufferSize < word
  exact : p.freeAsyncSpace + asyncCharged p = p.bufferSize / 2

def chargeAt (p : Proc) (b : Nat) : Nat := if b ∈ p.buffers then asyncCharge (p.header b) else 0

variable {p q : Proc} {b}

theorem chargedSum (spaced : Spaced p.buffers) {s} (whole : p.buffers.toFinset ⊆ s) :
    asyncCharged p = ∑ x ∈ s, chargeAt p x := by
  rw [asyncCharged,← sum_toFinset _ (spacedNodup spaced),← sum_subset whole]
  · exact sum_congr rfl fun x mem => (if_pos (mem_toFinset.mp mem)).symm
  · exact fun x _ out => if_neg (mt mem_toFinset.mpr out)

theorem quotaMoves (quota : Quota p) (size : q.bufferSize = p.bufferSize) (spaced : Spaced p.buffers) (spaced' : Spaced q.buffers)
    (others : ∀ x, x ≠ b → chargeAt q x = chargeAt p x)
    (space : q.freeAsyncSpace + chargeAt q b = p.freeAsyncSpace + chargeAt p b) : Quota q := by
  let s := insert b (p.buffers.toFinset ∪ q.buffers.toFinset)
  have here : b ∈ s := Finset.mem_insert_self ..
  have left := chargedSum spaced (s := s) fun x mem => mem_insert_of_mem (mem_union_left _ mem)
  have right := chargedSum spaced' (s := s) fun x mem => mem_insert_of_mem (mem_union_right _ mem)
  have same : ∑ x ∈ s.erase b, chargeAt q x = ∑ x ∈ s.erase b, chargeAt p x :=
    sum_congr rfl fun x mem => others x (ne_of_mem_erase mem)
  rw [← add_sum_erase s _ here] at left right
  have half := quota.exact
  exact ⟨size ▸ quota.small,by omega⟩

theorem quotaCongr (quota : Quota p) (size : q.bufferSize = p.bufferSize) (space : q.freeAsyncSpace = p.freeAsyncSpace)
    (buffers : q.buffers = p.buffers) (charges : ∀ x, asyncCharge (q.header x) = asyncCharge (p.header x)) : Quota q := by
  refine ⟨size ▸ quota.small,?_⟩
  rw [asyncCharged,buffers,map_congr_left fun x _ => charges x,space,size]
  exact quota.exact

theorem takenQuota {new pages size d o isAsync} (tiled : Tiled p)
    (spaced : Spaced q.buffers) (mem : b ∈ p.buffers) (free : (p.header b).free = true) (fits : size ≤ binderBufferSize p b)
    (request : roundUp d + roundUp o = size) (allowed : isAsync = true → (size + headerSize) % word ≤ p.freeAsyncSpace)
    (step : Taken (setPages p pages) q b new) (recorded : Recorded p q b size d o isAsync) (quota : Quota p) : Quota q := by
  refine quotaMoves (b := b) quota step.same.bufferSize tiled.spaced spaced (fun x other => ?_) ?_
  · have members := step.members x
    by_cases old : x ∈ p.buffers
    · rw [chargeAt,chargeAt,if_pos (members.mpr (.inl old)),if_pos old,(step.others x old other).1]
      rfl
    · rw [chargeAt,chargeAt,if_neg old]
      refine ite_eq_right_iff.mpr fun now => ?_
      simp [asyncCharge,(step.tail x ((members.mp now).resolve_left old)).1]
  · have region := regionSize tiled mem
    have low := bufferLow tiled mem
    have high := (regionRoom tiled mem).2
    obtain ⟨small,half⟩ := quota
    obtain ⟨r,space,rfl⟩ := recorded
    have listed := (step.members b).mpr (.inl mem)
    have taken := step.taken
    have whole : alignPtr d + alignPtr o = size := by
      simp only [alignPtr,roundUp,word] at *
      omega
    cases isAsync with
    | false => simp [chargeAt,asyncCharge,free,space]
    | true =>
      have room := allowed rfl
      simp only [recordRequest_buffers,recordRequest_header,if_true,Header.setRequest_free] at listed taken
      simp only [recordRequest_freeAsyncSpace,chargeAt,recordRequest_buffers,listed,recordRequest_header,if_true,mem,asyncCharge,
        Header.setRequest_free,taken,Header.setRequest_asyncTransaction,Header.setRequest_dataSize,Header.setRequest_offsetsSize,
        and_self,free,Bool.true_eq_false,false_and,if_false,word] at *
      omega

structure Alike (p q : Proc) : Prop where
  size : q.bufferSize = p.bufferSize
  space : q.freeAsyncSpace = p.freeAsyncSpace
  header : q.header = p.header
  listed : ∀ x, (p.header x).free = false → (x ∈ q.buffers ↔ x ∈ p.buffers)

theorem Alike.refl (p : Proc) : Alike p p := ⟨rfl,rfl,rfl,fun _ _ => Iff.rfl⟩

theorem Alike.trans {r} (first : Alike p q) (second : Alike q r) : Alike p r :=
  ⟨second.size.trans first.size,second.space.trans first.space,second.header.trans first.header,
    fun x taken => (second.listed x (first.header ▸ taken)).trans (first.listed x taken)⟩

theorem insertedAlike {l prev x} (inserted : Inserted l p.buffers prev x) (free : (p.header x).free = true)
    (pages : Nat → Bool) (t : Rbtree.Tree Nat) : Alike p (setFreeBuffers (setPages (setBuffers p l) pages) t) := by
  refine ⟨rfl,rfl,rfl,fun y taken => ?_⟩
  have other := takenNe free taken
  exact ((inserted.members y).trans (or_iff_left other)).symm

def refund (p : Proc) (b : Nat) : Nat := if (p.header b).asyncTransaction then (p.freeAsyncSpace +
  requestSize (p.header b).dataSize (p.header b).offsetsSize + headerSize) % word else p.freeAsyncSpace

theorem freedQuota {pages t} (tiled : Tiled p) (spaced : Spaced q.buffers)
    (mem : b ∈ p.buffers) (taken : (p.header b).free = false)
    (alike : Alike (setHeader (setAllocatedBuffers (setPages (setFreeAsyncSpace p (refund p b)) pages) t) b ((p.header b).setFree true)) q)
    (quota : Quota p) : Quota q := by
  obtain ⟨size,left,header,listed⟩ := alike
  have left : q.freeAsyncSpace = refund p b := left
  refine quotaMoves (b := b) quota size tiled.spaced spaced (fun x other => ?_) ?_
  · have same : q.header x = p.header x := by simp [header,other]
    cases free : (p.header x).free with
    | true => simp [chargeAt,asyncCharge,same,free]
    | false =>
      rw [chargeAt,same]
      exact if_congr (listed x (by simp [other,free])) rfl rfl
  · have charged := chargedSum tiled.spaced (s := insert b p.buffers.toFinset) fun x => Finset.mem_insert_of_mem
    rw [← add_sum_erase _ _ (mem_insert_self ..)] at charged
    obtain ⟨small,half⟩ := quota
    have gone : chargeAt q b = 0 := by simp [chargeAt,asyncCharge,header]
    rw [gone,left,refund]
    cases async : (p.header b).asyncTransaction with
    | false => simp [chargeAt,asyncCharge,async]
    | true =>
      have own : chargeAt p b = alignPtr (p.header b).dataSize + alignPtr (p.header b).offsetsSize + headerSize := by
        simp [chargeAt,mem,asyncCharge,taken,async]
      rw [if_pos rfl]
      simp only [requestSize,word] at *
      omega

/-! Which pages of the arena are there: what binder_update_page_range does to a
range of pages, and the pages that the headers and the allocated data need. -/

open Bool Option

def filled (pages : Nat → Bool) (s a : Nat) : Nat → Bool := fun k => pages k || decide (s ≤ k ∧ k < a)
def cleared (pages : Nat → Bool) (s a : Nat) : Nat → Bool := fun k => pages k && !decide (s ≤ k ∧ k < a)

variable {s a start stop e d o pages p'}

theorem filledEmpty (pages : Nat → Bool) (empty : a ≤ s) : filled pages s a = pages := by
  funext k
  have outside : ¬ (s ≤ k ∧ k < a) := by omega
  simp [filled,outside]

theorem filledSucc (pages : Nat → Bool) (order : s ≤ a) :
    setPage (filled pages s a) a true = filled pages s (a+1) := by
  funext k
  by_cases here : k = a
  · simp [setPage,filled,here,order]
  · have same : (s ≤ k ∧ k < a) ↔ (s ≤ k ∧ k < a+1) := by omega
    simp [setPage,filled,here,same]

theorem filledPred (absent : pages a = false) : setPage (filled pages s (a+1)) a false = filled pages s a := by
  funext k
  by_cases here : k = a
  · simp [setPage,filled,here,absent]
  · have same : (s ≤ k ∧ k < a) ↔ (s ≤ k ∧ k < a+1) := by omega
    simp [setPage,filled,here,same]

theorem filledCleared (present : ∀ k, s ≤ k → k < a → pages k = true) : filled (cleared pages s a) s a = pages := by
  funext k
  by_cases inside : s ≤ k ∧ k < a
  · simp [filled,inside,present k inside.1 inside.2]
  · simp [filled,cleared,inside]

theorem pageSpan (b s e : Nat) : (b + pageSize * e - (b + pageSize * s)) / pageSize = e - s := by
  simp only [pageSize]
  omega

section
variable (vma : Vma) (env : Env) (pages : Nat → Bool) {buffer}

theorem freeLoopFilled (positive : 0 < buffer) {a} (fuel : Nat) (enough : a ≤ s + fuel)
    (absent : ∀ k, s ≤ k → k < a → pages k = false) :
    freeLoop buffer (buffer + pageSize * s) fuel (buffer + pageSize * a - pageSize) (filled pages s a) =
      some pages := by
  induction fuel generalizing a with
  | zero => simp [freeLoop,filledEmpty pages (show a ≤ s by omega)]
  | succ fuel ih =>
    by_cases empty : a ≤ s
    · have below : ¬ buffer + pageSize * s ≤ buffer + pageSize * a - pageSize := by
        simp only [pageSize]
        omega
      simp [freeLoop,if_neg below,filledEmpty pages empty]
    · obtain ⟨a,rfl⟩ : ∃ last, a = last + 1 := ⟨a-1,by omega⟩
      have address : buffer + pageSize * (a+1) - pageSize = buffer + pageSize * a := by
        simp only [pageSize]
        omega
      have index : (buffer + pageSize * a - buffer) / pageSize = a := by
        simp only [pageSize]
        omega
      have order : buffer + pageSize * s ≤ buffer + pageSize * a := by
        simp only [pageSize]
        omega
      have here : filled pages s (a+1) a = true := by simp [filled,show s ≤ a by omega]
      simp only [freeLoop,address,if_pos order,index,here]
      rw [filledPred (absent a (by omega) (by omega))]
      exact ih (by omega) fun k low high => absent k low (by omega)

theorem allocLoopFilled (positive : 0 < p.buffer) (absent : ∀ k, s ≤ k → k < e → pages k = false)
    {a} (fuel : Nat) (low : s ≤ a) (high : a ≤ e) (enough : e ≤ a + fuel) :
    allocLoop p vma env (p.buffer + pageSize * s) (p.buffer + pageSize * e) fuel (p.buffer + pageSize * a)
        (filled pages s a) = some (filled pages s e,true) ∨
    allocLoop p vma env (p.buffer + pageSize * s) (p.buffer + pageSize * e) fuel (p.buffer + pageSize * a)
        (filled pages s a) = some (pages,false) := by
  induction fuel generalizing a with
  | zero =>
    cases (show a = e by omega)
    exact .inl rfl
  | succ fuel ih =>
    by_cases done : a = e
    · subst done
      simp [allocLoop]
    have order : p.buffer + pageSize * a < p.buffer + pageSize * e := by
      simp only [pageSize]
      omega
    have index : (p.buffer + pageSize * a - p.buffer) / pageSize = a := by
      simp only [pageSize]
      omega
    have next : p.buffer + pageSize * a + pageSize = p.buffer + pageSize * (a+1) := by
      simp only [pageSize]
      omega
    have here : filled pages s a a = false := by simp [filled,absent a low (by omega)]
    simp only [allocLoop,if_pos order,index,here,false_eq_true,if_false]
    split
    · rw [next,filledSucc pages low]
      exact ih (by omega) (by omega) (by omega)
    right
    rw [pageSpan,freeLoopFilled pages positive _ (by omega) fun k below above => absent k below (by omega)]
    rfl

end

section
variable (vma : Option Vma) (env : Env) (positive : 0 < p.buffer) (first : start = p.buffer + pageSize * s)
  (last : stop = p.buffer + pageSize * e)
include vma env positive first last

theorem updateAlloc (absent : ∀ k, s ≤ k → k < e → p.pages k = false) :
    binderUpdatePageRange p true start stop vma env = some (setPages p (filled p.pages s e),true) ∨
    binderUpdatePageRange p true start stop vma env = some (p,false) := by
  subst first last
  simp only [binderUpdatePageRange]
  split
  · rename_i empty
    rw [filledEmpty p.pages (by simp only [pageSize] at empty; omega)]
    exact .inl rfl
  rename_i full
  simp only [if_true]
  split
  · exact .inr rfl
  rename_i v _
  have out := allocLoopFilled v env p.pages positive absent (e - s) le_rfl
    (by simp only [pageSize] at full; omega) (by omega)
  rw [filledEmpty p.pages le_rfl] at out
  rw [pageSpan]
  exact out.imp (fun ok => by rw [ok]; rfl) (fun failed => by rw [failed]; rfl)

theorem updateFree (present : ∀ k, s ≤ k → k < e → p.pages k = true) :
    ∃ ok, binderUpdatePageRange p false start stop vma env = some (setPages p (cleared p.pages s e),ok) := by
  subst first last
  simp only [binderUpdatePageRange]
  split
  · rename_i empty
    refine ⟨true,?_⟩
    have same : cleared p.pages s e = p.pages := by
      rw [← filledEmpty (cleared p.pages s e) (show e ≤ s by simp only [pageSize] at empty; omega)]
      exact filledCleared present
    rw [same]
    rfl
  · have out := freeLoopFilled (cleared p.pages s e) positive (s := s) (a := e) (e - s) (by omega) (fun k low high => by simp [cleared,low,high])
    rw [filledCleared present] at out
    refine ⟨false,?_⟩
    simp only [pageSpan,out]
    rfl

end

def pageAddr (p : Proc) (k : Nat) : Nat := p.buffer + pageSize * k

def OnHeader (b a : Nat) : Prop := b < a + pageSize ∧ a < b + headerSize
def OnData (b stop a : Nat) : Prop := pageAlign (b + headerSize) ≤ a ∧ a + pageSize ≤ pageMask stop

def Needed (p : Proc) (a : Nat) : Prop :=
  (∃ b ∈ p.buffers, OnHeader b a) ∨
  ∃ b ∈ p.buffers, (p.header b).free = false ∧ OnData b (regionEnd p b) a

def Paged (p : Proc) : Prop := ∀ k, p.pages k = true ↔ Needed p (pageAddr p k)

structure Placed (p : Proc) : Prop where
  positive : 0 < p.buffer
  aligned : p.buffer % pageSize = 0
  whole : p.bufferSize % pageSize = 0

theorem dataAlone (tiled : Tiled p) (mem : b ∈ p.buffers)
    (aligned : a % pageSize = 0) (data : OnData b (regionEnd p b) a) : (∀ x ∈ p.buffers, ¬ OnHeader x a) ∧
    ∀ x ∈ p.buffers, OnData x (regionEnd p x) a → x = b := by
  have own := regionRoom tiled mem
  simp only [OnData,pageAlign,pageMask,pageSize,headerSize] at data aligned own
  constructor
  · intro x hx bad
    simp only [OnHeader,pageSize,headerSize] at bad
    rcases Nat.lt_trichotomy x b with before | rfl | behind
    · omega
    · omega
    · have := regionsApart tiled mem hx behind
      omega
  · intro x hx other
    simp only [OnData,pageAlign,pageMask,pageSize] at other
    rcases Nat.lt_trichotomy x b with before | same | behind
    · have := regionsApart tiled hx mem before
      omega
    · exact same
    · have := regionsApart tiled mem hx behind
      omega

theorem takenNeeded {new} (step : Taken p p' b new) (mem : b ∈ p.buffers)
    (free : (p.header b).free = true) (a : Nat) :
    Needed p' a ↔ Needed p a ∨ (∃ n, new = some n ∧ OnHeader n a) ∨ OnData b (new.getD (regionEnd p b)) a := by
  constructor
  · rintro (⟨x,hx,here⟩ | ⟨x,hx,taken,here⟩)
    · rcases (step.members x).mp hx with old | tail
      · exact .inl (.inl ⟨x,old,here⟩)
      · exact .inr (.inl ⟨x,tail,here⟩)
    · rcases (step.members x).mp hx with old | tail
      · by_cases same : x = b
        · rw [same,step.own] at here
          exact .inr (.inr here)
        · obtain ⟨header,region⟩ := step.others x old same
          exact .inl (.inr ⟨x,old,header ▸ taken,region ▸ here⟩)
      · rw [(step.tail x tail).1] at taken
        contradiction
  · rintro ((⟨x,hx,here⟩ | ⟨x,hx,taken,here⟩) | ⟨n,tail,here⟩ | here)
    · exact .inl ⟨x,(step.members x).mpr (.inl hx),here⟩
    · have other := takenNe free taken
      obtain ⟨header,region⟩ := step.others x hx other
      exact .inr ⟨x,(step.members x).mpr (.inl hx),header ▸ taken,region ▸ here⟩
    · exact .inl ⟨n,(step.members n).mpr (.inr tail),here⟩
    · exact .inr ⟨b,(step.members b).mpr (.inl mem),step.taken,step.own ▸ here⟩

structure Sound (p : Proc) : Prop where
  shape : Shape p none
  room : Room p
  placed : Placed p
  paged : Paged p

theorem pagesShape {hole} (shape : Shape p hole) (pages : Nat → Bool) : Shape (setPages p pages) hole :=
  shapeCongr shape ⟨rfl,rfl⟩ rfl rfl rfl fun _ => rfl

section
variable (placed : Placed p)
include placed

theorem placedSame (same : Same p p') : Placed p' := by
  obtain ⟨positive,aligned,whole⟩ := placed
  constructor
  · rwa [same.buffer]
  · rwa [same.buffer]
  · rwa [same.bufferSize]

theorem pageAddrAligned (k : Nat) : pageAddr p k % pageSize = 0 := by
  simp [pageAddr,placed.aligned]

theorem regionEdge (b : Nat) : regionEnd p b % pageSize = 0 ∨ regionEnd p b ∈ p.buffers := by
  unfold regionEnd
  cases next : nextBuffer p.buffers b with
  | none => exact .inl (by simp [add_mod,placed.aligned,placed.whole])
  | some y => exact .inr (nextMember next)

theorem askedPages {n} (mem : b ∈ p.buffers)
    (aligned : a % pageSize = 0) (start : b + headerSize ≤ n) (stop : n + headerSize ≤ regionEnd p b) :
    Needed p a ∨ (pageAlign (b + headerSize) ≤ a ∧
        a < min (pageAlign (n + headerSize)) (pageMask (regionEnd p b))) ↔
      Needed p a ∨ OnHeader n a ∨ OnData b n a := by
  constructor
  · rintro (old | ⟨low,high⟩)
    · exact .inl old
    · simp only [OnHeader,OnData,pageAlign,pageMask,pageSize] at *
      omega
  · rintro (old | header | data)
    · exact .inl old
    · by_cases low : pageAlign (b + headerSize) ≤ a
      · by_cases high : a < pageMask (regionEnd p b)
        · simp only [OnHeader,pageAlign,pageSize] at *
          omega
        · -- the page is cut by the end of the region, where the next header stands
          left
          have inside : regionEnd p b % pageSize ≠ 0 := by
            simp only [OnHeader,pageMask,pageSize] at *
            omega
          refine .inl ⟨regionEnd p b,(regionEdge placed b).resolve_left inside,?_⟩
          simp only [OnHeader,pageMask,pageSize] at *
          omega
      · left
        refine .inl ⟨b,mem,?_⟩
        simp only [OnHeader,pageAlign,pageSize] at *
        omega
    · simp only [OnData,pageAlign,pageMask,pageSize] at *
      omega

theorem pageIndex (aligned : a % pageSize = 0) (low : p.buffer ≤ a) :
    ∃ k, a = p.buffer + pageSize * k := by
  have start := placed.aligned
  simp only [pageSize] at *
  exact ⟨(a - p.buffer) / 4096,by omega⟩

end

theorem soundCongr {q} (sound : Sound p) (same : Same p q) (buffers : q.buffers = p.buffers)
    (free : q.freeBuffers = p.freeBuffers) (allocated : q.allocatedBuffers = p.allocatedBuffers)
    (pages : ∀ k, q.pages k = p.pages k) (flags : ∀ b, (q.header b).free = (p.header b).free)
    (requests : ∀ b, (q.header b).dataSize = (p.header b).dataSize ∧
      (q.header b).offsetsSize = (p.header b).offsetsSize) : Sound q := by
  refine ⟨shapeCongr sound.shape same buffers free allocated flags,?_,placedSame sound.placed same,?_⟩
  · intro b mem taken
    rw [(requests b).1,(requests b).2,bufferSizeRegion,regionCongr buffers same]
    exact sound.room b (buffers ▸ mem) (flags b ▸ taken)
  · intro k
    have address : pageAddr q k = pageAddr p k := by rw [pageAddr,same.buffer,pageAddr]
    rw [pages,address,sound.paged k]
    simp [Needed,buffers,flags,regionCongr buffers same]

theorem pageRange (first : start = p.buffer + pageSize * s) (last : stop = p.buffer + pageSize * e) (k : Nat) :
    (start ≤ pageAddr p k ∧ pageAddr p k < stop) ↔ s ≤ k ∧ k < e := by
  simp only [first,last,pageAddr,pageSize]
  omega

theorem askFree (sound : Sound p) (env : Env) (mem : b ∈ p.buffers)
    (free : (p.header b).free = true) (first : start = pageAlign (b + headerSize)) (whole : stop % pageSize = 0)
    (low : p.buffer ≤ stop) (high : stop ≤ pageMask (regionEnd p b)) :
    (∃ pages, binderUpdatePageRange p true start stop none env = some (setPages p pages,true) ∧
      ∀ k, pages k = true ↔ p.pages k = true ∨ (start ≤ pageAddr p k ∧ pageAddr p k < stop)) ∨
    binderUpdatePageRange p true start stop none env = some (p,false) := by
  have above := bufferLow sound.shape.toTiled mem
  have startLow : p.buffer ≤ start ∧ start % pageSize = 0 := by
    simp only [pageAlign,pageSize] at *
    omega
  obtain ⟨s,hs⟩ := pageIndex sound.placed startLow.2 startLow.1
  obtain ⟨e,he⟩ := pageIndex sound.placed whole low
  have absent : ∀ k, s ≤ k → k < e → p.pages k = false := by
    intro k low high
    by_contra bad
    have aligned := pageAddrAligned sound.placed k
    have data : OnData b (regionEnd p b) (pageAddr p k) := by
      simp only [OnData,pageAddr,pageSize] at *
      omega
    obtain ⟨noHeader,noData⟩ := dataAlone sound.shape.toTiled mem aligned data
    rcases (sound.paged k).mp (by simpa using bad) with ⟨x,hx,here⟩ | ⟨x,hx,taken,here⟩
    · exact noHeader x hx here
    · cases noData x hx here
      simp [free] at taken
  exact (updateAlloc none env sound.placed.positive hs he absent).imp
    (fun done => ⟨_,done,fun k => by simp [filled,pageRange hs he]⟩) id

theorem requestAccepted (dataRange : d < word) (offsetsRange : o < word)
    (accepted : ¬ (requestSize d o < d ∨ requestSize d o < o)) : roundUp d + roundUp o = requestSize d o := by
  simp only [requestSize,alignPtr,roundUp,word] at *
  omega

theorem takenSound {new} (sound : Sound p)
    (mem : b ∈ p.buffers) (free : (p.header b).free = true) (shape : Shape p' none) (room : Room p')
    (step : Taken (setPages p pages) p' b new) (present : ∀ k, pages k = true ↔ Needed p (pageAddr p k) ∨
      (∃ n, new = some n ∧ OnHeader n (pageAddr p k)) ∨ OnData b (new.getD (regionEnd p b)) (pageAddr p k)) :
    Sound p' := by
  refine ⟨shape,room,placedSame sound.placed ⟨step.same.buffer,step.same.bufferSize⟩,?_⟩
  intro k
  have address : pageAddr p' k = pageAddr p k := by
    rw [pageAddr,step.same.buffer]
    rfl
  rw [step.pages,address,takenNeeded step mem free]
  exact present k

theorem takeSound (sound : Sound p) {size bufferSize} (isAsync : Bool) (env : Env)
    (mem : b ∈ p.buffers) (free : (p.header b).free = true) (request : roundUp d + roundUp o = size)
    (fits : size ≤ binderBufferSize p b) (allowed : isAsync = true → (size + headerSize) % word ≤ p.freeAsyncSpace)
    (choice : bufferSize = size ∧ binderBufferSize p b ≤ size + headerSize + 4 ∨
      bufferSize = size + headerSize ∧ size + headerSize ≤ binderBufferSize p b) : ∃ out, (do
      let out ← binderUpdatePageRange p true (pageAlign (b + headerSize))
        (min (pageAlign (b + headerSize + bufferSize)) (pageMask (regionEnd p b))) none env
      if out.2 = true then do
        let p ← takeBuffer out.1 b size bufferSize d o isAsync env
        some (p,some b)
      else some (out.1,none)) = some out ∧ Sound out.1 ∧ (out.2 = none → out.1 = p) ∧ (Quota p → Quota out.1) := by
  have low := bufferLow sound.shape.toTiled mem
  have aligned := sound.placed.aligned
  have whole := regionSize sound.shape.toTiled mem
  have bounds : p.buffer ≤ min (pageAlign (b + headerSize + bufferSize)) (pageMask (regionEnd p b)) ∧
      min (pageAlign (b + headerSize + bufferSize)) (pageMask (regionEnd p b)) % pageSize = 0 := by
    simp only [pageAlign,pageMask,pageSize] at *
    omega
  rcases askFree sound env mem free rfl bounds.2 bounds.1 (min_le_right _ _) with
    ⟨pages,updated,present⟩ | failed
  · have shape := pagesShape sound.shape pages
    have room := sound.room
    simp only [updated,bind,bind_some]
    rcases choice with ⟨same,slack⟩ | ⟨more,tail⟩
    · obtain ⟨p',taken,shape',room',step,recorded⟩ := takeWhole isAsync env shape room mem free (le_of_eq request) fits
      rw [same,taken]
      refine ⟨_,rfl,takenSound sound mem free shape' room' step ?_,fun none => absurd none (some_ne_none b),
        takenQuota sound.shape.toTiled shape'.spaced mem free fits request allowed step recorded⟩
      intro k
      have page := pageAddrAligned sound.placed k
      have asked : (pageAlign (b + headerSize) ≤ pageAddr p k ∧
          pageAddr p k < min (pageAlign (b + headerSize + bufferSize)) (pageMask (regionEnd p b))) ↔
          OnData b (regionEnd p b) (pageAddr p k) := by
        simp only [OnData,pageAlign,pageMask,pageSize,headerSize] at *
        omega
      rw [present,sound.paged k,asked]
      simp
    · have split : bufferSize ≠ size := by
        simp only [headerSize] at more
        omega
      obtain ⟨p',taken,shape',room',step,recorded⟩ := takeSplit isAsync env shape room mem free
        (le_of_eq request) split tail
      rw [taken]
      refine ⟨_,rfl,takenSound sound mem free shape' room' step ?_,fun none => absurd none (some_ne_none b),
        takenQuota sound.shape.toTiled shape'.spaced mem free fits request allowed step recorded⟩
      intro k
      have page := pageAddrAligned sound.placed k
      rw [present,sound.paged k,more,← add_assoc,
        askedPages sound.placed mem page (Nat.le_add_right _ _) (by omega)]
      simp
  · simp only [failed]
    exact ⟨_,rfl,sound,fun _ => rfl,id⟩

theorem allocSound (sound : Sound p) (isAsync : Bool) (env : Env) (dataRange : d < word)
    (offsetsRange : o < word) : ∃ out, binderAllocBuf p d o isAsync env = some out ∧ Sound out.1 ∧
      (out.2 = none → out.1 = p) ∧ (Quota p → Quota out.1) := by
  simp only [binderAllocBuf]
  split
  · exact ⟨_,rfl,sound,fun _ => rfl,id⟩
  split
  · exact ⟨_,rfl,sound,fun _ => rfl,id⟩
  rename_i accepted
  split
  · exact ⟨_,rfl,sound,fun _ => rfl,id⟩
  rename_i quota
  have allowed : isAsync = true → (requestSize d o + headerSize) % word ≤ p.freeAsyncSpace :=
    fun async => not_lt.mp fun less => quota ⟨async,less⟩
  have request := requestAccepted dataRange offsetsRange accepted
  generalize requestSize d o = size at *
  obtain ⟨⟨best,exactFit⟩,found,fits,member⟩ := fitLoopFits p size none
    (fun b => (sound.shape.free.mem b).mp) (fun b hb => hb.2.1) (by simp)
  simp only [found,bind,bind_some]
  cases best with
  | none => exact ⟨_,rfl,sound,fun _ => rfl,id⟩
  | some b =>
    obtain ⟨mem,free,_⟩ := member b rfl
    have fitsHere : size ≤ binderBufferSize p b := by
      cases exactFit with
      | true =>
        obtain ⟨x,same,fit⟩ := fits.exactly rfl
        cases same
        exact le_of_eq fit.symm
      | false => exact le_of_lt (fits.larger rfl b rfl)
    simp only [regionSize sound.shape.toTiled mem]
    refine takeSound sound isAsync env mem free request fitsHere allowed ?_
    cases exactFit with
    | true =>
      obtain ⟨x,same,fit⟩ := fits.exactly rfl
      cases same
      rw [fit]
      exact .inl ⟨rfl,by omega⟩
    | false =>
      simp only [false_eq_true,if_false]
      split
      · rename_i slack
        exact .inl ⟨rfl,slack⟩
      · exact .inr ⟨rfl,by omega⟩

end EclairKernel.Arena
