import EclairKernel.ArenaPages

/-! binder_free_buf keeps the arena sound. While it merges, the buffer it will put
back stands outside the free tree; `Loose p b` is the state of the arena then. -/
namespace EclairKernel.Arena
open Option Rbtree

section
variable {p : Proc} {l prev x} (inserted : Inserted l p.buffers prev x)
include inserted

theorem deletedTiled (tiled : Tiled p) : Tiled (setBuffers p l) := by
  refine ⟨?_,?_,?_⟩
  · exact inserted.head.symm.trans tiled.first
  · have smaller := List.erase_sublist (a := x) (l := p.buffers)
    rw [inserted.erase] at smaller
    exact inserted.spaced.sublist smaller
  · intro y hy
    exact tiled.fits y ((inserted.members y).mpr (.inl hy))

theorem deletedRegion {y} (mem : y ∈ l) (other : y ≠ prev) : regionEnd (setBuffers p l) y = regionEnd p y := by
  rw [regionEnd,regionEnd,inserted.following y mem other]
  rfl

theorem mergedShape {hole} (shape : Shape p (some hole)) (which : hole = prev ∨ hole = x)
    (freePrev : (p.header prev).free = true) (freeX : (p.header x).free = true) {t}
    (holds : Holds t (fun y => y ∈ p.buffers ∧ (p.header y).free = true ∧ y ≠ prev ∧ y ≠ x)
      (fun x y => binderBufferSize p x ≤ binderBufferSize p y)) :
    Shape (setFreeBuffers (setBuffers p l) t) (some prev) := by
  have tiled := deletedTiled inserted shape.toTiled
  have sizes : ∀ y ∈ p.buffers, y ≠ prev → y ≠ x →
      binderBufferSize (setFreeBuffers (setBuffers p l) t) y = binderBufferSize p y := by
    intro y mem notPrev notX
    have old := ((inserted.members y).mp mem).resolve_right notX
    have same := deletedRegion inserted old notPrev
    rw [bufferSizeRegion,bufferSizeRegion,← same]
    rfl
  refine ⟨⟨tiled.first,tiled.spaced,tiled.fits⟩,?_,?_,?_⟩
  · refine holdsCongr holds ?_ ?_
    · intro y
      by_cases here : y = x
      · simp [here,inserted.fresh]
      · simp [inserted.members y,here,eq_comm (a := prev)]
    · rintro y z ⟨memY,_,prevY,xY⟩ ⟨memZ,_,prevZ,xZ⟩ order
      rwa [sizes y memY prevY xY,sizes z memZ prevZ xZ]
  · refine holdsSame shape.allocated ?_
    intro y
    by_cases here : y = x
    · simp [here,freeX]
    · simp [inserted.members y,here]
  · intro y memY z next freeY freeZ
    by_cases here : y = prev
    · exact .inl (by rw [here])
    have memZ := nextMember next
    have notY : y ≠ x := fun same => inserted.fresh (same ▸ memY)
    have notZ : z ≠ x := fun same => inserted.fresh (same ▸ memZ)
    have old := (inserted.following y memY here).trans next
    have apart := shape.apart y ((inserted.members y).mpr (.inl memY)) z old freeY freeZ
    rcases which with rfl | rfl
    · exact apart
    · exact (apart.elim (fun same => notY (some.inj same).symm)
        fun same => notZ (some.inj same).symm).elim

theorem deletedNeeded (freePrev : (p.header prev).free = true) (freeX : (p.header x).free = true) (a : Nat) :
    Needed p a ↔ Needed (setBuffers p l) a ∨ OnHeader x a := by
  constructor
  · rintro (⟨y,hy,here⟩ | ⟨y,hy,taken,here⟩)
    · rcases (inserted.members y).mp hy with old | rfl
      · exact .inl (.inl ⟨y,old,here⟩)
      · exact .inr here
    · rcases (inserted.members y).mp hy with old | rfl
      · have other := takenNe freePrev taken
        exact .inl (.inr ⟨y,old,taken,(deletedRegion inserted old other).symm ▸ here⟩)
      · simp [freeX] at taken
  · rintro ((⟨y,hy,here⟩ | ⟨y,hy,taken,here⟩) | here)
    · exact .inl ⟨y,(inserted.members y).mpr (.inl hy),here⟩
    · have other := takenNe freePrev taken
      exact .inr ⟨y,(inserted.members y).mpr (.inl hy),taken,deletedRegion inserted hy other ▸ here⟩
    · exact .inl ⟨x,(inserted.members x).mpr (.inr rfl),here⟩

theorem sharedPage (tiled : Tiled p) {a} (aligned : a % pageSize = 0) (here : OnHeader x a)
    (needed : Needed (setBuffers p l) a) (freePrev : (p.header prev).free = true) :
    OnHeader prev a ∨ ∃ n, nextBuffer p.buffers x = some n ∧ OnHeader n a := by
  have memX := (inserted.members x).mpr (.inr rfl)
  have memPrev := (inserted.members prev).mpr (.inl inserted.here)
  have endPrev : regionEnd p prev = x := by
    rw [regionEnd,inserted.own]
    rfl
  rcases needed with ⟨y,hy,onY⟩ | ⟨y,hy,taken,onY⟩
  · have memY := (inserted.members y).mpr (.inl hy)
    have other : y ≠ x := fun same => inserted.fresh (same ▸ hy)
    rcases Nat.lt_or_gt_of_ne other with before | behind
    · have order : y ≤ prev := by
        by_contra above
        have := regionsApart tiled memPrev memY (by omega)
        omega
      have := (regionRoom tiled memPrev).1
      simp only [OnHeader] at *
      omega
    · right
      have order := regionsApart tiled memX memY behind
      have room := tiled.fits y memY
      unfold regionEnd at order
      cases next : nextBuffer p.buffers x with
      | none =>
        simp only [next,getD_none,headerSize] at order room
        omega
      | some n =>
        have apart := (regionRoom tiled memX).1
        simp only [regionEnd,next,getD_some] at apart order
        refine ⟨n,rfl,?_⟩
        simp only [OnHeader] at *
        omega
  · have other := takenNe freePrev taken
    rw [deletedRegion inserted hy other] at onY
    exact ((dataAlone tiled ((inserted.members y).mpr (.inl hy)) aligned onY).1 x memX here).elim

end

section
variable {prev x a next} (before : prev + headerSize ≤ x)
  (behind : ∀ n, next = some n → x + headerSize ≤ n)
include before behind

theorem freePageAlone : (freePageStart prev x next = true ↔
      ¬ (OnHeader prev (bufferStartPage x) ∨ ∃ n, next = some n ∧ OnHeader n (bufferStartPage x))) ∧
    (freePageEnd prev x next = true ↔
      ¬ (OnHeader prev (bufferEndPage x) ∨ ∃ n, next = some n ∧ OnHeader n (bufferEndPage x))) := by
  cases next with
  | none =>
    simp [freePageStart,freePageEnd]
    simp only [OnHeader,bufferStartPage,bufferEndPage,pageMask,pageSize,headerSize] at *
    omega
  | some n =>
    have apart := behind n rfl
    simp [freePageStart,freePageEnd]
    simp only [OnHeader,bufferStartPage,bufferEndPage,pageMask,pageSize,headerSize] at *
    omega

theorem deletedRange (aligned : a % pageSize = 0) : ((freePageStart prev x next || freePageEnd prev x next) = true ∧
      (if freePageStart prev x next then bufferStartPage x else bufferEndPage x) ≤ a ∧
      a < (if freePageEnd prev x next then bufferEndPage x else bufferStartPage x) + pageSize) ↔
    OnHeader x a ∧ ¬ (OnHeader prev a ∨ ∃ n, next = some n ∧ OnHeader n a) := by
  obtain ⟨start,stop⟩ := freePageAlone before behind
  have pages : OnHeader x a ↔ a = bufferStartPage x ∨ a = bufferEndPage x := by
    simp only [OnHeader,bufferStartPage,bufferEndPage,pageMask,pageSize,headerSize] at *
    omega
  have order : bufferStartPage x = bufferEndPage x ∨ bufferStartPage x + pageSize = bufferEndPage x := by
    simp only [bufferStartPage,bufferEndPage,pageMask,pageSize,headerSize]
    omega
  have whole : bufferStartPage x % pageSize = 0 ∧ bufferEndPage x % pageSize = 0 := by
    simp only [bufferStartPage,bufferEndPage,pageMask,pageSize]
    omega
  rw [pages]
  generalize freePageStart prev x next = freeStart at *
  generalize freePageEnd prev x next = freeEnd at *
  generalize bufferStartPage x = s at *
  generalize bufferEndPage x = e at *
  have selected : ((freeStart || freeEnd) = true ∧ (if freeStart then s else e) ≤ a ∧
      a < (if freeEnd then e else s) + pageSize) ↔ (a = s ∧ freeStart = true) ∨ (a = e ∧ freeEnd = true) := by
    simp only [pageSize] at *
    cases freeStart <;> cases freeEnd <;> simp <;> omega
  rw [selected,start,stop]
  constructor
  · rintro (⟨rfl,alone⟩ | ⟨rfl,alone⟩)
    · exact ⟨.inl rfl,alone⟩
    · exact ⟨.inr rfl,alone⟩
  · rintro ⟨rfl | rfl,alone⟩
    · exact .inl ⟨rfl,alone⟩
    · exact .inr ⟨rfl,alone⟩

end

variable {p b}

theorem giveBack (placed : Placed p) (start stop : Nat) (env : Env)
    (startWhole : start % pageSize = 0) (stopWhole : stop % pageSize = 0) (startLow : p.buffer ≤ start)
    (stopLow : p.buffer ≤ stop) (present : ∀ k, start ≤ pageAddr p k → pageAddr p k < stop → p.pages k = true) :
    ∃ pages ok, binderUpdatePageRange p false start stop none env = some (setPages p pages,ok) ∧
      ∀ k, pages k = true ↔ p.pages k = true ∧ ¬ (start ≤ pageAddr p k ∧ pageAddr p k < stop) := by
  obtain ⟨s,hs⟩ := pageIndex placed startWhole startLow
  obtain ⟨e,he⟩ := pageIndex placed stopWhole stopLow
  obtain ⟨ok,updated⟩ := updateFree none env placed.positive hs he fun k low high => by
    obtain ⟨above,below⟩ := (pageRange hs he k).mpr ⟨low,high⟩
    exact present k above below
  refine ⟨_,ok,updated,?_⟩
  intro k
  rw [pageRange hs he]
  simp only [cleared,Bool.and_eq_true,Bool.not_eq_true',decide_eq_false_iff_not]

theorem deletePaged {l prev x} (inserted : Inserted l p.buffers prev x)
    (tiled : Tiled p) (placed : Placed p) (paged : Paged p) (freePrev : (p.header prev).free = true)
    (freeX : (p.header x).free = true) (env : Env) :
    ∃ pages, binderDeleteFreeBuffer p x env = some (setPages (setBuffers p l) pages) ∧
      Paged (setPages (setBuffers p l) pages) := by
  have memX : x ∈ p.buffers := (inserted.members x).mpr (.inr rfl)
  have memPrev := (inserted.members prev).mpr (.inl inserted.here)
  have before := nextAbove tiled memPrev inserted.own
  have behind : ∀ n, nextBuffer p.buffers x = some n → x + headerSize ≤ n := fun n => nextAbove tiled memX
  have needed := deletedNeeded inserted freePrev freeX
  -- the pages that go are those of the header that nothing else needs
  have lone : ∀ k, OnHeader x (pageAddr p k) ∧ ¬ (OnHeader prev (pageAddr p k) ∨
      ∃ n, nextBuffer p.buffers x = some n ∧ OnHeader n (pageAddr p k)) ↔
      p.pages k = true ∧ ¬ Needed (setBuffers p l) (pageAddr p k) := by
    intro k
    have aligned := pageAddrAligned placed k
    rw [paged k,needed]
    constructor
    · rintro ⟨here,alone⟩
      exact ⟨.inr here,fun bad => alone (sharedPage inserted tiled aligned here bad freePrev)⟩
    · rintro ⟨old | here,free⟩
      · exact (free old).elim
      refine ⟨here,?_⟩
      rintro (onPrev | ⟨n,next,onNext⟩)
      · exact free (.inl ⟨prev,inserted.here,onPrev⟩)
      · exact free (.inl ⟨n,nextMember (inserted.behind ▸ next),onNext⟩)
  have gone := fun k => (deletedRange before behind (pageAddrAligned placed k)).trans (lone k)
  simp only [binderDeleteFreeBuffer,inserted.prev,freePrev,Bool.true_eq_false,if_false,inserted.erase]
  generalize freePageStart prev x (nextBuffer p.buffers x) = freeStart at *
  generalize freePageEnd prev x (nextBuffer p.buffers x) = freeEnd at *
  have stay : ∀ k, Needed (setBuffers p l) (pageAddr p k) → p.pages k = true :=
    fun k here => (paged k).mpr ((needed _).mpr (.inl here))
  split
  · rename_i chosen
    simp only [chosen,true_and] at gone
    have low := bufferLow tiled memX
    have aligned := placed.aligned
    obtain ⟨pages,ok,updated,left⟩ := giveBack (p := setBuffers p l)
      ⟨placed.positive,placed.aligned,placed.whole⟩
      (if freeStart then bufferStartPage x else bufferEndPage x)
      ((if freeEnd then bufferEndPage x else bufferStartPage x) + pageSize) env
      (by simp only [bufferStartPage,bufferEndPage,pageMask,pageSize]; split <;> omega)
      (by simp only [bufferStartPage,bufferEndPage,pageMask,pageSize]; split <;> omega)
      (by
        simp only [bufferStartPage,bufferEndPage,pageMask,pageSize,headerSize,setBuffers_buffer] at *
        split <;> omega)
      (by
        simp only [bufferStartPage,bufferEndPage,pageMask,pageSize,setBuffers_buffer] at *
        split <;> omega)
      fun k above below => ((gone k).mp ⟨above,below⟩).1
    refine ⟨pages,by rw [updated]; rfl,?_⟩
    intro k
    have out := (left k).trans (and_congr_right' (not_congr (gone k)))
    constructor
    · intro present
      by_contra bad
      exact (out.mp present).2 ⟨(out.mp present).1,bad⟩
    · intro here
      exact out.mpr ⟨stay k here,fun bad => bad.2 here⟩
  · rename_i empty
    refine ⟨p.pages,rfl,?_⟩
    intro k
    refine ⟨?_,stay k⟩
    intro present
    by_contra bad
    exact empty ((gone k).mpr ⟨present,bad⟩).1

structure Loose (p : Proc) (b : Nat) : Prop where
  shape : Shape p (some b)
  room : Room p
  placed : Placed p
  paged : Paged p
  mem : b ∈ p.buffers
  free : (p.header b).free = true

theorem mergedLoose {l hole prev x} (loose : Loose p hole) (inserted : Inserted l p.buffers prev x)
    (freePrev : (p.header prev).free = true) {t} (shape : Shape (setFreeBuffers (setBuffers p l) t) (some prev))
    (pages : Nat → Bool) (paged : Paged (setPages (setBuffers p l) pages)) :
    Loose (setFreeBuffers (setPages (setBuffers p l) pages) t) prev := by
  refine ⟨pagesShape shape pages,?_,?_,paged,inserted.here,freePrev⟩
  · intro y hy taken
    have other := takenNe freePrev taken
    have size : binderBufferSize (setBuffers p l) y = binderBufferSize p y := by
      rw [bufferSizeRegion,deletedRegion inserted hy other,bufferSizeRegion]
    exact size ▸ loose.room y ((inserted.members y).mpr (.inl hy)) taken
  · exact ⟨loose.placed.positive,loose.placed.aligned,loose.placed.whole⟩

theorem mergeNextLoose (loose : Loose p b) (env : Env) : ∃ q, mergeNext p b env = some q ∧ Loose q b ∧ Alike p q ∧
      ∀ y, nextBuffer q.buffers b = some y → (q.header y).free = false := by
  unfold mergeNext
  split
  · rename_i last
    exact ⟨p,rfl,loose,.refl p,fun y next => by simp [last] at next⟩
  rename_i n next
  split
  · rename_i freeN
    obtain ⟨l,inserted⟩ := insertedNext loose.shape.spaced loose.mem next
    have memN := nextMember next
    have notB : b ≠ n := fun same => inserted.fresh (same ▸ inserted.here)
    obtain ⟨t,erased,holds⟩ := holdsErase loose.shape.free ⟨memN,freeN,by simpa using notB⟩
    obtain ⟨pages,deleted,paged⟩ := deletePaged (p := setFreeBuffers p t) inserted
      ⟨loose.shape.first,loose.shape.spaced,loose.shape.fits⟩
      ⟨loose.placed.positive,loose.placed.aligned,loose.placed.whole⟩ loose.paged loose.free freeN env
    have shape := mergedShape inserted loose.shape (.inl rfl) loose.free freeN
      (holdsSame holds fun y => by simp [and_assoc,eq_comm (a := b)])
    have merged := mergedLoose loose inserted loose.free shape pages paged
    have commute : setPages (setBuffers (setFreeBuffers p t) l) pages =
      setFreeBuffers (setPages (setBuffers p l) pages) t := rfl
    refine ⟨setFreeBuffers _ t,by simp [erased,deleted,commute],merged,insertedAlike inserted freeN pages t,?_⟩
    intro y behind
    have old := inserted.behind.trans behind
    by_contra bad
    have apart := loose.shape.apart n memN y old freeN (by simpa using bad)
    have notY : b ≠ y := by
      have above := nextAbove merged.shape.toTiled merged.mem behind
      simp only [headerSize] at above
      omega
    exact apart.elim (fun same => notB (some.inj same)) fun same => notY (some.inj same)
  · rename_i taken
    refine ⟨p,rfl,loose,.refl p,?_⟩
    intro y behind
    cases some.inj (next.symm.trans behind)
    simpa using taken

theorem mergePrevLoose (loose : Loose p b) (env : Env)
    (next : ∀ y, nextBuffer p.buffers b = some y → (p.header y).free = false) :
    ∃ out, mergePrev p b env = some out ∧ Loose out.1 out.2 ∧ Alone out.1 out.2 ∧ Alike p out.1 := by
  have before : ∀ x ∈ p.buffers, nextBuffer p.buffers x = some b → prevBuffer p.buffers b = some x := by
    intro x hx ahead
    obtain ⟨l,inserted⟩ := insertedNext loose.shape.spaced hx ahead
    exact inserted.prev
  unfold mergePrev
  split
  · rename_i first
    refine ⟨_,rfl,loose,⟨next,?_⟩,.refl p⟩
    intro x hx ahead
    simp [first] at before
    exact (before x hx ahead).elim
  rename_i prev here
  split
  · rename_i freePrev
    obtain ⟨l,inserted⟩ := insertedPrev loose.shape.spaced loose.mem here
    have memPrev := (inserted.members prev).mpr (.inl inserted.here)
    have notB : b ≠ prev := fun same => inserted.fresh (same ▸ inserted.here)
    obtain ⟨t,erased,holds⟩ := holdsErase loose.shape.free ⟨memPrev,freePrev,by simpa using notB⟩
    obtain ⟨pages,deleted,paged⟩ := deletePaged inserted loose.shape.toTiled loose.placed loose.paged freePrev
      loose.free env
    have shape := mergedShape inserted loose.shape (.inr rfl) freePrev loose.free
      (holdsSame holds fun y => by simp only [ne_eq,some_inj,eq_comm]; tauto)
    have merged := mergedLoose loose inserted freePrev shape pages paged
    refine ⟨(setFreeBuffers (setPages (setBuffers p l) pages) t,prev),by simp [erased,deleted],merged,⟨?_,?_⟩,insertedAlike inserted loose.free pages t⟩
    · intro y behind
      exact next y (inserted.behind.trans behind)
    · intro z hz ahead
      have other : z ≠ prev := by
        have above := nextAbove merged.shape.toTiled hz ahead
        simp only [headerSize] at above
        omega
      have old := (inserted.following z hz other).trans ahead
      by_contra bad
      have apart := loose.shape.apart z ((inserted.members z).mpr (.inl hz)) prev old (by simpa using bad) freePrev
      rcases apart with same | same
      · exact inserted.fresh (some.inj same ▸ hz)
      · exact notB (some.inj same)
  · rename_i taken
    refine ⟨_,rfl,loose,⟨next,?_⟩,.refl p⟩
    intro x hx ahead
    cases some.inj (here.symm.trans (before x hx ahead))
    simpa using taken

theorem releaseLoose (sound : Sound p) (mem : b ∈ p.buffers) (taken : (p.header b).free = false) (env : Env) :
    ∃ pages ok t, binderUpdatePageRange p false (pageAlign (b + headerSize))
        (pageMask (b + headerSize + binderBufferSize p b)) none env = some (setPages p pages,ok) ∧
      eraseElem b p.allocatedBuffers = some t ∧
      Loose (setHeader (setAllocatedBuffers (setPages p pages) t) b ((p.header b).setFree true)) b := by
  have low := bufferLow sound.shape.toTiled mem
  have region := regionRoom sound.shape.toTiled mem
  have aligned := sound.placed.aligned
  have data : ∀ k, (pageAlign (b + headerSize) ≤ pageAddr p k ∧ pageAddr p k < pageMask (regionEnd p b)) ↔
      OnData b (regionEnd p b) (pageAddr p k) := by
    intro k
    have page := pageAddrAligned sound.placed k
    simp only [OnData,pageMask,pageSize] at *
    omega
  rw [regionSize sound.shape.toTiled mem]
  obtain ⟨pages,ok,updated,present⟩ := giveBack sound.placed
    (pageAlign (b + headerSize)) (pageMask (regionEnd p b)) env
    (by simp only [pageAlign,pageSize]; omega) (by simp only [pageMask,pageSize]; omega)
    (by simp only [pageAlign,pageSize] at *; omega)
    (by simp only [pageMask,pageSize] at *; omega)
    fun k above below => (sound.paged k).mpr (.inr ⟨b,mem,taken,(data k).mp ⟨above,below⟩⟩)
  obtain ⟨t,erased,holds⟩ := holdsErase sound.shape.allocated ⟨mem,taken⟩
  refine ⟨pages,ok,t,updated,erased,?_⟩
  generalize result : setHeader (setAllocatedBuffers (setPages p pages) t) b ((p.header b).setFree true) = q
  have buffers : q.buffers = p.buffers := by simp [← result]
  have same : Same p q := by constructor <;> simp [← result]
  have own : (q.header b).free = true := by simp [← result]
  have others : ∀ y, y ≠ b → q.header y = p.header y := by
    intro y other
    simp [← result,other]
  have sizes : ∀ y, binderBufferSize q y = binderBufferSize p y := by
    intro y
    rw [bufferSizeRegion,regionCongr buffers same,bufferSizeRegion]
  refine ⟨⟨⟨?_,?_,?_⟩,?_,?_,?_⟩,?_,placedSame sound.placed same,?_,buffers ▸ mem,own⟩
  · rw [buffers,same.buffer,sound.shape.first]
  · exact buffers ▸ sound.shape.spaced
  · rw [buffers,same.buffer,same.bufferSize]
    exact sound.shape.fits
  · have tree : q.freeBuffers = p.freeBuffers := by simp [← result]
    rw [tree]
    refine holdsCongr sound.shape.free ?_ fun x y _ _ order => by rwa [sizes,sizes]
    intro y
    by_cases here : y = b
    · simp [here,taken]
    · simp [buffers,others y here,Ne.symm here]
  · have tree : q.allocatedBuffers = t := by simp [← result]
    rw [tree]
    refine holdsSame holds ?_
    intro y
    by_cases here : y = b
    · simp [here,own]
    · simp [buffers,others y here,here]
  · intro x hx y next freeX freeY
    by_cases hereX : x = b
    · exact .inl (by rw [hereX])
    by_cases hereY : y = b
    · exact .inr (by rw [hereY])
    rw [others x hereX] at freeX
    rw [others y hereY] at freeY
    rw [buffers] at hx next
    have := sound.shape.apart x hx y next freeX freeY
    simp at this
  · intro y hy stillTaken
    have other := takenNe own stillTaken
    rw [others y other] at stillTaken ⊢
    rw [sizes]
    exact sound.room y (buffers ▸ hy) stillTaken
  · intro k
    have page := pageAddrAligned sound.placed k
    have address : pageAddr q k = pageAddr p k := by rw [pageAddr,same.buffer,pageAddr]
    have table : q.pages k = pages k := by simp [← result]
    have region := regionCongr buffers same
    rw [table,present,data,sound.paged k,address]
    constructor
    · rintro ⟨⟨y,hy,here⟩ | ⟨y,hy,stillTaken,here⟩,free⟩
      · exact .inl ⟨y,buffers ▸ hy,here⟩
      · have other : y ≠ b := by
          rintro rfl
          exact free here
        exact .inr ⟨y,buffers ▸ hy,by rw [others y other,stillTaken],by rwa [region]⟩
    · rintro (⟨y,hy,here⟩ | ⟨y,hy,stillTaken,here⟩)
      · rw [buffers] at hy
        exact ⟨.inl ⟨y,hy,here⟩,fun bad => (dataAlone sound.shape.toTiled mem page bad).1 y hy here⟩
      · have other := takenNe own stillTaken
        rw [others y other] at stillTaken
        rw [buffers] at hy
        rw [region] at here
        exact ⟨.inr ⟨y,hy,stillTaken,here⟩,fun bad => other ((dataAlone sound.shape.toTiled mem page bad).2 y hy here)⟩

theorem requestRounded (d o : Nat) : requestSize d o ≤ roundUp d + roundUp o := by
  simp only [requestSize,alignPtr,roundUp,word]
  omega

theorem freeSound (sound : Sound p) (mem : b ∈ p.buffers)
    (taken : (p.header b).free = false) (done : (p.header b).transaction = false) (env : Env) :
    ∃ q, binderFreeBuf p b env = some q ∧ Sound q ∧ (Quota p → Quota q) := by
  have room := le_trans (requestRounded _ _) (sound.room b mem taken)
  have low := bufferLow sound.shape.toTiled mem
  have high := sound.shape.fits b mem
  have checks : ¬ ((p.header b).free = true ∨
      binderBufferSize p b < requestSize (p.header b).dataSize (p.header b).offsetsSize ∨
      (p.header b).transaction = true ∨ b < p.buffer ∨ p.buffer + p.bufferSize < b) := by
    simp only [taken,done,Bool.false_eq_true,false_or]
    omega
  have charged : (if (p.header b).asyncTransaction = true then setFreeAsyncSpace p ((p.freeAsyncSpace +
      requestSize (p.header b).dataSize (p.header b).offsetsSize + headerSize) % word) else p) =
      setFreeAsyncSpace p (refund p b) := by
    unfold refund
    split <;> rfl
  have refunded : Sound (setFreeAsyncSpace p (refund p b)) :=
    soundCongr sound ⟨rfl,rfl⟩ rfl rfl rfl (fun _ => rfl) (fun _ => rfl) fun _ => ⟨rfl,rfl⟩
  obtain ⟨pages,ok,t,updated,erased,loose⟩ := releaseLoose refunded mem taken env
  obtain ⟨q,mergedNext,loose,alike,next⟩ := mergeNextLoose loose env
  obtain ⟨⟨r,c⟩,mergedPrev,loose,alone,alike'⟩ := mergePrevLoose loose env next
  obtain ⟨tf,put,shape⟩ := insertFreeShape loose.shape loose.mem loose.free alone
  refine ⟨_,?_,⟨shape,loose.room,placedSame loose.placed ⟨rfl,rfl⟩,loose.paged⟩,?_⟩
  · change binderUpdatePageRange _ false (pageAlign (b + headerSize)) (pageMask (b + headerSize + binderBufferSize p b)) _ _ = _ at updated
    simp only [binderFreeBuf,if_neg checks,charged,updated,bind,bind_some,
      setPages_allocatedBuffers,erased,setPages_header,mergedNext,mergedPrev]
    exact put
  · have whole := alike.trans alike'
    exact freedQuota sound.shape.toTiled shape.spaced mem taken
      ⟨whole.size,whole.space,whole.header,whole.listed⟩

end EclairKernel.Arena
