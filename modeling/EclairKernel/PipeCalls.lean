import EclairKernel.Pipe
import EclairKernel.RingBuffer

/-! What is in a pipe, as one sequence of bytes: the filled buffers in ring order. A stretch of
a write appends to it, a stretch of a read takes from its front. -/
namespace EclairKernel.Pipe
open RingBuffer Function List Nat

section
variable {pages page off data}

@[simp] theorem readPageLength (pages : Nat → Nat → UInt8) (page off len : Nat) : (readPage pages page off len).length = len := by
  simp [readPage]

theorem readPageAppend (m n : Nat) : readPage pages page off (m + n) = readPage pages page off m ++ readPage pages page (off + m) n := by
  simp only [readPage,range_add,map_append,map_map,Function.comp_def,Nat.add_assoc]

theorem readPageOther {p} (other : p ≠ page) (o len : Nat) :
    readPage (writePage pages page off data) p o len = readPage pages p o len := by
  simp [readPage,writePage,other]

theorem readPageBelow {o len} (below : o + len ≤ off) :
    readPage (writePage pages page off data) page o len = readPage pages page o len := by
  refine map_congr_left fun i inside => ?_
  have small := mem_range.mp inside
  exact if_neg (by omega)

theorem readPageWritten : readPage (writePage pages page off data) page off data.length = data := by
  apply ext_getElem (by simp)
  intro i h small
  simp [readPage,writePage,small]

end

theorem copyFromUser {iov len} (enough : len ≤ iov.flatten.length) :
    ∃ data iov', pipeIovCopyFromUser iov len = some (data,iov') ∧ data.length = len ∧ iov.flatten = data ++ iov'.flatten := by
  induction iov generalizing len with
  | nil =>
    cases len with
    | zero => exact ⟨[],[],rfl,rfl,rfl⟩
    | succ len => simp at enough
  | cons seg iov ih =>
    cases len with
    | zero => exact ⟨[],seg::iov,rfl,rfl,rfl⟩
    | succ len =>
      simp only [flatten_cons,length_append] at enough
      obtain ⟨data,iov',copied,count,split⟩ := ih (show len + 1 - min (len + 1) seg.length ≤ iov.flatten.length by omega)
      refine ⟨seg.take (min (len + 1) seg.length) ++ data,seg.drop (min (len + 1) seg.length) :: iov',?_,?_,?_⟩
      · simp [pipeIovCopyFromUser,copied]
      · rw [length_append,length_take]
        omega
      · rcases le_total (len + 1) seg.length with within | whole
        · -- the copy ends in this segment
          have none : data = [] := length_eq_zero_iff.mp (by omega)
          rw [flatten_cons,flatten_cons,split,none,append_nil,nil_append,← append_assoc,take_append_drop]
        · rw [flatten_cons,flatten_cons,split,min_eq_right whole,take_length,drop_length,nil_append,
            append_assoc]

def Filled : List Segment → Prop
  | [] => True
  | seg::iov => if seg.len = 0 then Filled iov else ∀ s ∈ iov, s.got = []

def got (iov : List Segment) : List UInt8 := iov.flatMap Segment.got
def room (iov : List Segment) : Nat := (iov.map Segment.len).sum

variable {iov}

theorem gotNothing (none : ∀ s ∈ iov, s.got = []) : got iov = [] := flatMap_eq_nil_iff.mpr none

theorem filledNothing (none : ∀ s ∈ iov, s.got = []) : Filled iov := by
  induction iov with
  | nil => trivial
  | cons seg iov ih =>
    have later : ∀ s ∈ iov, s.got = [] := fun s mem => none s (mem_cons_of_mem seg mem)
    unfold Filled
    split
    · exact ih later
    · exact later

theorem copyToUser {data} (filled : Filled iov) (enough : data.length ≤ room iov) :
    ∃ iov', pipeIovCopyToUser iov data = some iov' ∧ Filled iov' ∧ got iov' = got iov ++ data ∧ room iov' + data.length = room iov := by
  induction iov generalizing data with
  | nil =>
    cases data with
    | nil => exact ⟨[],rfl,trivial,rfl,rfl⟩
    | cons b data => simp [room] at enough
  | cons seg iov ih =>
    cases data with
    | nil => exact ⟨seg::iov,rfl,filled,(append_nil _).symm,rfl⟩
    | cons b data =>
      generalize whole : b::data = all at *
      have step : pipeIovCopyToUser (seg::iov) all = (pipeIovCopyToUser iov (all.drop (min all.length seg.len))).map
          (⟨seg.got ++ all.take (min all.length seg.len),seg.len - min all.length seg.len⟩ :: ·) := by
        rw [← whole]
        rfl
      generalize cut : min all.length seg.len = n at step
      have rooms : room (seg::iov) = seg.len + room iov := sum_cons
      have later : Filled iov := by
        unfold Filled at filled
        split at filled
        · exact filled
        · exact filledNothing filled
      have fits : (all.drop n).length ≤ room iov := by
        rw [length_drop]
        omega
      obtain ⟨iov',copied,filled',gots,rest⟩ := ih later fits
      rw [length_drop] at rest
      refine ⟨⟨seg.got ++ all.take n,seg.len - n⟩ :: iov',by rw [step,copied]; rfl,?_,?_,?_⟩
      · unfold Filled
        dsimp only
        split
        · exact filled'
        -- the copy ended here, so the later segments got nothing
        have whole' : all.drop n = [] := drop_eq_nil_of_le (by omega)
        have untouched : iov' = iov := by
          rw [whole'] at copied
          cases iov <;> exact (Option.some.inj copied).symm
        have some : seg.len ≠ 0 := by omega
        unfold Filled at filled
        rw [if_neg some] at filled
        rw [untouched]
        exact filled
      · have head : got (seg::iov) = seg.got ++ got iov := flatMap_cons
        have cell : got (⟨seg.got ++ all.take n,seg.len - n⟩ :: iov') = (seg.got ++ all.take n) ++ got iov' := flatMap_cons
        rw [head,cell,gots]
        rcases Nat.eq_zero_or_pos seg.len with empty | some
        · obtain rfl : n = 0 := by omega
          rw [take_zero,drop_zero,append_nil,append_assoc]
        · unfold Filled at filled
          rw [if_neg (ne_of_gt some)] at filled
          rw [gotNothing filled,nil_append,append_nil,append_assoc,take_append_drop]
      · have cell : room (⟨seg.got ++ all.take n,seg.len - n⟩ :: iov') = seg.len - n + room iov' := sum_cons
        omega

def PipeInode.live (pipe : PipeInode) : List PipeBuffer := slice pipe.bufs PIPE_BUFFERS pipe.curbuf pipe.nrbufs
def bufBytes (pages : Nat → Nat → UInt8) (b : PipeBuffer) : List UInt8 := readPage pages b.page b.offset b.len
def PipeInode.contents (pipe : PipeInode) : List UInt8 := pipe.live.flatMap (bufBytes pipe.pages)
def PipeInode.held (pipe : PipeInode) : List Nat := pipe.live.map PipeBuffer.page ++ pipe.tmpPage.toList

structure Inv (pipe : PipeInode) : Prop where
  cur : pipe.curbuf < PIPE_BUFFERS
  room : pipe.nrbufs ≤ PIPE_BUFFERS
  sizes : ∀ b ∈ pipe.live, 0 < b.len ∧ b.offset + b.len ≤ PAGE_SIZE
  pages : pipe.held.Nodup
  stream : pipe.stored = pipe.taken ++ pipe.contents

variable {pipe : PipeInode} {page data alloc alloc'}

theorem ringMask (n : Nat) : n &&& (PIPE_BUFFERS - 1) = n % PIPE_BUFFERS := and_two_pow_sub_one_eq_mod n 4

theorem insertLive (free : pipe.nrbufs < PIPE_BUFFERS) (page : Nat) (data : List UInt8) :
    (pipe.insert page data).live = pipe.live ++ [⟨page,0,data.length⟩] := by
  unfold PipeInode.insert PipeInode.live
  rw [ringMask]
  exact slicePush free _

theorem mergeLive (some : pipe.nrbufs ≠ 0) (room : pipe.nrbufs ≤ PIPE_BUFFERS) (data : List UInt8) :
    ∃ front, pipe.live = front ++ [pipe.bufs pipe.lastbuf] ∧
      (pipe.merge data).live = front ++ [{ pipe.bufs pipe.lastbuf with len := (pipe.bufs pipe.lastbuf).len + data.length }] := by
  obtain ⟨n,count⟩ := exists_eq_succ_of_ne_zero some
  have last : pipe.lastbuf = (pipe.curbuf + n) % PIPE_BUFFERS := by
    rw [PipeInode.lastbuf,ringMask,count]
    rfl
  refine ⟨slice pipe.bufs PIPE_BUFFERS pipe.curbuf n,?_,?_⟩
  · rw [PipeInode.live,count,last]
    exact sliceLast n
  · unfold PipeInode.merge PipeInode.live
    rw [count,last]
    exact slicePush (by omega) _

theorem consumeLive (some : pipe.nrbufs ≠ 0) (room : pipe.nrbufs ≤ PIPE_BUFFERS) (cur : pipe.curbuf < PIPE_BUFFERS) (chars : Nat) :
    ∃ rest, pipe.live = pipe.bufs pipe.curbuf :: rest ∧
      (pipe.consume chars).live = if (pipe.bufs pipe.curbuf).len - chars = 0 then rest else
        { pipe.bufs pipe.curbuf with
          offset := (pipe.bufs pipe.curbuf).offset + chars, len := (pipe.bufs pipe.curbuf).len - chars } :: rest := by
  obtain ⟨n,count⟩ := exists_eq_succ_of_ne_zero some
  have here := mod_eq_of_lt cur
  have head (x : PipeBuffer) : slice (update pipe.bufs pipe.curbuf x) PIPE_BUFFERS pipe.curbuf (n + 1) =
      x :: slice pipe.bufs PIPE_BUFFERS (pipe.curbuf + 1) n := by
    have set : slice (update pipe.bufs (pipe.curbuf % PIPE_BUFFERS) x) PIPE_BUFFERS pipe.curbuf (n + 1) = _ :=
      sliceSetHead (by omega) x
    rwa [here] at set
  refine ⟨slice pipe.bufs PIPE_BUFFERS (pipe.curbuf + 1) n,?_,?_⟩
  · rw [PipeInode.live,count,sliceHead,here]
  · unfold PipeInode.consume PipeInode.live
    dsimp only
    split
    · rw [ringMask,sliceMod,count]
      have tail := head { pipe.bufs pipe.curbuf with
          offset := (pipe.bufs pipe.curbuf).offset + chars, len := (pipe.bufs pipe.curbuf).len - chars }
      rw [sliceHead] at tail
      exact (List.cons.inj tail).2
    · rw [count]
      exact head _

theorem takePageHeld (taken : takePage pipe.tmpPage alloc = some (page,alloc')) :
    pipe.held ++ alloc = pipe.live.map PipeBuffer.page ++ page :: alloc' := by
  unfold PipeInode.held
  cases tmp : pipe.tmpPage with
  | some p =>
    rw [tmp] at taken
    cases taken
    rw [append_assoc]
    rfl
  | none =>
    rw [tmp] at taken
    cases alloc with
    | nil => cases taken
    | cons p rest =>
      cases taken
      rw [Option.toList_none,append_nil]

theorem Inv.insert (inv : Inv pipe) (free : pipe.nrbufs < PIPE_BUFFERS) (fresh : (pipe.held ++ alloc).Nodup)
    (taken : takePage pipe.tmpPage alloc = some (page,alloc')) (some : 0 < data.length) (fits : data.length ≤ PAGE_SIZE) :
    Inv (pipe.insert page data) ∧ ((pipe.insert page data).held ++ alloc').Nodup := by
  have live := insertLive free page data
  rw [takePageHeld taken] at fresh
  have held : (pipe.insert page data).held = pipe.live.map PipeBuffer.page ++ [page] := by
    rw [PipeInode.held,live,map_append]
    exact append_nil _
  have apart : ∀ b ∈ pipe.live, b.page ≠ page := fun b mem same =>
    (nodup_append.mp fresh).2.2 _ (mem_map_of_mem mem) _ mem_cons_self same
  have kept : pipe.live.flatMap (bufBytes (pipe.insert page data).pages) = pipe.contents :=
    flatMap_congr fun b mem => readPageOther (apart b mem) ..
  have fresh' : ((pipe.insert page data).held ++ alloc').Nodup := by
    rw [held,append_assoc]
    exact fresh
  refine ⟨⟨inv.cur,free,?_,(nodup_append.mp fresh').1,?_⟩,fresh'⟩
  · intro b mem
    rw [live] at mem
    rcases mem_append.mp mem with old | new
    · exact inv.sizes b old
    · rw [mem_singleton.mp new]
      exact ⟨some,by simpa using fits⟩
  · have written : bufBytes (pipe.insert page data).pages ⟨page,0,data.length⟩ = data := readPageWritten
    rw [PipeInode.contents,live,flatMap_append,kept,flatMap_singleton,written]
    show pipe.stored ++ data = _
    rw [inv.stream,append_assoc]
    rfl

theorem Inv.merge (inv : Inv pipe) (filled : pipe.nrbufs ≠ 0) (fresh : (pipe.held ++ alloc).Nodup)
    (fits : (pipe.bufs pipe.lastbuf).offset + (pipe.bufs pipe.lastbuf).len + data.length ≤ PAGE_SIZE) :
    Inv (pipe.merge data) ∧ ((pipe.merge data).held ++ alloc).Nodup := by
  obtain ⟨front,live,live'⟩ := mergeLive filled inv.room data
  have pages : (pipe.merge data).live.map PipeBuffer.page = pipe.live.map PipeBuffer.page := by
    rw [live,live',map_append,map_append]
    rfl
  have held : (pipe.merge data).held = pipe.held := congrArg (· ++ pipe.tmpPage.toList) pages
  rw [← held] at fresh
  have apart : ∀ b ∈ front, b.page ≠ (pipe.bufs pipe.lastbuf).page := by
    have once := (nodup_append.mp inv.pages).1
    rw [live,map_append] at once
    exact fun b mem same => (nodup_append.mp once).2.2 _ (mem_map_of_mem mem) _ mem_cons_self same
  have kept : front.flatMap (bufBytes (pipe.merge data).pages) = front.flatMap (bufBytes pipe.pages) :=
    flatMap_congr fun b mem => readPageOther (apart b mem) ..
  refine ⟨⟨inv.cur,inv.room,?_,(nodup_append.mp fresh).1,?_⟩,fresh⟩
  · intro b mem
    rw [live'] at mem
    rcases mem_append.mp mem with old | new
    · exact inv.sizes b (live ▸ mem_append_left _ old)
    · have last := inv.sizes (pipe.bufs pipe.lastbuf) (live ▸ mem_append_right _ mem_cons_self)
      rw [mem_singleton.mp new]
      exact ⟨Nat.add_pos_left last.1 _,by dsimp only; omega⟩
  · have grown : bufBytes (pipe.merge data).pages
        { pipe.bufs pipe.lastbuf with len := (pipe.bufs pipe.lastbuf).len + data.length } =
        bufBytes pipe.pages (pipe.bufs pipe.lastbuf) ++ data := by
      unfold bufBytes
      rw [readPageAppend]
      exact congrArg₂ (· ++ ·) (readPageBelow le_rfl) readPageWritten
    have before := inv.stream
    rw [PipeInode.contents,live,flatMap_append,flatMap_singleton] at before
    rw [PipeInode.contents,live',flatMap_append,kept,flatMap_singleton,grown]
    show pipe.stored ++ data = _
    rw [before,append_assoc,append_assoc]
    rfl

theorem consumeBytes (pipe : PipeInode) (chars : Nat) :
    (pipe.consume chars).stored = pipe.stored ∧ (pipe.consume chars).pages = pipe.pages ∧
    (pipe.consume chars).taken = pipe.taken ++ readPage pipe.pages (pipe.bufs pipe.curbuf).page (pipe.bufs pipe.curbuf).offset chars := by
  unfold PipeInode.consume
  dsimp only
  split <;> exact ⟨rfl,rfl,rfl⟩

theorem consumeRing (cur : pipe.curbuf < PIPE_BUFFERS) (chars : Nat) : (pipe.consume chars).curbuf < PIPE_BUFFERS ∧
    (pipe.consume chars).nrbufs = pipe.nrbufs - (if (pipe.bufs pipe.curbuf).len - chars = 0 then 1 else 0) ∧
    (pipe.consume chars).tmpPage =
      if (pipe.bufs pipe.curbuf).len - chars = 0 then pipe.tmpPage.or (some (pipe.bufs pipe.curbuf).page) else pipe.tmpPage := by
  unfold PipeInode.consume
  dsimp only
  split
  · exact ⟨lt_of_le_of_lt and_le_right (by decide),rfl,rfl⟩
  · exact ⟨cur,rfl,rfl⟩

theorem Inv.consume (inv : Inv pipe) (filled : pipe.nrbufs ≠ 0) {chars} (within : chars ≤ (pipe.bufs pipe.curbuf).len) :
    Inv (pipe.consume chars) := by
  obtain ⟨rest,live,live'⟩ := consumeLive filled inv.room inv.cur chars
  obtain ⟨stored,pages,taken⟩ := consumeBytes pipe chars
  obtain ⟨cur,count,tmp⟩ := consumeRing inv.cur chars
  have first := inv.sizes (pipe.bufs pipe.curbuf) (live ▸ mem_cons_self)
  have before := inv.stream
  have once := inv.pages
  rw [PipeInode.contents,live,flatMap_cons,bufBytes,← Nat.add_sub_cancel' within,readPageAppend,append_assoc,← append_assoc,
    ← taken,← stored,← pages] at before
  rw [PipeInode.held,live] at once
  refine ⟨cur,count ▸ le_trans (sub_le ..) inv.room,fun b mem => ?_,?_,?_⟩
  · rw [live'] at mem
    split at mem
    · exact inv.sizes b (live ▸ mem_cons_of_mem _ mem)
    · rcases mem_cons.mp mem with rfl | old
      · exact ⟨Nat.pos_of_ne_zero ‹_›,by dsimp only; omega⟩
      · exact inv.sizes b (live ▸ mem_cons_of_mem _ old)
  · rw [PipeInode.held,live',tmp]
    split
    · -- the released page is kept, or the one kept before
      cases kept : pipe.tmpPage with
      | none =>
        rw [kept] at once
        exact (perm_append_singleton _ _).nodup_iff.mpr (by simpa using once)
      | some p =>
        rw [kept] at once
        exact (nodup_cons.mp once).2
    · exact once
  · rw [before,PipeInode.contents,live']
    split
    · rename_i empty
      rw [empty]
      rfl
    · rfl

/-! One stretch of a write, and one of a read: what enters the stream is what leaves the
writer's iovec, what is taken is what the reader gets, and no loop or copy goes too far. -/

def Ended (n : Nat) : Result → Prop
  | .ret m => m = n
  | .error _ => n = 0

theorem endedOrError (ret : Nat) (e : Errno) : Ended ret (orError ret e) := by
  unfold orError
  split
  · assumption
  · rfl

structure Entered (pipe : PipeInode) (data : List UInt8) (pipe' : PipeInode) : Prop where
  inv : Inv pipe'
  stored : pipe'.stored = pipe.stored ++ data
  taken : pipe'.taken = pipe.taken

structure Ready (w : Writer) : Prop where
  total : w.totalLen = w.iov.flatten.length
  some : 0 < w.totalLen

def WriteOk (w : Writer) (pipe : PipeInode) : Outcome Writer × PipeInode → Prop
  | (.done res w',pipe') => ∃ data, Entered pipe data pipe' ∧ w.iov.flatten = data ++ w'.iov.flatten ∧
      Ended (w.ret + data.length) res ∧ (w.totalLen ≤ PIPE_BUF → data = [] ∨ data = w.iov.flatten)
  | (.wait w',pipe') => ∃ data, Entered pipe data pipe' ∧ w.iov.flatten = data ++ w'.iov.flatten ∧
      Ready w' ∧ w'.ret = w.ret + data.length ∧ (w.totalLen ≤ PIPE_BUF → data = [])
  | (.fault,_) => False

section
variable {w pipe' pipe'' data'}

theorem Entered.nothing (inv : Inv pipe) : Entered pipe [] pipe := ⟨inv,(append_nil _).symm,rfl⟩

theorem Entered.trans (first : Entered pipe data pipe') (second : Entered pipe' data' pipe'') : Entered pipe (data ++ data') pipe'' :=
  ⟨second.inv,by rw [second.stored,first.stored,append_assoc],second.taken.trans first.taken⟩

theorem writeDone (inv : Inv pipe) (e : Errno) : WriteOk w pipe (.done (orError w.ret e) w,pipe) :=
  ⟨[],.nothing inv,rfl,endedOrError w.ret e,fun _ => .inl rfl⟩

theorem writeFullOk (inv : Inv pipe) (ready : Ready w) (signal : Bool) : WriteOk w pipe (writeFull signal w pipe) := by
  unfold writeFull
  split
  · exact writeDone inv _
  split
  · exact writeDone inv _
  · exact ⟨[],⟨⟨inv.cur,inv.room,inv.sizes,inv.pages,inv.stream⟩,(append_nil _).symm,rfl⟩,rfl,ready,rfl,fun _ => rfl⟩

theorem WriteOk.after {iov chars r} (first : Entered pipe data pipe')
    (split : w.iov.flatten = data ++ iov.flatten) (count : data.length = chars) (long : PIPE_BUF < w.totalLen)
    (later : WriteOk (w.advance iov chars) pipe' r) : WriteOk w pipe r := by
  obtain ⟨out,pipe''⟩ := r
  have sum (data' : List UInt8) : w.ret + chars + data'.length = w.ret + (data ++ data').length := by
    rw [← count,length_append,add_assoc]
  have split : w.iov.flatten = data ++ (w.advance iov chars).iov.flatten := split
  cases out with
  | done res w'' =>
    obtain ⟨data',second,split',ended,_⟩ := later
    refine ⟨data ++ data',first.trans second,?_,sum data' ▸ ended,fun small => absurd long (not_lt.mpr small)⟩
    rw [split,split',append_assoc]
  | wait w'' =>
    obtain ⟨data',second,split',ready,ret',_⟩ := later
    refine ⟨data ++ data',first.trans second,?_,ready,ret'.trans (sum data'),fun small => absurd long (not_lt.mpr small)⟩
    rw [split,split',append_assoc]
  | fault => exact later

theorem writeLoopOk (signal : Bool) {fuel} (enough : PIPE_BUFFERS < fuel + pipe.nrbufs) (inv : Inv pipe) (ready : Ready w)
    (fresh : (pipe.held ++ alloc).Nodup) : WriteOk w pipe (writeLoop signal fuel alloc w pipe) := by
  induction fuel generalizing alloc w pipe with
  | zero => exact absurd inv.room (by omega)
  | succ fuel ih =>
    unfold writeLoop
    split
    · exact writeDone inv _
    split
    case isFalse => exact writeFullOk inv ready signal
    case isTrue free =>
      cases page : takePage pipe.tmpPage alloc with
      | none => exact writeDone inv _
      | some found =>
        obtain ⟨p,alloc'⟩ := found
        have total := ready.total
        obtain ⟨data,iov,copied,count,split⟩ := copyFromUser (show min PAGE_SIZE w.totalLen ≤ w.iov.flatten.length by omega)
        have some : 0 < data.length := by
          rw [count]
          exact Nat.lt_min.mpr ⟨by decide,ready.some⟩
        obtain ⟨inv',fresh'⟩ := inv.insert free fresh page some (by rw [count]; exact min_le_left ..)
        have entered : Entered pipe data (pipe.insert p data) := ⟨inv',rfl,rfl⟩
        have rest : w.totalLen - min PAGE_SIZE w.totalLen = iov.flatten.length := by
          have lengths := congrArg length split
          rw [length_append] at lengths
          omega
        simp only [copied]
        split
        · rename_i all
          refine ⟨data,entered,split,congrArg (w.ret + ·) count.symm,fun _ => .inr ?_⟩
          have none := length_eq_zero_iff.mp (rest.symm.trans all)
          rw [split,none,append_nil]
        · rename_i left
          have long : PIPE_BUF < w.totalLen := by
            have page : PAGE_SIZE = PIPE_BUF := rfl
            dsimp only [Writer.advance] at left
            omega
          have ready' : Ready (w.advance iov (min PAGE_SIZE w.totalLen)) := ⟨rest,Nat.pos_of_ne_zero left⟩
          refine .after entered split count long ?_
          split
          · exact ih (by show PIPE_BUFFERS < fuel + (pipe.nrbufs + 1); omega) inv' ready' fresh'
          · exact writeFullOk inv' ready' signal

theorem writeRoundsOk (env : Env) (inv : Inv pipe) (ready : Ready w) (fresh : (pipe.held ++ env.alloc).Nodup) :
    WriteOk w pipe (writeRounds env w pipe) :=
  writeLoopOk env.signal (lt_of_lt_of_le (lt_succ_self _) (Nat.le_add_right ..)) inv ready fresh

theorem pipeWriteAgainOk (env : Env) (inv : Inv pipe) (ready : Ready w) (fresh : (pipe.held ++ env.alloc).Nodup) :
    WriteOk w pipe (pipeWriteAgain env w pipe) := by
  have inv' : Inv { pipe with waitingWriters := pipe.waitingWriters - 1 } := ⟨inv.cur,inv.room,inv.sizes,inv.pages,inv.stream⟩
  have ok := writeRoundsOk env inv' ready fresh
  unfold pipeWriteAgain
  generalize writeRounds env w { pipe with waitingWriters := pipe.waitingWriters - 1 } = r at ok ⊢
  obtain ⟨out,pipe'⟩ := r
  cases out with
  | done | wait =>
    obtain ⟨data,⟨inv,stored,taken⟩,more⟩ := ok
    exact ⟨data,⟨inv,stored,taken⟩,more⟩
  | fault => exact ok

theorem pipeWriteOk (nonblock : Bool) (iov : List (List UInt8)) (env : Env) (inv : Inv pipe) (fresh : (pipe.held ++ env.alloc).Nodup) :
    WriteOk ⟨iov,(iov.map List.length).sum,0,nonblock⟩ pipe (pipeWrite nonblock iov env pipe) := by
  have total : (iov.map length).sum = iov.flatten.length := length_flatten.symm
  unfold pipeWrite
  dsimp only
  generalize (iov.map length).sum = totalLen at *
  split
  · exact ⟨[],.nothing inv,rfl,rfl,fun _ => .inl rfl⟩
  rename_i some
  split
  · exact ⟨[],.nothing inv,rfl,rfl,fun _ => .inl rfl⟩
  split
  case isFalse => exact writeRoundsOk env inv ⟨total,Nat.pos_of_ne_zero some⟩ fresh
  case isTrue fits =>
    obtain ⟨filled,odd,fits⟩ := fits
    have mask : totalLen &&& (PAGE_SIZE - 1) = totalLen % 4096 := and_two_pow_sub_one_eq_mod totalLen 12
    rw [mask] at odd fits ⊢
    obtain ⟨data,iov',copied,count,split⟩ := copyFromUser (show totalLen % 4096 ≤ iov.flatten.length by omega)
    rw [← count] at fits
    obtain ⟨inv',fresh'⟩ := inv.merge filled fresh fits
    have entered : Entered pipe data (pipe.merge data) := ⟨inv',rfl,rfl⟩
    have rest : totalLen - totalLen % 4096 = iov'.flatten.length := by
      rw [split,length_append] at total
      omega
    simp only [copied]
    split
    · rename_i all
      refine ⟨data,entered,split,?_,fun _ => .inr ?_⟩
      · exact congrArg (0 + ·) count.symm
      · have none := length_eq_zero_iff.mp (rest.symm.trans all)
        rw [split,none,append_nil]
    · rename_i left
      refine .after entered split count ?_ (writeRoundsOk env inv' ⟨rest,Nat.pos_of_ne_zero left⟩ fresh')
      show 4096 < totalLen
      dsimp only [Writer.advance] at left
      omega

end

structure Took (pipe : PipeInode) (data : List UInt8) (pipe' : PipeInode) : Prop where
  inv : Inv pipe'
  stored : pipe'.stored = pipe.stored
  taken : pipe'.taken = pipe.taken ++ data

structure ReadReady (r : Reader) : Prop where
  filled : Filled r.iov
  total : r.totalLen = room r.iov
  some : 0 < r.totalLen

def ReadOk (r : Reader) (pipe : PipeInode) : Outcome Reader × PipeInode → Prop
  | (.done res r',pipe') => ∃ data, Took pipe data pipe' ∧ got r'.iov = got r.iov ++ data ∧ Ended (r.ret + data.length) res
  | (.wait r',pipe') => ∃ data, Took pipe data pipe' ∧ got r'.iov = got r.iov ++ data ∧ ReadReady r' ∧ r'.ret = r.ret + data.length
  | (.fault,_) => False

variable {r pipe' pipe'' data'}

theorem Took.nothing (inv : Inv pipe) : Took pipe [] pipe := ⟨inv,rfl,(append_nil _).symm⟩

theorem Took.trans (first : Took pipe data pipe') (second : Took pipe' data' pipe'') : Took pipe (data ++ data') pipe'' :=
  ⟨second.inv,second.stored.trans first.stored,by rw [second.taken,first.taken,append_assoc]⟩

theorem readDone (inv : Inv pipe) {res} (ended : Ended r.ret res) : ReadOk r pipe (.done res r,pipe) :=
  ⟨[],.nothing inv,(append_nil _).symm,ended⟩

theorem readEmptyOk (inv : Inv pipe) (ready : ReadReady r) (signal : Bool) : ReadOk r pipe (readEmpty signal r pipe) := by
  unfold readEmpty
  split
  · exact readDone inv rfl
  split
  · exact readDone inv rfl
  rename_i early
  split
  · rename_i again
    exact readDone inv (show r.ret = 0 from Decidable.not_not.mp fun some => early ⟨again.1,some⟩)
  split
  · exact readDone inv (endedOrError r.ret _)
  · exact ⟨[],.nothing inv,(append_nil _).symm,ready,rfl⟩

theorem ReadOk.after {iov chars x} (first : Took pipe data pipe')
    (gots : got iov = got r.iov ++ data) (count : data.length = chars) (later : ReadOk (r.advance iov chars) pipe' x) : ReadOk r pipe x := by
  obtain ⟨out,pipe''⟩ := x
  have sum (data' : List UInt8) : r.ret + chars + data'.length = r.ret + (data ++ data').length := by
    rw [← count,length_append,add_assoc]
  have gots : got (r.advance iov chars).iov = got r.iov ++ data := gots
  cases out with
  | done res r'' =>
    obtain ⟨data',second,gots',ended⟩ := later
    exact ⟨data ++ data',first.trans second,by rw [gots',gots,append_assoc],sum data' ▸ ended⟩
  | wait r'' =>
    obtain ⟨data',second,gots',ready,ret'⟩ := later
    exact ⟨data ++ data',first.trans second,by rw [gots',gots,append_assoc],ready,ret'.trans (sum data')⟩
  | fault => exact later

theorem readLoopOk (signal : Bool) {fuel} (enough : pipe.nrbufs < fuel) (inv : Inv pipe) (ready : ReadReady r) :
    ReadOk r pipe (readLoop signal fuel r pipe) := by
  induction fuel generalizing r pipe with
  | zero => omega
  | succ fuel ih =>
    unfold readLoop
    split
    case isFalse => exact readEmptyOk inv ready signal
    case isTrue filled =>
      have total := ready.total
      dsimp only
      generalize cut : min (pipe.bufs pipe.curbuf).len r.totalLen = chars
      have fits : (readPage pipe.pages (pipe.bufs pipe.curbuf).page (pipe.bufs pipe.curbuf).offset chars).length ≤ room r.iov := by
        rw [readPageLength]
        omega
      obtain ⟨iov,copied,filled',gots,rest⟩ := copyToUser ready.filled fits
      have inv' := inv.consume filled (cut ▸ min_le_left ..)
      obtain ⟨stored,_,taken⟩ := consumeBytes pipe chars
      obtain ⟨_,count,_⟩ := consumeRing inv.cur chars
      have took := Took.mk inv' stored taken
      rw [readPageLength] at rest
      simp only [copied]
      refine .after took gots (readPageLength ..) ?_
      split
      · exact readDone inv' rfl
      rename_i left
      dsimp only [Reader.advance] at left
      have ready' : ReadReady (r.advance iov chars) :=
        ⟨filled',by dsimp only [Reader.advance]; omega,Nat.pos_of_ne_zero left⟩
      split
      · -- the reader wants more than the buffer had, so the buffer is gone
        have gone : (pipe.bufs pipe.curbuf).len - chars = 0 := by omega
        rw [if_pos gone] at count
        exact ih (by omega) inv' ready'
      · exact readEmptyOk inv' ready' signal

theorem pipeReadAgainOk (env : Env) (inv : Inv pipe) (ready : ReadReady r) : ReadOk r pipe (pipeReadAgain env r pipe) :=
  readLoopOk env.signal (lt_succ_of_le inv.room) inv ready

theorem pipeReadOk (nonblock : Bool) (iov : List Nat) (env : Env) (inv : Inv pipe) :
    ReadOk ⟨iov.map fun len => ⟨[],len⟩,iov.sum,0,nonblock⟩ pipe (pipeRead nonblock iov env pipe) := by
  unfold pipeRead
  split
  · exact readDone inv rfl
  rename_i some
  refine pipeReadAgainOk env inv ⟨filledNothing ?_,?_,Nat.pos_of_ne_zero some⟩
  · intro s mem
    obtain ⟨len,_,rfl⟩ := mem_map.mp mem
    rfl
  · simp [room,Function.comp_def]

end EclairKernel.Pipe
