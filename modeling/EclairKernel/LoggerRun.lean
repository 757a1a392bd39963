import EclairKernel.LoggerTrace
import EclairKernel.Run

/-! Runs of whole operations on a log. In every state the readers see whole entries in
the order of the writes; what they miss was overwritten or flushed, as long as no write
pulls a reader over an entry beyond the bytes it puts down. -/
namespace EclairKernel.Logger
open List Run Function

inductive ReaderOp where
  | open (r : Nat)
  | write (h : Stamp) (segs : List Segment)
  | read (r count : Nat) (fault : ReadFault)
  | flush
  | release (r : Nat)

def readerStep (s : Traced) : ReaderOp → Traced
  | .open r => traceOpen s r
  | .write h segs => traceWrite s s.log.wOff h segs
  | .read r count fault => traceRead s r count fault
  | .flush => traceFlush s
  | .release r => traceRelease s r

def NothingSkipped (s : Traced) : ReaderOp → Prop
  | .write h segs => headerLen segs ≠ 0 → ∀ r off, s.log.readers r = some off →
      clockInterval s.log.wOff (loggerOffset s.log (s.log.wOff + (HEADER + headerLen segs))) off = true →
      LapsExactly s.log (HEADER + headerLen segs) (reach s.log h segs) off
  | _ => True

theorem stepReadable (s : Traced) (op : ReaderOp) (readable : Readable s) : Readable (readerStep s op) := by
  cases op with
  | «open» r => exact openReadable readable r
  | write h segs => exact writeReadable readable fun _ => rfl
  | read r count fault => exact readReadable readable r count fault
  | flush => exact flushReadable readable
  | release r => exact releaseReadable readable r

def NoneSkipped (s : Traced) : Prop := ∀ r off, s.log.readers r = some off → .skipped ∉ s.ledger r

theorem writeMissed {s h segs} (readable : Readable s) (kept : NoneSkipped s)
    (exactly : NothingSkipped s (.write h segs)) : NoneSkipped (traceWrite s s.log.wOff h segs) := by
  by_cases empty : headerLen segs = 0
  · rw [traceWriteEmpty empty]
    exact kept
  rw [traceWriteLocked empty]
  intro r off' here missed
  obtain ⟨off,known,_,ledger⟩ := lockedReader readable.sized here
  rw [ledger] at missed
  rcases mem_append.mp missed with old | new
  · exact kept r off known old
  · cases fatesOverwritten readable.sized (readable.reader r off known) (exactly empty r off known)
      (reachLe readable.sized h segs) _ new

section
variable {s} (kept : NoneSkipped s)
include kept

theorem openMissed (r : Nat) : NoneSkipped (traceOpen s r) := by
  unfold traceOpen
  split
  · exact kept
  intro c off here
  by_cases same : c = r
  · simp [same]
  · simp only [update_of_ne same]
    exact kept c off (by simpa [loggerOpen,same] using here)

theorem readMissed (r count : Nat) (fault : ReadFault) : NoneSkipped (traceRead s r count fault) := by
  unfold traceRead
  have outcome := readCases s.log r count fault
  generalize loggerRead s.log r count fault = out at outcome
  cases outcome with
  | nothing result plain =>
    split
    · rename_i bytes same
      exact absurd same (plain bytes)
    · exact kept
  | taken off known more =>
    intro c x here
    by_cases same : c = r
    · subst same
      simpa using kept c off known
    · simp only [update_of_ne same]
      exact kept c x (by simpa [same] using here)

theorem flushMissed : NoneSkipped (traceFlush s) := by
  intro r off here missed
  obtain ⟨old,known,_⟩ := Option.map_eq_some_iff.mp here
  rcases mem_append.mp missed with before | flushed
  · exact kept r old known before
  · cases eq_of_mem_replicate flushed

theorem releaseMissed (r : Nat) : NoneSkipped (traceRelease s r) := by
  intro c off here
  by_cases same : c = r
  · simp [traceRelease,loggerRelease,same] at here
  · exact kept c off (by simpa [traceRelease,loggerRelease,same] using here)

end

theorem stepMissed (s : Traced) (op : ReaderOp) (before : Readable s ∧ NoneSkipped s) (exactly : NothingSkipped s op) :
    Readable (readerStep s op) ∧ NoneSkipped (readerStep s op) := by
  obtain ⟨readable,kept⟩ := before
  refine ⟨stepReadable s op readable,?_⟩
  cases op with
  | «open» r => exact openMissed kept r
  | write h segs => exact writeMissed readable kept exactly
  | read r count fault => exact readMissed kept r count fault
  | flush => exact flushMissed kept
  | release r => exact releaseMissed kept r

theorem runReadersOk {size} (power : ∃ k, size = 2^k) (large : LOGGER_ENTRY_MAX_LEN < size) (ops : List ReaderOp) :
    Readable (run readerStep (emptyTrace size) ops) ∧
    (Admitted readerStep NothingSkipped (emptyTrace size) ops → NoneSkipped (run readerStep (emptyTrace size) ops)) := by
  have start := startReadable power large
  refine ⟨runAlways stepReadable start ops,fun admitted => ?_⟩
  have missed : NoneSkipped (emptyTrace size) := fun r off here => by cases here
  exact (runInvariant stepMissed ⟨start,missed⟩ admitted).2

def stamp : Stamp := ⟨0,1,1,0,0⟩

structure OneReader (s : Traced) : Prop where
  readable : Readable s
  others : ∀ r, r ≠ 1 → s.log.readers r = none

theorem oneReaderWrites {s} (h : Stamp) (segs : List Segment) (one : OneReader s) (own : ((s.log.readers 1).all fun off =>
      decide (clockInterval s.log.wOff (loggerOffset s.log (s.log.wOff + (HEADER + headerLen segs))) off →
        LapsExactly s.log (HEADER + headerLen segs) (reach s.log h segs) off)) = true) :
    NothingSkipped s (.write h segs) ∧ OneReader (readerStep s (.write h segs)) := by
  refine ⟨fun _ r off here => ?_,stepReadable s (.write h segs) one.readable,fun r other => ?_⟩
  · by_cases same : r = 1
    · rw [← same,here] at own
      exact of_decide_eq_true own
    · rw [one.others r same] at here
      cases here
  · show (traceWrite s s.log.wOff h segs).log.readers r = none
    by_cases empty : headerLen segs = 0
    · rw [traceWriteEmpty empty]
      exact one.others r other
    rw [traceWriteLocked empty,Option.eq_none_iff_forall_ne_some]
    intro off here
    obtain ⟨_,known,_⟩ := lockedReader one.readable.sized here
    rw [one.others r other] at known
    cases known

def lapOnce : List ReaderOp :=
  [.open 1,.write stamp [⟨replicate 4076 65,none⟩],.write stamp [⟨[66],none⟩,⟨[67],none⟩],.write stamp [⟨replicate 3980 68,none⟩],
   .write stamp [⟨replicate 90 69,none⟩],.read 1 64 ⟨false,false⟩]

/-- The fourth entry takes the place of the first, and the reader goes on with the second. -/
theorem lapOnceReadersOk : Readable (run readerStep (emptyTrace 8192) lapOnce) ∧ NoneSkipped (run readerStep (emptyTrace 8192) lapOnce) ∧
    (run readerStep (emptyTrace 8192) lapOnce).ledger 1 = [.overwritten,.read (entry stamp [⟨[66],none⟩,⟨[67],none⟩])] := by
  obtain ⟨readable,missed⟩ := runReadersOk ⟨13,rfl⟩ (by decide) lapOnce
  have zero : OneReader (traceOpen (emptyTrace 8192) 1) :=
    ⟨stepReadable _ (.open 1) (startReadable ⟨13,rfl⟩ (by decide)),fun r other => update_of_ne other ..⟩
  obtain ⟨first,one⟩ := oneReaderWrites stamp [⟨replicate 4076 65,none⟩] zero (by decide +kernel)
  obtain ⟨second,two⟩ := oneReaderWrites stamp [⟨[66],none⟩,⟨[67],none⟩] one (by decide +kernel)
  obtain ⟨third,three⟩ := oneReaderWrites stamp [⟨replicate 3980 68,none⟩] two (by decide +kernel)
  obtain ⟨fourth,_⟩ := oneReaderWrites stamp [⟨replicate 90 69,none⟩] three (by decide +kernel)
  exact ⟨readable,missed ⟨trivial,first,second,third,fourth,trivial,trivial⟩,by decide +kernel⟩

/-- The fourth entry takes the place of the first two and ends where the third begins; the
reader is pulled over the third as well. -/
theorem thirdEntrySkipped : ¬ NoneSkipped (run readerStep (emptyTrace 8192)
    [.open 1,.write stamp [⟨[65],none⟩],.write stamp [⟨[66],none⟩],
     .write stamp [⟨replicate 4076 67,none⟩],.write stamp [⟨replicate 4076 68,none⟩]]) := by
  intro kept
  exact kept 1 4138 (by decide +kernel) (by decide +kernel)

/-! Concurrent calls of logger_aio_write. A call reads w_off into orig when it enters, and
from the lock to its release it is one step; readers come in between. A call that fails
puts back orig, which is w_off only if nothing was written since it entered. -/

structure Shared where
  traced : Traced
  pending : Nat → Option Nat
  faults : List (Nat × Nat)

inductive WriterOp where
  | enter (w : Nat)
  | write (w : Nat) (h : Stamp) (segs : List Segment)
  | open (r : Nat)
  | read (r count : Nat) (fault : ReadFault)
  | release (r : Nat)

def finishWrite (s : Shared) (w orig : Nat) (h : Stamp) (segs : List Segment) : Shared :=
  let traced := traceWrite s.traced orig h segs
  ⟨traced,update s.pending w none,
    if headerLen segs ≠ 0 ∧ copyFails s.traced.log h segs then (s.traced.log.wOff,traced.log.wOff)::s.faults else s.faults⟩

def writerStep (s : Shared) : WriterOp → Shared
  | .enter w => {s with pending := update s.pending w (some s.traced.log.wOff)}
  | .write w h segs =>
    match s.pending w with
    | some orig => finishWrite s w orig h segs
    | none => s
  | .open r => {s with traced := traceOpen s.traced r}
  | .read r count fault => {s with traced := traceRead s.traced r count fault}
  | .release r => {s with traced := traceRelease s.traced r}

def noWriters (size : Nat) : Shared := ⟨emptyTrace size,fun _ => none,[]⟩

def Undisturbed (s : Shared) : WriterOp → Prop
  | .write w h segs => ∀ orig, s.pending w = some orig → headerLen segs ≠ 0 →
      (copyFails s.traced.log h segs = true → orig = s.traced.log.wOff) ∧
      (clockInterval s.traced.log.wOff (loggerOffset s.traced.log (s.traced.log.wOff + (HEADER + headerLen segs)))
        s.traced.log.head = true →
        LapsExactly s.traced.log (HEADER + headerLen segs) (reach s.traced.log h segs) s.traced.log.head)
  | _ => True

structure WritersOk (s : Shared) : Prop where
  restored : ∀ fault ∈ s.faults, fault.2 = fault.1
  overwritten : ∀ fate ∈ s.traced.dropped, fate = .overwritten
  between : s.traced.dropped.length ≤ s.traced.written.length ∧
    Shows s.traced.log s.traced.log.head (s.traced.written.drop s.traced.dropped.length)
  readers : ∀ r off, s.traced.log.readers r = some off →
    ∃ n ≤ s.traced.written.length, Shows s.traced.log off (s.traced.written.drop n)

section
variable {s w orig h segs}

structure Calm (s : Shared) : Prop where
  readable : Readable s.traced
  restored : ∀ fault ∈ s.faults, fault.2 = fault.1
  overwritten : ∀ fate ∈ s.traced.dropped, fate = .overwritten

theorem finishCalm (calm : Calm s) (entered : s.pending w = some orig) (undisturbed : Undisturbed s (.write w h segs)) :
    Calm (finishWrite s w orig h segs) := by
  by_cases empty : headerLen segs = 0
  · have same : traceWrite s.traced orig h segs = s.traced := traceWriteEmpty empty
    refine ⟨?_,?_,?_⟩
    · simpa [finishWrite,same] using calm.readable
    · simpa [finishWrite,empty] using calm.restored
    · simpa [finishWrite,same] using calm.overwritten
  obtain ⟨rolled,exactly⟩ := undisturbed orig entered empty
  have locked := writeLockedCases calm.readable.sized orig h segs
  have whole : traceWrite s.traced orig h segs = traceLocked s.traced orig h segs := traceWriteLocked empty
  refine ⟨writeReadable calm.readable rolled,?_,?_⟩
  · simp only [finishWrite,whole]
    split
    · rename_i fails
      refine forall_mem_cons.mpr ⟨?_,calm.restored⟩
      show (writeLocked s.traced.log orig h segs).1.wOff = s.traced.log.wOff
      generalize writeLocked s.traced.log orig h segs = out at locked
      cases locked with
      | done log' succeeds => simp [succeeds] at fails
      | failed log' _ kept wOff => exact wOff.trans (rolled fails.2)
    · exact calm.restored
  · simp only [finishWrite,whole]
    intro fate here
    rcases mem_append.mp here with old | new
    · exact calm.overwritten fate old
    · exact fatesOverwritten calm.readable.sized calm.readable.head exactly (reachLe calm.readable.sized h segs) fate new

theorem stepCalm (s : Shared) (op : WriterOp) (calm : Calm s) (undisturbed : Undisturbed s op) : Calm (writerStep s op) := by
  cases op with
  | enter w => exact ⟨calm.readable,calm.restored,calm.overwritten⟩
  | write w h segs =>
    simp only [writerStep]
    split
    · rename_i orig entered
      exact finishCalm calm entered undisturbed
    · exact calm
  | «open» r =>
    refine ⟨openReadable calm.readable r,calm.restored,?_⟩
    simp only [writerStep,traceOpen]
    split <;> exact calm.overwritten
  | read r count fault =>
    refine ⟨readReadable calm.readable r count fault,calm.restored,?_⟩
    simp only [writerStep,traceRead]
    split <;> exact calm.overwritten
  | release r => exact ⟨releaseReadable calm.readable r,calm.restored,calm.overwritten⟩

theorem runWritersOk {size} (power : ∃ k, size = 2^k) (large : LOGGER_ENTRY_MAX_LEN < size) {ops}
    (admitted : Admitted writerStep Undisturbed (noWriters size) ops) :
    WritersOk (run writerStep (noWriters size) ops) := by
  have start : Calm (noWriters size) := ⟨startReadable power large,by simp [noWriters],by simp [noWriters,emptyTrace]⟩
  obtain ⟨readable,restored,overwritten⟩ := runInvariant stepCalm start admitted
  exact ⟨restored,overwritten,⟨readable.count,readable.head⟩,
    fun r off here => ⟨_,readable.place r off here,readable.reader r off here⟩⟩

end

def callStamp : Stamp := ⟨0,1,1,0,0⟩
def faultyCall : List Segment := [⟨[104],some (.first fun _ => 0)⟩]

theorem exampleWritersOk : WritersOk (run writerStep (noWriters 8192)
    [.enter 1,.write 1 callStamp [⟨[104],none⟩],.enter 2,.write 2 callStamp faultyCall]) := by
  refine runWritersOk ⟨13,rfl⟩ (by decide) ⟨trivial,?_,trivial,?_,trivial⟩
  · intro orig entered _
    cases entered
    decide +kernel
  · intro orig entered _
    cases entered
    decide +kernel

/-- Both calls enter; the first writes, a reader takes its entry, and the second fails: w_off
goes back before the entry. -/
theorem failedCallRollsBack : ¬ WritersOk (run writerStep (noWriters 8192)
    [.open 1,.enter 1,.enter 2,.write 1 callStamp [⟨[104],none⟩],.read 1 64 ⟨false,false⟩,.write 2 callStamp faultyCall]) := by
  intro ok
  exact absurd (ok.restored (21,0) (by decide +kernel)) (by decide)

end EclairKernel.Logger
