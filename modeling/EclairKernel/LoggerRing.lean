import EclairKernel.Logger
import EclairKernel.RingBuffer

/-! The copies of the logger as stretches of its ring: a write puts an entry after
w_off and leaves the rest, and the entries from an offset to w_off can be walked. -/
namespace EclairKernel.Logger
open List Nat RingBuffer

structure Sized (log : Log) : Prop where
  power : ∃ k, log.size = 2^k
  large : LOGGER_ENTRY_MAX_LEN < log.size
  inside : log.wOff < log.size

variable {log log' off}

theorem offsetMod (sized : Sized log) (n : Nat) : loggerOffset log n = n % log.size := by
  obtain ⟨k,power⟩ := sized.power
  rw [loggerOffset,power,and_two_pow_sub_one_eq_mod]

theorem powerLarge (sized : Sized log) : 2 * LOGGER_ENTRY_MAX_LEN ≤ log.size := by
  obtain ⟨k,power⟩ := sized.power
  have large := sized.large
  rw [power] at large ⊢
  have more : 12 < k := (Nat.pow_lt_pow_iff_right (a := 2) (by decide)).mp large
  exact Nat.pow_le_pow_right (n := 2) (by decide) more

variable {b size} {dst p src buf}

theorem memcpyInside (above : dst ≤ p) (below : p - dst < src.length) :
    some (memcpy b dst src p) = src[p - dst]? := by
  simp [memcpy,above,below]

theorem memcpyOutside (outside : p < dst ∨ dst + src.length ≤ p) : memcpy b dst src p = b p := by
  unfold memcpy
  split
  · rw [getElem?_eq_none (by omega),Option.getD_none]
  · rfl

theorem bothCopiesWrote (buf : List UInt8) (inside : off < size) (fits : buf.length ≤ size) :
    Wrote size off buf b (memcpy (memcpy b off (buf.take (min buf.length (size - off)))) 0
      (buf.drop (min buf.length (size - off)))) := by
  generalize cut : min buf.length (size - off) = len
  have first : (buf.take len).length = len := by simp; omega
  have second : (buf.drop len).length = buf.length - len := by simp
  refine ⟨fun i outside small => ?_,sliceEq rfl fun i small => ?_⟩
  · rcases lt_or_ge (off + i) size with straight | around
    · rw [mod_eq_of_lt straight,memcpyOutside (by omega),memcpyOutside (by omega)]
    · have place : (off + i) % size = off + i - size := by
        rw [mod_eq_sub_mod around,mod_eq_of_lt (by omega)]
      rw [memcpyOutside (by omega),memcpyOutside (by omega)]
  · rcases lt_or_ge (off + i) size with straight | around
    · have there : some (memcpy b off (buf.take len) (off + i)) = (buf.take len)[off + i - off]? :=
        memcpyInside (by omega) (by omega)
      rw [Nat.add_sub_cancel_left,getElem?_take_of_lt (by omega)] at there
      rw [mod_eq_of_lt straight,← there,memcpyOutside (b := memcpy _ _ _) (by omega)]
    · have place : (off + i) % size = off + i - size := by
        rw [mod_eq_sub_mod around,mod_eq_of_lt (by omega)]
      rw [memcpyInside (by omega) (by omega),getElem?_drop]
      congr 1
      omega

theorem copiesWrote (buf : List UInt8) (inside : off < size) (fits : buf.length ≤ size) :
    Wrote size off buf b (if buf.length ≠ min buf.length (size - off) then
      memcpy (memcpy b off (buf.take (min buf.length (size - off)))) 0 (buf.drop (min buf.length (size - off)))
      else memcpy b off (buf.take (min buf.length (size - off)))) := by
  have wrote := bothCopiesWrote (b := b) buf inside fits
  split
  · exact wrote
  · rename_i whole
    rwa [← not_not.mp whole,drop_length,not_not.mp whole] at wrote

theorem copiesSlice {count} (inside : off < size) (fits : count ≤ size) :
    bytesAt b off (min count (size - off)) ++ bytesAt b 0 (count - min count (size - off)) = slice b size off count := by
  have straight : slice b size off (min count (size - off)) = bytesAt b off (min count (size - off)) := by
    refine map_congr_left fun i small => ?_
    rw [mem_range] at small
    rw [mod_eq_of_lt (by omega)]
  have around : slice b size (off + min count (size - off)) (count - min count (size - off)) =
      bytesAt b 0 (count - min count (size - off)) := by
    refine map_congr_left fun i small => ?_
    rw [mem_range] at small
    rw [show off + min count (size - off) + i = i + size by omega,add_mod_right,mod_eq_of_lt (by omega),zero_add]
  rw [← straight,← around,← sliceAppend]
  congr 1
  omega

structure Rest (log log' : Log) : Prop where
  size : log'.size = log.size
  head : log'.head = log.head
  readers : log'.readers = log.readers

theorem restTrans {log''} (first : Rest log log') (second : Rest log' log'') : Rest log log'' :=
  ⟨second.size.trans first.size,second.head.trans first.head,second.readers.trans first.readers⟩

theorem doWriteLogRest (log : Log) (buf : List UInt8) : Rest log (doWriteLog log buf) := ⟨rfl,rfl,rfl⟩

def segmentTouched (size w : Nat) (buf : List UInt8) : Option WriteFault → Nat
  | some (.first _) => min buf.length (size - w)
  | _ => buf.length

theorem clobberKept {n} (junk : Nat → UInt8) : Kept size off n b (clobber b off n junk) := by
  intro i outside inside
  have place : ¬ (off ≤ (off + i) % size ∧ (off + i) % size < off + n) := by
    rcases lt_or_ge (off + i) size with straight | around
    · rw [mod_eq_of_lt straight]
      omega
    · rw [mod_eq_sub_mod around]
      have := mod_le (off + i - size) size
      omega
  rw [clobber,if_neg place]

theorem clobberAgain {b' m} (n : Nat) (junk : Nat → UInt8) (kept : Kept size off m b b')
    (around : off + m = size) : Kept size off (m + n) b (clobber b' 0 n junk) := by
  intro i outside inside
  rw [← kept i (by omega) inside,clobber,if_neg]
  rw [mod_eq_sub_mod (by omega),mod_eq_of_lt (by omega)]
  omega

inductive Copied (log : Log) (buf : List UInt8) (fault : Option WriteFault) : Log × Bool → Prop where
  | done : segmentTouched log.size log.wOff buf fault = buf.length → Copied log buf fault (doWriteLog log buf,true)
  | failed (b : Nat → UInt8) : Kept log.size log.wOff (segmentTouched log.size log.wOff buf fault) log.buffer b →
      Copied log buf fault (setBuffer log b,false)

/-- The second byte is at offset 0, and the comparison reads the byte past the ring. -/
theorem echoPastRing : ¬ ∀ p ∈ (doWriteLogEcho (setWOff (emptyLog 65536) 65535) [33,64] none []).2.1, p < 65536 := by
  decide +kernel

def touched (log : Log) (left : Nat) : List Segment → Nat
  | [] => 0
  | seg::rest =>
    let buf := seg.bytes.take left
    let out := doWriteLogFromUser log buf seg.fault
    if out.2 then buf.length + touched out.1 (left - buf.length) rest
    else segmentTouched log.size log.wOff buf seg.fault

theorem payloadTake (seg : Segment) (rest : List Segment) (left : Nat) : (payload (seg::rest)).take left =
    seg.bytes.take left ++ (payload rest).take (left - (seg.bytes.take left).length) := by
  rw [payload,flatMap_cons,take_append,length_take]
  congr 2
  omega

inductive Put (log : Log) (left : Nat) (segs : List Segment) : Log × Bool → Prop where
  | done (log' : Log) : Wrote log.size log.wOff ((payload segs).take left) log.buffer log'.buffer →
      log'.wOff = (log.wOff + ((payload segs).take left).length) % log.size → Rest log log' →
      touched log left segs = ((payload segs).take left).length → Put log left segs (log',true)
  | failed (log' : Log) : Kept log.size log.wOff (touched log left segs) log.buffer log'.buffer → Rest log log' →
      touched log left segs ≤ left → Put log left segs (log',false)

theorem segmentTouchedLe (size w : Nat) (buf : List UInt8) (fault : Option WriteFault) :
    segmentTouched size w buf fault ≤ buf.length := by
  unfold segmentTouched
  split
  · exact min_le_left _ _
  · exact le_rfl

def entry (h : Stamp) (segs : List Segment) : List UInt8 :=
  header (headerLen segs) h ++ (payload segs).take (headerLen segs)

@[simp] theorem headerLength (len : Nat) (h : Stamp) : (header len h).length = HEADER := rfl

@[simp] theorem entryLength (h : Stamp) (segs : List Segment) : (entry h segs).length = HEADER + headerLen segs := by
  have short : headerLen segs ≤ (payload segs).length := min_le_left _ _
  simp [entry,short]

theorem headerLenMax (segs : List Segment) : HEADER + headerLen segs ≤ LOGGER_ENTRY_MAX_LEN := by
  unfold headerLen
  simp only [LOGGER_ENTRY_MAX_PAYLOAD,LOGGER_ENTRY_MAX_LEN,HEADER] at *
  omega

def reach (log : Log) (h : Stamp) (segs : List Segment) : Nat :=
  HEADER + touched (doWriteLog (fixUpReaders log (HEADER + headerLen segs)) (header (headerLen segs) h)) (headerLen segs) segs

def copyFails (log : Log) (h : Stamp) (segs : List Segment) : Bool :=
  !(writeSegments (doWriteLog (fixUpReaders log (HEADER + headerLen segs)) (header (headerLen segs) h)) (headerLen segs) segs).2

inductive Locked (log : Log) (orig : Nat) (h : Stamp) (segs : List Segment) : Log × Int → Prop where
  | done (log' : Log) : copyFails log h segs = false → Wrote log.size log.wOff (entry h segs) log.buffer log'.buffer →
      log'.wOff = (log.wOff + (HEADER + headerLen segs)) % log.size → Rest (fixUpReaders log (HEADER + headerLen segs)) log' →
      reach log h segs = HEADER + headerLen segs → Locked log orig h segs (log',headerLen segs)
  | failed (log' : Log) : copyFails log h segs = true →
      Kept log.size log.wOff (reach log h segs) log.buffer log'.buffer → log'.wOff = orig →
      Rest (fixUpReaders log (HEADER + headerLen segs)) log' → reach log h segs ≤ HEADER + headerLen segs →
      Locked log orig h segs (log',EFAULT)

section
variable (sized : Sized log)
include sized

theorem doWriteLogWrote (fits : buf.length ≤ log.size) :
    Wrote log.size log.wOff buf log.buffer (doWriteLog log buf).buffer ∧
    (doWriteLog log buf).wOff = (log.wOff + buf.length) % log.size :=
  ⟨copiesWrote buf sized.inside fits,offsetMod sized _⟩

theorem doWriteLogSized (buf : List UInt8) : Sized (doWriteLog log buf) := by
  refine ⟨sized.power,sized.large,?_⟩
  have positive := zero_lt_of_lt sized.inside
  show loggerOffset log _ < log.size
  rw [offsetMod sized]
  exact mod_lt _ positive

theorem fromUserCases (fits : buf.length ≤ log.size) (fault : Option WriteFault) :
    Copied log buf fault (doWriteLogFromUser log buf fault) := by
  have inside := sized.inside
  cases fault with
  | none => exact .done rfl
  | some fault =>
    cases fault with
    | first junk =>
      simp only [doWriteLogFromUser]
      split
      · exact .failed _ (clobberKept junk)
      · exact .done (by simp only [segmentTouched]; omega)
    | second junk =>
      simp only [doWriteLogFromUser]
      split
      · refine .failed _ ?_
        have cut : min buf.length (log.size - log.wOff) = log.size - log.wOff := by omega
        have start := copiesWrote (b := log.buffer) (buf.take (log.size - log.wOff)) inside (by rw [length_take]; omega)
        have short : (buf.take (log.size - log.wOff)).length = log.size - log.wOff := by simp; omega
        rw [short,Nat.min_self,if_neg (by omega)] at start
        have kept := start.kept
        rw [short,take_take,Nat.min_self] at kept
        rw [cut]
        have both := clobberAgain (buf.length - (log.size - log.wOff)) junk kept (by omega)
        rwa [show log.size - log.wOff + (buf.length - (log.size - log.wOff)) = buf.length by omega] at both
      · exact .done rfl

theorem segmentBytes (fits : buf.length ≤ log.size) {n} (part : n ≤ buf.length)
    (straight : log.wOff + n ≤ log.size) : bytesAt (doWriteLog log buf).buffer log.wOff n = buf.take n := by
  have cells := congrArg (take n) (doWriteLogWrote sized fits).1.here
  rw [slice,← map_take,take_range,min_eq_left part] at cells
  refine Eq.trans (map_congr_left fun i small => ?_) cells
  rw [mem_range] at small
  rw [mod_eq_of_lt (by omega)]

theorem writeSegmentsCases {left} (fits : left ≤ log.size) (segs : List Segment) :
    Put log left segs (writeSegments log left segs) := by
  induction segs generalizing log left with
  | nil =>
    have nothing : (payload []).take left = [] := by simp [payload]
    refine .done log ?_ ?_ ⟨rfl,rfl,rfl⟩ (by rw [nothing]; rfl)
    · rw [nothing]
      exact wroteNothing
    · rw [nothing]
      exact (mod_eq_of_lt sized.inside).symm
  | cons seg rest ih =>
    unfold writeSegments
    have short : (seg.bytes.take left).length ≤ left := length_take_le _ _
    have reach := segmentTouchedLe log.size log.wOff (seg.bytes.take left) seg.fault
    have outcome := fromUserCases sized (le_trans short fits) seg.fault
    generalize result : doWriteLogFromUser log (seg.bytes.take left) seg.fault = out at outcome
    cases outcome with
    | failed b kept =>
      have count : touched log left (seg::rest) = segmentTouched log.size log.wOff (seg.bytes.take left) seg.fault := by
        simp [touched,result]
      simp only [result]
      exact .failed _ (count ▸ kept) ⟨rfl,rfl,rfl⟩ (by omega)
    | done whole =>
      obtain ⟨wrote,moved⟩ := doWriteLogWrote sized (le_trans short fits)
      have count : touched log left (seg::rest) = (seg.bytes.take left).length +
          touched (doWriteLog log (seg.bytes.take left)) (left - (seg.bytes.take left).length) rest := by
        simp [touched,result]
      simp only [result]
      have less : left - (seg.bytes.take left).length ≤ log.size := le_trans (sub_le _ _) fits
      have later := ih (doWriteLogSized sized (seg.bytes.take left)) less
      generalize writeSegments (doWriteLog log (seg.bytes.take left)) (left - (seg.bytes.take left).length) rest = out at later
      have room : ((payload rest).take (left - (seg.bytes.take left).length)).length ≤ left - (seg.bytes.take left).length :=
        length_take_le _ _
      cases later with
      | done log' wrote' moved' rest' whole' =>
        rw [moved,(doWriteLogRest log _).size] at wrote' moved'
        refine .done log' ?_ ?_ (restTrans (doWriteLogRest log _) rest') ?_
        · rw [payloadTake]
          exact wroteAppend wrote (wroteMod.mp wrote') (by omega)
        · rw [moved',payloadTake,length_append,mod_add_mod,add_assoc]
        · rw [count,whole',payloadTake,length_append]
      | failed log' kept' rest' bound =>
        rw [moved] at kept'
        refine .failed log' ?_ (restTrans (doWriteLogRest log _) rest') (by omega)
        rw [count]
        exact keptTrans wrote.kept (keptMod.mp kept')

theorem writeLockedCases (orig : Nat) (h : Stamp) (segs : List Segment) :
    Locked log orig h segs (writeLocked log orig h segs) := by
  have large := powerLarge sized
  have most := headerLenMax segs
  have fixed : Sized (fixUpReaders log (HEADER + headerLen segs)) := ⟨sized.power,sized.large,sized.inside⟩
  have fits : (header (headerLen segs) h).length ≤ log.size := by
    rw [headerLength]
    omega
  obtain ⟨wrote,moved⟩ := doWriteLogWrote fixed fits
  have rest := doWriteLogRest (fixUpReaders log (HEADER + headerLen segs)) (header (headerLen segs) h)
  have less : headerLen segs ≤ log.size := by omega
  have outcome := writeSegmentsCases (doWriteLogSized fixed (header (headerLen segs) h)) less segs
  have count : reach log h segs = HEADER + touched (doWriteLog ..) (headerLen segs) segs := rfl
  have fails : copyFails log h segs = !(writeSegments (doWriteLog ..) (headerLen segs) segs).2 := rfl
  simp only [writeLocked]
  generalize doWriteLog _ (header (headerLen segs) h) = log1 at *
  have size : log1.size = log.size := rest.size
  have start : log1.wOff = (log.wOff + HEADER) % log.size := moved
  have payloadLength : ((payload segs).take (headerLen segs)).length = headerLen segs :=
    length_take_of_le (min_le_left _ _)
  generalize writeSegments log1 (headerLen segs) segs = out at outcome fails
  cases outcome with
  | done log' wrote' moved' rest' whole' =>
    rw [start,size] at wrote' moved'
    refine .done log' fails ?_ ?_ (restTrans rest rest') ?_
    · refine wroteAppend wrote (wroteMod.mp wrote') ?_
      rw [payloadLength]
      exact le_trans most (by omega)
    · rw [moved',payloadLength,mod_add_mod,add_assoc]
    · rw [count,whole',payloadLength]
  | failed log' kept' rest' bound =>
    rw [start,size] at kept'
    refine .failed (setWOff log' orig) fails ?_ rfl (restTrans rest ⟨rest'.size,rest'.head,rest'.readers⟩) (by omega)
    rw [count]
    exact keptTrans wrote.kept (keptMod.mp kept')

end

/-- One of the two copies from user space is made and fails. -/
def copyRefused (log : Log) (buf : List UInt8) : Option WriteFault → Prop
  | none => False
  | some (.first _) => min buf.length (log.size - log.wOff) ≠ 0
  | some (.second _) => log.size - log.wOff < buf.length

theorem copyRefusedIff {fault} : copyRefused log buf fault ↔ (doWriteLogFromUser log buf fault).2 = false := by
  rcases fault with _ | junk | junk
  · simp [copyRefused,doWriteLogFromUser]
  · simp only [copyRefused,doWriteLogFromUser]
    split <;> simp_all
  · simp only [copyRefused,doWriteLogFromUser]
    split <;> simp <;> omega

theorem markCompared {n klogBuf} (mark : log.buffer log.wOff = 33) : log.wOff + 1 ∈ (klogEcho log n klogBuf).1 := by
  have second : log.wOff + 1 ∈ [log.wOff,log.wOff + 1] := mem_cons_of_mem _ (mem_singleton_self _)
  unfold klogEcho
  dsimp only
  rw [if_neg (not_not.mpr mark)]
  split
  · exact second
  · exact mem_append_left _ second

theorem echoStraight (sized : Sized log) (fits : buf.length ≤ log.size) (marked : buf.take 2 = [33,64]) (klogBuf : List UInt8) :
    let echo := klogEcho (setWOff (doWriteLog log buf) log.wOff) buf.length klogBuf
    (∀ p ∈ echo.1, p < log.size) ∧ echo.2 = buf.take 255 ++ replicate (256 - min buf.length 255) 0 ↔
      log.wOff + min buf.length 255 ≤ log.size := by
  have two : 2 ≤ buf.length := by simpa using congrArg length marked
  have inside := sized.inside
  have mark : (doWriteLog log buf).buffer log.wOff = 33 := by
    have start := segmentBytes sized fits (n := 1) (by omega) (by omega)
    have one : buf.take 1 = [33] := by simpa [take_take] using congrArg (take 1) marked
    simpa [bytesAt,range_succ,one] using start
  rcases Nat.lt_or_ge (log.wOff + 1) log.size with more | last
  · have mark' : (doWriteLog log buf).buffer (log.wOff + 1) = 64 := by
      have start := (segmentBytes sized fits two (by omega)).trans marked
      simp only [bytesAt,range_succ,range_zero,nil_append,map_cons,map_nil,cons_append,Nat.add_zero,cons.injEq] at start
      exact start.2.1
    simp only [klogEcho,setWOff,mark,mark',ne_eq,not_true_eq_false,if_false]
    constructor
    · intro right
      have most := right.1 (log.wOff + (min buf.length 255 - 1))
        (mem_append_right _ (mem_map.mpr ⟨_,mem_range.mpr (by omega),rfl⟩))
      omega
    · intro straight
      have whole := segmentBytes sized fits (min_le_left _ 255) straight
      rw [min_comm,← take_eq_take_min,min_comm] at whole
      refine ⟨fun p mem => ?_,by rw [whole]⟩
      simp only [cons_append,nil_append,mem_cons,mem_map,mem_range] at mem
      rcases mem with rfl | rfl | ⟨i,small,rfl⟩ <;> omega
  · -- the second byte of the mark is compared behind the ring
    refine ⟨fun right => ?_,fun straight => by omega⟩
    have second := right.1 _ (markCompared mark)
    exact absurd second (Nat.not_lt.mpr last)

theorem echoCopied (sized : Sized log) (fits : buf.length ≤ log.size) (marked : buf.take 2 = [33,64]) (fault : Option WriteFault)
    (klogBuf : List UInt8) : let echo := (doWriteLogEcho log buf fault klogBuf).2
    (∀ p ∈ echo.1, p < log.size) ∧ ((doWriteLogFromUser log buf fault).2 = true →
        echo.2 = buf.take 255 ++ replicate (256 - min buf.length 255) 0) ↔
      copyRefused log buf fault ∨ log.wOff + min buf.length 255 ≤ log.size := by
  have copied := fromUserCases sized fits fault
  rw [copyRefusedIff]
  simp only [doWriteLogEcho]
  generalize doWriteLogFromUser log buf fault = out at copied
  cases copied with
  | failed => simp
  | done => simpa using echoStraight sized fits marked klogBuf

theorem exampleEchoed : let echo := (doWriteLogEcho (setWOff (emptyLog 65536) 65533) [33,64,7] none [1]).2
    (∀ p ∈ echo.1, p < 65536) ∧ (true = true → echo.2 = [33,64,7] ++ replicate 253 0) :=
  (echoCopied ⟨⟨16,rfl⟩,by decide,by decide⟩ (by decide) rfl none [1]).mpr (.inr (by decide))

end EclairKernel.Logger
