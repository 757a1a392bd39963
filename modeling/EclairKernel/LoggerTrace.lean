import EclairKernel.LoggerRing

/-! The entries between an offset and w_off: how the code reads, walks and keeps them.
Everything rests on `Shows`, that the bytes up to w_off are whole entries. -/
namespace EclairKernel.Logger
open List Option Nat RingBuffer

structure Entry (e : List UInt8) : Prop where
  field : ∃ lo hi tail, e = lo::hi::tail ∧ e.length = HEADER + (lo.toNat + 256 * hi.toNat)
  short : e.length ≤ LOGGER_ENTRY_MAX_LEN

def span (entries : List (List UInt8)) : Nat := entries.flatten.length

structure Shows (log : Log) (off : Nat) (entries : List (List UInt8)) : Prop where
  inside : off < log.size
  bytes : slice log.buffer log.size off (span entries) = entries.flatten
  room : span entries < log.size
  finish : (off + span entries) % log.size = log.wOff
  whole : ∀ e ∈ entries, Entry e

variable {log log' : Log} {off : Nat} {e : List UInt8} {entries rest : List (List UInt8)}

@[simp] theorem spanNil : span [] = 0 := rfl
@[simp] theorem spanCons (e : List UInt8) (rest : List (List UInt8)) : span (e::rest) = e.length + span rest := by
  simp [span]
@[simp] theorem spanAppend (left right : List (List UInt8)) : span (left ++ right) = span left + span right := by
  simp [span]

theorem entryPositive (entry : Entry e) : HEADER ≤ e.length := by
  obtain ⟨lo,hi,tail,_,length⟩ := entry.field
  omega

theorem entryWhole (h : Stamp) (segs : List Segment) : Entry (entry h segs) := by
  refine ⟨⟨UInt8.ofNat (headerLen segs),UInt8.ofNat (headerLen segs / 256),_,rfl,?_⟩,?_⟩
  · have most := headerLenMax segs
    rw [entryLength,UInt8.toNat_ofNat',UInt8.toNat_ofNat']
    simp only [LOGGER_ENTRY_MAX_LEN] at *
    omega
  · rw [entryLength]
    exact headerLenMax segs

theorem showsLen (shows_ : Shows log off (e::rest)) : getEntryLen log off = e.length := by
  obtain ⟨lo,hi,tail,same,length⟩ := (shows_.whole e mem_cons_self).field
  have inside := shows_.inside
  have cells : ∀ i, i < 2 → ((e::rest).flatten)[i]? = some (log.buffer ((off + i) % log.size)) := by
    intro i small
    rw [← shows_.bytes]
    refine sliceCell ?_
    rw [spanCons,same,length_cons,length_cons]
    omega
  have first : log.buffer off = lo := by
    have := cells 0 (by decide)
    rw [same,add_zero,mod_eq_of_lt inside] at this
    exact (some.inj this).symm
  have second : (if log.size - off = 1 then log.buffer 0 else log.buffer (off + 1)) = hi := by
    have := cells 1 (by decide)
    rw [same] at this
    have value := (some.inj this).symm
    rw [← value]
    split
    · rw [show off + 1 = log.size by omega,mod_self]
    · rw [mod_eq_of_lt (by omega)]
  simp only [getEntryLen]
  rw [first,second,length]

theorem showsNext (shows_ : Shows log off (e::rest)) : Shows log ((off + e.length) % log.size) rest := by
  have bytes := shows_.bytes
  have room := shows_.room
  rw [spanCons] at bytes room
  rw [sliceAppend] at bytes
  refine ⟨mod_lt _ (zero_lt_of_lt shows_.inside),?_,by omega,?_,fun x mem => shows_.whole x (mem_cons_of_mem e mem)⟩
  · rw [sliceMod]
    exact (append_inj bytes (by simp)).2
  · rw [mod_add_mod,add_assoc,← spanCons]
    exact shows_.finish

theorem showsHead (shows_ : Shows log off (e::rest)) : slice log.buffer log.size off e.length = e := by
  have bytes := shows_.bytes
  rw [spanCons,sliceAppend] at bytes
  exact (append_inj bytes (by simp)).1

def passLoop (log : Log) (len : Nat) : Nat → Nat → Nat → List Nat
  | 0, _, _ => []
  | fuel+1, off, passed =>
    let nr := getEntryLen log off
    off::(if passed + nr < len then passLoop log len fuel (loggerOffset log (off + nr)) (passed + nr) else [])

def passed (log : Log) (off len : Nat) : List Nat := passLoop log len (len + 1) off 0

structure Walk (log : Log) (off len : Nat) (entries : List (List UInt8)) (n stop : Nat) (starts : List Nat) : Prop where
  range : 0 < n ∧ n ≤ entries.length
  lands : stop = (off + span (entries.take n)) % log.size
  count : starts.length = n
  begins : ∀ i < n, starts[i]? = some ((off + span (entries.take i)) % log.size)
  beyond : len ≤ span (entries.take n)
  least : ∀ i < n, span (entries.take i) < len
  onward : Shows log stop (entries.drop n)

variable {len n i : Nat}

def pulledOver (log : Log) (len off : Nat) : List Nat :=
  if clockInterval log.wOff (loggerOffset log (log.wOff + len)) off then passed log off len else []

theorem spanDrop (entries : List (List UInt8)) (n : Nat) : span (entries.take n) + span (entries.drop n) = span entries := by
  rw [← spanAppend,take_append_drop]

theorem showsKeptBytes {b} (shows_ : Shows log off entries) (room : span entries + n ≤ log.size)
    (kept : Kept log.size log.wOff n log.buffer b) : slice b log.size off (span entries) = entries.flatten := by
  have place : (log.wOff + (log.size - span entries)) % log.size = off := by
    rw [← shows_.finish,mod_add_mod,show off + span entries + (log.size - span entries) = off + log.size by omega,
      add_mod_right,mod_eq_of_lt shows_.inside]
  have moved : ∀ c : Nat → UInt8, slice c log.size (log.wOff + (log.size - span entries)) (span entries) =
      slice c log.size off (span entries) := fun c => by rw [← sliceMod,place]
  have same := sliceKept (d := log.size - span entries) (m := span entries) kept (by omega) (by omega)
  rw [moved,moved] at same
  rw [same,shows_.bytes]

theorem showsKept (shows_ : Shows log off entries) (room : span entries + n ≤ log.size)
    (kept : Kept log.size log.wOff n log.buffer log'.buffer) (size : log'.size = log.size) (wOff : log'.wOff = log.wOff) :
    Shows log' off entries := by
  refine ⟨size ▸ shows_.inside,?_,size ▸ shows_.room,?_,shows_.whole⟩
  · rw [size]
    exact showsKeptBytes shows_ room kept
  · rw [size,wOff]
    exact shows_.finish

theorem showsWrote (shows_ : Shows log off entries) (entry : Entry e) (room : span entries + e.length < log.size)
    (wrote : Wrote log.size log.wOff e log.buffer log'.buffer) (size : log'.size = log.size)
    (wOff : log'.wOff = (log.wOff + e.length) % log.size) : Shows log' off (entries ++ [e]) := by
  have length : span (entries ++ [e]) = span entries + e.length := by simp
  refine ⟨size ▸ shows_.inside,?_,by rw [length,size]; exact room,?_,?_⟩
  · rw [length,size,sliceAppend,showsKeptBytes shows_ (le_of_lt room) wrote.kept,← sliceMod,shows_.finish,
      wrote.here]
    simp
  · rw [length,size,wOff,← add_assoc,← mod_add_mod,shows_.finish]
  · intro x mem
    rcases mem_append.mp mem with old | new
    · exact shows_.whole x old
    · exact mem_singleton.mp new ▸ entry

def LapsExactly (log : Log) (len reach off : Nat) : Prop :=
  loggerOffset log (off + log.size - log.wOff) < reach ∧
  getNextEntry log off len = getNextEntry log off (reach - loggerOffset log (off + log.size - log.wOff))

instance (log : Log) (len reach off : Nat) : Decidable (LapsExactly log len reach off) :=
  inferInstanceAs (Decidable (_ ∧ _))

theorem spanTakeMono (entries : List (List UInt8)) (le : i ≤ n) : span (entries.take i) ≤ span (entries.take n) := by
  have whole := spanDrop (entries.take n) i
  rw [take_take,min_eq_left le] at whole
  omega

theorem spanTakeLt (whole : ∀ e ∈ entries, Entry e) (lt : i < n) (inside : n ≤ entries.length) :
    span (entries.take i) < span (entries.take n) := by
  have positive := entryPositive (whole _ (getElem_mem (show i < entries.length by omega)))
  have more := spanTakeMono entries lt
  rw [take_add_one,getElem?_eq_getElem (by omega),spanAppend] at more
  simp only [toList_some,spanCons,HEADER] at more positive
  omega

section
variable (sized : Sized log) (shows_ : Shows log off entries)
include sized shows_

theorem walkLoop {fuel count} (more : count < len)
    (enough : len ≤ count + span entries) (fuelled : len ≤ count + fuel) :
    ∃ n, Walk log off (len - count) entries n (nextLoop log len fuel off count) (passLoop log len fuel off count) := by
  induction fuel generalizing off count entries with
  | zero => omega
  | succ fuel ih =>
    cases entries with
    | nil => simp at enough; omega
    | cons e rest =>
      have positive := entryPositive (shows_.whole e mem_cons_self)
      have later := showsNext shows_
      simp only [nextLoop,passLoop,showsLen shows_,offsetMod sized]
      simp only [HEADER,spanCons] at positive enough
      split
      · rename_i again
        obtain ⟨n,walk⟩ := ih later again (by omega) (by omega)
        refine ⟨n + 1,⟨by omega,by simpa using walk.range.2⟩,?_,by simp [walk.count],fun i small => ?_,?_,fun i small => ?_,?_⟩
        · rw [walk.lands,take_succ_cons,spanCons,mod_add_mod,add_assoc]
        · cases i with
          | zero => simp [mod_eq_of_lt shows_.inside]
          | succ i =>
            rw [getElem?_cons_succ,walk.begins i (by omega),take_succ_cons,spanCons,mod_add_mod,add_assoc]
        · rw [take_succ_cons,spanCons]
          have := walk.beyond
          omega
        · cases i with
          | zero => simp; omega
          | succ i =>
            rw [take_succ_cons,spanCons]
            have := walk.least i (by omega)
            omega
        · exact walk.onward
      · refine ⟨1,⟨by decide,by simp⟩,by simp,rfl,fun i small => ?_,by simp; omega,fun i small => ?_,later⟩
        · have zero : i = 0 := by omega
          subst zero
          simp [mod_eq_of_lt shows_.inside]
        · have zero : i = 0 := by omega
          subst zero
          simp
          omega

theorem walk (len : Nat) (positive : 0 < len) (enough : len ≤ span entries) :
    ∃ n, Walk log off len entries n (getNextEntry log off len) (passed log off len) :=
  walkLoop sized shows_ positive (by omega) (by omega)

theorem clockIff (len : Nat) (short : len < log.size) :
    clockInterval log.wOff (loggerOffset log (log.wOff + len)) off = true ↔ 0 < span entries ∧ log.size ≤ span entries + len := by
  have inside := shows_.inside
  have room := shows_.room
  have sizedInside := sized.inside
  have finish : off + span entries = log.wOff ∨ off + span entries = log.wOff + log.size := by
    have finish := shows_.finish
    rcases lt_or_ge (off + span entries) log.size with straight | around
    · rw [mod_eq_of_lt straight] at finish
      exact .inl finish
    · rw [mod_eq_sub_mod around,mod_eq_of_lt (by omega)] at finish
      omega
  have new : loggerOffset log (log.wOff + len) = log.wOff + len ∧ log.wOff + len < log.size ∨
      loggerOffset log (log.wOff + len) + log.size = log.wOff + len ∧ log.size ≤ log.wOff + len := by
    rw [offsetMod sized]
    rcases lt_or_ge (log.wOff + len) log.size with straight | around
    · rw [mod_eq_of_lt straight]
      exact .inl ⟨rfl,straight⟩
    · rw [mod_eq_sub_mod around,mod_eq_of_lt (by omega)]
      omega
  unfold clockInterval
  split
  · rw [decide_eq_true_eq]
    omega
  · rw [decide_eq_true_eq]
    omega

theorem fixUpShows (positive : 0 < len) (short : len ≤ LOGGER_ENTRY_MAX_LEN) :
    Shows log (fixUp log len off) (entries.drop (pulledOver log len off).length) ∧
    (pulledOver log len off).length ≤ entries.length ∧
    span (entries.drop (pulledOver log len off).length) + len < log.size := by
  have large := powerLarge sized
  have room := shows_.room
  have crosses := clockIff sized shows_ len (by omega)
  unfold fixUp pulledOver
  split
  · rename_i lapped
    have full := crosses.mp lapped
    obtain ⟨n,walk⟩ := walk sized shows_ len positive (by omega)
    rw [walk.count]
    have beyond := walk.beyond
    have whole := spanDrop entries n
    exact ⟨walk.onward,walk.range.2,by omega⟩
  · rename_i free
    rw [crosses] at free
    exact ⟨shows_,Nat.zero_le _,by rw [length_nil,drop_zero]; omega⟩

theorem distance (c : Nat) (inside : c < span entries) :
    loggerOffset log ((off + c) % log.size + log.size - log.wOff) = log.size - span entries + c := by
  have room := shows_.room
  rw [offsetMod sized,← shows_.finish]
  have offInside := shows_.inside
  rcases lt_or_ge (off + span entries) log.size with straight | around
  · rw [mod_eq_of_lt straight,mod_eq_of_lt (a := off + c) (by omega),mod_eq_of_lt (by omega)]
    omega
  rw [mod_eq_sub_mod around,mod_eq_of_lt (a := off + span entries - log.size) (by omega)]
  rcases lt_or_ge (off + c) log.size with before | after_
  · rw [mod_eq_of_lt before,mod_eq_sub_mod (by omega),mod_eq_of_lt (by omega)]
    omega
  · rw [mod_eq_sub_mod (a := off + c) after_,mod_eq_of_lt (a := off + c - log.size) (by omega),mod_eq_of_lt (by omega)]
    omega

theorem pulledOverReached {reach} (short : len ≤ LOGGER_ENTRY_MAX_LEN) (within : reach ≤ len)
    (lapped : clockInterval log.wOff (loggerOffset log (log.wOff + len)) off = true)
    (exactly : LapsExactly log len reach off) :
    ∀ p ∈ pulledOver log len off, loggerOffset log (p + log.size - log.wOff) < reach := by
  have large := powerLarge sized
  have room := shows_.room
  have full := (clockIff sized shows_ len (by omega)).mp lapped
  have start := distance sized shows_ 0 full.1
  rw [add_zero,mod_eq_of_lt shows_.inside,add_zero] at start
  obtain ⟨near,same⟩ := exactly
  rw [start] at near same
  obtain ⟨n,long⟩ := walk sized shows_ len (by omega) (by omega)
  obtain ⟨m,brief⟩ := walk sized shows_ (reach - (log.size - span entries)) (by omega) (by omega)
  -- both walks end at one entry, so they pass the same entries
  have total : ∀ k, span (entries.take k) < log.size := fun k => by
    have := spanDrop entries k
    omega
  have equal : span (entries.take n) = span (entries.take m) := by
    rw [long.lands,brief.lands] at same
    have cancelled := Nat.ModEq.add_left_cancel' off same
    rwa [Nat.ModEq,mod_eq_of_lt (total n),mod_eq_of_lt (total m)] at cancelled
  intro p mem
  rw [pulledOver,if_pos lapped] at mem
  obtain ⟨i,small,at_⟩ := getElem_of_mem mem
  rw [long.count] at small
  have place := long.begins i small
  rw [getElem?_eq_getElem (by rw [long.count]; exact small),at_] at place
  have below := spanTakeLt shows_.whole small long.range.2
  have first : i < m := by
    by_contra beyond
    have := spanTakeMono entries (not_lt.mp beyond)
    omega
  have least := brief.least i first
  rw [some.inj place,distance sized shows_ _ (by omega)]
  omega

end

/-! A log together with what became of each entry: the entries written so far, and for
the head and for every reader the fate of each entry it has left behind, in order. -/

open Function

inductive Fate where
  | read (bytes : List UInt8)
  | overwritten
  | flushed
  | skipped
  deriving DecidableEq, Repr

structure Traced where
  log : Log
  written : List (List UInt8)
  dropped : List Fate
  start : Nat → Nat
  ledger : Nat → List Fate

/-- What a write does to the entries an offset is pulled over: they are overwritten where
they begin in the bytes that are put down. -/
def fates (log : Log) (h : Stamp) (segs : List Segment) (off : Nat) : List Fate :=
  (pulledOver log (HEADER + headerLen segs) off).map fun p =>
    if loggerOffset log (p + log.size - log.wOff) < reach log h segs then .overwritten else .skipped

def traceLocked (s : Traced) (orig : Nat) (h : Stamp) (segs : List Segment) : Traced :=
  {s with log := (writeLocked s.log orig h segs).1
          written := if copyFails s.log h segs then s.written else s.written ++ [entry h segs]
          dropped := s.dropped ++ fates s.log h segs s.log.head
          ledger := fun r => s.ledger r ++ ((s.log.readers r).map (fates s.log h segs)).getD []}

def traceWrite (s : Traced) (orig : Nat) (h : Stamp) (segs : List Segment) : Traced :=
  let log := (loggerAioWrite s.log orig h segs).1
  if headerLen segs = 0 then {s with log := log} else {traceLocked s orig h segs with log := log}

theorem traceWriteEmpty {s orig h segs} (empty : headerLen segs = 0) : traceWrite s orig h segs = s := by
  simp [traceWrite,loggerAioWrite,empty]

theorem traceWriteLocked {s orig h segs} (some_ : headerLen segs ≠ 0) : traceWrite s orig h segs = traceLocked s orig h segs := by
  simp [traceWrite,loggerAioWrite,some_,traceLocked]

def traceOpen (s : Traced) (r : Nat) : Traced :=
  if (s.log.readers r).isSome then s
  else {s with log := loggerOpen s.log r
               start := update s.start r s.dropped.length
               ledger := update s.ledger r []}

def traceRead (s : Traced) (r count : Nat) (fault : ReadFault) : Traced :=
  match (loggerRead s.log r count fault).2 with
  | .entry bytes => {s with log := (loggerRead s.log r count fault).1
                            ledger := update s.ledger r (s.ledger r ++ [.read bytes])}
  | _ => {s with log := (loggerRead s.log r count fault).1}

def traceFlush (s : Traced) : Traced :=
  {s with log := flushLog s.log
          dropped := s.dropped ++ replicate (s.written.length - s.dropped.length) .flushed
          ledger := fun r => s.ledger r ++ replicate (s.written.length - (s.start r + (s.ledger r).length)) .flushed}

def traceRelease (s : Traced) (r : Nat) : Traced := {s with log := loggerRelease s.log r}

def emptyTrace (size : Nat) : Traced := ⟨emptyLog size,[],[],fun _ => 0,fun _ => []⟩

structure Readable (s : Traced) : Prop where
  sized : Sized s.log
  count : s.dropped.length ≤ s.written.length
  head : Shows s.log s.log.head (s.written.drop s.dropped.length)
  place : ∀ r off, s.log.readers r = some off → s.start r + (s.ledger r).length ≤ s.written.length
  reader : ∀ r off, s.log.readers r = some off → Shows s.log off (s.written.drop (s.start r + (s.ledger r).length))
  returned : ∀ r off, s.log.readers r = some off → ∀ i bytes, (s.ledger r)[i]? = some (.read bytes) →
    s.written[s.start r + i]? = some bytes

variable {s k h segs} {written : List (List UInt8)}

@[simp] theorem fatesLength (off : Nat) :
    (fates log h segs off).length = (pulledOver log (HEADER + headerLen segs) off).length := by
  simp [fates]

theorem fatesUnread {i : Nat} {bytes : List UInt8} : (fates log h segs off)[i]? ≠ some (.read bytes) := by
  intro here
  obtain ⟨p,_,fate⟩ := mem_map.mp (mem_of_getElem? here)
  split at fate <;> cases fate

variable {out orig}

theorem lockedShows (sized : Sized log) (nonempty : headerLen segs ≠ 0)
    (locked : Locked log orig h segs out) (rolled : copyFails log h segs = true → orig = log.wOff)
    (bound : k ≤ written.length) (shows_ : Shows log off (written.drop k)) :
    k + (fates log h segs off).length ≤ written.length ∧
    Shows out.1 (fixUp log (HEADER + headerLen segs) off)
      ((if copyFails log h segs then written else written ++ [entry h segs]).drop (k + (fates log h segs off).length)) := by
  have positive : 0 < HEADER + headerLen segs := by omega
  obtain ⟨moved,few,room⟩ := fixUpShows sized shows_ positive (headerLenMax segs)
  rw [fatesLength]
  rw [drop_drop] at moved room
  rw [length_drop] at few
  have left : k + (pulledOver log (HEADER + headerLen segs) off).length ≤ written.length := by omega
  refine ⟨left,?_⟩
  cases locked with
  | done log' succeeds wrote wOff rest whole =>
    rw [succeeds,if_neg (by decide),drop_append_of_le_length left]
    exact showsWrote moved (entryWhole h segs) (by rw [entryLength]; exact room) wrote rest.size (by rw [entryLength]; exact wOff)
  | failed log' fails kept wOff rest reached =>
    rw [fails,if_pos rfl]
    exact showsKept moved (by omega) kept rest.size (wOff.trans (rolled fails))

theorem lockedSized (sized : Sized log) (locked : Locked log orig h segs out)
    (rolled : copyFails log h segs = true → orig = log.wOff) : Sized out.1 := by
  cases locked with
  | done log' succeeds wrote wOff rest whole =>
    have size := rest.size
    refine ⟨size ▸ sized.power,size ▸ sized.large,?_⟩
    rw [size,wOff]
    exact mod_lt _ (zero_lt_of_lt sized.inside)
  | failed log' fails kept wOff rest reached =>
    have size := rest.size
    refine ⟨size ▸ sized.power,size ▸ sized.large,?_⟩
    rw [size,wOff,rolled fails]
    exact sized.inside

theorem lockedRest (locked : Locked log orig h segs out) :
    Rest (fixUpReaders log (HEADER + headerLen segs)) out.1 := by
  cases locked with
  | done log' succeeds wrote wOff rest whole | failed log' fails kept wOff rest reached => exact rest

theorem lockedReader (sized : Sized s.log) {r off'} (here : (traceLocked s orig h segs).log.readers r = some off') :
    ∃ off, s.log.readers r = some off ∧ off' = fixUp s.log (HEADER + headerLen segs) off ∧
      (traceLocked s orig h segs).ledger r = s.ledger r ++ fates s.log h segs off := by
  have rest := lockedRest (writeLockedCases sized orig h segs)
  have old : (s.log.readers r).map (fixUp s.log (HEADER + headerLen segs)) = some off' := by
    rw [← here]
    exact (congrFun rest.readers r).symm
  obtain ⟨off,known,same⟩ := Option.map_eq_some_iff.mp old
  exact ⟨off,known,same.symm,by simp [traceLocked,known]⟩

def Tells (s : Traced) (off start : Nat) (ledger : List Fate) : Prop :=
  start + ledger.length ≤ s.written.length ∧ Shows s.log off (s.written.drop (start + ledger.length)) ∧
    ∀ i bytes, ledger[i]? = some (.read bytes) → s.written[start + i]? = some bytes

theorem showsEmpty (sized : Sized log) : Shows log log.wOff [] :=
  ⟨sized.inside,rfl,zero_lt_of_lt sized.inside,mod_eq_of_lt sized.inside,by simp⟩

inductive Read (log : Log) (r : Nat) : Log × ReadResult → Prop where
  | nothing (result : ReadResult) : (∀ bytes, result ≠ .entry bytes) → Read log r (log,result)
  | taken (off : Nat) : log.readers r = some off → log.wOff ≠ off →
      Read log r (setReader log r (some (loggerOffset log (off + getEntryLen log off))),
        .entry (bytesAt log.buffer off (min (getEntryLen log off) (log.size - off)) ++
          bytesAt log.buffer 0 (getEntryLen log off - min (getEntryLen log off) (log.size - off))))

theorem readCases (log : Log) (r count : Nat) (fault : ReadFault) : Read log r (loggerRead log r count fault) := by
  unfold loggerRead
  split
  · exact .nothing _ (by simp)
  rename_i off known
  split
  · exact .nothing _ (by simp)
  rename_i some_
  dsimp only
  split
  · exact .nothing _ (by simp)
  unfold doReadLogToUser
  dsimp only
  split
  · exact .nothing _ (by simp)
  split
  · exact .nothing _ (by simp)
  · exact .taken off known some_

theorem takenEntry (sized : Sized log) (shows_ : Shows log off (written.drop k)) (more : log.wOff ≠ off) :
    ∃ e, written[k]? = some e ∧
      bytesAt log.buffer off (min (getEntryLen log off) (log.size - off)) ++
        bytesAt log.buffer 0 (getEntryLen log off - min (getEntryLen log off) (log.size - off)) = e ∧
      Shows log (loggerOffset log (off + getEntryLen log off)) (written.drop (k + 1)) := by
  cases rest : written.drop k with
  | nil =>
    rw [rest] at shows_
    have finish := shows_.finish
    rw [spanNil,add_zero,mod_eq_of_lt shows_.inside] at finish
    exact absurd finish.symm more
  | cons e later =>
    rw [rest] at shows_
    have next : written.drop (k + 1) = later := by rw [← drop_drop,rest,drop_one,tail_cons]
    have room := shows_.room
    rw [spanCons] at room
    refine ⟨e,?_,?_,?_⟩
    · rw [← head?_drop,rest,head?_cons]
    · rw [showsLen shows_,copiesSlice shows_.inside (by omega),showsHead shows_]
    · rw [showsLen shows_,offsetMod sized,next]
      exact showsNext shows_

section
variable (readable : Readable s)
include readable

theorem lockedReadable (nonempty : headerLen segs ≠ 0)
    (rolled : copyFails s.log h segs = true → orig = s.log.wOff) : Readable (traceLocked s orig h segs) := by
  have locked := writeLockedCases readable.sized orig h segs
  have rest := lockedRest locked
  have grows : s.written.length ≤ (traceLocked s orig h segs).written.length := by
    simp only [traceLocked]
    split <;> simp
  have head := lockedShows readable.sized nonempty locked rolled readable.count readable.head
  refine ⟨lockedSized readable.sized locked rolled,?_,?_,fun r off' here => ?_,fun r off' here => ?_,fun r off' here i bytes got => ?_⟩
  · rw [traceLocked,length_append]
    exact le_trans head.1 grows
  · rw [traceLocked,length_append]
    have shown := head.2
    rw [← show (writeLocked s.log orig h segs).1.head = fixUp s.log (HEADER + headerLen segs) s.log.head from rest.head] at shown
    exact shown
  case refine_3 | refine_4 =>
    obtain ⟨off,known,rfl,ledger⟩ := lockedReader readable.sized here
    have shown := lockedShows readable.sized nonempty locked rolled (readable.place r off known) (readable.reader r off known)
    rw [ledger,length_append,← add_assoc]
    first
    | exact le_trans shown.1 grows
    | exact shown.2
  · obtain ⟨off,known,rfl,ledger⟩ := lockedReader readable.sized here
    rw [ledger] at got
    rcases lt_or_ge i (s.ledger r).length with old | new
    · rw [getElem?_append_left old] at got
      have value := readable.returned r off known i bytes got
      have inside := (List.getElem?_eq_some_iff.mp value).1
      simp only [traceLocked]
      split
      · exact value
      · rw [getElem?_append_left inside]
        exact value
    · rw [getElem?_append_right new] at got
      exact absurd got fatesUnread

theorem writeReadable (rolled : copyFails s.log h segs = true → orig = s.log.wOff) :
    Readable (traceWrite s orig h segs) := by
  by_cases empty : headerLen segs = 0
  · rw [traceWriteEmpty empty]
    exact readable
  · rw [traceWriteLocked empty]
    exact lockedReadable readable empty rolled

theorem readerReadable (r : Nat) (o : Option Nat) (start : Nat) (ledger : List Fate)
    (own : ∀ off, o = some off → Tells s off start ledger) :
    Readable {s with log := setReader s.log r o, start := update s.start r start, ledger := update s.ledger r ledger} := by
  have cast : ∀ {off entries}, Shows s.log off entries → Shows (setReader s.log r o) off entries :=
    fun old => ⟨old.inside,old.bytes,old.room,old.finish,old.whole⟩
  have each : ∀ c off, (setReader s.log r o).readers c = some off →
      Tells s off (update s.start r start c) (update s.ledger r ledger c) := by
    intro c off here
    by_cases same : c = r
    · subst same
      simpa using own off (by simpa using here)
    · simp only [update_of_ne same]
      have here : s.log.readers c = some off := by simpa [same] using here
      exact ⟨readable.place c off here,readable.reader c off here,readable.returned c off here⟩
  exact ⟨⟨readable.sized.power,readable.sized.large,readable.sized.inside⟩,readable.count,cast readable.head,
    fun c off here => (each c off here).1,fun c off here => cast (each c off here).2.1,fun c off here => (each c off here).2.2⟩

theorem openReadable (r : Nat) : Readable (traceOpen s r) := by
  unfold traceOpen
  split
  · exact readable
  refine readerReadable readable r _ _ _ fun off eq => ?_
  cases eq
  exact ⟨readable.count,readable.head,by simp⟩

theorem releaseReadable (r : Nat) : Readable (traceRelease s r) := by
  have gone := readerReadable readable r none (s.start r) (s.ledger r) (by simp)
  rw [update_eq_self,update_eq_self] at gone
  exact gone

theorem flushReadable : Readable (traceFlush s) := by
  have sized : Sized (flushLog s.log) := ⟨readable.sized.power,readable.sized.large,readable.sized.inside⟩
  have all : ∀ n, n ≤ s.written.length → n + (s.written.length - n) = s.written.length := fun n small => by omega
  have readers : ∀ r off, (traceFlush s).log.readers r = some off → off = s.log.wOff ∧ ∃ old, s.log.readers r = some old := by
    intro r off here
    obtain ⟨old,known,same⟩ := Option.map_eq_some_iff.mp here
    exact ⟨same.symm,old,known⟩
  have place : ∀ r off, (traceFlush s).log.readers r = some off →
      s.start r + ((traceFlush s).ledger r).length = s.written.length := by
    intro r off here
    obtain ⟨_,old,known⟩ := readers r off here
    simp only [traceFlush,length_append,length_replicate]
    have := readable.place r old known
    omega
  refine ⟨sized,?_,?_,fun r off here => le_of_eq (place r off here),fun r off here => ?_,fun r off here i bytes got => ?_⟩
  · simp only [traceFlush,length_append,length_replicate]
    rw [all _ readable.count]
  · simp only [traceFlush,length_append,length_replicate]
    rw [all _ readable.count,drop_length]
    exact showsEmpty sized
  · have same := (readers r off here).1
    subst same
    have full := place r _ here
    show Shows (flushLog s.log) s.log.wOff (s.written.drop (s.start r + ((traceFlush s).ledger r).length))
    rw [full,drop_length]
    exact showsEmpty sized
  · obtain ⟨_,old,known⟩ := readers r off here
    simp only [traceFlush] at got
    rcases lt_or_ge i (s.ledger r).length with before | after_
    · rw [getElem?_append_left before] at got
      exact readable.returned r old known i bytes got
    · rw [getElem?_append_right after_] at got
      cases eq_of_mem_replicate (mem_of_getElem? got)

theorem readReadable (r count : Nat) (fault : ReadFault) : Readable (traceRead s r count fault) := by
  unfold traceRead
  have outcome := readCases s.log r count fault
  generalize loggerRead s.log r count fault = out at outcome
  cases outcome with
  | nothing result plain =>
    split
    · rename_i bytes same
      exact absurd same (plain bytes)
    · exact readable
  | taken off known more =>
    obtain ⟨e,at_,same,next⟩ := takenEntry readable.sized (readable.reader r off known) more
    rw [same]
    have inside := (List.getElem?_eq_some_iff.mp at_).1
    have moved := readerReadable readable r (some (loggerOffset s.log (off + getEntryLen s.log off))) (s.start r)
      (s.ledger r ++ [.read e]) ?_
    · rw [update_eq_self] at moved
      exact moved
    rintro _ ⟨⟩
    refine ⟨by simp only [length_append,length_singleton]; omega,by rw [length_append]; exact next,
      fun i bytes got => ?_⟩
    rcases Nat.lt_trichotomy i (s.ledger r).length with old | new | beyond
    · rw [getElem?_append_left old] at got
      exact readable.returned r off known i bytes got
    · subst new
      simp at got
      exact got ▸ at_
    · rw [getElem?_eq_none (by simp; omega)] at got
      cases got

end

theorem startReadable {size} (power : ∃ k, size = 2^k) (large : LOGGER_ENTRY_MAX_LEN < size) : Readable (emptyTrace size) := by
  have sized : Sized (emptyLog size) := ⟨power,large,zero_lt_of_lt large⟩
  refine ⟨sized,le_refl 0,showsEmpty sized,?_,?_,?_⟩ <;> simp [emptyTrace,emptyLog]

theorem fatesOverwritten (sized : Sized log) (shows_ : Shows log off (written.drop k))
    (exactly : clockInterval log.wOff (loggerOffset log (log.wOff + (HEADER + headerLen segs))) off = true →
      LapsExactly log (HEADER + headerLen segs) (reach log h segs) off)
    (reached : reach log h segs ≤ HEADER + headerLen segs) : ∀ fate ∈ fates log h segs off, fate = .overwritten := by
  intro fate here
  obtain ⟨p,mem,rfl⟩ := mem_map.mp here
  by_cases lapped : clockInterval log.wOff (loggerOffset log (log.wOff + (HEADER + headerLen segs))) off = true
  · rw [if_pos (pulledOverReached sized shows_ (headerLenMax segs) reached lapped (exactly lapped) p mem)]
  · rw [pulledOver,if_neg lapped] at mem
    cases mem

theorem reachLe (sized : Sized log) (h : Stamp) (segs : List Segment) : reach log h segs ≤ HEADER + headerLen segs := by
  have locked := writeLockedCases sized 0 h segs
  generalize writeLocked log 0 h segs = out at locked
  cases locked with
  | done log' succeeds wrote wOff rest whole => exact le_of_eq whole
  | failed log' fails kept wOff rest reached => exact reached

end EclairKernel.Logger
