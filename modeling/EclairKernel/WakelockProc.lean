import Mathlib.Data.List.Basic
import Mathlib.Tactic.Linarith

/-! kernel/power/wakelock.c: the text of /proc/wakelocks, with vsnprintf of lib/vsprintf.c.
A call is modelled by the bytes it writes, each with its offset from the page, and by the
length it returns. Whether every byte lies in the buffer depends on the count alone, and on
whether there is a lock at all. -/
namespace EclairKernel.Wakelock
open List Int

structure Write where
  off : Int
  byte : UInt8
  deriving DecidableEq, Repr

def bytesOf (s : String) : List UInt8 := s.toList.map fun c => UInt8.ofNat c.toNat
def decimal (n : Int) : List UInt8 := bytesOf (toString n)

def emit (base : Int) (size : Nat) (pos : Nat) : List UInt8 → List Write
  | [] => if size = 0 then [] else [⟨base + (if pos < size then (pos : Int) else size - 1),0⟩]
  | c::rest => (if pos < size then [⟨base + pos,c⟩] else []) ++ emit base size (pos + 1) rest

def vsnprintf (base size : Int) (text : List UInt8) : List Write × Int :=
  if size < 0 then ([],0) else (emit base size.toNat 0 text,text.length)

structure LockStat where
  name : List UInt8
  active : Bool
  preventingSuspend : Bool
  count : Int
  expireCount : Int
  wakeupCount : Int
  totalTime : Int
  preventSuspendTime : Int
  maxTime : Int
  lastTime : Int

structure Clock where
  expired : Bool
  now : Int
  lastSleepTimeUpdate : Int

def int32 (n : Int) : Int := n.bmod (2^32)
def ktime (n : Int) : Int := n.bmod (2^64)

def numbers (lock : LockStat) (clock : Clock) : List Int :=
  if lock.active then
    let addTime := ktime (clock.now - lock.lastTime)
    [int32 (lock.count + 1),if clock.expired then int32 (lock.expireCount + 1) else lock.expireCount,lock.wakeupCount,
     if clock.expired then 0 else addTime,ktime (lock.totalTime + addTime),
     if lock.preventingSuspend then ktime (lock.preventSuspendTime + ktime (clock.now - clock.lastSleepTimeUpdate))
     else lock.preventSuspendTime,
     if addTime > lock.maxTime then addTime else lock.maxTime,lock.lastTime]
  else [lock.count,lock.expireCount,lock.wakeupCount,0,lock.totalTime,lock.preventSuspendTime,lock.maxTime,lock.lastTime]

def line (lock : LockStat) (clock : Clock) : List UInt8 :=
  bytesOf "\"" ++ lock.name ++ bytesOf "\"" ++ (numbers lock clock).flatMap (fun n => bytesOf "\t" ++ decimal n) ++ bytesOf "\n"

def printLockStat (base len : Int) (lock : LockStat) (clock : Clock) : List Write × Int :=
  let out := vsnprintf base len (line lock clock)
  (out.1,if out.2 > len then len else out.2)

def heading : List UInt8 :=
  bytesOf "name\tcount\texpire_count\twake_count\tactive_since\ttotal_time\tsleep_time\tmax_time\tlast_change\n"
def TOO_MAY_LOCKS_WARNING : List UInt8 := bytesOf "\n\ntoo many wakelocks!!!\n"

def printLocks (count len : Int) : List (LockStat × Clock) → List Write × Int
  | [] => ([],len)
  | (lock,clock)::rest =>
    let out := printLockStat len (count - len) lock clock
    let later := printLocks count (len + out.2) rest
    (out.1 ++ later.1,later.2)

def memcpyAt (dst : Int) : List UInt8 → List Write
  | [] => []
  | c::rest => ⟨dst,c⟩::memcpyAt (dst + 1) rest

def wakelocksReadProc (count : Int) (locks : List (LockStat × Clock)) : List Write × Int :=
  let head := vsnprintf 0 count heading
  let lines := printLocks count head.2 locks
  let warning := if lines.2 = count then memcpyAt (lines.2 - TOO_MAY_LOCKS_WARNING.length) TOO_MAY_LOCKS_WARNING else []
  (head.1 ++ lines.1 ++ warning,lines.2)

structure InBuffer (count : Int) (out : List Write × Int) : Prop where
  writes : ∀ w ∈ out.1, 0 ≤ w.off ∧ w.off < count
  length : out.2 ≤ count

section
variable {base size count len text w}

theorem emitInside {pos} (mem : w ∈ emit base size pos text) :
    base ≤ w.off ∧ w.off < base + size := by
  induction text generalizing pos with
  | nil =>
    unfold emit at mem
    split at mem
    · cases mem
    · cases mem_singleton.mp mem
      dsimp only
      split <;> omega
  | cons c rest ih =>
    rcases mem_append.mp mem with here | later
    · split at here
      · cases mem_singleton.mp here
        dsimp only
        omega
      · cases here
    · exact ih later

theorem vsnprintfInside (mem : w ∈ (vsnprintf base size text).1) : base ≤ w.off ∧ w.off < base + size := by
  unfold vsnprintf at mem
  split at mem
  · cases mem
  · have := emitInside mem
    omega

theorem vsnprintfLen (base size : Int) (text : List UInt8) :
    0 ≤ (vsnprintf base size text).2 ∧ (size < 0 → (vsnprintf base size text).2 = 0) := by
  unfold vsnprintf
  split
  · exact ⟨le_refl 0,fun _ => rfl⟩
  · rename_i positive
    exact ⟨natCast_nonneg _,fun negative => absurd negative positive⟩

theorem memcpyAtInside {dst} (mem : w ∈ memcpyAt dst text) : dst ≤ w.off ∧ w.off < dst + text.length := by
  induction text generalizing dst with
  | nil => cases mem
  | cons c rest ih =>
    rw [length_cons]
    rcases mem_cons.mp mem with rfl | later
    · dsimp only
      omega
    · have := ih later
      omega

theorem printLockStatLen (base len : Int) (lock : LockStat) (clock : Clock) :
    (0 ≤ len → 0 ≤ (printLockStat base len lock clock).2 ∧ (printLockStat base len lock clock).2 ≤ len) ∧
    (len < 0 → (printLockStat base len lock clock).2 = len) := by
  have returned := vsnprintfLen base len (line lock clock)
  simp only [printLockStat]
  split <;> omega

theorem printLockStatInside {lock clock} (mem : w ∈ (printLockStat base len lock clock).1) :
    base ≤ w.off ∧ w.off < base + len :=
  vsnprintfInside mem

theorem printLocksInside (locks : List (LockStat × Clock)) (below : 0 ≤ len) (fits : len ≤ count) :
    (∀ w ∈ (printLocks count len locks).1, 0 ≤ w.off ∧ w.off < count) ∧
    len ≤ (printLocks count len locks).2 ∧ (printLocks count len locks).2 ≤ count := by
  induction locks generalizing len with
  | nil => exact ⟨by simp [printLocks],le_refl _,fits⟩
  | cons first rest ih =>
    obtain ⟨lock,clock⟩ := first
    have grown := (printLockStatLen len (count - len) lock clock).1 (by omega)
    have next : 0 ≤ len + (printLockStat len (count - len) lock clock).2 := by omega
    obtain ⟨inside,more,most⟩ := ih next (by omega)
    simp only [printLocks]
    refine ⟨fun w mem => ?_,by omega,most⟩
    rcases mem_append.mp mem with here | later
    · have := printLockStatInside here
      omega
    · exact inside w later

theorem printLocksBeyond {locks} (nonempty : locks ≠ []) (positive : 0 ≤ count) (beyond : count < len) :
    (∀ w ∈ (printLocks count len locks).1, 0 ≤ w.off ∧ w.off < count) ∧ (printLocks count len locks).2 = count := by
  cases locks with
  | nil => exact absurd rfl nonempty
  | cons first rest =>
    obtain ⟨lock,clock⟩ := first
    have back := (printLockStatLen len (count - len) lock clock).2 (by omega)
    have nothing : (printLockStat len (count - len) lock clock).1 = [] := by
      simp only [printLockStat,vsnprintf,if_pos (show count - len < 0 by omega)]
    simp only [printLocks,back,nothing,show len + (count - len) = count by omega]
    obtain ⟨inside,more,most⟩ := printLocksInside rest positive (le_refl count)
    exact ⟨inside,by omega⟩

end

theorem headingLength : heading.length = 91 := by decide +kernel
theorem warningLength : TOO_MAY_LOCKS_WARNING.length = 24 := by decide +kernel

theorem headingPrinted {count} (positive : 1 ≤ count) : (vsnprintf 0 count heading).2 = 91 ∧
    ∀ w ∈ (vsnprintf 0 count heading).1, 0 ≤ w.off ∧ w.off < count := by
  refine ⟨?_,fun w mem => ?_⟩
  · rw [vsnprintf,if_neg (by omega),headingLength]
    rfl
  · have := vsnprintfInside mem
    omega

theorem linesInside {count} (positive : 1 ≤ count) {locks} (some_ : locks ≠ [] ∨ 91 ≤ count) :
    (∀ w ∈ (printLocks count 91 locks).1, 0 ≤ w.off ∧ w.off < count) ∧ (printLocks count 91 locks).2 ≤ count := by
  rcases Int.lt_or_le count 91 with short | fits
  · have nonempty := some_.resolve_right (by omega)
    obtain ⟨inside,full⟩ := printLocksBeyond nonempty (by omega) short
    exact ⟨inside,by omega⟩
  · obtain ⟨inside,_,most⟩ := printLocksInside locks (by decide) fits
    exact ⟨inside,most⟩

theorem readInBufferIff {count} (positive : 1 ≤ count) (locks : List (LockStat × Clock)) :
    InBuffer count (wakelocksReadProc count locks) ↔ 24 ≤ count ∧ (locks ≠ [] ∨ 91 ≤ count) := by
  obtain ⟨length,inside⟩ := headingPrinted positive
  simp only [wakelocksReadProc,length]
  constructor
  · intro ok
    have some_ : locks ≠ [] ∨ 91 ≤ count := by
      by_contra neither
      obtain ⟨none_,short⟩ := not_or.mp neither
      have returned := ok.length
      rw [not_ne_iff.mp none_] at returned
      exact short returned
    refine ⟨?_,some_⟩
    by_contra small
    -- the length has been put back to the count, and the warning begins before the page
    have nonempty := some_.resolve_right (by omega)
    have full := (printLocksBeyond nonempty (show 0 ≤ count by omega) (show count < 91 by omega)).2
    have first := ok.writes ⟨count - 24,10⟩ (by
      rw [full,if_pos rfl]
      exact mem_append_right _ mem_cons_self)
    dsimp only at first
    omega
  · rintro ⟨large,some_⟩
    obtain ⟨lines,most⟩ := linesInside positive some_
    refine ⟨fun w mem => ?_,most⟩
    rcases mem_append.mp mem with text | warning
    · rcases mem_append.mp text with heading | line
      · exact inside w heading
      · exact lines w line
    split at warning
    · have := memcpyAtInside warning
      rw [warningLength] at this
      omega
    · cases warning

def mainLock : LockStat := ⟨bytesOf "main",true,false,0,0,0,0,0,0,0⟩
def quietClock : Clock := ⟨false,1000,0⟩

theorem wholePageInBuffer : InBuffer 3072 (wakelocksReadProc 3072 [(mainLock,quietClock)]) :=
  (readInBufferIff (by decide) _).mpr ⟨by decide,.inl (by decide)⟩

theorem shortReadEscapes : ¬ InBuffer 10 (wakelocksReadProc 10 [(mainLock,quietClock)]) := by
  intro ok
  exact absurd (ok.writes ⟨-14,10⟩ (by decide +kernel)) (by decide)

end EclairKernel.Wakelock
