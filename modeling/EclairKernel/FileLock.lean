import Mathlib.Logic.Function.Basic
import EclairKernel.Run

/-! POSIX file locks: `__posix_lock_file` with its conflict search, the deadlock
search over the blocked requests and the update of an inode's lock list.
A `file_lock` is known by its address; the lists hold addresses, and a record
is changed in place, also while `request` points at it. -/
namespace EclairKernel.FileLock
open Function

def OFFSET_MAX : Int := 0x7fffffffffffffff
def MAX_DEADLK_ITERATIONS : Nat := 10
def FILE_LOCK_DEFERRED : Int := 1
def ENOENT : Int := 2
def EAGAIN : Int := 11
def EDEADLK : Int := 35
def ENOLCK : Int := 37

inductive LockType
  | rdlck
  | wrlck
  | unlck
  deriving DecidableEq, Repr

-- The owner is what `posix_same_owner` compares; `posix` is `IS_POSIX`.
structure Lock (O : Type) where
  posix : Bool
  flOwner : O
  flType : LockType
  flStart : Int
  flEnd : Int
  deriving DecidableEq, Repr

/-- All lock lists, with the requests that wait on a lock: `flBlock` is the list
of waiters of a record, `flNext` the record a waiter is queued on, `blockedList`
the global list of waiters. `woken` logs every waiter that was woken. -/
structure System (O : Type) where
  lock : Nat → Lock O
  iFlock : Nat → List Nat
  flBlock : Nat → List Nat
  flNext : Nat → Option Nat
  blockedList : List Nat
  woken : List Nat
  fresh : Nat

structure Request (O : Type) where
  inode : Nat
  owner : O
  type : LockType
  start : Int
  stop : Int
  flAccess : Bool
  flExists : Bool
  flSleep : Bool
  -- what `locks_alloc_lock` answers for `new_fl` and `new_fl2`
  alloc : Bool
  alloc2 : Bool
  deriving DecidableEq, Repr

def Request.lock {O : Type} (q : Request O) : Lock O := ⟨true,q.owner,q.type,q.start,q.stop⟩

variable {O : Type}

section
variable [DecidableEq O]

def locksOverlap (fl1 fl2 : Lock O) : Bool := decide (fl1.flEnd ≥ fl2.flStart) && decide (fl2.flEnd ≥ fl1.flStart)

def posixSameOwner (fl1 fl2 : Lock O) : Bool := decide (fl1.flOwner = fl2.flOwner)

def locksConflict (caller sys : Lock O) : Bool := decide (sys.flType = .wrlck) || decide (caller.flType = .wrlck)

def posixLocksConflict (caller sys : Lock O) : Bool :=
  if !sys.posix || posixSameOwner caller sys then false
  else if !locksOverlap caller sys then false
  else locksConflict caller sys

def locksDeleteBlock (s : System O) (waiter : Nat) : System O :=
  { s with
    flBlock := fun b => (s.flBlock b).filter (· ≠ waiter)
    blockedList := s.blockedList.filter (· ≠ waiter)
    flNext := update s.flNext waiter none }

def locksInsertBlock (s : System O) (blocker waiter : Nat) : System O :=
  { s with
    flBlock := update s.flBlock blocker (s.flBlock blocker ++ [waiter])
    flNext := update s.flNext waiter (some blocker)
    blockedList := if (s.lock blocker).posix then waiter::s.blockedList else s.blockedList }

def wakeUp (s : System O) (waiter : Nat) : System O :=
  { locksDeleteBlock s waiter with woken := s.woken ++ [waiter] }

def locksWakeUpBlocks (s : System O) (blocker : Nat) : System O := (s.flBlock blocker).foldl wakeUp s

def whatOwnerIsWaitingFor (s : System O) (block : Nat) : Option Nat :=
  (s.blockedList.find? fun fl => posixSameOwner (s.lock fl) (s.lock block)).bind s.flNext

def deadlockLoop (s : System O) (caller : Lock O) : Nat → Nat → Bool
  | 0, _ => false
  | rounds+1, block =>
    match whatOwnerIsWaitingFor s block with
    | none => false
    | some block => if posixSameOwner caller (s.lock block) then true else deadlockLoop s caller rounds block

def posixLocksDeadlock (s : System O) (caller : Lock O) (block : Nat) : Bool :=
  deadlockLoop s caller (MAX_DEADLK_ITERATIONS + 1) block

/-- The update in progress: `done` is the list up to `before`, `rest` the list
from there on, `request` the record the pointer of that name is at. `wakes` are
the calls of `locks_wake_up_blocks` in order: the update reads no waiter. -/
structure Scan (O : Type) where
  lock : Nat → Lock O
  wakes : List Nat
  done : List Nat
  rest : List Nat
  request : Nat
  added : Bool
  left : Option Nat
  right : Option Nat

namespace Scan

def pass (sc : Scan O) (fl : Nat) : Scan O := { sc with done := sc.done ++ [fl] }

def widen (sc : Scan O) (fl : Nat) : Scan O :=
  let f := sc.lock fl
  let r := sc.lock sc.request
  let start := if f.flStart > r.flStart then r.flStart else f.flStart
  let stop := if f.flEnd < r.flEnd then r.flEnd else f.flEnd
  { sc with
    lock := update (update sc.lock fl { f with flStart := start, flEnd := stop })
      sc.request { r with flStart := start, flEnd := stop } }

def become (sc : Scan O) (fl : Nat) : Scan O :=
  { sc with request := fl, added := true, done := sc.done ++ [fl] }

def delete (sc : Scan O) (fl : Nat) : Scan O := { sc with wakes := sc.wakes ++ [fl] }

def replace (sc : Scan O) (fl : Nat) : Scan O :=
  let r := sc.lock sc.request
  { sc with
    lock := update sc.lock fl
      { sc.lock fl with flStart := r.flStart, flEnd := r.flEnd, flType := r.flType }
    wakes := sc.wakes ++ [fl] }

def overlap (sc : Scan O) (fl : Nat) : Scan O :=
  { sc with
    added := sc.added || decide ((sc.lock sc.request).flType = .unlck)
    left := if (sc.lock fl).flStart < (sc.lock sc.request).flStart then some fl else sc.left }

end Scan

def processLocks (sc : Scan O) : List Nat → Scan O
  | [] => { sc with rest := [] }
  | fl::rest =>
    let f := sc.lock fl
    let r := sc.lock sc.request
    if !posixSameOwner r f then { sc with rest := fl::rest }
    else if r.flType = f.flType then
      if f.flEnd < r.flStart - 1 then processLocks (sc.pass fl) rest
      else if f.flStart - 1 > r.flEnd then { sc with rest := fl::rest }
      else if sc.added then processLocks ((sc.widen fl).delete fl) rest
      else processLocks ((sc.widen fl).become fl) rest
    else if f.flEnd < r.flStart then processLocks (sc.pass fl) rest
    else if f.flStart > r.flEnd then { sc with rest := fl::rest }
    else if f.flEnd > r.flEnd then { sc.overlap fl with rest := fl::rest, right := some fl }
    else if f.flStart ≥ r.flStart then
      if (sc.overlap fl).added then processLocks ((sc.overlap fl).delete fl) rest
      else processLocks (((sc.overlap fl).replace fl).become fl) rest
    else processLocks ((sc.overlap fl).pass fl) rest

namespace Scan

def insertCopy (sc : Scan O) (new src : Nat) : Scan O :=
  { sc with lock := update sc.lock new (sc.lock src), rest := new::sc.rest }

def cutRight (sc : Scan O) (right : Nat) : Scan O :=
  { sc with
    lock := update sc.lock right
      { sc.lock right with flStart := (sc.lock sc.request).flEnd + 1 }
    wakes := sc.wakes ++ [right] }

def cutLeft (sc : Scan O) (left : Nat) : Scan O :=
  { sc with
    lock := update sc.lock left
      { sc.lock left with flEnd := (sc.lock sc.request).flStart - 1 }
    wakes := sc.wakes ++ [left] }

def finishRight (sc : Scan O) (newFl2 : Option Nat) : Scan O :=
  match sc.right with
  | none => sc
  | some right =>
    match newFl2 with
    | some new => if sc.left = sc.right then ({ sc.insertCopy new right with left := some new }).cutRight right else sc.cutRight right
    | none => sc.cutRight right

def finishLeft (sc : Scan O) : Scan O :=
  match sc.left with
  | none => sc
  | some left => sc.cutLeft left

def finish (sc : Scan O) (flExists : Bool) (newFl newFl2 : Option Nat) : Int × Scan O :=
  if sc.right.isSome ∧ sc.left = sc.right ∧ newFl2 = none then (-ENOLCK,sc)
  else if sc.added then (0,(sc.finishRight newFl2).finishLeft)
  else if (sc.lock sc.request).flType = .unlck then (if flExists then -ENOENT else 0,sc)
  else match newFl with
    | none => (-ENOLCK,sc)
    | some new => (0,((sc.insertCopy new sc.request).finishRight newFl2).finishLeft)

end Scan

def startScan (s : System O) (inode request : Nat) : Scan O × List Nat :=
  let skip := fun fl => !(s.lock fl).posix || !posixSameOwner (s.lock request) (s.lock fl)
  (⟨s.lock,[],(s.iFlock inode).takeWhile skip,[],request,false,none,none⟩,(s.iFlock inode).dropWhile skip)

def settle (s : System O) (inode : Nat) (sc : Scan O) : System O :=
  sc.wakes.foldl locksWakeUpBlocks
    { s with lock := sc.lock, iFlock := update s.iFlock inode (sc.done ++ sc.rest) }

def enter (s : System O) (q : Request O) : System O :=
  { s with lock := update s.lock s.fresh q.lock, fresh := s.fresh + 3 }

def needsNew (q : Request O) : Bool :=
  !q.flAccess && (decide (q.type ≠ .unlck) || decide (q.start ≠ 0) || decide (q.stop ≠ OFFSET_MAX))

def newFl (s : System O) (q : Request O) : Option Nat := if needsNew q && q.alloc then some (s.fresh + 1) else none

def newFl2 (s : System O) (q : Request O) : Option Nat := if needsNew q && q.alloc2 then some (s.fresh + 2) else none

def firstConflict (s : System O) (q : Request O) : Option Nat :=
  if q.type = .unlck then none
  else (s.iFlock q.inode).find? fun fl => (s.lock fl).posix && posixLocksConflict q.lock (s.lock fl)

def updateLocks (s : System O) (q : Request O) : Int × System O :=
  let start := startScan (enter s q) q.inode s.fresh
  let ended := (processLocks start.1 start.2).finish q.flExists (newFl s q) (newFl2 s q)
  (ended.1,settle (enter s q) q.inode ended.2)

def posixLockFile (s : System O) (q : Request O) : Int × System O :=
  match firstConflict s q with
  | some fl =>
    if !q.flSleep then (-EAGAIN,enter s q)
    else if posixLocksDeadlock (enter s q) q.lock fl then (-EDEADLK,enter s q)
    else (FILE_LOCK_DEFERRED,locksInsertBlock (enter s q) fl s.fresh)
  | none => if q.flAccess then (0,enter s q) else updateLocks s q

end

/-! `flock_to_posix_lock` and `flock64_to_posix_lock`: the range that user space names
against the range of the lock. The two differ in the signed type of `start` and `end`. -/

def EINVAL : Int := 22
def EOVERFLOW : Int := 75
def OFFT_OFFSET_MAX : Int := 0x7fffffff

structure Flock where
  lType : Nat
  lWhence : Nat
  lStart : Int
  lLen : Int

-- The signed type with the largest value `limit`; the Makefile asks for -fwrapv.
def signed (limit v : Int) : Int := (v + (limit + 1)) % (2 * (limit + 1)) - (limit + 1)

-- `none` is -EINVAL.
def assignType : Nat → Option LockType
  | 0 => some .rdlck
  | 1 => some .wrlck
  | 2 => some .unlck
  | _ => none

def seekBase (fPos iSize : Int) : Nat → Option Int
  | 0 => some 0
  | 1 => some fPos
  | 2 => some iSize
  | _ => none

variable {limit v fPos iSize l}

def setRange (owner : O) (l : Flock) (flStart flEnd : Int) : Except Int (Lock O) :=
  if flEnd < flStart then .error (-EOVERFLOW)
  else
    match assignType l.lType with
    | none => .error (-EINVAL)
    | some type => .ok ⟨true,owner,type,flStart,flEnd⟩

def toPosixLock (limit : Int) (owner : O) (fPos iSize : Int) (l : Flock) : Except Int (Lock O) :=
  match seekBase fPos iSize l.lWhence with
  | none => .error (-EINVAL)
  | some base =>
    let start := signed limit (signed limit base + l.lStart)
    if start < 0 then .error (-EINVAL)
    else if l.lLen > 0 then setRange owner l start (signed limit (start + l.lLen - 1))
    else if l.lLen < 0 then
      let low := signed limit (start + l.lLen)
      if low < 0 then .error (-EINVAL) else setRange owner l low (signed limit (start - 1))
    else setRange owner l start OFFSET_MAX

def flockToPosixLock (owner : O) := toPosixLock OFFT_OFFSET_MAX owner
def flock64ToPosixLock (owner : O) := toPosixLock OFFSET_MAX owner

def posixRange (base : Int) (l : Flock) : Int × Int :=
  let s := base + l.lStart
  if l.lLen > 0 then (s,s + l.lLen - 1) else if l.lLen < 0 then (s + l.lLen,s - 1) else (s,OFFSET_MAX)

def Fits (limit : Int) (l : Flock) : Prop := (-limit ≤ l.lStart + 1 ∧ l.lStart ≤ limit) ∧ -limit ≤ l.lLen + 1 ∧ l.lLen ≤ limit

def Exact (limit fPos iSize : Int) (l : Flock) (out : Except Int (Lock O)) : Prop :=
  ∀ fl, out = .ok fl → ∃ base, seekBase fPos iSize l.lWhence = some base ∧ (fl.flStart,fl.flEnd) = posixRange base l ∧
    0 ≤ fl.flStart ∧ fl.flStart ≤ fl.flEnd ∧ (fl.flEnd ≤ limit ∨ l.lLen = 0)

theorem signedFits (low : -limit ≤ v + 1) (high : v ≤ limit) : signed limit v = v := by
  rw [signed,Int.emod_eq_of_lt (by omega) (by omega)]
  omega

theorem signedRange (large : 0 ≤ limit) (v : Int) : -limit ≤ signed limit v + 1 ∧ signed limit v ≤ limit := by
  have low := Int.emod_nonneg (v + (limit + 1)) (b := 2 * (limit + 1)) (by omega)
  have high := Int.emod_lt_of_pos (v + (limit + 1)) (b := 2 * (limit + 1)) (by omega)
  unfold signed
  omega

-- A sum past the limit comes back negative.
theorem signedBack (low : -limit ≤ v + 1) (high : v < 2 * limit + 2) (kept : 0 ≤ signed limit v) :
    v ≤ limit ∧ signed limit v = v := by
  refine (fun within => ⟨within,signedFits low within⟩) (Int.not_lt.mp fun past => ?_)
  rw [signed,← Int.sub_emod_right,Int.emod_eq_of_lt (by omega) (by omega)] at kept
  omega

theorem signedSum (v w : Int) : signed limit (signed limit v + w) = signed limit (v + w) := by
  unfold signed
  rw [show ∀ r : Int, r - (limit + 1) + w + (limit + 1) = r + w from fun r => by omega,Int.emod_add_emod]
  congr 2
  omega

theorem setRangeOk {owner : O} {flStart flEnd : Int} {fl : Lock O} : setRange owner l flStart flEnd = .ok fl ↔
    flStart ≤ flEnd ∧ ∃ type, assignType l.lType = some type ∧ fl = ⟨true,owner,type,flStart,flEnd⟩ := by
  unfold setRange
  split
  · exact ⟨fun ok => (by cases ok),fun proper => by omega⟩
  · cases assignType l.lType with
    | none => simp
    | some type => exact ⟨fun ok => ⟨by omega,type,rfl,by cases ok; rfl⟩,fun proper => by simp_all⟩

section
variable {base : Int} {l : Flock} (large : 0 ≤ limit) (most : limit ≤ OFFSET_MAX) (whence : seekBase fPos iSize l.lWhence = some base)
include large most whence

theorem convertedOk {owner : O} {fl} (fits : Fits limit l) : toPosixLock limit owner fPos iSize l = .ok fl ↔
    let start := signed limit (base + l.lStart)
    (0 ≤ start ∧ start + l.lLen - 1 ≤ limit ∧ 0 ≤ start + l.lLen) ∧ ∃ type, assignType l.lType = some type ∧
      fl = ⟨true,owner,type,(posixRange (start - l.lStart) l).1,(posixRange (start - l.lStart) l).2⟩ := by
  obtain ⟨_,short,long⟩ := fits
  have inside := signedRange large (base + l.lStart)
  have cut : signed limit (signed limit base + l.lStart) = signed limit (base + l.lStart) := signedSum base l.lStart
  simp only [toPosixLock,whence,cut,posixRange,Int.sub_add_cancel]
  generalize signed limit (base + l.lStart) = start at inside ⊢
  split
  · exact ⟨fun ok => (by cases ok),fun proper => by omega⟩
  rename_i positive
  split
  · rw [setRangeOk]
    constructor
    · rintro ⟨proper,type,typed,rfl⟩
      have kept : 0 ≤ signed limit (start + l.lLen - 1) := by omega
      obtain ⟨below,same⟩ := signedBack (by omega) (by omega) kept
      exact ⟨by omega,type,typed,by rw [same]⟩
    · rintro ⟨proper,type,typed,rfl⟩
      rw [signedFits (by omega) (by omega)]
      exact ⟨by omega,type,typed,rfl⟩
  split
  · rw [signedFits (by omega) (by omega),signedFits (v := start - 1) (by omega) (by omega)]
    split
    · exact ⟨fun ok => (by cases ok),fun proper => by omega⟩
    · rw [setRangeOk]
      exact ⟨fun ok => ⟨by omega,ok.2⟩,fun ok => ⟨by omega,ok.2⟩⟩
  · rw [setRangeOk]
    exact ⟨fun ok => ⟨by omega,ok.2⟩,fun ok => ⟨by omega,ok.2⟩⟩

theorem exactIff (owner : O) (fits : Fits limit l) : Exact limit fPos iSize l (toPosixLock limit owner fPos iSize l) ↔
    let start := signed limit (base + l.lStart)
    start = base + l.lStart ∨ start < 0 ∨ assignType l.lType = none ∨ limit < start + l.lLen - 1 ∨ start + l.lLen < 0 := by
  have inside := signedRange large (base + l.lStart)
  constructor
  · intro right
    dsimp only
    rcases Int.lt_or_le (signed limit (base + l.lStart)) 0 with low | positive
    · exact .inr (.inl low)
    rcases Int.lt_or_le limit (signed limit (base + l.lStart) + l.lLen - 1) with high | below
    · exact .inr (.inr (.inr (.inl high)))
    rcases Int.lt_or_le (signed limit (base + l.lStart) + l.lLen) 0 with low | above
    · exact .inr (.inr (.inr (.inr low)))
    cases typed : assignType l.lType with
    | none => exact .inr (.inr (.inl rfl))
    | some type =>
      obtain ⟨base',whence',range,_⟩ := right _ ((convertedOk large most whence fits).mpr ⟨⟨positive,below,above⟩,type,typed,rfl⟩)
      cases whence.symm.trans whence'
      unfold posixRange at range
      split at range
      · have first := congrArg Prod.fst range
        exact .inl (by dsimp only at first; omega)
      split at range
      · have first := congrArg Prod.fst range
        exact .inl (by dsimp only at first; omega)
      · have first := congrArg Prod.fst range
        exact .inl (by dsimp only at first; omega)
  · intro meets fl ok
    obtain ⟨⟨positive,below,above⟩,type,typed,rfl⟩ := (convertedOk large most whence fits).mp ok
    have kept : signed limit (base + l.lStart) = base + l.lStart := by
      rcases meets with kept | low | none | high | low
      · exact kept
      · omega
      · rw [none] at typed
        cases typed
      · omega
      · omega
    rw [kept] at positive below above inside ⊢
    rw [Int.add_sub_cancel]
    refine ⟨base,whence,rfl,?_⟩
    unfold posixRange
    split
    · dsimp only
      omega
    split
    · dsimp only
      omega
    · dsimp only
      omega

end

/-- The position that l_whence and l_start name is an off_t, or the one cut to 32 bits is refused. -/
def PositionFits (fPos iSize : Int) (l : Flock) : Prop :=
  ∀ base, seekBase fPos iSize l.lWhence = some base → base + l.lStart ≤ OFFT_OFFSET_MAX ∨ assignType l.lType = none ∨
    let low := (base + l.lStart) % 0x100000000
    OFFT_OFFSET_MAX < low ∨ OFFT_OFFSET_MAX < low + l.lLen - 1 ∨ low + l.lLen < 0

theorem rangesExact (owner : O) (position : 0 ≤ fPos ∧ fPos ≤ OFFSET_MAX) (size : 0 ≤ iSize ∧ iSize ≤ OFFSET_MAX) (l : Flock) :
    (Fits OFFSET_MAX l → Exact OFFSET_MAX fPos iSize l (flock64ToPosixLock owner fPos iSize l)) ∧
    (Fits OFFT_OFFSET_MAX l → (Exact OFFT_OFFSET_MAX fPos iSize l (flockToPosixLock owner fPos iSize l) ↔ PositionFits fPos iSize l)) := by
  cases whence : seekBase fPos iSize l.lWhence with
  | none =>
    have refused (limit : Int) : toPosixLock limit owner fPos iSize l = .error (-EINVAL) := by simp [toPosixLock,whence]
    simp [Exact,flock64ToPosixLock,flockToPosixLock,refused,PositionFits,whence]
  | some base =>
    have inside : 0 ≤ base ∧ base ≤ OFFSET_MAX := by
      unfold seekBase at whence
      split at whence <;> cases whence
      · decide
      · exact position
      · exact size
    refine ⟨fun fits => (exactIff (by decide) (by decide) whence owner fits).mpr ?_,
      fun fits => (exactIff (by decide) (by decide) whence owner fits).trans ?_⟩
    · rcases Int.lt_or_le (signed OFFSET_MAX (base + l.lStart)) 0 with low | kept
      · exact .inr (.inl low)
      · have start := fits.1
        exact .inl (signedBack (by omega) (by omega) kept).2
    · have start := fits.1
      simp only [PositionFits,whence,Option.some.injEq,forall_eq']
      unfold signed OFFT_OFFSET_MAX at *
      rcases Int.lt_or_le 0x7fffffff (base + l.lStart) with past | small
      · rcases Int.lt_or_le 0x7fffffff ((base + l.lStart) % 0x100000000) with cut | cut
        · exact ⟨fun _ => .inr (.inr (.inl cut)),fun _ => .inr (.inl (by omega))⟩
        · have same : (base + l.lStart + (0x7fffffff + 1)) % (2 * (0x7fffffff + 1)) - (0x7fffffff + 1) = (base + l.lStart) % 0x100000000 := by
            omega
          have other : (base + l.lStart) % 0x100000000 ≠ base + l.lStart := by omega
          simp only [same,other,Int.not_lt.mpr cut,Int.not_le.mpr past,Int.not_lt.mpr (Int.emod_nonneg _ (by decide : (0x100000000 : Int) ≠ 0)),
            false_or]
      · have kept : (base + l.lStart + (0x7fffffff + 1)) % (2 * (0x7fffffff + 1)) - (0x7fffffff + 1) = base + l.lStart := by omega
        simp only [kept,small,true_or]

theorem exampleRange : Exact OFFT_OFFSET_MAX 0x80000000 9 ⟨0,1,-8,-32⟩ (flockToPosixLock () 0x80000000 9 ⟨0,1,-8,-32⟩) ∧
    flockToPosixLock () 0x80000000 9 ⟨0,1,-8,-32⟩ = .ok ⟨true,(),.rdlck,0x7fffffd8,0x7ffffff7⟩ :=
  ⟨((rangesExact () (by decide) (by decide) ⟨0,1,-8,-32⟩).2 (by unfold Fits; decide)).mpr
    (by simp [PositionFits,seekBase,OFFT_OFFSET_MAX]),rfl⟩

/-- At position 2^32 the one byte there is asked for, and byte 0 is locked. -/
theorem positionCut : ¬ Exact OFFT_OFFSET_MAX 0x100000000 0 ⟨1,1,0,1⟩ (flockToPosixLock () 0x100000000 0 ⟨1,1,0,1⟩) := by
  intro exact_
  obtain ⟨base,whence,range,_⟩ := exact_ ⟨true,(),.wrlck,0,0⟩ rfl
  cases whence
  exact absurd range (by decide)

end EclairKernel.FileLock
