import Mathlib.Data.Nat.ModEq
import Mathlib.Logic.Function.Basic
import Mathlib.Tactic.Simps.Basic
import EclairKernel.Run
import Mathlib.Data.List.Nodup

/-! kernel/power/wakelock.c: the locks, expire_timer and suspend_work. Time is counted
without bound; jiffies and lock->expires are what 32 bits hold of it. A lock is named by its
address; statistics are left out. -/
namespace EclairKernel.Wakelock
open Run Function Int
def word : Nat := 2^32
def HZ : Nat := 200

def longDiff (a b : Nat) : Int := ((a : Int) - b).bmod word

inductive LockType where
  | suspend
  | idle
  deriving DecidableEq, Repr

/-- struct wake_lock. `deadline` is the time of which `expires` is the low word. -/
structure Lock where
  type : LockType
  autoExpire : Bool
  expires : Nat
  deadline : Nat
  deriving DecidableEq, Repr

inductive Phase where
  | idle
  | checked
  | entered (entryEventNum : Nat)
  deriving DecidableEq, Repr

structure Wake where
  now : Nat
  lock : Nat → Option Lock
  inactive : List Nat
  active : LockType → List Nat
  timer : Option Nat
  queued : Bool
  phase : Phase
  currentEventNum : Nat

def jiffies (s : Wake) : Nat := s.now % word

def mainWakeLock : Nat := 0
def unknownWakeup : Nat := 1

@[simps] def setLock (s : Wake) (l : Nat) (x : Option Lock) : Wake := {s with lock := update s.lock l x}
@[simps] def setTimer (s : Wake) (t : Option Nat) : Wake := {s with timer := t}
@[simps] def queueWork (s : Wake) : Wake := {s with queued := true}
@[simps] def setPhase (s : Wake) (p : Phase) : Wake := {s with phase := p}

@[simps] def unlink (s : Wake) (l : Nat) : Wake :=
  {s with inactive := s.inactive.erase l, active := fun t => (s.active t).erase l}
@[simps] def addInactive (s : Wake) (l : Nat) : Wake := {s with inactive := l::s.inactive}
@[simps] def addActive (s : Wake) (t : LockType) (l : Nat) : Wake :=
  {s with active := update s.active t (l::s.active t)}
@[simps] def addActiveTail (s : Wake) (t : LockType) (l : Nat) : Wake :=
  {s with active := update s.active t (s.active t ++ [l])}

def expireWakeLock (s : Wake) (l : Nat) (x : Lock) : Wake :=
  addInactive (unlink (setLock s l (some {x with autoExpire := false})) l) l

def hasLoop (s : Wake) (max : Int) : List Nat → Wake × Int
  | [] => (s,max)
  | l::rest =>
    match s.lock l with
    | none => hasLoop s max rest
    | some x =>
      if x.autoExpire then
        let timeout := longDiff x.expires (jiffies s)
        if timeout ≤ 0 then hasLoop (expireWakeLock s l x) max rest
        else hasLoop s (if timeout > max then timeout else max) rest
      else (s,-1)

def hasWakeLockLocked (s : Wake) (t : LockType) : Wake × Int := hasLoop s 0 (s.active t)

def settle (s : Wake) (left : Int) : Wake :=
  if left > 0 then setTimer s (some (s.now + left.toNat))
  else
    let s := setTimer s none
    if left = 0 then queueWork s else s

def wakeLockTimeout (s : Wake) (l timeout : Nat) : Wake :=
  match s.lock l with
  | none => s
  | some x =>
    let s := setLock (unlink s l) l (some {x with autoExpire := true, expires := (jiffies s + timeout) % word, deadline := s.now + timeout})
    let s := addActiveTail s x.type l
    match x.type with
    | .idle => s
    | .suspend =>
      let s := {s with currentEventNum := (s.currentEventNum + 1) % word}
      let out := hasWakeLockLocked s .suspend
      settle out.1 out.2

def wakeLock (s : Wake) (l : Nat) : Wake :=
  match s.lock l with
  | none => s
  | some x =>
    let s := setLock (unlink s l) l (some {x with autoExpire := false, expires := 2^31 - 1})
    let s := addActive s x.type l
    match x.type with
    | .idle => s
    | .suspend => settle {s with currentEventNum := (s.currentEventNum + 1) % word} (-1)

def wakeUnlock (s : Wake) (l : Nat) : Wake :=
  match s.lock l with
  | none => s
  | some x =>
    let s := addInactive (unlink (setLock s l (some {x with autoExpire := false})) l) l
    match x.type with
    | .idle => s
    | .suspend =>
      let out := hasWakeLockLocked s .suspend
      settle out.1 out.2

def wakeLockInit (s : Wake) (l : Nat) (t : LockType) : Wake :=
  if (s.lock l).isSome then s else addInactive (setLock s l (some ⟨t,false,0,0⟩)) l

def wakeLockDestroy (s : Wake) (l : Nat) : Wake :=
  match s.lock l with
  | none => s
  | some _ => setLock (unlink s l) l none

def expireWakeLocks (s : Wake) : Wake :=
  let out := hasWakeLockLocked (setTimer s none) .suspend
  if out.2 = 0 then queueWork out.1 else out.1

def suspendBegin (s : Wake) : Wake :=
  let out := hasWakeLockLocked {s with queued := false} .suspend
  if out.2 ≠ 0 then out.1 else setPhase out.1 .checked

def suspendEnd (s : Wake) (entryEventNum : Nat) : Wake :=
  let s := setPhase s .idle
  if s.currentEventNum = entryEventNum then wakeLockTimeout s unknownWakeup (HZ / 2) else s

inductive WakeOp where
  | tick (n : Nat)
  | init (l : Nat) (t : LockType)
  | lock (l : Nat)
  | lockTimeout (l : Nat) (timeout : Fin (2^31))
  | unlock (l : Nat)
  | destroy (l : Nat)
  | fire
  | poll
  | suspendBegin
  | suspendEnter
  | suspendEnd

def isActive (s : Wake) (l : Nat) : Bool := decide (l ∈ s.active .suspend) || decide (l ∈ s.active .idle)

/-- Calls that the users of the file do not make are no steps: a timeout of 0, destroying a
lock that is active without a timeout or one of the file's own. -/
def wakeStep (s : Wake) : WakeOp → Wake
  | .tick n => {s with now := s.now + n}
  | .init l t => wakeLockInit s l t
  | .lock l => wakeLock s l
  | .lockTimeout l timeout => if timeout.val = 0 then s else wakeLockTimeout s l timeout.val
  | .unlock l => wakeUnlock s l
  | .destroy l =>
    if l = mainWakeLock ∨ l = unknownWakeup then s
    else if isActive s l && !((s.lock l).any (·.autoExpire)) then s
    else wakeLockDestroy s l
  | .fire =>
    match s.timer with
    | some t => if t ≤ s.now then expireWakeLocks s else s
    | none => s
  | .poll => (hasWakeLockLocked s .suspend).1
  | .suspendBegin => if s.queued ∧ s.phase = .idle then suspendBegin s else s
  | .suspendEnter => if s.phase = .checked then setPhase s (.entered s.currentEventNum) else s
  | .suspendEnd =>
    match s.phase with
    | .entered n => suspendEnd s n
    | _ => s

def booted (now : Nat) : Wake :=
  ⟨now,fun l => if l = mainWakeLock ∨ l = unknownWakeup then some ⟨.suspend,false,if l = mainWakeLock then 2^31 - 1 else 0,0⟩ else none,
    [unknownWakeup],fun t => if t = .suspend then [mainWakeLock] else [],none,false,.idle,1⟩

/-! Nothing polls, so every operation must leave a reason for the phone to be awake or a
promise to look again: a lock that does not expire, the timer set for the last deadline,
or the suspend work. The timer keeps the promise unless it goes off 2^31 jiffies after a
deadline, when jiffies no longer tells past from future. -/

open Function List Option

def NonExpiring (s : Wake) : Prop := ∃ l ∈ s.active .suspend, ∃ x, s.lock l = some x ∧ x.autoExpire = false
def Covered (s : Wake) : Prop :=
  ∃ t, s.timer = some t ∧ ∀ l ∈ s.active .suspend, ∀ x, s.lock l = some x → x.deadline ≤ t

structure Listed (s : Wake) (l : Nat) (x : Lock) : Prop where
  known : s.lock l = some x
  type : x.type = .suspend
  expires : x.autoExpire = true → x.expires = x.deadline % word ∧ x.deadline ≤ s.now + (2^31 - 1)

structure Tidy (s : Wake) : Prop where
  listed : ∀ l ∈ s.active .suspend, ∃ x, Listed s l x
  once : (s.active .suspend).Nodup
  unknown : ∃ x, s.lock unknownWakeup = some x ∧ x.type = .suspend

structure Awake (s : Wake) : Prop where
  tidy : Tidy s
  reason : NonExpiring s ∨ Covered s ∨
    (s.active .suspend = [] ∧ (s.queued = true ∨ s.phase = .checked ∨ s.phase = .entered s.currentEventNum))

section
variable {s s' l x}

theorem longDiffLe {deadline now : Nat} (near : deadline ≤ now + (2^31 - 1)) :
    (deadline : Int) - now ≤ longDiff (deadline % word) (now % word) := by
  unfold longDiff word bmod
  dsimp only
  split <;> omega

structure Swept (s s' : Wake) : Prop where
  now : s'.now = s.now
  timer : s'.timer = s.timer
  queued : s'.queued = s.queued
  phase : s'.phase = s.phase
  event : s'.currentEventNum = s.currentEventNum
  fewer : (s'.active .suspend).Sublist (s.active .suspend)
  same : ∀ l ∈ s'.active .suspend, s'.lock l = s.lock l
  expired : ∀ l ∈ s.active .suspend, l ∉ s'.active .suspend → ∃ x, s.lock l = some x ∧ x.autoExpire = true
  unknown : ∀ x, s.lock unknownWakeup = some x → ∃ x', s'.lock unknownWakeup = some x' ∧ x'.type = x.type

theorem sweptRefl (s : Wake) : Swept s s :=
  ⟨rfl,rfl,rfl,rfl,rfl,List.Sublist.refl _,fun _ _ => rfl,fun _ mem gone => absurd mem gone,fun x known => ⟨x,known,rfl⟩⟩

theorem sweptTrans {s''} (first : Swept s s') (second : Swept s' s'') : Swept s s'' := by
  refine ⟨second.now.trans first.now,second.timer.trans first.timer,second.queued.trans first.queued,
    second.phase.trans first.phase,second.event.trans first.event,second.fewer.trans first.fewer,fun l mem => ?_,
    fun l mem gone => ?_,fun x known => ?_⟩
  · exact (second.same l mem).trans (first.same l (second.fewer.subset mem))
  · by_cases between : l ∈ s'.active .suspend
    · obtain ⟨x,known,auto⟩ := second.expired l between gone
      exact ⟨x,(first.same l between).symm.trans known,auto⟩
    · exact first.expired l mem between
  · obtain ⟨x',known',type'⟩ := first.unknown x known
    obtain ⟨x'',known'',type''⟩ := second.unknown x' known'
    exact ⟨x'',known'',type''.trans type'⟩

theorem expireSwept (once : (s.active .suspend).Nodup) (known : s.lock l = some x) (auto : x.autoExpire = true) :
    Swept s (expireWakeLock s l x) := by
  have gone : ∀ c, c ∈ (s.active .suspend).erase l → c ≠ l := fun c mem same => by
    subst same
    exact absurd mem once.not_mem_erase
  refine ⟨rfl,rfl,rfl,rfl,rfl,erase_sublist,fun c mem => ?_,fun c mem out => ?_,fun y there => ?_⟩
  · simp [expireWakeLock,gone c mem]
  · by_cases same : c = l
    · exact ⟨x,same ▸ known,auto⟩
    · exact absurd (mem_erase_of_ne same |>.mpr mem) out
  · by_cases same : unknownWakeup = l
    · subst same
      cases some.inj (known.symm.trans there)
      exact ⟨{x with autoExpire := false},by simp [expireWakeLock],rfl⟩
    · exact ⟨y,by simpa [expireWakeLock,same] using there,rfl⟩

theorem sweptTidy (tidy : Tidy s) (swept : Swept s s') : Tidy s' := by
  refine ⟨fun l mem => ?_,swept.fewer.nodup tidy.once,?_⟩
  · obtain ⟨x,listed⟩ := tidy.listed l (swept.fewer.subset mem)
    exact ⟨x,(swept.same l mem).trans listed.known,listed.type,swept.now ▸ listed.expires⟩
  · obtain ⟨x,known,type⟩ := tidy.unknown
    obtain ⟨x',known',type'⟩ := swept.unknown x known
    exact ⟨x',known',type'.trans type⟩

theorem sweptNonExpiring (swept : Swept s s') (holds : NonExpiring s) : NonExpiring s' := by
  obtain ⟨l,mem,x,known,stays⟩ := holds
  have still : l ∈ s'.active .suspend := by
    by_contra gone
    obtain ⟨y,there,auto⟩ := swept.expired l mem gone
    cases some.inj (known.symm.trans there)
    cases stays.symm.trans auto
  exact ⟨l,still,x,(swept.same l still).trans known,stays⟩

theorem sweptCovered (swept : Swept s s') (covered : Covered s) : Covered s' := by
  obtain ⟨t,timer,deadlines⟩ := covered
  refine ⟨t,swept.timer.trans timer,fun l mem x known => ?_⟩
  exact deadlines l (swept.fewer.subset mem) x ((swept.same l mem).symm.trans known)

def Waiting (s : Wake) (max : Int) (l : Nat) : Prop :=
  ∃ x, s.lock l = some x ∧ x.autoExpire = true ∧ 0 < longDiff x.expires (jiffies s) ∧ longDiff x.expires (jiffies s) ≤ max

inductive Answer (s : Wake) : Int → Prop where
  | held : NonExpiring s → Answer s (-1)
  | none : s.active .suspend = [] → Answer s 0
  | expiring (left : Int) : 0 < left → s.active .suspend ≠ [] →
      (∀ l ∈ s.active .suspend, Waiting s left l) → Answer s left

variable {max y timeout}

theorem waitingMore {more} (waiting : Waiting s max l) (le : max ≤ more) : Waiting s more l := by
  obtain ⟨x,known,auto,positive,most⟩ := waiting
  exact ⟨x,known,auto,positive,le_trans most le⟩

theorem sweptWaiting (swept : Swept s s') (mem : l ∈ s'.active .suspend) (waiting : Waiting s max l) : Waiting s' max l := by
  obtain ⟨x,known,auto,bounds⟩ := waiting
  rw [jiffies,← swept.now] at bounds
  exact ⟨x,(swept.same l mem).trans known,auto,bounds⟩

theorem hasLoopAnswer {kept rest} (tidy : Tidy s) (here : s.active .suspend = kept ++ rest)
    (waiting : ∀ l ∈ kept, Waiting s max l) (nothing : kept = [] → max = 0) (something : kept ≠ [] → 0 < max) :
    Swept s (hasLoop s max rest).1 ∧ Answer (hasLoop s max rest).1 (hasLoop s max rest).2 := by
  induction rest generalizing s kept max with
  | nil =>
    rw [append_nil] at here
    refine ⟨sweptRefl s,?_⟩
    cases kept with
    | nil =>
      rw [nothing rfl]
      exact .none here
    | cons first others =>
      have some_ : s.active .suspend ≠ [] := by simp [here]
      exact .expiring max (something (by simp)) some_ fun l mem => waiting l (here ▸ mem)
  | cons l rest ih =>
    obtain ⟨x,listed⟩ := tidy.listed l (by simp [here])
    have apart := tidy.once
    rw [here] at apart
    simp only [hasLoop,listed.known]
    split
    · rename_i auto
      split
      · -- expired: it leaves the list
        have swept := expireSwept tidy.once listed.known auto
        have outside : l ∉ kept := fun mem => (nodup_append.mp apart).2.2 l mem l mem_cons_self rfl
        have left : (expireWakeLock s l x).active .suspend = kept ++ rest := by
          simp [expireWakeLock,here,erase_append_right _ outside]
        obtain ⟨later,answer⟩ := ih (sweptTidy tidy swept) left
          (fun c mem => sweptWaiting swept (by simp [left,mem]) (waiting c mem)) nothing something
        exact ⟨sweptTrans swept later,answer⟩
      · generalize raised : (if longDiff x.expires (jiffies s) > max then longDiff x.expires (jiffies s) else max) = more
        have bounds : max ≤ more ∧ longDiff x.expires (jiffies s) ≤ more ∧ 0 < more := by
          rw [← raised]
          split <;> omega
        refine ih tidy (show s.active .suspend = (kept ++ [l]) ++ rest by simp [here]) (fun c mem => ?_) (by simp) (fun _ => bounds.2.2)
        rcases mem_append.mp mem with old | new
        · exact waitingMore (waiting c old) bounds.1
        · cases mem_singleton.mp new
          exact ⟨x,listed.known,auto,by omega,bounds.2.1⟩
    · rename_i stays
      exact ⟨sweptRefl s,.held ⟨l,by simp [here],x,listed.known,by simpa using stays⟩⟩

theorem hasAnswer (tidy : Tidy s) :
    Swept s (hasWakeLockLocked s .suspend).1 ∧ Answer (hasWakeLockLocked s .suspend).1 (hasWakeLockLocked s .suspend).2 :=
  hasLoopAnswer tidy rfl (by simp) (fun _ => rfl)
    (absurd rfl)

theorem tidySame (tidy : Tidy s) (now : s'.now = s.now) (lock : s'.lock = s.lock) (active : s'.active = s.active) : Tidy s' := by
  obtain ⟨listed,once,unknown⟩ := tidy
  rw [← active] at listed once
  rw [← lock] at unknown
  refine ⟨fun l mem => ?_,once,unknown⟩
  obtain ⟨x,known,type,expires⟩ := listed l mem
  exact ⟨x,lock ▸ known,type,now ▸ expires⟩

theorem settleAwake {left : Int} (tidy : Tidy s) (answer : Answer s left) : Awake (settle s left) := by
  unfold settle
  cases answer with
  | held holds => exact ⟨tidySame tidy rfl rfl rfl,.inl holds⟩
  | none empty => exact ⟨tidySame tidy rfl rfl rfl,.inr (.inr ⟨empty,.inl rfl⟩)⟩
  | expiring _ positive _ waiting =>
    rw [if_pos positive]
    refine ⟨tidySame tidy rfl rfl rfl,.inr (.inl ⟨_,rfl,fun l mem x known => ?_⟩)⟩
    obtain ⟨y,there,auto,_,most⟩ := waiting l mem
    cases some.inj (known.symm.trans there)
    obtain ⟨z,known',_,expires⟩ := tidy.listed l mem
    cases some.inj (known.symm.trans known')
    obtain ⟨low,near⟩ := expires auto
    have time := longDiffLe near
    rw [low,jiffies] at most
    omega

def Still (s s' : Wake) : Prop :=
  s'.now = s.now ∧ s'.timer = s.timer ∧ s'.queued = s.queued ∧ s'.phase = s.phase ∧ s'.currentEventNum = s.currentEventNum

theorem asideSwept {y} (aside : l ∉ s.active .suspend) (known : l ≠ unknownWakeup) (still : Still s s')
    (active : s'.active .suspend = s.active .suspend) (lock : s'.lock = update s.lock l y) : Swept s s' := by
  obtain ⟨now,timer,queued,phase,event⟩ := still
  refine ⟨now,timer,queued,phase,event,active ▸ List.Sublist.refl _,fun c mem => ?_,fun c mem out => absurd (active ▸ mem) out,
    fun x there => ⟨x,?_,rfl⟩⟩
  · have other : c ≠ l := fun same => aside (same ▸ active ▸ mem)
    rw [lock,update_of_ne other]
  · rwa [lock,update_of_ne known.symm]

theorem idleAside (tidy : Tidy s) (known : s.lock l = some x) (idle : x.type = .idle) : l ∉ s.active .suspend := fun mem => by
  obtain ⟨y,there,suspend,_⟩ := tidy.listed l mem
  cases some.inj (known.symm.trans there)
  cases suspend.symm.trans idle

theorem idleKnown (tidy : Tidy s) (known : s.lock l = some x) (idle : x.type = .idle) : l ≠ unknownWakeup := fun same => by
  obtain ⟨y,there,suspend⟩ := tidy.unknown
  cases some.inj (known.symm.trans (same ▸ there))
  cases suspend.symm.trans idle

theorem relistTidy (tidy : Tidy s) (type : y.type = .suspend)
    (expires : y.autoExpire = true → y.expires = y.deadline % word ∧ y.deadline ≤ s.now + (2^31 - 1))
    (now : s'.now = s.now) (lock : s'.lock = update s.lock l (some y))
    (active : (s'.active .suspend).Perm ((s.active .suspend).erase l) ∨ (s'.active .suspend).Perm (l::(s.active .suspend).erase l)) :
    Tidy s' := by
  have rest : ∀ c ∈ (s.active .suspend).erase l, ∃ x, Listed s' c x := fun c mem => by
    have other : c ≠ l := fun same => absurd mem (same ▸ tidy.once.not_mem_erase)
    obtain ⟨x,known,type,near⟩ := tidy.listed c (mem_of_mem_erase mem)
    exact ⟨x,by rwa [lock,update_of_ne other],type,now ▸ near⟩
  have self : ∃ x, Listed s' l x := ⟨y,by rw [lock,update_self],type,now ▸ expires⟩
  have unknown : ∃ x, s'.lock unknownWakeup = some x ∧ x.type = .suspend := by
    rw [lock]
    by_cases same : unknownWakeup = l
    · exact ⟨y,by rw [same,update_self],type⟩
    · simpa [update_of_ne same] using tidy.unknown
  rcases active with off | back
  · exact ⟨fun c mem => rest c (off.mem_iff.mp mem),off.nodup_iff.mpr (tidy.once.erase l),unknown⟩
  refine ⟨fun c mem => ?_,back.nodup_iff.mpr (nodup_cons.mpr ⟨tidy.once.not_mem_erase,tidy.once.erase l⟩),unknown⟩
  rcases mem_cons.mp (back.mem_iff.mp mem) with rfl | other
  · exact self
  · exact rest c other

theorem answeredAwake (tidy : Tidy s) : Awake (settle (hasWakeLockLocked s .suspend).1 (hasWakeLockLocked s .suspend).2) := by
  obtain ⟨swept,answer⟩ := hasAnswer tidy
  exact settleAwake (sweptTidy tidy swept) answer

theorem lockTimeoutAwake (tidy : Tidy s) (known : s.lock l = some x) (suspend : x.type = .suspend)
    (short : timeout ≤ 2^31 - 1) : Awake (wakeLockTimeout s l timeout) := by
  simp only [wakeLockTimeout,known,suspend]
  refine answeredAwake (relistTidy tidy rfl (fun _ => ⟨?_,by simpa using short⟩) rfl rfl (.inr ?_))
  · simp [jiffies]
  · simp

/-- When expire_timer goes off no lock that is still active has a deadline so long ago that
jiffies puts it in the future. -/
def Timely (s : Wake) : WakeOp → Prop
  | .fire => ∀ t, s.timer = some t → t ≤ s.now → NonExpiring s ∨
      ∀ l ∈ s.active .suspend, ∀ x, s.lock l = some x → longDiff x.expires (jiffies s) ≤ 0
  | _ => True

theorem bootedAwake (now : Nat) : Awake (booted now) := by
  have held : (booted now).lock mainWakeLock = some ⟨.suspend,false,2^31 - 1,0⟩ := by simp [booted]
  refine ⟨⟨fun l mem => ?_,by simp [booted],?_⟩,.inl ⟨mainWakeLock,by simp [booted],_,held,rfl⟩⟩
  · cases mem_singleton.mp mem
    exact ⟨_,held,rfl,fun auto => nomatch auto⟩
  · exact ⟨⟨.suspend,false,0,0⟩,by simp [booted,unknownWakeup,mainWakeLock],rfl⟩

def WakeOk (s : Wake) : Prop :=
  ((∃ l ∈ s.active .suspend, ∃ x, s.lock l = some x ∧ x.autoExpire = false) ∨
    (∃ t, s.timer = some t ∧ ∀ l ∈ s.active .suspend, ∀ x, s.lock l = some x → x.deadline ≤ t) ∨
    s.queued = true ∨ s.phase ≠ .idle) ∧
  (s.active .suspend = [] → s.timer = none → s.queued = true ∨ s.phase ≠ .idle)

section
variable (awake : Awake s)
include awake

theorem sweptAwake (swept : Swept s s') : Awake s' := by
  refine ⟨sweptTidy awake.tidy swept,?_⟩
  rcases awake.reason with held | covered | ⟨empty,work⟩
  · exact .inl (sweptNonExpiring swept held)
  · exact .inr (.inl (sweptCovered swept covered))
  · rw [← swept.queued,← swept.phase,← swept.event] at work
    exact .inr (.inr ⟨sublist_nil.mp (empty ▸ swept.fewer),work⟩)

theorem idleAwake (known : s.lock l = some x) (idle : x.type = .idle) (still : Still s s')
    (active : s'.active .suspend = (s.active .suspend).erase l) (lock : s'.lock = update s.lock l (some y)) : Awake s' := by
  have aside := idleAside awake.tidy known idle
  rw [erase_of_not_mem aside] at active
  exact sweptAwake awake (asideSwept aside (idleKnown awake.tidy known idle) still active lock)

theorem timeoutAwake (short : timeout ≤ 2^31 - 1) : Awake (wakeLockTimeout s l timeout) := by
  cases known : s.lock l with
  | none => simpa [wakeLockTimeout,known] using awake
  | some x =>
    cases type : x.type with
    | suspend => exact lockTimeoutAwake awake.tidy known type short
    | idle =>
      simp only [wakeLockTimeout,known,type]
      exact idleAwake awake known type ⟨rfl,rfl,rfl,rfl,rfl⟩ (by simp) rfl

theorem lockAwake : Awake (wakeLock s l) := by
  cases known : s.lock l with
  | none => simpa [wakeLock,known] using awake
  | some x =>
    cases type : x.type with
    | suspend =>
      simp only [wakeLock,known,type]
      refine settleAwake (relistTidy awake.tidy rfl (by simp) rfl rfl (.inr (by simp))) (.held ⟨l,by simp,?_⟩)
      exact ⟨⟨.suspend,false,2^31 - 1,x.deadline⟩,by simp,rfl⟩
    | idle =>
      simp only [wakeLock,known,type]
      exact idleAwake awake known type ⟨rfl,rfl,rfl,rfl,rfl⟩ (by simp) rfl

theorem unlockAwake : Awake (wakeUnlock s l) := by
  cases known : s.lock l with
  | none => simpa [wakeUnlock,known] using awake
  | some x =>
    cases type : x.type with
    | suspend =>
      simp only [wakeUnlock,known,type]
      exact answeredAwake (relistTidy awake.tidy rfl (by simp) rfl rfl (.inl (by simp)))
    | idle =>
      simp only [wakeUnlock,known,type]
      exact idleAwake awake known type ⟨rfl,rfl,rfl,rfl,rfl⟩ (by simp) rfl

theorem initAwake {type} : Awake (wakeLockInit s l type) := by
  unfold wakeLockInit
  split
  · exact awake
  rename_i fresh
  have aside : l ∉ s.active .suspend := fun mem => by
    obtain ⟨x,listed⟩ := awake.tidy.listed l mem
    simp [listed.known] at fresh
  have known : l ≠ unknownWakeup := fun same => by
    obtain ⟨x,there,_⟩ := awake.tidy.unknown
    simp [same,there] at fresh
  exact sweptAwake awake (asideSwept aside known ⟨rfl,rfl,rfl,rfl,rfl⟩ rfl rfl)

theorem destroyAwake (known : l ≠ unknownWakeup)
    (allowed : ∀ x, s.lock l = some x → l ∈ s.active .suspend → x.autoExpire = true) : Awake (wakeLockDestroy s l) := by
  unfold wakeLockDestroy
  split
  · exact awake
  rename_i x there
  have gone : l ∉ (s.active .suspend).erase l := awake.tidy.once.not_mem_erase
  refine sweptAwake awake ⟨rfl,rfl,rfl,rfl,rfl,erase_sublist,fun c mem => ?_,fun c mem out => ?_,fun y unknown => ?_⟩
  · have other : c ≠ l := fun same => absurd mem (same ▸ gone)
    simp [other]
  · by_cases same : c = l
    · subst same
      exact ⟨x,there,allowed x there mem⟩
    · exact absurd (mem_erase_of_ne same |>.mpr mem) out
  · exact ⟨y,by simpa [known.symm] using unknown,rfl⟩

theorem fireAwake (timely : NonExpiring s ∨
    ∀ l ∈ s.active .suspend, ∀ x, s.lock l = some x → longDiff x.expires (jiffies s) ≤ 0) : Awake (expireWakeLocks s) := by
  have tidy : Tidy (setTimer s none) := tidySame awake.tidy rfl rfl rfl
  obtain ⟨swept,answer⟩ := hasAnswer tidy
  have after := sweptTidy tidy swept
  unfold expireWakeLocks
  generalize hasWakeLockLocked (setTimer s none) .suspend = out at *
  obtain ⟨out,left⟩ := out
  cases answer with
  | held holds => exact ⟨after,.inl holds⟩
  | none empty => exact ⟨tidySame after rfl rfl rfl,.inr (.inr ⟨empty,.inl rfl⟩)⟩
  | expiring _ positive some_ waiting =>
    rw [if_neg (ne_of_gt positive)]
    rcases timely with held | past
    · exact ⟨after,.inl (sweptNonExpiring swept held)⟩
    obtain ⟨l,mem⟩ := exists_mem_of_ne_nil _ some_
    obtain ⟨x,known,_,later,_⟩ := waiting l mem
    have late := past l (swept.fewer.subset mem) x ((swept.same l mem).symm.trans known)
    rw [jiffies,swept.now] at later
    exact absurd later (not_lt.mpr late)

theorem beginAwake : Awake (suspendBegin s) := by
  have tidy : Tidy {s with queued := false} := tidySame awake.tidy rfl rfl rfl
  obtain ⟨swept,answer⟩ := hasAnswer tidy
  have after := sweptTidy tidy swept
  unfold suspendBegin
  generalize hasWakeLockLocked {s with queued := false} .suspend = out at *
  obtain ⟨out,left⟩ := out
  cases answer with
  | held holds => exact ⟨after,.inl holds⟩
  | none empty => exact ⟨tidySame after rfl rfl rfl,.inr (.inr ⟨empty,.inr (.inl rfl)⟩)⟩
  | expiring _ positive some_ waiting =>
    rw [if_pos (ne_of_gt positive)]
    rcases awake.reason with held | covered | ⟨empty,_⟩
    · exact ⟨after,.inl (sweptNonExpiring swept held)⟩
    · exact ⟨after,.inr (.inl (sweptCovered swept covered))⟩
    · exact absurd (sublist_nil.mp (empty ▸ swept.fewer)) some_

theorem enterAwake : Awake (setPhase s (.entered s.currentEventNum)) := by
  refine ⟨tidySame awake.tidy rfl rfl rfl,?_⟩
  rcases awake.reason with held | covered | ⟨empty,_⟩
  · exact .inl held
  · exact .inr (.inl covered)
  · exact .inr (.inr ⟨empty,.inr (.inr rfl)⟩)

theorem endAwake {entry} (entered : s.phase = .entered entry) : Awake (suspendEnd s entry) := by
  have tidy : Tidy (setPhase s .idle) := tidySame awake.tidy rfl rfl rfl
  unfold suspendEnd
  dsimp only
  split
  · obtain ⟨x,known,suspend⟩ := tidy.unknown
    exact lockTimeoutAwake tidy known suspend (by decide)
  rename_i taken
  refine ⟨tidy,?_⟩
  rcases awake.reason with held | covered | ⟨empty,queued | checked | same⟩
  · exact .inl held
  · exact .inr (.inl covered)
  · exact .inr (.inr ⟨empty,.inl queued⟩)
  · cases entered.symm.trans checked
  · cases entered.symm.trans same
    exact absurd rfl taken

theorem tickAwake {n} : Awake {s with now := s.now + n} := by
  obtain ⟨⟨listed,once,unknown⟩,reason⟩ := awake
  refine ⟨⟨fun l mem => ?_,once,unknown⟩,reason⟩
  obtain ⟨x,known,type,expires⟩ := listed l mem
  refine ⟨x,known,type,fun auto => ⟨(expires auto).1,le_trans (expires auto).2 ?_⟩⟩
  dsimp only
  omega

theorem awakeOk : WakeOk s := by
  have busy : s.phase = .checked ∨ s.phase = .entered s.currentEventNum → s.phase ≠ .idle := by
    rintro (phase | phase) <;> simp [phase]
  rcases awake.reason with ⟨l,mem,held⟩ | ⟨t,pending,covered⟩ | ⟨empty,queued | work⟩
  · exact ⟨.inl ⟨l,mem,held⟩,fun empty => absurd (empty ▸ mem) not_mem_nil⟩
  · exact ⟨.inr (.inl ⟨t,pending,covered⟩),fun _ none_ => nomatch pending.symm.trans none_⟩
  · exact ⟨.inr (.inr (.inl queued)),fun _ _ => .inl queued⟩
  · exact ⟨.inr (.inr (.inr (busy work))),fun _ _ => .inr (busy work)⟩

end

theorem stepAwake (s : Wake) (op : WakeOp) (awake : Awake s) (timely : Timely s op) : Awake (wakeStep s op) := by
  cases op with
  | tick n => exact tickAwake awake
  | init l t => exact initAwake awake
  | lock l => exact lockAwake awake
  | lockTimeout l timeout =>
    simp only [wakeStep]
    split
    · exact awake
    · exact timeoutAwake awake (by omega)
  | unlock l => exact unlockAwake awake
  | destroy l =>
    simp only [wakeStep]
    split
    · exact awake
    rename_i other
    split
    · exact awake
    · rename_i allowed
      refine destroyAwake awake (fun same => other (.inr same)) fun x known mem => ?_
      simpa [isActive,mem,known] using allowed
  | fire =>
    simp only [wakeStep]
    cases pending : s.timer with
    | none => exact awake
    | some t =>
      dsimp only
      split
      · rename_i due
        exact fireAwake awake (timely t pending due)
      · exact awake
  | poll => exact sweptAwake awake (hasAnswer awake.tidy).1
  | suspendBegin =>
    simp only [wakeStep]
    split
    · exact beginAwake awake
    · exact awake
  | suspendEnter =>
    simp only [wakeStep]
    split
    · exact enterAwake awake
    · exact awake
  | suspendEnd =>
    simp only [wakeStep]
    split
    · rename_i entry entered
      exact endAwake awake entered
    · exact awake

end

theorem runWakeOk (now : Nat) (ops : List WakeOp) (timely : Admitted wakeStep Timely (booted now) ops) :
    WakeOk (run wakeStep (booted now) ops) :=
  awakeOk (runInvariant stepAwake (bootedAwake now) timely)

def twoTimeouts (first second : Fin (2^31)) : List WakeOp :=
  [.init 2 .suspend,.init 3 .suspend,.lockTimeout 2 first,.lockTimeout 3 second,.unlock mainWakeLock]

theorem exampleWakeOk :
    WakeOk (run wakeStep (booted 0) (twoTimeouts 1 5 ++ [.tick 6,.fire,.suspendBegin,.suspendEnter,.suspendEnd])) := by
  refine runWakeOk 0 _ ⟨trivial,trivial,trivial,trivial,trivial,trivial,fun t _ _ => .inr ?_,trivial,trivial,trivial,trivial⟩
  have active : ∀ l ∈ (run wakeStep (booted 0) (twoTimeouts 1 5 ++ [.tick 6])).active .suspend,
      ∀ x ∈ (run wakeStep (booted 0) (twoTimeouts 1 5 ++ [.tick 6])).lock l, longDiff x.expires 6 ≤ 0 := by
    decide +kernel
  exact active

/-- The timer goes off three jiffies late: the first deadline, 2^31 + 1 jiffies back, looks
like one 2^31 - 1 jiffies ahead, and expire_wake_locks neither queues the work nor sets the
timer again. -/
theorem lateTimerSticks : ¬WakeOk (run wakeStep (booted 0) (twoTimeouts 1 (Fin.last _) ++ [.tick (2^31 + 2),.fire])) := by
  generalize stuck : run wakeStep (booted 0) (twoTimeouts 1 (Fin.last _) ++ [.tick (2^31 + 2),.fire]) = s
  have facts : s.active .suspend = [2] ∧ s.lock 2 = some ⟨.suspend,true,1,1⟩ ∧ s.timer = none ∧ s.queued = false ∧ s.phase = .idle := by
    rw [← stuck]
    decide +kernel
  obtain ⟨active,known,timer,queued,idle⟩ := facts
  simp [WakeOk,active,known,timer,queued,idle]

end EclairKernel.Wakelock
