import EclairKernel.Run
import EclairKernel.TimerSteps

/-! Whole runs of the timer wheel. Calls for any timer may come between any two steps
of `__run_timers`, as those of timer functions do. Beside the wheel a run keeps the
ticks counted without wrap, the tick each timer is due at, and the log of the timers
that ran with the tick that was processed. -/
namespace EclairKernel.Timer
open EclairKernel EclairKernel.ListHeads Function List Run Bool

structure Traced (K : Type) where
  sys : System K
  clock : Nat
  due : K → Nat
  log : List (K × Nat)

inductive Event (K : Type) where
  | jiffies (j : Nat)
  | add (k : K) (expires : Nat)
  | mod (k : K) (expires : Nat)
  | del (k : K)
  | call
  | step

def delay (timerJiffies expires : Nat) : Nat :=
  if minus expires timerJiffies < 2^31 then minus expires timerJiffies else 0

section
variable {K : Type} [DecidableEq K]

def Traced.queue (t : Traced K) (k : K) (expires : Nat) (sys : System K) : Traced K :=
  { t with sys := sys, due := update t.due k (t.clock + delay t.sys.timerJiffies expires) }

def traceStep (t : Traced K) : Event K → Traced K
  | .jiffies j => { t with sys := { t.sys with jiffies := j } }
  | .add k expires =>
    match addTimer t.sys k expires with
    | none => t
    | some sys => t.queue k expires sys
  | .mod k expires => if Unmodified t.sys k expires then t else t.queue k expires (modTimer t.sys k expires).2
  | .del k => { t with sys := (delTimer t.sys k).2 }
  | .call => { t with sys := { t.sys with running := true } }
  | .step =>
    match loopStep t.sys with
    | (some k,sys) => { t with sys := sys, log := t.log ++ [(k,t.clock - 1)] }
    | (none,sys) =>
      { t with
        sys := sys
        clock := if timeAfterEq t.sys.jiffies t.sys.timerJiffies then t.clock + 1 else t.clock }

def Allowed (t : Traced K) : Event K → Prop
  | .add k expires => t.sys.pending k = false ∧ expires < 2^32
  | .mod _ expires => expires < 2^32
  | .call => t.sys.running = false
  | .step => t.sys.running = true
  | _ => True

instance (t : Traced K) : ∀ e, Decidable (Allowed t e)
  | .jiffies _ => isTrue trivial
  | .add _ _ => inferInstanceAs (Decidable (_ ∧ _))
  | .mod _ _ => inferInstanceAs (Decidable (_ < _))
  | .del _ => isTrue trivial
  | .call => inferInstanceAs (Decidable (_ = _))
  | .step => inferInstanceAs (Decidable (_ = _))

def Queues (t : Traced K) (k : K) (expires : Nat) (e : Event K) : Prop :=
  e = .add k expires ∨ e = .mod k expires ∧ ¬Unmodified t.sys k expires

def Leaves (k : K) (t : Traced K) : Event K → Prop
  | .add x _ => x ≠ k
  | .mod x expires => x = k → Unmodified t.sys k expires
  | .del x => x ≠ k
  | _ => True

instance (k : K) (t : Traced K) : ∀ e, Decidable (Leaves k t e)
  | .jiffies _ => isTrue trivial
  | .add _ _ => inferInstanceAs (Decidable (_ ≠ _))
  | .mod _ _ => inferInstanceAs (Decidable (_ → _))
  | .del _ => inferInstanceAs (Decidable (_ ≠ _))
  | .call => isTrue trivial
  | .step => isTrue trivial

def firings (k : K) (t : Traced K) : List Nat := (t.log.filter fun e => e.1 = k).map Prod.snd

def bootState (K : Type) (timerJiffies : Nat) : Traced K :=
  ⟨⟨timerJiffies,timerJiffies,fun _ => [],fun _ => false,fun _ => 0,false⟩,timerJiffies,fun _ => 0,[]⟩

structure Steady (t : Traced K) : Prop where
  wheel : Wheel t.sys t.due t.clock 0
  idle : t.sys.entries .tvList = []

end

section
variable {T E}

theorem delayTick (word : E < 2^32) (near : minus E (T % 2^32) < 2^31) : (T + delay (T % 2^32) E) % 2^32 = E := by
  rw [delay,if_pos near,minus]
  omega

theorem delayPlaced (word : E < 2^32) : Placed T 0 E (T + delay (T % 2^32) E) (vecFor (T % 2^32) E) := by
  by_cases near : minus E (T % 2^32) < 2^31
  · have soon : delay (T % 2^32) E < 2^31 := by rwa [delay,if_pos near]
    have placed : Placed T 0 _ _ _ := vecForPlaced (Nat.le_add_right T (delay (T % 2^32) E)) (Nat.add_lt_add_left soon T)
    rwa [delayTick word near] at placed
  · rw [delay,if_neg near]
    exact vecForPast (not_lt.mp near)

theorem bootSteady {K} (word : T < 2^32) : Steady (bootState K T) := by
  refine ⟨⟨(Nat.mod_eq_of_lt word).symm,⟨fun _ => nodup_nil,fun _ _ _ mem => absurd mem not_mem_nil⟩,
    fun k => ?_,fun _ _ mem => absurd mem not_mem_nil⟩,rfl⟩
  exact iff_of_false false_ne_true fun stands => stands.elim fun _ mem => not_mem_nil mem

end

variable {K : Type} [DecidableEq K] {t : Traced K} {s due} {T D E : Nat} {k x : K} {e}
  {f}

theorem modLockedWheel (wheel : Wheel s due T 0) (word : E < 2^32) (k : K) :
    Wheel (modTimerLocked s k E).2 (update due k (T + delay s.timerJiffies E)) T 0 := by
  have place : Placed T 0 E (T + delay s.timerJiffies E) (vecFor s.timerJiffies E) := by
    rw [wheel.clock]
    exact delayPlaced word
  have queued := wheel.queue place k
  rw [modTimerLocked]
  cases pending : s.pending k with
  | true => exact queued
  | false =>
    have absent : ∀ a, k ∉ s.entries a := by
      intro a mem
      rw [(wheel.pending k).mpr ⟨a,mem⟩] at pending
      exact Bool.noConfusion pending
    rw [delAbsent absent] at queued
    exact queued

theorem addTimerLocked (idle : s.pending k = false) : addTimer s k E = some (modTimerLocked s k E).2 := by
  rw [addTimer,idle,if_neg Bool.false_ne_true]
  simp [modTimerLocked,idle,internalAddTimer]

theorem modLockedPending (s : System K) (k : K) (E : Nat) :
    (modTimerLocked s k E).2.pending = update s.pending k true := by
  cases pending : s.pending k <;> simp [modTimerLocked,pending,internalAddTimer,detachTimer]

theorem modLockedIdle (empty : s.entries .tvList = []) : (modTimerLocked s k E).2.entries .tvList = [] := by
  have vector := (vecForVector s.timerJiffies E).2.symm
  cases pending : s.pending k <;>
    simp [modTimerLocked,pending,internalAddTimer,detachTimer,addTail,update_of_ne vector,del,empty]

theorem Steady.queue (steady : Steady t) (word : E < 2^32) (k : K) : Steady (t.queue k E (modTimerLocked t.sys k E).2) :=
  ⟨modLockedWheel steady.wheel word k,modLockedIdle steady.idle⟩

theorem Steady.detach (steady : Steady t) (k : K) (log : List (K × Nat)) :
    Steady { t with sys := detachTimer t.sys k true, log := log } :=
  ⟨steady.wheel.detach k,by simp [detachTimer,del,steady.idle]⟩

theorem modQueues (changed : ¬Unmodified t.sys k E) :
    traceStep t (.mod k E) = t.queue k E (modTimerLocked t.sys k E).2 := by
  simp [traceStep,modTimer,if_neg changed]

theorem addQueues (idle : t.sys.pending k = false) :
    traceStep t (.add k E) = t.queue k E (modTimerLocked t.sys k E).2 := by
  simp [traceStep,addTimerLocked idle]

theorem delDetaches (pending : t.sys.pending k = true) :
    traceStep t (.del k) = { t with sys := detachTimer t.sys k true } := by
  simp [traceStep,delTimer,pending]

theorem delNothing (idle : t.sys.pending k = false) : traceStep t (.del k) = t := by
  simp [traceStep,delTimer,idle]

theorem stepFires {rest} (work : t.sys.entries .workList = k::rest) :
    traceStep t .step = { t with sys := detachTimer t.sys k true, log := t.log ++ [(k,t.clock - 1)] } := by
  simp [traceStep,loopStep,work]

theorem stepTicks (work : t.sys.entries .workList = []) (reached : timeAfterEq t.sys.jiffies t.sys.timerJiffies = true) :
    traceStep t .step = { t with sys := tick t.sys, clock := t.clock + 1 } := by
  simp [traceStep,loopStep,work,reached]

theorem stepReturns (work : t.sys.entries .workList = []) (early : timeAfterEq t.sys.jiffies t.sys.timerJiffies = false) :
    traceStep t .step = { t with sys := { t.sys with running := false } } := by
  simp [traceStep,loopStep,work,early]

theorem Steady.tick (steady : Steady t) (work : t.sys.entries .workList = []) :
    Steady { t with sys := Timer.tick t.sys, clock := t.clock + 1 } ∧ (Timer.tick t.sys).pending = t.sys.pending ∧
      (Timer.tick t.sys).jiffies = t.sys.jiffies ∧ (Timer.tick t.sys).running = t.sys.running := by
  obtain ⟨wheel,idle,rest⟩ := tickWheel steady.wheel steady.idle work
  exact ⟨⟨wheel,idle⟩,rest⟩

theorem steadyStep (t : Traced K) (e : Event K) (steady : Steady t) (allowed : Allowed t e) : Steady (traceStep t e) := by
  have wheel := steady.wheel
  cases e with
  | jiffies j => exact ⟨⟨wheel.clock,wheel.once,wheel.pending,wheel.placed⟩,steady.idle⟩
  | add k E =>
    rw [addQueues allowed.1]
    exact steady.queue allowed.2 k
  | mod k E =>
    by_cases same : Unmodified t.sys k E
    · rwa [traceStep,if_pos same]
    · rw [modQueues same]
      exact steady.queue allowed k
  | del k =>
    cases pending : t.sys.pending k with
    | true =>
      rw [delDetaches pending]
      exact steady.detach k t.log
    | false => rwa [delNothing pending]
  | call => exact ⟨⟨wheel.clock,wheel.once,wheel.pending,wheel.placed⟩,steady.idle⟩
  | step =>
    cases work : t.sys.entries .workList with
    | cons k rest =>
      rw [stepFires work]
      exact steady.detach k _
    | nil =>
      cases reached : timeAfterEq t.sys.jiffies t.sys.timerJiffies with
      | true =>
        rw [stepTicks work reached]
        exact (steady.tick work).1
      | false =>
        rw [stepReturns work reached]
        exact ⟨⟨wheel.clock,wheel.once,wheel.pending,wheel.placed⟩,steady.idle⟩

omit [DecidableEq K] in
theorem Steady.coming (steady : Steady t) (pending : t.sys.pending k = true) :
    t.clock ≤ t.due k ∨ t.due k + 1 = t.clock ∧ k ∈ t.sys.entries .workList := by
  obtain ⟨h,mem⟩ := (steady.wheel.pending k).mp pending
  have placed := steady.wheel.placed h k mem
  cases h with
  | tv1 i => exact .inl placed.1
  | tvn n i => exact .inl (placed.2.2.1.trans (slotTickLe n _))
  | workList => exact .inr ⟨placed,mem⟩
  | tvList => simp [steady.idle] at mem

omit [DecidableEq K] in
theorem Steady.working (steady : Steady t) (mem : k ∈ t.sys.entries .workList) :
    t.sys.pending k = true ∧ t.due k + 1 = t.clock :=
  ⟨(steady.wheel.pending k).mpr ⟨_,mem⟩,steady.wheel.placed _ k mem⟩

omit [DecidableEq K] in
theorem Steady.stands (steady : Steady t) (pending : t.sys.pending k = true) : ∃! h, k ∈ t.sys.entries h := by
  obtain ⟨h,mem⟩ := (steady.wheel.pending k).mp pending
  exact ⟨h,mem,fun h' mem' => steady.wheel.once.alone h' h k mem' mem⟩

def Watched (k : K) (D : Nat) (f : List Nat) (t : Traced K) : Prop :=
  t.sys.pending k = true ∧ t.due k = D ∧ firings k t = f ∨
    t.sys.pending k = false ∧ firings k t = f ++ [D] ∧ D < t.clock

theorem Watched.same {t'} (watched : Watched k D f t) (pending : t'.sys.pending k = t.sys.pending k)
    (due : t'.due k = t.due k) (fired : firings k t' = firings k t) (clock : t.clock ≤ t'.clock) : Watched k D f t' := by
  rcases watched with ⟨waits,tick,before⟩ | ⟨idle,ran,past⟩
  · exact .inl ⟨pending.trans waits,due.trans tick,fired.trans before⟩
  · exact .inr ⟨pending.trans idle,fired.trans ran,past.trans_le clock⟩

theorem watchedQueue (other : x ≠ k) (watched : Watched k D f t) :
    Watched k D f (t.queue x E (modTimerLocked t.sys x E).2) := by
  refine watched.same ?_ (update_of_ne other.symm _ _) rfl le_rfl
  change (modTimerLocked t.sys x E).2.pending k = _
  rw [modLockedPending,update_of_ne other.symm]

theorem watchedDetach {log} (other : x ≠ k) (fired : firings k { t with log := log } = firings k t)
    (watched : Watched k D f t) : Watched k D f { t with sys := detachTimer t.sys x true, log := log } :=
  watched.same (update_of_ne other.symm _ _) rfl fired le_rfl

theorem watchedFire {rest} (steady : Steady t) (work : t.sys.entries .workList = x::rest) (watched : Watched k D f t) :
    Watched k D f { t with sys := detachTimer t.sys x true, log := t.log ++ [(x,t.clock - 1)] } := by
  have mem : x ∈ t.sys.entries .workList := work ▸ mem_cons_self
  obtain ⟨pending,now⟩ := steady.working mem
  by_cases own : x = k
  · subst own
    rcases watched with ⟨-,due,fired⟩ | ⟨idle,-⟩
    · have last : t.clock - 1 = D := by omega
      have past : D < t.clock := by omega
      refine .inr ⟨update_self ..,?_,past⟩
      simp only [firings,last,filter_append,map_append] at fired ⊢
      simp [fired]
    · rw [pending] at idle
      exact Bool.noConfusion idle
  · exact watchedDetach own (by simp [firings,own]) watched

theorem watchedStep (t : Traced K) (e : Event K) (steady : Steady t) (watched : Watched k D f t) (allowed : Allowed t e)
    (leaves : Leaves k t e) : Watched k D f (traceStep t e) := by
  cases e with
  | jiffies j => exact watched
  | add x E =>
    rw [addQueues allowed.1]
    exact watchedQueue leaves watched
  | mod x E =>
    by_cases same : Unmodified t.sys x E
    · rwa [traceStep,if_pos same]
    rw [modQueues same]
    refine watchedQueue (fun own => same ?_) watched
    subst own
    exact leaves rfl
  | del x =>
    cases pending : t.sys.pending x with
    | true =>
      rw [delDetaches pending]
      exact watchedDetach leaves rfl watched
    | false => rwa [delNothing pending]
  | call => exact watched
  | step =>
    cases work : t.sys.entries .workList with
    | cons x rest =>
      rw [stepFires work]
      exact watchedFire steady work watched
    | nil =>
      cases reached : timeAfterEq t.sys.jiffies t.sys.timerJiffies with
      | true =>
        rw [stepTicks work reached]
        obtain ⟨-,pending,-⟩ := steady.tick work
        exact watched.same (congrFun pending k) rfl rfl (Nat.le_succ _)
      | false =>
        rw [stepReturns work reached]
        exact watched

/-! A timer runs in the iteration that processes its tick, and once. -/

theorem timeAfterEqIff {a b} : timeAfterEq a b = true ↔ minus a b < 2^31 := decide_eq_true_iff

theorem minusNext {j T} (ahead : 0 < minus j (T % 2^32)) :
    minus j ((T + 1) % 2^32) + 1 = minus j (T % 2^32) := by
  simp only [minus] at ahead ⊢
  omega

section
variable {q : Event K} {before after}

def Reached (k : K) (D : Nat) (t : Traced K) : Prop :=
  k ∈ t.sys.entries .workList ∨
    timeAfterEq t.sys.jiffies t.sys.timerJiffies = true ∧ D ≤ t.clock + minus t.sys.jiffies t.sys.timerJiffies

structure Ready (k : K) (D : Nat) (t : Traced K) : Prop where
  steady : Steady t
  running : t.sys.running = true
  pending : t.sys.pending k = true
  due : t.due k = D
  reached : Reached k D t

theorem readyTick (ready : Ready k D t) (work : t.sys.entries .workList = []) :
    traceStep t .step = { t with sys := tick t.sys, clock := t.clock + 1 } ∧ Ready k D (traceStep t .step) := by
  have steady := ready.steady
  obtain ⟨after,near⟩ : timeAfterEq t.sys.jiffies t.sys.timerJiffies = true ∧
      D ≤ t.clock + minus t.sys.jiffies t.sys.timerJiffies := by
    refine ready.reached.resolve_left fun mem => ?_
    simp [work] at mem
  obtain ⟨steady',pending,jiffies,running⟩ := steady.tick work
  rw [stepTicks work after]
  have waits := (congrFun pending k).trans ready.pending
  refine ⟨rfl,steady',running.trans ready.running,waits,ready.due,?_⟩
  rcases steady'.coming waits with later | ⟨-,mem⟩
  · have beyond : t.clock + 1 ≤ D := ready.due ▸ later
    have next : (tick t.sys).timerJiffies = (t.clock + 1) % 2^32 := steady'.wheel.clock
    rw [steady.wheel.clock] at after near
    have lag := minusNext (show 0 < minus t.sys.jiffies (t.clock % 2^32) by omega)
    rw [timeAfterEqIff] at after
    refine .inr ⟨timeAfterEqIff.mpr ?_,?_⟩
    · rw [jiffies,next]
      omega
    · change D ≤ t.clock + 1 + minus (tick t.sys).jiffies (tick t.sys).timerJiffies
      rw [jiffies,next]
      omega
  · exact .inl mem

theorem readyFire {rest} (ready : Ready k D t) (work : t.sys.entries .workList = x::rest) (other : x ≠ k) :
    Ready k D (traceStep t .step) ∧ (traceStep t .step).clock = t.clock ∧
      (traceStep t .step).sys.entries .workList = rest ∧ firings k (traceStep t .step) = firings k t := by
  rw [stepFires work]
  have left : (detachTimer t.sys x true).entries .workList = rest := by
    change (t.sys.entries .workList).erase x = rest
    rw [work,erase_cons_head]
  refine ⟨⟨ready.steady.detach x _,ready.running,(update_of_ne other.symm _ _).trans ready.pending,ready.due,?_⟩,
    rfl,left,by simp [firings,other]⟩
  rcases ready.reached with mem | jiffies
  · refine .inl ?_
    rw [work] at mem
    exact left ▸ (mem_cons.mp mem).resolve_left other.symm
  · exact .inr jiffies

def Fires (k : K) (D : Nat) (t : Traced K) : Prop := ∃ n, Admitted traceStep Allowed t (List.replicate n .step) ∧
  firings k (run traceStep t (List.replicate n .step)) = firings k t ++ [D]

theorem Fires.step (fires : Fires k D (traceStep t .step)) (running : t.sys.running = true)
    (same : firings k (traceStep t .step) = firings k t) : Fires k D t := by
  obtain ⟨n,admitted,fired⟩ := fires
  exact ⟨n + 1,⟨running,admitted⟩,fired.trans (congrArg (· ++ [D]) same)⟩

theorem drainFires {clock} (empty : ∀ t, Ready k D t → t.clock = clock → t.sys.entries .workList = [] → Fires k D t)
    (ready : Ready k D t) (now : t.clock = clock) : Fires k D t := by
  generalize list : t.sys.entries .workList = l
  induction l generalizing t with
  | nil => exact empty t ready now list
  | cons x rest ih =>
    by_cases own : x = k
    · subst own
      have tick := (ready.steady.working (list ▸ mem_cons_self)).2
      have due := ready.due
      have last : t.clock - 1 = D := by omega
      refine ⟨1,⟨ready.running,trivial⟩,?_⟩
      change firings x (traceStep t .step) = _
      rw [stepFires list,last]
      simp [firings]
    · obtain ⟨next,clock',left,same⟩ := readyFire ready list own
      exact (ih next (clock'.trans now) left).step ready.running same

theorem readyFires (ready : Ready k D t) : Fires k D t := by
  obtain ⟨gap,near⟩ : ∃ gap, D < t.clock + gap := ⟨D + 1,by omega⟩
  induction gap generalizing t with
  | zero =>
    refine drainFires (fun t' ready' now work => ?_) ready rfl
    rcases ready'.steady.coming ready'.pending with later | ⟨-,mem⟩
    · rw [ready'.due] at later
      omega
    · simp [work] at mem
  | succ gap ih =>
    refine drainFires (fun t' ready' now work => ?_) ready rfl
    obtain ⟨ticks,next⟩ := readyTick ready' work
    have later : (traceStep t' .step).clock = t'.clock + 1 := by rw [ticks]
    refine (ih next (by omega)).step ready'.running ?_
    rw [ticks]
    rfl

omit [DecidableEq K] in
theorem Queues.word (queues : Queues t k E q) (allowed : Allowed t q) : E < 2^32 := by
  rcases queues with rfl | ⟨rfl,-⟩
  · exact allowed.2
  · exact allowed

theorem queuedWatched (queues : Queues t k E q) (allowed : Allowed t q) :
    Watched k (t.clock + delay t.sys.timerJiffies E) (firings k t) (traceStep t q) := by
  have queued : traceStep t q = t.queue k E (modTimerLocked t.sys k E).2 := by
    rcases queues with rfl | ⟨rfl,changed⟩
    · exact addQueues allowed.1
    · exact modQueues changed
  rw [queued]
  refine .inl ⟨?_,update_self ..,rfl⟩
  change (modTimerLocked t.sys k E).2.pending k = true
  rw [modLockedPending,update_self]

theorem watchedRun (steady : Steady t) {f} (watched : Watched k D f t)
    (admitted : Admitted traceStep Allowed t after) (leaves : Admitted traceStep (Leaves k) t after) :
    Watched k D f (run traceStep t after) := by
  induction after generalizing t with
  | nil => exact watched
  | cons e rest ih =>
    exact ih (steadyStep t e steady admitted.1) (watchedStep t e steady watched admitted.1 leaves.1) admitted.2 leaves.2

theorem timerOnTime (word : T < 2^32) (admitted : Admitted traceStep Allowed (bootState K T) (before ++ q::after))
    (queues : Queues (run traceStep (bootState K T) before) k E q)
    (leaves : Admitted traceStep (Leaves k) (traceStep (run traceStep (bootState K T) before) q) after) :
    let s := run traceStep (bootState K T) before
    let t := run traceStep s (q::after)
    let D := s.clock + delay s.sys.timerJiffies E
    s.sys.timerJiffies = s.clock % 2^32 ∧ (minus E s.sys.timerJiffies < 2^31 → D % 2^32 = E) ∧
      (∀ x, t.sys.pending x = true → (∃! h, x ∈ t.sys.entries h) ∧
        (t.clock ≤ t.due x ∨ t.due x + 1 = t.clock ∧ x ∈ t.sys.entries .workList)) ∧
      (t.sys.pending k = true ∧ firings k t = firings k s ∧
          (t.clock ≤ D ∨ D + 1 = t.clock ∧ k ∈ t.sys.entries .workList) ∧
          (t.sys.running = true → Reached k D t → ∃ n, Admitted traceStep Allowed t (replicate n .step) ∧
            firings k (run traceStep t (replicate n .step)) = firings k s ++ [D]) ∨
        t.sys.pending k = false ∧ firings k t = firings k s ++ [D] ∧ D < t.clock) := by
  intro s t D
  obtain ⟨first,allowed,second⟩ := (admittedAppend traceStep Allowed _ before (q::after)).mp admitted
  have steady : Steady s := runInvariant steadyStep (bootSteady word) first
  have queued := queuedWatched queues allowed
  have steady' := steadyStep s q steady allowed
  have watched : Watched k D (firings k s) t := watchedRun steady' queued second leaves
  have last : Steady t := runInvariant steadyStep steady' second
  refine ⟨steady.wheel.clock,fun near => ?_,fun x pending => ⟨last.stands pending,last.coming pending⟩,?_⟩
  · change (s.clock + delay s.sys.timerJiffies E) % 2^32 = E
    rw [steady.wheel.clock] at near ⊢
    exact delayTick (queues.word allowed) near
  · rcases watched with ⟨pending,due,fired⟩ | ran
    · refine .inl ⟨pending,fired,due ▸ last.coming pending,fun running reached => ?_⟩
      obtain ⟨n,steps,runs⟩ := readyFires ⟨last,running,pending,due,reached⟩
      exact ⟨n,steps,fired ▸ runs⟩
    · exact .inr ran

end

def sampleBefore : List (Event Nat) := [.add 1 (2^32 - 10)]

def sampleAfter : List (Event Nat) :=
  [.jiffies 3,.call,.step,.step,.mod 0 3,.del 2,.step,.step,.step,.step,.step,.step,.step]

theorem wrapOnTime :
    Admitted traceStep Allowed (bootState Nat (2^32 - 2)) (sampleBefore ++ .add 0 3::sampleAfter) ∧
      firings 0 (run traceStep (run traceStep (bootState Nat (2^32 - 2)) sampleBefore) (.add 0 3::sampleAfter)) =
        [2^32 + 3] := by
  have admitted : Admitted traceStep Allowed (bootState Nat (2^32 - 2)) (sampleBefore ++ .add 0 3::sampleAfter) := by
    decide +kernel
  have leaves : Admitted traceStep (Leaves 0)
      (traceStep (run traceStep (bootState Nat (2^32 - 2)) sampleBefore) (.add 0 3)) sampleAfter := by decide +kernel
  have gone : (run traceStep (run traceStep (bootState Nat (2^32 - 2)) sampleBefore)
      (.add 0 3::sampleAfter)).sys.pending 0 = false := by decide +kernel
  obtain ⟨-,-,-,⟨pending,-⟩ | ⟨-,fired,-⟩⟩ := timerOnTime (by decide) admitted (.inl rfl) leaves
  · exact absurd (gone.symm.trans pending) false_ne_true
  · exact ⟨admitted,fired⟩

end EclairKernel.Timer
