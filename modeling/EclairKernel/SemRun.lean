import EclairKernel.Sem

/-! try_atomic_semop makes all of its operations or none, and when it makes them. -/
namespace EclairKernel.Sem
open Function List Int

variable {s s' un pid made rest sops sop}

def sumOps : List Sembuf → Nat → Int
  | [],_ => 0
  | sop::rest,k => (if sop.semNum = k then sop.semOp.toInt else 0) + sumOps rest k

def Sems.after (s : Sems) (made : List Sembuf) : Sems := { s with semval := fun k => s.semval k + sumOps made k }

theorem sumCons (sop : Sembuf) (rest : List Sembuf) (k : Nat) :
    sumOps (sop::rest) k = (if sop.semNum = k then sop.semOp.toInt else 0) + sumOps rest k := rfl

theorem sumAppend (a b : List Sembuf) (k : Nat) : sumOps (a ++ b) k = sumOps a k + sumOps b k := by
  induction a with
  | nil => exact (zero_add _).symm
  | cons sop a ih => rw [cons_append,sumOps,sumOps,ih,add_assoc]

theorem sumReverse (sops : List Sembuf) (k : Nat) : sumOps sops.reverse k = sumOps sops k := by
  induction sops with
  | nil => rfl
  | cons sop rest ih =>
    rw [reverse_cons,sumAppend,ih,add_comm]
    simp [sumOps]

theorem afterStep (s : Sems) (made : List Sembuf) (sop : Sembuf) :
    { s.after made with semval := update (s.after made).semval sop.semNum ((s.after made).semval sop.semNum + sop.semOp.toInt) } =
      s.after (sop::made) := by
  refine congrArg (Sems.mk · s.sempid s.semadj) (funext fun k => ?_)
  rw [sumCons]
  by_cases here : k = sop.semNum
  · subst here
    rw [update_self]
    show s.semval sop.semNum + sumOps made sop.semNum + sop.semOp.toInt = _
    omega
  · rw [update_of_ne here,if_neg (Ne.symm here),zero_add]
    rfl

theorem undoAfter (s : Sems) (made : List Sembuf) : undoOps made (s.after made) = s := by
  induction made with
  | nil => simp [undoOps,Sems.after,sumOps]
  | cons sop made ih =>
    rw [undoOps,← afterStep]
    simpa using ih

structure Able (s : Sems) (un : Option Nat) (made : List Sembuf) (sop : Sembuf) : Prop where
  zero : sop.semOp.toInt = 0 → s.semval sop.semNum + sumOps made sop.semNum = 0
  low : 0 ≤ s.semval sop.semNum + sumOps made sop.semNum + sop.semOp.toInt
  high : s.semval sop.semNum + sumOps made sop.semNum + sop.semOp.toInt ≤ SEMVMX
  undo : sop.undo = true → -SEMAEM - 1 ≤ (adjOf s.semadj un sop.semNum).toInt - sop.semOp.toInt ∧
    (adjOf s.semadj un sop.semNum).toInt - sop.semOp.toInt ≤ SEMAEM

def AllAble (s : Sems) (un : Option Nat) : List Sembuf → List Sembuf → Prop
  | _,[] => True
  | made,sop::rest => Able s un made sop ∧ AllAble s un (sop::made) rest

theorem wouldBlockNotDone (sop : Sembuf) : wouldBlock sop ≠ .done := by
  unfold wouldBlock
  split <;> exact Try.noConfusion

theorem tryStep (s : Sems) (un : Option Nat) (pid : Nat) (made : List Sembuf) (sop : Sembuf) (rest : List Sembuf) :
    Able s un made sop ∧ tryFrom un pid made (sop::rest) (s.after made) = tryFrom un pid (sop::made) rest (s.after (sop::made)) ∨
    ¬Able s un made sop ∧ ∃ r, r ≠ .done ∧ tryFrom un pid made (sop::rest) (s.after made) = (r,s) := by
  rw [tryFrom]
  dsimp only
  rw [undoAfter,afterStep]
  have adj : (s.after made).semadj = s.semadj := rfl
  rw [adj]
  split
  · rename_i wait
    exact .inr ⟨fun able => wait.2 (able.zero wait.1),_,wouldBlockNotDone sop,rfl⟩
  rename_i go
  split
  · rename_i below
    exact .inr ⟨fun able => absurd able.low (not_le.mpr below),_,wouldBlockNotDone sop,rfl⟩
  split
  · rename_i above
    exact .inr ⟨fun able => absurd able.high (not_le.mpr above),_,Try.noConfusion,rfl⟩
  split
  · rename_i far
    refine .inr ⟨fun able => ?_,_,Try.noConfusion,rfl⟩
    have within := able.undo far.1
    omega
  · rename_i below above far
    refine .inl ⟨⟨fun zero => ?_,not_lt.mp below,not_lt.mp above,fun undo => ?_⟩,rfl⟩
    · exact Decidable.not_not.mp fun some => go ⟨zero,some⟩
    · have within : ¬((adjOf s.semadj un sop.semNum).toInt - sop.semOp.toInt < -SEMAEM - 1 ∨
          SEMAEM < (adjOf s.semadj un sop.semNum).toInt - sop.semOp.toInt) := fun out => far ⟨undo,out⟩
      omega

theorem tryFromSpec (s : Sems) (un : Option Nat) (pid : Nat) (made rest : List Sembuf) :
    AllAble s un made rest ∧ tryFrom un pid made rest (s.after made) =
      (.done,commitOps un pid (rest.reverse ++ made) (s.after (rest.reverse ++ made))) ∨
    ¬AllAble s un made rest ∧ ∃ r, r ≠ .done ∧ tryFrom un pid made rest (s.after made) = (r,s) := by
  induction rest generalizing made with
  | nil => exact .inl ⟨trivial,rfl⟩
  | cons sop rest ih =>
    rcases tryStep s un pid made sop rest with ⟨able,next⟩ | ⟨unable,stop⟩
    · rw [next]
      rcases ih (sop::made) with ⟨all,result⟩ | ⟨some,stop⟩
      · refine .inl ⟨⟨able,all⟩,?_⟩
        rw [result,reverse_cons,append_assoc]
        rfl
      · exact .inr ⟨fun all => some all.2,stop⟩
    · exact .inr ⟨fun all => unable all.1,stop⟩

theorem commitSemval (un : Option Nat) (pid : Nat) (made : List Sembuf) (s : Sems) : (commitOps un pid made s).semval = s.semval := by
  induction made generalizing s with
  | nil => rfl
  | cons sop made ih => exact ih _

theorem commitSemadj (un : Option Nat) (pid : Nat) {made} (zero : ∀ sop ∈ made, sop.semOp = 0) (s : Sems) :
    (commitOps un pid made s).semadj = s.semadj := by
  induction made generalizing s with
  | nil => rfl
  | cons sop made ih =>
    have own := zero sop mem_cons_self
    refine (ih (forall_mem_cons.mp zero).2 _).trans ?_
    cases un with
    | none => rfl
    | some u =>
      dsimp only
      split
      · rw [own,Int16.sub_zero,update_eq_self,update_eq_self]
      · rfl

theorem startAfter (s : Sems) : s.after [] = s := by simp [Sems.after,sumOps]

theorem trySpec (s : Sems) (sops : List Sembuf) (un : Option Nat) (pid : Nat) :
    AllAble s un [] sops ∧ tryAtomicSemop s sops un pid = (.done,commitOps un pid sops.reverse (s.after sops.reverse)) ∨
    ∃ r, r ≠ .done ∧ tryAtomicSemop s sops un pid = (r,s) := by
  have spec := tryFromSpec s un pid [] sops
  rw [startAfter,append_nil] at spec
  exact spec.imp_right And.right

theorem tryUnchanged (failed : (tryAtomicSemop s sops un pid).1 ≠ .done) : (tryAtomicSemop s sops un pid).2 = s := by
  rcases trySpec s sops un pid with ⟨_,result⟩ | ⟨r,_,result⟩
  · exact absurd (congrArg Prod.fst result) failed
  · exact congrArg Prod.snd result

theorem tryDone (done : (tryAtomicSemop s sops un pid).1 = .done) :
    AllAble s un [] sops ∧ (tryAtomicSemop s sops un pid).2 = commitOps un pid sops.reverse (s.after sops.reverse) ∧
    ∀ k, (tryAtomicSemop s sops un pid).2.semval k = s.semval k + sumOps sops k := by
  rcases trySpec s sops un pid with ⟨all,result⟩ | ⟨r,notDone,result⟩
  · have out := congrArg Prod.snd result
    refine ⟨all,out,fun k => ?_⟩
    rw [out,commitSemval]
    exact congrArg (s.semval k + ·) (sumReverse sops k)
  · exact absurd ((congrArg Prod.fst result).symm.trans done) notDone

def InRange (v : Int) : Prop := 0 ≤ v ∧ v ≤ SEMVMX

theorem ableRange {k} (able : AllAble s un made rest) (range : InRange (s.semval k + sumOps made k)) :
    InRange (s.semval k + sumOps made k + sumOps rest k) := by
  induction rest generalizing made with
  | nil => simpa [sumOps] using range
  | cons sop rest ih =>
    have next : InRange (s.semval k + sumOps (sop::made) k) := by
      rw [sumCons]
      split
      · rename_i here
        have low := able.1.low
        have high := able.1.high
        rw [here] at low high
        exact ⟨by omega,by omega⟩
      · rwa [zero_add]
    have later := ih able.2 next
    have sum : s.semval k + sumOps (sop::made) k + sumOps rest k = s.semval k + sumOps made k + sumOps (sop::rest) k := by
      rw [sumCons,sumCons]
      omega
    rwa [sum] at later

theorem tryRange {k} (range : InRange (s.semval k)) : InRange ((tryAtomicSemop s sops un pid).2.semval k) := by
  by_cases done : (tryAtomicSemop s sops un pid).1 = .done
  · obtain ⟨able,_,values⟩ := tryDone done
    have start : s.semval k + sumOps [] k = s.semval k := add_zero _
    have range := start.symm ▸ range
    rw [values,← start]
    exact ableRange able range
  · rwa [tryUnchanged done]

theorem sumZero (zero : ∀ sop ∈ sops, sop.semOp = 0) (k : Nat) : sumOps sops k = 0 := by
  induction sops with
  | nil => rfl
  | cons sop rest ih =>
    have own := zero sop mem_cons_self
    rw [sumOps,ih fun x mem => zero x (mem_cons_of_mem sop mem),own]
    simp

theorem tryReads (zero : ∀ sop ∈ sops, sop.semOp = 0) :
    (tryAtomicSemop s sops un pid).2.semval = s.semval ∧ (tryAtomicSemop s sops un pid).2.semadj = s.semadj := by
  by_cases done : (tryAtomicSemop s sops un pid).1 = .done
  · obtain ⟨_,out,values⟩ := tryDone done
    refine ⟨funext fun k => ?_,?_⟩
    · rw [values,sumZero zero,add_zero]
    · rw [out,commitSemadj un pid fun x mem => zero x (mem_reverse.mp mem)]
      rfl
  · rw [tryUnchanged done]
    exact ⟨rfl,rfl⟩

theorem tryAnswer {r} (answer : tryAtomicSemop s sops un pid = (r,s')) : (r ≠ .done → s' = s) ∧
    (∀ k, InRange (s.semval k) → InRange (s'.semval k)) ∧
    ((∀ sop ∈ sops, sop.semOp = 0) → s'.semval = s.semval ∧ s'.semadj = s.semadj) := by
  have range (k : Nat) : InRange (s.semval k) → InRange ((tryAtomicSemop s sops un pid).2.semval k) := tryRange
  have failed : (tryAtomicSemop s sops un pid).1 ≠ .done → (tryAtomicSemop s sops un pid).2 = s := tryUnchanged
  have reads : _ → (tryAtomicSemop s sops un pid).2.semval = s.semval ∧ (tryAtomicSemop s sops un pid).2.semadj = s.semadj := tryReads
  rw [answer] at range failed reads
  exact ⟨failed,range,reads⟩

theorem tryFromCongr (values : s.semval = s'.semval) (adjustments : ∀ k, adjOf s.semadj un k = adjOf s'.semadj un k) :
    (tryFrom un pid made rest s).1 = (tryFrom un pid made rest s').1 := by
  induction rest generalizing made s s' with
  | nil => rfl
  | cons sop rest ih =>
    unfold tryFrom
    dsimp only
    rw [values,adjustments]
    split
    · rfl
    split
    · rfl
    split
    · rfl
    split
    · rfl
    · exact ih rfl adjustments

theorem tryCongr (values : s.semval = s'.semval) (adjustments : ∀ k, adjOf s.semadj un k = adjOf s'.semadj un k) :
    (tryAtomicSemop s sops un pid).1 = (tryAtomicSemop s' sops un pid).1 :=
  tryFromCongr values adjustments

/-! update_queue ends and leaves only entries that have to wait; this and what the undo lists
need hold after every call. -/

open Option

def Waits (sems : Sems) (q : SemQueue) : Prop := (tryAtomicSemop sems q.sops q.undo q.pid).1 = .sleep
def sleepers (pending : List SemQueue) : List Nat := pending.map SemQueue.sleeper
def alters (sops : List Sembuf) : Bool := sops.any fun sop => sop.semOp != 0

structure Updated (pending : List SemQueue) (sems : Sems) (status : Nat → Status) (pending' : List SemQueue) (sems' : Sems)
    (status' : Nat → Status) : Prop where
  sub : pending'.Sublist pending
  waits : ∀ q ∈ pending', Waits sems' q
  range : ∀ k, InRange (sems.semval k) → InRange (sems'.semval k)
  status : ∀ t, t ∉ sleepers pending ∨ t ∈ sleepers pending' → status' t = status t

section
variable {pending before rest : List SemQueue} {sems status q}

theorem notAltered {sops} (reads : alters sops = false) : ∀ sop ∈ sops, sop.semOp = 0 := by
  intro sop mem
  have none := any_eq_false.mp reads sop mem
  simpa using none

theorem sleepersApart (once : (sleepers (before ++ q::rest)).Nodup) : q.sleeper ∉ sleepers (before ++ rest) := by
  have moved : (before ++ q::rest).Perm (q::(before ++ rest)) := perm_middle
  exact (nodup_cons.mp ((moved.map SemQueue.sleeper).nodup_iff.mp once)).1

theorem Updated.woken {pending' sems' sems'' status'} (r : Result)
    (once : (sleepers (before ++ q::rest)).Nodup) (range : ∀ k, InRange (sems.semval k) → InRange (sems'.semval k))
    (later : Updated (before ++ rest) sems' (update status q.sleeper (.woken r)) pending' sems'' status') :
    Updated (before ++ q::rest) sems status pending' sems'' status' := by
  have apart := sleepersApart once
  have shorter := (sublist_cons_self q rest).append_left before
  refine ⟨later.sub.trans shorter,later.waits,fun k inside => later.range k (range k inside),fun t where' => ?_⟩
  have others : t ≠ q.sleeper ∧ (t ∉ sleepers (before ++ rest) ∨ t ∈ sleepers pending') := by
    rcases where' with outside | stays
    · refine ⟨?_,.inl fun mem => outside ((shorter.map _).subset mem)⟩
      rintro rfl
      exact outside (mem_map_of_mem (mem_append_right before mem_cons_self))
    · refine ⟨?_,.inr stays⟩
      rintro rfl
      exact apart ((later.sub.map _).subset stays)
  rw [later.status t others.2,update_of_ne others.1]

theorem updateLoopOk (before rest : List SemQueue) {fuel}
    (enough : (before ++ rest).length * (before ++ rest).length + rest.length < fuel)
    (flags : ∀ q ∈ before ++ rest, q.alter = alters q.sops) (once : (sleepers (before ++ rest)).Nodup) (waits : ∀ q ∈ before, Waits sems q) :
    ∃ pending' sems' status', updateLoop fuel before rest sems status = some (pending',sems',status') ∧
      Updated (before ++ rest) sems status pending' sems' status' := by
  induction fuel generalizing before rest sems status with
  | zero => omega
  | succ fuel ih =>
    cases rest with
    | nil =>
      refine ⟨before,sems,status,rfl,?_⟩
      rw [append_nil]
      exact ⟨.refl _,waits,fun _ inside => inside,fun _ _ => rfl⟩
    | cons q rest =>
      have shorter : (before ++ rest).length + 1 = (before ++ q::rest).length := by simp; omega
      have flags' : ∀ q ∈ before ++ rest, q.alter = alters q.sops := fun x mem =>
        flags x (((sublist_cons_self q rest).append_left before).subset mem)
      have once' := (((sublist_cons_self q rest).append_left before).map SemQueue.sleeper).nodup once
      have square : (before ++ rest).length * (before ++ rest).length + 2 * (before ++ rest).length + 1 =
          (before ++ q::rest).length * (before ++ q::rest).length := by
        rw [← shorter,add_mul,mul_add]
        omega
      have fuel' : (before ++ rest).length * (before ++ rest).length + (before ++ rest).length < fuel := by
        omega
      unfold updateLoop
      cases answer : tryAtomicSemop sems q.sops q.undo q.pid with
      | mk r sems' =>
        obtain ⟨failed,range,reads⟩ := tryAnswer answer
        -- an entry that does not wait any more
        have leaves (r : Result) : ∃ pending' sems'' status',
            (if q.alter then updateLoop fuel [] (before ++ rest) sems' (update status q.sleeper (.woken r))
              else updateLoop fuel before rest sems' (update status q.sleeper (.woken r))) = some (pending',sems'',status') ∧
            Updated (before ++ q::rest) sems status pending' sems'' status' := by
          cases alter : q.alter with
          | true =>
            obtain ⟨pending',sems'',status',done,updated⟩ := ih [] (before ++ rest) fuel' flags' once' fun x mem => absurd mem not_mem_nil
            exact ⟨pending',sems'',status',done,updated.woken r once range⟩
          | false =>
            obtain ⟨values,adjustments⟩ := reads (notAltered ((flags q (mem_append_right before mem_cons_self)).symm.trans alter))
            have less : rest.length ≤ (before ++ rest).length := by simp
            obtain ⟨pending',sems'',status',done,updated⟩ := ih before rest (by omega) flags' once'
              (fun x mem => (tryCongr values fun k => by rw [adjustments]).trans (waits x mem))
            exact ⟨pending',sems'',status',done,updated.woken r once range⟩
        cases r with
        | sleep =>
          obtain rfl := failed Try.noConfusion
          have moved : before ++ q::rest = before ++ [q] ++ rest := by simp
          rw [moved] at enough flags once ⊢
          refine ih (before ++ [q]) rest (by rw [length_cons] at enough; omega) flags once fun x mem => ?_
          rcases mem_append.mp mem with old | new
          · exact waits x old
          · rw [mem_singleton.mp new]
            exact congrArg Prod.fst answer
        | done => exact leaves .ok
        | error e => exact leaves (.error e)

end

def Shared (s : State) (u : Nat) : Prop :=
  ∃ holders : List Nat, holders.Nodup ∧ (∀ t, t ∈ holders ↔ s.undoList t = some u) ∧ s.refcnt u = holders.length

structure Sound (s : State) : Prop where
  range : ∀ k, k < s.nsems → InRange (s.sems.semval k)
  flags : ∀ q ∈ s.pending, q.alter = alters q.sops
  once : (sleepers s.pending).Nodup
  asleep : ∀ q ∈ s.pending, s.status q.sleeper = .asleep
  undo : ∀ q ∈ s.pending, ∀ u, q.undo = some u → s.undoList q.sleeper = some u ∧ s.linked u = true
  shared : ∀ u, Shared s u
  lists : ∀ t u, s.undoList t = some u → u < s.nextList

def Settled (s : State) : Prop := ∀ q ∈ s.pending, Waits s.sems q

section
variable {s s' : State} {t u}

theorem runningAwake (running : (s.status t).isRunning = true) : s.status t ≠ .asleep := by
  intro asleep
  rw [asleep] at running
  cases running

theorem Sound.others (sound : Sound s) (awake : s.status t ≠ .asleep) {q} (mem : q ∈ s.pending) : q.sleeper ≠ t := by
  rintro rfl
  exact awake (sound.asleep q mem)

theorem updateQueueOk (sound : Sound s) : ∃ s', updateQueue s = some s' ∧ Sound s' ∧ Settled s' ∧ s'.nsems = s.nsems := by
  have nothing : ∀ x ∈ [], Waits s.sems x := fun x mem => absurd mem not_mem_nil
  obtain ⟨pending,sems,status,done,updated⟩ := updateLoopOk [] s.pending (Nat.lt_succ_self _) sound.flags sound.once nothing
  refine ⟨{ s with pending := pending, sems := sems, status := status },congrArg (Option.map _) done,?_,updated.waits,rfl⟩
  have old {q : SemQueue} (mem : q ∈ pending) := updated.sub.subset mem
  refine ⟨fun k inside => updated.range k (sound.range k inside),fun q mem => sound.flags q (old mem),
    (updated.sub.map SemQueue.sleeper).nodup sound.once,fun q mem => ?_,fun q mem => sound.undo q (old mem),sound.shared,sound.lists⟩
  exact (updated.status q.sleeper (.inr (mem_map_of_mem mem))).trans (sound.asleep q (old mem))

theorem Sound.ret (sound : Sound s) (awake : s.status t ≠ .asleep) (r : Result) : Sound (s.ret t r) := by
  refine ⟨sound.range,sound.flags,sound.once,fun q mem => ?_,sound.undo,sound.shared,sound.lists⟩
  exact (update_of_ne (sound.others awake mem) ..).trans (sound.asleep q mem)

variable {list refcnt}

theorem Shared.elsewhere (shared : Shared s u) (was : s.undoList t ≠ some u)
    (now : list ≠ some u) (count : refcnt u = s.refcnt u) : Shared { s with undoList := update s.undoList t list, refcnt := refcnt } u := by
  obtain ⟨holders,nodup,members,length⟩ := shared
  refine ⟨holders,nodup,fun t' => (members t').trans ?_,count.trans length⟩
  by_cases own : t' = t
  · subst own
    simp [was,now]
  · simp [own]

theorem Sound.relist (sound : Sound s) (awake : s.status t ≠ .asleep) {linked next}
    (grown : s.nextList ≤ next) (bound : ∀ u, list = some u → u < next) (kept : ∀ u < s.nextList, linked u = s.linked u)
    (shared : ∀ u, Shared { s with undoList := update s.undoList t list, refcnt := refcnt } u) :
    Sound { s with undoList := update s.undoList t list, refcnt := refcnt, linked := linked, nextList := next } := by
  refine ⟨sound.range,sound.flags,sound.once,sound.asleep,fun q mem u undo => ?_,shared,fun t' u here => ?_⟩
  · obtain ⟨own,link⟩ := sound.undo q mem u undo
    exact ⟨(update_of_ne (sound.others awake mem) ..).trans own,(kept u (sound.lists q.sleeper u own)).trans link⟩
  · dsimp only at here
    by_cases own : t' = t
    · subst own
      rw [update_self] at here
      exact bound u here
    · rw [update_of_ne own] at here
      exact lt_of_lt_of_le (sound.lists t' u here) grown

structure Listed (s : State) (t : Nat) (s' : State) : Prop where
  sound : Sound s'
  settled : Settled s'
  status : s'.status = s.status
  nsems : s'.nsems = s.nsems
  lists : ∀ t', t' ≠ t → s'.undoList t' = s.undoList t'

theorem getUndoListOk (sound : Sound s) (settled : Settled s) (awake : s.status t ≠ .asleep) (alloc : Bool) :
    Listed s t (getUndoList alloc t s).2 ∧ ∀ u, (getUndoList alloc t s).1 = some u → (getUndoList alloc t s).2.undoList t = some u := by
  unfold getUndoList
  split
  · rename_i u known
    exact ⟨⟨sound,settled,rfl,rfl,fun _ _ => rfl⟩,fun v same => known.trans same⟩
  rename_i unknown
  split
  case isFalse => exact ⟨⟨sound,settled,rfl,rfl,fun _ _ => rfl⟩,fun _ found => by cases found⟩
  case isTrue =>
    have fresh (t' : Nat) : s.undoList t' ≠ some s.nextList := fun here => lt_irrefl _ (sound.lists t' _ here)
    have bound : ∀ u, some s.nextList = some u → u < s.nextList + 1 := fun u same => some.inj same ▸ Nat.lt_succ_self _
    refine ⟨⟨sound.relist awake (Nat.le_succ _) bound (fun u old => update_of_ne (ne_of_lt old) ..) fun u => ?_,settled,rfl,rfl,
      fun t' other => update_of_ne other ..⟩,fun u same => (update_self ..).trans same⟩
    by_cases new : u = s.nextList
    · subst new
      refine ⟨[t],nodup_cons.mpr ⟨not_mem_nil,nodup_nil⟩,fun t' => ?_,update_self ..⟩
      by_cases own : t' = t
      · subst own
        simp
      · simp [own,fresh]
    · exact (sound.shared u).elsewhere (by simp [unknown]) (fun same => new (some.inj same).symm) (update_of_ne new ..)

theorem findAllocUndoOk (sound : Sound s) (settled : Settled s) (awake : s.status t ≠ .asleep) (allocList allocUndo : Bool) :
    Listed s t (findAllocUndo allocList allocUndo t s).2 ∧
    ∀ u, (findAllocUndo allocList allocUndo t s).1 = some u →
      (findAllocUndo allocList allocUndo t s).2.undoList t = some u ∧ (findAllocUndo allocList allocUndo t s).2.linked u = true := by
  obtain ⟨listed,found⟩ := getUndoListOk sound settled awake allocList
  unfold findAllocUndo
  cases lists : getUndoList allocList t s with
  | mk u s' =>
    rw [lists] at listed found
    cases u with
    | none => exact ⟨listed,fun _ found => by cases found⟩
    | some u =>
      have own := found u rfl
      dsimp only
      split
      · rename_i linked
        exact ⟨listed,fun v same => some.inj same ▸ ⟨own,linked⟩⟩
      rename_i free
      split
      case isFalse => exact ⟨listed,fun _ found => by cases found⟩
      case isTrue =>
        have sound := listed.sound
        -- no entry on the queue uses the new undo structure
        have apart {q v} (mem : q ∈ s'.pending) (undo : q.undo = some v) : v ≠ u := fun same => free (same ▸ (sound.undo q mem v undo).2)
        refine ⟨⟨⟨sound.range,sound.flags,sound.once,sound.asleep,?_,sound.shared,sound.lists⟩,?_,listed.status,listed.nsems,listed.lists⟩,
          fun v same => some.inj same ▸ ⟨own,update_self ..⟩⟩
        · intro q mem v undo
          obtain ⟨list,linked⟩ := sound.undo q mem v undo
          exact ⟨list,(update_of_ne (apart mem undo) ..).trans linked⟩
        · intro q mem
          have adjustments : ∀ k, adjOf (update s'.sems.semadj u fun _ => 0) q.undo k = adjOf s'.sems.semadj q.undo k := by
            intro k
            cases undo : q.undo with
            | none => rfl
            | some v =>
              show update s'.sems.semadj u (fun _ => 0) v k = s'.sems.semadj v k
              rw [update_of_ne (apart mem undo)]
          have same : (tryAtomicSemop { s'.sems with semadj := update s'.sems.semadj u fun _ => 0 } q.sops q.undo q.pid).1 =
            (tryAtomicSemop s'.sems q.sops q.undo q.pid).1 := tryCongr rfl adjustments
          exact same.trans (listed.settled q mem)

def Kept (s : State) (out : Option State) : Prop := ∃ s', out = some s' ∧ Sound s' ∧ Settled s' ∧ s'.nsems = s.nsems

section
variable (sound : Sound s) (settled : Settled s) (awake : s.status t ≠ .asleep)
include sound settled awake

theorem keptRet (r : Result) : Kept s (some (s.ret t r)) :=
  ⟨s.ret t r,rfl,sound.ret awake r,settled,rfl⟩

theorem semopOk (env : Env)
    (list : ∀ u, un = some u → s.undoList t = some u ∧ s.linked u = true) : Kept s (semop env t sops un s) := by
  unfold semop
  dsimp only
  split
  · exact keptRet sound settled awake _
  split
  · exact keptRet sound settled awake _
  cases answer : tryAtomicSemop s.sems sops un env.pid with
  | mk r sems =>
    obtain ⟨failed,range,reads⟩ := tryAnswer answer
    cases r with
    | error e =>
      rw [failed Try.noConfusion]
      exact keptRet sound settled awake _
    | sleep =>
      obtain rfl := failed Try.noConfusion
      have fresh : t ∉ sleepers s.pending := by
        intro mem
        obtain ⟨q,inside,sleeper⟩ := mem_map.mp mem
        exact sound.others awake inside sleeper
      generalize entry : SemQueue.mk t env.pid sops un (sops.any fun sop => sop.semOp != 0) = queue
      have sleeper : queue.sleeper = t := entry ▸ rfl
      have members {q : SemQueue} (mem : q ∈ if alters sops then s.pending ++ [queue] else queue :: s.pending) : q = queue ∨ q ∈ s.pending := by
        split at mem
        · exact (mem_append.mp mem).symm.imp mem_singleton.mp id
        · exact mem_cons.mp mem
      refine ⟨_,rfl,⟨sound.range,?_,?_,?_,?_,sound.shared,sound.lists⟩,?_,rfl⟩
      · intro q mem
        rcases members mem with rfl | old
        · rw [← entry]
          rfl
        · exact sound.flags q old
      · have new := nodup_cons.mpr ⟨sleeper ▸ fresh,sound.once⟩
        split
        · exact ((perm_append_singleton queue s.pending).map SemQueue.sleeper).nodup_iff.mpr new
        · exact new
      · intro q mem
        rcases members mem with rfl | old
        · rw [sleeper]
          exact update_self ..
        · exact (update_of_ne (sound.others awake old) ..).trans (sound.asleep q old)
      · intro q mem u undo
        rcases members mem with rfl | old
        · rw [sleeper]
          rw [← entry] at undo
          exact list u undo
        · exact sound.undo q old u undo
      · intro q mem
        rcases members mem with rfl | old
        · rw [← entry]
          exact congrArg Prod.fst answer
        · exact settled q old
    | done =>
      have after : Sound { s with sems := sems } :=
        ⟨fun k inside => range k (sound.range k inside),sound.flags,sound.once,sound.asleep,sound.undo,sound.shared,sound.lists⟩
      have returned := after.ret awake .ok
      dsimp only
      split
      · obtain ⟨s',done,sound',settled',size⟩ := updateQueueOk returned
        exact ⟨s',done,sound',settled',size⟩
      rename_i only
      obtain ⟨values,adjustments⟩ := reads (notAltered (Bool.eq_false_iff.mpr only))
      refine ⟨_,rfl,returned,fun q mem => ?_,rfl⟩
      exact (tryCongr values fun k => congrArg (adjOf · q.undo k) adjustments).trans (settled q mem)

theorem semtimedopOk (env : Env) (sops : List Sembuf) : Kept s (semtimedop env t sops s) := by
  unfold semtimedop
  split
  · exact keptRet sound settled awake _
  split
  · exact keptRet sound settled awake _
  split
  · exact keptRet sound settled awake _
  split
  · obtain ⟨listed,found⟩ := findAllocUndoOk sound settled awake env.allocList env.allocUndo
    cases lists : findAllocUndo env.allocList env.allocUndo t s with
    | mk u s' =>
      rw [lists] at listed found
      have awake' := listed.status ▸ awake
      have back {out : Option State} (kept : Kept s' out) : Kept s out := by
        obtain ⟨s'',done,sound',settled',size⟩ := kept
        exact ⟨s'',done,sound',settled',size.trans listed.nsems⟩
      cases u with
      | none => exact back (keptRet listed.sound listed.settled awake' _)
      | some u => exact back (semopOk listed.sound listed.settled awake' env fun v same => some.inj same ▸ found u rfl)
  · exact semopOk sound settled awake env fun u none => by cases none

end

theorem erasedGone {pending} (once : (sleepers pending).Nodup) (t : Nat) :
    ∀ q ∈ pending.eraseP (fun q => q.sleeper == t), q.sleeper ≠ t := by
  induction pending with
  | nil => exact fun q mem => absurd mem not_mem_nil
  | cons p rest ih =>
    obtain ⟨apart,once⟩ := nodup_cons.mp once
    intro q mem
    rw [eraseP_cons] at mem
    cases own : p.sleeper == t with
    | true =>
      rw [own] at mem
      rintro rfl
      exact apart (beq_iff_eq.mp own ▸ mem_map_of_mem mem)
    | false =>
      rw [own] at mem
      rcases mem_cons.mp mem with rfl | later
      · exact fun same => Bool.false_ne_true (own.symm.trans (beq_iff_eq.mpr same))
      · exact ih once q later

theorem adjustRange (pid u : Nat) (sems : Sems) (i : Nat) {k} (range : InRange (sems.semval k)) : InRange ((adjust pid u sems i).semval k) := by
  unfold adjust
  split
  · exact range
  by_cases here : k = i
  · subst here
    dsimp only
    rw [update_self]
    have top : SEMVMX = 32767 := rfl
    unfold InRange
    split <;> split <;> omega
  · dsimp only
    rwa [update_of_ne here]

theorem adjustsRange (pid u : Nat) (places : List Nat) {sems k} (range : InRange (sems.semval k)) :
    InRange ((places.foldl (adjust pid u) sems).semval k) := by
  induction places generalizing sems with
  | nil => exact range
  | cons i rest ih => exact ih (adjustRange pid u sems i range)

theorem Shared.drop (shared : Shared s u) (own : s.undoList t = some u) : Shared (s.dropList t u) u := by
  obtain ⟨holders,nodup,members,count⟩ := shared
  have mem := (members t).mpr own
  refine ⟨holders.erase t,nodup.erase t,fun t' => ?_,?_⟩
  · rw [nodup.mem_erase_iff,members,State.dropList]
    by_cases here : t' = t
    · subst here
      simp
    · simp [here]
  · rw [length_erase_of_mem mem,← count]
    exact update_self ..

section
variable (sound : Sound s)
include sound

theorem Sound.drop (awake : s.status t ≠ .asleep) (own : s.undoList t = some u) : Sound (s.dropList t u) := by
  refine sound.relist awake le_rfl (fun v none => by cases none) (fun _ _ => rfl) fun v => ?_
  by_cases same : v = u
  · exact same ▸ (sound.shared u).drop own
  · exact (sound.shared v).elsewhere (fun here => same (some.inj (here.symm.trans own))) (fun none => by cases none) (update_of_ne same ..)

section
variable (settled : Settled s)
include settled

theorem resumeOk (timedOut : Bool) (t : Nat) : Kept s (some (resume timedOut t s)) := by
  unfold resume
  split
  · exact ⟨s,rfl,sound,settled,rfl⟩
  · rename_i woken
    exact keptRet sound settled (by rw [woken]; exact Status.noConfusion) _
  · have sub : (s.pending.eraseP fun q => q.sleeper == t).Sublist s.pending := eraseP_sublist
    have gone := erasedGone sound.once t
    refine ⟨_,rfl,⟨sound.range,fun q mem => sound.flags q (sub.subset mem),(sub.map SemQueue.sleeper).nodup sound.once,fun q mem => ?_,
      fun q mem => sound.undo q (sub.subset mem),sound.shared,sound.lists⟩,fun q mem => settled q (sub.subset mem),rfl⟩
    exact (update_of_ne (gone q mem) ..).trans (sound.asleep q (sub.subset mem))

theorem copySemundoOk {child} (awake : s.status t ≠ .asleep) (awake' : s.status child ≠ .asleep)
    (new : s.undoList child = none) (other : child ≠ t) (alloc : Bool) : Kept s (some (copySemundo alloc t child s)) := by
  obtain ⟨listed,found⟩ := getUndoListOk sound settled awake alloc
  unfold copySemundo
  cases lists : getUndoList alloc t s with
  | mk u s' =>
    rw [lists] at listed found
    cases u with
    | none => exact ⟨s',rfl,listed.sound,listed.settled,listed.nsems⟩
    | some u =>
      have sound := listed.sound
      have own := found u rfl
      have none : s'.undoList child = none := (listed.lists child other).trans new
      have awake' := listed.status ▸ awake'
      have bound : ∀ v, some u = some v → v < s'.nextList := fun v same => some.inj same ▸ sound.lists t u own
      refine ⟨_,rfl,sound.relist awake' le_rfl bound (fun _ _ => rfl) fun v => ?_,listed.settled,listed.nsems⟩
      by_cases same : v = u
      · subst same
        obtain ⟨holders,nodup,members,count⟩ := sound.shared v
        have outside : child ∉ holders := fun mem => by
          rw [(members child).mp mem] at none
          cases none
        refine ⟨child::holders,nodup_cons.mpr ⟨outside,nodup⟩,fun t' => ?_,(update_self ..).trans (congrArg (· + 1) count)⟩
        by_cases here : t' = child
        · subst here
          simp
        · simp [here,members]
      · exact (sound.shared v).elsewhere (by simp [none]) (fun here => same (some.inj here).symm) (update_of_ne same ..)

theorem exitSemOk (awake : s.status t ≠ .asleep) (pid : Nat) : Kept s (exitSem pid t s) := by
  unfold exitSem
  cases own : s.undoList t with
  | none => exact ⟨s,rfl,sound,settled,rfl⟩
  | some u =>
    have sound' := sound.drop awake own
    dsimp only
    split
    · exact ⟨_,rfl,sound',settled,rfl⟩
    rename_i last
    split
    · exact ⟨_,rfl,sound',settled,rfl⟩
    -- the last task has left the list, so no sleeper uses it
    have unused : ∀ t', (s.dropList t u).undoList t' ≠ some u := by
      obtain ⟨holders,_,members,count⟩ := sound'.shared u
      have none := length_eq_zero_iff.mp (count.symm.trans (Decidable.not_not.mp last))
      intro t' here
      have mem := (members t').mpr here
      rw [none] at mem
      exact not_mem_nil mem
    refine (updateQueueOk ⟨fun k inside => ?_,sound'.flags,sound'.once,sound'.asleep,?_,sound'.shared,sound'.lists⟩)
    · exact adjustsRange pid u _ (sound'.range k inside)
    · intro q mem v undo
      obtain ⟨list,linked⟩ := sound'.undo q mem v undo
      have apart : v ≠ u := by
        rintro rfl
        exact unused q.sleeper list
      exact ⟨list,(update_of_ne apart ..).trans linked⟩

theorem stepOk (e : Event) : Kept s (step s e) := by
  have same : Kept s (some s) := ⟨s,rfl,sound,settled,rfl⟩
  cases e with
  | semtimedop t sops env =>
    unfold step
    dsimp only
    split
    · exact semtimedopOk sound settled (runningAwake ‹_›) env sops
    · exact same
  | resume t timedOut => exact resumeOk sound settled timedOut t
  | clone t child alloc =>
    unfold step
    dsimp only
    split
    · rename_i fresh
      exact copySemundoOk sound settled (runningAwake fresh.1) (runningAwake fresh.2.1) fresh.2.2.1 fresh.2.2.2 alloc
    · exact same
  | exit t pid =>
    unfold step
    dsimp only
    split
    · exact exitSemOk sound settled (runningAwake ‹_›) pid
    · exact same

theorem runOk (events : List Event) : Kept s (events.foldlM step s) := by
  induction events generalizing s with
  | nil => exact ⟨s,rfl,sound,settled,rfl⟩
  | cons e rest ih =>
    obtain ⟨s',done,sound',settled',size⟩ := stepOk sound settled e
    obtain ⟨s'',done',sound'',settled'',size'⟩ := ih sound' settled'
    refine ⟨s'',?_,sound'',settled'',size'.trans size⟩
    rw [foldlM_cons,done]
    exact done'

end

end

theorem newArrayOk {nsems semval} (range : ∀ k, k < nsems → InRange (semval k)) (sempid : Nat → Nat) :
    Sound (newArray nsems semval sempid) ∧ Settled (newArray nsems semval sempid) := by
  have none {P : SemQueue → Prop} : ∀ q ∈ [], P q := fun q mem => absurd mem not_mem_nil
  refine ⟨⟨range,none,nodup_nil,none,none,fun u => ⟨[],nodup_nil,fun t => ?_,rfl⟩,fun t u list => ?_⟩,none⟩
  · simp [newArray]
  · cases list

theorem semaphoresSettled {nsems semval} (range : ∀ k, k < nsems → InRange (semval k)) (sempid : Nat → Nat)
    (events : List Event) : ∃ s, events.foldlM step (newArray nsems semval sempid) = some s ∧
      (∀ k, k < nsems → InRange (s.sems.semval k)) ∧
      (∀ q ∈ s.pending, (tryAtomicSemop s.sems q.sops q.undo q.pid).1 = .sleep) ∧
      (∃ s', updateQueue s = some s') ∧
      ∀ sems sops un pid, ((tryAtomicSemop sems sops un pid).1 ≠ .done → (tryAtomicSemop sems sops un pid).2 = sems) ∧
        ((tryAtomicSemop sems sops un pid).1 = .done → AllAble sems un [] sops ∧
          ∀ k, (tryAtomicSemop sems sops un pid).2.semval k = sems.semval k + sumOps sops k) := by
  obtain ⟨sound,settled⟩ := newArrayOk range sempid
  obtain ⟨s,done,sound',settled',size⟩ := runOk sound settled events
  obtain ⟨s',updated,_⟩ := updateQueueOk sound'
  refine ⟨s,done,fun k inside => sound'.range k (size.symm ▸ inside),settled',⟨s',updated⟩,fun sems sops un pid => ?_⟩
  exact ⟨tryUnchanged,fun done => ⟨(tryDone done).1,(tryDone done).2.2⟩⟩

end

def plain : Env := ⟨32,false,true,true,true,7⟩

def handOver : List Event :=
  [.semtimedop 0 [⟨0,-1,0⟩] plain,.semtimedop 1 [⟨0,1,SEM_UNDO⟩,⟨1,2,SEM_UNDO⟩] plain,.resume 0 false,.exit 1 7]

theorem handOverSettled : ∃ s, handOver.foldlM step (newArray 2 (fun _ => 0) fun _ => 0) = some s ∧
    (∀ q ∈ s.pending, (tryAtomicSemop s.sems q.sops q.undo q.pid).1 = .sleep) ∧
    s.pending.length = 0 ∧ s.sems.semval 0 = 0 ∧ s.sems.semval 1 = 0 ∧ s.status 0 = .running (some .ok) := by
  obtain ⟨s,done,_,waits,_⟩ := semaphoresSettled (fun _ _ => ⟨le_refl 0,by decide⟩) (fun _ => 0) handOver
  have values : (handOver.foldlM step (newArray 2 (fun _ => 0) fun _ => 0)).map
      (fun s => (s.pending.length,s.sems.semval 0,s.sems.semval 1,s.status 0)) = some (0,0,0,.running (some .ok)) := by decide +kernel
  rw [done] at values
  simp only [map_some,some.injEq,Prod.mk.injEq] at values
  exact ⟨s,done,waits,values⟩

end EclairKernel.Sem
