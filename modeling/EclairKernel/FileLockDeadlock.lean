import EclairKernel.FileLockMap
import EclairKernel.AcyclicGraph

/-! Requests that wait for a POSIX lock. A waiter stays queued on a lock of its
inode that still conflicts with it until it is woken, and locks of different
owners overlap only when all of them are read locks. -/
namespace EclairKernel.FileLock
open EclairKernel.IntervalMap Function List Nat Run

section
variable {O : Type}

structure Linked (s : System O) : Prop where
  next : ∀ b w, w ∈ s.flBlock b ↔ s.flNext w = some b
  blocked : ∀ w, w ∈ s.blockedList ↔ ∃ b, s.flNext w = some b

structure Drained (s s' : System O) : Prop where
  fewer : ∀ b w, w ∈ s'.flBlock b → w ∈ s.flBlock b
  woken : ∀ b w, w ∈ s.flBlock b → w ∈ s'.flBlock b ∨ w ∈ s'.woken
  log : s.woken ⊆ s'.woken
  linked : Linked s → Linked s'
  sublist : s'.blockedList.Sublist s.blockedList

section
variable {s s' s'' : System O}

theorem Drained.refl (s : System O) : Drained s s :=
  ⟨fun _ _ mem => mem,fun _ _ mem => .inl mem,fun _ mem => mem,id,List.Sublist.refl _⟩

theorem Drained.trans (first : Drained s s') (second : Drained s' s'') : Drained s s'' := by
  refine ⟨fun b w mem => first.fewer b w (second.fewer b w mem),fun b w mem => ?_,fun w mem => second.log (first.log mem),
    fun linked => second.linked (first.linked linked),second.sublist.trans first.sublist⟩
  rcases first.woken b w mem with queued | woken
  · exact second.woken b w queued
  · exact .inr (second.log woken)

theorem wakeUpDrained (s : System O) (waiter : Nat) : Drained s (wakeUp s waiter) := by
  refine ⟨fun b w mem => mem_of_mem_filter mem,fun b w mem => ?_,subset_append_left _ _,fun linked => ?_,
    filter_sublist⟩
  · by_cases is : w = waiter
    · exact .inr (mem_append_right _ (mem_singleton.mpr is))
    · exact .inl (mem_filter.mpr ⟨mem,decide_eq_true is⟩)
  · refine ⟨fun b w => ?_,fun w => ?_⟩ <;> by_cases is : w = waiter
    · simp [wakeUp,locksDeleteBlock,is]
    · simpa [wakeUp,locksDeleteBlock,is] using linked.next b w
    · simp [wakeUp,locksDeleteBlock,is]
    · simpa [wakeUp,locksDeleteBlock,is] using linked.blocked w

theorem wakeAll (waiters : List Nat) : ∀ s : System O, Drained s (waiters.foldl wakeUp s) ∧
    ∀ w ∈ waiters, ∀ b, w ∉ (waiters.foldl wakeUp s).flBlock b := by
  induction waiters with
  | nil => exact fun s => ⟨Drained.refl s,fun _ mem => absurd mem not_mem_nil⟩
  | cons w rest ih =>
    intro s
    obtain ⟨drained,gone⟩ := ih (wakeUp s w)
    refine ⟨(wakeUpDrained s w).trans drained,forall_mem_cons.mpr ⟨fun b queued => ?_,gone⟩⟩
    have before := drained.fewer b w queued
    simp [wakeUp,locksDeleteBlock] at before

theorem wakeBlocksDrained (s : System O) (b : Nat) :
    Drained s (locksWakeUpBlocks s b) ∧ (locksWakeUpBlocks s b).flBlock b = [] := by
  obtain ⟨drained,gone⟩ := wakeAll (s.flBlock b) s
  refine ⟨drained,eq_nil_iff_forall_not_mem.mpr fun w mem => ?_⟩
  exact gone w (drained.fewer b w mem) b mem

theorem wakesDrained (blockers : List Nat) : ∀ s : System O, Drained s (blockers.foldl locksWakeUpBlocks s) ∧
    ∀ b ∈ blockers, (blockers.foldl locksWakeUpBlocks s).flBlock b = [] := by
  induction blockers with
  | nil => exact fun s => ⟨Drained.refl s,fun _ mem => absurd mem not_mem_nil⟩
  | cons b rest ih =>
    intro s
    obtain ⟨first,empty⟩ := wakeBlocksDrained s b
    obtain ⟨later,gone⟩ := ih (locksWakeUpBlocks s b)
    refine ⟨first.trans later,forall_mem_cons.mpr ⟨eq_nil_iff_forall_not_mem.mpr fun w queued => ?_,gone⟩⟩
    have before := later.fewer b w queued
    rw [empty] at before
    cases before

theorem finishCode (sc : Scan O) (flExists : Bool) (newFl newFl2 : Option Nat) :
    (sc.finish flExists newFl newFl2).1 ∈ [-ENOLCK,-ENOENT,0] := by
  simp only [Scan.finish]
  split
  · exact mem_cons_self
  split
  · exact mem_cons_of_mem _ (mem_cons_of_mem _ mem_cons_self)
  split
  · cases flExists
    · exact mem_cons_of_mem _ (mem_cons_of_mem _ mem_cons_self)
    · exact mem_cons_of_mem _ mem_cons_self
  · cases newFl
    · exact mem_cons_self
    · exact mem_cons_of_mem _ (mem_cons_of_mem _ mem_cons_self)

theorem queueMem {s : System O} {fl w b k : Nat} :
    k ∈ (locksInsertBlock s fl w).flBlock b ↔ k ∈ s.flBlock b ∨ k = w ∧ b = fl := by
  by_cases here : b = fl
  · simp [locksInsertBlock,here]
  · simp [locksInsertBlock,here]

end

variable [DecidableEq O]

theorem conflictIff (caller sys : Lock O) : posixLocksConflict caller sys = true ↔ sys.posix = true ∧
    caller.flOwner ≠ sys.flOwner ∧ sys.flStart ≤ caller.flEnd ∧ caller.flStart ≤ sys.flEnd ∧
    (sys.flType = .wrlck ∨ caller.flType = .wrlck) := by
  simp only [posixLocksConflict,posixSameOwner,locksOverlap,locksConflict]
  cases sys.posix
  · simp
  · by_cases owner : caller.flOwner = sys.flOwner
    · simp [owner]
    · simp only [owner,Bool.not_true,decide_false,Bool.or_false,Bool.false_eq_true,if_false,ne_eq,not_false_eq_true,
        true_and,Bool.not_eq_true',Bool.and_eq_false_iff,decide_eq_false_iff_not]
      by_cases overlap : sys.flStart ≤ caller.flEnd ∧ caller.flStart ≤ sys.flEnd
      · simp [overlap]
      · have apart := not_and_or.mp overlap
        rw [if_pos apart]
        simp only [Bool.false_eq_true,false_iff]
        exact fun all => overlap ⟨all.1,all.2.1⟩

theorem conflictWider {caller old new : Lock O} (wider : Wider old new) (conflict : posixLocksConflict caller old = true) :
    posixLocksConflict caller new = true := by
  rw [conflictIff] at conflict ⊢
  obtain ⟨posix,owner,low,high,type⟩ := conflict
  rw [wider.posix,wider.owner,wider.type]
  exact ⟨posix,owner,wider.low.trans low,high.trans wider.high,type⟩

structure Waiting (s : System O) : Prop where
  linked : Linked s
  conflict : ∀ b w, w ∈ s.flBlock b → posixLocksConflict (s.lock w) (s.lock b) = true
  queued : ∀ b w, w ∈ s.flBlock b → ∃ i, b ∈ s.iFlock i
  unlisted : ∀ b w, w ∈ s.flBlock b → w < s.fresh ∧ ∀ i, w ∉ s.iFlock i

structure Steady (s s' : System O) : Prop where
  drained : Drained s s'
  waiter : ∀ b w, w ∈ s'.flBlock b → s'.lock w = s.lock w
  blocker : ∀ b w, w ∈ s'.flBlock b → Wider (s.lock b) (s'.lock b)
  stays : ∀ b w, w ∈ s'.flBlock b → ∀ i, b ∈ s.iFlock i → b ∈ s'.iFlock i
  listed : ∀ i n, n ∈ s'.iFlock i → n < s.fresh → n ∈ s.iFlock i
  fresh : s.fresh ≤ s'.fresh

section
variable {s s' : System O} {q}

theorem Steady.waiting (st : Steady s s') (w : Waiting s) : Waiting s' := by
  refine ⟨st.drained.linked w.linked,fun b k mem => ?_,fun b k mem => ?_,fun b k mem => ?_⟩
  · rw [st.waiter b k mem]
    exact conflictWider (st.blocker b k mem) (w.conflict b k (st.drained.fewer b k mem))
  · obtain ⟨i,found⟩ := w.queued b k (st.drained.fewer b k mem)
    exact ⟨i,st.stays b k mem i found⟩
  · obtain ⟨known,away⟩ := w.unlisted b k (st.drained.fewer b k mem)
    exact ⟨known.trans_le st.fresh,fun i found => away i (st.listed i k found known)⟩

theorem firstConflictSome {fl} (found : firstConflict s q = some fl) :
    fl ∈ s.iFlock q.inode ∧ posixLocksConflict q.lock (s.lock fl) = true := by
  simp only [firstConflict] at found
  split at found
  · cases found
  · have test := find?_some found
    simp only [Bool.and_eq_true] at test
    exact ⟨mem_of_find?_eq_some found,test.2⟩

theorem firstConflictNone (none : firstConflict s q = none) (held : q.type ≠ .unlck) {n}
    (mem : n ∈ s.iFlock q.inode) (posix : (s.lock n).posix = true) : posixLocksConflict q.lock (s.lock n) = false := by
  simp only [firstConflict,held] at none
  have test := find?_eq_none.mp none n mem
  simpa [posix] using test

inductive Stepped (s : System O) (q : Request O) : Int × System O → Prop
  | steady (code : Int) (s' : System O) (steady : Steady s s') (answered : code ≠ FILE_LOCK_DEFERRED) :
      Stepped s q (code,s')
  | queued (fl : Nat) (found : firstConflict s q = some fl) (searched : posixLocksDeadlock (enter s q) q.lock fl = false)
      (sleeps : q.flSleep = true) : Stepped s q (FILE_LOCK_DEFERRED,locksInsertBlock (enter s q) fl s.fresh)

theorem updateAnswered : (updateLocks s q).1 ≠ FILE_LOCK_DEFERRED := by
  have codes : ∀ c ∈ [-ENOLCK,-ENOENT,0], c ≠ FILE_LOCK_DEFERRED := by decide
  exact codes _ (finishCode _ _ _ _)

theorem Start.waiting (start : Start s) : Waiting s := by
  have none : ∀ b k, k ∉ s.flBlock b := fun b k mem => by
    rw [start.noWaiter] at mem
    cases mem
  refine ⟨⟨fun b k => ?_,fun k => ?_⟩,fun b k mem => absurd mem (none b k),fun b k mem => absurd mem (none b k),
    fun b k mem => absurd mem (none b k)⟩
  · simp [none,start.noNext]
  · simp [start.noBlocked,start.noNext]

def Exclusive (s : System O) : Prop := ∀ i o u x t t', o ≠ u → typeAt s i o x = some t → typeAt s i u x = some t' →
  t = .rdlck ∧ t' = .rdlck

theorem notWrite {t : LockType} (held : t ≠ .unlck) (notWrite : t ≠ .wrlck) : t = .rdlck := by
  cases t with
  | rdlck => rfl
  | wrlck => exact absurd rfl notWrite
  | unlck => exact absurd rfl held

theorem grantedClear (ok : (posixLockFile s q).1 = 0) : firstConflict s q = none := by
  cases found : firstConflict s q with
  | none => rfl
  | some fl =>
    simp only [posixLockFile,found] at ok
    split at ok
    · exact absurd ok (by decide : -EAGAIN ≠ 0)
    · split at ok
      · exact absurd ok (by decide : -EDEADLK ≠ 0)
      · exact absurd ok (by decide : FILE_LOCK_DEFERRED ≠ 0)

section
variable (v : Valid s)
include v

theorem enterSteady (w : Waiting s) : Steady s (enter s q) := by
  refine ⟨⟨fun _ _ mem => mem,fun _ _ mem => .inl mem,fun _ mem => mem,fun linked => ⟨linked.next,linked.blocked⟩,
      List.Sublist.refl _⟩,fun b k mem => enterLock (w.unlisted b k mem).1,fun b k mem => ?_,fun _ _ _ _ found => found,
    fun _ _ found _ => found,Nat.le_add_right _ 3⟩
  obtain ⟨i,found⟩ := w.queued b k mem
  rw [enterLock (v.known i b found)]
  exact Wider.refl _

theorem updateSteady (w : Waiting s) (range : InRange q) : Steady s (updateLocks s q).2 := by
  obtain ⟨pre,own,post,b⟩ := v.block q.inode q.owner
  obtain ⟨code,sc,result,finished⟩ := b.outcome v range
  obtain ⟨own',e,kept,-⟩ := b.exchanged v finished
  obtain ⟨drained,empty⟩ := wakesDrained sc.wakes { enter s q with
    lock := sc.lock, iFlock := update (enter s q).iFlock q.inode (sc.done ++ sc.rest) }
  rw [result]
  have queued := drained.fewer
  -- a lock of the owner that still has waiters was not woken: it stayed and grew
  have grown : ∀ n k, k ∈ (settle (enter s q) q.inode sc).flBlock n → n ∈ own →
      n ∈ own' ∧ Wider (s.lock n) (sc.lock n) := by
    intro n k waits mem
    refine (kept n mem).resolve_left fun woken => ?_
    rw [settle,empty n woken] at waits
    cases waits
  have unowned : ∀ n, (∀ i, n ∉ s.iFlock i) → n ∉ own := fun n away mem =>
    away q.inode (b.list ▸ mem_append_left _ (mem_append_right _ mem))
  refine ⟨⟨drained.fewer,drained.woken,drained.log,fun linked => drained.linked ⟨linked.next,linked.blocked⟩,
    drained.sublist⟩,fun n k waits => ?_,fun n k waits => ?_,fun n k waits i found => ?_,fun i n found known => ?_,e.fresh⟩
  · obtain ⟨known,away⟩ := w.unlisted n k (queued n k waits)
    exact e.lock k known (unowned k away)
  · by_cases mine : n ∈ own
    · rw [settleLock]
      exact (grown n k waits mine).2
    · obtain ⟨i,found⟩ := w.queued n k (queued n k waits)
      rw [e.lock n (v.known i n found) mine]
      exact Wider.refl _
  · by_cases here : i = q.inode
    · subst here
      rw [e.listHere]
      rw [b.list] at found
      by_cases mine : n ∈ own
      · exact mem_append_left _ (mem_append_right _ (grown n k waits mine).1)
      · exact memAround own' (memOutside found mine)
    · rw [e.listElse here]
      exact found
  · by_cases here : i = q.inode
    · subst here
      rw [e.listHere] at found
      rw [b.list]
      by_cases new : n ∈ own'
      · rcases e.ids n new with old | ⟨above,_⟩
        · exact mem_append_left _ (mem_append_right _ old)
        · omega
      · exact memAround own (memOutside found new)
    · rw [e.listElse here] at found
      exact found

theorem stepped (w : Waiting s) (range : InRange q) : Stepped s q (posixLockFile s q) := by
  rw [posixLockFile]
  split
  · rename_i fl found
    split
    · exact .steady (-EAGAIN) _ (enterSteady v w) (by decide)
    rename_i sleeps
    split
    · exact .steady (-EDEADLK) _ (enterSteady v w) (by decide)
    · rename_i searched
      exact .queued fl found (Bool.eq_false_iff.mpr searched) (by simpa using sleeps)
  · split
    · exact .steady 0 _ (enterSteady v w) (by decide)
    · exact .steady _ _ (updateSteady v w range) updateAnswered

theorem queueWaiting (w : Waiting s) {fl} (found : firstConflict s q = some fl) :
    Waiting (locksInsertBlock (enter s q) fl s.fresh) := by
  obtain ⟨mem,conflict⟩ := firstConflictSome found
  have known := v.known q.inode fl mem
  have entered : Waiting (enter s q) := (enterSteady v w).waiting w
  have posix : ((enter s q).lock fl).posix = true := by
    rw [enterLock known]
    exact ((conflictIff _ _).mp conflict).1
  have idle : (enter s q).flNext s.fresh = none := by
    cases next : s.flNext s.fresh with
    | none => exact next
    | some b => exact absurd (w.unlisted b s.fresh ((w.linked.next b s.fresh).mpr next)).1 (Nat.lt_irrefl _)
  refine ⟨⟨fun b k => ?_,fun k => ?_⟩,fun b k queued => ?_,fun b k queued => ?_,fun b k queued => ?_⟩
  · rw [queueMem,entered.linked.next b k]
    by_cases is : k = s.fresh
    · subst is
      simp only [locksInsertBlock,update_self,idle,reduceCtorEq,true_and,false_or,Option.some.injEq,eq_comm]
    · simp [locksInsertBlock,is]
  · by_cases is : k = s.fresh
    · subst is
      simp [locksInsertBlock,posix]
    · simp only [locksInsertBlock,posix,if_true,mem_cons,is,false_or,update_of_ne is]
      exact entered.linked.blocked k
  · rcases queueMem.mp queued with old | ⟨rfl,rfl⟩
    · exact entered.conflict b k old
    · simp only [locksInsertBlock]
      rw [enterLock known,enterRequest]
      exact conflict
  · rcases queueMem.mp queued with old | ⟨rfl,rfl⟩
    · exact entered.queued b k old
    · exact ⟨q.inode,mem⟩
  · rcases queueMem.mp queued with old | ⟨rfl,rfl⟩
    · exact entered.unlisted b k old
    · refine ⟨?_,fun i listed => lt_irrefl _ (v.known i s.fresh listed)⟩
      simp only [locksInsertBlock,enter]
      omega

theorem stepWaiting (w : Waiting s) (range : InRange q) : Waiting (posixLockFile s q).2 := by
  generalize result : posixLockFile s q = r
  have step := stepped v w range
  rw [result] at step
  cases step with
  | steady _ _ steady _ => exact steady.waiting w
  | queued fl found _ => exact queueWaiting v w found

theorem typeAtLock {i o x t} : typeAt s i o x = some t ↔
    ∃ n ∈ s.iFlock i, OwnedBy s o n ∧ (s.lock n).flStart ≤ x ∧ x ≤ (s.lock n).flEnd ∧ (s.lock n).flType = t := by
  obtain ⟨pre,own,post,list,mine,others,tidy⟩ := v.arranged i o
  rw [typeAt,filterOwn list mine others,labelAtSome tidy]
  constructor
  · rintro ⟨_,mem,covers,label⟩
    obtain ⟨n,found,rfl⟩ := piecesMem mem
    have taken := mine n found
    exact ⟨n,list ▸ mem_append_left _ (mem_append_right _ found),⟨taken.posix,taken.owner⟩,covers.1,covers.2,
      label⟩
  · rintro ⟨n,mem,owned,low,high,type⟩
    have found : n ∈ own := by
      by_contra away
      exact others n (memOutside (list ▸ mem) away) owned
    exact ⟨piece (s.lock n),pieceMem found,⟨low,high⟩,type⟩

theorem grantedReads (none : firstConflict s q = none) (held : q.type ≠ .unlck) {u x}
    {t : LockType} (other : q.owner ≠ u) (low : q.start ≤ x) (high : x ≤ q.stop) (theirs : typeAt s q.inode u x = some t) :
    q.type = .rdlck ∧ t = .rdlck := by
  obtain ⟨n,mem,owned,start,stop,rfl⟩ := (typeAtLock v).mp theirs
  have clear := firstConflictNone none held mem owned.1
  have taken := v.listed mem owned.1
  have not : ¬(s.lock n |>.flType) = .wrlck ∧ ¬q.type = .wrlck := by
    rw [← not_or]
    intro write
    refine Bool.eq_false_iff.mp clear ((conflictIff _ _).mpr ⟨owned.1,?_,?_,?_,write⟩)
    · rw [owned.2]
      exact other
    · exact start.trans high
    · exact low.trans stop
  exact ⟨notWrite held not.2,notWrite taken.held not.1⟩

theorem stepExclusive (range : InRange q) (excl : Exclusive s) : Exclusive (posixLockFile s q).2 := by
  have done := served v range
  -- the requester against another owner
  have against : ∀ u x t t', q.owner ≠ u → typeAt (posixLockFile s q).2 q.inode q.owner x = some t →
      typeAt (posixLockFile s q).2 q.inode u x = some t' → t = .rdlck ∧ t' = .rdlck := by
    intro u x t t' other mine theirs
    rw [done.others q.inode u x (.inr other.symm)] at theirs
    by_cases granted : (posixLockFile s q).1 = 0 ∧ q.flAccess = false
    · rw [done.granted granted.1 granted.2,overridden] at mine
      by_cases inside : q.start ≤ x ∧ x ≤ q.stop
      · rw [if_pos inside] at mine
        by_cases unlock : q.type = .unlck
        · rw [if_pos unlock] at mine
          cases mine
        · rw [if_neg unlock] at mine
          cases mine
          exact grantedReads v (grantedClear granted.1) unlock other inside.1 inside.2 theirs
      · rw [if_neg inside] at mine
        exact excl q.inode q.owner u x t t' other mine theirs
    · have refused : (posixLockFile s q).1 ≠ 0 ∨ q.flAccess = true := by
        rcases not_and_or.mp granted with failed | looks
        · exact .inl failed
        · exact .inr (Bool.eq_true_of_not_eq_false looks)
      rw [done.refused refused] at mine
      exact excl q.inode q.owner u x t t' other mine theirs
  intro i o u x t t' other mine theirs
  by_cases here : i = q.inode
  · subst here
    by_cases isO : o = q.owner
    · subst isO
      exact against u x t t' other mine theirs
    by_cases isU : u = q.owner
    · subst isU
      exact (against o x t' t (Ne.symm other) theirs mine).symm
    · rw [done.others q.inode o x (.inr isO)] at mine
      rw [done.others q.inode u x (.inr isU)] at theirs
      exact excl q.inode o u x t t' other mine theirs
  · rw [done.others i o x (.inl here)] at mine
    rw [done.others i u x (.inl here)] at theirs
    exact excl i o u x t t' other mine theirs

end

theorem Start.exclusive (start : Start s) : Exclusive s := by
  intro i o u x t t' _ mine _
  obtain ⟨n,mem,owned,_⟩ := (typeAtLock start.valid).mp mine
  exact absurd ((start.other i n mem).symm.trans owned.1) Bool.false_ne_true

end

/-- A run with the requests it left waiting: those answered `FILE_LOCK_DEFERRED`,
by the address of their record. -/
structure Traced (O : Type) where
  sys : System O
  deferred : List (Nat × Request O)

def tracedStep (t : Traced O) (q : Request O) : Traced O :=
  let r := posixLockFile t.sys q
  ⟨r.2,if r.1 = FILE_LOCK_DEFERRED then (t.sys.fresh,q)::t.deferred else t.deferred⟩

structure Orderly (t : Traced O) : Prop where
  valid : Valid t.sys
  waiting : Waiting t.sys
  exclusive : Exclusive t.sys
  noted : ∀ w q, (w,q) ∈ t.deferred → w ∈ t.sys.woken ∨ t.sys.lock w = q.lock ∧
    ∃ b ∈ t.sys.iFlock q.inode, w ∈ t.sys.flBlock b

theorem orderlyStep {t : Traced O} {q : Request O} (o : Orderly t) (range : InRange q) : Orderly (tracedStep t q) := by
  refine ⟨(served o.valid range).valid,stepWaiting o.valid o.waiting range,stepExclusive o.valid range o.exclusive,?_⟩
  have step := stepped o.valid o.waiting range
  simp only [tracedStep]
  generalize posixLockFile t.sys q = r at step ⊢
  cases step with
  | steady _ _ steady answered =>
    rw [if_neg answered]
    intro w p mem
    rcases o.noted w p mem with woken | ⟨lock,b,listed,queued⟩
    · exact .inl (steady.drained.log woken)
    · rcases steady.drained.woken b w queued with still | woken
      · exact .inr ⟨(steady.waiter b w still).trans lock,b,steady.stays b w still p.inode listed,still⟩
      · exact .inl woken
  | queued fl found _ =>
    intro w p mem
    rcases mem_cons.mp mem with same | old
    · cases same
      exact .inr ⟨enterRequest,fl,(firstConflictSome found).1,queueMem.mpr (.inr ⟨rfl,rfl⟩)⟩
    rcases o.noted w p old with woken | ⟨lock,b,listed,queued⟩
    · exact .inl woken
    · have known := (o.waiting.unlisted b w queued).1
      exact .inr ⟨(enterLock known).trans lock,b,listed,queueMem.mpr (.inl queued)⟩

theorem runOrderly {s} (start : Start s) {history : List (Request O)} (ranged : ∀ q ∈ history, InRange q) :
    Orderly (run tracedStep ⟨s,[]⟩ history) := by
  have keeps : ∀ (t : Traced O) (q : Request O), Orderly t → InRange q → Orderly (tracedStep t q) :=
    fun _ _ o range => orderlyStep o range
  refine runEach keeps ⟨start.valid,start.waiting,start.exclusive,fun w q mem => absurd mem not_mem_nil⟩ ranged

theorem locksExclude {s : System O} (start : Start s) (history : List (Request O)) (ranged : ∀ q ∈ history, InRange q) :
    let t := run tracedStep ⟨s,[]⟩ history
    (∀ i, ∀ a ∈ t.sys.iFlock i, ∀ b ∈ t.sys.iFlock i, (t.sys.lock a).posix = true → (t.sys.lock b).posix = true →
      (t.sys.lock a).flOwner ≠ (t.sys.lock b).flOwner → locksOverlap (t.sys.lock a) (t.sys.lock b) = true →
      (t.sys.lock a).flType = .rdlck ∧ (t.sys.lock b).flType = .rdlck) ∧
    ∀ w q, (w,q) ∈ t.deferred → w ∉ t.sys.woken → ∃ b ∈ t.sys.iFlock q.inode, w ∈ t.sys.flBlock b ∧
      (t.sys.lock b).flOwner ≠ q.owner ∧ posixLocksConflict q.lock (t.sys.lock b) = true := by
  intro t
  have o : Orderly t := runOrderly start ranged
  refine ⟨fun i a inA b inB posixA posixB owners overlap => ?_,fun w q mem asleep => ?_⟩
  · simp only [locksOverlap,Bool.and_eq_true,decide_eq_true_eq] at overlap
    have takenA := o.valid.listed inA posixA
    have takenB := o.valid.listed inB posixB
    have orderA := takenA.order
    have orderB := takenB.order
    have common : ∃ x, ((t.sys.lock a).flStart ≤ x ∧ x ≤ (t.sys.lock a).flEnd) ∧
        (t.sys.lock b).flStart ≤ x ∧ x ≤ (t.sys.lock b).flEnd :=
      ⟨max (t.sys.lock a).flStart (t.sys.lock b).flStart,⟨le_max_left _ _,by omega⟩,le_max_right _ _,by omega⟩
    obtain ⟨x,inRangeA,inRangeB⟩ := common
    exact o.exclusive i _ _ x _ _ owners
      ((typeAtLock o.valid).mpr ⟨a,inA,⟨posixA,rfl⟩,inRangeA.1,inRangeA.2,rfl⟩)
      ((typeAtLock o.valid).mpr ⟨b,inB,⟨posixB,rfl⟩,inRangeB.1,inRangeB.2,rfl⟩)
  · obtain ⟨lock,b,listed,queued⟩ := (o.noted w q mem).resolve_left asleep
    have conflict := o.waiting.conflict b w queued
    rw [lock] at conflict
    exact ⟨b,listed,queued,((conflictIff _ _).mp conflict).2.1.symm,conflict⟩

end

def tailRequest : Request Nat := ⟨0,2,.rdlck,5,9,false,false,true,true,true⟩

theorem tailWaits : let t := run tracedStep ⟨noLocks,[]⟩ [lockRequest .wrlck 0 9,tailRequest]
    t.deferred = [(3,tailRequest)] ∧ t.sys.woken = [] ∧ ∃ b ∈ t.sys.iFlock 0, 3 ∈ t.sys.flBlock b ∧
      (t.sys.lock b).flOwner ≠ 2 ∧ posixLocksConflict tailRequest.lock (t.sys.lock b) = true := by
  intro t
  have deferred : t.deferred = [(3,tailRequest)] := by decide
  have woken : t.sys.woken = [] := by decide
  have ranged : ∀ q ∈ [lockRequest .wrlck 0 9,tailRequest], InRange q := by
    refine forall_mem_cons.mpr ⟨?_,forall_mem_singleton.mpr ?_⟩
    all_goals exact ⟨by decide,by decide,by decide⟩
  refine ⟨deferred,woken,(locksExclude noLocksStart _ ranged).2 3 tailRequest ?_ ?_⟩
  · exact deferred ▸ mem_cons_self
  · exact woken ▸ not_mem_nil

/-! Deadlock detection among blocked requests. The search follows one waiter per
owner for a bounded number of rounds: what it reports is a cycle, and it reports
every cycle as long as the chain it follows is short enough. -/

open EclairKernel.Graph
open Relation

section
variable {O : Type}

def WaitsFor (s : System O) (o u : O) : Prop :=
  ∃ b w, w ∈ s.flBlock b ∧ (s.lock w).flOwner = o ∧ (s.lock b).flOwner = u

def waitingOwners (s : System O) : List O := s.blockedList.map fun w => (s.lock w).flOwner

def OneEach (s : System O) : Prop := (waitingOwners s).Nodup

theorem Steady.edges {s s'} (st : Steady s s') (o u : O) (edge : WaitsFor s' o u) : WaitsFor s o u := by
  obtain ⟨b,k,queued,rfl,rfl⟩ := edge
  exact ⟨b,k,st.drained.fewer b k queued,by rw [st.waiter b k queued],(st.blocker b k queued).owner.symm⟩

theorem queueEdges {s q fl} (o u : O)
    (edge : WaitsFor (locksInsertBlock (enter s q) fl s.fresh) o u) :
    withEdge (WaitsFor (enter s q)) q.owner ((enter s q).lock fl).flOwner o u := by
  obtain ⟨b,k,queued,rfl,rfl⟩ := edge
  rcases queueMem.mp queued with old | ⟨rfl,rfl⟩
  · exact .inl ⟨b,k,old,rfl,rfl⟩
  · refine .inr ⟨?_,rfl⟩
    exact congrArg Lock.flOwner enterRequest

variable [DecidableEq O]

instance (s : System O) : Decidable (OneEach s) := inferInstanceAs (Decidable (List.Nodup _))

section
variable {s s' : System O} {q}

theorem waiterFound (w : Waiting s) {block next} (found : whatOwnerIsWaitingFor s block = some next) :
    WaitsFor s (s.lock block).flOwner (s.lock next).flOwner := by
  obtain ⟨k,first,is⟩ := Option.bind_eq_some_iff.mp found
  have same : posixSameOwner (s.lock k) (s.lock block) = true := by simpa using find?_some first
  exact ⟨next,k,(w.linked.next next k).mpr is,of_decide_eq_true same,rfl⟩

theorem OneEach.found (one : OneEach s) (w : Waiting s) {block u}
    (edge : WaitsFor s (s.lock block).flOwner u) :
    ∃ next, whatOwnerIsWaitingFor s block = some next ∧ (s.lock next).flOwner = u := by
  obtain ⟨b,k,queued,owner,rfl⟩ := edge
  have next := (w.linked.next b k).mp queued
  have blocked := (w.linked.blocked k).mpr ⟨b,next⟩
  refine ⟨b,?_,rfl⟩
  rw [whatOwnerIsWaitingFor]
  cases first : s.blockedList.find? fun fl => posixSameOwner (s.lock fl) (s.lock block) with
  | none =>
    have same := decide_eq_true owner
    exact absurd same (find?_eq_none.mp first k blocked)
  | some k' =>
    have same : posixSameOwner (s.lock k') (s.lock block) = true := by simpa using find?_some first
    have only := inj_on_of_nodup_map one (mem_of_find?_eq_some first) blocked
      ((of_decide_eq_true same).trans owner.symm)
    rw [only]
    exact next

theorem searchSound (w : Waiting s) {caller} (rounds : Nat) : ∀ {block},
    deadlockLoop s caller rounds block = true → TransGen (WaitsFor s) (s.lock block).flOwner caller.flOwner := by
  induction rounds with
  | zero => exact fun found => absurd found Bool.false_ne_true
  | succ rounds ih =>
    intro block found
    rw [deadlockLoop] at found
    split at found
    · cases found
    rename_i next is
    have edge := waiterFound w is
    split at found
    · rename_i same
      have owner := of_decide_eq_true same
      rw [owner]
      exact .single edge
    · exact .head edge (ih found)

theorem searchComplete (w : Waiting s) (one : OneEach s) {caller} (n : Nat) : ∀ {block rounds},
    n < rounds → Steps (WaitsFor s) (n+1) (s.lock block).flOwner caller.flOwner →
    deadlockLoop s caller rounds block = true := by
  induction n with
  | zero =>
    rintro block (_ | rounds) enough ⟨u,edge,rfl⟩
    · cases enough
    · obtain ⟨next,is,owner⟩ := one.found w edge
      have same : posixSameOwner caller (s.lock next) = true := decide_eq_true owner.symm
      simp [deadlockLoop,is,same]
  | succ n ih =>
    rintro block (_ | rounds) enough ⟨u,edge,rest⟩
    · cases enough
    · obtain ⟨next,is,rfl⟩ := one.found w edge
      simp only [deadlockLoop,is]
      split
      · rfl
      · exact ih (lt_of_succ_lt_succ enough) rest

/-- What the owner of the lock waits for, what the owner of that waits for and so on ends within
the rounds. -/
def chainEnds (s : System O) : Nat → Nat → Bool
  | 0, block => (whatOwnerIsWaitingFor s block).isNone
  | rounds+1, block => (whatOwnerIsWaitingFor s block).all (chainEnds s rounds)

theorem chainBound (w : Waiting s) (one : OneEach s) {u} (rounds : Nat) : ∀ {block n}, chainEnds s rounds block = true →
    Steps (WaitsFor s) n (s.lock block).flOwner u → n ≤ rounds := by
  induction rounds with
  | zero =>
    rintro block (_ | n) ends steps
    · exact le_rfl
    · obtain ⟨_,edge,_⟩ := steps
      obtain ⟨next,is,_⟩ := one.found w edge
      simp [chainEnds,is] at ends
  | succ rounds ih =>
    rintro block (_ | n) ends steps
    · exact Nat.zero_le _
    · obtain ⟨_,edge,rest⟩ := steps
      obtain ⟨next,is,rfl⟩ := one.found w edge
      simp only [chainEnds,is,Option.all_some] at ends
      exact succ_le_succ (ih ends rest)

theorem queueAcyclic (v : Valid s) (w : Waiting s) (acyclic : Acyclic (WaitsFor s)) {fl}
    (found : firstConflict s q = some fl) (searched : posixLocksDeadlock (enter s q) q.lock fl = false)
    (one : OneEach (enter s q)) (short : chainEnds (enter s q) (MAX_DEADLK_ITERATIONS + 1) fl = true) :
    Acyclic (WaitsFor (locksInsertBlock (enter s q) fl s.fresh)) := by
  have steady : Steady s (enter s q) := enterSteady v w
  have waiting := steady.waiting w
  have before := acyclic.mono steady.edges
  obtain ⟨mem,conflict⟩ := firstConflictSome found
  refine (before.addEdge fun path => ?_).mono queueEdges
  obtain ⟨n,steps⟩ := stepsOfPath path
  cases n with
  | zero =>
    have owner := steps
    rw [enterLock (v.known q.inode fl mem)] at owner
    exact ((conflictIff _ _).mp conflict).2.1 owner.symm
  | succ n =>
    have bound := chainBound waiting one _ short steps
    have found : posixLocksDeadlock (enter s q) q.lock fl = true := searchComplete waiting one n bound steps
    rw [found] at searched
    cases searched

structure Bounded (s : System O) (q : Request O) : Prop where
  range : InRange q
  one : OneEach (requestStep s q)
  short : q.flSleep = true → (firstConflict s q).all (chainEnds (enter s q) (MAX_DEADLK_ITERATIONS + 1)) = true

instance (q : Request O) : Decidable (InRange q) :=
  decidable_of_iff (0 ≤ q.start ∧ q.start ≤ q.stop ∧ q.stop ≤ OFFSET_MAX)
    ⟨fun h => ⟨h.1,h.2.1,h.2.2⟩,fun h => ⟨h.low,h.order,h.high⟩⟩

instance (s : System O) (q : Request O) : Decidable (Bounded s q) :=
  decidable_of_iff (InRange q ∧ OneEach (requestStep s q) ∧
    (q.flSleep = true → (firstConflict s q).all (chainEnds (enter s q) (MAX_DEADLK_ITERATIONS + 1)) = true))
    ⟨fun h => ⟨h.1,h.2.1,h.2.2⟩,fun h => ⟨h.range,h.one,h.short⟩⟩

structure Live (s : System O) : Prop where
  valid : Valid s
  waiting : Waiting s
  acyclic : Acyclic (WaitsFor s)

theorem liveStep (l : Live s) (bounded : Bounded s q) : Live (requestStep s q) := by
  obtain ⟨range,one,short⟩ := bounded
  refine ⟨(served l.valid range).valid,stepWaiting l.valid l.waiting range,?_⟩
  have step := stepped l.valid l.waiting range
  simp only [requestStep] at one ⊢
  generalize posixLockFile s q = r at step one ⊢
  cases step with
  | steady _ _ steady _ => exact l.acyclic.mono steady.edges
  | queued fl found searched sleeps =>
    have posix : ((enter s q).lock fl).posix = true := by
      obtain ⟨mem,conflict⟩ := firstConflictSome found
      rw [enterLock (l.valid.known q.inode fl mem)]
      exact ((conflictIff _ _).mp conflict).1
    simp only [locksInsertBlock,posix] at one
    have short := short sleeps
    rw [found] at short
    exact queueAcyclic l.valid l.waiting l.acyclic found searched (nodup_cons.mp one).2 short

theorem deadlockSound (v : Valid s) (w : Waiting s) (refused : (posixLockFile s q).1 = -EDEADLK) :
    ∃ fl, firstConflict s q = some fl ∧
      TransGen (withEdge (WaitsFor s) q.owner (s.lock fl).flOwner) q.owner q.owner := by
  have steady : Steady s (enter s q) := enterSteady v w
  cases found : firstConflict s q with
  | none =>
    simp only [posixLockFile,found] at refused
    split at refused
    · exact absurd refused (by decide : (0 : Int) ≠ -EDEADLK)
    · have codes : ∀ c ∈ [-ENOLCK,-ENOENT,0], c ≠ -EDEADLK := by decide
      exact absurd refused (codes _ (finishCode _ _ _ _))
  | some fl =>
    simp only [posixLockFile,found] at refused
    split at refused
    · exact absurd refused (by decide : -EAGAIN ≠ -EDEADLK)
    split at refused
    · rename_i searched
      have path := searchSound (steady.waiting w) _ searched
      rw [enterLock (v.known q.inode fl (firstConflictSome found).1)] at path
      exact ⟨fl,rfl,closesCycle (TransGen.mono steady.edges _ _ path).to_reflTransGen⟩
    · exact absurd refused (by decide : FILE_LOCK_DEFERRED ≠ -EDEADLK)

theorem noDeadlock (start : Start s) (history : List (Request O)) :
    (Admitted requestStep Bounded s history → Acyclic (WaitsFor (run requestStep s history))) ∧
    ((∀ q ∈ history, InRange q) → ∀ q : Request O,
      let now := run requestStep s history
      (posixLockFile now q).1 = -EDEADLK → ∃ fl, firstConflict now q = some fl ∧
        TransGen (withEdge (WaitsFor now) q.owner (now.lock fl).flOwner) q.owner q.owner) := by
  refine ⟨fun bounded => ?_,fun ranged q refused => ?_⟩
  · have none : Acyclic (WaitsFor s) := by
      intro o cycle
      obtain ⟨u,⟨b,k,queued,_⟩,_⟩ := TransGen.head'_iff.mp cycle
      rw [start.noWaiter] at queued
      cases queued
    have keeps : ∀ (s : System O) (q : Request O), Live s → Bounded s q → Live (requestStep s q) :=
      fun _ _ live bounded => liveStep live bounded
    exact (runInvariant keeps ⟨start.valid,start.waiting,none⟩ bounded).acyclic
  · have keeps : ∀ (s : System O) (q : Request O), Valid s ∧ Waiting s → InRange q → Valid (requestStep s q) ∧ Waiting (requestStep s q) :=
      fun _ _ ok range => ⟨(served ok.1 range).valid,stepWaiting ok.1 ok.2 range⟩
    obtain ⟨valid,waiting⟩ := runEach keeps ⟨start.valid,start.waiting⟩ ranged
    exact deadlockSound valid waiting refused

end
end

def byteRequest (o : Nat) (n : Nat) : Request Nat := ⟨0,o,.wrlck,n,n,false,false,true,true,true⟩

def ring (count : Nat) : List (Request Nat) :=
  ((List.range count).map fun o => byteRequest o o) ++
    (List.range (count - 1)).map fun o => byteRequest (o + 1) ((o + 2) % count)

theorem pairRefused : let now := run requestStep noLocks (ring 2)
    Admitted requestStep Bounded noLocks (ring 2) ∧ (posixLockFile now (byteRequest 0 1)).1 = -EDEADLK ∧
    Acyclic (WaitsFor now) ∧ ∃ fl, firstConflict now (byteRequest 0 1) = some fl ∧
      TransGen (withEdge (WaitsFor now) 0 (now.lock fl).flOwner) 0 0 := by
  have bounded : Admitted requestStep Bounded noLocks (ring 2) := by decide +kernel
  have refused : (posixLockFile (run requestStep noLocks (ring 2)) (byteRequest 0 1)).1 = -EDEADLK := by
    decide +kernel
  have all := noDeadlock noLocksStart (ring 2)
  exact ⟨bounded,refused,all.1 bounded,all.2 (by decide) (byteRequest 0 1) refused⟩

/-- Thirteen owners, none with more than one blocked request: the search of the
last one gives up after eleven rounds and the request closes a cycle. -/
theorem ringUndetected : let history := ring 13 ++ [byteRequest 0 1]
    (∀ q ∈ history, InRange q) ∧ Admitted requestStep (fun s q => OneEach (requestStep s q)) noLocks history ∧
    (posixLockFile (run requestStep noLocks (ring 13)) (byteRequest 0 1)).1 = FILE_LOCK_DEFERRED ∧
    TransGen (WaitsFor (run requestStep noLocks history)) 0 0 := by
  refine ⟨by decide,by decide +kernel,by decide +kernel,?_⟩
  have queues : let now := run requestStep noLocks (ring 13 ++ [byteRequest 0 1])
      ∀ o < 13, (if o = 0 then 75 else 36 + 3 * o) ∈ now.flBlock (3 * ((o + 1) % 13) + 1) ∧
        (now.lock (if o = 0 then 75 else 36 + 3 * o)).flOwner = o ∧
        (now.lock (3 * ((o + 1) % 13) + 1)).flOwner = (o + 1) % 13 := by
    decide +kernel
  generalize run requestStep noLocks (ring 13 ++ [byteRequest 0 1]) = now at queues
  have edge : ∀ o < 13, WaitsFor now o ((o + 1) % 13) := fun o small => ⟨_,_,queues o small⟩
  have reach : ∀ o < 13, ReflTransGen (WaitsFor now) 0 o := by
    intro o
    induction o with
    | zero => exact fun _ => .refl
    | succ o ih =>
      intro small
      have next := edge o (lt_of_succ_lt small)
      rw [mod_eq_of_lt small] at next
      exact (ih (lt_of_succ_lt small)).tail next
  exact TransGen.tail' (reach 12 (by decide)) (edge 12 (by decide))

end EclairKernel.FileLock
