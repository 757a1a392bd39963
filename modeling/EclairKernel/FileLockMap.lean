import EclairKernel.FileLockState

/-! A granted POSIX lock request overrides the map of its owner on the range it
names and no other map, in every state a run of requests reaches. -/
namespace EclairKernel.FileLock
open EclairKernel.IntervalMap List Run

section
open Bool
variable {O : Type}

def requestStep [DecidableEq O] (s : System O) (q : Request O) : System O := (posixLockFile s q).2

structure Start (s : System O) : Prop where
  other : ∀ i n, n ∈ s.iFlock i → (s.lock n).posix = false
  distinct : ∀ i, (s.iFlock i).Nodup
  separate : ∀ i k n, n ∈ s.iFlock i → n ∈ s.iFlock k → i = k
  known : ∀ i n, n ∈ s.iFlock i → n < s.fresh
  noWaiter : ∀ b, s.flBlock b = []
  noNext : ∀ w, s.flNext w = none
  noBlocked : s.blockedList = []

def overridden (q : Request O) (old : Int → Option LockType) (x : Int) : Option LockType :=
  if q.start ≤ x ∧ x ≤ q.stop then (if q.type = .unlck then none else some q.type) else old x

section
variable {s s' : System O} {q}

theorem Start.valid (start : Start s) : Valid s := by
  refine ⟨fun i o => ⟨s.iFlock i,[],[],?_,fun n mem => absurd mem not_mem_nil,fun n mem owned => ?_,?_⟩,fun i => ?_,
    start.distinct,start.separate,start.known⟩
  · rw [append_nil,append_nil]
  · rw [append_nil] at mem
    exact false_ne_true ((start.other i n mem).symm.trans owned.1)
  · exact ⟨fun _ mem => absurd mem not_mem_nil,List.Pairwise.nil⟩
  · exact pairwise_of_forall_mem_list fun a mem _ _ is =>
      absurd ((start.other i a mem).symm.trans is) false_ne_true

theorem Valid.congr (v : Valid s) (list : s'.iFlock = s.iFlock) (lock : ∀ n < s.fresh, s'.lock n = s.lock n)
    (fresh : s.fresh ≤ s'.fresh) : Valid s' := by
  have same : ∀ i, ∀ n ∈ s.iFlock i, s'.lock n = s.lock n := fun i n mem => lock n (v.known i n mem)
  refine ⟨fun i o => arrangedCongr (congrFun list i) (same i) (v.arranged i o),fun i => ?_,list ▸ v.distinct,list ▸ v.separate,
    list ▸ fun i n mem => (v.known i n mem).trans_le fresh⟩
  rw [list]
  refine (v.ordered i).imp_of_mem fun {a c} inA inC rule => ?_
  rwa [same i a inA,same i c inC]

theorem Block.exchanged {pre own post} (b : Block s q.inode q.owner pre own post) (v : Valid s)
    {code} {sc} {lacking}
    (finished : Finished (jobOf s q pre own post) (s.fresh + 1) (s.fresh + 2) lacking (code,sc)) :
    ∃ own', Exchanged s q.inode q.owner pre own post (settle (enter s q) q.inode sc) own' ∧
      (∀ n ∈ own, n ∈ sc.wakes ∨ n ∈ own' ∧ Wider (s.lock n) (sc.lock n)) ∧
      ((code = 0 ∧ ∀ x t, Held (pieces sc.lock own') x t ↔ (jobOf s q pre own post).target x t) ∨
        (own' = own ∧ sc.lock = (enter s q).lock ∧ code ≠ 0)) := by
  have entered : ∀ n ∈ own, (enter s q).lock n = s.lock n := fun n mem => enterLock (b.ownKnown v mem)
  have unchanged : Unchanged (jobOf s q pre own post) sc →
      Exchanged s q.inode q.owner pre own post (settle (enter s q) q.inode sc) own ∧
        ∀ n ∈ own, n ∈ sc.wakes ∨ n ∈ own ∧ Wider (s.lock n) (sc.lock n) := by
    intro same
    have lock : sc.lock = (enter s q).lock := same.lock
    refine ⟨⟨?_,fun n known _ => ?_,fun n mem => ?_,?_,fun n mem => .inl mem,b.ownDistinct v,?_⟩,fun n mem => ?_⟩
    · rw [settleList,same.list]
      rfl
    · rw [settleLock,lock]
      exact enterLock known
    · rw [settleLock,lock,entered n mem]
      exact b.mine n mem
    · rw [settleLock,lock,piecesCongr entered]
      exact b.tidy
    · rw [settleFresh]
      exact Nat.le_add_right _ 3
    · rw [lock,entered n mem]
      exact .inr ⟨mem,Wider.refl _⟩
  cases finished with
  | updated own' _ up =>
    refine ⟨own',⟨?_,fun n known away => ?_,fun n mem => ?_,?_,fun n mem => ?_,up.distinct,?_⟩,fun n mem => ?_,.inl ⟨rfl,up.held⟩⟩
    · rw [settleList,up.list]
      rfl
    · rw [settleLock,up.frame n (ne_of_lt known) away (by omega) (by omega)]
      exact enterLock known
    · rw [settleLock,← jobOwner]
      exact up.locks n mem
    · rw [settleLock]
      exact up.tidy
    · rw [settleFresh]
      refine (up.ids n mem).imp id fun new => ?_
      simp only [enter]
      omega
    · rw [settleFresh]
      exact Nat.le_add_right _ 3
    · rw [← entered n mem]
      exact up.kept n mem
  | refused _ same _ => exact ⟨own,(unchanged same).1,(unchanged same).2,.inr ⟨rfl,same.lock,by decide⟩⟩
  | idle _ _ same result _ held =>
    have lock := same.lock
    rcases result with rfl | rfl
    · refine ⟨own,(unchanged same).1,(unchanged same).2,.inl ⟨rfl,?_⟩⟩
      rw [lock]
      exact held
    · exact ⟨own,(unchanged same).1,(unchanged same).2,.inr ⟨rfl,lock,by decide⟩⟩

variable [DecidableEq O]

structure Served (s : System O) (q : Request O) (r : Int × System O) : Prop where
  valid : Valid r.2
  others : ∀ i o x, i ≠ q.inode ∨ o ≠ q.owner → typeAt r.2 i o x = typeAt s i o x
  granted : r.1 = 0 → q.flAccess = false → ∀ x,
    typeAt r.2 q.inode q.owner x = overridden q (typeAt s q.inode q.owner) x
  refused : r.1 ≠ 0 ∨ q.flAccess = true → ∀ x, typeAt r.2 q.inode q.owner x = typeAt s q.inode q.owner x

theorem updateServed (v : Valid s) (range : InRange q) (asks : q.flAccess = false) : Served s q (updateLocks s q) := by
  obtain ⟨pre,own,post,b⟩ := v.block q.inode q.owner
  obtain ⟨code,sc,result,finished⟩ := b.outcome v range
  obtain ⟨own',e,-,outcome⟩ := b.exchanged v finished
  have old := typeAtOwn b.list b.mine b.others
  have rest : ∀ n ∈ pre ++ post, ¬OwnedBy (settle (enter s q) q.inode sc) q.owner n := by
    intro n mem
    rw [ownedCongr (e.around b v mem).1]
    exact b.others n mem
  have new : ∀ x, typeAt (settle (enter s q) q.inode sc) q.inode q.owner x = labelAt (pieces sc.lock own') x := by
    intro x
    rw [typeAtOwn e.listHere e.mine rest,settleLock]
  have entered : pieces (enter s q).lock own = pieces s.lock own := piecesCongr fun n mem => enterLock (b.ownKnown v mem)
  have tidy' : Tidy (pieces sc.lock own') := by
    have tidy := e.tidy
    rw [settleLock] at tidy
    exact tidy
  rw [result]
  refine ⟨e.valid b v,fun i o x other => e.typeOther b v other x,fun ok _ x => ?_,fun not x => ?_⟩
  · rcases outcome with ⟨_,held⟩ | ⟨_,_,failed⟩
    · have asked : piece ((enter s q).lock s.fresh) = ⟨q.start,q.stop,q.type⟩ := congrArg piece enterRequest
      have shown : ∀ x t, Held (pieces sc.lock own') x t ↔
          Over ⟨q.start,q.stop,q.type⟩ (q.type ≠ .unlck) (pieces s.lock own) x t := by
        intro x t
        rw [held x t,Job.target,jobType]
        simp [jobOf,asked,entered]
      rw [new,labelAtOver b.tidy tidy' shown x,overridden,old x]
      by_cases inside : q.start ≤ x ∧ x ≤ q.stop
      · simp [Covers]
      · have outside : ¬Covers (⟨q.start,q.stop,q.type⟩ : Piece LockType) x := inside
        rw [if_neg inside,if_neg outside]
    · exact absurd ok failed
  · rcases outcome with ⟨is,_⟩ | ⟨rfl,same,_⟩
    · rcases not with failed | looks
      · exact absurd is failed
      · exact absurd (asks.symm.trans looks) false_ne_true
    · rw [new,old,same,entered]

theorem idleServed (v : Valid s) {code} (list : s'.iFlock = s.iFlock) (lock : ∀ n < s.fresh, s'.lock n = s.lock n)
    (fresh : s.fresh ≤ s'.fresh) (idle : code ≠ 0 ∨ q.flAccess = true) : Served s q (code,s') := by
  have same : ∀ i o x, typeAt s' i o x = typeAt s i o x := fun i o x =>
    typeAtCongr (congrFun list i) (fun n mem => lock n (v.known i n mem)) x
  refine ⟨v.congr list lock fresh,fun i o x _ => same i o x,fun ok asks => ?_,fun _ => same q.inode q.owner⟩
  rcases idle with failed | looks
  · exact absurd ok failed
  · exact absurd (asks.symm.trans looks) false_ne_true

theorem served (v : Valid s) (range : InRange q) : Served s q (posixLockFile s q) := by
  have enters : ∀ n < s.fresh, (enter s q).lock n = s.lock n := fun n known => enterLock known
  have grows : s.fresh ≤ (enter s q).fresh := Nat.le_add_right _ 3
  rw [posixLockFile]
  split
  · split
    · exact idleServed v rfl enters grows (.inl (by decide))
    · split
      · exact idleServed v rfl enters grows (.inl (by decide))
      · exact idleServed v rfl enters grows (.inl (by decide))
  · split
    · rename_i looks
      exact idleServed v rfl enters grows (.inr looks)
    · rename_i asks
      exact updateServed v range (eq_false_iff.mpr asks)

theorem runValid (start : Start s) {history} (ranged : ∀ q ∈ history, InRange q) :
    Valid (run requestStep s history) := by
  have keeps : ∀ (s : System O) (q : Request O), Valid s → InRange q → Valid (requestStep s q) :=
    fun _ _ v range => (served v range).valid
  exact runEach keeps start.valid ranged

theorem posixOverrides (start : Start s) (history : List (Request O)) (ranged : ∀ q ∈ history, InRange q) :
    (∀ i o, Arranged (run requestStep s history) i o) ∧
    ∀ q : Request O, InRange q → let old := run requestStep s history
      (∀ i o, Arranged (posixLockFile old q).2 i o) ∧
      (∀ i o x, i ≠ q.inode ∨ o ≠ q.owner → typeAt (posixLockFile old q).2 i o x = typeAt old i o x) ∧
      ((posixLockFile old q).1 = 0 → q.flAccess = false →
        ∀ x, typeAt (posixLockFile old q).2 q.inode q.owner x = overridden q (typeAt old q.inode q.owner) x) ∧
      ((posixLockFile old q).1 ≠ 0 ∨ q.flAccess = true →
        ∀ x, typeAt (posixLockFile old q).2 q.inode q.owner x = typeAt old q.inode q.owner x) := by
  have v := runValid start ranged
  refine ⟨v.arranged,fun q range => ?_⟩
  have done := served v range
  exact ⟨done.valid.arranged,done.others,done.granted,done.refused⟩

end
end

def noLocks : System Nat :=
  ⟨fun _ => ⟨false,0,.rdlck,0,0⟩,fun _ => [],fun _ => [],fun _ => none,[],[],0⟩

theorem noLocksStart : Start noLocks :=
  ⟨fun _ _ mem => absurd mem not_mem_nil,fun _ => nodup_nil,fun _ _ _ mem => absurd mem not_mem_nil,
    fun _ _ mem => absurd mem not_mem_nil,fun _ => rfl,fun _ => rfl,rfl⟩

def lockRequest (type : LockType) (start stop : Int) : Request Nat :=
  ⟨0,1,type,start,stop,false,false,false,true,true⟩

def looking : Request Nat := { lockRequest .wrlck 0 9 with flAccess := true }

theorem middleOverridden : let history := [lockRequest .wrlck 0 9]
    let old := run requestStep noLocks history
    (posixLockFile old (lockRequest .rdlck 3 5)).1 = 0 ∧
    (∀ x, typeAt (posixLockFile old (lockRequest .rdlck 3 5)).2 0 1 x =
      overridden (lockRequest .rdlck 3 5) (typeAt old 0 1) x) ∧
    (posixLockFile old (lockRequest .rdlck 3 5)).2.iFlock 0 = [5,4,1] := by
  have granted : (posixLockFile (run requestStep noLocks [lockRequest .wrlck 0 9]) (lockRequest .rdlck 3 5)).1 = 0 := by
    decide
  refine ⟨granted,?_,by decide⟩
  have all := (posixOverrides noLocksStart [lockRequest .wrlck 0 9] (fun q mem => by
    rw [mem_singleton.mp mem]
    exact ⟨by decide,by decide,by decide⟩)).2 (lockRequest .rdlck 3 5) ⟨by decide,by decide,by decide⟩
  exact all.2.2.1 granted rfl

theorem lookingSetsNothing : (posixLockFile noLocks looking).1 = 0 ∧
    typeAt (posixLockFile noLocks looking).2 0 1 5 = none ∧
    overridden looking (typeAt noLocks 0 1) 5 = some .wrlck := by
  decide

/-! A refused request changes no lock. The loop of `__posix_lock_file` changes
records as it goes, but once it has changed one, no later lock of the owner
starts before the request, so that none of them is cut in two. -/

section
variable {O : Type} {j : Job O} {own sc sc' fl}

def Pending (j : Job O) (own : List Nat) (sc : Scan O) : Prop := Unchanged j { sc with rest := own ++ j.post }

structure Cautious (j : Job O) (own : List Nat) (sc : Scan O) : Prop where
  right : sc.right = none
  distinct : (sc.request::own).Nodup
  sorted : own.Pairwise fun a b => (sc.lock a).flStart ≤ (sc.lock b).flStart
  left : ∀ n ∈ own, sc.left ≠ some n
  owner : sc.asks.flOwner = j.owner
  others : ∀ n ∈ j.post, (sc.lock n).flOwner ≠ j.owner
  quiet : Pending j own sc ∨ sc.added = true ∧ ∀ n ∈ own, sc.asks.flStart ≤ (sc.lock n).flStart

theorem Cautious.pass (c : Cautious j (fl::own) sc) {added left}
    (kept : sc.added = true → added = true) (either : left = sc.left ∨ left = some fl) :
    Cautious j own ({ sc with added := added, left := left }.pass fl) := by
  have distinct := c.distinct
  rw [nodup_cons,nodup_cons,mem_cons,not_or] at distinct
  refine ⟨c.right,nodup_cons.mpr ⟨distinct.1.2,distinct.2.2⟩,c.sorted.of_cons,fun n mem => ?_,c.owner,c.others,?_⟩
  · rcases either with rfl | rfl
    · exact c.left n (mem_cons_of_mem fl mem)
    · intro is
      exact distinct.2.1 (Option.some.inj is ▸ mem)
  · refine c.quiet.imp (fun same => ⟨same.lock,?_,same.wakes⟩) fun busy =>
      ⟨kept busy.1,fun n mem => busy.2 n (mem_cons_of_mem fl mem)⟩
    rw [← same.list]
    simp [Scan.pass]

-- A step that changes a record starts no later than that record did.
theorem Cautious.change (c : Cautious j (fl::own) sc) (right : sc'.right = sc.right) (left : sc'.left = sc.left)
    (request : sc'.request = sc.request ∨ sc'.request = fl) (same : ∀ n, n ≠ sc.request → n ≠ fl → sc'.lock n = sc.lock n)
    (owners : ∀ n, (sc'.lock n).flOwner = (sc.lock n).flOwner) (mine : (sc.lock fl).flOwner = j.owner)
    (low : sc'.asks.flStart ≤ (sc.lock fl).flStart) (added : sc'.added = true) : Cautious j own sc' := by
  have distinct := c.distinct
  rw [nodup_cons,nodup_cons,mem_cons,not_or] at distinct
  have kept : ∀ n ∈ own, sc'.lock n = sc.lock n := by
    refine fun n mem => same n ?_ ?_
    · rintro rfl
      exact distinct.1.2 mem
    · rintro rfl
      exact distinct.2.1 mem
  obtain ⟨first,sorted⟩ := pairwise_cons.mp c.sorted
  refine ⟨right.trans c.right,nodup_cons.mpr ⟨?_,distinct.2.2⟩,?_,fun n mem => ?_,?_,fun n mem => ?_,
    .inr ⟨added,fun n mem => ?_⟩⟩
  · rcases request with is | is
    · exact is ▸ distinct.1.2
    · exact is ▸ distinct.2.1
  · refine sorted.imp_of_mem fun {a b} inA inB order => ?_
    rw [kept a inA,kept b inB]
    exact order
  · exact left ▸ c.left n (mem_cons_of_mem fl mem)
  · rw [owners]
    rcases request with is | is
    · exact is ▸ c.owner
    · exact is ▸ mine
  · rw [owners]
    exact c.others n mem
  · rw [kept n mem]
    exact low.trans (first n mem)

def Careful (j : Job O) (out : Scan O) : Prop :=
  Unchanged j out ∨ out.added = true ∧ (out.right.isSome → out.left ≠ out.right)

theorem Cautious.stop (c : Cautious j own sc) : Careful j { sc with rest := own ++ j.post } :=
  c.quiet.imp id fun busy => ⟨busy.1,fun some => by simp [c.right] at some⟩

theorem Cautious.cut (c : Cautious j (fl::own) sc) :
    Careful j { sc.overlap fl with rest := fl::own ++ j.post, right := some fl } := by
  refine c.quiet.imp (fun same => ⟨same.lock,same.list,same.wakes⟩) fun busy => ⟨?_,fun _ => ?_⟩
  · simp [Scan.overlap,busy.1]
  · simp only [Scan.overlap,if_neg (not_lt.mpr (busy.2 fl mem_cons_self))]
    exact c.left fl mem_cons_self

theorem Careful.refused {out} (careful : Careful j out) {flExists newFl newFl2}
    (failed : (out.finish flExists newFl newFl2).1 ≠ 0) : Unchanged j (out.finish flExists newFl newFl2).2 := by
  rcases careful with same | ⟨added,whole⟩
  · revert failed
    simp only [Scan.finish]
    split
    · exact fun _ => same
    split
    · exact absurd rfl
    split
    · exact fun _ => same
    cases newFl with
    | none => exact fun _ => same
    | some new => exact absurd rfl
  · have splits : ¬(out.right.isSome ∧ out.left = out.right ∧ newFl2 = none) := fun both => whole both.1 both.2.1
    simp only [Scan.finish,if_neg splits,added] at failed
    exact absurd rfl failed

section
variable [DecidableEq O]

theorem Cautious.ends (c : Cautious j own sc) : Careful j (processLocks sc (own ++ j.post)) := by
  induction own generalizing sc with
  | nil =>
    have stops : processLocks sc ([] ++ j.post) = { sc with rest := [] ++ j.post } := by
      cases post : j.post with
      | nil => rfl
      | cons n rest =>
        have other := c.others n (post ▸ mem_cons_self)
        simp [processLocks,posixSameOwner,c.owner,decide_eq_false (Ne.symm other)]
    exact stops ▸ c.stop
  | cons fl own ih =>
    have apart : fl ≠ sc.request := fun is => (nodup_cons.mp c.distinct).1 (is ▸ mem_cons_self)
    have side : (sc.overlap fl).left = sc.left ∨ (sc.overlap fl).left = some fl := by
      simp only [Scan.overlap]
      split
      · exact .inr rfl
      · exact .inl rfl
    have busy : sc.added = true → (sc.overlap fl).added = true := fun is => by simp [Scan.overlap,is]
    simp only [cons_append,processLocks]
    split
    · exact c.stop
    rename_i owned
    have mine : (sc.lock fl).flOwner = j.owner := by
      simp only [posixSameOwner,Bool.not_eq_true',decide_eq_false_iff_not,not_not] at owned
      exact owned.symm.trans c.owner
    split
    · split
      · exact ih (c.pass id (.inl rfl))
      split
      · exact c.stop
      split
      · rename_i added
        refine ih (c.change rfl rfl (.inl rfl) (fun _ => widenOther) (fun n => (widenWider n).owner) mine ?_ added)
        exact (congrArg Lock.flStart widenRequest).trans_le (min_le_right _ _)
      · refine ih (c.change rfl rfl (.inr rfl) (fun _ => widenOther) (fun n => (widenWider n).owner) mine ?_ rfl)
        exact (congrArg Lock.flStart (widenCurrent apart)).trans_le (min_le_right _ _)
    split
    · exact ih (c.pass id (.inl rfl))
    split
    · exact c.stop
    split
    · exact c.cut
    split
    · rename_i inside
      have left : (sc.overlap fl).left = sc.left := if_neg (not_lt.mpr inside)
      split
      · rename_i added
        exact ih (c.change rfl left (.inl rfl) (fun _ _ _ => rfl) (fun _ => rfl) mine inside added)
      · refine ih (c.change rfl left (.inr rfl) (fun _ _ => replaceOther) replaceOwner mine ?_ rfl)
        exact (congrArg Lock.flStart replaceCurrent).trans_le inside
    · exact ih (c.pass busy side)

variable {s} {q : Request O}

theorem updateRefused (v : Valid s) (failed : (updateLocks s q).1 ≠ 0) : (updateLocks s q).2 = enter s q := by
  obtain ⟨pre,own,post,b⟩ := v.block q.inode q.owner
  have first : Cautious (jobOf s q pre own post) own (firstScan s q pre) := by
    have same : ∀ n ∈ own, (firstScan s q pre).lock n = s.lock n := fun n mem => enterLock (b.ownKnown v mem)
    refine ⟨rfl,nodup_cons.mpr ⟨fun mem => lt_irrefl _ (b.ownKnown v mem),b.ownDistinct v⟩,?_,
      fun n _ is => absurd is.symm (Option.some_ne_none n),rfl,fun n mem => ?_,.inl ⟨rfl,(append_assoc ..).symm,rfl⟩⟩
    · refine (pairwise_map.mp b.tidy.apart).imp_of_mem fun {a c} inA inC apart => ?_
      have filled := (b.mine a inA).order
      have order := apart.1
      rw [same a inA,same c inC]
      simp only [piece] at order
      omega
    · have value : (firstScan s q pre).lock n = s.lock n := enterLock (b.known v (mem_append_right _ mem))
      rw [value,jobOwner]
      exact fun is => b.others n (mem_append_right _ mem) ⟨b.posix n mem,is⟩
  simp only [updateLocks,b.startSplit v] at failed ⊢
  have unchanged : Unchanged (jobOf s q pre own post) ((processLocks (firstScan s q pre) (own ++ post)).finish q.flExists
    (newFl s q) (newFl2 s q)).2 := first.ends.refused failed
  have list := unchanged.list.trans b.list.symm
  rw [settle,unchanged.wakes,unchanged.lock]
  simp only [list]
  exact congrArg (fun l => { enter s q with iFlock := l }) (Function.update_eq_self q.inode s.iFlock)

theorem refusedUnchanged (start : Start s) (history : List (Request O)) (ranged : ∀ q ∈ history, InRange q) (q : Request O) :
    let old := run requestStep s history
    let new := posixLockFile old q
    new.1 ∈ [-EAGAIN,-EDEADLK,-ENOLCK,-ENOENT] →
    new.2.iFlock = old.iFlock ∧ (∀ i, ∀ n ∈ old.iFlock i, new.2.lock n = old.lock n) ∧ new.2.flBlock = old.flBlock := by
  intro old new code
  have v := runValid start ranged
  have entered : new.2 = enter old q := by
    revert code
    simp only [new,posixLockFile]
    split
    · split
      · exact fun _ => rfl
      split
      · exact fun _ => rfl
      · exact fun code => absurd code (by decide : FILE_LOCK_DEFERRED ∉ _)
    split
    · exact fun _ => rfl
    refine fun code => updateRefused v fun is => ?_
    rw [is] at code
    revert code
    decide
  rw [entered]
  exact ⟨rfl,fun i n mem => enterLock (v.known i n mem),rfl⟩

end
end

theorem splitRefused : let history := [lockRequest .wrlck 0 9]
    let old := run requestStep noLocks history
    let q := { lockRequest .rdlck 3 5 with alloc2 := false }
    (posixLockFile old q).1 = -ENOLCK ∧ (posixLockFile old q).2.iFlock = old.iFlock := by
  have refused : (posixLockFile (run requestStep noLocks [lockRequest .wrlck 0 9])
      { lockRequest .rdlck 3 5 with alloc2 := false }).1 = -ENOLCK := by
    decide
  refine ⟨refused,(refusedUnchanged noLocksStart [lockRequest .wrlck 0 9] (fun q mem => ?_) _ ?_).1⟩
  · rw [mem_singleton.mp mem]
    exact ⟨by decide,by decide,by decide⟩
  · decide

end EclairKernel.FileLock
