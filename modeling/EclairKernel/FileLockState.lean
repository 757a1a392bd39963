import EclairKernel.FileLockUpdate

/-! The lock lists of all inodes over whole runs. Each owner's POSIX locks stand
together in an inode's list, in order and joined where they could be, and a
granted request overrides the owner's map from offsets to lock types. -/
namespace EclairKernel.FileLock
open EclairKernel.IntervalMap Function List Bool Option

variable {O : Type}

def OwnedBy (s : System O) (o : O) (n : Nat) : Prop := (s.lock n).posix = true ∧ (s.lock n).flOwner = o

instance [DecidableEq O] (s : System O) (o : O) (n : Nat) : Decidable (OwnedBy s o n) :=
  inferInstanceAs (Decidable (_ ∧ _))

def Arranged (s : System O) (i : Nat) (o : O) : Prop := ∃ pre own post, s.iFlock i = pre ++ own ++ post ∧
  (∀ n ∈ own, Taken o (s.lock n)) ∧ (∀ n ∈ pre ++ post, ¬OwnedBy s o n) ∧ Tidy (pieces s.lock own)

structure Valid (s : System O) : Prop where
  arranged : ∀ i o, Arranged s i o
  ordered : ∀ i, (s.iFlock i).Pairwise fun a b => (s.lock a).posix = true → (s.lock b).posix = true
  distinct : ∀ i, (s.iFlock i).Nodup
  separate : ∀ i k n, n ∈ s.iFlock i → n ∈ s.iFlock k → i = k
  known : ∀ i n, n ∈ s.iFlock i → n < s.fresh

structure InRange (q : Request O) : Prop where
  low : 0 ≤ q.start
  order : q.start ≤ q.stop
  high : q.stop ≤ OFFSET_MAX

def typeAt [DecidableEq O] (s : System O) (i : Nat) (o : O) (x : Int) : Option LockType :=
  labelAt (pieces s.lock ((s.iFlock i).filter fun n => decide (OwnedBy s o n))) x

variable {s s' : System O} {q : Request O} {i o}

section
variable [DecidableEq O] {pre own post} (list : s.iFlock i = pre ++ own ++ post) (mine : ∀ n ∈ own, Taken o (s.lock n))
  (others : ∀ n ∈ pre ++ post, ¬OwnedBy s o n)
include list mine others

theorem filterOwn : ((s.iFlock i).filter fun n => decide (OwnedBy s o n)) = own := by
  have keeps : own.filter (fun n => decide (OwnedBy s o n)) = own :=
    filter_eq_self.mpr fun n mem => decide_eq_true ⟨(mine n mem).posix,(mine n mem).owner⟩
  have drops : ∀ l : List Nat, (∀ n ∈ l, ¬OwnedBy s o n) → l.filter (fun n => decide (OwnedBy s o n)) = [] := by
    intro l absent
    refine filter_eq_nil_iff.mpr fun n mem => ?_
    simpa using absent n mem
  rw [list,filter_append,filter_append,keeps,drops pre fun n mem => others n (mem_append_left _ mem),
    drops post fun n mem => others n (mem_append_right _ mem),nil_append,append_nil]

theorem typeAtOwn (x : Int) : typeAt s i o x = labelAt (pieces s.lock own) x := by
  rw [typeAt,filterOwn list mine others]

end

variable {n}

theorem ownedCongr (same : s'.lock n = s.lock n) : OwnedBy s' o n ↔ OwnedBy s o n := by
  rw [OwnedBy,OwnedBy,same]

theorem arrangedCongr (list : s'.iFlock i = s.iFlock i) (lock : ∀ n ∈ s.iFlock i, s'.lock n = s.lock n)
    (arranged : Arranged s i o) : Arranged s' i o := by
  obtain ⟨pre,own,post,shape,mine,others,tidy⟩ := arranged
  have inOwn : ∀ n ∈ own, s'.lock n = s.lock n := fun n mem =>
    lock n (shape ▸ mem_append_left _ (mem_append_right _ mem))
  refine ⟨pre,own,post,list.trans shape,fun n mem => ?_,fun n mem => ?_,?_⟩
  · rw [inOwn n mem]
    exact mine n mem
  · rw [ownedCongr (lock n ?_)]
    · exact others n mem
    · exact shape ▸ memAround own mem
  · rw [piecesCongr inOwn]
    exact tidy

theorem typeAtCongr [DecidableEq O] (list : s'.iFlock i = s.iFlock i) (lock : ∀ n ∈ s.iFlock i, s'.lock n = s.lock n) (x : Int) :
    typeAt s' i o x = typeAt s i o x := by
  have same : ((s'.iFlock i).filter fun n => decide (OwnedBy s' o n)) =
      (s.iFlock i).filter fun n => decide (OwnedBy s o n) := by
    rw [list]
    exact filter_congr fun n mem => decide_eq_decide.mpr (ownedCongr (lock n mem))
  rw [typeAt,typeAt,same,piecesCongr fun n mem => lock n (mem_of_mem_filter mem)]

theorem wakeLists (blockers : List Nat) : ∀ s : System O, (blockers.foldl locksWakeUpBlocks s).lock = s.lock ∧
    (blockers.foldl locksWakeUpBlocks s).iFlock = s.iFlock ∧ (blockers.foldl locksWakeUpBlocks s).fresh = s.fresh := by
  have one : ∀ (waiters : List Nat) (s : System O), (waiters.foldl wakeUp s).lock = s.lock ∧
      (waiters.foldl wakeUp s).iFlock = s.iFlock ∧ (waiters.foldl wakeUp s).fresh = s.fresh := by
    intro waiters
    induction waiters with
    | nil => exact fun s => ⟨rfl,rfl,rfl⟩
    | cons w rest ih => exact fun s => ih (wakeUp s w)
  induction blockers with
  | nil => exact fun s => ⟨rfl,rfl,rfl⟩
  | cons b rest ih =>
    intro s
    obtain ⟨lock,list,fresh⟩ := one (s.flBlock b) s
    obtain ⟨lock',list',fresh'⟩ := ih (locksWakeUpBlocks s b)
    exact ⟨lock'.trans lock,list'.trans list,fresh'.trans fresh⟩

@[simp] theorem settleLock (i : Nat) (sc : Scan O) : (settle s i sc).lock = sc.lock := (wakeLists _ _).1

@[simp] theorem settleList (i : Nat) (sc : Scan O) :
    (settle s i sc).iFlock = update s.iFlock i (sc.done ++ sc.rest) := (wakeLists _ _).2.1

@[simp] theorem settleFresh (i : Nat) (sc : Scan O) : (settle s i sc).fresh = s.fresh := (wakeLists _ _).2.2

theorem enterLock (known : n < s.fresh) : (enter s q).lock n = s.lock n :=
  update_of_ne (ne_of_lt known) _ _

theorem enterRequest : (enter s q).lock s.fresh = q.lock := update_self ..

structure Block (s : System O) (i : Nat) (o : O) (pre own post : List Nat) : Prop where
  list : s.iFlock i = pre ++ own ++ post
  mine : ∀ n ∈ own, Taken o (s.lock n)
  others : ∀ n ∈ pre ++ post, ¬OwnedBy s o n
  tidy : Tidy (pieces s.lock own)
  last : own = [] → post = []
  posix : ∀ n ∈ post, (s.lock n).posix = true

theorem Valid.block (v : Valid s) (i : Nat) (o : O) : ∃ pre own post, Block s i o pre own post := by
  obtain ⟨pre,own,post,list,mine,others,tidy⟩ := v.arranged i o
  cases own with
  | nil =>
    refine ⟨pre ++ post,[],[],?_,mine,?_,tidy,fun _ => rfl,fun n mem => absurd mem not_mem_nil⟩
    · simpa using list
    · simpa using others
  | cons n own =>
    refine ⟨pre,n::own,post,list,mine,others,tidy,?_,fun k mem => ?_⟩
    · exact fun is => absurd is (cons_ne_nil n own)
    have ordered := v.ordered i
    rw [list,append_assoc] at ordered
    have after := (pairwise_append.mp (pairwise_append.mp ordered).2.1).2.2
    exact after n mem_cons_self k mem (mine n mem_cons_self).posix

theorem Valid.listed (v : Valid s) (mem : n ∈ s.iFlock i) (posix : (s.lock n).posix = true) :
    Taken (s.lock n).flOwner (s.lock n) := by
  obtain ⟨pre,own,post,list,mine,others,_⟩ := v.arranged i (s.lock n).flOwner
  by_contra away
  have notOwn : n ∉ own := fun found => away (mine n found)
  exact others n (memOutside (list ▸ mem) notOwn) ⟨posix,rfl⟩

def firstScan (s : System O) (q : Request O) (pre : List Nat) : Scan O :=
  ⟨(enter s q).lock,[],pre,[],s.fresh,false,none,none⟩

def jobOf (s : System O) (q : Request O) (pre own post : List Nat) : Job O := ⟨(enter s q).lock,pre,own,post,s.fresh⟩

variable {pre own post : List Nat}

theorem jobOwner : (jobOf s q pre own post).owner = q.owner := congrArg Lock.flOwner enterRequest

theorem jobType : (jobOf s q pre own post).type = q.type := congrArg Lock.flType enterRequest

section
variable (b : Block s i o pre own post) (v : Valid s)
include b v

theorem Block.known (mem : n ∈ pre ++ own ++ post) : n < s.fresh := v.known i n (b.list ▸ mem)

theorem Block.ownKnown (mem : n ∈ own) : n < s.fresh :=
  b.known v (mem_append_left _ (mem_append_right _ mem))

theorem Block.distinct : (pre ++ own ++ post).Nodup := b.list ▸ v.distinct i

theorem Block.ownDistinct : own.Nodup :=
  (b.distinct v).sublist ((sublist_append_right pre own).trans (sublist_append_left _ post))

theorem Block.spare : Spare (jobOf s q pre own post) (s.fresh + 1) (s.fresh + 2) := by
  refine ⟨fun mem => ?_,fun mem => ?_,by omega,Nat.succ_ne_self _,?_⟩
  · have := b.ownKnown v mem
    omega
  · have := b.ownKnown v mem
    omega
  · simp only [jobOf]
    omega

end

theorem firstTracked : Tracked (jobOf s q pre own post) [] [] own (firstScan s q pre) :=
  ⟨fun _ _ _ => rfl,.refl _,fun _ mem => .inr ⟨mem,.refl _⟩,.inl rfl⟩

section
variable (b : Block s q.inode q.owner pre own post)
include b

theorem Block.startSplit [DecidableEq O] (v : Valid s) :
    startScan (enter s q) q.inode s.fresh = (firstScan s q pre,own ++ post) := by
  have list : (enter s q).iFlock q.inode = pre ++ (own ++ post) := by
    rw [← append_assoc]
    exact b.list
  have known : ∀ n ∈ pre ++ (own ++ post), n < s.fresh := by
    rw [← append_assoc]
    exact fun n mem => b.known v mem
  have skips : ∀ n ∈ pre, (!((enter s q).lock n).posix ||
      !posixSameOwner ((enter s q).lock s.fresh) ((enter s q).lock n)) = true := by
    intro n mem
    have other := b.others n (mem_append_left _ mem)
    rw [enterLock (known n (mem_append_left _ mem)),enterRequest]
    rw [OwnedBy,not_and_or] at other
    rcases other with notPosix | notOwner
    · simp [eq_false_iff.mpr notPosix]
    · have apart : posixSameOwner q.lock (s.lock n) = false := decide_eq_false fun same => notOwner same.symm
      simp [apart]
  have stops : ∀ n, (own ++ post).head? = some n → (!((enter s q).lock n).posix ||
      !posixSameOwner ((enter s q).lock s.fresh) ((enter s q).lock n)) = false := by
    intro n first
    have mem : n ∈ own := by
      cases own with
      | nil =>
        rw [b.last rfl] at first
        cases first
      | cons k rest =>
        cases first
        exact mem_cons_self
    have taken := b.mine n mem
    have same : posixSameOwner q.lock (s.lock n) = true := decide_eq_true taken.owner.symm
    rw [enterLock (b.ownKnown v mem),enterRequest,taken.posix,same]
    rfl
  simp only [startScan,firstScan,list,takeWhile_append_of_pos skips,dropWhile_append_of_pos skips]
  cases rest : own ++ post with
  | nil => simp only [takeWhile_nil,dropWhile_nil,append_nil]
  | cons n later =>
    have stop := stops n (by rw [rest]; rfl)
    simp [stop]

theorem Block.progress (v : Valid s) (range : InRange q) :
    Progress (jobOf s q pre own post) [] [] own (firstScan s q pre) := by
  have same : ∀ n ∈ own, (firstScan s q pre).lock n = s.lock n := fun n mem => enterLock (b.ownKnown v mem)
  have asked : (firstScan s q pre).asks = q.lock := enterRequest
  refine ⟨(append_nil _).symm.trans (append_nil _).symm,?_,rfl,fun n mem => ?_,?_,?_,?_,?_,fun x t => Iff.rfl,?_,
    fun n mem => ?_,?_,rfl,fun _ _ => rfl⟩
  · rw [jobOwner,asked]
    exact ⟨rfl,rfl,range.low,range.order,range.high⟩
  · rw [jobOwner,same n mem]
    exact b.mine n mem
  · rw [nil_append,piecesCongr same]
    exact b.tidy
  · exact fun n mem => absurd mem not_mem_nil
  · exact fun n is => absurd is.symm (some_ne_none n)
  · exact fun is => absurd is false_ne_true
  · refine nodup_cons.mpr ⟨fun mem => ?_,b.ownDistinct v⟩
    exact lt_irrefl _ (b.ownKnown v mem)
  · have value : (firstScan s q pre).lock n = s.lock n := enterLock (b.known v (mem_append_right _ mem))
    rw [value,jobOwner]
    exact fun is => b.others n (mem_append_right _ mem) ⟨b.posix n mem,is⟩
  · exact .outside rfl rfl (fun is => absurd is false_ne_true) fun _ => ⟨rfl,rfl⟩

theorem Block.outcome [DecidableEq O] (v : Valid s) (range : InRange q) :
    ∃ code sc, updateLocks s q = (code,settle (enter s q) q.inode sc) ∧
      Finished (jobOf s q pre own post) (s.fresh + 1) (s.fresh + 2)
        (newFl s q = none ∨ newFl2 s q = none) (code,sc) := by
  obtain ⟨before,slot,own',sc,progress,tracked,ended⟩ := processEnds own (b.progress v range) firstTracked
  have first : ∀ n ∈ newFl s q, n = s.fresh + 1 := fun n is => (some.inj (ite_none_right_eq_some.mp is).2).symm
  have second : ∀ n ∈ newFl2 s q, n = s.fresh + 2 := fun n is => (some.inj (ite_none_right_eq_some.mp is).2).symm
  have finished : Finished (jobOf s q pre own post) (s.fresh + 1) (s.fresh + 2) (newFl s q = none ∨ newFl2 s q = none)
      ((processLocks (firstScan s q pre) (own ++ post)).finish q.flExists (newFl s q) (newFl2 s q)) :=
    finishSpec progress tracked (b.ownDistinct v) (b.spare v) first second .inl .inr ended
  refine ⟨_,_,?_,finished⟩
  simp only [updateLocks,b.startSplit v]
  rfl

end

theorem blockInside {pre' own' post'} (same : pre' ++ own' ++ post' = pre ++ own ++ post)
    (some' : own' ≠ []) (last : own = [] → post = []) (apart : ∀ n ∈ own', n ∉ own) :
    (∃ mid, pre = pre' ++ own' ++ mid) ∨ ∃ mid, post = mid ++ own' ++ post' := by
  obtain ⟨n,rest,rfl⟩ := exists_cons_of_ne_nil some'
  have notOwn := apart n mem_cons_self
  rw [append_assoc,append_assoc] at same
  rcases append_eq_append_iff.mp same with ⟨as,rfl,tail⟩ | ⟨as,rfl,tail⟩
  · -- the block starts in `pre`: it cannot reach into `own`
    rcases append_eq_append_iff.mp tail with ⟨bs,rfl,_⟩ | ⟨bs,whole,after⟩
    · exact .inl ⟨bs,(append_assoc ..).symm⟩
    cases own with
    | nil =>
      rw [last rfl] at after
      obtain ⟨rfl,-⟩ := append_eq_nil_iff.mp after.symm
      exact .inl ⟨[],by rw [whole,append_nil,append_nil]⟩
    | cons k later =>
      cases bs with
      | nil => exact .inl ⟨[],by rw [whole,append_nil,append_nil]⟩
      | cons c bs =>
        obtain ⟨rfl,-⟩ := cons.inj after
        exact absurd mem_cons_self (apart k (whole ▸ mem_append_right _ mem_cons_self))
  · rcases append_eq_append_iff.mp tail with ⟨bs,rfl,rfl⟩ | ⟨bs,rfl,after⟩
    · exact .inr ⟨bs,(append_assoc ..).symm⟩
    · cases bs with
      | nil => exact .inr ⟨[],after.symm⟩
      | cons c bs =>
        obtain ⟨rfl,-⟩ := cons.inj after
        exact absurd (mem_append_right _ mem_cons_self) notOwn

structure Exchanged (s : System O) (i : Nat) (o : O) (pre own post : List Nat) (s' : System O) (own' : List Nat) : Prop where
  list : s'.iFlock = update s.iFlock i (pre ++ own' ++ post)
  lock : ∀ n < s.fresh, n ∉ own → s'.lock n = s.lock n
  mine : ∀ n ∈ own', Taken o (s'.lock n)
  tidy : Tidy (pieces s'.lock own')
  ids : ∀ n ∈ own', n ∈ own ∨ s.fresh ≤ n ∧ n < s'.fresh
  distinct : own'.Nodup
  fresh : s.fresh ≤ s'.fresh

variable {own'}

theorem Exchanged.listHere (e : Exchanged s i o pre own post s' own') : s'.iFlock i = pre ++ own' ++ post := by
  rw [e.list,update_self]

variable {k}

theorem Exchanged.listElse (e : Exchanged s i o pre own post s' own') (other : k ≠ i) : s'.iFlock k = s.iFlock k := by
  rw [e.list,update_of_ne other]

section
variable (e : Exchanged s i o pre own post s' own') (b : Block s i o pre own post) (v : Valid s)
include e b v

theorem Exchanged.around (mem : n ∈ pre ++ post) : s'.lock n = s.lock n ∧ n ∉ own ∧ n < s.fresh := by
  have away := nodupAway (b.distinct v) mem
  have known := b.known v (memAround own mem)
  exact ⟨e.lock n known away,away,known⟩

theorem Exchanged.elsewhere (other : k ≠ i) (mem : n ∈ s.iFlock k) : s'.lock n = s.lock n := by
  refine e.lock n (v.known k n mem) fun inOwn => other (v.separate k i n mem ?_)
  rw [b.list]
  exact mem_append_left _ (mem_append_right _ inOwn)

theorem Exchanged.fresh' (mem : n ∈ pre ++ post) : n ∉ own' := by
  intro inNew
  obtain ⟨_,away,known⟩ := e.around b v mem
  rcases e.ids n inNew with old | ⟨new,_⟩
  · exact away old
  · omega

theorem Exchanged.nodup : (pre ++ own' ++ post).Nodup := by
  have kept : (pre ++ post).Nodup := by
    refine (b.distinct v).sublist ?_
    rw [append_assoc]
    exact List.Sublist.append (List.Sublist.refl pre) (sublist_append_right own post)
  obtain ⟨left,right,cross⟩ := nodup_append.mp kept
  refine nodup_append.mpr ⟨nodup_append.mpr ⟨left,e.distinct,?_⟩,right,?_⟩
  · rintro n early _ new rfl
    exact e.fresh' b v (mem_append_left _ early) new
  · rintro n mem k late rfl
    rcases mem_append.mp mem with early | new
    · exact cross n early n late rfl
    · exact e.fresh' b v (mem_append_right _ late) new

theorem Exchanged.arrangedOther {u : O} (other : u ≠ o) : Arranged s' i u := by
  obtain ⟨pre2,own2,post2,list,mine,others,tidy⟩ := v.arranged i u
  -- whatever else stands in the new list is not a lock of `u`
  have rest : ∀ n ∈ pre ++ own' ++ post, n ∉ own2 → ¬OwnedBy s' u n := by
    intro n mem notOwn2
    by_cases new : n ∈ own'
    · exact fun owned => other (owned.2.symm.trans (e.mine n new).owner)
    have kept := memOutside mem new
    rw [ownedCongr (e.around b v kept).1]
    have whole : n ∈ pre2 ++ own2 ++ post2 := by
      rw [← list,b.list]
      exact memAround own kept
    exact others n (memOutside whole notOwn2)
  have arrange : ∀ {a c : List Nat}, pre ++ own' ++ post = a ++ own2 ++ c → own2 ⊆ pre ++ post → Arranged s' i u := by
    intro a c shape inside
    have same : ∀ n ∈ own2, s'.lock n = s.lock n := fun n mem => (e.around b v (inside mem)).1
    refine ⟨a,own2,c,e.listHere.trans shape,fun n mem => (same n mem).symm ▸ mine n mem,fun n mem => ?_,?_⟩
    · have distinct := e.nodup b v
      rw [shape] at distinct
      exact rest n (shape ▸ memAround own2 mem) (nodupAway distinct mem)
    · rw [piecesCongr same]
      exact tidy
  by_cases empty : own2 = []
  · subst empty
    refine arrange (a := pre ++ own' ++ post) (c := []) ?_ (nil_subset _)
    rw [append_nil,append_nil]
  have apart : ∀ n ∈ own2, n ∉ own := fun n mem inOwn =>
    other ((mine n mem).owner.symm.trans (b.mine n inOwn).owner)
  rcases blockInside (list.symm.trans b.list) empty b.last apart with ⟨mid,is⟩ | ⟨mid,is⟩
  · refine arrange (a := pre2) (c := mid ++ own' ++ post) ?_ fun n mem => ?_
    · rw [is]
      simp
    · rw [is]
      exact mem_append_left _ (mem_append_left _ (mem_append_right _ mem))
  · refine arrange (a := pre ++ own' ++ mid) (c := post2) ?_ fun n mem => ?_
    · rw [is]
      simp
    · rw [is]
      exact mem_append_right _ (mem_append_left _ (mem_append_right _ mem))

theorem Exchanged.arrangedSame : Arranged s' i o := by
  refine ⟨pre,own',post,e.listHere,e.mine,fun n mem => ?_,e.tidy⟩
  rw [ownedCongr (e.around b v mem).1]
  exact b.others n mem

theorem Exchanged.ordered :
    (s'.iFlock i).Pairwise fun a c => (s'.lock a).posix = true → (s'.lock c).posix = true := by
  have postPosix : ∀ n ∈ post, (s'.lock n).posix = true := by
    intro n mem
    rw [(e.around b v (mem_append_right _ mem)).1]
    exact b.posix n mem
  rw [e.listHere,append_assoc]
  refine pairwise_append.mpr ⟨?_,?_,fun a early c late _ => ?_⟩
  · have before := v.ordered i
    rw [b.list,append_assoc] at before
    refine (pairwise_append.mp before).1.imp_of_mem fun {a c} inA inC rule => ?_
    rw [(e.around b v (mem_append_left _ inA)).1,(e.around b v (mem_append_left _ inC)).1]
    exact rule
  · refine pairwise_append.mpr ⟨?_,?_,fun _ _ c late _ => postPosix c late⟩
    · exact pairwise_of_forall_mem_list fun _ _ c mem _ => (e.mine c mem).posix
    · exact pairwise_of_forall_mem_list fun _ _ c mem _ => postPosix c mem
  · rcases mem_append.mp late with new | last
    · exact (e.mine c new).posix
    · exact postPosix c last

theorem Exchanged.valid : Valid s' := by
  have known : ∀ n ∈ pre ++ own' ++ post, n < s'.fresh := by
    intro n mem
    have bound := e.fresh
    by_cases new : n ∈ own'
    · rcases e.ids n new with old | ⟨_,below⟩
      · have := b.ownKnown v old
        omega
      · exact below
    · have kept := memOutside mem new
      have := (e.around b v kept).2.2
      omega
  -- a record of another inode's list is not among those of this one
  have separate : ∀ k n, k ≠ i → n ∈ s.iFlock k → n ∉ pre ++ own' ++ post := by
    intro k n other mem inside
    have below := v.known k n mem
    refine other (v.separate k i n mem ?_)
    rw [b.list]
    by_cases new : n ∈ own'
    · rcases e.ids n new with old | ⟨above,_⟩
      · exact mem_append_left _ (mem_append_right _ old)
      · omega
    · exact memAround own (memOutside inside new)
  refine ⟨fun k u => ?_,fun k => ?_,fun k => ?_,fun k l n inK inL => ?_,fun k n mem => ?_⟩
  · by_cases here : k = i
    · subst here
      by_cases same : u = o
      · exact same ▸ e.arrangedSame b v
      · exact e.arrangedOther b v same
    · exact arrangedCongr (e.listElse here) (fun n mem => e.elsewhere b v here mem) (v.arranged k u)
  · by_cases here : k = i
    · exact here ▸ e.ordered b v
    · rw [e.listElse here]
      refine (v.ordered k).imp_of_mem fun {a c} inA inC rule => ?_
      rw [e.elsewhere b v here inA,e.elsewhere b v here inC]
      exact rule
  · by_cases here : k = i
    · rw [here,e.listHere]
      exact e.nodup b v
    · rw [e.listElse here]
      exact v.distinct k
  · by_cases hereK : k = i <;> by_cases hereL : l = i
    · exact hereK.trans hereL.symm
    · rw [e.listElse hereL] at inL
      rw [hereK,e.listHere] at inK
      exact absurd inK (separate l n hereL inL)
    · rw [e.listElse hereK] at inK
      rw [hereL,e.listHere] at inL
      exact absurd inL (separate k n hereK inK)
    · rw [e.listElse hereK] at inK
      rw [e.listElse hereL] at inL
      exact v.separate k l n inK inL
  · by_cases here : k = i
    · rw [here,e.listHere] at mem
      exact known n mem
    · rw [e.listElse here] at mem
      exact (v.known k n mem).trans_le e.fresh

end

theorem Exchanged.typeOther [DecidableEq O] (e : Exchanged s i o pre own post s' own') (b : Block s i o pre own post)
    (v : Valid s) {u} (other : k ≠ i ∨ u ≠ o) (x : Int) : typeAt s' k u x = typeAt s k u x := by
  by_cases here : k = i
  · subst here
    have apart := other.resolve_left fun away => away rfl
    have none' : own'.filter (fun n => decide (OwnedBy s' u n)) = [] := by
      refine filter_eq_nil_iff.mpr fun n mem => ?_
      simpa using fun owned : OwnedBy s' u n => apart (owned.2.symm.trans (e.mine n mem).owner)
    have none : own.filter (fun n => decide (OwnedBy s u n)) = [] := by
      refine filter_eq_nil_iff.mpr fun n mem => ?_
      simpa using fun owned : OwnedBy s u n => apart (owned.2.symm.trans (b.mine n mem).owner)
    have same : ∀ {l : List Nat}, l ⊆ pre ++ post →
        l.filter (fun n => decide (OwnedBy s' u n)) = l.filter fun n => decide (OwnedBy s u n) := fun inside =>
      filter_congr fun n mem => decide_eq_decide.mpr (ownedCongr (e.around b v (inside mem)).1)
    rw [typeAt,typeAt,e.listHere,b.list]
    simp only [filter_append,none,none',append_nil,same (subset_append_left pre post),
      same (subset_append_right pre post)]
    rw [piecesCongr fun n mem => (e.around b v ?_).1]
    rw [← filter_append] at mem
    exact mem_of_mem_filter mem
  · exact typeAtCongr (e.listElse here) (fun n mem => e.elsewhere b v here mem) x

end EclairKernel.FileLock
