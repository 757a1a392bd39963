import EclairKernel.FileLockScan

/-! The end of `__posix_lock_file`: a new lock where the loop placed none, then
the cuts to the right and to the left. The locks of the owner then hold the map
that was asked for, and every record whose waiters were not woken only grew. -/
namespace EclairKernel.FileLock
open EclairKernel.IntervalMap Function List

variable {O : Type}

structure Spare (j : Job O) (new new2 : Nat) : Prop where
  fresh : new ∉ j.own
  fresh2 : new2 ∉ j.own
  apart : new ≠ new2
  notRequest : new ≠ j.request
  notRequest2 : new2 ≠ j.request

def slotPieces (j : Job O) (sc : Scan O) : List (Piece LockType) :=
  if j.type = .unlck then [] else [piece sc.asks]

theorem memAround {a c} (b : List Nat) {n} (mem : n ∈ a ++ c) : n ∈ a ++ b ++ c := by
  simp only [mem_append] at mem ⊢
  exact mem.imp .inl id

theorem memOutside {a b c : List Nat} {n : Nat} (mem : n ∈ a ++ b ++ c) (away : n ∉ b) : n ∈ a ++ c := by
  rcases mem_append.mp mem with mem | mem
  · exact mem_append_left c ((mem_append.mp mem).resolve_right away)
  · exact mem_append_right a mem

theorem nodupAway {a b c : List Nat} {n} (distinct : (a ++ b ++ c).Nodup) (mem : n ∈ a ++ c) : n ∉ b := by
  intro inside
  rw [append_assoc,nodup_append] at distinct
  rcases mem_append.mp mem with early | late
  · exact distinct.2.2 n early n (mem_append_left _ inside) rfl
  · exact (nodup_append.mp distinct.2.1).2.2 n inside n late rfl

structure Stage (j : Job O) (new new2 : Nat) (before slot own : List Nat) (p : Piece LockType)
    (b m r : List (Piece LockType)) (sc : Scan O) : Prop where
  list : sc.done ++ sc.rest = j.pre ++ (before ++ slot ++ own) ++ j.post
  asked : piece sc.asks = p
  piecesBefore : pieces sc.lock before = b
  piecesSlot : pieces sc.lock slot = m
  piecesOwn : pieces sc.lock own = r
  mine : ∀ n ∈ before ++ slot ++ own, (sc.lock n).posix = true ∧ (sc.lock n).flOwner = j.owner
  frame : ∀ n, n ≠ j.request → n ∉ j.own → n ≠ new → n ≠ new2 → sc.lock n = j.lock n
  kept : ∀ n ∈ j.own, n ∈ sc.wakes ∨ n ∈ before ++ slot ++ own ∧ Wider (j.lock n) (sc.lock n)
  ids : ∀ n ∈ before ++ slot ++ own, n ∈ j.own ∨ n = new ∨ n = new2
  distinct : (before ++ slot ++ own).Nodup
  request : sc.request ∉ before ++ own

variable {j new new2 fl before slot own p}
  {b m r} {sc sc' : Scan O}

abbrev Begun (j : Job O) (new new2 : Nat) (before slot own : List Nat) (sc : Scan O) : Scan O → Prop :=
  Stage j new new2 before slot own (piece sc.asks) (pieces sc.lock before) (slotPieces j sc) (pieces sc.lock own)

structure Closed (j : Job O) (own : List Nat) (sc sc' : Scan O) : Prop where
  done : sc'.done = sc.done
  rest : sc'.rest = own ++ j.post
  lock : sc'.lock = sc.lock
  wakes : sc'.wakes = sc.wakes
  request : sc'.request = sc.request

theorem Tracked.ids (t : Tracked j before slot own sc) : ∀ n ∈ before ++ slot ++ own, n ∈ j.own ∨ n = new ∨ n = new2 :=
  fun _ mem => .inl (t.within.subset mem)

theorem Progress.mine (p : Progress j before slot own sc) (t : Tracked j before slot own sc) :
    ∀ n ∈ before ++ slot ++ own, (sc.lock n).posix = true ∧ (sc.lock n).flOwner = j.owner := by
  obtain ⟨early,late⟩ := forall_mem_append.mp fun n mem => And.intro (p.locks n mem).posix (p.locks n mem).owner
  refine forall_mem_append.mpr ⟨forall_mem_append.mpr ⟨early,?_⟩,late⟩
  cases p.placed with
  | inside => exact forall_mem_singleton.mpr ⟨p.asked.posix,p.asked.owner⟩
  | outside => exact forall_mem_nil _

theorem Progress.atSlot (p : Progress j before slot own sc) (unlock : sc.added = false → j.type = .unlck) :
    pieces sc.lock slot = slotPieces j sc := by
  rw [slotPieces]
  cases p.placed with
  | inside _ held =>
    rw [if_neg held]
    rfl
  | outside _ _ engaged _ =>
    have type : j.type = .unlck := by
      cases added : sc.added with
      | false => exact unlock added
      | true => exact engaged added
    rw [if_pos type]
    rfl

theorem Progress.aside (p : Progress j before slot own sc) : sc.request ∉ before ++ own :=
  (nodup_cons.mp p.distinct).1

section
variable (pr : Progress j before slot own sc) (t : Tracked j before slot own sc) (owned : j.own.Nodup) (closed : Closed j own sc sc')
include pr t owned closed

theorem stageKept (unlock : sc.added = false → j.type = .unlck) : Begun j new new2 before slot own sc sc' := by
  obtain ⟨done,rest,lock,wakes,request⟩ := closed
  refine ⟨?_,?_,?_,?_,?_,?_,?_,?_,t.ids,owned.sublist t.within,?_⟩
  · simp [done,rest,pr.done]
  · rw [Scan.asks,lock,request]
  · rw [lock]
  · rw [lock]
    exact pr.atSlot unlock
  · rw [lock]
  · rw [lock]
    exact pr.mine t
  · intro n notRequest notOwn _ _
    rw [lock]
    exact t.frame n notRequest notOwn
  · rw [lock,wakes]
    exact t.kept
  · rw [request]
    exact pr.aside

theorem stageInserted (spare : Spare j new new2) (idle : sc.added = false) (held : j.type ≠ .unlck) :
    Begun j new new2 before [new] own sc (sc'.insertCopy new sc'.request) := by
  obtain ⟨done,rest,lock,wakes,request⟩ := closed
  obtain ⟨rfl,isRequest,still,unmoved,_⟩ := pr.slotNil idle
  have others : ∀ n, n ≠ new → (sc'.insertCopy new sc'.request).lock n = sc.lock n := by
    intro n other
    simp [Scan.insertCopy,update_of_ne other,lock]
  have copied : (sc'.insertCopy new sc'.request).lock new = sc.asks := by
    simp [Scan.insertCopy,lock,request]
  have listed : ∀ n ∈ before ++ own, n ≠ new := by
    rintro n mem rfl
    exact spare.fresh (unmoved ▸ mem)
  have requestNew : sc.request ≠ new := fun is => spare.notRequest (is ▸ isRequest)
  have within := unmoved ▸ owned
  refine ⟨?_,?_,?_,?_,?_,?_,?_,?_,?_,?_,?_⟩
  · simp [Scan.insertCopy,done,rest,pr.done]
  · rw [Scan.asks,show (sc'.insertCopy new sc'.request).request = sc.request from request,others _ requestNew]
  · exact piecesCongr fun n mem => others n (listed n (mem_append_left _ mem))
  · rw [slotPieces,if_neg held,pieces,map_cons,map_nil,copied]
  · exact piecesCongr fun n mem => others n (listed n (mem_append_right _ mem))
  · intro n mem
    by_cases isNew : n = new
    · rw [isNew,copied]
      exact ⟨pr.asked.posix,pr.asked.owner⟩
    rw [others n isNew]
    refine pr.mine t n ?_
    simp only [mem_append,mem_singleton,isNew,not_mem_nil] at mem ⊢
    exact mem
  · intro n notRequest notOwn notNew _
    rw [others n notNew]
    exact t.frame n notRequest notOwn
  · intro n mem
    have notNew : n ≠ new := fun is => spare.fresh (is ▸ mem)
    rw [others n notNew]
    refine (t.kept n mem).imp (fun woken => wakes ▸ woken) fun stays => ⟨?_,stays.2⟩
    have place := stays.1
    simp only [mem_append,not_mem_nil,or_false] at place ⊢
    exact place.imp .inl id
  · intro n mem
    by_cases isNew : n = new
    · exact .inr (.inl isNew)
    left
    rw [← unmoved]
    simp only [mem_append,mem_singleton,isNew,or_false] at mem ⊢
    exact mem
  · rw [append_assoc,singleton_append,nodup_middle,nodup_cons]
    exact ⟨fun mem => listed new mem rfl,within⟩
  · simp only [Scan.insertCopy,request]
    exact pr.aside

end

variable {n} {lock : Nat → Lock O} {slot'}

theorem mapClipLeft {l : List (Piece LockType)} (apart : ∀ k ∈ l, Apart k p) : l.map (clipLeft p) = l := by
  refine (map_congr_left fun k mem => ?_).trans (map_id l)
  have := (apart k mem).1
  simp only [clipLeft,id]
  rw [min_eq_left (by omega)]

theorem mapClipRight {l : List (Piece LockType)} (apart : ∀ k ∈ l, Apart p k) : l.map (clipRight p) = l := by
  refine (map_congr_left fun k mem => ?_).trans (map_id l)
  have := (apart k mem).1
  simp only [clipRight,id]
  rw [max_eq_left (by omega)]

section
variable (st : Stage j new new2 before slot own p b m r sc)
include st

theorem Stage.touch (mem : n ∈ before ++ own) {v}
    (posix : v.posix = (sc.lock n).posix) (owner : v.flOwner = (sc.lock n).flOwner) {b' r'}
    (early : pieces (update sc.lock n v) before = b') (late : pieces (update sc.lock n v) own = r') :
    Stage j new new2 before slot own p b' m r' { sc with lock := update sc.lock n v, wakes := sc.wakes ++ [n] } := by
  have distinct := st.distinct
  have listed := memAround slot mem
  have notSlot : ∀ k ∈ slot, k ≠ n := by
    rintro k inSlot rfl
    exact nodupAway distinct mem inSlot
  have notRequest : sc.request ≠ n := fun is => st.request (is ▸ mem)
  refine ⟨st.list,?_,early,?_,late,?_,?_,?_,st.ids,distinct,st.request⟩
  · exact (congrArg piece (update_of_ne notRequest ..)).trans st.asked
  · rw [← st.piecesSlot]
    exact piecesCongr fun k inSlot => update_of_ne (notSlot k inSlot) v sc.lock
  · intro k inList
    by_cases is : k = n
    · subst is
      simp only [update_self,posix,owner]
      exact st.mine k inList
    · simp only [update_of_ne is]
      exact st.mine k inList
  · intro k notAsked notOwn notNew notNew2
    have other : k ≠ n := by
      rintro rfl
      exact (st.ids k listed).elim notOwn fun is => is.elim notNew notNew2
    simp only [update_of_ne other]
    exact st.frame k notAsked notOwn notNew notNew2
  · intro k inOwn
    by_cases is : k = n
    · exact .inl (mem_append_right _ (mem_singleton.mpr is))
    · simp only [update_of_ne is]
      exact (st.kept k inOwn).imp (mem_append_left _) id

theorem Stage.ownDistinct (early : n ∈ before) : n ∉ own :=
  fun late => (nodup_append.mp st.distinct).2.2 n (mem_append_left _ early) n late rfl

theorem Stage.finishLeft (apart : ∀ n ∈ before, sc.left ≠ some n → Apart (piece (sc.lock n)) p)
    (straddle : ∀ n, sc.left = some n → n ∈ before ∧ p.lo ≤ (sc.lock n).flEnd) :
    Stage j new new2 before slot own p (b.map (clipLeft p)) m r sc.finishLeft := by
  cases left : sc.left with
  | none =>
    have same : b.map (clipLeft p) = b := by
      refine mapClipLeft fun k mem => ?_
      rw [← st.piecesBefore] at mem
      obtain ⟨n,found,rfl⟩ := mem_map.mp mem
      exact apart n found (by rw [left]; exact (Option.some_ne_none n).symm)
    simp only [Scan.finishLeft,left,same]
    exact st
  | some n =>
    obtain ⟨mem,reach⟩ := straddle n left
    have start : sc.asks.flStart = p.lo := congrArg Piece.lo st.asked
    simp only [Scan.finishLeft,left]
    refine st.touch (v := { sc.lock n with flEnd := sc.asks.flStart - 1 }) (mem_append_left _ mem)
      rfl rfl ?_ ?_
    · rw [← st.piecesBefore,pieces,pieces,map_map]
      refine map_congr_left fun k inBefore => ?_
      by_cases is : k = n
      · subst is
        simp only [comp,update_self,clipLeft,piece,start]
        rw [min_eq_right (by omega)]
      · have gap := (apart k inBefore (by rw [left]; exact fun same => is (Option.some.inj same).symm)).1
        simp only [comp,update_of_ne is,clipLeft]
        rw [min_eq_left (by omega)]
    · rw [← st.piecesOwn]
      refine piecesCongr fun k late => update_of_ne ?_ _ _
      rintro rfl
      exact st.ownDistinct mem late

theorem Stage.cutRight (mem : n ∈ own)
    (apart : ∀ k ∈ own, k ≠ n → Apart p (piece (sc.lock k))) (straddle : (sc.lock n).flStart ≤ p.hi) :
    Stage j new new2 before slot own p b m (r.map (clipRight p)) (sc.cutRight n) := by
  have stop : sc.asks.flEnd = p.hi := congrArg Piece.hi st.asked
  refine st.touch (v := { sc.lock n with flStart := sc.asks.flEnd + 1 }) (mem_append_right _ mem)
    rfl rfl ?_ ?_
  · rw [← st.piecesBefore]
    refine piecesCongr fun k early => update_of_ne ?_ _ _
    rintro rfl
    exact st.ownDistinct early mem
  · rw [← st.piecesOwn,pieces,pieces,map_map]
    refine map_congr_left fun k inOwn => ?_
    by_cases is : k = n
    · subst is
      simp only [comp,update_self,clipRight,piece,stop]
      rw [max_eq_right (by omega)]
    · have gap := (apart k inOwn is).1
      simp only [comp,update_of_ne is,clipRight]
      rw [max_eq_left (by omega)]

theorem Stage.split (mem : n ∈ own)
    (unused : new2 ∉ before ++ slot ++ own) (spare : new2 ∉ j.own) (notAsked : sc.request ≠ new2)
    (done : sc.done = j.pre ++ before) (rest : sc.rest = slot ++ own ++ j.post) (left : Option Nat) :
    Stage j new new2 (before ++ [new2]) slot own p (b ++ [piece (sc.lock n)]) m r
      { sc.insertCopy new2 n with left := left } := by
  have others : ∀ k ∈ before ++ slot ++ own, update sc.lock new2 (sc.lock n) k = sc.lock k := by
    intro k old
    refine update_of_ne ?_ _ _
    rintro rfl
    exact unused old
  have listed : n ∈ before ++ slot ++ own := mem_append_right _ mem
  have shift : ∀ k, k ∈ before ++ [new2] ++ slot ++ own ↔ k = new2 ∨ k ∈ before ++ slot ++ own := by
    intro k
    simp only [mem_append,mem_singleton,or_assoc]
    rw [or_left_comm]
  refine ⟨?_,?_,?_,?_,?_,?_,?_,?_,?_,?_,?_⟩
  · simp [Scan.insertCopy,done,rest]
  · exact (congrArg piece (update_of_ne notAsked ..)).trans st.asked
  · simp only [Scan.insertCopy,piecesAppend]
    rw [piecesCongr fun k early => others k (mem_append_left _ (mem_append_left _ early)),st.piecesBefore,
      pieces,map_cons,map_nil,update_self]
  · rw [← st.piecesSlot]
    exact piecesCongr fun k at' => others k (mem_append_left _ (mem_append_right _ at'))
  · rw [← st.piecesOwn]
    exact piecesCongr fun k late => others k (mem_append_right _ late)
  · intro k inList
    rcases (shift k).mp inList with rfl | old
    · simp only [Scan.insertCopy,update_self]
      exact st.mine n listed
    · simp only [Scan.insertCopy,others k old]
      exact st.mine k old
  · intro k notRequest notOwn notNew notNew2
    simp only [Scan.insertCopy,update_of_ne notNew2]
    exact st.frame k notRequest notOwn notNew notNew2
  · intro k inOwn
    have other : k ≠ new2 := fun is => spare (is ▸ inOwn)
    simp only [Scan.insertCopy,update_of_ne other]
    exact (st.kept k inOwn).imp id fun stays => ⟨(shift k).mpr (.inr stays.1),stays.2⟩
  · intro k inList
    exact ((shift k).mp inList).elim (fun is => .inr (.inr is)) (st.ids k)
  · have moved : before ++ [new2] ++ slot ++ own = before ++ new2::(slot ++ own) := by
      simp
    rw [moved,nodup_middle,nodup_cons,← append_assoc]
    exact ⟨unused,st.distinct⟩
  · exact fun inList => st.request (memOutside inList (mt mem_singleton.mp notAsked))

end

structure Updated (j : Job O) (new new2 : Nat) (own : List Nat) (sc : Scan O) : Prop where
  list : sc.done ++ sc.rest = j.pre ++ own ++ j.post
  locks : ∀ n ∈ own, Taken j.owner (sc.lock n)
  tidy : Tidy (pieces sc.lock own)
  held : ∀ x t, Held (pieces sc.lock own) x t ↔ j.target x t
  frame : ∀ n, n ≠ j.request → n ∉ j.own → n ≠ new → n ≠ new2 → sc.lock n = j.lock n
  kept : ∀ n ∈ j.own, n ∈ sc.wakes ∨ n ∈ own ∧ Wider (j.lock n) (sc.lock n)
  ids : ∀ n ∈ own, n ∈ j.own ∨ n = new ∨ n = new2
  distinct : own.Nodup

structure Ranged (k : Piece LockType) : Prop where
  low : 0 ≤ k.lo
  high : k.hi ≤ OFFSET_MAX
  held : k.label ≠ .unlck

theorem overrideRanged {split} (around : Around p b split r) (ranged : ∀ k ∈ b ++ r, Ranged k)
    (placed : ∀ k ∈ m, Ranged k) : ∀ k ∈ override p m b split r, Ranged k := by
  obtain ⟨early,late⟩ := forall_mem_append.mp ranged
  have left : ∀ a ∈ b ++ split, Ranged a := forall_mem_append.mpr ⟨early,fun a cut => late a (around.both a cut).1⟩
  refine forall_mem_append.mpr ⟨forall_mem_append.mpr ⟨forall_mem_map.mpr fun a found => ?_,placed⟩,forall_mem_map.mpr fun a found => ?_⟩
  · exact ⟨(left a found).low,(min_le_left _ _).trans (left a found).high,(left a found).held⟩
  · exact ⟨(late a found).low.trans (le_max_left _ _),(late a found).high,(late a found).held⟩

theorem Stage.updated {split} (around : Around p b split r) (nonempty : p.lo ≤ p.hi)
    (ranged : ∀ k ∈ b ++ r, Ranged k) (placed : ∀ k, k ∈ m ↔ j.type ≠ .unlck ∧ k = p)
    (single : m = [] ∨ m = [p]) (allowed : j.type ≠ .unlck → Ranged p)
    (shows : ∀ x t, Over p (j.type ≠ .unlck) (b ++ r) x t ↔ j.target x t)
    (st : Stage j new new2 before slot own p ((b ++ split).map (clipLeft p)) m (r.map (clipRight p)) sc) :
    Updated j new new2 (before ++ slot ++ own) sc := by
  have shape : pieces sc.lock (before ++ slot ++ own) = override p m b split r := by
    rw [piecesAppend,piecesAppend,st.piecesBefore,st.piecesSlot,st.piecesOwn]
    rfl
  have tidy := overrideTidy around nonempty single
  have each := overrideRanged around ranged fun k mem => ((placed k).mp mem).2 ▸ allowed ((placed k).mp mem).1
  refine ⟨st.list,fun n mem => ?_,shape ▸ tidy,fun x t => ?_,st.frame,st.kept,st.ids,st.distinct⟩
  · have found := shape ▸ pieceMem mem
    have range := each _ found
    exact ⟨⟨(st.mine n mem).1,(st.mine n mem).2,range.low,tidy.nonempty _ found,range.high⟩,range.held⟩
  · rw [shape,overrideHeld around nonempty placed]
    exact shows x t

theorem piecesMem {l k} (mem : k ∈ pieces lock l) :
    ∃ n ∈ l, piece (lock n) = k := mem_map.mp mem

theorem Progress.clearAfter (pr : Progress j before slot (fl::own) sc)
    (high : sc.asks.flEnd < (sc.lock fl).flEnd) (mem : n ∈ own) : Apart (piece sc.asks) (piece (sc.lock n)) := by
  have order := (pr.apartAfter mem).1
  simp only [piece] at order
  refine ⟨?_,fun _ => ?_⟩ <;> simp only [piece] <;> omega

def splitPieces (sc : Scan O) (fl : Nat) : List (Piece LockType) :=
  if (sc.lock fl).flStart < sc.asks.flStart then [piece (sc.lock fl)] else []

theorem slotPiecesMem (k : Piece LockType) : k ∈ slotPieces j sc ↔ j.type ≠ .unlck ∧ k = piece sc.asks := by
  simp only [slotPieces]
  split
  · rename_i unlock
    exact ⟨fun mem => absurd mem not_mem_nil,fun both => absurd unlock both.1⟩
  · rename_i held
    exact ⟨fun mem => ⟨held,mem_singleton.mp mem⟩,fun both => mem_singleton.mpr both.2⟩

theorem slotPiecesSingle : slotPieces j sc = [] ∨ slotPieces j sc = [piece sc.asks] := by
  exact ite_eq_or_eq ..

theorem Stage.pieceBefore (st : Stage j new new2 before slot own p (pieces lock before) m r sc)
    (mem : n ∈ before) : piece (sc.lock n) = piece (lock n) :=
  map_inj_left.mp st.piecesBefore n mem

theorem Stage.pieceOwn (st : Stage j new new2 before slot own p b m (pieces lock own) sc)
    (mem : n ∈ own) : piece (sc.lock n) = piece (lock n) :=
  map_inj_left.mp st.piecesOwn n mem

structure Unchanged (j : Job O) (sc : Scan O) : Prop where
  lock : sc.lock = j.lock
  list : sc.done ++ sc.rest = j.pre ++ j.own ++ j.post
  wakes : sc.wakes = []

section
variable (pr : Progress j before slot own sc)
include pr

theorem Progress.lower : ∀ k ∈ pieces sc.lock before, k.lo < (piece sc.asks).lo ∧ k.hi ≤ (piece sc.asks).hi ∧
    (k.label = (piece sc.asks).label → k.hi + 1 < (piece sc.asks).lo) := by
  intro k mem
  obtain ⟨n,found,rfl⟩ := piecesMem mem
  have filled := (pr.locks n (mem_append_left _ found)).order
  have asked := pr.asked.order
  by_cases left : sc.left = some n
  · obtain ⟨_,other,early,_,covered⟩ := pr.left n left
    exact ⟨early,covered,fun same => absurd (same.trans pr.type) other⟩
  have apart := pr.apart n found left
  have order := apart.1
  simp only [piece] at order ⊢
  exact ⟨by omega,by omega,apart.2⟩

theorem Progress.aroundStop (clear : ∀ n ∈ own, Apart (piece sc.asks) (piece (sc.lock n))) :
    Around (piece sc.asks) (pieces sc.lock before) [] (pieces sc.lock own) := by
  have tidy := pr.tidy
  rw [piecesAppend] at tidy
  refine ⟨?_,tidy.sublist (sublist_append_right _ _),pr.lower,fun k mem => ?_,fun k mem => absurd mem not_mem_nil⟩
  · rw [append_nil]
    exact tidy.sublist (sublist_append_left _ _)
  · obtain ⟨n,found,rfl⟩ := piecesMem mem
    have filled := (pr.locks n (mem_append_right _ found)).order
    have asked := pr.asked.order
    have order := (clear n found).1
    simp only [piece] at order ⊢
    exact ⟨by omega,fun same => (clear n found).2 same.symm,fun below => by omega⟩

theorem Progress.finished {split}
    (around : Around (piece sc.asks) (pieces sc.lock before) split (pieces sc.lock own))
    {before' own'} (st : Stage j new new2 before' slot' own' (piece sc.asks)
      ((pieces sc.lock before ++ split).map (clipLeft (piece sc.asks))) (slotPieces j sc)
      ((pieces sc.lock own).map (clipRight (piece sc.asks))) sc') :
    Updated j new new2 (before' ++ slot' ++ own') sc' := by
  refine st.updated around pr.asked.order (fun k mem => ?_) slotPiecesMem slotPiecesSingle (fun held => ?_) fun x t => ?_
  · rw [← piecesAppend] at mem
    obtain ⟨n,found,rfl⟩ := piecesMem mem
    have taken := pr.locks n found
    exact ⟨taken.low,taken.high,taken.held⟩
  · exact ⟨pr.asked.low,pr.asked.high,fun is => held (pr.type.symm.trans is)⟩
  · rw [← piecesAppend]
    exact pr.shows x t

theorem Progress.finishLeft (st : Stage j new new2 before slot' own (piece sc.asks) (pieces sc.lock before) m r sc')
    (left : sc'.left = sc.left) : Stage j new new2 before slot' own (piece sc.asks)
      ((pieces sc.lock before ++ []).map (clipLeft (piece sc.asks))) m r sc'.finishLeft := by
  rw [append_nil]
  refine st.finishLeft (fun n mem notLeft => ?_) fun n is => ?_
  · rw [st.pieceBefore mem]
    exact pr.apart n mem (left ▸ notLeft)
  · obtain ⟨mem,_,_,reach,_⟩ := pr.left n (left ▸ is)
    have stop : (sc'.lock n).flEnd = (sc.lock n).flEnd := congrArg Piece.hi (st.pieceBefore mem)
    exact ⟨mem,stop ▸ reach⟩

theorem Progress.stopUpdated (clear : ∀ n ∈ own, Apart (piece sc.asks) (piece (sc.lock n)))
    (st : Begun j new new2 before slot' own sc sc') (left : sc'.left = sc.left) (right : sc'.right = none) (newFl2 : Option Nat) :
    Updated j new new2 (before ++ slot' ++ own) (sc'.finishRight newFl2).finishLeft := by
  have unmoved : sc'.finishRight newFl2 = sc' := by
    simp [Scan.finishRight,right]
  have same : (pieces sc.lock own).map (clipRight (piece sc.asks)) = pieces sc.lock own := by
    refine mapClipRight fun k mem => ?_
    obtain ⟨n,found,rfl⟩ := piecesMem mem
    exact clear n found
  rw [unmoved]
  refine pr.finished (pr.aroundStop clear) ?_
  rw [same]
  exact pr.finishLeft st left

theorem Progress.unchanged (idle : sc.added = false) (closed : Closed j own sc sc') : Unchanged j sc' := by
  obtain ⟨rfl,_,still,unmoved,asleep⟩ := pr.slotNil idle
  refine ⟨closed.lock.trans still,?_,closed.wakes.trans asleep⟩
  rw [closed.done,closed.rest,pr.done,← unmoved]
  simp

theorem Progress.idleUnlock (idle : sc.added = false) (unlock : j.type = .unlck)
    (clear : ∀ n ∈ own, Apart (piece sc.asks) (piece (sc.lock n))) (x : Int) (t : LockType) :
    Held (pieces j.lock j.own) x t ↔ j.target x t := by
  obtain ⟨_,_,still,unmoved,_⟩ := pr.slotNil idle
  have noLeft := pr.engaged unlock idle
  rw [← still,← unmoved,← pr.shows x t]
  have off : ∀ n ∈ before ++ own, Covers (piece (sc.lock n)) x → ¬Covers (piece sc.asks) x := by
    intro n mem covers asked
    rcases mem_append.mp mem with early | late
    · exact apartCovers (pr.apart n early (by rw [noLeft]; exact (Option.some_ne_none n).symm)) covers asked
    · exact apartCovers (clear n late) asked covers
  constructor
  · rintro ⟨k,mem,covers,label⟩
    obtain ⟨n,found,rfl⟩ := piecesMem mem
    exact .inr ⟨off n found covers,_,mem,covers,label⟩
  · rintro (⟨_,held,_⟩ | ⟨_,held⟩)
    · exact absurd unlock held
    · exact held

end

section
variable (pr : Progress j before slot (fl::own) sc)
include pr

section
variable (other : (sc.lock fl).flType ≠ j.type)
include other

theorem Progress.aroundCut (high : sc.asks.flEnd < (sc.lock fl).flEnd) :
    Around (piece sc.asks) (pieces sc.lock before) (splitPieces sc fl) (pieces sc.lock (fl::own)) := by
  have tidy := pr.tidy
  rw [piecesAppend] at tidy
  have different : (piece (sc.lock fl)).label ≠ (piece sc.asks).label :=
    fun same => other (same.trans pr.type)
  refine ⟨?_,tidy.sublist (sublist_append_right _ _),pr.lower,fun k mem => ?_,fun k mem => ?_⟩
  · refine tidy.sublist (List.Sublist.append (List.Sublist.refl _) ?_)
    simp only [splitPieces]
    split
    · exact List.Sublist.cons_cons _ (nil_sublist _)
    · exact nil_sublist _
  · rcases mem_cons.mp mem with rfl | later
    · refine ⟨high,fun same => absurd same different,fun below => ?_⟩
      have early : (sc.lock fl).flStart < sc.asks.flStart := below
      rw [splitPieces,if_pos early]
      exact mem_singleton_self _
    · obtain ⟨n,found,rfl⟩ := piecesMem later
      have filled := (pr.locks n (mem_append_right _ (mem_cons_of_mem fl found))).order
      have asked := pr.asked.order
      have apart := pr.clearAfter high found
      have order := apart.1
      simp only [piece] at order ⊢
      exact ⟨by omega,fun same => apart.2 same.symm,fun below => by omega⟩
  · simp only [splitPieces] at mem
    split at mem
    · rename_i below
      rw [mem_singleton.mp mem]
      exact ⟨mem_cons_self,below,different⟩
    · cases mem

theorem Progress.cutUpdated (low : (sc.lock fl).flStart ≤ sc.asks.flEnd) (high : sc.asks.flEnd < (sc.lock fl).flEnd)
    (inside : sc.asks.flStart ≤ (sc.lock fl).flStart)
    (st : Begun j new new2 before slot' (fl::own) sc sc') (left : sc'.left = sc.left) (right : sc'.right = some fl)
    (newFl2 : Option Nat) : Updated j new new2 (before ++ slot' ++ fl::own) (sc'.finishRight newFl2).finishLeft := by
  have apart : sc'.left ≠ sc'.right := by
    rw [left,right]
    exact fun is => st.ownDistinct (pr.left fl is).1 mem_cons_self
  have cuts : sc'.finishRight newFl2 = sc'.cutRight fl := by
    simp only [Scan.finishRight,right]
    cases newFl2 with
    | none => rfl
    | some n => exact if_neg (right ▸ apart)
  have around := pr.aroundCut other high
  rw [splitPieces,if_neg (not_lt.mpr inside)] at around
  rw [cuts]
  refine pr.finished around (pr.finishLeft (st.cutRight mem_cons_self (fun k mem is => ?_) ?_) left)
  · rw [st.pieceOwn mem]
    exact pr.clearAfter high ((mem_cons.mp mem).resolve_left is)
  · have start : (sc'.lock fl).flStart = (sc.lock fl).flStart := congrArg Piece.lo (st.pieceOwn mem_cons_self)
    exact start ▸ low

theorem Progress.splitUpdated (reach : sc.asks.flStart ≤ (sc.lock fl).flEnd)
    (low : (sc.lock fl).flStart ≤ sc.asks.flEnd) (high : sc.asks.flEnd < (sc.lock fl).flEnd)
    (outside : (sc.lock fl).flStart < sc.asks.flStart)
    (st : Begun j new new2 before slot' (fl::own) sc sc') (left : sc'.left = some fl) (right : sc'.right = some fl)
    (unused : new2 ∉ before ++ slot' ++ fl::own) (spare : new2 ∉ j.own) (notAsked : sc'.request ≠ new2)
    (done : sc'.done = j.pre ++ before) (rest : sc'.rest = slot' ++ fl::own ++ j.post) :
    Updated j new new2 (before ++ [new2] ++ slot' ++ fl::own) (sc'.finishRight (some new2)).finishLeft := by
  have cuts : sc'.finishRight (some new2) = ({ sc'.insertCopy new2 fl with left := some new2 }).cutRight fl := by
    simp [Scan.finishRight,right,left]
  have around := pr.aroundCut other high
  rw [splitPieces,if_pos outside] at around
  have current := st.pieceOwn mem_cons_self
  have inserted := st.split mem_cons_self unused spare notAsked done rest (some new2)
  rw [current] at inserted
  rw [cuts]
  have cut := inserted.cutRight mem_cons_self
    (fun k mem is => (inserted.pieceOwn mem).symm ▸ pr.clearAfter high ((mem_cons.mp mem).resolve_left is))
    (le_of_eq_of_le (congrArg Piece.lo (inserted.pieceOwn mem_cons_self)) low)
  have copies : ∀ n ∈ before ++ [new2], piece ((({ sc'.insertCopy new2 fl with left := some new2 }).cutRight fl).lock n) =
      if n = new2 then piece (sc.lock fl) else piece (sc.lock n) := by
    have whole := cut.piecesBefore
    have split : pieces sc.lock before ++ [piece (sc.lock fl)] =
        (before ++ [new2]).map fun n => if n = new2 then piece (sc.lock fl) else piece (sc.lock n) := by
      rw [map_append,map_cons,if_pos rfl]
      refine congrArg (· ++ _) (map_congr_left fun n mem => (if_neg ?_).symm)
      rintro rfl
      exact unused (mem_append_left _ (mem_append_left _ mem))
    rw [split] at whole
    exact map_inj_left.mp whole
  refine pr.finished around (cut.finishLeft (fun n mem notLeft => ?_) fun n is => ?_)
  · have notNew : n ≠ new2 := fun is => notLeft (is ▸ rfl)
    have early := (mem_append.mp mem).resolve_right fun new' => notNew (mem_singleton.mp new')
    rw [copies n mem,if_neg notNew]
    -- no other lock reaches over the start: this one does
    refine pr.apart n early fun was => ?_
    have order := (pr.apartBefore early).1
    have reached := (pr.left n was).2.2.2.1
    simp only [piece] at order
    omega
  · obtain rfl := Option.some.inj is
    have mem : new2 ∈ before ++ [new2] := mem_append_right _ (mem_singleton_self _)
    have value := copies new2 mem
    rw [if_pos rfl] at value
    have stop := congrArg Piece.hi value
    exact ⟨mem,le_of_le_of_eq reach stop.symm⟩

end

end

inductive Finished (j : Job O) (new new2 : Nat) (lacking : Prop) : Int × Scan O → Prop
  | updated (own : List Nat) (sc : Scan O) (updated : Updated j new new2 own sc) : Finished j new new2 lacking (0,sc)
  | refused (sc : Scan O) (unchanged : Unchanged j sc) (lacks : lacking) : Finished j new new2 lacking (-ENOLCK,sc)
  | idle (code : Int) (sc : Scan O) (unchanged : Unchanged j sc) (result : code = 0 ∨ code = -ENOENT)
      (unlock : j.type = .unlck) (held : ∀ x t, Held (pieces j.lock j.own) x t ↔ j.target x t) :
      Finished j new new2 lacking (code,sc)

variable {flExists newFl newFl2 lacking}

section
variable (owned : j.own.Nodup) (spare : Spare j new new2) (first : ∀ n ∈ newFl, n = new) (lack : newFl = none → lacking)
include owned spare first lack

-- A lock is placed where the loop placed none; what follows is the same cuts in every case.
theorem Progress.place (pr : Progress j before slot own sc) (t : Tracked j before slot own sc) (closed : Closed j own sc sc')
    (bails : ¬(sc'.right.isSome ∧ sc'.left = sc'.right ∧ newFl2 = none))
    (engaged : sc'.added = true → sc.added = false → j.type = .unlck) (quiet : sc'.added = false → sc.added = false)
    (idle : sc'.added = false → j.type = .unlck → ∀ x t, Held (pieces j.lock j.own) x t ↔ j.target x t)
    (cuts : ∀ slot' sc'', Begun j new new2 before slot' own sc sc'' →
      (slot' = slot ∧ sc'' = sc') ∨ (slot' = [new] ∧ sc'' = sc'.insertCopy new sc'.request) →
      ∃ l, Updated j new new2 l (sc''.finishRight newFl2).finishLeft) :
    Finished j new new2 lacking (sc'.finish flExists newFl newFl2) := by
  have type : sc'.asks.flType = j.type := by rw [Scan.asks,closed.lock,closed.request,pr.type]
  simp only [Scan.finish,if_neg bails]
  cases added : sc'.added with
  | true =>
    obtain ⟨l,updated⟩ := cuts slot sc' (stageKept pr t owned closed (engaged added)) (.inl ⟨rfl,rfl⟩)
    exact .updated l _ updated
  | false =>
    have unchanged := pr.unchanged (quiet added) closed
    by_cases unlock : sc'.asks.flType = .unlck
    · have type := type.symm.trans unlock
      rw [if_pos unlock]
      refine .idle _ _ unchanged ?_ type (idle added type)
      cases flExists
      · exact .inl rfl
      · exact .inr rfl
    · rw [if_neg unlock]
      cases newFl with
      | none => exact .refused _ unchanged (lack rfl)
      | some n =>
        obtain rfl := first n rfl
        obtain ⟨l,updated⟩ := cuts [n] _ (stageInserted pr t owned closed spare (quiet added) (type ▸ unlock)) (.inr ⟨rfl,rfl⟩)
        exact .updated l _ updated

theorem Progress.finishStop (pr : Progress j before slot own sc) (t : Tracked j before slot own sc)
    (clear : ∀ n ∈ own, Apart (piece sc.asks) (piece (sc.lock n))) : Finished j new new2 lacking
      (Scan.finish { sc with rest := own ++ j.post } flExists newFl newFl2) := by
  refine Progress.place owned spare first lack pr t ⟨rfl,rfl,rfl,rfl,rfl⟩ (by simp [pr.right])
    (fun added idle => Bool.noConfusion (added.symm.trans idle)) id
    (fun added unlock => pr.idleUnlock added unlock clear) fun slot' sc'' st placed => ⟨_,pr.stopUpdated clear st ?_ ?_ newFl2⟩
  · rcases placed with ⟨_,rfl⟩ | ⟨_,rfl⟩ <;> rfl
  · rcases placed with ⟨_,rfl⟩ | ⟨_,rfl⟩ <;> exact pr.right

variable (pr : Progress j before slot (fl::own) sc) (t : Tracked j before slot (fl::own) sc)
  (other : (sc.lock fl).flType ≠ j.type) (low : (sc.lock fl).flStart ≤ sc.asks.flEnd)
  (high : sc.asks.flEnd < (sc.lock fl).flEnd)
include pr t other low high

theorem Progress.finishCut (inside : sc.asks.flStart ≤ (sc.lock fl).flStart) : Finished j new new2 lacking
      (Scan.finish { sc.overlap fl with rest := fl::own ++ j.post, right := some fl } flExists newFl newFl2) := by
  have left : (sc.overlap fl).left = sc.left := if_neg (not_lt.mpr inside)
  have apart : sc.left ≠ some fl := fun is =>
    (nodup_append.mp (nodup_cons.mp pr.distinct).2).2.2 fl (pr.left fl is).1 fl mem_cons_self rfl
  have added : (sc.overlap fl).added = (sc.added || decide (j.type = .unlck)) := by rw [← pr.type]; rfl
  refine Progress.place owned spare first lack pr t ⟨rfl,rfl,rfl,rfl,rfl⟩ (fun both => apart (left ▸ both.2.1)) (fun busy idle => ?_)
    (fun idle => ?_) (fun idle unlock => ?_) fun slot' sc'' st placed => ⟨_,pr.cutUpdated other low high inside st ?_ ?_ newFl2⟩
  · simpa [added,idle] using busy
  · simp only [added,Bool.or_eq_false_iff] at idle
    exact idle.1
  · simp [added,unlock] at idle
  · rcases placed with ⟨_,rfl⟩ | ⟨_,rfl⟩ <;> exact left
  · rcases placed with ⟨_,rfl⟩ | ⟨_,rfl⟩ <;> rfl

theorem Progress.finishSplit (second : ∀ n ∈ newFl2, n = new2) (lack2 : newFl2 = none → lacking)
    (reach : sc.asks.flStart ≤ (sc.lock fl).flEnd) (outside : (sc.lock fl).flStart < sc.asks.flStart) : Finished j new new2 lacking
      (Scan.finish { sc.overlap fl with rest := fl::own ++ j.post, right := some fl } flExists newFl newFl2) := by
  have idle := pr.notIdle outside.le
  obtain ⟨rfl,isRequest,_,unmoved,_⟩ := pr.slotNil idle
  have unused := unmoved.symm ▸ spare.fresh2
  have notAsked : sc.request ≠ new2 := fun is => spare.notRequest2 (is.symm.trans isRequest)
  have done : sc.done = j.pre ++ before := by
    rw [pr.done,append_nil]
  rw [overlapLeft idle outside]
  cases newFl2 with
  | none =>
    simp only [Scan.finish]
    exact .refused _ (pr.unchanged idle ⟨rfl,rfl,rfl,rfl,rfl⟩) (lack2 rfl)
  | some n =>
    obtain rfl := second n rfl
    refine Progress.place owned spare first lack pr t ⟨rfl,rfl,rfl,rfl,rfl⟩ (fun both => Option.some_ne_none _ both.2.2)
      (fun busy _ => by simpa [pr.type] using busy) (fun _ => idle) (fun quiet unlock => by simp [pr.type,unlock] at quiet)
      fun slot' sc'' st placed => ?_
    rcases placed with ⟨rfl,rfl⟩ | ⟨rfl,rfl⟩
    · exact ⟨_,pr.splitUpdated other reach low high outside st rfl rfl (by rwa [append_nil]) spare.fresh2 notAsked done rfl⟩
    · exact ⟨_,pr.splitUpdated other reach low high outside st rfl rfl
        (fun inList => unused (memOutside inList (mt mem_singleton.mp spare.apart.symm))) spare.fresh2 notAsked done rfl⟩

end

theorem finishSpec (pr : Progress j before slot own sc) (t : Tracked j before slot own sc) (owned : j.own.Nodup)
    (spare : Spare j new new2) (first : ∀ n ∈ newFl, n = new) (second : ∀ n ∈ newFl2, n = new2)
    (lack : newFl = none → lacking) (lack2 : newFl2 = none → lacking) (ended : Ended j own sc sc') :
    Finished j new new2 lacking (sc'.finish flExists newFl newFl2) := by
  cases ended with
  | stop clear => exact Progress.finishStop owned spare first lack pr t clear
  | cut fl later isFirst other reach low high =>
    subst isFirst
    rcases le_or_gt sc.asks.flStart (sc.lock fl).flStart with inside | outside
    · exact Progress.finishCut owned spare first lack pr t other low high inside
    · exact Progress.finishSplit owned spare first lack pr t other low high second lack2 reach outside

end EclairKernel.FileLock
