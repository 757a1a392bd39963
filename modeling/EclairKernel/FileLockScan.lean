import Mathlib.Data.List.Nodup
import EclairKernel.FileLock
import EclairKernel.IntervalMap

/-! The loop of `__posix_lock_file` over the locks of one owner. While it runs,
the locks still in the list, overridden by the request as it is widened, show
the map that is asked for; a record whose waiters stay asleep only grows. -/
namespace EclairKernel.FileLock
open EclairKernel.IntervalMap List Function

variable {O : Type}

def piece (k : Lock O) : Piece LockType := ⟨k.flStart,k.flEnd,k.flType⟩

def pieces (lock : Nat → Lock O) (l : List Nat) : List (Piece LockType) := l.map fun n => piece (lock n)

abbrev Scan.asks (sc : Scan O) : Lock O := sc.lock sc.request

structure Proper (o : O) (k : Lock O) : Prop where
  posix : k.posix = true
  owner : k.flOwner = o
  low : 0 ≤ k.flStart
  order : k.flStart ≤ k.flEnd
  high : k.flEnd ≤ OFFSET_MAX

structure Taken (o : O) (k : Lock O) : Prop extends Proper o k where
  held : k.flType ≠ .unlck

structure Wider (old new : Lock O) : Prop where
  posix : new.posix = old.posix
  owner : new.flOwner = old.flOwner
  type : new.flType = old.flType
  low : new.flStart ≤ old.flStart
  high : old.flEnd ≤ new.flEnd

theorem Wider.refl (k : Lock O) : Wider k k := ⟨rfl,rfl,rfl,le_rfl,le_rfl⟩

theorem Wider.trans {a b c : Lock O} (first : Wider a b) (second : Wider b c) : Wider a c :=
  ⟨second.posix.trans first.posix,second.owner.trans first.owner,second.type.trans first.type,
    second.low.trans first.low,first.high.trans second.high⟩

@[simp] theorem piecesAppend (lock : Nat → Lock O) (l l' : List Nat) :
    pieces lock (l ++ l') = pieces lock l ++ pieces lock l' := map_append

theorem piecesCongr {lock lock' : Nat → Lock O} {l : List Nat} (same : ∀ n ∈ l, lock' n = lock n) :
    pieces lock' l = pieces lock l :=
  map_congr_left fun n mem => by rw [same n mem]

theorem pieceMem {lock : Nat → Lock O} {l : List Nat} {n : Nat} (mem : n ∈ l) : piece (lock n) ∈ pieces lock l :=
  mem_map_of_mem mem

structure Job (O : Type) where
  lock : Nat → Lock O
  pre : List Nat
  own : List Nat
  post : List Nat
  request : Nat

namespace Job
def owner (j : Job O) : O := (j.lock j.request).flOwner
def type (j : Job O) : LockType := (j.lock j.request).flType
def target (j : Job O) : Int → LockType → Prop :=
  Over (piece (j.lock j.request)) (j.type ≠ .unlck) (pieces j.lock j.own)
end Job

inductive Placed (j : Job O) (before own : List Nat) (sc : Scan O) : List Nat → Prop
  | inside (added : sc.added = true) (held : j.type ≠ .unlck) : Placed j before own sc [sc.request]
  | outside (request : sc.request = j.request) (still : sc.lock = j.lock) (unlock : sc.added = true → j.type = .unlck)
      (idle : sc.added = false → before ++ own = j.own ∧ sc.wakes = []) : Placed j before own sc []

structure Progress (j : Job O) (before slot own : List Nat) (sc : Scan O) : Prop where
  done : sc.done = j.pre ++ before ++ slot
  asked : Proper j.owner sc.asks
  type : sc.asks.flType = j.type
  locks : ∀ n ∈ before ++ own, Taken j.owner (sc.lock n)
  tidy : Tidy (pieces sc.lock (before ++ own))
  apart : ∀ n ∈ before, sc.left ≠ some n → Apart (piece (sc.lock n)) (piece sc.asks)
  left : ∀ n, sc.left = some n → n ∈ before ∧ (sc.lock n).flType ≠ j.type ∧
    (sc.lock n).flStart < sc.asks.flStart ∧ sc.asks.flStart ≤ (sc.lock n).flEnd ∧
    (sc.lock n).flEnd ≤ sc.asks.flEnd
  ahead : sc.added = true → ∀ n ∈ own, sc.asks.flStart < (sc.lock n).flStart
  shows : ∀ x t, Over (piece sc.asks) (j.type ≠ .unlck) (pieces sc.lock (before ++ own)) x t ↔ j.target x t
  distinct : (sc.request::(before ++ own)).Nodup
  others : ∀ n ∈ j.post, (sc.lock n).flOwner ≠ j.owner
  placed : Placed j before own sc slot
  right : sc.right = none
  -- an unlock that met a lock is under way
  engaged : j.type = .unlck → sc.added = false → sc.left = none

structure Tracked (j : Job O) (before slot own : List Nat) (sc : Scan O) : Prop where
  frame : ∀ n, n ≠ j.request → n ∉ j.own → sc.lock n = j.lock n
  within : (before ++ slot ++ own).Sublist j.own
  kept : ∀ n ∈ j.own, n ∈ sc.wakes ∨ n ∈ before ++ slot ++ own ∧ Wider (j.lock n) (sc.lock n)
  request : sc.request = j.request ∨ sc.request ∈ j.own

section
variable {j before slot own} {sc : Scan O} {fl}

theorem Progress.slotNil (p : Progress j before slot own sc) (idle : sc.added = false) :
    slot = [] ∧ sc.request = j.request ∧ sc.lock = j.lock ∧ before ++ own = j.own ∧ sc.wakes = [] := by
  cases p.placed with
  | inside added _ => simp only [idle,Bool.false_eq_true] at added
  | outside request still _ unmoved => exact ⟨rfl,request,still,unmoved idle⟩

theorem Progress.slotCons (p : Progress j before slot own sc) (added : sc.added = true) (held : j.type ≠ .unlck) :
    slot = [sc.request] := by
  cases p.placed with
  | inside => rfl
  | outside _ _ unlock _ => exact absurd (unlock added) held

section
variable (p : Progress j before slot (fl::own) sc)
include p

theorem Progress.apartBefore {n : Nat} (mem : n ∈ before) : Apart (piece (sc.lock n)) (piece (sc.lock fl)) := by
  have ordered := p.tidy.apart
  rw [piecesAppend] at ordered
  exact (pairwise_append.mp ordered).2.2 _ (pieceMem mem) _ (pieceMem mem_cons_self)

theorem Progress.apartAfter {n : Nat} (mem : n ∈ own) : Apart (piece (sc.lock fl)) (piece (sc.lock n)) := by
  have ordered := p.tidy.apart
  rw [piecesAppend] at ordered
  exact (pairwise_cons.mp (pairwise_append.mp ordered).2.1).1 _ (pieceMem mem)

theorem Progress.current : Taken j.owner (sc.lock fl) :=
  p.locks fl (mem_append_right _ mem_cons_self)

theorem Progress.notIdle (early : (sc.lock fl).flStart ≤ sc.asks.flStart) : sc.added = false := by
  cases added : sc.added with
  | false => rfl
  | true =>
    have := p.ahead added fl mem_cons_self
    omega

theorem Progress.apartIds : sc.request ≠ fl ∧
    (sc.request ∉ before ++ own) ∧ fl ∉ before ++ own ∧ (before ++ own).Nodup := by
  have distinct := p.distinct
  rw [nodup_cons,nodup_middle,nodup_cons] at distinct
  obtain ⟨outside,fresh,rest⟩ := distinct
  simp only [mem_append,mem_cons,not_or] at outside fresh ⊢
  exact ⟨outside.2.1,⟨outside.1,outside.2.2⟩,fresh,rest⟩

end

theorem subsetTail (before own : List Nat) (fl : Nat) : (before ++ own).Sublist (before ++ fl::own) :=
  List.Sublist.append (List.Sublist.refl before) (sublist_cons_self fl own)

theorem moveOne (before own : List Nat) (fl : Nat) : before ++ [fl] ++ own = before ++ fl::own := by
  simp

section
variable (p : Progress j before slot (fl::own) sc)
include p

theorem Progress.tailTidy : Tidy (pieces sc.lock (before ++ own)) :=
  p.tidy.sublist ((subsetTail before own fl).map _)

theorem Progress.locksTail : ∀ n ∈ before ++ own, Taken j.owner (sc.lock n) :=
  fun n mem => p.locks n ((subsetTail before own fl).subset mem)

theorem Progress.pass {added left} (idle : sc.added = false)
    (outcome : (added = false ∧ left = sc.left ∧ Apart (piece (sc.lock fl)) (piece sc.asks)) ∨
      (added = decide (j.type = .unlck) ∧ left = some fl ∧ (sc.lock fl).flType ≠ j.type ∧
        (sc.lock fl).flStart < sc.asks.flStart ∧ sc.asks.flStart ≤ (sc.lock fl).flEnd ∧
        (sc.lock fl).flEnd ≤ sc.asks.flEnd)) :
    Progress j (before ++ [fl]) slot own ({ sc with added := added, left := left }.pass fl) := by
  obtain ⟨rfl,request,still,unmoved,asleep⟩ := p.slotNil idle
  refine ⟨?_,p.asked,p.type,?_,?_,?_,?_,?_,?_,?_,p.others,?_,p.right,?_⟩
  · simp [Scan.pass,p.done]
  · rw [moveOne]
    exact p.locks
  · rw [moveOne]
    exact p.tidy
  · intro n mem notLeft
    simp only [Scan.pass] at notLeft ⊢
    rcases outcome with ⟨rfl,rfl,clear⟩ | ⟨rfl,rfl,_,early,_⟩
    · rcases mem_append.mp mem with old | new
      · exact p.apart n old notLeft
      · rw [mem_singleton.mp new]
        exact clear
    · rcases mem_append.mp mem with old | new
      · -- a straddling lock before this one would reach past the request's start
        refine p.apart n old fun was => ?_
        have reach := (p.left n was).2.2.2.1
        have order := (p.apartBefore old).1
        simp only [piece] at order
        omega
      · exact absurd (by rw [mem_singleton.mp new]) notLeft
  · intro n is
    rcases outcome with ⟨rfl,rfl,_⟩ | ⟨rfl,rfl,other,range⟩
    · exact ⟨mem_append_left _ (p.left n is).1,(p.left n is).2⟩
    · cases is
      exact ⟨mem_append_right _ (mem_singleton_self fl),other,range⟩
  · intro isAdded n mem
    show sc.asks.flStart < (sc.lock n).flStart
    rcases outcome with ⟨rfl,_,_⟩ | ⟨rfl,rfl,_,_,reach,_⟩
    · cases isAdded
    · have order := (p.apartAfter mem).1
      simp only [piece] at order
      omega
  · rw [moveOne]
    exact p.shows
  · simp only [moveOne]
    exact p.distinct
  · refine .outside request still ?_ fun quiet => ⟨by rw [moveOne]; exact unmoved,asleep⟩
    intro isAdded
    rcases outcome with ⟨rfl,_,_⟩ | ⟨rfl,_,_⟩
    · cases isAdded
    · exact of_decide_eq_true isAdded
  · intro unlock quiet
    rcases outcome with ⟨rfl,rfl,_⟩ | ⟨rfl,_,_⟩
    · exact p.engaged unlock idle
    · exact absurd unlock (of_decide_eq_false quiet)

theorem Progress.take {slot'} {sc' : Scan O}
    (done : sc'.done = j.pre ++ before ++ slot') (left : sc'.left = sc.left) (right : sc'.right = none)
    (same : ∀ n ∈ before ++ own, sc'.lock n = sc.lock n) (asked : Proper j.owner sc'.asks)
    (type : sc'.asks.flType = j.type) (low : sc'.asks.flStart = min sc.asks.flStart (sc.lock fl).flStart)
    (high : sc.asks.flEnd ≤ sc'.asks.flEnd)
    (kind : (sc.lock fl).flType = j.type ∨ sc.asks.flStart ≤ (sc.lock fl).flStart)
    (shows : ∀ x t, Over (piece sc'.asks) (j.type ≠ .unlck) (pieces sc.lock (before ++ own)) x t ↔
      j.target x t) (owners : ∀ n, (sc'.lock n).flOwner = (sc.lock n).flOwner) (away : sc'.request ∉ before ++ own)
    (placed : Placed j before own sc' slot') (busy : sc'.added = true) : Progress j before slot' own sc' := by
  have sameBefore : ∀ n ∈ before, sc'.lock n = sc.lock n := fun n mem => same n (mem_append_left _ mem)
  have sameOwn : ∀ n ∈ own, sc'.lock n = sc.lock n := fun n mem => same n (mem_append_right _ mem)
  refine ⟨done,asked,type,?_,?_,?_,?_,?_,?_,?_,?_,placed,right,fun _ quiet => absurd quiet (by simp [busy])⟩
  · intro n mem
    rw [same n mem]
    exact p.locksTail n mem
  · rw [piecesCongr same]
    exact p.tailTidy
  · intro n mem notLeft
    have first := p.apart n mem (left ▸ notLeft)
    have second := p.apartBefore mem
    simp only [piece,sameBefore n mem,low,type,p.type] at first second ⊢
    refine ⟨lt_min first.1 second.1,fun equal => ?_⟩
    rcases kind with match' | above
    · exact lt_min (first.2 equal) (second.2 (equal.trans match'.symm))
    · rw [min_eq_left above]
      exact first.2 equal
  · intro n is
    obtain ⟨mem,other,early,reach,covered⟩ := p.left n (left ▸ is)
    have order := (p.apartBefore mem).1
    simp only [piece] at order
    have unmoved : min sc.asks.flStart (sc.lock fl).flStart = sc.asks.flStart :=
      min_eq_left (by omega)
    rw [sameBefore n mem,low,unmoved]
    exact ⟨mem,other,early,reach,covered.trans high⟩
  · intro _ n mem
    have order := (p.apartAfter mem).1
    have filled := p.current.order
    simp only [piece] at order
    rw [sameOwn n mem]
    omega
  · intro x t
    rw [piecesCongr same]
    exact shows x t
  · exact nodup_cons.mpr ⟨away,p.apartIds.2.2.2⟩
  · intro n mem
    rw [owners]
    exact p.others n mem

end

end

section
variable {sc : Scan O} {fl}

theorem widenRequest : (sc.widen fl).lock sc.request = { sc.asks with
    flStart := min sc.asks.flStart (sc.lock fl).flStart
    flEnd := max sc.asks.flEnd (sc.lock fl).flEnd } := by
  simp only [Scan.asks,Scan.widen,update_self,Lock.mk.injEq,true_and]
  constructor <;> split <;> omega

theorem widenCurrent (apart : fl ≠ sc.request) : (sc.widen fl).lock fl = { sc.lock fl with
    flStart := min sc.asks.flStart (sc.lock fl).flStart
    flEnd := max sc.asks.flEnd (sc.lock fl).flEnd } := by
  simp only [Scan.asks,Scan.widen,update_of_ne apart,update_self,Lock.mk.injEq,true_and]
  constructor <;> split <;> omega

theorem widenOther {n} (notRequest : n ≠ sc.request) (notCurrent : n ≠ fl) : (sc.widen fl).lock n = sc.lock n := by
  simp [Scan.widen,update_of_ne notRequest,update_of_ne notCurrent]

theorem widenWider (n : Nat) : Wider (sc.lock n) ((sc.widen fl).lock n) := by
  by_cases atRequest : n = sc.request
  · subst atRequest
    rw [widenRequest]
    exact ⟨rfl,rfl,rfl,min_le_left _ _,le_max_left _ _⟩
  by_cases atCurrent : n = fl
  · subst atCurrent
    rw [widenCurrent atRequest]
    exact ⟨rfl,rfl,rfl,min_le_right _ _,le_max_right _ _⟩
  · rw [widenOther atRequest atCurrent]
    exact Wider.refl _

end

section
variable {j before slot own} {sc : Scan O} {fl}

theorem Proper.hull {o : O} {k k' : Lock O} (proper : Proper o k) (proper' : Proper o k') :
    Proper o { k with flStart := min k.flStart k'.flStart, flEnd := max k.flEnd k'.flEnd } :=
  ⟨proper.posix,proper.owner,le_min proper.low proper'.low,
    (min_le_left _ _).trans (proper.order.trans (le_max_left _ _)),max_le proper.high proper'.high⟩

theorem replaceCurrent : (sc.replace fl).lock fl = { sc.lock fl with
    flStart := sc.asks.flStart, flEnd := sc.asks.flEnd
    flType := sc.asks.flType } := by
  simp [Scan.replace]

theorem replaceOther {n} (other : n ≠ fl) : (sc.replace fl).lock n = sc.lock n := by
  simp [Scan.replace,update_of_ne other]

theorem replaceOwner (n : Nat) : ((sc.replace fl).lock n).flOwner = (sc.lock n).flOwner := by
  by_cases current : n = fl
  · rw [current,replaceCurrent]
  · rw [replaceOther current]

section
variable (p : Progress j before slot (fl::own) sc)
include p

theorem Progress.awayFrom {n} (mem : n ∈ before ++ own) : n ≠ sc.request ∧ n ≠ fl :=
  ⟨fun is => p.apartIds.2.1 (is ▸ mem),fun is => p.apartIds.2.2.1 (is ▸ mem)⟩

section
variable (same : (sc.lock fl).flType = j.type) (touchLeft : sc.asks.flStart - 1 ≤ (sc.lock fl).flEnd)
  (touchRight : (sc.lock fl).flStart - 1 ≤ sc.asks.flEnd)
include same touchLeft touchRight

theorem Progress.joined {k : Lock O} (low : k.flStart = min sc.asks.flStart (sc.lock fl).flStart)
    (high : k.flEnd = max sc.asks.flEnd (sc.lock fl).flEnd) (type : k.flType = j.type) (x : Int)
    (t : LockType) : Over (piece k) (j.type ≠ .unlck) (pieces sc.lock (before ++ own)) x t ↔ j.target x t := by
  have held := same ▸ p.current.held
  have tidy := p.tidy
  have shows := p.shows x t
  rw [piecesAppend] at tidy shows
  rw [piecesAppend,← shows]
  exact overJoin (p := piece sc.asks) (k := piece (sc.lock fl)) held tidy (same.trans p.type.symm)
    (type.trans p.type.symm) touchLeft touchRight low high x t

theorem Progress.merge (idle : sc.added = false) : Progress j before [fl] own ((sc.widen fl).become fl) := by
  obtain ⟨rfl,-⟩ := p.slotNil idle
  have apart := p.apartIds.1.symm
  have value := widenCurrent apart
  have hull : Proper j.owner ((sc.widen fl).lock fl) := by
    rw [widenCurrent apart,min_comm,max_comm]
    exact p.current.toProper.hull p.asked
  refine p.take ?_ rfl p.right ?_ hull ?_ ?_ ?_ (.inl same) ?_ (fun n => (widenWider n).owner) p.apartIds.2.2.1
    (.inside rfl (same ▸ p.current.held)) rfl
  · simp [Scan.become,Scan.widen,p.done]
  · exact fun n mem => widenOther (p.awayFrom mem).1 (p.awayFrom mem).2
  · exact (congrArg Lock.flType value).trans same
  · exact congrArg Lock.flStart value
  · exact (le_max_left _ _).trans_eq (congrArg Lock.flEnd value).symm
  · exact p.joined same touchLeft touchRight (congrArg Lock.flStart value) (congrArg Lock.flEnd value)
      ((congrArg Lock.flType value).trans same)

theorem Progress.absorb (added : sc.added = true) : Progress j before slot own ((sc.widen fl).delete fl) := by
  have held := same ▸ p.current.held
  obtain rfl := p.slotCons added held
  have value : ((sc.widen fl).delete fl).lock sc.request = _ := widenRequest
  have hull : Proper j.owner ((sc.widen fl).lock sc.request) := by
    rw [widenRequest]
    exact p.asked.hull p.current.toProper
  refine p.take p.done rfl p.right ?_ hull ?_ ?_ ?_ (.inl same) ?_ (fun n => (widenWider n).owner) p.apartIds.2.1
    (.inside added held) added
  · exact fun n mem => widenOther (p.awayFrom mem).1 (p.awayFrom mem).2
  · exact (congrArg Lock.flType value).trans p.type
  · exact congrArg Lock.flStart value
  · exact (le_max_left _ _).trans_eq (congrArg Lock.flEnd value).symm
  · exact p.joined same touchLeft touchRight (congrArg Lock.flStart value) (congrArg Lock.flEnd value)
      ((congrArg Lock.flType value).trans p.type)

end

section
variable (low : sc.asks.flStart ≤ (sc.lock fl).flStart) (high : (sc.lock fl).flEnd ≤ sc.asks.flEnd)
include low high

theorem Progress.covered {k : Lock O} (same : piece k = piece sc.asks) (x : Int) (t : LockType) :
    Over (piece k) (j.type ≠ .unlck) (pieces sc.lock (before ++ own)) x t ↔ j.target x t := by
  have shows := p.shows x t
  rw [piecesAppend] at shows
  rw [piecesAppend,← shows,same]
  exact overDrop low high x t

theorem Progress.replace (idle : sc.added = false) (held : j.type ≠ .unlck) :
    Progress j before [fl] own ((sc.replace fl).become fl) := by
  obtain ⟨rfl,-⟩ := p.slotNil idle
  have value : ((sc.replace fl).become fl).lock fl = _ := replaceCurrent
  have shown : piece (((sc.replace fl).become fl).lock fl) = piece sc.asks := by
    rw [value]
    rfl
  have proper : Proper j.owner ((sc.replace fl).lock fl) := by
    rw [replaceCurrent]
    exact ⟨p.current.posix,p.current.owner,p.asked.low,p.asked.order,p.asked.high⟩
  refine p.take ?_ rfl p.right ?_ proper ?_ ?_ ?_ (.inr low) ?_ replaceOwner p.apartIds.2.2.1
    (.inside rfl held) rfl
  · simp [Scan.become,Scan.replace,p.done]
  · exact fun n mem => replaceOther (p.awayFrom mem).2
  · exact (congrArg Lock.flType value).trans p.type
  · exact (congrArg Lock.flStart value).trans (min_eq_left low).symm
  · exact (congrArg Lock.flEnd value).ge
  · exact p.covered low high shown

theorem Progress.drop (added : sc.added = true ∨ j.type = .unlck) :
    Progress j before slot own ({ sc with added := true }.delete fl) := by
  refine p.take p.done rfl p.right (fun _ _ => rfl) p.asked p.type (min_eq_left low).symm le_rfl (.inr low)
    (p.covered low high rfl) (fun _ => rfl) p.apartIds.2.1 ?_ rfl
  cases p.placed with
  | inside _ held => exact .inside rfl held
  | outside request still unlock idle =>
    refine .outside request still (fun _ => ?_) fun quiet => ?_
    · exact added.elim unlock id
    · cases quiet

end
end

section
variable (t : Tracked j before slot (fl::own) sc)
include t

theorem Tracked.current : fl ∈ j.own :=
  t.within.subset (mem_append_right _ mem_cons_self)

variable {before' slot'} {sc' : Scan O} (frame : ∀ n, n ≠ sc.request → n ≠ fl → sc'.lock n = sc.lock n)
include frame

theorem Tracked.step (list : (before' ++ slot' ++ own).Sublist (before ++ slot ++ fl::own))
    (kept : ∀ n ∈ before ++ slot ++ fl::own, n ∈ sc'.wakes ∨
      n ∈ before' ++ slot' ++ own ∧ Wider (sc.lock n) (sc'.lock n))
    (request : sc'.request = sc.request ∨ sc'.request = fl)
    (wakes : ∀ n ∈ sc.wakes, n ∈ sc'.wakes) : Tracked j before' slot' own sc' := by
  refine ⟨fun n notRequest notOwn => ?_,list.trans t.within,fun n mem => ?_,?_⟩
  · have away : n ≠ sc.request := by
      rintro rfl
      exact t.request.elim notRequest notOwn
    rw [frame n away fun is => notOwn (is ▸ t.current)]
    exact t.frame n notRequest notOwn
  · rcases t.kept n mem with woken | ⟨listed,wider⟩
    · exact .inl (wakes n woken)
    · exact (kept n listed).imp id fun next => ⟨next.1,wider.trans next.2⟩
  · rcases request with same | moved
    · exact same ▸ t.request
    · exact .inr (moved ▸ t.current)

theorem Tracked.stay
    (same : before' ++ slot' ++ own = before ++ slot ++ fl::own) (wider : ∀ n, n ∈ sc'.wakes ∨ Wider (sc.lock n) (sc'.lock n))
    (request : sc'.request = sc.request ∨ sc'.request = fl) (wakes : ∀ n ∈ sc.wakes, n ∈ sc'.wakes) :
    Tracked j before' slot' own sc' :=
  t.step frame (same ▸ .refl _) (fun n mem => (wider n).imp_right fun wider => ⟨same ▸ mem,wider⟩) request wakes

theorem Tracked.delete (wider : ∀ n, Wider (sc.lock n) (sc'.lock n))
    (request : sc'.request = sc.request) (wakes : sc'.wakes = sc.wakes ++ [fl]) : Tracked j before slot own sc' := by
  refine t.step frame (subsetTail (before ++ slot) own fl) (fun n mem => ?_) (.inl request) (wakes ▸ fun _ => mem_append_left _)
  by_cases current : n = fl
  · left
    rw [wakes,current]
    exact mem_append_right _ (mem_singleton_self fl)
  · right
    simp only [mem_append,mem_cons,current,false_or] at mem ⊢
    exact ⟨mem,wider n⟩

end

section
variable (t : Tracked j before [] (fl::own) sc)
include t

theorem Tracked.pass (added : Bool) (left : Option Nat) :
    Tracked j (before ++ [fl]) [] own ({ sc with added := added, left := left }.pass fl) :=
  t.stay (fun _ _ _ => rfl) (by simp) (fun n => .inr (.refl _)) (.inl rfl) fun _ => id

theorem Tracked.merge : Tracked j before [fl] own ((sc.widen fl).become fl) :=
  t.stay (fun _ => widenOther) (by simp) (fun n => .inr (widenWider n)) (.inr rfl) fun _ => id

theorem Tracked.replace : Tracked j before [fl] own ((sc.replace fl).become fl) := by
  refine t.stay (fun n _ => replaceOther) (by simp) (fun n => ?_) (.inr rfl) fun _ => mem_append_left _
  by_cases current : n = fl
  · left
    rw [current]
    exact mem_append_right _ (mem_singleton_self fl)
  · have unchanged : ((sc.replace fl).become fl).lock n = sc.lock n := replaceOther current
    rw [unchanged]
    exact .inr (.refl _)

end

inductive Ended (j : Job O) (own : List Nat) (sc : Scan O) : Scan O → Prop
  | stop (clear : ∀ n ∈ own, Apart (piece sc.asks) (piece (sc.lock n))) :
      Ended j own sc { sc with rest := own ++ j.post }
  | cut (fl : Nat) (later : List Nat) (first : own = fl::later) (other : (sc.lock fl).flType ≠ j.type)
      (reach : sc.asks.flStart ≤ (sc.lock fl).flEnd) (low : (sc.lock fl).flStart ≤ sc.asks.flEnd)
      (high : sc.asks.flEnd < (sc.lock fl).flEnd) :
      Ended j own sc { sc.overlap fl with rest := own ++ j.post, right := some fl }

theorem Progress.clearFrom (p : Progress j before slot (fl::own) sc)
    (first : Apart (piece sc.asks) (piece (sc.lock fl))) :
    ∀ n ∈ fl::own, Apart (piece sc.asks) (piece (sc.lock n)) := by
  refine forall_mem_cons.mpr ⟨first,fun n later => ?_⟩
  have gap := first.trans p.current.order (p.apartAfter later)
  exact ⟨by omega,fun _ => gap⟩

theorem overlapSame (held : sc.asks.flType ≠ .unlck)
    (low : sc.asks.flStart ≤ (sc.lock fl).flStart) : sc.overlap fl = sc := by
  simp [Scan.overlap,held,if_neg (not_lt.mpr low)]

theorem overlapAdded (added : sc.added = true ∨ sc.asks.flType = .unlck)
    (low : sc.asks.flStart ≤ (sc.lock fl).flStart) : sc.overlap fl = { sc with added := true } := by
  have set : (sc.added || decide (sc.asks.flType = .unlck)) = true := by
    rcases added with is | is <;> simp [is]
  simp [Scan.overlap,set,if_neg (not_lt.mpr low)]

theorem overlapLeft (idle : sc.added = false) (low : (sc.lock fl).flStart < sc.asks.flStart) :
    sc.overlap fl = { sc with added := decide (sc.asks.flType = .unlck), left := some fl } := by
  simp [Scan.overlap,idle,if_pos low]

end

variable [DecidableEq O] {j : Job O} {before slot own fl sc}

def Round (j : Job O) (own : List Nat) (fl : Nat) (sc : Scan O) : Prop :=
  (∃ before' slot' sc', Progress j before' slot' own sc' ∧ Tracked j before' slot' own sc' ∧
    processLocks sc (fl::(own ++ j.post)) = processLocks sc' (own ++ j.post)) ∨
  Ended j (fl::own) sc (processLocks sc (fl::(own ++ j.post)))

section
variable (p : Progress j before slot (fl::own) sc) (t : Tracked j before slot (fl::own) sc)
  (owner : posixSameOwner sc.asks (sc.lock fl) = true)
include p t owner

theorem roundSame (same : sc.asks.flType = (sc.lock fl).flType) : Round j own fl sc := by
  have kind := same.symm.trans p.type
  simp only [Round,processLocks,owner,if_pos same]
  by_cases early : (sc.lock fl).flEnd < sc.asks.flStart - 1
  · rw [if_pos early]
    have idle := p.notIdle (by have := p.current.order; omega)
    obtain ⟨rfl,-⟩ := p.slotNil idle
    have clear : Apart (piece (sc.lock fl)) (piece sc.asks) := by
      refine ⟨?_,fun _ => ?_⟩ <;> simp only [piece] <;> omega
    exact .inl ⟨_,_,_,p.pass idle (.inl ⟨idle,rfl,clear⟩),t.pass sc.added sc.left,rfl⟩
  rw [if_neg early]
  by_cases late : (sc.lock fl).flStart - 1 > sc.asks.flEnd
  · rw [if_pos late]
    refine .inr (.stop (p.clearFrom ⟨?_,fun _ => ?_⟩)) <;> simp only [piece] <;> omega
  rw [if_neg late]
  by_cases added : sc.added = true
  · rw [if_pos added]
    exact .inl ⟨_,_,_,p.absorb kind (by omega) (by omega) added,
      t.delete (fun _ => widenOther) widenWider rfl rfl,rfl⟩
  rw [if_neg added]
  have idle := Bool.eq_false_iff.mpr added
  obtain ⟨rfl,-⟩ := p.slotNil idle
  exact .inl ⟨_,_,_,p.merge kind (by omega) (by omega) idle,t.merge,rfl⟩

theorem roundOther (different : sc.asks.flType ≠ (sc.lock fl).flType) : Round j own fl sc := by
  have type := p.type
  have other : (sc.lock fl).flType ≠ j.type := fun is => different (type.trans is.symm)
  simp only [Round,processLocks,owner,if_neg different]
  by_cases early : (sc.lock fl).flEnd < sc.asks.flStart
  · rw [if_pos early]
    have idle := p.notIdle (by have := p.current.order; omega)
    obtain ⟨rfl,-⟩ := p.slotNil idle
    exact .inl ⟨_,_,_,p.pass idle (.inl ⟨idle,rfl,early,fun is => absurd is.symm different⟩),t.pass sc.added sc.left,rfl⟩
  rw [if_neg early]
  by_cases late : (sc.lock fl).flStart > sc.asks.flEnd
  · rw [if_pos late]
    exact .inr (.stop (p.clearFrom ⟨late,fun is => absurd is different⟩))
  rw [if_neg late]
  by_cases beyond : (sc.lock fl).flEnd > sc.asks.flEnd
  · rw [if_pos beyond]
    exact .inr (.cut fl own rfl other (by omega) (by omega) beyond)
  rw [if_neg beyond]
  by_cases inside : (sc.lock fl).flStart ≥ sc.asks.flStart
  · rw [if_pos inside]
    by_cases added : sc.added = true ∨ sc.asks.flType = .unlck
    · rw [overlapAdded added inside]
      exact .inl ⟨_,_,_,p.drop inside (by omega) (added.imp id (type ▸ ·)),
        t.delete (fun _ _ _ => rfl) (fun n => Wider.refl _) rfl rfl,rfl⟩
    obtain ⟨notAdded,held⟩ := not_or.mp added
    have idle := Bool.eq_false_iff.mpr notAdded
    rw [overlapSame held inside,if_neg notAdded]
    obtain ⟨rfl,-⟩ := p.slotNil idle
    exact .inl ⟨_,_,_,p.replace inside (by omega) idle (type ▸ held),t.replace,rfl⟩
  · rw [if_neg inside]
    have idle := p.notIdle (by omega)
    obtain ⟨rfl,-⟩ := p.slotNil idle
    rw [overlapLeft idle (by omega),type]
    exact .inl ⟨_,_,_,p.pass idle (.inr ⟨rfl,rfl,other,by omega,by omega,by omega⟩),t.pass _ _,rfl⟩

end

theorem processEnds (own : List Nat) : ∀ {before slot sc}, Progress j before slot own sc →
    Tracked j before slot own sc → ∃ before' slot' own' sc', Progress j before' slot' own' sc' ∧
      Tracked j before' slot' own' sc' ∧ Ended j own' sc' (processLocks sc (own ++ j.post)) := by
  induction own with
  | nil =>
    intro before slot sc p t
    refine ⟨before,slot,[],sc,p,t,?_⟩
    have ends : processLocks sc ([] ++ j.post) = { sc with rest := [] ++ j.post } := by
      cases rest : j.post with
      | nil => rfl
      | cons n later =>
        have other : sc.asks.flOwner ≠ (sc.lock n).flOwner := by
          rw [p.asked.owner]
          exact (p.others n (rest ▸ mem_cons_self)).symm
        simp [processLocks,posixSameOwner,other]
    rw [ends]
    exact .stop fun n mem => absurd mem not_mem_nil
  | cons fl own ih =>
    intro before slot sc p t
    have owner := decide_eq_true (p.asked.owner.trans p.current.owner.symm)
    have round : Round j own fl sc := by
      by_cases same : sc.asks.flType = (sc.lock fl).flType
      · exact roundSame p t owner same
      · exact roundOther p t owner same
    rw [cons_append]
    rcases round with ⟨_,_,_,next,tracked,onward⟩ | ended
    · rw [onward]
      exact ih next tracked
    · exact ⟨before,slot,fl::own,sc,p,t,ended⟩

end EclairKernel.FileLock
