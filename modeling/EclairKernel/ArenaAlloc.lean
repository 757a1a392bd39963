import EclairKernel.Arena
import EclairKernel.RbtreeBalance

/-! The shape of the arena: the buffer list tiles the area and the two trees hold
its free and its allocated buffers. `Shape p hole` lets one free buffer stand
outside the free tree, which is how binder_free_buf holds it while it merges. -/
namespace EclairKernel.Arena
open List Nat Rbtree

section
variable {left right right' b x y new}

theorem nextAppendRight (outside : x ∉ left) : nextBuffer (left ++ right) x = nextBuffer right x := by
  induction left with
  | nil => rfl
  | cons z rest ih =>
    obtain ⟨other,outside⟩ := not_or.mp (mem_cons.not.mp outside)
    simp only [cons_append,nextBuffer,if_neg (Ne.symm other)]
    exact ih outside

theorem nextAppendLeft (inside : x ∈ left) : nextBuffer (left ++ y::right) x = nextBuffer (left ++ y::right') x := by
  induction left with
  | nil => simp at inside
  | cons z rest ih =>
    simp only [cons_append,nextBuffer]
    split
    · cases rest <;> rfl
    · rename_i other
      exact ih ((mem_cons.mp inside).resolve_left (Ne.symm other))

theorem nextHere (outside : b ∉ left) : nextBuffer (left ++ b::right) b = right.head? := by
  rw [nextAppendRight outside]
  simp [nextBuffer]

theorem nextMember {l} (next : nextBuffer l x = some y) : y ∈ l := by
  induction l with
  | nil => simp [nextBuffer] at next
  | cons z rest ih =>
    simp only [nextBuffer] at next
    split at next
    · exact mem_cons_of_mem _ (mem_of_mem_head? next)
    · exact mem_cons_of_mem _ (ih next)

theorem prevHere (before : b ∉ left) (behind : b ∉ right) : prevBuffer (left ++ b::right) b = left.getLast? := by
  have first : ∀ {l : List Nat} {z : Nat}, b ∉ l → prevBuffer (z::l) b = none := by
    intro l z outside
    induction l generalizing z with
    | nil => rfl
    | cons w rest ih =>
      obtain ⟨other,outside⟩ := not_or.mp (mem_cons.not.mp outside)
      simp only [prevBuffer,if_neg (Ne.symm other)]
      exact ih outside
  induction left with
  | nil => exact first behind
  | cons z rest ih =>
    obtain ⟨other,outside⟩ := not_or.mp (mem_cons.not.mp before)
    cases rest with
    | nil => simp [prevBuffer]
    | cons w rest =>
      have apart : w ≠ b := fun same => outside (same ▸ mem_cons_self)
      simp only [cons_append,prevBuffer,if_neg apart]
      rw [← cons_append,ih outside]
      simp

theorem listAddHere (outside : b ∉ left) : listAdd new b (left ++ b::right) = left ++ b::new::right := by
  induction left with
  | nil => simp [listAdd]
  | cons z rest ih =>
    obtain ⟨other,outside⟩ := not_or.mp (mem_cons.not.mp outside)
    simp [listAdd,if_neg (Ne.symm other),ih outside]

end

def Spaced (l : List Nat) : Prop := l.Pairwise (fun x y => x + headerSize ≤ y)

variable {l left right b} {p q : Proc}

theorem spacedNodup (spaced : Spaced l) : l.Nodup := by
  refine spaced.imp ?_
  intro x y apart same
  simp only [headerSize] at apart
  omega

structure Around (l left : List Nat) (b : Nat) (right : List Nat) : Prop where
  split : l = left ++ b::right
  before : b ∉ left
  behind : b ∉ right
  apart : ∀ x ∈ left, x ∉ b::right

theorem aroundMember (spaced : Spaced l) (mem : b ∈ l) : ∃ left right, Around l left b right := by
  obtain ⟨left,right,rfl⟩ := append_of_mem mem
  have nodup := spacedNodup spaced
  obtain ⟨_,rest,across⟩ := nodup_append.mp nodup
  refine ⟨left,right,rfl,fun h => across b h b mem_cons_self rfl,(nodup_cons.mp rest).1,?_⟩
  exact fun x hx bad => across x hx x bad rfl

theorem aroundSpaced (around : Around l left b right) (spaced : Spaced l) :
    Spaced left ∧ Spaced right ∧ (∀ x ∈ left, x + headerSize ≤ b) ∧ (∀ y ∈ right, b + headerSize ≤ y) ∧
    ∀ x ∈ left, ∀ y ∈ right, x + headerSize ≤ y := by
  rw [around.split] at spaced
  obtain ⟨before,rest,across⟩ := pairwise_append.mp spaced
  obtain ⟨behind,after⟩ := pairwise_cons.mp rest
  exact ⟨before,after,fun x hx => across x hx b mem_cons_self,behind,
    fun x hx y hy => across x hx y (mem_cons_of_mem _ hy)⟩

def regionEnd (p : Proc) (b : Nat) : Nat := (nextBuffer p.buffers b).getD (p.buffer + p.bufferSize)

theorem bufferSizeRegion (p : Proc) (b : Nat) : binderBufferSize p b = regionEnd p b - (b + headerSize) := rfl

structure Tiled (p : Proc) : Prop where
  first : p.buffers.head? = some p.buffer
  spaced : Spaced p.buffers
  fits : ∀ b ∈ p.buffers, b + headerSize ≤ p.buffer + p.bufferSize

structure Shape (p : Proc) (hole : Option Nat) : Prop extends Tiled p where
  free : Holds p.freeBuffers (fun b => b ∈ p.buffers ∧ (p.header b).free = true ∧ hole ≠ some b)
    (fun x y => binderBufferSize p x ≤ binderBufferSize p y)
  allocated : Holds p.allocatedBuffers (fun b => b ∈ p.buffers ∧ (p.header b).free = false) (· < ·)
  apart : ∀ x ∈ p.buffers, ∀ y, nextBuffer p.buffers x = some y → (p.header x).free = true →
    (p.header y).free = true → hole = some x ∨ hole = some y

theorem takenNe {x y} (free : (p.header x).free = true) (taken : (p.header y).free = false) : y ≠ x := by
  rintro rfl
  cases free.symm.trans taken

def roundUp (x : Nat) : Nat := (x + 3) / 4 * 4

def Room (p : Proc) : Prop := ∀ b ∈ p.buffers, (p.header b).free = false →
  roundUp (p.header b).dataSize + roundUp (p.header b).offsetsSize ≤ binderBufferSize p b

structure Same (p p' : Proc) : Prop where
  buffer : p'.buffer = p.buffer
  bufferSize : p'.bufferSize = p.bufferSize

theorem sameTrans {r} (first : Same p q) (second : Same q r) : Same p r :=
  ⟨second.buffer.trans first.buffer,second.bufferSize.trans first.bufferSize⟩

theorem regionCongr (buffers : q.buffers = p.buffers) (same : Same p q) (b : Nat) :
    regionEnd q b = regionEnd p b := by
  rw [regionEnd,regionEnd,buffers,same.buffer,same.bufferSize]

theorem shapeCongr {hole} (shape : Shape p hole) (same : Same p q)
    (buffers : q.buffers = p.buffers) (free : q.freeBuffers = p.freeBuffers)
    (allocated : q.allocatedBuffers = p.allocatedBuffers)
    (flags : ∀ b, (q.header b).free = (p.header b).free) : Shape q hole := by
  have sizes : ∀ b, binderBufferSize q b = binderBufferSize p b := by
    intro b
    rw [bufferSizeRegion,regionCongr buffers same,bufferSizeRegion]
  refine ⟨⟨?_,?_,?_⟩,?_,?_,?_⟩
  · rw [buffers,same.buffer,shape.first]
  · rw [buffers]
    exact shape.spaced
  · rw [buffers,same.buffer,same.bufferSize]
    exact shape.fits
  · simpa [free,buffers,flags,sizes] using shape.free
  · simpa [allocated,buffers,flags] using shape.allocated
  · simpa [buffers,flags] using shape.apart

section
variable (tiled : Tiled p)
include tiled

theorem regionRoom (mem : b ∈ p.buffers) :
    b + headerSize ≤ regionEnd p b ∧ regionEnd p b ≤ p.buffer + p.bufferSize := by
  obtain ⟨left,right,around⟩ := aroundMember tiled.spaced mem
  have spaced := aroundSpaced around tiled.spaced
  rw [regionEnd,around.split,nextHere around.before]
  cases right with
  | nil => exact ⟨tiled.fits b mem,le_rfl⟩
  | cons n rest =>
    have inside := tiled.fits n (by rw [around.split]; simp)
    exact ⟨spaced.2.2.2.1 n mem_cons_self,le_trans (Nat.le_add_right _ _) inside⟩

theorem nextAbove {x y} (mem : x ∈ p.buffers)
    (next : nextBuffer p.buffers x = some y) : x + headerSize ≤ y := by
  have room := (regionRoom tiled mem).1
  rwa [regionEnd,next] at room

theorem regionBehind (around : Around p.buffers left b right) : ∀ y ∈ right, regionEnd p b ≤ y := by
  have spaced := (aroundSpaced around tiled.spaced).2.1
  rw [regionEnd,around.split,nextHere around.before]
  cases right with
  | nil => simp
  | cons n rest =>
    refine forall_mem_cons.mpr ⟨le_rfl,fun y later => ?_⟩
    exact le_trans (Nat.le_add_right _ _) ((pairwise_cons.mp spaced).1 y later)

theorem regionsApart {x y} (memX : x ∈ p.buffers)
    (memY : y ∈ p.buffers) (order : x < y) : regionEnd p x ≤ y := by
  obtain ⟨left,right,around⟩ := aroundMember tiled.spaced memX
  have before := (aroundSpaced around tiled.spaced).2.2.1
  refine regionBehind tiled around y ?_
  rcases mem_append.mp (around.split ▸ memY) with inside | inside
  · have := before y inside
    omega
  · exact (mem_cons.mp inside).resolve_left (by omega)

theorem bufferLow (mem : b ∈ p.buffers) : p.buffer ≤ b := by
  have spaced := tiled.spaced
  have first := tiled.first
  cases list : p.buffers with
  | nil => simp [list] at mem
  | cons x rest =>
    rw [list] at first mem spaced
    cases first
    rcases mem_cons.mp mem with same | later
    · exact le_of_eq same.symm
    · exact le_trans (Nat.le_add_right _ _) ((pairwise_cons.mp spaced).1 b later)

theorem regionSize (mem : b ∈ p.buffers) : b + headerSize + binderBufferSize p b = regionEnd p b := by
  exact add_sub_of_le (regionRoom tiled mem).1

end

structure Inserted (l l' : List Nat) (b extra : Nat) : Prop where
  spaced : Spaced l'
  head : l'.head? = l.head?
  here : b ∈ l
  fresh : extra ∉ l
  members : ∀ y, y ∈ l' ↔ y ∈ l ∨ y = extra
  following : ∀ y ∈ l, y ≠ b → nextBuffer l' y = nextBuffer l y
  own : nextBuffer l' b = some extra
  behind : nextBuffer l' extra = nextBuffer l b
  prev : prevBuffer l' extra = some b
  erase : l'.erase extra = l

theorem insertedSplit {extra} (spaced : Spaced (left ++ b::extra::right)) :
    Inserted (left ++ b::right) (left ++ b::extra::right) b extra := by
  obtain ⟨_,nodup,across⟩ := nodup_append.mp (spacedNodup spaced)
  obtain ⟨notExtra,nodup⟩ := nodup_cons.mp nodup
  have outside : b ∉ left := fun bad => across b bad b (by simp) rfl
  have fresh : extra ∉ left ++ b::right := by
    intro bad
    rcases mem_append.mp bad with inside | inside
    · exact across extra inside extra (by simp) rfl
    rcases mem_cons.mp inside with rfl | inside
    · exact notExtra (by simp)
    · exact (nodup_cons.mp nodup).1 inside
  have notBefore : extra ∉ left ++ [b] := fun bad =>
    fresh (append_cons left b right ▸ mem_append_left right bad)
  have notBehind : extra ∉ right := fun bad => fresh (by simp [bad])
  refine ⟨spaced,by cases left <;> rfl,by simp,fresh,?_,?_,?_,?_,?_,?_⟩
  · simp only [mem_append,mem_cons]
    tauto
  · intro y mem other
    rcases mem_append.mp mem with inside | behind
    · exact nextAppendLeft inside
    have behind := (mem_cons.mp behind).resolve_left other
    have notLeft : y ∉ left := fun inside => across y inside y (by simp [behind]) rfl
    have new : y ≠ extra := fun same => fresh (same ▸ mem)
    rw [nextAppendRight notLeft,nextAppendRight notLeft]
    simp [nextBuffer,Ne.symm other,Ne.symm new]
  · rw [nextHere outside]
    rfl
  · rw [nextHere outside,append_cons,nextHere notBefore]
  · rw [append_cons,prevHere notBefore notBehind]
    simp
  · rw [append_cons,erase_append_right _ notBefore]
    simp

theorem insertedNext {n} (spaced : Spaced l) (mem : b ∈ l) (next : nextBuffer l b = some n) :
    ∃ without, Inserted without l b n := by
  obtain ⟨left,right,around⟩ := aroundMember spaced mem
  rw [around.split,nextHere around.before] at next
  cases right with
  | nil => simp at next
  | cons y rest =>
    cases next
    refine ⟨left ++ b::rest,?_⟩
    rw [around.split] at spaced ⊢
    exact insertedSplit spaced

theorem insertedPrev {prev} (spaced : Spaced l) (mem : b ∈ l)
    (before : prevBuffer l b = some prev) : ∃ without, Inserted without l prev b := by
  obtain ⟨left,right,around⟩ := aroundMember spaced mem
  rw [around.split,prevHere around.before around.behind] at before
  obtain ⟨first,rfl⟩ := List.getLast?_eq_some_iff.mp before
  refine ⟨first ++ prev::right,?_⟩
  rw [around.split,append_assoc] at spaced ⊢
  exact insertedSplit spaced

structure Alone (p : Proc) (b : Nat) : Prop where
  next : ∀ y, nextBuffer p.buffers b = some y → (p.header y).free = false
  prev : ∀ x ∈ p.buffers, nextBuffer p.buffers x = some b → (p.header x).free = false

theorem aloneOfFree (shape : Shape p none) (mem : b ∈ p.buffers) (free : (p.header b).free = true) : Alone p b := by
  constructor
  · intro y next
    by_contra bad
    simpa using shape.apart b mem y next free (by simpa using bad)
  · intro x hx next
    by_contra bad
    simpa using shape.apart x hx b next (by simpa using bad) free

theorem insertFreeShape (shape : Shape p (some b)) (mem : b ∈ p.buffers)
    (free : (p.header b).free = true) (alone : Alone p b) :
    ∃ t, binderInsertFreeBuffer p b = some (setFreeBuffers p t) ∧ Shape (setFreeBuffers p t) none := by
  have monotone : ∀ x y, binderBufferSize p x ≤ binderBufferSize p y →
      decide (binderBufferSize p b < binderBufferSize p x) = true →
      decide (binderBufferSize p b < binderBufferSize p y) = true := by
    intro x y order before
    simp only [decide_eq_true_eq] at before ⊢
    omega
  obtain ⟨t,inserted,holds⟩ := holdsInsert
    (fun y => if (p.header y).free = false then none
      else some (decide (binderBufferSize p b < binderBufferSize p y)))
    (fun y => decide (binderBufferSize p b < binderBufferSize p y)) (x := b) shape.free
    (by simp) (fun y hy => by simp [hy.2.1]) (fun x y _ _ => monotone x y)
    (fun y _ after => by simpa using after)
    (fun y _ before => le_of_lt (by simpa using before))
  refine ⟨t,by simp [binderInsertFreeBuffer,free,inserted],⟨shape.first,shape.spaced,shape.fits⟩,?_,
    shape.allocated,?_⟩
  · refine holdsSame holds ?_
    intro y
    by_cases same : y = b
    · simp [same,mem,free]
    · simp [same,Ne.symm same]
  · intro x hx y next freeX freeY
    rcases shape.apart x hx y next freeX freeY with same | same
    · cases same
      simp [alone.next y next] at freeY
    · cases same
      simp [alone.prev x hx next] at freeX

theorem insertAllocatedHolds {S} (holds : Holds p.allocatedBuffers S (· < ·))
    (fresh : ¬ S b) (taken : (p.header b).free = false) (members : ∀ y, S y → (p.header y).free = false) :
    ∃ t, binderInsertAllocatedBuffer p b = some (setAllocatedBuffers p t) ∧
      Holds t (fun y => y = b ∨ S y) (· < ·) := by
  have other : ∀ y, S y → y ≠ b := fun y hy same => fresh (same ▸ hy)
  have total : ∀ y, S y → (if (p.header y).free then none else if b < y then some true
      else if y < b then some false else none) = some (decide (b < y)) := by
    intro y hy
    have apart := other y hy
    simp only [members y hy]
    by_cases below : b < y
    · simp [below]
    · have above : y < b := by omega
      simp [below,above]
  obtain ⟨t,inserted,result⟩ := holdsInsert _ (fun y => decide (b < y)) holds fresh total
    (fun x y _ _ order before => by simp only [decide_eq_true_eq] at before ⊢; omega)
    (fun y hy after => by
      have := other y hy
      simp only [decide_eq_false_iff_not] at after
      omega)
    (fun y _ before => by simpa using before)
  exact ⟨t,by simp [binderInsertAllocatedBuffer,taken,inserted],result⟩

/-! binder_alloc_buf keeps the shape of the arena: the best fit is taken out of
the free tree and its tail, when there is room for a header, goes back in. -/

open Option

structure Fits (p : Proc) (size : Nat) (out : Option Nat × Bool) : Prop where
  exactly : out.2 = true → ∃ b, out.1 = some b ∧ binderBufferSize p b = size
  larger : out.2 = false → ∀ b, out.1 = some b → size < binderBufferSize p b

theorem fitLoopFits (p : Proc) (size : Nat) {t} (best : Option Nat) {S : Nat → Prop}
    (members : ∀ b ∈ inorder t, S b) (free : ∀ b, S b → (p.header b).free = true)
    (start : ∀ b, best = some b → S b ∧ size < binderBufferSize p b) :
    ∃ out, fitLoop p size t best = some out ∧ Fits p size out ∧ ∀ b, out.1 = some b → S b := by
  induction t generalizing best with
  | leaf => exact ⟨_,rfl,⟨by simp,fun _ b h => (start b h).2⟩,fun b h => (start b h).1⟩
  | node c l x r ihl ihr =>
    simp only [inorder,mem_append,mem_cons] at members
    have here := members x (.inr (.inl rfl))
    simp only [fitLoop,free x here,Bool.true_eq_false,if_false]
    split
    · rename_i smaller
      exact ihl _ (fun b hb => members b (.inl hb)) fun b same => some.inj same ▸ ⟨here,smaller⟩
    split
    · exact ihr _ (fun b hb => members b (.inr (.inr hb))) start
    exact ⟨_,rfl,⟨fun _ => ⟨x,rfl,by omega⟩,by simp⟩,fun b same => some.inj same ▸ here⟩

theorem takeShape (shape : Shape p none) (mem : b ∈ p.buffers) (free : (p.header b).free = true) :
    ∃ tf ta, eraseElem b p.freeBuffers = some tf ∧
      binderInsertAllocatedBuffer (setHeader (setFreeBuffers p tf) b ((p.header b).setFree false)) b =
        some (setAllocatedBuffers (setHeader (setFreeBuffers p tf) b ((p.header b).setFree false)) ta) ∧
      Shape (setAllocatedBuffers (setHeader (setFreeBuffers p tf) b ((p.header b).setFree false)) ta) none := by
  obtain ⟨tf,erased,freeHolds⟩ := holdsErase shape.free ⟨mem,free,by simp⟩
  obtain ⟨ta,inserted,taken⟩ := insertAllocatedHolds
    (p := setHeader (setFreeBuffers p tf) b ((p.header b).setFree false)) (b := b) shape.allocated
    (by simp [free]) (by simp) (by
      intro y hy
      simp only [setHeader_header]
      split
      · rfl
      · exact hy.2)
  refine ⟨tf,ta,erased,inserted,⟨shape.first,shape.spaced,shape.fits⟩,?_,?_,?_⟩
  · refine holdsSame freeHolds ?_
    intro y
    by_cases same : y = b <;> simp [same]
  · refine holdsSame taken ?_
    intro y
    by_cases same : y = b <;> simp [same,mem]
  · intro x hx y next freeX freeY
    simp only [setAllocatedBuffers_header,setHeader_header] at freeX freeY
    split at freeX <;> try contradiction
    split at freeY <;> try contradiction
    exact shape.apart x hx y next freeX freeY

theorem listAddInserted (shape : Shape p none) (new : Nat) (mem : b ∈ p.buffers)
    (start : b + headerSize ≤ new) (stop : new + headerSize ≤ regionEnd p b) :
    Inserted p.buffers (listAdd new b p.buffers) b new := by
  obtain ⟨left,right,around⟩ := aroundMember shape.spaced mem
  obtain ⟨spacedLeft,spacedRight,before,behind,across⟩ := aroundSpaced around shape.spaced
  have ahead : ∀ y ∈ right, new + headerSize ≤ y :=
    fun y hy => le_trans stop (regionBehind shape.toTiled around y hy)
  rw [around.split,listAddHere around.before]
  refine insertedSplit (pairwise_append.mpr
    ⟨spacedLeft,pairwise_cons.mpr ⟨forall_mem_cons.mpr ⟨start,behind⟩,pairwise_cons.mpr ⟨ahead,spacedRight⟩⟩,?_⟩)
  intro x hx
  have first := before x hx
  exact forall_mem_cons.mpr ⟨first,forall_mem_cons.mpr ⟨by omega,across x hx⟩⟩

theorem splitShape (shape : Shape p none) {new h l}
    (inserted : Inserted p.buffers l b new) (taken : (p.header b).free = false)
    (next : ∀ y, nextBuffer p.buffers b = some y → (p.header y).free = false)
    (free : h.free = true) (stop : new + headerSize ≤ regionEnd p b) :
    ∃ t, binderInsertFreeBuffer (setHeader (setBuffers p l) new h) new =
        some (setFreeBuffers (setHeader (setBuffers p l) new h) t) ∧
      Shape (setFreeBuffers (setHeader (setBuffers p l) new h) t) none := by
  have fitsEnd := (regionRoom shape.toTiled inserted.here).2
  generalize result : setHeader (setBuffers p l) new h = q
  have buffers : q.buffers = l := by simp [← result]
  have members := inserted.members
  have headers : ∀ y ∈ p.buffers, q.header y = p.header y := by
    intro y hy
    have other : y ≠ new := fun same => inserted.fresh (same ▸ hy)
    simp [← result,other]
  have freed : (q.header new).free = true := by simp [← result,free]
  have sizes : ∀ y ∈ p.buffers, (p.header y).free = true → binderBufferSize q y = binderBufferSize p y := by
    intro y hy freeY
    have other := (takenNe freeY taken).symm
    rw [binderBufferSize,buffers,inserted.following y hy other]
    simp [← result,binderBufferSize]
  have holed : Shape q (some new) := by
    refine ⟨⟨?_,?_,?_⟩,?_,?_,?_⟩
    · rw [buffers,inserted.head,shape.first]
      simp [← result]
    · rw [buffers]
      exact inserted.spaced
    · intro y hy
      have bounds : q.buffer + q.bufferSize = p.buffer + p.bufferSize := by simp [← result]
      rw [bounds]
      rcases (members y).mp (buffers ▸ hy) with old | rfl
      · exact shape.fits y old
      · exact le_trans stop fitsEnd
    · have tree : q.freeBuffers = p.freeBuffers := by simp [← result]
      rw [tree]
      refine holdsCongr shape.free ?_ ?_
      · intro y
        rw [buffers,members]
        by_cases old : y ∈ p.buffers
        · have other : new ≠ y := fun same => inserted.fresh (same ▸ old)
          simp [headers y old,old,other]
        · by_cases same : y = new
          · simp [same,inserted.fresh]
          · simp [old,same]
      · intro x y hx hy order
        rwa [sizes x hx.1 hx.2.1,sizes y hy.1 hy.2.1]
    · have tree : q.allocatedBuffers = p.allocatedBuffers := by simp [← result]
      rw [tree]
      refine holdsSame shape.allocated ?_
      intro y
      rw [buffers,members]
      by_cases old : y ∈ p.buffers
      · simp [headers y old,old]
      · by_cases same : y = new
        · simp [same,inserted.fresh,freed]
        · simp [old,same]
    · intro x hx y next freeX freeY
      rw [buffers] at hx next
      rcases (members x).mp hx with oldX | same
      · rw [headers x oldX] at freeX
        have other := (takenNe freeX taken).symm
        rw [inserted.following x oldX other] at next
        have oldY := nextMember next
        rw [headers y oldY] at freeY
        simpa using shape.apart x oldX y next freeX freeY
      · exact .inl (by rw [same])
  have alone : Alone q new := by
    constructor
    · intro y behindY
      rw [buffers,inserted.behind] at behindY
      rw [headers y (nextMember behindY)]
      exact next y behindY
    · intro x hx ahead
      rw [buffers] at hx ahead
      by_cases same : x = b
      · rw [same,headers b inserted.here,taken]
      exfalso
      rcases (members x).mp hx with old | rfl
      · rw [inserted.following x old same] at ahead
        exact inserted.fresh (nextMember ahead)
      · rw [inserted.behind] at ahead
        exact inserted.fresh (nextMember ahead)
  exact insertFreeShape holed (buffers ▸ (members new).mpr (.inr rfl)) freed alone

structure Taken (p p' : Proc) (b : Nat) (new : Option Nat) : Prop where
  same : Same p p'
  pages : p'.pages = p.pages
  members : ∀ x, x ∈ p'.buffers ↔ x ∈ p.buffers ∨ new = some x
  taken : (p'.header b).free = false
  others : ∀ x ∈ p.buffers, x ≠ b → p'.header x = p.header x ∧ regionEnd p' x = regionEnd p x
  own : regionEnd p' b = new.getD (regionEnd p b)
  tail : ∀ n, new = some n → (p'.header n).free = true ∧ regionEnd p' n = regionEnd p b

def Recorded (p p' : Proc) (b size d o : Nat) (isAsync : Bool) : Prop :=
  ∃ q : Proc, q.freeAsyncSpace = p.freeAsyncSpace ∧ p' = recordRequest q b size d o isAsync

theorem takenRoom {p' new} (room : Room p) (step : Taken p p' b new)
    (own : roundUp (p'.header b).dataSize + roundUp (p'.header b).offsetsSize ≤ binderBufferSize p' b) : Room p' := by
  intro x hx taken
  by_cases same : x = b
  · rw [same]
    exact own
  rcases (step.members x).mp hx with old | tail
  · obtain ⟨header,region⟩ := step.others x old same
    rw [bufferSizeRegion,region,header]
    exact room x old (header ▸ taken)
  · simp [(step.tail x tail).1] at taken

variable {size bufferSize d o}

theorem recordShape (shape : Shape p none) (isAsync : Bool) : Shape (recordRequest p b size d o isAsync) none := by
  refine shapeCongr shape ⟨?_,?_⟩ ?_ ?_ ?_ ?_ <;> try simp
  intro x
  by_cases here : x = b <;> simp [here]

variable (isAsync : Bool) (env : Env) (shape : Shape p none) (room : Room p) (mem : b ∈ p.buffers) (free : (p.header b).free = true)
  (request : roundUp d + roundUp o ≤ size)
include isAsync env shape room mem free request

theorem takeWhole (fits : size ≤ binderBufferSize p b) :
    ∃ p', takeBuffer p b size size d o isAsync env = some p' ∧ Shape p' none ∧ Room p' ∧ Taken p p' b none ∧
      Recorded p p' b size d o isAsync := by
  obtain ⟨tf,ta,erased,inserted,taken⟩ := takeShape shape mem free
  generalize first : setAllocatedBuffers _ ta = q at inserted taken
  refine ⟨recordRequest q b size d o isAsync,by simp [takeBuffer,erased,inserted],?_⟩
  generalize result : recordRequest q b size d o isAsync = p'
  have same : Same p p' := by constructor <;> simp [← result,← first]
  have buffers : p'.buffers = p.buffers := by simp [← result,← first]
  have step : Taken p p' b none := by
    refine ⟨same,by funext k; simp [← result,← first],by simp [buffers],by simp [← result,← first],?_,regionCongr buffers same b,by simp⟩
    intro x _ other
    exact ⟨by simp [← result,← first,other],regionCongr buffers same x⟩
  have shape' := result ▸ recordShape taken isAsync
  refine ⟨shape',takenRoom room step ?_,step,q,by simp [← first],result.symm⟩
  rw [bufferSizeRegion,step.own,getD_none,← bufferSizeRegion]
  simpa [← result] using le_trans request fits

theorem takeSplit (split : bufferSize ≠ size) (fits : size + headerSize ≤ binderBufferSize p b) :
    ∃ p', takeBuffer p b size bufferSize d o isAsync env = some p' ∧ Shape p' none ∧ Room p' ∧
      Taken p p' b (some (b + headerSize + size)) ∧ Recorded p p' b size d o isAsync := by
  obtain ⟨tf,ta,erased,inserted,taken⟩ := takeShape shape mem free
  have alone := aloneOfFree shape mem free
  have region := regionRoom shape.toTiled mem
  rw [bufferSizeRegion] at fits
  generalize first : setAllocatedBuffers _ ta = q at inserted taken
  have same : Same p q := by constructor <;> simp [← first]
  have buffers : q.buffers = p.buffers := by simp [← first]
  have headers : ∀ x, x ≠ b → q.header x = p.header x := by
    intro x other
    simp [← first,other]
  have own : (q.header b).free = false := by simp [← first]
  have added := listAddInserted taken (b + headerSize + size) (buffers ▸ mem) (by omega)
    (by rw [regionCongr buffers same]; omega)
  generalize fresh : b + headerSize + size = new at added
  have ahead : ∀ y, nextBuffer q.buffers b = some y → (q.header y).free = false := by
    intro y next
    by_cases here : y = b
    · rw [here,own]
    · rw [headers y here]
      exact alone.next y (buffers ▸ next)
  have stop : new + headerSize ≤ regionEnd q b := by
    rw [regionCongr buffers same]
    omega
  obtain ⟨t,put,splitted⟩ := splitShape
    (h := ((q.header new).setTransaction env.garbage).setFree true) taken added own ahead rfl stop
  generalize second : setFreeBuffers _ t = r at put splitted
  have tail : splitTail q b size env = some r := by
    simp only [splitTail,fresh]
    exact put
  refine ⟨recordRequest r b size d o isAsync,by simp [takeBuffer,erased,inserted,split,tail],?_⟩
  generalize result : recordRequest r b size d o isAsync = p'
  have apart : new ≠ b := by
    simp only [headerSize] at fresh
    omega
  have same' : Same q p' := by constructor <;> simp [← result,← second]
  have list : p'.buffers = listAdd new b q.buffers := by simp [← result,← second]
  have step : Taken p p' b (some new) := by
    refine ⟨sameTrans same same',by funext k; simp [← result,← second,← first],?_,?_,?_,?_,?_⟩
    · intro x
      rw [list,added.members,buffers,some_inj,eq_comm]
    · simp [← result,← second,own,Ne.symm apart]
    · intro x old other
      have notNew : x ≠ new := fun same => added.fresh (buffers ▸ same ▸ old)
      refine ⟨?_,?_⟩
      · rw [← headers x other]
        simp [← result,← second,other,notNew]
      · rw [← regionCongr buffers same,regionEnd,list,added.following x (buffers ▸ old) other,same'.buffer,
          same'.bufferSize,regionEnd]
    · rw [regionEnd,list,added.own]
      rfl
    · intro n here
      cases here
      refine ⟨by simp [← result,← second,apart],?_⟩
      rw [← regionCongr buffers same,regionEnd,list,added.behind,same'.buffer,same'.bufferSize,regionEnd]
  have shape' := result ▸ recordShape splitted isAsync
  refine ⟨shape',takenRoom room step ?_,step,r,by simp [← second,← first],result.symm⟩
  rw [bufferSizeRegion,step.own,← fresh]
  simpa [← result] using request

end EclairKernel.Arena
