import EclairKernel.PmemRun

/-! The indices at which pmem_allocate and pmem_free read or write the bitmap. -/
namespace EclairKernel.Pmem
open Buddy List Nat Run

def fitAccess (p : Info) (order : Nat) : Nat → Nat → Option Nat → List Nat
  | 0, _, _ => []
  | fuel+1, curr, best =>
    if curr < p.numEntries then
      if pmemIsFree p curr then
        if pmemOrderAt p curr = order then [curr]
        -- the order of the best fit is read only for a larger block
        else if order < pmemOrderAt p curr then
          curr::best.toList ++ fitAccess p order fuel (pmemNextIndex p curr)
            (if best.all (fun b => pmemOrderAt p curr < pmemOrderAt p b) then some curr else best)
        else curr::fitAccess p order fuel (pmemNextIndex p curr) best
      else curr::fitAccess p order fuel (pmemNextIndex p curr) best
    else []

def splitAccess (order bestFit : Nat) : Nat → Info → List Nat
  | 0, _ => [bestFit]
  | fuel+1, p =>
    if order < pmemOrderAt p bestFit then
      let p := setOrder p bestFit (pmemOrderAt p bestFit - 1)
      bestFit::pmemBuddyIndex p bestFit::
        splitAccess order bestFit fuel (setOrder p (pmemBuddyIndex p bestFit) (pmemOrderAt p bestFit))
    else [bestFit]

def allocateAccess (p : Info) (len : Nat) : List Nat :=
  let order := pmemOrder len
  if p.noAllocator then []
  else if PMEM_MAX_ORDER < order then []
  else fitAccess p order p.numEntries 0 none ++
    match fitLoop p order p.numEntries 0 none with
    | none => []
    | some bestFit => splitAccess order bestFit (pmemOrderAt p bestFit) p ++ [bestFit]

def mergeAccess : Nat → Nat → Info → List Nat
  | 0, _, _ => []
  | fuel+1, curr, p =>
    let buddy := pmemBuddyIndex p curr
    curr::buddy::
      if pmemIsFree p buddy ∧ pmemOrderAt p buddy = pmemOrderAt p curr then
        let p := setOrder p buddy (pmemOrderAt p buddy + 1)
        let p := setOrder p curr (pmemOrderAt p curr + 1)
        if min buddy curr < p.numEntries then mergeAccess fuel (min buddy curr) p else []
      else []

def freeAccess (p : Info) (index : Nat) : List Nat :=
  if p.noAllocator then [] else index::mergeAccess p.numEntries index (setAllocated p index false)

section
variable {p l free order fuel curr best k}

theorem fitAccessInside (start : ∀ b ∈ best, b < p.numEntries) :
    ∀ i ∈ fitAccess p order fuel curr best, i < p.numEntries := by
  induction fuel generalizing curr best with
  | zero => simp [fitAccess]
  | succ fuel ih =>
    unfold fitAccess
    split
    · rename_i inside
      split
      · split
        · simpa using inside
        split
        · intro i mem
          rw [cons_append,mem_cons,mem_append,Option.mem_toList] at mem
          rcases mem with rfl | old | later
          · exact inside
          · exact start i old
          · refine ih (fun b chosen => ?_) i later
            split at chosen
            · cases chosen
              exact inside
            · exact start b chosen
        · exact forall_mem_cons.mpr ⟨inside,ih start⟩
      · exact forall_mem_cons.mpr ⟨inside,ih start⟩
    · simp

theorem splitAccessInside (tiles : Tiles p l (fun j => Unallocated p j ∧ j ≠ best)) (mem : best ∈ l) :
    ∀ i ∈ splitAccess order best fuel p, i < p.numEntries := by
  have here := chainBelow tiles.chain mem
  induction fuel generalizing p l with
  | zero => simpa [splitAccess] using here
  | succ fuel ih =>
    unfold splitAccess
    split
    · rename_i larger
      obtain ⟨k,p',l',order',_,buddy,same,frame,tiles',mem',now⟩ := splitStep tiles mem (Nat.ne_zero_of_lt larger)
      have half : best + 2^k < p.numEntries := by
        have fits := (chainMember tiles.chain mem).2.2
        rw [order'] at fits
        omega
      dsimp only
      rw [buddy,same]
      have later := ih tiles' mem' (chainBelow tiles'.chain mem')
      rw [frame.numEntries] at later
      exact forall_mem_cons.mpr ⟨here,forall_mem_cons.mpr ⟨half,later⟩⟩
    · simpa using here

theorem allocateInside (inv : Inv p) (len : Nat) : ∀ i ∈ allocateAccess p len, i < p.numEntries := by
  have searched : ∀ i ∈ fitAccess p (pmemOrder len) p.numEntries 0 none, i < p.numEntries :=
    fitAccessInside fun b mem => absurd mem (Option.not_mem_none b)
  simp only [allocateAccess,inv.buddy,Bool.false_eq_true,if_false]
  split
  · simp
  refine forall_mem_append.mpr ⟨searched,?_⟩
  split
  · simp
  rename_i best found
  have mem := fitLoopSome (· ∈ blocks p) inv.tiles.chain (fun j mem _ _ => mem) (by simp) found
  refine forall_mem_append.mpr ⟨splitAccessInside (tilesExcept inv.tiles best) mem,?_⟩
  simpa using chainBelow inv.tiles.chain mem

variable {index}

theorem mergeAccessInside (tiles : Tiles p l (fun j => Unallocated p j ∧ j ≠ curr)) (mem : curr ∈ l)
    (unallocated : Unallocated p curr) (merging : Merging p index curr) : ∀ i ∈ mergeAccess fuel curr p, i < p.numEntries := by
  induction fuel generalizing p l curr with
  | zero => simp [mergeAccess]
  | succ fuel ih =>
    unfold mergeAccess
    dsimp only
    have inside := merging.buddy tiles mem unallocated
    refine forall_mem_cons.mpr ⟨chainBelow tiles.chain mem,forall_mem_cons.mpr ⟨inside,?_⟩⟩
    split
    · rename_i found
      obtain ⟨p',same,frame,l',tiles',mem',free',order'⟩ := mergeRound tiles mem unallocated inside found
      have room := chainBelow tiles'.chain mem'
      rw [same,if_pos room,← frame.numEntries]
      exact ih tiles' mem' free' (merging.next (chainMember tiles.chain mem).2.1 frame order')
    · simp

theorem freeInside (inv : Inv p) (mem : index ∈ blocks p) (incomplete : Incomplete p index) :
    ∀ i ∈ freeAccess p index, i < p.numEntries := by
  have cleared : Unallocated (setAllocated p index false) index := unallocatedCleared.mpr (.inl rfl)
  simp only [freeAccess,inv.buddy]
  exact forall_mem_cons.mpr ⟨chainBelow inv.tiles.chain mem,mergeAccessInside (clearedTiles inv index) mem cleared (clearedMerging incomplete)⟩

end

def Contained (p : Info) : Op → Prop
  | .allocate _ => True
  | .free index => (index ∈ blocks p ∧ ¬Unallocated p index) ∧ Incomplete p index

def opAccess (p : Info) : Op → List Nat
  | .allocate len => allocateAccess p len.toNat
  | .free index => freeAccess p index

theorem bitmapInside {size} (small : size < word) {ops} (admitted : Admitted step Contained (pmemSetup size false) ops) :
    ∀ op, Contained (run step (pmemSetup size false) ops) op →
      ∀ i ∈ opAccess (run step (pmemSetup size false) ops) op, i < size / PMEM_MIN_ALLOC := by
  have keeps (p : Info) (op : Op) (inv : Inv p ∧ p.numEntries = size / PMEM_MIN_ALLOC) (contained : Contained p op) :
      Inv (step p op) ∧ (step p op).numEntries = size / PMEM_MIN_ALLOC := by
    obtain ⟨inv,entries⟩ := inv
    have guarded : Admissible p op ∧ ∀ i, op = .free i → Fenced p ∨ Incomplete p i := by
      cases op with
      | allocate => exact ⟨trivial,fun i other => by cases other⟩
      | free index => exact ⟨contained.1,fun i same => by cases same; exact .inr contained.2⟩
    obtain ⟨inv',same,_⟩ := stepKeeps inv guarded.1 guarded.2
    exact ⟨inv',same.trans entries⟩
  obtain ⟨inv,entries⟩ := runInvariant keeps ⟨setupInv small,(setupFrame small).numEntries⟩ admitted
  intro op contained
  rw [← entries]
  cases op with
  | allocate len => exact allocateInside inv len.toNat
  | free index => exact freeInside inv contained.1.1 contained.2

theorem thirteenEntriesInside :
    12 ∈ opAccess (run step (pmemSetup 53248 false) [.allocate 8192,.allocate 4096]) (.free 8) ∧
    ∀ i ∈ opAccess (run step (pmemSetup 53248 false) [.allocate 8192,.allocate 4096]) (.free 8), i < 13 := by
  have admitted : Admitted step Contained (pmemSetup 53248 false) [.allocate 8192,.allocate 4096] := ⟨trivial,trivial,trivial⟩
  exact ⟨by decide,bitmapInside (by decide) admitted (.free 8) ⟨⟨by decide,by decide⟩,.inl (by decide)⟩⟩

theorem buddyPastEnd : ((run step (pmemSetup 12288 false) [.allocate 4096]).numEntries = 3 ∧
      Admissible (run step (pmemSetup 12288 false) [.allocate 4096]) (.free 2) ∧
      3 ∈ opAccess (run step (pmemSetup 12288 false) [.allocate 4096]) (.free 2)) ∧
    (run step (pmemSetup 16384 false) [.allocate 4096]).numEntries = 4 ∧
      Admissible (run step (pmemSetup 16384 false) [.allocate 4096]) (.free 0) ∧
      4 ∈ opAccess (run step (pmemSetup 16384 false) [.allocate 4096]) (.free 0) := by
  refine ⟨⟨by decide,⟨by decide,by decide⟩,by decide⟩,by decide,⟨by decide,by decide⟩,by decide⟩

end EclairKernel.Pmem
