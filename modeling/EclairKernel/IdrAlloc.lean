import EclairKernel.IdrSearch
import Mathlib.Data.Nat.Log

/-! idr_get_new_above: the layers added at the top, the second search above a full tree, and
the bits set on the way up from the new slot. -/
namespace EclairKernel.Idr
open Fuel Function Option Nat BitVec

section
variable {w}

theorem bitGet (n i : Fin 32) : (1#32 <<< n.val).getLsbD i = decide (i = n) := by
  by_cases same : i = n
  · subst same
    simp
  · simp [same]
    omega

theorem setBitGet (n i : Fin 32) : (setBit n w).getLsbD i = (w.getLsbD i || decide (i = n)) := by
  rw [setBit,getLsbD_or,bitGet]

theorem fullBitmap : w = IDR_FULL ↔ ∀ i : Fin 32, w.getLsbD i = true := by
  constructor
  · rintro rfl
    decide
  · intro all
    refine eq_of_getLsbD_eq fun i bound => ?_
    have ones : ∀ i : Fin 32, IDR_FULL.getLsbD i = true := by decide
    exact (all ⟨i,bound⟩).trans (ones ⟨i,bound⟩).symm

end

variable {V : Type} {live : Live V} {h q p id}

theorem emptyLayer (holds : Holds live (h + 1) q (.sub p)) (zero : p.count = 0) : (∀ i, p.ary i = .null) ∧ Vacant live (h + 1) q := by
  have none (i : Fin 32) : occupied live h q p.ary i = false := by
    refine tallyZero ?_ i
    have count := holds.count
    omega
  have each (i : Fin 32) : p.ary i = .null ∧ Vacant live h (32 * q + i) := by
    have here := none i
    have below := holds.below i
    cases h with
    | zero =>
      have dead : live (32 * q + i) = Option.none := by simpa [occupied] using here
      refine ⟨?_,fun k under => ?_⟩
      · have slot := below
        rw [slot,dead]
        rfl
      · rw [pow_zero,Nat.div_one] at under
        rw [under,dead]
    | succ h =>
      have null := unoccupied (succ_ne_zero h) here
      rw [null] at below
      exact ⟨null,below⟩
  exact ⟨fun i => (each i).1,vacantSucc.mpr fun i => (each i).2⟩

theorem vacantOutside {i} (outside : ∀ k, 32^h ≤ k → live k = none) (positive : 0 < i) : Vacant live h i := by
  intro k under
  refine outside k ?_
  have least := div_mul_le_self k (32^h)
  rw [under] at least
  exact le_trans (Nat.le_mul_of_pos_left _ positive) least

theorem growEmpty (holds : Holds live (h + 1) 0 (.sub p)) (outside : ∀ k, 32^(h + 1) ≤ k → live k = none) (zero : p.count = 0) :
    Holds live (h + 2) 0 (.sub { p with layer := p.layer + 1 }) := by
  obtain ⟨null,vacant⟩ := emptyLayer holds zero
  have empty (i : Fin 32) : Vacant live (h + 1) (32 * 0 + i) := by
    rcases Nat.eq_zero_or_pos i.val with first | later
    · rw [first]
      exact vacant
    · rw [Nat.zero_add]
      exact vacantOutside outside later
  refine ⟨congrArg (· + 1) holds.layer,?_,fun i => ?_,fun i any => ?_⟩
  · have none : occupied live (h + 1) 0 p.ary = fun _ => false := by
      funext i
      simp [occupied,null,Slot.isNull]
    rw [none,zero]
    rfl
  · rw [null]
    exact empty i
  · have clear := holds.bits i any
    rw [iff_false_intro (notFull (vacantSucc.mp vacant i))] at clear
    exact clear.trans (iff_false_intro (notFull (empty i))).symm

theorem growTop (holds : Holds live (h + 1) 0 (.sub p)) (outside : ∀ k, 32^(h + 1) ≤ k → live k = none) :
    Holds live (h + 2) 0 (.sub ⟨if p.bitmap = IDR_FULL then setBit 0 0 else 0,update (fun _ => .null) 0 (.sub p),1,h + 1⟩) := by
  have full : p.bitmap = IDR_FULL ↔ Full live (h + 1) 0 := by
    rw [fullBitmap,fullSucc]
    exact forall_congr' fun i => holds.bits i (some_ne_none _)
  refine ⟨rfl,?_,fun i => ?_,fun i _ => ?_⟩
  · have more := tallyUpdate (fun _ => false) 0 true
    exact congrArg Nat.cast more.symm
  · by_cases first : i = 0
    · subst first
      exact holds
    · have later : 0 < i.val := Nat.pos_of_ne_zero fun eq => first (Fin.ext eq)
      simp only [update_of_ne first,Nat.mul_zero,zero_add]
      exact vacantOutside outside later
  · by_cases first : i = 0
    · subst first
      show getLsbD _ 0 = true ↔ Full live (h + 1) 0
      rw [← full]
      split
      · rename_i whole
        simp only [whole,iff_true]
        decide
      · rename_i part
        simp [part]
    · have later : 0 < i.val := Nat.pos_of_ne_zero fun eq => first (Fin.ext eq)
      have clear : (if p.bitmap = IDR_FULL then setBit 0 0 else 0 : BitVec 32).getLsbD i = false := by
        split
        · rw [setBitGet,decide_eq_false first]
          simp
        · simp
      rw [Nat.mul_zero,zero_add,clear]
      exact iff_of_false Bool.false_ne_true (notFull (vacantOutside outside later))

def heightFor (layers start : Nat) : Nat := max layers (log 32 start + 1)

variable {layers start}

theorem heightReached : start < 32^heightFor layers start :=
  lt_of_lt_of_le (lt_pow_succ_log_self (by decide) start) (Nat.pow_le_pow_right (by decide) (le_max_right ..))

theorem heightStep (more : 32^layers ≤ start) : heightFor (layers + 1) start = heightFor layers start := by
  have reached := le_log_of_pow_le (by decide) more
  unfold heightFor
  omega

theorem heightStop (positive : 1 ≤ layers) (inside : start < 32^layers) : heightFor layers start = layers := by
  have reached := log_lt_of_lt_pow' (by omega) inside
  unfold heightFor
  omega

theorem heightLow (low : layers ≤ 6) (small : start < 2^30) : heightFor layers start ≤ 6 :=
  Nat.max_le.mpr ⟨low,log_lt_of_lt_pow' (by decide) small⟩

theorem heightPos : 1 ≤ heightFor layers start := le_trans (Nat.le_add_left ..) (le_max_right ..)

theorem heightOutside (outside : ∀ k, 32^layers ≤ k → live k = none) (start k : Nat)
    (out : 32^heightFor layers start ≤ k) : live k = none :=
  outside k (le_trans (Nat.pow_le_pow_right (by decide) (le_max_left ..)) out)

theorem buildUpHolds {rounds} (free new : Nat) (small : id.toNat < 2^30) (enough : 6 < layers + rounds) (low : layers ≤ 6)
    (positive : 1 ≤ layers) (holds : Holds live layers 0 (.sub p)) (outside : ∀ k, 32^layers ≤ k → live k = none) :
    (∃ free', buildUp id rounds p layers free new = .failed free') ∨
    ∃ p' free', buildUp id rounds p layers free new = .ready p' (heightFor layers id.toNat) free' ∧
      Holds live (heightFor layers id.toNat) 0 (.sub p') := by
  induction rounds generalizing p layers free new with
  | zero => omega
  | succ rounds ih =>
    unfold buildUp
    split
    · rename_i more
      have beyond := (sleNat (by omega) low).mp more.2
      have level := more.1
      have wider : ∀ k, 32^(layers + 1) ≤ k → live k = none := fun k out =>
        outside k (le_trans (Nat.pow_le_pow_right (by decide) (le_succ layers)) out)
      obtain ⟨h,rfl⟩ := exists_eq_succ_of_ne_zero (ne_of_gt positive)
      rw [← heightStep beyond]
      split
      · rename_i zero
        exact ih _ _ (by omega) level (by omega) (growEmpty holds outside zero) wider
      · cases free with
        | zero => exact .inl ⟨_,rfl⟩
        | succ free => exact ih _ _ (by omega) level (by omega) (growTop holds outside) wider
    · rename_i done
      have inside : id.toNat < 32^layers := by
        by_cases top : layers = 6
        · subst top
          exact small
        · exact not_le.mp fun beyond =>
            done ⟨by show layers < 6; omega,(sleNat (by omega) low).mpr beyond⟩
      rw [heightStop positive inside]
      exact .inr ⟨p,free,rfl,holds⟩

/-- No search of the call leaves the tree from below its top layer. -/
def Sound (live : Live V) (layers start : Nat) : Prop :=
  start < 2^30 ∧
    ((∃ k, start ≤ k ∧ k < 32^heightFor layers start ∧ live k = none) ∨
      heightFor layers start < 6 ∧
        (start < 31 * 32^(heightFor layers start - 1) ∨ Full live (heightFor layers start - 1) 31))

def FoundOk (live : Live V) (start : Nat) : Found V → Prop
  | .slot id p pa layers _ => layers ≤ 6 ∧ (∀ k, 32^layers ≤ k → live k = none) ∧ Placed live layers start id p pa
  | .error _ s => Represents live s

variable {s}

theorem Represents.first (rep : Represents live s) (start : Nat) : firstLayer s = none ∨
    ∃ p layers free new, firstLayer s = some (p,layers,free,new) ∧ 1 ≤ layers ∧ layers ≤ 6 ∧ Holds live layers 0 (.sub p) ∧
      (∀ k, 32^layers ≤ k → live k = none) ∧ heightFor layers start = heightFor s.layers start := by
  unfold firstLayer
  cases top : s.top with
  | some p =>
    obtain ⟨positive,holds⟩ := rep.filled p top
    exact .inr ⟨p,s.layers,s.idFreeCnt,0,rfl,positive,rep.low,holds,rep.outside,rfl⟩
  | none =>
    obtain ⟨zero,none⟩ := rep.empty top
    cases s.idFreeCnt with
    | zero => exact .inl rfl
    | succ free =>
      refine .inr ⟨zeroed 0,1,free,1,rfl,le_refl 1,by decide,zeroedHolds fun k _ => none k,fun k _ => none k,?_⟩
      rw [heightFor,heightFor]
      omega

theorem Represents.of {free} (low : layers ≤ 6) (positive : 1 ≤ layers)
    (holds : Holds live layers 0 (.sub p)) (outside : ∀ k, 32^layers ≤ k → live k = none) : Represents live ⟨some p,layers,free⟩ := by
  refine ⟨low,fun none => absurd none (some_ne_none p),fun p' top => ?_,outside⟩
  cases top
  exact ⟨positive,holds⟩

theorem roundEnds (rep : Represents live s) (small : id.toNat < 2^30) (within : Within live (heightFor s.layers id.toNat) id.toNat) :
    (∃ r, Ends (getEmptySlot · id s) r ∧ FoundOk live id.toNat r) ∨
    ∃ id' top free, id'.toNat = 32^heightFor s.layers id.toNat ∧ Represents live ⟨some top,heightFor s.layers id.toNat,free⟩ ∧
      (∀ k, id.toNat ≤ k → k < 32^heightFor s.layers id.toNat → live k ≠ none) ∧
      ∀ r, Ends (getEmptySlot · id' ⟨some top,heightFor s.layers id.toNat,free⟩) r → Ends (getEmptySlot · id s) r := by
  rcases rep.first id.toNat with absent | ⟨p,layers,free,new,first,positive,low,holds,outside,height⟩
  · refine .inl ⟨.error .EAGAIN s,endsOnce fun fuel => ?_,rep⟩
    rw [getEmptySlot,absent]
  have built := buildUpHolds free new small (show 6 < layers + MAX_LEVEL by unfold MAX_LEVEL; omega) low positive holds outside
  rcases built with ⟨back,failed⟩ | ⟨p',free',ready,holds'⟩
  · refine .inl ⟨.error .EAGAIN { s with idFreeCnt := back },endsOnce fun fuel => ?_,⟨rep.low,rep.empty,rep.filled,rep.outside⟩⟩
    simp [getEmptySlot,first,failed]
  rw [height] at ready holds'
  have low' := heightLow rep.low small
  have outside' := heightOutside rep.outside id.toNat
  have at' : Searching live _ id.toNat ⟨[],p',heightFor s.layers id.toNat - 1,id,free'⟩ :=
    searchingTop heightPos holds' heightReached le_rfl fun k low less => by omega
  obtain ⟨a,left,search,ended⟩ := subAllocEnds at' low' within
  obtain ⟨n,search⟩ := search
  cases a with
  | slot id' p pa =>
    refine .inl ⟨.slot id' p pa _ left,endsAfter n (fun fuel enough => ?_) endsDone,low',outside',ended⟩
    simp [getEmptySlot,first,ready,search fuel enough]
  | needToGrow id' top =>
    refine .inr ⟨id',top,left,ended.1,.of low' heightPos ended.2.2 outside',ended.2.1,fun r later => endsAfter n (fun fuel enough => ?_) later⟩
    simp [getEmptySlot,first,ready,search fuel enough]
  | noMoreSpace top => cases ended
  | noMemory top =>
    refine .inl ⟨.error .EAGAIN ⟨some top,_,left⟩,endsAfter n (fun fuel enough => ?_) endsDone,
      Represents.of low' heightPos ended outside'⟩
    simp [getEmptySlot,first,ready,search fuel enough]

theorem FoundOk.from {mid r} (found : FoundOk live mid r) (low : start ≤ mid)
    (all : ∀ k, start ≤ k → k < mid → live k ≠ none) : FoundOk live start r := by
  cases r with
  | error e s => exact found
  | slot id p pa layers free =>
    obtain ⟨few,outside,placed⟩ := found
    refine ⟨few,outside,{ placed with low := le_trans low placed.low, passed := fun k after before => ?_ }⟩
    by_cases first : k < mid
    · exact all k after first
    · exact placed.passed k (not_lt.mp first) before

theorem getEmptySlotEnds (rep : Represents live s) (sound : Sound live s.layers id.toNat) :
    ∃ r, Ends (getEmptySlot · id s) r ∧ FoundOk live id.toNat r := by
  obtain ⟨small,room⟩ := sound
  have within : Within live (heightFor s.layers id.toNat) id.toNat := by
    rcases room with free | ⟨_,last⟩
    · exact .inl free
    · exact .inr last
  rcases roundEnds rep small within with done | ⟨id',top,free,place,rep',all,later⟩
  · exact done
  have less : heightFor s.layers id.toNat < 6 := by
    rcases room with ⟨k,low,high,dead⟩ | ⟨less,_⟩
    · exact absurd dead (all k low high)
    · exact less
  have first : id.toNat < 32^heightFor s.layers id.toNat := heightReached
  generalize heightFor s.layers id.toNat = L at *
  have grown : heightFor L (32^L) = L + 1 := by
    rw [heightFor,log_pow (by decide)]
    exact max_eq_right (le_succ L)
  have small' : id'.toNat < 2^30 := by
    rw [place]
    exact Nat.pow_lt_pow_right (by decide) less
  have dead := rep'.outside _ le_rfl
  have more : 32^L < 32^(L + 1) := Nat.pow_lt_pow_right (by decide) (lt_succ_self L)
  have again : Within live (heightFor L id'.toNat) id'.toNat := by
    rw [place,grown]
    exact .inl ⟨32^L,le_rfl,more,dead⟩
  rcases roundEnds rep' small' again with ⟨r,ends,found⟩ | ⟨_,_,_,_,_,all',_⟩
  · rw [place] at found
    exact ⟨r,later r ends,found.from (le_of_lt first) all⟩
  · rw [place] at all'
    exact absurd dead (all' _ le_rfl (by rw [grown]; exact more))

variable {live' : Live V} {f pa}

theorem fullCongr (same : ∀ k, k / 32^h = q → live' k = live k) : Full live' h q ↔ Full live h q :=
  forall_congr' fun k => forall_congr' fun under => by rw [same k under]

theorem frameBut (above : Above live (f::pa) h q) (layer : h ≠ 0) (same : ∀ k, k / 32^h ≠ q → live' k = live k) :
    NodeBut live' (fun r s => r ≠ q → Holds live' h r s) h (q / 32) f.parent (some f.slot) := by
  obtain ⟨ok,slot,_⟩ := above
  have other {r : Nat} (different : r ≠ q) (k : Nat) (under : k / 32^h = r) := same k (under ▸ different)
  refine ⟨ok.layer,?_,fun i different => (ok.below i different).congr (other different),fun i different => ?_⟩
  · rw [ok.count]
    congr 2
    funext i
    simp [occupied,layer]
  · have number : 32 * (q / 32) + i.val ≠ q := fun eq => different (congrArg some (Fin.ext (by omega)))
    rw [fullCongr (other number)]
    exact ok.bits i (some_ne_none _)

theorem Above.congr (above : Above live pa h q) (layer : h ≠ 0) (same : ∀ k, k / 32^h ≠ q → live' k = live k) (room : ¬Full live' h q) :
    Above live' pa h q := by
  induction pa generalizing h q with
  | nil => exact above
  | cons f pa ih =>
    have but := frameBut above layer same
    obtain ⟨ok,slot,there,wasRoom,above⟩ := above
    have number := ownSlot slot
    refine ⟨⟨but.layer,but.count,but.below,fun i any => ?_⟩,slot,there,room,ih above (succ_ne_zero h) ?_ ?_⟩
    · by_cases own : i = f.slot
      · subst own
        rw [ok.bits f.slot any,number]
        exact iff_of_false wasRoom room
      · exact but.bits i fun eq => own (some.inj eq)
    · intro k outside
      refine same k fun under => outside ?_
      rw [divSucc,under]
    · intro full
      have own := fullSucc.mp full f.slot
      rw [number] at own
      exact room own

theorem markNode {d} (node : NodeBut live' (Holds live' h) h q p (some d)) (full : Full live' h (32 * q + d)) :
    Holds live' (h + 1) q (.sub { p with bitmap := setBit d p.bitmap }) := by
  refine ⟨node.layer,node.count,node.below,fun i _ => ?_⟩
  rw [setBitGet]
  by_cases own : i = d
  · subst own
    simp [full]
  · simpa [own] using node.bits i fun eq => own (some.inj eq)

theorem markHolds (node : NodeBut live' (Holds live' h) h q p (some (digit id 0))) (full : Full live' h (32 * q + digit id 0))
    (above : Above live pa (h + 1) q) (small : id.toNat < 2^31) (number : id.toNat / 32 = q)
    (same : ∀ k, k / 32^(h + 1) ≠ q → live' k = live k) :
    Holds live' (h + 1 + pa.length) 0 (.sub (idrMarkFull p pa id)) := by
  induction pa generalizing h q p id with
  | nil =>
    cases above
    exact markNode node full
  | cons f pa ih =>
    have marked := markNode node full
    have layer := succ_ne_zero h
    have whole : setBit (digit id 0) p.bitmap = IDR_FULL ↔ Full live' (h + 1) q := by
      rw [fullBitmap,fullSucc]
      exact forall_congr' fun i => marked.bits i (some_ne_none _)
    simp only [idrMarkFull]
    split
    · rename_i filled
      have shifted : (id.sshiftRight IDR_BITS).toNat = q := by
        rw [← number]
        exact shiftNat small 1
      have small' : (id.sshiftRight IDR_BITS).toNat < 2^31 := by
        omega
      have own : digit (id.sshiftRight IDR_BITS) 0 = f.slot := by
        refine Fin.ext ?_
        rw [digitNat small',shifted,above.2.1,pow_zero,Nat.div_one]
      have closed := closeBut (frameBut above layer same) above.2.1 above.2.2.1 marked layer
      rw [List.length_cons,← add_assoc,add_right_comm]
      refine ih ?_ ?_ above.2.2.2.2 small' (by rw [shifted]) fun k outside => same k fun under => outside ?_
      · rw [own]
        exact closed
      · rw [own,ownSlot above.2.1]
        exact whole.mp filled
      · rw [divSucc,under]
    · rename_i part
      exact plugHolds (above.congr layer same (mt whole.mpr part)) marked layer

theorem newSlot {ptr} (small : id.toNat < 2^31) (here : Holds live 1 (id.toNat / 32) (.sub p)) (free : live id.toNat = none) :
    NodeBut (update live id.toNat (some ptr)) (Holds (update live id.toNat (some ptr)) 0) 0 (id.toNat / 32)
      { p.setSlot (digit id 0) (.ofPtr ptr) with count := p.count + 1 } (some (digit id 0)) := by
  have own : id.toNat = 32 * (id.toNat / 32) + (digit id 0).val := by
    have := digitUnder small (rfl : id.toNat / 32^(0 + 1) = _)
    simpa using this
  have apart {i : Fin 32} (other : i ≠ digit id 0) : 32 * (id.toNat / 32) + i.val ≠ id.toNat := fun eq => other (Fin.ext (by omega))
  refine ⟨here.layer,?_,fun i => ?_,fun i other => ?_⟩
  · have more := tallyUpdate (occupied live 0 (id.toNat / 32) p.ary) (digit id 0) true
    have was : occupied live 0 (id.toNat / 32) p.ary (digit id 0) = false := by simp [occupied,← own,free]
    have now : occupied (update live id.toNat (some ptr)) 0 (id.toNat / 32) (p.setSlot (digit id 0) (.ofPtr ptr)).ary =
        update (occupied live 0 (id.toNat / 32) p.ary) (digit id 0) true := by
      funext i
      by_cases same : i = digit id 0
      · subst same
        simp [occupied,← own]
      · simp [occupied,same,apart same]
    rw [was] at more
    rw [here.count,now]
    exact congrArg Nat.cast more.symm
  · show update p.ary (digit id 0) (Slot.ofPtr ptr) i = Slot.ofPtr (update live id.toNat (some ptr) (32 * (id.toNat / 32) + i)).join
    by_cases same : i = digit id 0
    · subst same
      rw [← own,update_self,update_self]
      rfl
    · rw [update_of_ne same,update_of_ne (apart same)]
      exact here.below i
  · have same : i ≠ digit id 0 := fun eq => other (congrArg some eq)
    rw [fullZero,update_of_ne (apart same),← fullZero]
    exact here.bits i (some_ne_none _)

theorem Placed.represents {ptr} (placed : Placed live layers start id p pa) (few : layers ≤ 6)
    (outside : ∀ k, 32^layers ≤ k → live k = none) (free : Nat) : Represents (update live id.toNat (some ptr))
      ⟨some (idrMarkFull { p.setSlot (digit id 0) (.ofPtr ptr) with count := p.count + 1 } pa id),layers,free⟩ := by
  have small := lt_of_lt_of_le placed.inside (powLow few)
  have positive : 1 ≤ layers := by
    have := placed.height
    omega
  refine .of few positive ?_ fun k out => ?_
  · rw [← placed.height]
    refine markHolds (newSlot (by omega) placed.here placed.free) ?_ placed.above (by omega) rfl fun k outside => ?_
    · have own := digitUnder (by omega) (rfl : id.toNat / 32^(0 + 1) = _)
      rw [pow_zero,Nat.div_one] at own
      rw [fullZero]
      show update live id.toNat (some ptr) (32 * (id.toNat / 32^(0 + 1)) + _) ≠ none
      rw [← own,update_self]
      exact some_ne_none _
    · refine update_of_ne (fun same => outside ?_) _ _
      rw [same]
      rfl
  · have inside := placed.inside
    rw [update_of_ne (by omega)]
    exact outside k out

inductive Got (live : Live V) (start : Nat) (ptr : Option V) : Except Errno (BitVec 32) × Handle V → Live V → Prop
  | new {id : BitVec 32} {s : Handle V} (low : start ≤ id.toNat) (passed : ∀ k, start ≤ k → k < id.toNat → live k ≠ none)
      (free : live id.toNat = none) (small : id.toNat < 2^30) (rep : Represents (update live id.toNat (some ptr)) s) :
      Got live start ptr (.ok id,s) (update live id.toNat (some ptr))
  | error {e : Errno} {s : Handle V} (rep : Represents live s) : Got live start ptr (.error e,s) live

theorem getNewAboveEnds {startingId} (rep : Represents live s) (sound : Sound live s.layers startingId.toNat)
    (ptr : Option V) : ∃ r live', Ends (idrGetNewAbove · ptr startingId s) r ∧ Got live startingId.toNat ptr r live' := by
  obtain ⟨r,⟨n,run⟩,found⟩ := getEmptySlotEnds rep sound
  cases r with
  | error e s' =>
    refine ⟨(.error e,s'),live,⟨n,fun fuel enough => ?_⟩,.error found⟩
    simp [idrGetNewAbove,run fuel enough]
  | slot id p pa layers free =>
    obtain ⟨few,outside,placed⟩ := found
    have small := lt_of_lt_of_le placed.inside (powLow few)
    refine ⟨_,_,⟨n,fun fuel enough => ?_⟩,.new placed.low placed.passed placed.free small (placed.represents few outside free)⟩
    simp [idrGetNewAbove,run fuel enough,bind]

end EclairKernel.Idr
