import EclairKernel.IdrAlloc

/-! idr_remove and idr_replace: one id changes, and every layer on the way to it is put in
order again. The layers of the free list do not matter to the map. -/
namespace EclairKernel.Idr
open Function Option Nat List BitVec

variable {V : Type} {live live' : Live V} {h q k : Nat} {p} {n : Fin 32} {c}

theorem clearBitGet (w : BitVec 32) (n i : Fin 32) : (clearBit n w).getLsbD i = (w.getLsbD i && decide (i ≠ n)) := by
  rw [clearBit,getLsbD_and,getLsbD_not,bitGet]
  simp

theorem besides (under : k / 32^h = 32 * q + n) (same : ∀ j, j ≠ k → live' j = live j) {i} (other : i ≠ n)
    (j : Nat) (there : j / 32^h = 32 * q + i) : live' j = live j := by
  refine same j fun eq => other (Fin.ext ?_)
  rw [eq] at there
  omega

theorem occupiedPath (under : k / 32^h = 32 * q + n) (same : ∀ j, j ≠ k → live' j = live j) (ary : Fin 32 → Slot V) (c : Slot V) :
    occupied live' h q (update ary n c) =
      update (occupied live h q ary) n (if h = 0 then (live' k).isSome else !c.isNull) := by
  funext i
  by_cases own : i = n
  · subst own
    unfold occupied
    rw [update_self,update_self]
    split
    · rename_i zero
      subst zero
      rw [pow_zero,Nat.div_one] at under
      rw [under]
    · rfl
  · unfold occupied
    rw [update_of_ne own,update_of_ne own]
    split
    · rename_i zero
      subst zero
      rw [besides under same own _ (by simp)]
    · rfl

theorem pathHolds {w} {count : Int} (holds : Holds live (h + 1) q (.sub p)) (under : k / 32^h = 32 * q + n)
    (same : ∀ j, j ≠ k → live' j = live j) (below : Holds live' h (32 * q + n) c)
    (counted : count = tally (occupied live' h q (update p.ary n c)))
    (own : w.getLsbD n = true ↔ Full live' h (32 * q + n)) (rest : ∀ i : Fin 32, i ≠ n → w.getLsbD i = p.bitmap.getLsbD i) :
    Holds live' (h + 1) q (.sub ⟨w,update p.ary n c,count,p.layer⟩) := by
  refine ⟨holds.layer,counted,fun i => ?_,fun i any => ?_⟩
  · show Holds live' h _ (update p.ary n c i)
    by_cases here : i = n
    · subst here
      rw [update_self]
      exact below
    · rw [update_of_ne here]
      exact (holds.below i).congr (besides under same here)
  · by_cases here : i = n
    · subst here
      exact own
    · rw [rest i here,fullCongr (besides under same here)]
      exact holds.bits i any

theorem countDownHolds (holds : Holds live (h + 1) q (.sub { p with count := p.count - 1 })) : Holds live (h + 1) q (countDown p) := by
  unfold countDown
  split
  · rename_i zero
    exact (emptyLayer holds zero).2
  · exact holds

theorem tallyLess {f} (here : f n = true) : (tally (update f n false) : Int) = tally f - 1 := by
  have less := tallyUpdate f n false
  simp only [here,if_true,Bool.false_eq_true,if_false] at less
  omega

theorem clearedHolds {count : Int} (holds : Holds live (h + 1) q (.sub p)) (under : k / 32^h = 32 * q + n)
    (below : Holds (update live k none) h (32 * q + n) c)
    (counted : count = tally (update (occupied live h q p.ary) n (if h = 0 then false else !c.isNull))) :
    Holds (update live k none) (h + 1) q (.sub ⟨clearBit n p.bitmap,update p.ary n c,count,p.layer⟩) := by
  have same (j : Nat) (other : j ≠ k) : update live k none j = live j := update_of_ne other ..
  refine pathHolds holds under same below ?_ ?_ fun i other => ?_
  · rw [occupiedPath under same,update_self]
    exact counted
  · rw [clearBitGet]
    refine iff_of_false (by simp) fun full => full k under (update_self ..)
  · rw [clearBitGet,decide_eq_true other,Bool.and_true]

variable {id l slot}

theorem subRemoveHolds (holds : Holds live (l + 1) q slot) (small : id.toNat < 2^31) (under : id.toNat / 32^(l + 1) = q)
    (alive : live id.toNat ≠ none) :
    (subRemove id l slot).1 = true ∧ Holds (update live id.toNat none) (l + 1) q (subRemove id l slot).2 := by
  induction l generalizing q slot with
  | zero =>
    cases slot with
    | null => exact absurd (holds _ under) alive
    | ptr v => cases holds
    | sub p =>
      have own := digitUnder small under
      have number : id.toNat = 32 * q + (digit id 0).val := by simpa using own
      have set : p.bitmap.getLsbD (digit id 0) = true := by
        rw [holds.bits _ (some_ne_none _),fullZero,← number]
        exact alive
      have was : occupied live 0 q p.ary (digit id 0) = true := by
        simpa [occupied,← number,isSome_iff_ne_none] using alive
      have gone : Holds (update live id.toNat none) 0 (32 * q + digit id 0) .null := by
        refine vacantHolds fun k there => ?_
        rw [pow_zero,Nat.div_one,← number] at there
        rw [there,update_self]
      rw [subRemove,if_pos set]
      exact ⟨rfl,countDownHolds (clearedHolds holds own gone (holds.count ▸ (tallyLess was).symm))⟩
  | succ l ih =>
    cases slot with
    | null => exact absurd (holds _ under) alive
    | ptr v => cases holds
    | sub p =>
      have own := digitUnder small under
      obtain ⟨found,below⟩ := ih (holds.below (digit id (l + 1))) own
      have was : occupied live (l + 1) q p.ary (digit id (l + 1)) = true := by
        have there := holds.below (digit id (l + 1))
        simp only [occupied]
        cases kind : p.ary (digit id (l + 1)) with
        | null =>
          rw [kind] at there
          exact absurd (there _ own) alive
        | ptr v => rfl
        | sub c => rfl
      simp only [subRemove]
      generalize subRemove id l (p.ary (digit id (l + 1))) = r at *
      obtain ⟨ok,c⟩ := r
      cases found
      refine ⟨rfl,?_⟩
      cases c with
      | null => exact countDownHolds (clearedHolds holds own below (holds.count ▸ (tallyLess was).symm))
      | ptr v => cases below
      | sub c =>
        refine clearedHolds holds own below (holds.count.trans ?_)
        have same : update (occupied live (l + 1) q p.ary) (digit id (l + 1)) true = occupied live (l + 1) q p.ary :=
          update_eq_self_iff.mpr was.symm
        exact congrArg (fun f => (tally f : Int)) same.symm

theorem clearBitClear {w} (clear : w.getLsbD n = false) : clearBit n w = w := by
  refine eq_of_getLsbD_eq fun i inside => ?_
  have bit := clearBitGet w n ⟨i,inside⟩
  grind

-- On the way to an id that is not in use no layer is full, so that no bit is cleared.
theorem subRemoveDead (holds : Holds live (l + 1) q slot) (small : id.toNat < 2^31) (under : id.toNat / 32^(l + 1) = q)
    (dead : live id.toNat = none) : subRemove id l slot = (false,slot) := by
  induction l generalizing q slot with
  | zero | succ l ih => ?_
  all_goals
    cases slot with
    | null => rfl
    | ptr v => cases holds
    | sub p => ?_
    have own := digitUnder small under
    have clear : ¬ p.bitmap.getLsbD _ = true := fun set => (holds.bits _ (some_ne_none _)).mp set _ own dead
  · rw [subRemove,if_neg clear]
  · simp only [subRemove,clearBitClear (Bool.eq_false_iff.mpr clear),ih (holds.below _) own,Bool.false_and,Bool.false_eq_true,if_false]
    rw [Layer.setSlot,update_eq_self]

variable {s}

theorem onlyFirst (holds : Holds live (h + 2) 0 (.sub p)) (one : p.count = 1) (first : (p.ary 0).isNull = false)
    (out : 32^(h + 1) ≤ k) (inside : k < 32^(h + 2)) : live k = none := by
  have only : tally (occupied live (h + 1) 0 p.ary) = 1 := by
    have count := holds.count
    omega
  have there : occupied live (h + 1) 0 p.ary 0 = true := by
    show (!(p.ary 0).isNull) = true
    rw [first]
    rfl
  obtain ⟨i,under⟩ : ∃ i : Fin 32, k / 32^(h + 1) = 32 * 0 + i :=
    ⟨⟨k / 32^(h + 1) % 32,mod_lt _ (by decide)⟩,underChild.mpr ⟨div_eq_of_lt inside,rfl⟩⟩
  have other : i ≠ 0 := by
    rintro rfl
    have least := Nat.div_pos out (Nat.pow_pos (by decide))
    rw [under] at least
    exact absurd least (by decide)
  have vacant := holds.below i
  rw [unoccupied (succ_ne_zero h) (tallyOne only there i other)] at vacant
  exact vacant k under

theorem maskSmall : (id &&& MAX_ID_MASK).toNat < 2^31 := by
  rw [maskNat]
  exact mod_lt _ (by decide)

def replaced (live : Live V) (k : Nat) (ptr : Option V) : Live V := update live k ((live k).map fun _ => ptr)

theorem replacedNone (ptr : Option V) (j : Nat) : replaced live k ptr j = none ↔ live j = none := by
  unfold replaced
  by_cases own : j = k
  · subst own
    rw [update_self,map_eq_none_iff]
  · rw [update_of_ne own]

theorem replacedDead {ptr} (dead : live k = none) : replaced live k ptr = live := by
  unfold replaced
  rw [dead]
  exact update_eq_self_iff.mpr dead.symm

theorem replaceNull (id : BitVec 32) (ptr : Option V) (l : Nat) (slot : Slot V) : (replaceLoop id ptr l slot).2.isNull = slot.isNull := by
  cases slot with
  | null | ptr => cases l <;> rfl
  | sub p =>
    cases l with
    | zero =>
      unfold replaceLoop
      dsimp only
      split <;> rfl
    | succ l => rfl

theorem countKept (holds : Holds live (h + 1) q (.sub p)) (under : k / 32^h = 32 * q + n) (same : ∀ j, j ≠ k → live' j = live j)
    (kept : (if h = 0 then (live' k).isSome else !c.isNull) = occupied live h q p.ary n) :
    p.count = tally (occupied live' h q (update p.ary n c)) := by
  rw [occupiedPath under same,kept,update_eq_self]
  exact holds.count

theorem replaceHolds (ptr : Option V) (holds : Holds live (l + 1) q slot) (small : id.toNat < 2^31) (under : id.toNat / 32^(l + 1) = q) :
    Holds (replaced live id.toNat ptr) (l + 1) q (replaceLoop id ptr l slot).2 := by
  have same (j : Nat) (other : j ≠ id.toNat) : replaced live id.toNat ptr j = live j := update_of_ne other ..
  have full (h q : Nat) : Full (replaced live id.toNat ptr) h q ↔ Full live h q :=
    forall_congr' fun k => forall_congr' fun _ => not_congr (replacedNone ptr k)
  induction l generalizing q slot with
  | zero =>
    cases slot with
    | null => exact fun k there => (replacedNone ptr k).mpr (holds k there)
    | ptr v => cases holds
    | sub p =>
      have own := digitUnder small under
      have number : id.toNat = 32 * q + (digit id 0).val := by simpa using own
      have bit := holds.bits (digit id 0) (some_ne_none _)
      unfold replaceLoop
      dsimp only
      split
      · rename_i set
        obtain ⟨old,alive⟩ := ne_none_iff_exists'.mp (number ▸ fullZero.mp (bit.mp set))
        have now : replaced live id.toNat ptr id.toNat = some ptr := by rw [replaced,update_self,alive]; rfl
        refine pathHolds holds own same ?_ (countKept holds own same ?_) ?_ fun _ _ => rfl
        · show Slot.ofPtr ptr = Slot.ofPtr (replaced live id.toNat ptr (32 * q + digit id 0)).join
          rw [← number,now]
          rfl
        · simp [occupied,now,← number,alive]
        · rw [full]
          exact bit
      · rename_i clear
        have none : live id.toNat = none := by
          rw [bit,fullZero,← number,Decidable.not_not] at clear
          exact clear
        rw [replacedDead none]
        exact holds
  | succ l ih =>
    cases slot with
    | null => exact fun k there => (replacedNone ptr k).mpr (holds k there)
    | ptr v => cases holds
    | sub p =>
      have own := digitUnder small under
      have below := ih (holds.below (digit id (l + 1))) own
      refine pathHolds holds own same below (countKept holds own same ?_) ?_ fun _ _ => rfl
      · rw [replaceNull]
        rfl
      · rw [full]
        exact holds.bits _ (some_ne_none _)

/-- sub_remove sees the digits that the layers have. -/
def cut (layers : Nat) (id : BitVec 32) : BitVec 32 := BitVec.ofNat 32 (id.toNat % 32^layers)

theorem subRemoveDigits {a b : BitVec 32} (same : ∀ j ≤ l, digit a j = digit b j) (slot : Slot V) : subRemove a l slot = subRemove b l slot := by
  induction l generalizing slot with
  | zero => cases slot <;> simp [subRemove,same 0 le_rfl]
  | succ l ih =>
    have below (slot : Slot V) := ih (fun j less => same j (le_succ_of_le less)) slot
    cases slot <;> simp [subRemove,same (l + 1) le_rfl,below]

theorem cutDown (small : id.toNat < 2^31) (low : h + 1 ≤ 6) (slot : Slot V) : (cut (h + 1) id).toNat = id.toNat % 32^(h + 1) ∧
    (cut (h + 1) id).toNat < 2^31 ∧ (cut (h + 1) id).toNat / 32^(h + 1) = 0 ∧ subRemove id h slot = subRemove (cut (h + 1) id) h slot := by
  have most := powLow low
  have less : id.toNat % 32^(h + 1) < 32^(h + 1) := mod_lt _ (Nat.pow_pos (by decide))
  have number : (cut (h + 1) id).toNat = id.toNat % 32^(h + 1) := by
    rw [cut,toNat_ofNat]
    exact mod_eq_of_lt (by omega)
  refine ⟨number,by omega,div_eq_of_lt (by omega),subRemoveDigits (fun j inside => Fin.ext ?_) slot⟩
  rw [digitNat small,digitNat (by omega),number,show h + 1 = j + (1 + (h - j)) by omega,pow_add,mod_mul_right_div_self,pow_add,pow_one,
    mod_mod_of_dvd _ (dvd_mul_right ..)]

section
variable (rep : Represents live s)
include rep

theorem Represents.removeId (small : id.toNat < 2^31) (alive : live id.toNat ≠ none) :
    Represents (update live id.toNat none) (removeId id s) := by
  have inside := not_le.mp fun out => alive (rep.outside _ out)
  have outside (k : Nat) (out : 32^s.layers ≤ k) : update live id.toNat none k = none := by
    rw [update_of_ne (by omega)]
    exact rep.outside k out
  cases top : s.top with
  | none => exact absurd ((rep.empty top).2 _) alive
  | some p =>
    obtain ⟨positive,holds⟩ := rep.filled p top
    obtain ⟨h,height⟩ : ∃ h, s.layers = h + 1 := ⟨s.layers - 1,by omega⟩
    rw [height] at holds inside
    have removed := (subRemoveHolds holds small (div_eq_of_lt inside) alive).2
    simp only [Idr.removeId,top,height,Nat.add_sub_cancel]
    rw [height] at outside
    generalize (subRemove id h (.sub p)).2 = c at *
    cases c with
    | null =>
      have none (k : Nat) : update live id.toNat none k = none := by
        by_cases out : 32^(h + 1) ≤ k
        · exact outside k out
        · exact removed k (div_eq_of_lt (not_le.mp out))
      exact ⟨Nat.zero_le 6,fun _ => ⟨rfl,none⟩,fun p' some => absurd some.symm (some_ne_none p'),fun k _ => none k⟩
    | ptr v => cases removed
    | sub p' => exact .of (height ▸ rep.low) (succ_pos h) removed outside

theorem Represents.shrink : Represents live (shrink s) := by
  unfold Idr.shrink
  cases top : s.top with
  | none => exact rep
  | some p =>
    obtain ⟨positive,holds⟩ := rep.filled p top
    dsimp only
    split
    · rename_i c first
      split
      · rename_i one
        obtain ⟨h,level⟩ : ∃ h, s.layers = h + 2 := ⟨s.layers - 2,by omega⟩
        obtain ⟨low,_,_,outside⟩ := rep
        rw [level] at holds low outside
        rw [level]
        have below := holds.below 0
        rw [first] at below
        refine .of (by omega) (succ_pos h) below fun k out => ?_
        by_cases beyond : 32^(h + 2) ≤ k
        · exact outside k beyond
        · exact onlyFirst holds one.1 (by rw [first]; rfl) out (not_le.mp beyond)
      · exact rep
    · exact rep

theorem Represents.free (free : Nat) : Represents live { s with idFreeCnt := free } :=
  ⟨rep.low,rep.empty,rep.filled,rep.outside⟩

theorem Represents.remove (alive : live (id &&& MAX_ID_MASK).toNat ≠ none) :
    Represents (update live (id &&& MAX_ID_MASK).toNat none) (idrRemove id s) := by
  exact (rep.removeId maskSmall alive).shrink.free _

theorem deadKept (small : id.toNat < 2^31) (dead : live (id.toNat % 32^s.layers) = none) :
    removeId id s = s ∧ removeWarns id s = true := by
  rw [removeWarns,removeId,maskSame small]
  obtain ⟨top,layers,free⟩ := s
  cases top with
  | none => exact ⟨rfl,rfl⟩
  | some p =>
    obtain ⟨positive,holds⟩ := rep.filled p rfl
    obtain ⟨h,rfl⟩ : ∃ h, layers = h + 1 := ⟨layers - 1,(Nat.sub_add_cancel positive).symm⟩
    obtain ⟨number,fits,top,same⟩ := cutDown small (show h + 1 ≤ 6 from rep.low) (.sub p)
    simp [same,subRemoveDead holds fits top (number ▸ dead),topOf]

theorem aliveFound (small : id.toNat < 2^31) (alive : live (id.toNat % 32^s.layers) ≠ none) : removeWarns id s = false := by
  rw [removeWarns,maskSame small]
  cases top : s.top with
  | none => exact absurd ((rep.empty top).2 _) alive
  | some p =>
    obtain ⟨positive,holds⟩ := rep.filled p top
    have low := rep.low
    obtain ⟨h,height⟩ : ∃ h, s.layers = h + 1 := ⟨s.layers - 1,by omega⟩
    rw [height] at holds alive low
    obtain ⟨number,fits,top,same⟩ := cutDown small low (.sub p)
    simp only [height,Nat.add_sub_cancel,same,(subRemoveHolds holds fits top (number ▸ alive)).1,Bool.not_true]

theorem Represents.preGet (answers : List Bool) : Represents live (idrPreGet answers s).2 := by
  induction answers generalizing s with
  | nil => exact rep
  | cons answer answers ih =>
    unfold idrPreGet
    split
    · split
      · exact ih (rep.free _)
      · exact rep
    · exact rep

theorem Represents.replace (ptr : Option V) (id : BitVec 32) :
    Represents (replaced live (id &&& MAX_ID_MASK).toNat ptr) (idrReplace ptr id s).2 := by
  unfold idrReplace
  cases top : s.top with
  | none =>
    rw [replacedDead ((rep.empty top).2 _)]
    exact rep
  | some p =>
    obtain ⟨positive,holds⟩ := rep.filled p top
    obtain ⟨h,level⟩ : ∃ h, s.layers = h + 1 := ⟨s.layers - 1,by omega⟩
    have low := rep.low
    have outside := rep.outside
    rw [level] at holds low outside
    have layer := holds.layer
    have small : (id &&& MAX_ID_MASK).toNat < 2^31 := maskSmall
    have beyond := sleNat small low
    dsimp only
    rw [layer]
    split
    · rename_i out
      rw [replacedDead (outside _ (beyond.mp out))]
      exact rep
    rename_i inside
    have zero := div_eq_of_lt (not_le.mp (mt beyond.mpr inside))
    have held := replaceHolds ptr holds small zero
    have there := replaceNull (id &&& MAX_ID_MASK) ptr h (.sub p)
    generalize replaceLoop (id &&& MAX_ID_MASK) ptr h (.sub p) = r at *
    obtain ⟨old,c⟩ := r
    cases c with
    | null => cases there
    | ptr v => cases held
    | sub p' =>
      have whole : Represents (replaced live (id &&& MAX_ID_MASK).toNat ptr) ⟨some p',h + 1,s.idFreeCnt⟩ :=
        .of low (succ_pos h) held fun k out => (replacedNone ptr k).mpr (outside k out)
      rw [← level] at whole
      exact whole

end

/-! Runs of calls. The map from the ids handed out to their pointers is kept beside the
layers. A call whose search leaves the tree from below its top layer is not part of a run: it
goes on at the left end of the tree with an id that is too large for it. -/

open Fuel Bool

section
inductive Reach : Live V → Handle V → Prop
  | init : Reach (fun _ => none) idrInit
  | preGet {live : Live V} {s : Handle V} (answers : List Bool) : Reach live s → Reach live (idrPreGet answers s).2
  | getNew {live : Live V} {s s' : Handle V} {ptr : Option V} {start id : BitVec 32} : Reach live s → Sound live s.layers start.toNat →
      Ends (idrGetNewAbove · ptr start s) (.ok id,s') → Reach (update live id.toNat (some ptr)) s'
  | failed {live : Live V} {s s' : Handle V} {ptr : Option V} {start : BitVec 32} {e : Errno} : Reach live s →
      Sound live s.layers start.toNat → Ends (idrGetNewAbove · ptr start s) (.error e,s') → Reach live s'
  | remove {live : Live V} {s : Handle V} (id : BitVec 32) : Reach live s → live id.toNat ≠ none →
      Reach (update live id.toNat none) (idrRemove id s)
  | removeUnused {live : Live V} {s : Handle V} (id : BitVec 32) : Reach live s → id.toNat < 2^31 → live id.toNat = none →
      live (id.toNat % 32^s.layers) = none → Reach live (idrRemove id s)
  | replace {live : Live V} {s : Handle V} (ptr : Option V) (id : BitVec 32) : Reach live s →
      Reach (replaced live (id &&& MAX_ID_MASK).toNat ptr) (idrReplace ptr id s).2

def slotPath (layers : Nat) (id : BitVec 32) : List (Fin 32) := (range layers).map (digit id)

variable {s'} {ptr : Option V} {start}

theorem initRepresents : Represents (fun _ => none) (idrInit : Handle V) :=
  ⟨Nat.zero_le 6,fun _ => ⟨rfl,fun _ => rfl⟩,fun p top => absurd top.symm (some_ne_none p),fun _ _ => rfl⟩

theorem Represents.small (rep : Represents live s) {k} (alive : live k ≠ none) : k < 32^s.layers ∧ k < 2^30 := by
  have inside := not_le.mp fun out => alive (rep.outside k out)
  exact ⟨inside,lt_of_lt_of_le inside (powLow rep.low)⟩

theorem Represents.masked (rep : Represents live s) (alive : live id.toNat ≠ none) : id &&& MAX_ID_MASK = id := by
  have small := (rep.small alive).2
  exact maskSame (by omega)

theorem Reach.represents (reach : Reach live s) : Represents live s := by
  induction reach with
  | init => exact initRepresents
  | preGet answers _ ih => exact ih.preGet answers
  | getNew _ sound ends ih =>
    obtain ⟨r,live',ends',got⟩ := getNewAboveEnds ih sound _
    cases endsUnique ends ends'
    cases got with
    | new _ _ _ _ rep => exact rep
  | failed _ sound ends ih =>
    obtain ⟨r,live',ends',got⟩ := getNewAboveEnds ih sound _
    cases endsUnique ends ends'
    cases got with
    | error rep => exact rep
  | remove id _ alive ih =>
    have masked := ih.masked alive
    have removed := ih.remove (masked.symm ▸ alive)
    rwa [masked] at removed
  | removeUnused id _ small _ dead ih =>
    rw [idrRemove,maskSame small,(deadKept ih small dead).1]
    exact ih.shrink.free _
  | replace ptr id _ ih => exact ih.replace ptr id

theorem digitsEqual {a b} (L : Nat) (same : ∀ l < L, a / 32^l % 32 = b / 32^l % 32) : a % 32^L = b % 32^L := by
  induction L with
  | zero => rw [pow_zero,mod_one,mod_one]
  | succ L ih =>
    rw [mod_pow_succ,mod_pow_succ,ih fun l less => same l (lt_succ_of_lt less),same L (lt_succ_self L)]

theorem Represents.apart (rep : Represents live s) {j k} (one : live j.toNat ≠ none) (other : live k.toNat ≠ none)
    (path : slotPath s.layers j = slotPath s.layers k) : j = k := by
  obtain ⟨insideJ,smallJ⟩ := rep.small one
  obtain ⟨insideK,smallK⟩ := rep.small other
  have digits := digitsEqual (a := j.toNat) (b := k.toNat) s.layers fun l less => by
    have same := map_inj_left.mp path l (mem_range.mpr less)
    rw [← digitNat (by omega),← digitNat (by omega),same]
  rw [mod_eq_of_lt insideJ,mod_eq_of_lt insideK] at digits
  exact eq_of_toNat_eq digits

theorem getNewAboveLeast (reach : Reach live s) (sound : Sound live s.layers start.toNat) (ptr : Option V) :
    (∃ r, Ends (idrGetNewAbove · ptr start s) r) ∧
    ∀ id s', Ends (idrGetNewAbove · ptr start s) (.ok id,s') →
      (start.toNat ≤ id.toNat ∧ id.toNat < 2^31 ∧ live id.toNat = none ∧ ∀ k, start.toNat ≤ k → k < id.toNat → live k ≠ none) ∧
      idrFind id s' = some ptr ∧
      (∀ k : BitVec 32, k.toNat < 2^31 → k ≠ id → idrFind k s' = idrFind k s) ∧
      ∀ j k : BitVec 32, update live id.toNat (some ptr) j.toNat ≠ none → update live id.toNat (some ptr) k.toNat ≠ none →
        slotPath s'.layers j = slotPath s'.layers k → j = k := by
  have rep := reach.represents
  obtain ⟨r,live',ends,got⟩ := getNewAboveEnds rep sound ptr
  refine ⟨⟨r,ends⟩,fun id s' ends' => ?_⟩
  cases endsUnique ends ends'
  cases got with
  | new low passed free small rep' =>
    refine ⟨⟨low,by omega,free,passed⟩,?_,fun k inside other => ?_,fun j k => rep'.apart⟩
    · rw [rep'.find (by omega),update_self]
      rfl
    · have different : k.toNat ≠ id.toNat := fun eq => other (eq_of_toNat_eq eq)
      rw [rep'.find inside,rep.find inside,update_of_ne different]

theorem subAllocMono {L fuel : Nat} {t : Search V} {r : Alloc V × Nat} (done : subAlloc L fuel t = some r) : subAlloc L (fuel + 1) t = some r := by
  induction fuel generalizing t with
  | zero => cases done
  | succ fuel ih =>
    rw [subAlloc] at done ⊢
    obtain ⟨step,run,rest⟩ := bind_eq_some_iff.mp done
    rw [run]
    cases step with
    | again t' => exact ih rest
    | stop a free => exact rest

theorem getEmptySlotMono {fuel} {r : Found V} (done : getEmptySlot fuel id s = some r) : getEmptySlot (fuel + 1) id s = some r := by
  induction fuel generalizing id s with
  | zero => cases done
  | succ fuel ih =>
    rw [getEmptySlot] at done ⊢
    cases first : firstLayer s with
    | none =>
      rw [first] at done
      exact done
    | some layer =>
      obtain ⟨p,layers,free,new⟩ := layer
      rw [first] at done
      dsimp only at done ⊢
      cases built : buildUp id MAX_LEVEL p layers free new with
      | failed free =>
        rw [built] at done
        exact done
      | ready p layers free =>
        rw [built] at done
        obtain ⟨⟨a,left⟩,search,rest⟩ := bind_eq_some_iff.mp done
        dsimp only
        rw [subAllocMono search]
        cases a with
        | slot id p pa => exact rest
        | needToGrow id top => exact ih rest
        | noMoreSpace top => exact rest
        | noMemory top => exact rest

theorem getNewAboveEndsAt {fuel r} (done : idrGetNewAbove fuel ptr start s = some r) :
    Ends (idrGetNewAbove · ptr start s) r := by
  refine endsMono (fun fuel done => ?_) done
  obtain ⟨found,search,rest⟩ := bind_eq_some_iff.mp done
  exact bind_eq_some_iff.mpr ⟨found,getEmptySlotMono search,rest⟩

theorem ranTo (fuel : Nat) {seen : Handle V → Bool}
    (run : (idrGetNewAbove fuel ptr start s).any (fun r => r.1.toOption == some id && seen r.2) = true) :
    ∃ s', Ends (idrGetNewAbove · ptr start s) (.ok id,s') ∧ seen s' = true := by
  cases done : idrGetNewAbove fuel ptr start s with
  | none =>
    rw [done] at run
    cases run
  | some r =>
    obtain ⟨r,s'⟩ := r
    rw [done,any_some,and_eq_true,beq_iff_eq] at run
    cases r with
    | error e => cases run.1
    | ok id' =>
      cases run.1
      exact ⟨s',getNewAboveEndsAt done,run.2⟩

end

def stocked : Handle Nat := (idrPreGet (replicate 14 true) idrInit).2

theorem stockedReach : Reach (fun _ => none) stocked := .preGet _ .init

theorem stockedSound (id : BitVec 32) (small : id.toNat < 2^30) : Sound (fun _ => none : Live Nat) stocked.layers id.toNat :=
  ⟨small,.inl ⟨_,le_rfl,heightReached,rfl⟩⟩

theorem fortyReach : ∃ s, Reach (update (fun _ => none) 40 (some (some 7))) s ∧ s.layers = 2 ∧ idrFind 40#32 s = some (some 7) ∧
    (∃ s', Ends (idrGetNewAbove · (some 8) 40#32 s) (.ok 41#32,s')) := by
  obtain ⟨s,ends,seen⟩ : ∃ s, Ends (idrGetNewAbove · (some 7) 40#32 stocked) (.ok 40#32,s) ∧
      (idrFind 40#32 s == some (some 7) && s.layers == 2 &&
        (idrGetNewAbove 4 (some 8) 40#32 s).any fun r => r.1.toOption == some 41#32 && true) = true := ranTo 4 (by decide +kernel)
  rw [and_eq_true,and_eq_true,beq_iff_eq,beq_iff_eq] at seen
  obtain ⟨s',ends',_⟩ : ∃ s', Ends (idrGetNewAbove · (some 8) 40#32 s) (.ok 41#32,s') ∧ true = true := ranTo 4 seen.2
  exact ⟨s,.getNew stockedReach (stockedSound 40#32 (by decide)) ends,seen.1.2,seen.1.1,s',ends'⟩

theorem nextNewLeast : ∃ s s', Reach (update (fun _ => none) 40 (some (some 7))) s ∧ Ends (idrGetNewAbove · (some 8) 40#32 s) (.ok 41#32,s') ∧
    idrFind 41#32 s' = some (some 8) ∧ idrFind 40#32 s' = some (some 7) := by
  obtain ⟨s,reach,layers,found,s',ends⟩ := fortyReach
  have sound : Sound (update (fun _ => none : Live Nat) 40 (some (some 7))) s.layers (40#32).toNat := by
    refine ⟨by decide,.inl ⟨41,by decide,?_,rfl⟩⟩
    rw [layers,heightStop (by decide) (by decide)]
    decide
  obtain ⟨_,new,others,_⟩ := (getNewAboveLeast reach sound (some 8)).2 _ s' ends
  exact ⟨s,s',reach,ends,new,(others 40#32 (by decide) (by decide)).trans found⟩

def atZero (id : BitVec 32) (v : Nat) (s : Handle Nat) : Bool := idrFind id s == some none && idrFind 0#32 s == some (some v)

theorem atZeroReads {id v s} (seen : atZero id v s = true) :
    idrFind id s = some none ∧ idrFind 0#32 s = some (some v) := by
  rwa [atZero,and_eq_true,beq_iff_eq,beq_iff_eq] at seen

theorem getNewAboveAliases : (∃ s', Ends (idrGetNewAbove · (some 7) 0x40000000#32 stocked) (.ok 0x40000000#32,s') ∧
      idrFind 0#32 stocked = some none ∧ idrFind 0x40000000#32 s' = some none ∧ idrFind 0#32 s' = some (some 7)) ∧
    ∃ s s', Ends (idrGetNewAbove · (some 7) 1023#32 stocked) (.ok 1023#32,s) ∧
      Ends (idrGetNewAbove · (some 8) 1023#32 s) (.ok 1024#32,s') ∧
      idrFind 0#32 s = some none ∧ idrFind 1024#32 s' = some none ∧ idrFind 0#32 s' = some (some 8) := by
  constructor
  · obtain ⟨s',ends,seen⟩ : ∃ s', Ends (idrGetNewAbove · (some 7) 0x40000000#32 stocked) (.ok 0x40000000#32,s') ∧
        atZero 0x40000000#32 7 s' = true := ranTo 40 (by decide +kernel)
    exact ⟨s',ends,rfl,atZeroReads seen⟩
  · obtain ⟨s,first,seen⟩ : ∃ s, Ends (idrGetNewAbove · (some 7) 1023#32 stocked) (.ok 1023#32,s) ∧
        (idrFind 0#32 s == some none && (idrGetNewAbove 40 (some 8) 1023#32 s).any fun r =>
          r.1.toOption == some 1024#32 && atZero 1024#32 8 r.2) = true := ranTo 40 (by decide +kernel)
    rw [and_eq_true,beq_iff_eq] at seen
    obtain ⟨s',second,seen'⟩ := ranTo 40 seen.2
    exact ⟨s,s',first,second,seen.1,atZeroReads seen'⟩

end EclairKernel.Idr
