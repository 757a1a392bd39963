import EclairKernel.FsrSearch
import Mathlib.Data.List.Perm.Subperm

/-! What _LoadMetaData stores of a group, said from the contents of its pages, and the ends
that _Mount comes to. -/
namespace EclairKernel.FsrMount
open List Nat Function
open Option (some)

-- the slots before the first empty one
def slots {β : Type} [DecidableEq β] (slot : Nat → β) (empty : β) : Nat → Nat → List β
  | 0,_ => []
  | left + 1,i => if slot i = empty then [] else slot i :: slots slot empty left (i + 1)

def slotsBMF (p : Page) (sct : Nat) : Nat → Nat → List BMF := slots (bmfAt p sct) emptySlot
def slotsRCB (p : Page) (sct : Nat) : Nat → Nat → List UInt16 := slots (rcbAt p sct) 0xFFFF

def isFixedSector (sct : Nat) : Bool :=
  sct = BML_PCH_SCT_OFF ∨ sct = BML_PIA_SCT_OFF ∨ sct = BML_ERL_SCT_OFF ∨ sct = BML_BAB_SCT_OFF

def sectorBMFs (flash : Flash) (vol : Vol) (l : Load) (sct : Nat) : List BMF :=
  if isFixedSector sct ∨ !isBMSSector vol sct then []
  else slotsBMF (sectorPage flash vol l.nPbn l.nStartOffset sct) (sct % vol.nSctsPerPg) BML_BMFS_PER_BMS 0

def sectorRCBs (flash : Flash) (vol : Vol) (l : Load) (sct : Nat) : List UInt16 :=
  if isFixedSector sct ∨ isBMSSector vol sct ∨ !isRCBSector vol sct ∨ l.kind = .lpcb then []
  else slotsRCB (sectorPage flash vol l.nPbn l.nStartOffset sct) (sct % vol.nSctsPerPg) BML_RCBFS_PER_RCBS 0

def pageReadable (flash : Flash) (vol : Vol) (l : Load) (sct : Nat) : Bool :=
  decide (sct % vol.nSctsPerPg ≠ 0) || (sectorPage flash vol l.nPbn l.nStartOffset sct).readable

/-- The sectors of the group before its first page that cannot be read. -/
def sectors (flash : Flash) (vol : Vol) (l : Load) : List Nat :=
  (range' 0 (numOfSectors vol)).takeWhile (pageReadable flash vol l)

def bmfsOf (flash : Flash) (vol : Vol) (l : Load) : List BMF := (sectors flash vol l).flatMap (sectorBMFs flash vol l)
def rcbsOf (flash : Flash) (vol : Vol) (l : Load) : List UInt16 := (sectors flash vol l).flatMap (sectorRCBs flash vol l)

structure Loads (flash : Flash) (vol : Vol) (before : List BMF) (l : Load) : Prop where
  readable : (range' 0 (numOfSectors vol)).all (pageReadable flash vol l) = true
  within : (before ++ bmfsOf flash vol l).length ≤ bmfLimit vol + 1

def loadOf (kind : Kind) (g : Nat × Nat) : Load := ⟨kind,g.1,g.2⟩

def lowerGroup (flash : Flash) (vol : Vol) : Option Load :=
  (group flash vol .lpcb (pcbBlock flash vol .lpcb) (tpcbBlock flash vol)).map (loadOf .lpcb)

-- what _Mount takes for the backup block of the UPCB
def spareBlock (flash : Flash) (vol : Vol) : Nat := spare flash vol (pcbBlock flash vol .lpcb) (tpcbBlock flash vol)

def upperGroup (flash : Flash) (vol : Vol) : Option Load :=
  (group flash vol .upcb (pcbBlock flash vol .upcb) (spareBlock flash vol)).map (loadOf .upcb)

def filled (bmfs : List BMF) (rcbs : List UInt16) : Table → Nat
  | .bmf => bmfs.length
  | .rcb => rcbs.length
  | .buMap => 0

structure Stored (bmfs : List BMF) (rcbs : List UInt16) (r : Rsv) : Prop where
  count : r.nNumOfBMFs = bmfs.length
  candidates : r.nNumOfRCBs = rcbs.length
  cells : ∀ f, f ∈ bmfs ↔ ∃ i < r.nNumOfBMFs, r.pstBMF i = f
  writes : ∀ w, w ∈ r.writes ↔ w.index < filled bmfs rcbs w.table

structure Filling (base : Rsv) (bmfs : List BMF) (rcbs : List UInt16) (r : Rsv) : Prop extends Stored bmfs rcbs r where
  places : SamePlaces base r

section
variable {flash} {vol : Vol} {bmfs : List BMF} {rcbs : List UInt16} {base r r' : Rsv} {p sct left i kind l}

theorem Stored.same (stored : Stored bmfs rcbs r) (same : SameTables r r') : Stored bmfs rcbs r' :=
  ⟨same.count ▸ stored.count,same.candidates ▸ stored.candidates,by rw [same.count,same.bmf]; exact stored.cells,
    by rw [same.writes]; exact stored.writes⟩

theorem mkWrite (w : Write) (t : Table) (i : Nat) : w = ⟨t,i⟩ ↔ w.table = t ∧ w.index = i := by
  cases w
  simp

theorem Filling.storeBMF (stored : Filling base bmfs rcbs r) (f : BMF) (small : bmfs.length + 1 < 2^16) :
    Filling base (bmfs ++ [f]) rcbs (storeBMF r f) := by
  have count : (r.nNumOfBMFs + 1) % 2^16 = bmfs.length + 1 := by rw [stored.count,mod_eq_of_lt small]
  refine ⟨⟨by rw [length_append]; exact count,stored.candidates,fun f' => ?_,fun w => ?_⟩,
    stored.places.trans ⟨fun k => by cases k <;> rfl,rfl,rfl⟩⟩
  · show _ ↔ ∃ i < (r.nNumOfBMFs + 1) % 2^16, update r.pstBMF r.nNumOfBMFs f i = f'
    rw [mem_append,stored.cells,count,mem_singleton,stored.count]
    constructor
    · rintro (⟨i,less,eq⟩ | rfl)
      · exact ⟨i,by omega,by rwa [update_of_ne (by omega)]⟩
      · exact ⟨bmfs.length,by omega,update_self ..⟩
    · rintro ⟨i,less,eq⟩
      by_cases last : i = bmfs.length
      · rw [last,update_self] at eq
        exact .inr eq.symm
      · rw [update_of_ne last] at eq
        exact .inl ⟨i,by omega,eq⟩
  · show w ∈ r.writes ++ [⟨.bmf,r.nNumOfBMFs⟩] ↔ _
    rw [mem_append,mem_singleton,stored.writes,mkWrite,stored.count]
    cases w.table <;> simp [filled]
    omega

theorem Filling.storeRCB (stored : Filling base bmfs rcbs r) (c : UInt16) (small : rcbs.length + 1 < 2^16) :
    Filling base bmfs (rcbs ++ [c]) (storeRCB r c) := by
  have count : (r.nNumOfRCBs + 1) % 2^16 = rcbs.length + 1 := by rw [stored.candidates,mod_eq_of_lt small]
  refine ⟨⟨stored.count,by rw [length_append]; exact count,stored.cells,fun w => ?_⟩,
    stored.places.trans ⟨fun k => by cases k <;> rfl,rfl,rfl⟩⟩
  show w ∈ r.writes ++ [⟨.rcb,r.nNumOfRCBs⟩] ↔ _
  rw [mem_append,mem_singleton,stored.writes,mkWrite,stored.candidates]
  cases w.table <;> simp [filled]
  omega

def Reads (vol : Vol) (base : Rsv) (bmfs : List BMF) (rcbs : List UInt16) (out : Bool × Rsv) : Prop :=
  (out.1 = true ↔ bmfs.length ≤ bmfLimit vol + 1) ∧ Filling base (bmfs.take (bmfLimit vol + 1)) rcbs out.2

theorem readsNone (within : bmfs.length ≤ bmfLimit vol + 1) (stored : Filling base bmfs rcbs r) :
    Reads vol base (bmfs ++ []) rcbs (true,r) := by
  rw [append_nil,Reads,take_of_length_le within]
  exact ⟨iff_of_true rfl within,stored⟩

theorem loadBMSIs (stored : Filling base bmfs rcbs r) (within : bmfs.length ≤ bmfLimit vol + 1)
    (small : (bmfs ++ slotsBMF p sct left i).length < 2^16) :
    Reads vol base (bmfs ++ slotsBMF p sct left i) rcbs (loadBMS vol p sct left i r) := by
  induction left generalizing i bmfs r with
  | zero => exact readsNone within stored
  | succ left ih =>
    rw [slotsBMF,slots] at small ⊢
    rw [loadBMS]
    by_cases empty : bmfAt p sct i = emptySlot
    · rw [if_pos empty,if_pos empty]
      exact readsNone within stored
    rw [if_neg empty] at small ⊢
    rw [if_neg empty]
    by_cases full : bmfLimit vol < r.nNumOfBMFs
    · have whole : bmfs.length = bmfLimit vol + 1 := by
        have := stored.count
        omega
      rw [if_pos full,Reads,← whole,take_left]
      exact ⟨by simp,stored⟩
    · have room : bmfs.length + 1 ≤ bmfLimit vol + 1 := by
        have := stored.count
        omega
      rw [if_neg full,append_cons]
      rw [append_cons] at small
      exact ih (stored.storeBMF _ (by simp only [length_append,length_singleton] at small; omega)) (by simpa using room) small

theorem loadRCBsIs (stored : Filling base bmfs rcbs r) (small : (rcbs ++ slotsRCB p sct left i).length < 2^16) :
    Filling base bmfs (rcbs ++ slotsRCB p sct left i) (loadRCBs p sct left i r) := by
  induction left generalizing i rcbs r with
  | zero => rwa [slotsRCB,slots,append_nil]
  | succ left ih =>
    simp only [loadRCBs,slotsRCB,slots] at small ⊢
    by_cases empty : rcbAt p sct i = 0xFFFF
    · rwa [if_pos empty,if_pos empty,append_nil]
    simp only [if_neg empty] at small ⊢
    rw [append_cons] at small ⊢
    exact ih (stored.storeRCB _ (by simp only [length_append,length_singleton] at small; omega)) small

theorem loadHeaderFills (stored : Filling base bmfs rcbs r) : Filling base bmfs rcbs (loadHeader p kind r) := by
  have tables : SameTables r (loadHeader p kind r) := by
    cases kind <;> (simp only [loadHeader]; split <;> exact ⟨rfl,rfl,rfl,rfl,rfl⟩)
  refine ⟨stored.toStored.same tables,stored.places.trans ?_⟩
  cases kind <;> (simp only [loadHeader]; split <;> exact ⟨fun k => by cases k <;> rfl,rfl,rfl⟩)

theorem loadSectorIs (stored : Filling base bmfs rcbs r) (within : bmfs.length ≤ bmfLimit vol + 1)
    (small : (bmfs ++ sectorBMFs flash vol l sct).length < 2^16) (small' : (rcbs ++ sectorRCBs flash vol l sct).length < 2^16) :
    Reads vol base (bmfs ++ sectorBMFs flash vol l sct) (rcbs ++ sectorRCBs flash vol l sct)
      (loadSector flash vol l.nPbn l.nStartOffset l.kind sct r) := by
  by_cases fixed : isFixedSector sct
  · have noBMFs : sectorBMFs flash vol l sct = [] := by simp [sectorBMFs,fixed]
    have noRCBs : sectorRCBs flash vol l sct = [] := by simp [sectorRCBs,fixed]
    have place : loadSector flash vol l.nPbn l.nStartOffset l.kind sct r =
        (true,if sct = BML_PCH_SCT_OFF then loadHeader (sectorPage flash vol l.nPbn l.nStartOffset sct) l.kind r else r) := by
      simp only [isFixedSector,decide_eq_true_eq] at fixed
      unfold loadSector
      dsimp only
      split
      · rfl
      · rw [if_pos (fixed.resolve_left ‹_›)]
    rw [noBMFs,noRCBs,append_nil rcbs,place]
    refine readsNone within ?_
    split
    · exact loadHeaderFills stored
    · exact stored
  have free : ¬sct = BML_PCH_SCT_OFF ∧ ¬(sct = BML_PIA_SCT_OFF ∨ sct = BML_ERL_SCT_OFF ∨ sct = BML_BAB_SCT_OFF) := by
    simpa [isFixedSector] using fixed
  unfold loadSector
  dsimp only
  rw [if_neg free.1,if_neg free.2]
  by_cases isBMS : isBMSSector vol sct
  · have slots : sectorBMFs flash vol l sct = slotsBMF (sectorPage flash vol l.nPbn l.nStartOffset sct)
        (sct % vol.nSctsPerPg) BML_BMFS_PER_BMS 0 := by simp [sectorBMFs,fixed,isBMS]
    have noRCBs : sectorRCBs flash vol l sct = [] := by simp [sectorRCBs,isBMS]
    rw [slots] at small ⊢
    rw [if_pos isBMS,noRCBs,append_nil rcbs]
    exact loadBMSIs stored within small
  have noBMFs : sectorBMFs flash vol l sct = [] := by simp [sectorBMFs,isBMS]
  rw [if_neg isBMS,noBMFs]
  by_cases isRCB : isRCBSector vol sct ∧ l.kind = .upcb
  · have slots : sectorRCBs flash vol l sct = slotsRCB (sectorPage flash vol l.nPbn l.nStartOffset sct)
        (sct % vol.nSctsPerPg) BML_RCBFS_PER_RCBS 0 := by simp [sectorRCBs,fixed,isBMS,isRCB.1,isRCB.2]
    rw [slots] at small' ⊢
    rw [if_pos isRCB]
    exact readsNone within (loadRCBsIs stored small')
  · have noRCBs : sectorRCBs flash vol l sct = [] := by
      cases kind : l.kind with
      | lpcb => simp [sectorRCBs,kind]
      | upcb => simp_all [sectorRCBs]
    rw [if_neg isRCB,noRCBs,append_nil rcbs]
    exact readsNone within stored

theorem fewRCBSectors (vol : Vol) : numOfRCBSectors vol ≤ 2 := by
  unfold numOfRCBSectors numOfBMS
  split
  · split <;> decide
  · decide

theorem hasBMFs (some_ : sectorBMFs flash vol l sct ≠ []) : isBMSSector vol sct = true := by
  by_contra! not
  exact some_ (by simp [sectorBMFs,not])

theorem hasRCBs (some_ : sectorRCBs flash vol l sct ≠ []) : isBMSSector vol sct = false ∧ isRCBSector vol sct = true := by
  constructor
  · by_contra! yes
    exact some_ (by simp [sectorRCBs,eq_true_of_ne_false yes])
  · by_contra! not
    exact some_ (by simp [sectorRCBs,not])

-- a block map sector never follows a sector of candidate blocks
theorem sectorsOrdered {s s'} (le : s ≤ s') : sectorRCBs flash vol l s = [] ∨ sectorBMFs flash vol l s' = [] := by
  by_contra! both
  have bms := hasBMFs both.2
  have rcb := hasRCBs both.1
  have few := fewRCBSectors vol
  simp only [isBMSSector,isRCBSector,Bool.and_eq_true,decide_eq_true_eq,Bool.and_eq_false_iff,decide_eq_false_iff_not] at bms rcb
  unfold numOfSectors BML_NUM_OF_META_PGS at rcb
  omega

theorem loadSectorsIs (stored : Filling base bmfs rcbs r) (within : bmfs.length ≤ bmfLimit vol + 1)
    {read : List Nat} (isRead : read = (range' sct left).takeWhile (pageReadable flash vol l))
    {fields : List BMF} (isFields : bmfs ++ read.flatMap (sectorBMFs flash vol l) = fields) (small : fields.length < 2^16)
    {candidates : List UInt16} (isCandidates : rcbs ++ read.flatMap (sectorRCBs flash vol l) = candidates)
    (small' : candidates.length < 2^16) :
    ((loadSectors flash vol l.nPbn l.nStartOffset l.kind left sct r).1 = true ↔
      (range' sct left).all (pageReadable flash vol l) = true ∧ fields.length ≤ bmfLimit vol + 1) ∧
    Filling base (fields.take (bmfLimit vol + 1)) (if fields.length ≤ bmfLimit vol + 1 then candidates else rcbs)
      (loadSectors flash vol l.nPbn l.nStartOffset l.kind left sct r).2 := by
  induction left generalizing sct bmfs rcbs r read with
  | zero =>
    subst isRead
    simp only [range'_zero,takeWhile_nil,flatMap_nil,append_nil] at isFields isCandidates
    subst isFields isCandidates
    rw [if_pos within,take_of_length_le within]
    exact ⟨by simp [loadSectors,within],stored⟩
  | succ left ih =>
    rw [range'_succ,takeWhile_cons] at isRead
    rw [range'_succ,all_cons,loadSectors]
    by_cases readable : pageReadable flash vol l sct = true
    · rw [if_pos readable] at isRead
      have go : ¬(sct % vol.nSctsPerPg = 0 ∧ (!(sectorPage flash vol l.nPbn l.nStartOffset sct).readable) = true) := by
        simpa [pageReadable,or_iff_not_imp_left] using readable
      rw [if_neg go,readable,Bool.true_and]
      dsimp only
      rw [isRead,flatMap_cons,← append_assoc] at isFields isCandidates
      have count := congrArg length isFields
      have count' := congrArg length isCandidates
      rw [length_append] at count count'
      obtain ⟨ok,first⟩ := @loadSectorIs flash vol bmfs rcbs base r sct l stored within (by omega) (by omega)
      by_cases fits : (bmfs ++ sectorBMFs flash vol l sct).length ≤ bmfLimit vol + 1
      · rw [take_of_length_le fits] at first
        obtain ⟨all,final⟩ := ih first fits rfl isFields isCandidates
        rw [if_pos (ok.mpr fits)]
        refine ⟨all,?_⟩
        by_cases whole : fields.length ≤ bmfLimit vol + 1
        · rwa [if_pos whole] at final ⊢
        -- a field is left that does not fit, so this was no sector of candidate blocks
        have noRCBs : sectorRCBs flash vol l sct = [] := by
          by_contra some_
          refine whole (isFields ▸ ?_)
          rwa [flatMap_eq_nil_iff.mpr fun s mem => ?_,append_nil]
          have after := (mem_range'_1.mp ((takeWhile_sublist _).subset mem)).1
          exact (sectorsOrdered (show sct ≤ s by omega)).resolve_left some_
        rw [if_neg whole] at final ⊢
        rwa [noRCBs,append_nil] at final
      · have more : ¬fields.length ≤ bmfLimit vol + 1 := by omega
        have noRCBs : sectorRCBs flash vol l sct = [] := (sectorsOrdered le_rfl).resolve_right fun none_ => by
          rw [none_,append_nil] at fits
          exact fits within
        rw [if_neg (mt ok.mp fits),if_neg more,← isFields,take_append_of_le_length (by omega)]
        rw [noRCBs,append_nil] at first
        exact ⟨⟨(absurd · Bool.false_ne_true),fun both => absurd (isFields ▸ both.2) more⟩,first⟩
    · rw [if_neg readable] at isRead
      have stop : sct % vol.nSctsPerPg = 0 ∧ (!(sectorPage flash vol l.nPbn l.nStartOffset sct).readable) = true := by
        simpa [pageReadable] using readable
      rw [isRead,flatMap_nil,append_nil] at isFields isCandidates
      subst isFields isCandidates
      rw [if_pos stop,if_pos within,take_of_length_le within]
      exact ⟨by simp [readable],stored⟩

theorem slotsLength {β : Type} [DecidableEq β] {slot : Nat → β} {empty} : (slots slot empty left i).length ≤ left := by
  induction left generalizing i with
  | zero => exact le_rfl
  | succ left ih =>
    unfold slots
    split
    · exact Nat.zero_le _
    · exact succ_le_succ ih

theorem sectorsLength {β : Type} {f : Nat → List β} {c a n : Nat} (each : ∀ s, (f s).length ≤ c)
    (others : ∀ s, f s ≠ [] → a ≤ s ∧ s < a + n) {read : List Nat} (once : read.Nodup) : (read.flatMap f).length ≤ n * c := by
  have bound (l : List Nat) : (l.flatMap f).length ≤ (l.filter fun s => !(f s).isEmpty).length * c := by
    induction l with
    | nil => simp
    | cons s rest ih =>
      rw [flatMap_cons,length_append,filter_cons]
      by_cases empty : f s = []
      · simpa [empty] using ih
      · rw [if_pos (by simpa using empty),length_cons,succ_mul]
        have := each s
        omega
  have inside : (read.filter fun s => !(f s).isEmpty) ⊆ range' a n := fun s mem =>
    mem_range'_1.mpr (others s (by simpa using (mem_filter.mp mem).2))
  have fewer := (subperm_of_subset (once.filter _) inside).length_le
  rw [length_range'] at fewer
  exact le_trans (bound read) (Nat.mul_le_mul_right c fewer)

theorem sectorsNodup : (sectors flash vol l).Nodup := (nodup_range').sublist (takeWhile_sublist _)

theorem bmfsFew : (bmfsOf flash vol l).length ≤ 1270 := by
  have few : numOfBMS vol ≤ 10 := by
    unfold numOfBMS
    split <;> decide
  refine le_trans (sectorsLength (c := 127) (a := vol.nSctsPerPg) (fun s => ?_) (fun s some_ => ?_) sectorsNodup)
    (Nat.mul_le_mul_right 127 few)
  · unfold sectorBMFs
    split
    · exact Nat.zero_le _
    · exact slotsLength
  · simpa [isBMSSector] using hasBMFs some_

theorem rcbsFew : (rcbsOf flash vol l).length ≤ 512 := by
  refine le_trans (sectorsLength (c := 256) (a := numOfSectors vol - numOfRCBSectors vol) (fun s => ?_) (fun s some_ => ?_)
    sectorsNodup) (Nat.mul_le_mul_right 256 (fewRCBSectors vol))
  · unfold sectorRCBs
    split
    · exact Nat.zero_le _
    · exact slotsLength
  · have isRCB := (hasRCBs some_).2
    simp only [isRCBSector,Bool.and_eq_true,decide_eq_true_eq] at isRCB
    omega

structure Loaded (flash : Flash) (vol : Vol) (before : List BMF) (l : Load) (r : Rsv) (nRet : Ret) (r' : Rsv) : Prop where
  good : Loads flash vol before l → nRet = .FSR_BML_SUCCESS
  bad : ¬Loads flash vol before l → nRet = notLoaded l.kind
  loads : r'.loads = r.loads ++ [l]
  stored : Stored ((before ++ bmfsOf flash vol l).take (bmfLimit vol + 1))
    (if (before ++ bmfsOf flash vol l).length ≤ bmfLimit vol + 1 then rcbsOf flash vol l else []) r'
  others : ∀ k, k ≠ l.kind → sbnOf r' k = sbnOf r k
  tpcb : r'.nTPCBSbn = spare flash vol (sbnOf r l.kind) r.nTPCBSbn

variable {before}

theorem mountKindIs (pages : 4 ∣ vol.nNumOfPgsInSLCBlk) (small : vol.nNumOfPgsInSLCBlk < 2^31) (stored : Stored before [] r)
    (within : before.length ≤ bmfLimit vol + 1) (few : before.length ≤ 1270) : ∃ nRet r', mountKind flash vol kind r = some (nRet,r') ∧
      (group flash vol kind (sbnOf r kind) r.nTPCBSbn = none → nRet = notFound kind ∧ SameTables r r') ∧
      ∀ g, group flash vol kind (sbnOf r kind) r.nTPCBSbn = some g → Loaded flash vol before (loadOf kind g) r nRet r' := by
  obtain ⟨r₁,place,tables,others,found⟩ := @locateIs flash vol kind r pages small
  simp only [mountKind,place]
  cases taken : group flash vol kind (sbnOf r kind) r.nTPCBSbn with
  | none => exact ⟨_,_,rfl,fun _ => ⟨rfl,tables⟩,by simp⟩
  | some g =>
    refine ⟨_,_,rfl,by simp,fun g' eq => ?_⟩
    cases eq
    obtain ⟨block,tpcb⟩ := found g taken
    have kept := stored.same tables
    let listed : Rsv := { r₁ with loads := r₁.loads ++ [loadOf kind g] }
    have start : Filling listed before [] listed := ⟨⟨kept.count,kept.candidates,kept.cells,kept.writes⟩,.refl _⟩
    have bmfs := @bmfsFew flash vol (loadOf kind g)
    have rcbs := @rcbsFew flash vol (loadOf kind g)
    obtain ⟨ok,final⟩ := @loadSectorsIs flash vol before [] listed listed 0 (numOfSectors vol) (loadOf kind g) start within _ rfl _ rfl
      (by rw [length_append]; exact lt_of_le_of_lt (Nat.add_le_add few bmfs) (by decide)) _ rfl (lt_of_le_of_lt rcbs (by decide))
    have call : loadMetaData flash vol kind (sbnOf r₁ kind) g.2 r₁ = loadSectors flash vol g.1 g.2 kind (numOfSectors vol) 0 listed := by
      rw [block]
      rfl
    simp only [call]
    refine ⟨fun loads => if_pos (ok.mpr ⟨loads.readable,loads.within⟩),fun fails => if_neg fun yes => fails ⟨(ok.mp yes).1,(ok.mp yes).2⟩,
      final.places.loads.trans (by rw [← tables.loads]),final.toStored,fun k other => (final.places.sbn k).trans ?_,final.places.tpcb.trans tpcb⟩
    rw [← others k other]
    cases k <;> rfl

end

/-! The ends of _Mount. -/

inductive Mounted (flash : Flash) (vol : Vol) : Ret → Rsv → Prop
  | unready {nRet r} (unready : ¬Ready flash vol) (tables : SameTables initBBM r) : Mounted flash vol nRet r
  | noLower {r} (ready : Ready flash vol) (lower : lowerGroup flash vol = none) (tables : SameTables initBBM r) :
      Mounted flash vol .FSR_BML_NO_LPCB r
  | lowerFails {r} (ready : Ready flash vol) (l : Load) (lower : lowerGroup flash vol = some l) (fails : ¬Loads flash vol [] l)
      (loads : r.loads = [l]) (stored : Stored ((bmfsOf flash vol l).take (bmfLimit vol + 1)) [] r) :
      Mounted flash vol .FSR_BML_LOAD_LBMS_FAILURE r
  | noUpper {r} (ready : Ready flash vol) (l : Load) (lower : lowerGroup flash vol = some l) (lowerLoads : Loads flash vol [] l)
      (upper : upperGroup flash vol = none) (loads : r.loads = [l]) (stored : Stored (bmfsOf flash vol l) [] r) :
      Mounted flash vol .FSR_BML_NO_UPCB r
  | upperFails {r} (ready : Ready flash vol) (l u : Load) (lower : lowerGroup flash vol = some l) (lowerLoads : Loads flash vol [] l)
      (upper : upperGroup flash vol = some u) (fails : ¬Loads flash vol (bmfsOf flash vol l) u) (loads : r.loads = [l,u])
      (stored : Stored ((bmfsOf flash vol l ++ bmfsOf flash vol u).take (bmfLimit vol + 1))
        (if (bmfsOf flash vol l ++ bmfsOf flash vol u).length ≤ bmfLimit vol + 1 then rcbsOf flash vol u else []) r) :
      Mounted flash vol .FSR_BML_LOAD_UBMS_FAILURE r
  | done {r} (ready : Ready flash vol) (l u : Load) (lower : lowerGroup flash vol = some l) (lowerLoads : Loads flash vol [] l)
      (upper : upperGroup flash vol = some u) (upperLoads : Loads flash vol (bmfsOf flash vol l) u) (loads : r.loads = [l,u])
      (stored : Stored (bmfsOf flash vol l ++ bmfsOf flash vol u) (rcbsOf flash vol u) r) :
      Mounted flash vol .FSR_BML_SUCCESS (reconstructBUMap vol (sortBMI r))

theorem mountIs (flash : Flash) (vol : Vol) (pages : 4 ∣ vol.nNumOfPgsInSLCBlk) (small : vol.nNumOfPgsInSLCBlk < 2^31) :
    ∃ nRet r, mount flash vol initBBM = some (nRet,r) ∧ Mounted flash vol nRet r := by
  obtain ⟨ready,tables,places⟩ := scanIs flash vol
  unfold mount
  generalize scanReservoir flash vol initBBM = scan at ready tables places ⊢
  obtain ⟨scanned,r₁⟩ := scan
  dsimp only at ready tables places ⊢
  by_cases ok : scanned = .FSR_BML_SUCCESS
  swap
  · exact ⟨scanned,r₁,by simp [ok],.unready (mt ready.mpr ok) tables⟩
  replace ready := ready.mp ok
  obtain ⟨sbn,tpcb⟩ := places ready
  have empty : Stored [] [] initBBM := ⟨rfl,rfl,by simp [initBBM],fun w => by cases w.table <;> simp [initBBM,filled]⟩
  obtain ⟨nRet₂,r₂,run₂,absent,present⟩ := @mountKindIs flash vol r₁ .lpcb [] pages small (empty.same tables) (Nat.zero_le _) (Nat.zero_le _)
  rw [sbn,tpcb] at absent present
  rw [if_neg (by simp [ok]),run₂]
  cases lower : group flash vol .lpcb (pcbBlock flash vol .lpcb) (tpcbBlock flash vol) with
  | none =>
    obtain ⟨rfl,tables₂⟩ := absent lower
    exact ⟨_,r₂,rfl,.noLower ready (by rw [lowerGroup,lower]; rfl) (tables.trans tables₂)⟩
  | some g =>
    have isLower : lowerGroup flash vol = some (loadOf .lpcb g) := by rw [lowerGroup,lower]; rfl
    obtain ⟨good,bad,loads,stored,others,spared⟩ := present g lower
    have noRCBs : rcbsOf flash vol (loadOf .lpcb g) = [] := flatMap_eq_nil_iff.mpr fun s _ => by simp [sectorRCBs,loadOf]
    simp only [nil_append,noRCBs,ite_self] at stored
    rw [tables.loads] at loads
    by_cases lowerLoads : Loads flash vol [] (loadOf .lpcb g)
    swap
    · cases bad lowerLoads
      exact ⟨_,r₂,rfl,.lowerFails ready _ isLower lowerLoads loads stored⟩
    cases good lowerLoads
    have within : (bmfsOf flash vol (loadOf .lpcb g)).length ≤ bmfLimit vol + 1 := lowerLoads.within
    rw [take_of_length_le within] at stored
    obtain ⟨nRet₃,r₃,run₃,absent,present⟩ := @mountKindIs flash vol r₂ .upcb _ pages small stored within bmfsFew
    have backup : r₂.nTPCBSbn = spareBlock flash vol := by rw [spared,sbn,tpcb]; rfl
    have block : sbnOf r₂ .upcb = pcbBlock flash vol .upcb := (others .upcb Kind.noConfusion).trans (sbn _)
    rw [block,backup] at absent present
    show ∃ nRet r, (mountKind flash vol .upcb r₂ >>= _) = _ ∧ _
    rw [run₃]
    cases upper : group flash vol .upcb (pcbBlock flash vol .upcb) (spareBlock flash vol) with
    | none =>
      obtain ⟨rfl,tables₃⟩ := absent upper
      exact ⟨_,r₃,rfl,.noUpper ready _ isLower lowerLoads (by rw [upperGroup,upper]; rfl) (tables₃.loads.trans loads) (stored.same tables₃)⟩
    | some g' =>
      have isUpper : upperGroup flash vol = some (loadOf .upcb g') := by rw [upperGroup,upper]; rfl
      obtain ⟨good,bad,loads₃,stored,_,_⟩ := present g' upper
      rw [loads] at loads₃
      by_cases upperLoads : Loads flash vol (bmfsOf flash vol (loadOf .lpcb g)) (loadOf .upcb g')
      · cases good upperLoads
        rw [take_of_length_le upperLoads.within,if_pos upperLoads.within] at stored
        exact ⟨_,_,rfl,.done ready _ _ isLower lowerLoads isUpper upperLoads loads₃ stored⟩
      · cases bad upperLoads
        exact ⟨_,r₃,rfl,.upperFails ready _ _ isLower lowerLoads isUpper upperLoads loads₃ stored⟩

end EclairKernel.FsrMount
