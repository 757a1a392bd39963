import EclairKernel.FsrTables
import Mathlib.Logic.Equiv.Basic

/-! What _Mount loads and where it writes, for every contents of the flash. It loads confirmed
groups alone exactly where the latest confirm page of a block has room for its group and a
block without one has a backup block. -/
namespace EclairKernel.FsrMount
open List Nat Function
open Option (some)

def NoGroup (flash : Flash) (vol : Vol) (sbn tpcb : Nat) : Prop :=
  (∀ start, ¬Confirmed flash vol sbn start) ∧ (tpcb ≠ 0 → ∀ start, ¬Confirmed flash vol tpcb start)

structure LoadsConfirmed (flash : Flash) (vol : Vol) (nRet : Ret) (r : Rsv) : Prop where
  confirmed : ∀ l ∈ r.loads, Confirmed flash vol l.nPbn l.nStartOffset
  noLower : Ready flash vol → NoGroup flash vol (pcbBlock flash vol .lpcb) (tpcbBlock flash vol) → nRet = .FSR_BML_NO_LPCB ∧ r.loads = []
  noUpper : Ready flash vol → ∀ l, lowerGroup flash vol = some l → Loads flash vol [] l →
    NoGroup flash vol (pcbBlock flash vol .upcb) (spareBlock flash vol) → nRet = .FSR_BML_NO_UPCB ∧ r.loads = [l]

def SoundLower (flash : Flash) (vol : Vol) : Prop := Sound flash vol .lpcb (pcbBlock flash vol .lpcb) (tpcbBlock flash vol)
def SoundUpper (flash : Flash) (vol : Vol) : Prop := Sound flash vol .upcb (pcbBlock flash vol .upcb) (spareBlock flash vol)

def MountSound (flash : Flash) (vol : Vol) : Prop := Ready flash vol → SoundLower flash vol ∧
  ∀ l, lowerGroup flash vol = some l → Loads flash vol [] l → SoundUpper flash vol

section
variable {flash vol} {bmfs : List BMF} {rcbs : List UInt16} {base r : Rsv} {left i j}

theorem swapStored (stored : Filling base bmfs rcbs r) (less : i < r.nNumOfBMFs) (less' : j < r.nNumOfBMFs) :
    Filling base bmfs rcbs (swapBMF r i j) := by
  have moved (k : Nat) : (swapBMF r i j).pstBMF k = r.pstBMF (Equiv.swap j i k) := by
    simp only [swapBMF,update_apply,Equiv.swap_apply_def]
    split
    · rfl
    split <;> rfl
  have bound {k : Nat} (small : k < r.nNumOfBMFs) : Equiv.swap j i k < r.nNumOfBMFs := by
    rw [Equiv.swap_apply_def]
    split
    · exact less
    split
    · exact less'
    · exact small
  refine ⟨⟨stored.count,stored.candidates,fun f => ?_,fun w => ?_⟩,stored.places.trans ⟨fun k => by cases k <;> rfl,rfl,rfl⟩⟩
  · rw [stored.cells]
    simp only [moved]
    exact ⟨fun ⟨k,small,eq⟩ => ⟨Equiv.swap j i k,bound small,by rwa [Equiv.swap_apply_self]⟩,fun ⟨k,small,eq⟩ => ⟨_,bound small,eq⟩⟩
  · rw [← stored.writes]
    have old {k : Nat} (small : k < r.nNumOfBMFs) : (⟨.bmf,k⟩ : Write) ∈ r.writes := (stored.writes _).mpr (lt_of_lt_of_eq small stored.count)
    simp only [swapBMF,mem_append,mem_cons,not_mem_nil,or_false]
    refine ⟨?_,.inl⟩
    rintro (mem | rfl | rfl)
    · exact mem
    · exact old less
    · exact old less'

theorem sortInnerStored {least} (stored : Filling base bmfs rcbs r) (less : i < bmfs.length) (rest : j + left ≤ bmfs.length) :
    Filling base bmfs rcbs (sortInner i left j least r) := by
  induction left generalizing j least r with
  | zero => exact stored
  | succ left ih =>
    unfold sortInner
    have count := stored.count
    split
    · exact ih (swapStored stored (by omega) (by omega)) (by omega)
    · exact ih stored (by omega)

theorem sortOuterStored (stored : Filling base bmfs rcbs r) (rest : i + left = bmfs.length) :
    Filling base bmfs rcbs (sortOuter left i r) := by
  induction left generalizing i r with
  | zero => exact stored
  | succ left ih => exact ih (sortInnerStored stored (by omega) (by omega)) (by omega)

theorem sortBMIStored (stored : Filling base bmfs rcbs r) : Filling base bmfs rcbs (sortBMI r) :=
  sortOuterStored stored (by rw [zero_add,stored.count])

theorem countBMFsLoads : (countBMFs vol left i r).loads = r.loads := by
  induction left generalizing i r with
  | zero => rfl
  | succ left ih => exact ih

theorem tablesLoads (stored : Stored bmfs rcbs r) : (reconstructBUMap vol (sortBMI r)).loads = r.loads :=
  countBMFsLoads.trans (sortBMIStored ⟨stored,.refl r⟩).places.loads

variable {kind sbn tpcb nRet}

theorem soundGroups (small : vol.nNumOfPgsInSLCBlk < 2^31) : Sound flash vol kind sbn tpcb ↔
    ∀ l, (group flash vol kind sbn tpcb).map (loadOf kind) = some l → Confirmed flash vol l.nPbn l.nStartOffset := by
  rw [soundIff small]
  cases group flash vol kind sbn tpcb <;> simp [loadOf]

theorem absentGroup {l} (found : (group flash vol kind sbn tpcb).map (loadOf kind) = some l)
    (confirmed : Confirmed flash vol l.nPbn l.nStartOffset) : ¬NoGroup flash vol sbn tpcb := by
  obtain ⟨g,taken,rfl⟩ := Option.map_eq_some_iff.mp found
  intro none_
  rcases groupPlace taken with here | ⟨here,backup⟩
  · exact none_.1 g.2 (here ▸ confirmed)
  · exact none_.2 backup g.2 (here ▸ confirmed)

theorem loadsConfirmedIff (small : vol.nNumOfPgsInSLCBlk < 2^31) (mounted : Mounted flash vol nRet r) :
    LoadsConfirmed flash vol nRet r ↔ MountSound flash vol := by
  have lowerIff : SoundLower flash vol ↔ ∀ l, lowerGroup flash vol = some l → Confirmed flash vol l.nPbn l.nStartOffset := soundGroups small
  have upperIff : SoundUpper flash vol ↔ ∀ l, upperGroup flash vol = some l → Confirmed flash vol l.nPbn l.nStartOffset := soundGroups small
  -- both groups were looked for, and found
  have both {nRet r l u} (ready : Ready flash vol) (lower : lowerGroup flash vol = some l) (lowerLoads : Loads flash vol [] l)
      (upper : upperGroup flash vol = some u) (loads : r.loads = [l,u]) : LoadsConfirmed flash vol nRet r ↔ MountSound flash vol := by
    simp only [MountSound,lowerIff,upperIff,lower,upper,Option.some.injEq,forall_eq']
    refine ⟨fun confirmed _ => ?_,fun sound => ?_⟩
    · have all := confirmed.confirmed
      rw [loads] at all
      exact ⟨all l (by simp),fun _ => all u (by simp)⟩
    · obtain ⟨first,second⟩ := sound ready
      refine ⟨by rw [loads]; simp [first,second lowerLoads],fun _ none_ => ?_,fun _ l' eq _ none_ => ?_⟩
      · exact absurd none_ (absentGroup lower first)
      · exact absurd none_ (absentGroup upper (second lowerLoads))
  cases mounted with
  | unready unready tables =>
    refine ⟨fun _ ready => absurd ready unready,fun _ => ⟨by rw [tables.loads]; simp [initBBM],fun ready => ?_,fun ready => ?_⟩⟩
    all_goals exact absurd ready unready
  | noLower ready lower tables =>
    simp only [MountSound,lowerIff,lower]
    refine ⟨fun _ _ => ⟨by simp,by simp⟩,fun _ => ⟨by rw [tables.loads]; simp [initBBM],fun _ _ => ⟨rfl,tables.loads⟩,?_⟩⟩
    simp [lower]
  | lowerFails ready l lower fails loads =>
    simp only [MountSound,lowerIff,lower,Option.some.injEq,forall_eq']
    refine ⟨fun confirmed _ => ⟨confirmed.confirmed l (by simp [loads]),fun yes => absurd yes fails⟩,fun sound => ?_⟩
    have first := (sound ready).1
    refine ⟨by rw [loads]; simpa using first,fun _ none_ => absurd none_ (absentGroup lower first),fun _ l' eq yes => ?_⟩
    cases lower.symm.trans eq
    exact absurd yes fails
  | noUpper ready l lower lowerLoads upper loads =>
    simp only [MountSound,lowerIff,upperIff,lower,upper,Option.some.injEq,forall_eq']
    refine ⟨fun confirmed _ => ⟨confirmed.confirmed l (by simp [loads]),by simp⟩,fun sound => ?_⟩
    have first := (sound ready).1
    refine ⟨by rw [loads]; simpa using first,fun _ none_ => absurd none_ (absentGroup lower first),fun _ l' eq _ _ => ⟨rfl,?_⟩⟩
    cases lower.symm.trans eq
    exact loads
  | upperFails ready l u lower lowerLoads upper _ loads => exact both ready lower lowerLoads upper loads
  | done ready l u lower lowerLoads upper _ loads stored => exact both ready lower lowerLoads upper ((tablesLoads stored).trans loads)

end

theorem mountLoadsConfirmed (flash : Flash) (vol : Vol) (pages : vol.nNumOfPgsInSLCBlk = 64 ∨ vol.nNumOfPgsInSLCBlk = 128) :
    ∃ nRet r, mount flash vol initBBM = some (nRet,r) ∧ (LoadsConfirmed flash vol nRet r ↔ MountSound flash vol) := by
  obtain ⟨nRet,r,done,mounted⟩ := mountIs flash vol (by omega) (by omega)
  exact ⟨nRet,r,done,loadsConfirmedIff (by omega) mounted⟩

def sampleVol : Vol := ⟨4,64,1,8,64,0,10,11⟩
def freePage : Page := ⟨true,false,false,false,fun _ => 0xFFFF⟩
def brokenPage : Page := ⟨false,false,false,false,fun _ => 0xFFFF⟩
def dataPage : Page := ⟨false,true,false,true,fun _ => 0xFFFF⟩
def confirmPage : Page := ⟨false,true,false,true,fun _ => 0⟩

def headerPage (kind : Kind) : Page :=
  ⟨false,true,false,true,fun i => match i with
    | 0 => match kind with
      | .lpcb => 0x504C
      | .upcb => 0x5055
    | 1 => 0x4843
    | 6 => 1
    | 8 => 1
    | i => if i < 256 then 0 else 0xFFFF⟩

def blocksOf (rest : Nat → Page) : Flash := fun pbn off =>
  if off = 0 then headerPage (if pbn = 10 then .lpcb else .upcb) else rest off

def unconfirmedFlash : Flash := blocksOf fun _ => freePage
def strayFlash : Flash := blocksOf fun off => if off = 1 then confirmPage else if off = 3 then brokenPage else freePage

theorem unconfirmedLoaded : ((mount unconfirmedFlash sampleVol initBBM).map fun x => (x.1,x.2.loads)) =
      some (.FSR_BML_LOAD_LBMS_FAILURE,[⟨.lpcb,10,0xFFFFFFFF⟩]) ∧
    ((mount strayFlash sampleVol initBBM).map fun x => (x.1,x.2.loads)) =
      some (.FSR_BML_LOAD_LBMS_FAILURE,[⟨.lpcb,10,0xFFFFFFFE⟩]) := by
  constructor <;> decide +kernel

-- an all-zero page 2 and a group in 4..6 with its confirm page
def regroupedFlash : Flash := blocksOf fun off =>
  if off = 2 ∨ off = 7 then confirmPage else if off < 7 then dataPage else freePage

theorem regroupedSound : MountSound regroupedFlash sampleVol := by
  have lower : latest regroupedFlash sampleVol (pcbBlock regroupedFlash sampleVol .lpcb) = some 7 := by decide +kernel
  have upper : latest regroupedFlash sampleVol (pcbBlock regroupedFlash sampleVol .upcb) = some 7 := by decide +kernel
  have room {p : Nat} (eq : some 7 = some p) : BML_NUM_OF_META_PGS ≤ p := Option.some.inj eq ▸ by decide
  refine fun _ => ⟨⟨fun p eq => room (lower.symm.trans eq),fun none_ => ?_⟩,fun _ _ _ => ⟨fun p eq => room (upper.symm.trans eq),fun none_ => ?_⟩⟩
  · cases lower.symm.trans none_
  · cases upper.symm.trans none_

theorem regroupedLoadsConfirmed : ∃ nRet r, mount regroupedFlash sampleVol initBBM = some (nRet,r) ∧
    LoadsConfirmed regroupedFlash sampleVol nRet r := by
  obtain ⟨nRet,r,done,confirmed⟩ := mountLoadsConfirmed regroupedFlash sampleVol (.inl rfl)
  exact ⟨nRet,r,done,confirmed.mpr regroupedSound⟩

/-! Where the mount writes. The number of block map fields is compared with one too many, the
candidate blocks with nothing, and the bad unit of a field comes from the flash. -/

def Inside (vol : Vol) (w : Write) : Prop := w.index < entriesOf vol w.table

structure Fit (vol : Vol) (bmfs : List BMF) (rcbs : List UInt16) : Prop where
  fields : numOfBMFs vol % 4 ≠ 0 ∨ bmfs.length ≤ numOfBMFs vol
  candidates : bmfs.length ≤ bmfLimit vol + 1 → rcbs.length ≤ entriesOf vol .rcb

def TablesFit (flash : Flash) (vol : Vol) : Prop := Ready flash vol → ∀ l, lowerGroup flash vol = some l →
  Fit vol (bmfsOf flash vol l) [] ∧ (Loads flash vol [] l → ∀ u, upperGroup flash vol = some u →
    Fit vol (bmfsOf flash vol l ++ bmfsOf flash vol u) (rcbsOf flash vol u) ∧
    (Loads flash vol (bmfsOf flash vol l) u →
      ∀ f ∈ bmfsOf flash vol l ++ bmfsOf flash vol u, buIdx vol f.nSbn < entriesOf vol .buMap))

section
variable {flash} {vol : Vol} {bmfs : List BMF} {rcbs : List UInt16} {r left i j nRet}

theorem alignBy4Ge (n : Nat) : n ≤ alignBy4 n := by
  unfold alignBy4
  split <;> omega

theorem fitIff (small : bmfs.length < 2^16) : (bmfs.take (bmfLimit vol + 1)).length ≤ entriesOf vol .bmf ∧
    (if bmfs.length ≤ bmfLimit vol + 1 then rcbs else []).length ≤ entriesOf vol .rcb ↔ Fit vol bmfs rcbs := by
  have first : (bmfs.take (bmfLimit vol + 1)).length ≤ entriesOf vol .bmf ↔ numOfBMFs vol % 4 ≠ 0 ∨ bmfs.length ≤ numOfBMFs vol := by
    rw [length_take]
    unfold entriesOf alignBy4 bmfLimit
    dsimp only
    split <;> omega
  have second : (if bmfs.length ≤ bmfLimit vol + 1 then rcbs else []).length ≤ entriesOf vol .rcb ↔
      (bmfs.length ≤ bmfLimit vol + 1 → rcbs.length ≤ entriesOf vol .rcb) := by
    split <;> simp_all
  rw [first,second]
  exact ⟨fun ⟨a,b⟩ => ⟨a,b⟩,fun ⟨a,b⟩ => ⟨a,b⟩⟩

theorem storedInside (stored : Stored bmfs rcbs r) : (∀ w ∈ r.writes, Inside vol w) ↔
    bmfs.length ≤ entriesOf vol .bmf ∧ rcbs.length ≤ entriesOf vol .rcb := by
  simp only [stored.writes]
  refine ⟨fun inside => ⟨?_,?_⟩,fun ⟨first,second⟩ w less => ?_⟩
  · exact le_of_not_gt fun more => lt_irrefl _ (inside ⟨.bmf,entriesOf vol .bmf⟩ more)
  · exact le_of_not_gt fun more => lt_irrefl _ (inside ⟨.rcb,entriesOf vol .rcb⟩ more)
  · obtain ⟨table,index⟩ := w
    cases table with
    | bmf => exact lt_of_lt_of_le less first
    | rcb => exact lt_of_lt_of_le less second
    | buMap => exact absurd less (Nat.not_lt_zero _)

theorem countBMFsInside : (∀ w ∈ (countBMFs vol left i r).writes, Inside vol w) ↔
    (∀ w ∈ r.writes, Inside vol w) ∧ ∀ k, i ≤ k → k < i + left → buIdx vol (r.pstBMF k).nSbn < entriesOf vol .buMap := by
  induction left generalizing i r with
  | zero => exact ⟨fun inside => ⟨inside,fun k low high => by omega⟩,And.left⟩
  | succ left ih =>
    have first : (∀ w ∈ (countBMF vol i r).writes, Inside vol w) ↔
        (∀ w ∈ r.writes, Inside vol w) ∧ buIdx vol (r.pstBMF i).nSbn < entriesOf vol .buMap := by
      simp only [countBMF,forall_mem_append,forall_mem_singleton]
      rfl
    rw [countBMFs,ih,first,and_assoc]
    refine and_congr_right fun _ => ⟨fun ⟨here,later⟩ k low high => ?_,fun all => ⟨all i le_rfl (by omega),fun k low high => ?_⟩⟩
    · by_cases eq : k = i
      · exact eq ▸ here
      · exact later k (by omega) (by omega)
    · exact all k (by omega) (by omega)

theorem tablesInside (stored : Stored bmfs rcbs r) : (∀ w ∈ (reconstructBUMap vol (sortBMI r)).writes, Inside vol w) ↔
    (bmfs.length ≤ entriesOf vol .bmf ∧ rcbs.length ≤ entriesOf vol .rcb) ∧
    ∀ f ∈ bmfs, buIdx vol f.nSbn < entriesOf vol .buMap := by
  have sorted := (sortBMIStored ⟨stored,.refl r⟩).toStored
  have cleared : (∀ w ∈ (clearBUMap vol (sortBMI r)).writes, Inside vol w) ↔ ∀ w ∈ (sortBMI r).writes, Inside vol w := by
    simp only [clearBUMap,forall_mem_append,forall_mem_map]
    exact and_iff_left fun k mem => lt_of_lt_of_le (mem_range.mp mem) (alignBy4Ge _)
  rw [reconstructBUMap,countBMFsInside,cleared,storedInside sorted]
  refine and_congr_right fun _ => ⟨fun all f mem => ?_,fun all k _ less => ?_⟩
  · obtain ⟨k,less,rfl⟩ := (sorted.cells f).mp mem
    exact all k (Nat.zero_le _) (by rwa [zero_add])
  · exact all _ ((sorted.cells _).mpr ⟨k,by rwa [zero_add] at less,rfl⟩)

theorem insideIff (mounted : Mounted flash vol nRet r) : (∀ w ∈ r.writes, Inside vol w) ↔ TablesFit flash vol := by
  have fewer (l : Load) : (bmfsOf flash vol l).length < 2^16 := lt_of_le_of_lt bmfsFew (by decide)
  have fewer₂ (l u : Load) : (bmfsOf flash vol l ++ bmfsOf flash vol u).length < 2^16 := by
    rw [length_append]
    exact lt_of_le_of_lt (Nat.add_le_add bmfsFew bmfsFew) (by decide)
  have untouched {r : Rsv} (tables : SameTables initBBM r) : ∀ w ∈ r.writes, Inside vol w := by
    rw [tables.writes]
    simp [initBBM]
  -- the fields of the first group fit where those of both do
  have less {bmfs more : List BMF} {rcbs : List UInt16} (fit : Fit vol (bmfs ++ more) rcbs) : Fit vol bmfs [] := by
    refine ⟨fit.fields.imp_right fun fits => ?_,fun _ => Nat.zero_le _⟩
    rw [length_append] at fits
    omega
  unfold TablesFit
  cases mounted with
  | unready unready tables => exact iff_of_true (untouched tables) fun ready => absurd ready unready
  | noLower ready lower tables =>
    rw [lower]
    exact iff_of_true (untouched tables) (by simp)
  | lowerFails ready l lower fails loads stored =>
    have fit := @fitIff vol (bmfsOf flash vol l) [] (fewer l)
    rw [ite_self] at fit
    simp only [lower,Option.some.injEq,forall_eq',storedInside stored,fit]
    exact ⟨fun fit _ => ⟨fit,fun loads => absurd loads fails⟩,fun all => (all ready).1⟩
  | noUpper ready l lower lowerLoads upper loads stored =>
    have fit := @fitIff vol (bmfsOf flash vol l) [] (fewer l)
    rw [ite_self,take_of_length_le (show (bmfsOf flash vol l).length ≤ _ from lowerLoads.within)] at fit
    simp only [lower,upper,Option.some.injEq,forall_eq',storedInside stored,fit]
    exact ⟨fun fit _ => ⟨fit,by simp⟩,fun all => (all ready).1⟩
  | upperFails ready l u lower lowerLoads upper fails loads stored =>
    simp only [lower,upper,Option.some.injEq,forall_eq',storedInside stored,fitIff (fewer₂ l u)]
    exact ⟨fun fit _ => ⟨less fit,fun _ => ⟨fit,fun loads => absurd loads fails⟩⟩,fun all => ((all ready).2 lowerLoads).1⟩
  | done ready l u lower lowerLoads upper upperLoads loads stored =>
    have fit := @fitIff vol _ (rcbsOf flash vol u) (fewer₂ l u)
    rw [if_pos upperLoads.within,take_of_length_le upperLoads.within] at fit
    simp only [lower,upper,Option.some.injEq,forall_eq',tablesInside stored,fit]
    refine ⟨fun both _ => ⟨less both.1,fun _ => ⟨both.1,fun _ => both.2⟩⟩,fun all => ?_⟩
    obtain ⟨fit,units⟩ := (all ready).2 lowerLoads
    exact ⟨fit,units upperLoads⟩

end

theorem mountInside (flash : Flash) (vol : Vol) (pages : vol.nNumOfPgsInSLCBlk = 64 ∨ vol.nNumOfPgsInSLCBlk = 128) :
    ∃ nRet r, mount flash vol initBBM = some (nRet,r) ∧ ((∀ w ∈ r.writes, Inside vol w) ↔ TablesFit flash vol) := by
  obtain ⟨nRet,r,done,mounted⟩ := mountIs flash vol (by omega) (by omega)
  exact ⟨nRet,r,done,insideIff mounted⟩

def tableVol : Vol := ⟨4,64,2,8,64,0,10,11⟩

def tableFlash (n c : Nat) (sbn : UInt16) : Flash := fun pbn off =>
  if off = 0 then headerPage (if pbn = 10 then .lpcb else .upcb)
  else if off = 1 then { dataPage with word := fun i => if pbn = 10 ∧ i < 2 + 2 * n then sbn else 0xFFFF }
  else if off = 2 then { dataPage with word := fun i => if 768 ≤ i ∧ i < 768 + c then 7 else 0xFFFF }
  else if off = 3 then confirmPage
  else freePage

theorem tablesOverrun : entriesOf tableVol .bmf = 12 ∧ entriesOf tableVol .rcb = 4 ∧ entriesOf tableVol .buMap = 4 ∧
    ((mount (tableFlash 13 5 200) tableVol initBBM).map fun x =>
      (x.1,[Write.mk .bmf 12,⟨.rcb,4⟩,⟨.buMap,6⟩].all (x.2.writes.contains ·))) = some (.FSR_BML_SUCCESS,true) := by
  decide +kernel

theorem filledFits : TablesFit (tableFlash 12 4 40) tableVol := by
  have lower : lowerGroup (tableFlash 12 4 40) tableVol = some ⟨.lpcb,10,0⟩ := by decide +kernel
  have upper : upperGroup (tableFlash 12 4 40) tableVol = some ⟨.upcb,11,0⟩ := by decide +kernel
  have fields : bmfsOf (tableFlash 12 4 40) tableVol ⟨.lpcb,10,0⟩ = replicate 12 ⟨40,40⟩ := by decide +kernel
  have none_ : bmfsOf (tableFlash 12 4 40) tableVol ⟨.upcb,11,0⟩ = [] := by decide +kernel
  have candidates : (rcbsOf (tableFlash 12 4 40) tableVol ⟨.upcb,11,0⟩).length = 4 := by decide +kernel
  intro _ l eq
  cases lower.symm.trans eq
  rw [fields]
  refine ⟨⟨.inr (by decide),fun _ => by decide⟩,fun _ u eq => ?_⟩
  cases upper.symm.trans eq
  rw [none_,append_nil]
  refine ⟨⟨.inr (by decide),fun _ => by rw [candidates]; decide⟩,fun _ f mem => ?_⟩
  rw [eq_of_mem_replicate mem]
  decide

theorem tablesFilled : ∃ nRet r, mount (tableFlash 12 4 40) tableVol initBBM = some (nRet,r) ∧
    ∀ w ∈ r.writes, Inside tableVol w := by
  obtain ⟨nRet,r,done,inside⟩ := mountInside (tableFlash 12 4 40) tableVol (.inl rfl)
  exact ⟨nRet,r,done,inside.mpr filledFits⟩

end EclairKernel.FsrMount
