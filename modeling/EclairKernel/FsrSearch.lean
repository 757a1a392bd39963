import EclairKernel.FsrMount

/-! What the search of _Mount comes to, said from the contents of the flash: the blocks of the
reservoir that it takes, and the page of a block that it takes for the latest confirm page. The
search comes to an end for every contents. -/
namespace EclairKernel.FsrMount
open List Nat
open Option (some)

def lastBelow (test : Nat → Bool) : Nat → Option Nat
  | 0 => none
  | n + 1 => if test n then some n else lastBelow test n

/-- The end of the last stride of four pages that has its last page written. -/
def written (flash : Flash) (vol : Vol) (pbn : Nat) : Nat :=
  (lastBelow (fun g => !(flash pbn (4 * g + 3)).free) (vol.nNumOfPgsInSLCBlk / 4)).elim 0 (4 * · + 4)

def confirming (flash : Flash) (vol : Vol) (pbn off : Nat) : Bool :=
  (flash pbn off).readable && allZero vol (flash pbn off) &&
    (decide (off < BML_NUM_OF_META_PGS) || (range BML_NUM_OF_META_PGS).all fun i => (flash pbn (off - BML_NUM_OF_META_PGS + i)).readable)

def latest (flash : Flash) (vol : Vol) (pbn : Nat) : Option Nat := lastBelow (confirming flash vol pbn) (written flash vol pbn)

structure Confirmed (flash : Flash) (vol : Vol) (pbn start : Nat) : Prop where
  inside : start + BML_NUM_OF_META_PGS < vol.nNumOfPgsInSLCBlk
  readable : ∀ i < BML_NUM_OF_META_PGS, (flash pbn (start + i)).readable
  confirm : (flash pbn (start + BML_NUM_OF_META_PGS)).readable ∧ allZero vol (flash pbn (start + BML_NUM_OF_META_PGS))

structure SamePlaces (r r' : Rsv) : Prop where
  sbn : ∀ kind, sbnOf r' kind = sbnOf r kind
  tpcb : r'.nTPCBSbn = r.nTPCBSbn
  loads : r'.loads = r.loads

structure SameTables (r r' : Rsv) : Prop where
  bmf : r'.pstBMF = r.pstBMF
  count : r'.nNumOfBMFs = r.nNumOfBMFs
  candidates : r'.nNumOfRCBs = r.nNumOfRCBs
  writes : r'.writes = r.writes
  loads : r'.loads = r.loads

theorem SamePlaces.refl (r : Rsv) : SamePlaces r r := ⟨fun _ => rfl,rfl,rfl⟩

theorem SamePlaces.trans {r r' r''} (first : SamePlaces r r') (later : SamePlaces r' r'') : SamePlaces r r'' :=
  ⟨fun k => (later.sbn k).trans (first.sbn k),later.tpcb.trans first.tpcb,later.loads.trans first.loads⟩

theorem SameTables.refl (r : Rsv) : SameTables r r := ⟨rfl,rfl,rfl,rfl,rfl⟩

theorem SameTables.trans {r r' r''} (first : SameTables r r') (later : SameTables r' r'') : SameTables r r'' :=
  ⟨later.bmf.trans first.bmf,later.count.trans first.count,later.candidates.trans first.candidates,
    later.writes.trans first.writes,later.loads.trans first.loads⟩

section
variable {flash vol pbn off kind tpcb r fuel sbn p}

theorem lastBelowSome {test n} (found : lastBelow test n = some p) : p < n ∧ test p = true := by
  induction n with
  | zero => cases found
  | succ n ih =>
    unfold lastBelow at found
    split at found
    · cases found
      exact ⟨lt_succ_self _,‹_›⟩
    · exact ⟨lt_succ_of_lt (ih found).1,(ih found).2⟩

theorem sub32Le {a b} (le : b ≤ a) (small : a < 2^32) : sub32 a b = a - b := by
  unfold sub32
  omega

theorem sub32Wraps {a b} (less : a < b) (small : b < 2^32) : sub32 a b = a + 2^32 - b := by
  unfold sub32
  omega

theorem writtenLe : written flash vol pbn ≤ vol.nNumOfPgsInSLCBlk := by
  unfold written
  cases found : lastBelow (fun g => !(flash pbn (4 * g + 3)).free) (vol.nNumOfPgsInSLCBlk / 4) with
  | none => exact Nat.zero_le _
  | some g =>
    have below := (lastBelowSome found).1
    show 4 * g + 4 ≤ _
    omega

theorem latestConfirmed (small : vol.nNumOfPgsInSLCBlk < 2^31) (found : latest flash vol pbn = some p) :
    Confirmed flash vol pbn (sub32 p BML_NUM_OF_META_PGS) ↔ BML_NUM_OF_META_PGS ≤ p := by
  obtain ⟨below,good⟩ := lastBelowSome found
  have inside := lt_of_lt_of_le below writtenLe
  by_cases room : BML_NUM_OF_META_PGS ≤ p
  · rw [sub32Le room (by omega)]
    have back := Nat.sub_add_cancel room
    simp only [confirming,Bool.and_eq_true,Bool.or_eq_true,decide_eq_true_eq,all_eq_true,mem_range] at good
    refine ⟨fun _ => room,fun _ => ⟨by omega,good.2.resolve_left (not_lt.mpr room),?_⟩⟩
    rw [back]
    exact good.1
  · rw [sub32Wraps (not_le.mp room) (by decide)]
    refine ⟨fun confirmed => ?_,fun room' => absurd room' room⟩
    have := confirmed.inside
    unfold BML_NUM_OF_META_PGS at this
    omega

theorem firstScanIs {g} (small : 4 * g < 2^32) (fueled : 4 * g < fuel) : firstScan flash pbn fuel (4 * g) =
    some ((lastBelow (fun g => !(flash pbn (4 * g + 3)).free) g).map (4 * · + 4)) := by
  induction g generalizing fuel with
  | zero =>
    obtain ⟨fuel,rfl⟩ := Nat.exists_eq_succ_of_ne_zero (Nat.ne_zero_of_lt fueled)
    rfl
  | succ g ih =>
    obtain ⟨fuel,rfl⟩ := Nat.exists_eq_succ_of_ne_zero (Nat.ne_zero_of_lt fueled)
    have next : sub32 (4 * (g + 1)) (BML_NUM_OF_META_PGS + 1) = 4 * g := sub32Le (a := 4 * (g + 1)) (b := 4) (by omega) small
    rw [firstScan,if_neg (by omega),next,lastBelow]
    by_cases free : (flash pbn (4 * g + 3)).free
    · rw [if_pos (show (flash pbn (4 * (g + 1) - 1)).free from free),if_neg (by simp [free])]
      exact ih (by omega) (by omega)
    · rw [if_neg (show ¬(flash pbn (4 * (g + 1) - 1)).free from free),if_pos (by simp [free])]
      rfl

theorem confirmsIs (small : off < 2^32) : confirms flash vol pbn off = some (confirming flash vol pbn off) := by
  unfold confirms confirming
  by_cases zero : (flash pbn off).readable && allZero vol (flash pbn off)
  · rw [if_pos zero,zero,Bool.true_and]
    by_cases room : BML_NUM_OF_META_PGS ≤ off
    · obtain ⟨start,rfl⟩ := Nat.exists_eq_add_of_le' room
      unfold BML_NUM_OF_META_PGS at *
      have step {i : Nat} (le : i ≤ start + 3) : i % 2^32 = i := mod_eq_of_lt (by omega)
      rw [sub32Le room small,Nat.add_sub_cancel]
      simp only [metaReadable,step (show start + 1 ≤ start + 3 by omega),step (show start + 1 + 1 ≤ start + 3 by omega),
        step (show start + 1 + 1 + 1 ≤ start + 3 by omega)]
      cases h0 : (flash pbn start).readable <;> cases h1 : (flash pbn (start + 1)).readable <;>
        cases h2 : (flash pbn (start + 2)).readable <;> simp [h0,h1,h2,range_succ]
    · have wraps : sub32 off BML_NUM_OF_META_PGS = off + 2^32 - BML_NUM_OF_META_PGS := sub32Wraps (not_le.mp room) (by decide)
      have past : ¬off + 2^32 - BML_NUM_OF_META_PGS < off := by unfold BML_NUM_OF_META_PGS; omega
      rw [wraps,decide_eq_true (not_le.mp room),Bool.true_or,metaReadable,if_neg past]
  · rw [if_neg zero,eq_false_of_ne_true zero]
    rfl

def verdict (flash : Flash) (pbn : Nat) (kind : Kind) (tpcb : Bool) : Option Nat → Bool × Nat
  | none => (false,0xFFFFFFFF)
  | some p => (!tpcb || hasSig (flash pbn (sub32 p BML_NUM_OF_META_PGS)) kind,sub32 p BML_NUM_OF_META_PGS)

theorem searchBackIs (small : off < 2^32) (fueled : off < fuel) : searchBack flash vol pbn kind tpcb fuel off =
    some (verdict flash pbn kind tpcb (lastBelow (confirming flash vol pbn) (off + 1))) := by
  induction fuel generalizing off with
  | zero => omega
  | succ fuel ih =>
    rw [searchBack,confirmsIs small,lastBelow]
    cases good : confirming flash vol pbn off with
    | true => rfl
    | false =>
      cases off with
      | zero => rfl
      | succ off =>
        have next : sub32 (off + 1) 1 = off := sub32Le (by omega) small
        simpa [next] using ih (by omega) (by omega)

theorem findIs (pages : 4 ∣ vol.nNumOfPgsInSLCBlk) (small : vol.nNumOfPgsInSLCBlk < 2^31) : ∃ r',
    findValidMetaData flash vol pbn kind tpcb r = some ((verdict flash pbn kind tpcb (latest flash vol pbn)).1,
      (verdict flash pbn kind tpcb (latest flash vol pbn)).2,r') ∧ SamePlaces r r' ∧ SameTables r r' := by
  obtain ⟨g,whole⟩ := pages
  have scan := @firstScanIs flash pbn (vol.nNumOfPgsInSLCBlk + 1) g (by omega) (by omega)
  have strides : vol.nNumOfPgsInSLCBlk / 4 = g := by omega
  rw [← whole] at scan
  simp only [findValidMetaData,scan,latest,written,strides]
  cases found : lastBelow (fun g => !(flash pbn (4 * g + 3)).free) g with
  | none => exact ⟨r,rfl,.refl r,.refl r⟩
  | some last =>
    have below := (lastBelowSome found).1
    have less : sub32 (4 * last + 4) 1 = 4 * last + 3 := sub32Le (by omega) (by omega)
    have back := @searchBackIs flash vol pbn (4 * last + 3) kind tpcb (vol.nNumOfPgsInSLCBlk + 1) (by omega) (by omega)
    refine ⟨setNextPgOff r (4 * last + 4) kind,by simp [less,back],?_,?_⟩
    · cases kind <;> exact ⟨fun k => by cases k <;> rfl,rfl,rfl⟩
    · cases kind <;> exact ⟨rfl,rfl,rfl,rfl,rfl⟩

/-- The block and the offset that _LoadMetaData is called with, if it is. -/
def group (flash : Flash) (vol : Vol) (kind : Kind) (sbn tpcb : Nat) : Option (Nat × Nat) :=
  match latest flash vol sbn with
  | some p => some (sbn,sub32 p BML_NUM_OF_META_PGS)
  | none =>
    if tpcb = 0 then some (sbn,0xFFFFFFFF)
    else (latest flash vol tpcb).bind fun p =>
      if hasSig (flash tpcb (sub32 p BML_NUM_OF_META_PGS)) kind then some (tpcb,sub32 p BML_NUM_OF_META_PGS) else none

-- the backup block after the two were swapped
def spare (flash : Flash) (vol : Vol) (sbn tpcb : Nat) : Nat := if latest flash vol sbn = none ∧ tpcb ≠ 0 then sbn else tpcb

theorem locateIs (pages : 4 ∣ vol.nNumOfPgsInSLCBlk) (small : vol.nNumOfPgsInSLCBlk < 2^31) : ∃ r',
    locate flash vol kind r = some ((group flash vol kind (sbnOf r kind) r.nTPCBSbn).map Prod.snd,r') ∧ SameTables r r' ∧
    (∀ k, k ≠ kind → sbnOf r' k = sbnOf r k) ∧
    ∀ g, group flash vol kind (sbnOf r kind) r.nTPCBSbn = some g →
      sbnOf r' kind = g.1 ∧ r'.nTPCBSbn = spare flash vol (sbnOf r kind) r.nTPCBSbn := by
  obtain ⟨r₁,find,same,tables⟩ := @findIs flash vol (sbnOf r kind) kind false r pages small
  simp only [locate,find,group,spare]
  cases found : latest flash vol (sbnOf r kind) with
  | some p =>
    refine ⟨r₁,rfl,tables,fun k _ => same.sbn k,fun g eq => ?_⟩
    cases eq
    exact ⟨same.sbn kind,by simp [same.tpcb]⟩
  | none =>
    by_cases backup : r.nTPCBSbn = 0
    · refine ⟨r₁,by simp [verdict,same.tpcb,backup],tables,fun k _ => same.sbn k,fun g eq => ?_⟩
      rw [if_pos backup] at eq
      cases eq
      exact ⟨same.sbn kind,by simp [same.tpcb,backup]⟩
    obtain ⟨r₂,find₂,same₂,tables₂⟩ := @findIs flash vol r₁.nTPCBSbn kind true r₁ pages small
    rw [same.tpcb] at find₂
    have both := same.trans same₂
    cases found₂ : latest flash vol r.nTPCBSbn with
    | none =>
      refine ⟨r₂,by simp [verdict,same.tpcb,backup,find₂,found₂],tables.trans tables₂,fun k _ => both.sbn k,?_⟩
      simp [backup]
    | some p =>
      cases sig : hasSig (flash r.nTPCBSbn (sub32 p BML_NUM_OF_META_PGS)) kind with
      | false =>
        refine ⟨r₂,by simp [verdict,same.tpcb,backup,find₂,found₂,sig],tables.trans tables₂,fun k _ => both.sbn k,?_⟩
        simp [backup,sig]
      | true =>
        refine ⟨swapTPCB r₂ kind,by simp [verdict,same.tpcb,backup,find₂,found₂,sig],(tables.trans tables₂).trans ?_,fun k other => ?_,fun g eq => ?_⟩
        · cases kind <;> exact ⟨rfl,rfl,rfl,rfl,rfl⟩
        · rw [← both.sbn k]
          cases kind <;> cases k <;> first | rfl | exact absurd rfl other
        · simp only [if_neg backup,Option.bind_some,sig,if_true,Option.some.injEq] at eq
          have own := both.sbn kind
          rw [← eq,if_pos ⟨rfl,backup⟩,← both.tpcb,← own]
          cases kind <;> exact ⟨rfl,rfl⟩

/-- The latest confirm page of the block has room for its group before it; a block without one
has a backup block, whose latest confirm page has room as well if it is of the kind. -/
def Sound (flash : Flash) (vol : Vol) (kind : Kind) (sbn tpcb : Nat) : Prop :=
  (∀ p, latest flash vol sbn = some p → BML_NUM_OF_META_PGS ≤ p) ∧
  (latest flash vol sbn = none → tpcb ≠ 0 ∧ ∀ p, latest flash vol tpcb = some p →
    hasSig (flash tpcb (sub32 p BML_NUM_OF_META_PGS)) kind → BML_NUM_OF_META_PGS ≤ p)

theorem soundIff (small : vol.nNumOfPgsInSLCBlk < 2^31) : Sound flash vol kind sbn tpcb ↔
    ∀ g, group flash vol kind sbn tpcb = some g → Confirmed flash vol g.1 g.2 := by
  unfold Sound group
  cases found : latest flash vol sbn with
  | some p => simp [latestConfirmed small found]
  | none =>
    by_cases backup : tpcb = 0
    · have never : ¬Confirmed flash vol sbn 0xFFFFFFFF := fun confirmed => by
        have := confirmed.inside
        omega
      simp [backup,never]
    · cases found₂ : latest flash vol tpcb with
      | none => simp [backup]
      | some p =>
        cases sig : hasSig (flash tpcb (sub32 p BML_NUM_OF_META_PGS)) kind with
        | false => simp [backup,sig]
        | true => simp [backup,sig,latestConfirmed small found₂]

theorem groupPlace {g} (found : group flash vol kind sbn tpcb = some g) : g.1 = sbn ∨ g.1 = tpcb ∧ tpcb ≠ 0 := by
  unfold group at found
  split at found
  · cases found
    exact .inl rfl
  split at found
  · cases found
    exact .inl rfl
  obtain ⟨p,_,found⟩ := Option.bind_eq_some_iff.mp found
  split at found
  · cases found
    exact .inr ⟨rfl,‹_›⟩
  · cases found

end

/-! The blocks that _ScanReservoir takes. -/

def header (flash : Flash) (kind : Kind) (pbn : Nat) : Bool :=
  !(flash pbn 0).badMark && (flash pbn 0).readable && (flash pbn 0).metaMark && hasSig (flash pbn 0) kind

/-- The first with the greatest key, if that is not 0. -/
def newest (key : Nat → Nat) (l : List Nat) : Option Nat :=
  l.foldl (fun best b => if best.elim 0 key < key b then some b else best) none

def reservoir (vol : Vol) : List Nat := range' vol.n1stSbnOfRsvr (vol.nLastSbnOfRsvr + 1 - vol.n1stSbnOfRsvr)

def ageAt (flash : Flash) (pbn : Nat) : Nat := age (flash pbn 0)
def globalAgeAt (flash : Flash) (pbn : Nat) : Nat := globalAge (flash pbn 0)
def isHeader (flash : Flash) (pbn : Nat) : Bool := header flash .upcb pbn || header flash .lpcb pbn

def pcbOf (flash : Flash) (l : List Nat) (kind : Kind) : Option Nat := newest (ageAt flash) (l.filter (header flash kind))
def tpcbOf (flash : Flash) (l : List Nat) : Option Nat := newest (globalAgeAt flash) (l.filter (isHeader flash))

def pcbBlock (flash : Flash) (vol : Vol) (kind : Kind) : Nat := (pcbOf flash (reservoir vol) kind).elim 0 (· % 2^16)
def tpcbBlock (flash : Flash) (vol : Vol) : Nat := (tpcbOf flash (reservoir vol)).elim 0 fun b => tpcbPbn (flash b 0)

structure Ready (flash : Flash) (vol : Vol) : Prop where
  ages : ∀ b ∈ reservoir vol, isHeader flash b = true → ageAt flash b ≠ 0xFFFFFFFF
  upper : (reservoir vol).any (header flash .upcb) = true
  lower : (reservoir vol).any (header flash .lpcb) = true

def ageIn (r : Rsv) : Kind → Nat
  | .lpcb => r.nLPcbAge
  | .upcb => r.nUPcbAge

structure Scanned (flash : Flash) (seen : List Nat) (s : Scan) : Prop where
  sbn : ∀ kind, sbnOf s.rsv kind = (pcbOf flash seen kind).elim 0 (· % 2^16)
  ages : ∀ kind, ageIn s.rsv kind = (pcbOf flash seen kind).elim 0 (ageAt flash)
  tpcb : s.rsv.nTPCBSbn = (tpcbOf flash seen).elim 0 fun b => tpcbPbn (flash b 0)
  globalAge : s.rsv.nGlobalPCBAge = (tpcbOf flash seen).elim 0 (globalAgeAt flash)
  bUPCB : s.bUPCB = seen.any (header flash .upcb)
  bLPCB : s.bLPCB = seen.any (header flash .lpcb)
  tables : SameTables initBBM s.rsv

section
variable {flash vol pbn seen s s'}

theorem newestSnoc (key : Nat → Nat) (l : List Nat) (b : Nat) : newest key (l ++ [b]) =
    if (newest key l).elim 0 key < key b then some b else newest key l := by
  rw [newest,foldl_append]
  rfl

theorem sigOnce {p : Page} (upper : hasSig p .upcb = true) : hasSig p .lpcb = false := by
  simp only [hasSig,Bool.and_eq_true,beq_iff_eq] at upper
  simp [hasSig,upper.1]

theorem pcbOther {kind} (other : header flash kind pbn = false) : pcbOf flash (seen ++ [pbn]) kind = pcbOf flash seen kind := by
  simp [pcbOf,filter_append,other]

theorem pcbHeader {kind} (here : header flash kind pbn = true) : pcbOf flash (seen ++ [pbn]) kind =
    if (pcbOf flash seen kind).elim 0 (ageAt flash) < ageAt flash pbn then some pbn else pcbOf flash seen kind := by
  simp only [pcbOf,filter_append,filter_cons,here,if_true,filter_nil]
  exact newestSnoc ..

theorem tpcbHeader (here : isHeader flash pbn = true) : tpcbOf flash (seen ++ [pbn]) =
    if (tpcbOf flash seen).elim 0 (globalAgeAt flash) < globalAgeAt flash pbn then some pbn else tpcbOf flash seen := by
  simp only [tpcbOf,filter_append,filter_cons,here,if_true,filter_nil]
  exact newestSnoc ..

theorem scannedOther (scanned : Scanned flash seen s) (other : isHeader flash pbn = false) : Scanned flash (seen ++ [pbn]) s := by
  obtain ⟨upper,lower⟩ := Bool.or_eq_false_iff.mp other
  have same (kind : Kind) : header flash kind pbn = false := by cases kind <;> assumption
  have tpcb : tpcbOf flash (seen ++ [pbn]) = tpcbOf flash seen := by simp [tpcbOf,filter_append,other]
  refine ⟨fun kind => ?_,fun kind => ?_,by rw [tpcb,scanned.tpcb],by rw [tpcb,scanned.globalAge],
    by simp [scanned.bUPCB,upper],by simp [scanned.bLPCB,lower],scanned.tables⟩
  · rw [pcbOther (same kind),scanned.sbn]
  · rw [pcbOther (same kind),scanned.ages]

-- the record after a header of one kind, before the global age is looked at
structure Taken (flash : Flash) (pbn : Nat) (kind : Kind) (r r' : Rsv) : Prop where
  sbn : sbnOf r' kind = if ageIn r kind < ageAt flash pbn then pbn % 2^16 else sbnOf r kind
  age : ageIn r' kind = if ageIn r kind < ageAt flash pbn then ageAt flash pbn else ageIn r kind
  others : ∀ k, k ≠ kind → sbnOf r' k = sbnOf r k ∧ ageIn r' k = ageIn r k
  tpcb : r'.nTPCBSbn = r.nTPCBSbn ∧ r'.nGlobalPCBAge = r.nGlobalPCBAge
  tables : SameTables r r'

theorem scannedHeader {kind r u l} (scanned : Scanned flash seen s) (here : header flash kind pbn = true)
    (only : ∀ k, k ≠ kind → header flash k pbn = false) (taken : Taken flash pbn kind s.rsv r)
    (bUPCB : u = (seen ++ [pbn]).any (header flash .upcb)) (bLPCB : l = (seen ++ [pbn]).any (header flash .lpcb)) :
    Scanned flash (seen ++ [pbn]) ⟨updateGlobalAge r (flash pbn 0),u,l⟩ := by
  have any : isHeader flash pbn = true := by cases kind <;> simp [isHeader,here]
  have kept : (∀ k, sbnOf (updateGlobalAge r (flash pbn 0)) k = sbnOf r k) ∧ (∀ k, ageIn (updateGlobalAge r (flash pbn 0)) k = ageIn r k) ∧
      SameTables r (updateGlobalAge r (flash pbn 0)) := by
    unfold updateGlobalAge
    split
    · exact ⟨fun k => by cases k <;> rfl,fun k => by cases k <;> rfl,rfl,rfl,rfl,rfl,rfl⟩
    · exact ⟨fun _ => rfl,fun _ => rfl,.refl r⟩
  refine ⟨fun k => ?_,fun k => ?_,?_,?_,bUPCB,bLPCB,(scanned.tables.trans taken.tables).trans kept.2.2⟩
  · rw [kept.1]
    by_cases same : k = kind
    · rw [same,pcbHeader here,taken.sbn,scanned.ages,scanned.sbn]
      split <;> rfl
    · rw [pcbOther (only k same),(taken.others k same).1,scanned.sbn]
  · rw [kept.2.1]
    by_cases same : k = kind
    · rw [same,pcbHeader here,taken.age,scanned.ages]
      split <;> rfl
    · rw [pcbOther (only k same),(taken.others k same).2,scanned.ages]
  all_goals
    have older := taken.tpcb.2.trans scanned.globalAge
    rw [tpcbHeader any]
    by_cases newer : (tpcbOf flash seen).elim 0 (globalAgeAt flash) < globalAgeAt flash pbn
    · rw [if_pos newer,updateGlobalAge,if_pos (by rw [older]; exact newer)]
      rfl
    rw [if_neg newer,updateGlobalAge,if_neg (by rw [older]; exact newer)]
  · rw [taken.tpcb.1,scanned.tpcb]
  · exact older

theorem takenNewer (r : Rsv) :
    Taken flash pbn .upcb r (if r.nUPcbAge < age (flash pbn 0) then { r with nUPCBSbn := pbn % 2^16, nUPcbAge := age (flash pbn 0) } else r) ∧
    Taken flash pbn .lpcb r (if r.nLPcbAge < age (flash pbn 0) then { r with nLPCBSbn := pbn % 2^16, nLPcbAge := age (flash pbn 0) } else r) := by
  constructor
  all_goals
    split
    · rename_i newer
      exact ⟨(if_pos newer).symm,(if_pos newer).symm,fun k apart => by cases k <;> first | exact ⟨rfl,rfl⟩ | exact absurd rfl apart,
        ⟨rfl,rfl⟩,rfl,rfl,rfl,rfl,rfl⟩
    · rename_i older
      exact ⟨(if_neg older).symm,(if_neg older).symm,fun _ _ => ⟨rfl,rfl⟩,⟨rfl,rfl⟩,.refl _⟩

theorem scannedStep (pbn : Nat) (scanned : Scanned flash seen s) :
    (isHeader flash pbn = true ∧ ageAt flash pbn = 0xFFFFFFFF ∧ scanBlock flash s pbn = none) ∨
    (isHeader flash pbn = true → ageAt flash pbn ≠ 0xFFFFFFFF) ∧
      ∃ s', scanBlock flash s pbn = some s' ∧ Scanned flash (seen ++ [pbn]) s' := by
  unfold scanBlock
  dsimp only
  split
  · rename_i skipped
    have other : isHeader flash pbn = false := by
      revert skipped
      simp only [isHeader,header]
      cases (flash pbn 0).badMark <;> cases (flash pbn 0).readable <;> cases (flash pbn 0).metaMark <;> simp
    exact .inr ⟨by simp [other],s,rfl,scannedOther scanned other⟩
  rename_i marked
  simp only [Bool.or_eq_true,Bool.not_eq_true',not_or,Bool.not_eq_true,Bool.not_eq_false] at marked
  have has (kind : Kind) : header flash kind pbn = hasSig (flash pbn 0) kind := by simp [header,marked]
  obtain ⟨takenUpper,takenLower⟩ := @takenNewer flash pbn s.rsv
  split
  · rename_i upper
    have other : header flash .lpcb pbn = false := (has .lpcb).trans (sigOnce upper)
    have here : header flash .upcb pbn = true := (has .upcb).trans upper
    split
    · exact .inl ⟨by simp [isHeader,here],‹_›,rfl⟩
    refine .inr ⟨fun _ => ‹_›,_,rfl,scannedHeader scanned here (fun k apart => ?_) takenUpper (by simp [here]) (by simp [other,scanned.bLPCB])⟩
    cases k with
    | lpcb => exact other
    | upcb => exact absurd rfl apart
  split
  · rename_i upper lower
    have other : header flash .upcb pbn = false := (has .upcb).trans (by simpa using upper)
    have here : header flash .lpcb pbn = true := (has .lpcb).trans lower
    split
    · exact .inl ⟨by simp [isHeader,here],‹_›,rfl⟩
    refine .inr ⟨fun _ => ‹_›,_,rfl,scannedHeader scanned here (fun k apart => ?_) takenLower (by simp [other,scanned.bUPCB]) (by simp [here])⟩
    cases k with
    | upcb => exact other
    | lpcb => exact absurd rfl apart
  · rename_i upper lower
    have other : isHeader flash pbn = false := by simp [isHeader,has,upper,lower]
    exact .inr ⟨by simp [other],s,rfl,scannedOther scanned other⟩

theorem scanBlocksIs (left pbn : Nat) (scanned : Scanned flash seen s) :
    ((scanBlocks flash left pbn s).1 = .FSR_BML_SUCCESS ↔
      (∀ b ∈ range' pbn left, isHeader flash b = true → ageAt flash b ≠ 0xFFFFFFFF) ∧
      (seen ++ range' pbn left).any (header flash .upcb) = true ∧ (seen ++ range' pbn left).any (header flash .lpcb) = true) ∧
    SameTables initBBM (scanBlocks flash left pbn s).2 ∧
    ((scanBlocks flash left pbn s).1 = .FSR_BML_SUCCESS →
      ∃ s', Scanned flash (seen ++ range' pbn left) s' ∧ s'.rsv = (scanBlocks flash left pbn s).2) := by
  induction left generalizing pbn seen s with
  | zero =>
    simp only [scanBlocks,range'_zero,append_nil]
    refine ⟨?_,scanned.tables,fun _ => ⟨s,scanned,rfl⟩⟩
    rw [← scanned.bUPCB,← scanned.bLPCB]
    cases s.bUPCB <;> cases s.bLPCB <;> simp
  | succ left ih =>
    rw [range'_succ,scanBlocks,append_cons]
    rcases scannedStep pbn scanned with ⟨here,bad,none_⟩ | ⟨good,s',done,next⟩
    · rw [none_]
      have failed : Ret.FSR_BML_INVALID_PCB_AGE ≠ .FSR_BML_SUCCESS := by decide
      exact ⟨⟨(absurd · failed),fun ⟨ages,_⟩ => absurd bad (ages pbn mem_cons_self here)⟩,scanned.tables,(absurd · failed)⟩
    · rw [done]
      obtain ⟨ret,tables,final⟩ := ih (pbn + 1) next
      refine ⟨ret.trans ?_,tables,final⟩
      rw [forall_mem_cons,and_iff_right good]

end

theorem scanIs (flash : Flash) (vol : Vol) :
    ((scanReservoir flash vol initBBM).1 = .FSR_BML_SUCCESS ↔ Ready flash vol) ∧
    SameTables initBBM (scanReservoir flash vol initBBM).2 ∧
    (Ready flash vol → (∀ kind, sbnOf (scanReservoir flash vol initBBM).2 kind = pcbBlock flash vol kind) ∧
      (scanReservoir flash vol initBBM).2.nTPCBSbn = tpcbBlock flash vol) := by
  have start : Scanned flash [] ⟨{ initBBM with nUPcbAge := 0, nLPcbAge := 0 },false,false⟩ :=
    ⟨fun k => by cases k <;> rfl,fun k => by cases k <;> rfl,rfl,rfl,rfl,rfl,rfl,rfl,rfl,rfl,rfl⟩
  obtain ⟨ret,tables,final⟩ := scanBlocksIs (vol.nLastSbnOfRsvr + 1 - vol.n1stSbnOfRsvr) vol.n1stSbnOfRsvr start
  have ready : (scanReservoir flash vol initBBM).1 = .FSR_BML_SUCCESS ↔ Ready flash vol :=
    ret.trans ⟨fun ⟨ages,upper,lower⟩ => ⟨ages,upper,lower⟩,fun ⟨ages,upper,lower⟩ => ⟨ages,upper,lower⟩⟩
  refine ⟨ready,tables,fun ok => ?_⟩
  obtain ⟨s,scanned,same⟩ := final (ready.mpr ok)
  rw [scanReservoir,← same]
  exact ⟨scanned.sbn,scanned.tpcb⟩

end EclairKernel.FsrMount
