import Mathlib.Data.Nat.ModEq
import Mathlib.Logic.Function.Basic

/-! drivers/tfsr/Core/BML: mounting the reservoir of one die, with the tables of
FSR_BML_BIFCommon.c that the metadata is loaded into. A page is what a read of it gives:
whether it is free (a read without ECC), whether a read with ECC succeeds (a disturbance
counts as success), and the words of its main area. UINT32 offsets wrap. The tables have no
end here: every store is kept in `writes`, every call of _LoadMetaData in `loads`. The driver
is built with TINY_FSR, so a read disturbance of the UPCB has no further effect. The loops of
the search have fuel, and none stands for a search that does not come to an end. -/
namespace EclairKernel.FsrMount
open Function

def BML_NUM_OF_META_PGS : Nat := 3
def BML_2KB_PG : Nat := 4
def BML_NUM_OF_BMS_2KB_PG : Nat := 4
def BML_NUM_OF_BMS_4KB_PG : Nat := 10
def BML_BMFS_PER_BMS : Nat := 127
def BML_RCBFS_PER_RCBS : Nat := 256
def BML_PCH_SCT_OFF : Nat := 0
def BML_PIA_SCT_OFF : Nat := 1
def BML_ERL_SCT_OFF : Nat := 2
def BML_BAB_SCT_OFF : Nat := 3
def BML_BLKS_PER_BADUNIT : Nat := 32

def sub32 (a b : Nat) : Nat := (a + (2^32 - b)) % 2^32

structure Page where
  free : Bool
  readable : Bool
  badMark : Bool
  metaMark : Bool
  word : Nat → UInt16

abbrev Flash := Nat → Nat → Page

structure Vol where
  nSctsPerPg : Nat
  nNumOfPgsInSLCBlk : Nat
  nNumOfPlane : Nat
  nNumOfRsvrBlks : Nat
  nNumOfBlksInDie : Nat
  nDieIdx : Nat
  n1stSbnOfRsvr : Nat
  nLastSbnOfRsvr : Nat

structure BMF where
  nSbn : UInt16
  nRbn : UInt16
  deriving DecidableEq, Repr

structure BadUnit where
  n1stBMFIdx : Nat
  nNumOfBMFs : Nat
  deriving DecidableEq, Repr

inductive Table | bmf | rcb | buMap
  deriving DecidableEq, Repr

structure Write where
  table : Table
  index : Nat
  deriving DecidableEq, Repr

inductive Kind | lpcb | upcb
  deriving DecidableEq, Repr

structure Load where
  kind : Kind
  nPbn : Nat
  nStartOffset : Nat
  deriving DecidableEq, Repr

structure Rsv where
  nUPCBSbn : Nat
  nLPCBSbn : Nat
  nTPCBSbn : Nat
  nREFSbn : Nat
  nGlobalPCBAge : Nat
  nUPcbAge : Nat
  nLPcbAge : Nat
  nNextUPCBPgOff : Nat
  nNextLPCBPgOff : Nat
  nNumOfBMFs : Nat
  nNumOfRCBs : Nat
  pstBMF : Nat → BMF
  pstRCB : Nat → UInt16
  pBUMap : Nat → BadUnit
  writes : List Write
  loads : List Load

def initBBM : Rsv :=
  ⟨0,0,0,0,0,0,0,0,0,0,0,fun _ => ⟨0xFFFF,0xFFFF⟩,fun _ => 0xFFFF,fun _ => ⟨0,0⟩,[],[]⟩

inductive Ret
  | FSR_BML_SUCCESS | FSR_BML_NO_UPCB | FSR_BML_NO_LPCB | FSR_BML_INVALID_PCB_AGE
  | FSR_BML_LOAD_LBMS_FAILURE | FSR_BML_LOAD_UBMS_FAILURE
  deriving DecidableEq, Repr

def alignBy4 (n : Nat) : Nat := if n % 4 ≠ 0 then (n / 4 + 1) * 4 else n

def numOfBMFs (vol : Vol) : Nat :=
  if 1 < vol.nNumOfPlane then vol.nNumOfRsvrBlks + vol.nNumOfRsvrBlks / 2 else vol.nNumOfRsvrBlks

def buMapSize (vol : Vol) : Nat :=
  if BML_BLKS_PER_BADUNIT < vol.nNumOfBlksInDie then vol.nNumOfBlksInDie / BML_BLKS_PER_BADUNIT else 1

def entriesOf (vol : Vol) : Table → Nat
  | .bmf => alignBy4 (numOfBMFs vol)
  | .rcb => if 1 < vol.nNumOfPlane then alignBy4 (vol.nNumOfRsvrBlks / 2) else 0
  | .buMap => alignBy4 (buMapSize vol)

def word32 (p : Page) (i : Nat) : Nat := (p.word i).toNat + 2^16 * (p.word (i + 1)).toNat

def hasSig (p : Page) : Kind → Bool
  | .lpcb => p.word 0 == 0x504C && p.word 1 == 0x4843
  | .upcb => p.word 0 == 0x5055 && p.word 1 == 0x4843

def refPbn (p : Page) : Nat := (p.word 2).toNat
def tpcbPbn (p : Page) : Nat := (p.word 3).toNat
def age (p : Page) : Nat := word32 p 6
def globalAge (p : Page) : Nat := word32 p 8

structure Scan where
  rsv : Rsv
  bUPCB : Bool
  bLPCB : Bool

def updateGlobalAge (r : Rsv) (p : Page) : Rsv :=
  if r.nGlobalPCBAge < globalAge p then { r with nGlobalPCBAge := globalAge p, nTPCBSbn := tpcbPbn p } else r

def scanBlock (flash : Flash) (s : Scan) (pbn : Nat) : Option Scan :=
  let p := flash pbn 0
  if p.badMark || !p.readable || !p.metaMark then some s
  else if hasSig p .upcb then
    if age p = 0xFFFFFFFF then none
    else
      let r := if s.rsv.nUPcbAge < age p then { s.rsv with nUPCBSbn := pbn % 2^16, nUPcbAge := age p } else s.rsv
      some ⟨updateGlobalAge r p,true,s.bLPCB⟩
  else if hasSig p .lpcb then
    if age p = 0xFFFFFFFF then none
    else
      let r := if s.rsv.nLPcbAge < age p then { s.rsv with nLPCBSbn := pbn % 2^16, nLPcbAge := age p } else s.rsv
      some ⟨updateGlobalAge r p,s.bUPCB,true⟩
  else some s

def scanBlocks (flash : Flash) : Nat → Nat → Scan → Ret × Rsv
  | 0,_,s => (if !s.bUPCB then .FSR_BML_NO_UPCB else if !s.bLPCB then .FSR_BML_NO_LPCB else .FSR_BML_SUCCESS,s.rsv)
  | left + 1,pbn,s =>
    match scanBlock flash s pbn with
    | none => (.FSR_BML_INVALID_PCB_AGE,s.rsv)
    | some s => scanBlocks flash left (pbn + 1) s

def scanReservoir (flash : Flash) (vol : Vol) (r : Rsv) : Ret × Rsv :=
  scanBlocks flash (vol.nLastSbnOfRsvr + 1 - vol.n1stSbnOfRsvr) vol.n1stSbnOfRsvr
    ⟨{ r with nUPcbAge := 0, nLPcbAge := 0 },false,false⟩

/-- The first loop: the offset behind the last page of a stride that is not free, or none
when all of them are free. -/
def firstScan (flash : Flash) (pbn : Nat) : Nat → Nat → Option (Option Nat)
  | 0,_ => none
  | fuel + 1,off =>
    if off = 0 then some none
    else if (flash pbn (off - 1)).free then firstScan flash pbn fuel (sub32 off (BML_NUM_OF_META_PGS + 1))
    else some (some off)

def allZero (vol : Vol) (p : Page) : Bool := (List.range (256 * vol.nSctsPerPg)).all fun i => p.word i == 0

def metaReadable (flash : Flash) (pbn : Nat) : Nat → Nat → Nat → Option Bool
  | 0,_,_ => none
  | fuel + 1,idx,off =>
    if idx < off then
      if (flash pbn idx).readable then metaReadable flash pbn fuel ((idx + 1) % 2^32) off else some false
    else some true

def confirms (flash : Flash) (vol : Vol) (pbn off : Nat) : Option Bool :=
  if (flash pbn off).readable && allZero vol (flash pbn off) then
    metaReadable flash pbn (BML_NUM_OF_META_PGS + 1) (sub32 off BML_NUM_OF_META_PGS) off
  else some false

/-- The second loop, with bFound and *pValidOffset when it is left. The look at the page
behind the latest confirm page changes nothing. -/
def searchBack (flash : Flash) (vol : Vol) (pbn : Nat) (kind : Kind) (tpcb : Bool) : Nat → Nat → Option (Bool × Nat)
  | 0,_ => none
  | fuel + 1,off => do
    if ← confirms flash vol pbn off then
      let valid := sub32 off BML_NUM_OF_META_PGS
      some (!tpcb || hasSig (flash pbn valid) kind,valid)
    else if off = 0 then some (false,0xFFFFFFFF)
    else searchBack flash vol pbn kind tpcb fuel (sub32 off 1)

def setNextPgOff (r : Rsv) (off : Nat) : Kind → Rsv
  | .upcb => { r with nNextUPCBPgOff := off % 2^16 }
  | .lpcb => { r with nNextLPCBPgOff := off % 2^16 }

def findValidMetaData (flash : Flash) (vol : Vol) (pbn : Nat) (kind : Kind) (tpcb : Bool) (r : Rsv) :
    Option (Bool × Nat × Rsv) := do
  match ← firstScan flash pbn (vol.nNumOfPgsInSLCBlk + 1) vol.nNumOfPgsInSLCBlk with
  | none => some (false,0xFFFFFFFF,r)
  | some off =>
    let (bFound,valid) ← searchBack flash vol pbn kind tpcb (vol.nNumOfPgsInSLCBlk + 1) (sub32 off 1)
    some (bFound,valid,setNextPgOff r off kind)

def bmfAt (p : Page) (sct i : Nat) : BMF := ⟨p.word (256 * sct + 2 + 2 * i),p.word (256 * sct + 3 + 2 * i)⟩
def rcbAt (p : Page) (sct i : Nat) : UInt16 := p.word (256 * sct + i)
def emptySlot : BMF := ⟨0xFFFF,0xFFFF⟩

def bmfLimit (vol : Vol) : Nat := numOfBMFs vol % 2^16

def storeBMF (r : Rsv) (f : BMF) : Rsv :=
  { r with
    pstBMF := update r.pstBMF r.nNumOfBMFs f
    nNumOfBMFs := (r.nNumOfBMFs + 1) % 2^16
    writes := r.writes ++ [⟨.bmf,r.nNumOfBMFs⟩] }

def loadBMS (vol : Vol) (p : Page) (sct : Nat) : Nat → Nat → Rsv → Bool × Rsv
  | 0,_,r => (true,r)
  | left + 1,i,r =>
    let f := bmfAt p sct i
    if f = emptySlot then (true,r)
    else if bmfLimit vol < r.nNumOfBMFs then (false,r)
    else loadBMS vol p sct left (i + 1) (storeBMF r f)

def storeRCB (r : Rsv) (c : UInt16) : Rsv :=
  { r with
    pstRCB := update r.pstRCB r.nNumOfRCBs c
    nNumOfRCBs := (r.nNumOfRCBs + 1) % 2^16
    writes := r.writes ++ [⟨.rcb,r.nNumOfRCBs⟩] }

def loadRCBs (p : Page) (sct : Nat) : Nat → Nat → Rsv → Rsv
  | 0,_,r => r
  | left + 1,i,r => if rcbAt p sct i = 0xFFFF then r else loadRCBs p sct left (i + 1) (storeRCB r (rcbAt p sct i))

def numOfBMS (vol : Vol) : Nat := if vol.nSctsPerPg = BML_2KB_PG then BML_NUM_OF_BMS_2KB_PG else BML_NUM_OF_BMS_4KB_PG

def numOfRCBSectors (vol : Vol) : Nat :=
  if 1 < vol.nNumOfPlane then
    let n := numOfBMS vol * BML_BMFS_PER_BMS / 3
    if n % BML_RCBFS_PER_RCBS ≠ 0 then n / BML_RCBFS_PER_RCBS + 1 else n / BML_RCBFS_PER_RCBS
  else 0

def loadHeader (p : Page) (kind : Kind) (r : Rsv) : Rsv :=
  let r := match kind with
    | .upcb => { r with nUPcbAge := age p, nREFSbn := refPbn p }
    | .lpcb => { r with nLPcbAge := age p }
  if r.nGlobalPCBAge < globalAge p then { r with nGlobalPCBAge := globalAge p } else r

def numOfSectors (vol : Vol) : Nat := BML_NUM_OF_META_PGS * vol.nSctsPerPg

def isBMSSector (vol : Vol) (sct : Nat) : Bool := vol.nSctsPerPg ≤ sct && sct < vol.nSctsPerPg + numOfBMS vol
def isRCBSector (vol : Vol) (sct : Nat) : Bool := numOfSectors vol - numOfRCBSectors vol ≤ sct && sct < numOfSectors vol

def sectorPage (flash : Flash) (vol : Vol) (pbn start sct : Nat) : Page :=
  flash pbn ((start + sct / vol.nSctsPerPg) % 2^32)

/-- One sector: false when _LoadBMS fails. The partition info, the erase refresh list and the
allocation bit map are copied to places of their own. -/
def loadSector (flash : Flash) (vol : Vol) (pbn start : Nat) (kind : Kind) (sct : Nat) (r : Rsv) : Bool × Rsv :=
  let p := sectorPage flash vol pbn start sct
  let inPage := sct % vol.nSctsPerPg
  if sct = BML_PCH_SCT_OFF then (true,loadHeader p kind r)
  else if sct = BML_PIA_SCT_OFF ∨ sct = BML_ERL_SCT_OFF ∨ sct = BML_BAB_SCT_OFF then (true,r)
  else if isBMSSector vol sct then loadBMS vol p inPage BML_BMFS_PER_BMS 0 r
  else if isRCBSector vol sct ∧ kind = .upcb then (true,loadRCBs p inPage BML_RCBFS_PER_RCBS 0 r)
  else (true,r)

def loadSectors (flash : Flash) (vol : Vol) (pbn start : Nat) (kind : Kind) : Nat → Nat → Rsv → Bool × Rsv
  | 0,_,r => (true,r)
  | left + 1,sct,r =>
    if sct % vol.nSctsPerPg = 0 ∧ !(sectorPage flash vol pbn start sct).readable then (false,r)
    else
      let (ok,r) := loadSector flash vol pbn start kind sct r
      if ok then loadSectors flash vol pbn start kind left (sct + 1) r else (false,r)

def loadMetaData (flash : Flash) (vol : Vol) (kind : Kind) (pbn start : Nat) (r : Rsv) : Bool × Rsv :=
  loadSectors flash vol pbn start kind (numOfSectors vol) 0 { r with loads := r.loads ++ [⟨kind,pbn,start⟩] }

def swapBMF (r : Rsv) (i j : Nat) : Rsv :=
  { r with
    pstBMF := update (update r.pstBMF i (r.pstBMF j)) j (r.pstBMF i)
    writes := r.writes ++ [⟨.bmf,i⟩,⟨.bmf,j⟩] }

def sortInner (i : Nat) : Nat → Nat → UInt16 → Rsv → Rsv
  | 0,_,_,r => r
  | left + 1,j,least,r =>
    if (r.pstBMF j).nSbn < least then sortInner i left (j + 1) (r.pstBMF j).nSbn (swapBMF r i j)
    else sortInner i left (j + 1) least r

def sortOuter : Nat → Nat → Rsv → Rsv
  | 0,_,r => r
  | left + 1,i,r => sortOuter left (i + 1) (sortInner i left (i + 1) (r.pstBMF i).nSbn r)

def sortBMI (r : Rsv) : Rsv := sortOuter r.nNumOfBMFs 0 r

def buIdx (vol : Vol) (sbn : UInt16) : Nat :=
  sub32 sbn.toNat (vol.nNumOfBlksInDie * vol.nDieIdx % 2^32) / BML_BLKS_PER_BADUNIT

def clearBUMap (vol : Vol) (r : Rsv) : Rsv :=
  { r with
    pBUMap := fun i => if i < buMapSize vol then ⟨0,0⟩ else r.pBUMap i
    writes := r.writes ++ (List.range (buMapSize vol)).map (⟨.buMap,·⟩) }

def countBMF (vol : Vol) (i : Nat) (r : Rsv) : Rsv :=
  let u := buIdx vol (r.pstBMF i).nSbn
  let unit := r.pBUMap u
  let first := if unit.nNumOfBMFs = 0 then i % 2^16 else unit.n1stBMFIdx
  { r with
    pBUMap := update r.pBUMap u ⟨first,(unit.nNumOfBMFs + 1) % 2^16⟩
    writes := r.writes ++ [⟨.buMap,u⟩] }

def countBMFs (vol : Vol) : Nat → Nat → Rsv → Rsv
  | 0,_,r => r
  | left + 1,i,r => countBMFs vol left (i + 1) (countBMF vol i r)

def reconstructBUMap (vol : Vol) (r : Rsv) : Rsv := countBMFs vol r.nNumOfBMFs 0 (clearBUMap vol r)

def sbnOf (r : Rsv) : Kind → Nat
  | .lpcb => r.nLPCBSbn
  | .upcb => r.nUPCBSbn

def swapTPCB (r : Rsv) : Kind → Rsv
  | .lpcb => { r with nLPCBSbn := r.nTPCBSbn, nTPCBSbn := r.nLPCBSbn }
  | .upcb => { r with nUPCBSbn := r.nTPCBSbn, nTPCBSbn := r.nUPCBSbn }

/-- nValidOffset before the call of _LoadMetaData, or none when _Mount returns before it. -/
def locate (flash : Flash) (vol : Vol) (kind : Kind) (r : Rsv) : Option (Option Nat × Rsv) := do
  let (bRet,valid,r) ← findValidMetaData flash vol (sbnOf r kind) kind false r
  if bRet then some (some valid,r)
  else if r.nTPCBSbn ≠ 0 then
    let (bRet,valid,r) ← findValidMetaData flash vol r.nTPCBSbn kind true r
    if bRet then some (some valid,swapTPCB r kind) else some (none,r)
  else some (some valid,r)

def notFound : Kind → Ret
  | .lpcb => .FSR_BML_NO_LPCB
  | .upcb => .FSR_BML_NO_UPCB

def notLoaded : Kind → Ret
  | .lpcb => .FSR_BML_LOAD_LBMS_FAILURE
  | .upcb => .FSR_BML_LOAD_UBMS_FAILURE

def mountKind (flash : Flash) (vol : Vol) (kind : Kind) (r : Rsv) : Option (Ret × Rsv) := do
  match ← locate flash vol kind r with
  | (none,r) => some (notFound kind,r)
  | (some valid,r) =>
    let (ok,r) := loadMetaData flash vol kind (sbnOf r kind) valid r
    some (if ok then .FSR_BML_SUCCESS else notLoaded kind,r)

def mount (flash : Flash) (vol : Vol) (r : Rsv) : Option (Ret × Rsv) := do
  let (nRet,r) := scanReservoir flash vol r
  if nRet ≠ .FSR_BML_SUCCESS then some (nRet,r)
  else
    let (nRet,r) ← mountKind flash vol .lpcb r
    if nRet ≠ .FSR_BML_SUCCESS then some (nRet,r)
    else
      let (nRet,r) ← mountKind flash vol .upcb r
      if nRet ≠ .FSR_BML_SUCCESS then some (nRet,r)
      else some (.FSR_BML_SUCCESS,reconstructBUMap vol (sortBMI r))

end EclairKernel.FsrMount
