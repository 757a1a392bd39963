import EclairKernel.Sorting
import Mathlib.Data.List.Nodup
import Mathlib.Data.List.Chain

/-! FSR_BML_BBMCommon.c: _CheckPartInfo. The fields have 16 bits and their sums 32, so no
sum here overflows. With one entry the sort and the boundary check do nothing, as in the
source. -/
namespace EclairKernel.Fsr.Partition
open List Sorting

structure Entry where
  nAttr : BitVec 16
  n1stVun : Nat
  nNumOfUnits : Nat
  deriving DecidableEq

structure Volume where
  nLastUnit : Nat
  nNumOfPlane : Nat
  flex : Bool

inductive Ret where
  | success
  | unusedArea
  | overlappedPartition
  | unsupportedUnits
  | invalidParam
  deriving DecidableEq

def Entry.slc (e : Entry) : Bool := e.nAttr &&& 0x1000 ≠ 0

def Entry.mlc (e : Entry) : Bool := e.nAttr &&& 0x2000 ≠ 0

-- The first unit behind the entry.
def Entry.next (e : Entry) : Nat := e.n1stVun + e.nNumOfUnits

-- The inner loop, from the last pair of entries to the first that is not in place yet.
def pass : List Entry → List Entry
  | [] => []
  | x::l =>
    match pass l with
    | [] => [x]
    | y::rest => if y.n1stVun < x.n1stVun then y::x::rest else x::y::rest

def boundary : List Entry → Ret
  | e::f::rest =>
    if e.next < f.n1stVun then .unusedArea
    else if e.next > f.n1stVun then .overlappedPartition
    else boundary (f::rest)
  | _ => .success

-- `mlc` is bFoundMLCPart, `last` the entry at nLastSLCPartIdx.
def kinds (mlc : Bool) (last : Option Entry) : List Entry → Option (Option Entry)
  | [] => some last
  | e::rest =>
    if e.slc then if mlc then none else kinds mlc (some e) rest
    else if e.mlc then kinds true last rest
    else none

/-- The result, the table as the call leaves it and what is stored in *pnLastSLCPbn. -/
def checkPartInfo (vol : Volume) (l : List Entry) : Ret × List Entry × Option Nat :=
  let l := rounds pass l.length l
  let nLastUnit := (l.getLast?.elim 0 Entry.next) - 1
  if boundary l ≠ .success then (boundary l,l,none)
  else if nLastUnit > vol.nLastUnit then (.unsupportedUnits,l,none)
  else if vol.flex then
    if nLastUnit < vol.nLastUnit then (.unusedArea,l,none)
    else match kinds false none l with
      | none => (.invalidParam,l,none)
      | some last => (.success,l,some (last.elim 0 fun e => e.next * vol.nNumOfPlane - 1))
  else (.success,l,none)

theorem passFronts : Fronts (fun a b : Entry => a.n1stVun ≤ b.n1stVun) pass where
  perm l := by
    induction l with
    | nil => exact .rfl
    | cons x l ih =>
      rw [pass]
      split
      · next eq => exact (eq ▸ ih).cons x
      · next y rest eq =>
        have perm := (eq ▸ ih).cons x
        split
        · exact (Perm.swap x y rest).trans perm
        · exact perm
  least {l} := by
    induction l with
    | nil => exact fun eq => absurd eq (by simp [pass])
    | cons x l ih =>
      intro m rest eq
      rw [pass] at eq
      split at eq
      · cases eq
        simp
      · split at eq <;> cases eq <;> grind

theorem boundaryIff {l} : boundary l = .success ↔ l.IsChain fun a b => a.next = b.n1stVun := by
  induction l with
  | nil => simp [boundary]
  | cons e l ih =>
    match l with
    | [] => simp [boundary]
    | f::rest =>
      rw [boundary,isChain_cons_cons,← ih]
      split_ifs <;> simp <;> omega

def Kinds (l : List Entry) : Prop :=
  (∀ e ∈ l, e.slc ∨ e.mlc) ∧ l.Pairwise fun a b => a.slc = false → b.slc = false

theorem kindsSome {l mlc last r} : kinds mlc last l = some r ↔ Kinds l ∧ (mlc → ∀ e ∈ l, e.slc = false) ∧
    r = (l.filter Entry.slc).getLast?.or last := by
  induction l generalizing mlc last with
  | nil =>
    simp only [kinds,Kinds]
    simp [eq_comm (a := r)]
  | cons e l ih =>
    rw [kinds]
    split
    · next slc =>
      split
      · next found => simp [slc,found]
      · next first =>
        rw [ih]
        simp [Kinds,slc,first,getLast?_cons]
    · next other =>
      split
      · rw [ih]
        simp only [Kinds]
        simp [other]
        tauto
      · next neither => simp [Kinds,other,neither]

structure Tiles (vol : Volume) (l : List Entry) : Prop where
  chain : l.IsChain fun a b => a.next = b.n1stVun
  fits : ∀ e ∈ l.getLast?, e.next - 1 ≤ vol.nLastUnit
  whole : vol.flex → (∀ e ∈ l.getLast?, e.next - 1 = vol.nLastUnit) ∧ Kinds l

/-- Entries of at least one unit tile in one order at most, the sorted one. -/
theorem tilesSorted {l o} (units : ∀ e ∈ l, 1 ≤ e.nNumOfUnits) (perm : o ~ l)
    (chain : o.IsChain fun a b => a.next = b.n1stVun) : o = rounds pass l.length l := by
  have rising : (o.map Entry.n1stVun).Pairwise (· < ·) := by
    refine isChain_iff_pairwise.mp ((isChain_map _).mpr (chain.imp_of_mem_imp fun a b mem _ meet => ?_))
    have := units a (perm.mem_iff.mp mem)
    rw [← meet,Entry.next]
    omega
  have back := perm.trans (roundsPerm passFronts l.length l).symm
  refine back.eq_of_pairwise (fun a b left right le ge => ?_) ((pairwise_map.mp rising).imp Nat.le_of_lt)
    (roundsSorted passFronts (Nat.le_refl l.length))
  exact inj_on_of_nodup_map (rising.imp Nat.ne_of_lt) left (back.mem_iff.mpr right) (Nat.le_antisymm le ge)

theorem checkPartInfoTiles (vol : Volume) {l : List Entry} (some_ : l ≠ []) (units : ∀ e ∈ l, 1 ≤ e.nNumOfUnits) :
    ((checkPartInfo vol l).1 = .success ↔ ∃ o, o ~ l ∧ Tiles vol o) ∧
    (checkPartInfo vol l).2.1 ~ l ∧ (checkPartInfo vol l).2.1.Pairwise (fun a b => a.n1stVun ≤ b.n1stVun) ∧
    ((checkPartInfo vol l).1 = .success → vol.flex → (checkPartInfo vol l).2.2 =
      some (((checkPartInfo vol l).2.1.filter Entry.slc).getLast?.elim 0 fun e => e.next * vol.nNumOfPlane - 1)) := by
  have perm := roundsPerm passFronts l.length l
  have sorted := roundsSorted passFronts (Nat.le_refl l.length)
  have only : (∃ o, o ~ l ∧ Tiles vol o) ↔ Tiles vol (rounds pass l.length l) := by
    refine ⟨?_,fun t => ⟨_,perm,t⟩⟩
    rintro ⟨o,p,t⟩
    exact tilesSorted units p t.chain ▸ t
  have last : (rounds pass l.length l).getLast? ≠ none := by
    simpa using fun none => some_ (none ▸ perm).symm.eq_nil
  rw [only]
  generalize table : rounds pass l.length l = s at *
  obtain ⟨e,last⟩ := Option.ne_none_iff_exists'.mp last
  have final : ∀ {p : Entry → Prop}, (∀ e ∈ s.getLast?, p e) ↔ p e := by simp [last]
  simp only [checkPartInfo,table,last,Option.elim_some]
  split_ifs with bad big flex small
  · exact ⟨⟨fun good => absurd good bad,fun t => absurd (boundaryIff.mpr t.chain) bad⟩,perm,sorted,fun good => absurd good bad⟩
  · exact ⟨⟨by simp,fun t => absurd (final.mp t.fits) (by omega)⟩,perm,sorted,by simp⟩
  · exact ⟨⟨by simp,fun t => absurd (final.mp (t.whole flex).1) (by omega)⟩,perm,sorted,by simp⟩
  · have chain := boundaryIff.mp (not_not.mp bad)
    cases found : kinds false none s with
    | none =>
      refine ⟨⟨by simp,fun t => ?_⟩,perm,sorted,by simp⟩
      cases found.symm.trans (kindsSome.mpr ⟨(t.whole flex).2,by simp,rfl⟩)
    | some r =>
      obtain ⟨ordered,-,rfl⟩ := kindsSome.mp found
      exact ⟨⟨fun _ => ⟨chain,final.mpr (by omega),fun _ => ⟨final.mpr (by omega),ordered⟩⟩,by simp⟩,perm,sorted,by simp⟩
  · have chain := boundaryIff.mp (not_not.mp bad)
    exact ⟨⟨fun _ => ⟨chain,final.mpr (by omega),fun is => absurd is flex⟩,by simp⟩,perm,sorted,by simp [flex]⟩

def mixedTable : List Entry := [⟨0x2000,14,6⟩, ⟨0x1000,4,6⟩, ⟨0x2000,10,4⟩, ⟨0x1000,0,4⟩]

theorem mixedTableTiles : let out := checkPartInfo ⟨19,2,true⟩ mixedTable
    out.1 = .success ∧ out.2.1 ~ mixedTable ∧ out.2.1.Pairwise (fun a b => a.n1stVun ≤ b.n1stVun) ∧ out.2.2 = some 19 := by
  obtain ⟨tiled,perm,sorted,last⟩ := checkPartInfoTiles ⟨19,2,true⟩ (show mixedTable ≠ [] by decide) (by decide)
  have success := tiled.mpr ⟨[⟨0x1000,0,4⟩, ⟨0x1000,4,6⟩, ⟨0x2000,10,4⟩, ⟨0x2000,14,6⟩],by decide,by simp [Entry.next],by simp [Entry.next],
    fun _ => ⟨by simp [Entry.next],by decide,by decide⟩⟩
  exact ⟨success,perm,sorted,(last success rfl).trans (by decide)⟩

end EclairKernel.Fsr.Partition
