import EclairKernel.Run
import Mathlib.Data.Nat.ModEq

/-! mm/ashmem.c: areas of anonymous shared memory, their unpinned intervals and
the global LRU of evictable intervals. size_t and unsigned long are the 32-bit
words of this ARM kernel. Names, /proc text and the shmem file itself are left
out; a truncation of the backing file is reported as an effect. -/
namespace EclairKernel.Ashmem

def word : Nat := 2^32
def pageSize : Nat := 4096
def pageAlign (x : Nat) : Nat := (x + (pageSize - 1)) % word / pageSize * pageSize

def toInt (x : Int) : Int := (x + 2^31) % 2^32 - 2^31

def ENOMEM : Int := 12
def EFAULT : Int := 14
def EINVAL : Int := 22
def EPERM : Int := 1
def ASHMEM_NOT_PURGED : Int := 0
def ASHMEM_WAS_PURGED : Int := 1
def ASHMEM_IS_UNPINNED : Int := 0
def ASHMEM_IS_PINNED : Int := 1

/- One struct ashmem_range. It sits in exactly one unpinned list for its whole
life, so the list owns it; the LRU refers to it by area and identity. -/
structure Range where
  id : Nat
  pgstart : Nat
  pgend : Nat
  purged : Bool
  deriving DecidableEq, Repr

def rangeSize (r : Range) : Nat := (r.pgend + 1 + (word - r.pgstart)) % word
def RangeOnLru (r : Range) : Prop := r.purged = false
instance (r) : Decidable (RangeOnLru r) := by unfold RangeOnLru; infer_instance

def PageRangeSubsumesRange (r : Range) (start stop : Nat) : Prop :=
  start ≤ r.pgstart ∧ r.pgend ≤ stop
def PageRangeSubsumedByRange (r : Range) (start stop : Nat) : Prop :=
  r.pgstart ≤ start ∧ stop ≤ r.pgend
def PageInRange (r : Range) (page : Nat) : Prop := r.pgstart ≤ page ∧ page ≤ r.pgend
def PageRangeInRange (r : Range) (start stop : Nat) : Prop :=
  PageInRange r start ∨ PageInRange r stop ∨ PageRangeSubsumesRange r start stop
def RangeBeforePage (r : Range) (page : Nat) : Prop := r.pgend < page

theorem inRange {r start stop} : PageRangeInRange r start stop ↔ (r.pgstart ≤ start ∧ start ≤ r.pgend) ∨
    (r.pgstart ≤ stop ∧ stop ≤ r.pgend) ∨ start ≤ r.pgstart ∧ r.pgend ≤ stop := .rfl

instance (r a b) : Decidable (PageRangeSubsumesRange r a b) := by
  unfold PageRangeSubsumesRange; infer_instance
instance (r a b) : Decidable (PageRangeSubsumedByRange r a b) := by
  unfold PageRangeSubsumedByRange; infer_instance
instance (r p) : Decidable (PageInRange r p) := by unfold PageInRange; infer_instance
instance (r a b) : Decidable (PageRangeInRange r a b) := by unfold PageRangeInRange; infer_instance
instance (r p) : Decidable (RangeBeforePage r p) := by unfold RangeBeforePage; infer_instance

structure Lru where
  list : List (Nat × Nat)
  count : Nat
  next : Nat
  deriving DecidableEq, Repr

def lruAdd (l : Lru) (asma : Nat) (r : Range) : Lru :=
  {l with list := l.list ++ [(asma,r.id)], count := (l.count + rangeSize r) % word}
def lruDel (l : Lru) (asma : Nat) (r : Range) : Lru :=
  {l with list := l.list.erase (asma,r.id), count := (l.count + (word - rangeSize r)) % word}

def rangeAlloc (l : Lru) (asma : Nat) (ok purged : Bool) (start stop : Nat) : Option (Range × Lru) :=
  if ok then
    let r := Range.mk l.next start stop purged
    let l' := {l with next := l.next + 1}
    some (r, if RangeOnLru r then lruAdd l' asma r else l')
  else none

def rangeDel (l : Lru) (asma : Nat) (r : Range) : Lru :=
  if RangeOnLru r then lruDel l asma r else l

def rangeShrink (l : Lru) (r : Range) (start stop : Nat) : Range × Lru :=
  let r' := {r with pgstart := start, pgend := stop}
  (r', if RangeOnLru r' then
      {l with count := (l.count + (word - (rangeSize r + (word - rangeSize r')) % word)) % word}
    else l)

structure PinResult where
  unpinned : List Range
  lru : Lru
  purged : Bool
  deriving DecidableEq, Repr

/- The body of `ashmem_pin`. list_for_each_entry_safe visits the list as it was:
the loop only removes or shrinks the range it stands on, and breaks after the
one insertion. -/
def ashmemPin (asma pgstart pgend : Nat) (ok : Bool) : List Range → Lru → PinResult
  | [], l => ⟨[],l,false⟩
  | r::rest, l =>
    if RangeBeforePage r pgstart then ⟨r::rest,l,false⟩
    else if PageRangeInRange r pgstart pgend then
      if PageRangeSubsumesRange r pgstart pgend then
        let out := ashmemPin asma pgstart pgend ok rest (rangeDel l asma r)
        ⟨out.unpinned,out.lru,r.purged || out.purged⟩
      else if pgstart ≤ r.pgstart then
        let cut := rangeShrink l r ((pgend + 1) % word) r.pgend
        let out := ashmemPin asma pgstart pgend ok rest cut.2
        ⟨cut.1::out.unpinned,out.lru,r.purged || out.purged⟩
      else if r.pgend ≤ pgend then
        let cut := rangeShrink l r r.pgstart ((pgstart + (word - 1)) % word)
        let out := ashmemPin asma pgstart pgend ok rest cut.2
        ⟨cut.1::out.unpinned,out.lru,r.purged || out.purged⟩
      else
        match rangeAlloc l asma ok r.purged ((pgend + 1) % word) r.pgend with
        | some (upper,l') =>
          let cut := rangeShrink l' r r.pgstart ((pgstart + (word - 1)) % word)
          ⟨upper::cut.1::rest,cut.2,r.purged⟩
        | none =>
          -- the failed allocation is ignored: the pages above the hole leave the list
          let cut := rangeShrink l r r.pgstart ((pgstart + (word - 1)) % word)
          ⟨cut.1::rest,cut.2,r.purged⟩
    else
      let out := ashmemPin asma pgstart pgend ok rest l
      ⟨r::out.unpinned,out.lru,out.purged⟩

inductive Scan where
  | insert
  | subsumed
  | merge (r : Range)
  deriving DecidableEq, Repr

def unpinScan (pgstart pgend : Nat) : List Range → Scan
  | [] => .insert
  | r::rest =>
    if RangeBeforePage r pgstart then .insert
    else if PageRangeSubsumedByRange r pgstart pgend then .subsumed
    else if PageRangeInRange r pgstart pgend then .merge r
    else unpinScan pgstart pgend rest

def insertRange (new : Range) : List Range → List Range
  | [] => [new]
  | r::rest => if RangeBeforePage r new.pgstart then new::r::rest else r::insertRange new rest

structure UnpinResult where
  unpinned : List Range
  lru : Lru
  ret : Int
  deriving DecidableEq, Repr

/- `goto restart` removes a range each time, so one more pass than there are
ranges always suffices. -/
def unpinLoop (asma : Nat) (ok : Bool) : Nat → Nat → Nat → Bool → List Range → Lru → UnpinResult
  | 0, _, _, _, ranges, l => ⟨ranges,l,0⟩
  | fuel+1, pgstart, pgend, purged, ranges, l =>
    match unpinScan pgstart pgend ranges with
    | .subsumed => ⟨ranges,l,0⟩
    | .insert =>
      match rangeAlloc l asma ok purged pgstart pgend with
      | some (new,l') => ⟨insertRange new ranges,l',0⟩
      | none => ⟨ranges,l,-ENOMEM⟩
    | .merge r =>
      unpinLoop asma ok fuel (min r.pgstart pgstart) (max r.pgend pgend) (purged || r.purged)
        (ranges.erase r) (rangeDel l asma r)

def ashmemUnpin (asma pgstart pgend : Nat) (ok : Bool) (ranges : List Range) (l : Lru) : UnpinResult :=
  unpinLoop asma ok (ranges.length + 1) pgstart pgend false ranges l

def ashmemGetPinStatus (pgstart pgend : Nat) : List Range → Int
  | [] => ASHMEM_IS_PINNED
  | r::rest =>
    if RangeBeforePage r pgstart then ASHMEM_IS_PINNED
    else if PageRangeInRange r pgstart pgend then ASHMEM_IS_UNPINNED
    else ashmemGetPinStatus pgstart pgend rest

structure Area where
  unpinned : List Range
  file : Bool
  size : Nat
  protMask : Nat
  deriving DecidableEq, Repr

def PROT_MASK : Nat := 7
def PROT_READ : Nat := 1
def PROT_EXEC : Nat := 4
def areaPages (a : Area) : Nat := pageAlign a.size / pageSize

structure State where
  area : Nat → Option Area
  lru : Lru

def setArea (s : State) (asma : Nat) (a : Option Area) : State :=
  {s with area := fun k => if k = asma then a else s.area k}

theorem setAreaSame (s : State) (k : Nat) (a : Option Area) : (setArea s k a).area k = a := by
  simp [setArea]

theorem setAreaOther (s : State) {k j} (a : Option Area) (h : j ≠ k) : (setArea s k a).area j = s.area j := by
  simp [setArea,h]

theorem setAreaEvery {s : State} {k : Nat} {a : Area} {P : Nat → Area → Prop} (here : P k a)
    (there : ∀ j b, s.area j = some b → j ≠ k → P j b) : ∀ j b, (setArea s k (some a)).area j = some b → P j b := by
  intro j b found
  by_cases same : j = k
  · subst j
    rw [setAreaSame] at found
    cases found
    exact here
  · rw [setAreaOther _ _ same] at found
    exact there j b found same

inductive PinCmd where
  | pin
  | unpin
  | getPinStatus
  deriving DecidableEq, Repr

-- per custom, zero stands for everything onward
def pinLen (a : Area) (offset len : Nat) : Nat :=
  if len = 0 then (pageAlign a.size + (word - offset)) % word else len

def pinInterval (a : Area) (offset len : Nat) : Option (Nat × Nat) :=
  if offset % pageSize ≠ 0 ∨ pinLen a offset len % pageSize ≠ 0 then none
  else if word - 1 - offset < pinLen a offset len then none
  else if pageAlign a.size < (offset + pinLen a offset len) % word then none
  else some (offset / pageSize,
    (offset / pageSize + pinLen a offset len / pageSize + (word - 1)) % word)

def ashmemPinUnpin (s : State) (asma : Nat) (cmd : PinCmd) (offset len : UInt32)
    (fault ok : Bool) : State × Int :=
  match s.area asma with
  | none => (s,-EINVAL)
  | some a =>
    if a.file = false then (s,-EINVAL)
    else if fault then (s,-EFAULT)
    else match pinInterval a offset.toNat len.toNat with
      | none => (s,-EINVAL)
      | some (pgstart,pgend) =>
        match cmd with
        | .pin =>
          let out := ashmemPin asma pgstart pgend ok a.unpinned s.lru
          (setArea {s with lru := out.lru} asma (some {a with unpinned := out.unpinned}),
            if out.purged then ASHMEM_WAS_PURGED else ASHMEM_NOT_PURGED)
        | .unpin =>
          let out := ashmemUnpin asma pgstart pgend ok a.unpinned s.lru
          (setArea {s with lru := out.lru} asma (some {a with unpinned := out.unpinned}),out.ret)
        | .getPinStatus => (s,ashmemGetPinStatus pgstart pgend a.unpinned)

structure Truncate where
  asma : Nat
  start : Nat
  stop : Nat
  deriving DecidableEq, Repr

def markPurged (id : Nat) (ranges : List Range) : List Range :=
  ranges.map (fun r => if r.id = id then {r with purged := true} else r)

def shrinkLoop : List (Nat × Nat) → Int → State → State × List Truncate
  | [], _, s => (s,[])
  | (asma,id)::rest, nr, s =>
    match s.area asma with
    | none => (s,[])
    | some a =>
      match a.unpinned.find? (fun r => r.id = id) with
      | none => (s,[])
      | some r =>
        let cut := Truncate.mk asma (r.pgstart * pageSize % word)
          ((((r.pgend + 1) % word) * pageSize + (word - 1)) % word)
        let s' := setArea {s with lru := lruDel s.lru asma r} asma
          (some {a with unpinned := markPurged id a.unpinned})
        let nr' := toInt (nr - rangeSize r)
        if nr' ≤ 0 then (s',[cut])
        else
          let out := shrinkLoop rest nr' s'
          (out.1,cut::out.2)

def ashmemShrink (s : State) (nrToScan : Int) (gfpFs : Bool) : State × Int × List Truncate :=
  if nrToScan ≠ 0 ∧ gfpFs = false then (s,-1,[])
  else if nrToScan = 0 then (s,toInt s.lru.count,[])
  else
    let out := shrinkLoop s.lru.list nrToScan s
    (out.1,toInt out.1.lru.count,out.2)

def delRanges (asma : Nat) : List Range → Lru → Lru
  | [], l => l
  | r::rest, l => delRanges asma rest (rangeDel l asma r)

def ashmemRelease (s : State) (asma : Nat) : State :=
  match s.area asma with
  | none => s
  | some a => setArea {s with lru := delRanges asma a.unpinned s.lru} asma none

def ashmemOpen (s : State) (asma : Nat) : State :=
  match s.area asma with
  | none => setArea s asma (some ⟨[],false,0,PROT_MASK⟩)
  | some _ => s

def ashmemMmap (s : State) (asma vmFlags : Nat) (setup : Bool) : State × Int :=
  match s.area asma with
  | none => (s,-EINVAL)
  | some a =>
    if a.size = 0 then (s,-EINVAL)
    else if (vmFlags &&& (PROT_MASK ^^^ (a.protMask &&& PROT_MASK))) ≠ 0 then (s,-EPERM)
    else if a.file then (s,0)
    else if setup then (setArea s asma (some {a with file := true}),0)
    else (s,-ENOMEM)

def setProtMask (s : State) (asma prot : Nat) (readImpliesExec : Bool) : State × Int :=
  match s.area asma with
  | none => (s,-EINVAL)
  | some a =>
    if (a.protMask &&& prot) ≠ prot then (s,-EINVAL)
    else
      let prot := if (prot &&& PROT_READ) ≠ 0 ∧ readImpliesExec then prot ||| PROT_EXEC else prot
      (setArea s asma (some {a with protMask := prot}),0)

def setSize (s : State) (asma : Nat) (size : UInt32) : State × Int :=
  match s.area asma with
  | none => (s,-EINVAL)
  | some a => if a.file then (s,-EINVAL) else (setArea s asma (some {a with size := size.toNat}),0)

def purgeCounted (s : State) (ret : Int) : State × Int × List Truncate :=
  let out := ashmemShrink s ret true
  (out.1,ret,out.2.2)

def purgeAllCaches (s : State) (capable : Bool) : State × Int × List Truncate :=
  if capable then purgeCounted s (ashmemShrink s 0 true).2.1 else (s,-EPERM,[])

inductive Op where
  | open (asma : Nat)
  | setSize (asma : Nat) (size : UInt32)
  | setProtMask (asma prot : Nat) (readImpliesExec : Bool)
  | mmap (asma vmFlags : Nat) (setup : Bool)
  | pinUnpin (asma : Nat) (cmd : PinCmd) (offset len : UInt32) (fault ok : Bool)
  | shrink (nrToScan : Int) (gfpFs : Bool)
  | purgeAllCaches (capable : Bool)
  | release (asma : Nat)
  deriving DecidableEq, Repr

def step (s : State) : Op → State
  | .open asma => ashmemOpen s asma
  | .setSize asma size => (setSize s asma size).1
  | .setProtMask asma prot exec => (setProtMask s asma prot exec).1
  | .mmap asma vmFlags setup => (ashmemMmap s asma vmFlags setup).1
  | .pinUnpin asma cmd offset len fault ok => (ashmemPinUnpin s asma cmd offset len fault ok).1
  | .shrink nr gfpFs => (ashmemShrink s nr gfpFs).1
  | .purgeAllCaches capable => (purgeAllCaches s capable).1
  | .release asma => ashmemRelease s asma

def boot : State := ⟨fun _ => none,⟨[],0,0⟩⟩

end EclairKernel.Ashmem
