import EclairKernel.PmemRun

/-! Who owns the blocks of a device: the open files that are not connected to
another. An owner's block stays as it is until the owner frees it. -/
namespace EclairKernel.Pmem
open Function Option Run

variable {fuel curr j p}

theorem mergeLoopFrame : Frame p (mergeLoop fuel curr p) := by
  induction fuel generalizing curr p with
  | zero => exact frameRefl p
  | succ fuel ih =>
    unfold mergeLoop
    dsimp only
    split
    · have both := fun i k i' k' => frameTrans (frameSetOrder p i k) (frameSetOrder (setOrder p i k) i' k')
      split
      · exact frameTrans (both ..) ih
      · exact both ..
    · exact frameRefl p

theorem mergeLoopOrder (free : Unallocated p curr) (taken : ¬ Unallocated p j) :
    pmemOrderAt (mergeLoop fuel curr p) j = pmemOrderAt p j := by
  induction fuel generalizing curr p with
  | zero => rfl
  | succ fuel ih =>
    unfold mergeLoop
    dsimp only
    split
    · rename_i found
      have buddyFree := unallocatedOfFree found.1
      generalize pmemBuddyIndex p curr = buddy at buddyFree ⊢
      have apart : j ≠ buddy := fun same => taken (same ▸ buddyFree)
      have other : j ≠ curr := fun same => taken (same ▸ free)
      generalize result : setOrder (setOrder p buddy (pmemOrderAt p buddy + 1)) curr
        (pmemOrderAt (setOrder p buddy (pmemOrderAt p buddy + 1)) curr + 1) = p'
      have order : pmemOrderAt p' j = pmemOrderAt p j := by
        rw [← result,orderSetOther _ _ other,orderSetOther _ _ apart]
      have marks : ∀ x, Unallocated p' x ↔ Unallocated p x := by
        rw [← result]
        exact (frameTrans (frameSetOrder ..) (frameSetOrder ..)).unallocated
      split
      · have least : Unallocated p' (min buddy curr) := by
          rw [marks]
          rcases le_total buddy curr with low | low
          · rwa [min_eq_left low]
          · rwa [min_eq_right low]
        rw [ih least fun free => taken ((marks j).mp free),order]
      · exact order
    · rfl

theorem freeMarks (inv : Inv p) (index j : Nat) : Unallocated (pmemFree p index) j ↔ Unallocated p j ∨ j = index := by
  rw [pmemFree,inv.buddy]
  simp only [Bool.false_eq_true,if_false]
  rw [mergeLoopFrame.unallocated,unallocatedCleared,or_comm]

theorem freeOrder (inv : Inv p) {index} (taken : ¬ Unallocated p j) (other : j ≠ index) :
    pmemOrderAt (pmemFree p index) j = pmemOrderAt p j := by
  rw [pmemFree,inv.buddy]
  simp only [Bool.false_eq_true,if_false]
  rw [mergeLoopOrder (unallocatedCleared.mpr (.inl rfl)) (fun free => taken ((unallocatedCleared.mp free).resolve_left other)),orderSetAllocated]

/-! What lies behind the bitmap does not matter to what is inside. -/

theorem behindUnallocated (past : Nat → Bits) (j : Nat) : Unallocated (behind p past) j ↔ Unallocated p j := by
  refine imp_congr_right fun inside => ?_
  have inside : j < p.numEntries := inside
  simp [behind,inside]

theorem behindOrder (past : Nat → Bits) (inside : j < p.numEntries) : pmemOrderAt (behind p past) j = pmemOrderAt p j := by
  simp [pmemOrderAt,behind,inside]

theorem behindTiles (inv : Inv p) (past : Nat → Bits) : Tiles (behind p past) (blocks p) (Unallocated (behind p past)) := by
  have tiles := inv.tiles
  have same : ∀ x ∈ blocks p, pmemOrderAt (behind p past) x = pmemOrderAt p x :=
    fun x mem => behindOrder past (Buddy.chainBelow tiles.chain mem)
  refine ⟨tiles.small,Buddy.chainCongr same tiles.chain,fun j taken => tiles.heads j fun free => taken ((behindUnallocated past j).mpr free),?_⟩
  intro x hx hy freeX freeY
  rw [same x hx] at hy freeY ⊢
  rw [same _ hy]
  exact tiles.clear x hx hy ((behindUnallocated past x).mp freeX) ((behindUnallocated past _).mp freeY)

theorem behindBlocks (inv : Inv p) (past : Nat → Bits) : blocks (behind p past) = blocks p := tilesBlocks (behindTiles inv past)

theorem behindInv (inv : Inv p) (past : Nat → Bits) : Inv (behind p past) :=
  ⟨inv.buddy,by rw [behindBlocks inv]; exact behindTiles inv past⟩

theorem splitLoopOrder {l best order} (tiles : Tiles p l (fun j => Unallocated p j ∧ j ≠ best)) (mem : best ∈ l)
    (free : Unallocated p best) (taken : ¬ Unallocated p j) :
    pmemOrderAt (splitLoop order best fuel p) j = pmemOrderAt p j := by
  induction fuel generalizing p l with
  | zero => rfl
  | succ fuel ih =>
    unfold splitLoop
    split
    · rename_i larger
      obtain ⟨k,p',l',order',step,buddy,same,frame,tiles',mem',now⟩ := splitStep tiles mem (Nat.ne_zero_of_lt larger)
      dsimp only
      rw [buddy,same,ih tiles' mem' ((frame.unallocated best).mpr free) fun free => taken ((frame.unallocated j).mp free),step]
      have other : j ≠ best := fun same => taken (same ▸ free)
      have apart : j ≠ best + 2^k := by
        intro inside
        have positive := Nat.two_pow_pos k
        have beyond := Buddy.chainApart tiles.chain mem (tiles.heads j taken) (by omega)
        rw [order'] at beyond
        omega
      rw [orderSetOther _ _ apart,orderSetOther _ _ other]
    · rfl

theorem allocateOrder (inv : Inv p) (len : Nat) (taken : ¬ Unallocated p j) :
    pmemOrderAt (pmemAllocate p len).1 j = pmemOrderAt p j := by
  simp only [pmemAllocate,inv.buddy,Bool.false_eq_true,if_false]
  split
  · rfl
  split
  · rfl
  rename_i best found
  obtain ⟨mem,free⟩ := fitLoopSome (fun j => j ∈ blocks p ∧ pmemIsFree p j = true) inv.tiles.chain
    (fun j mem free _ => ⟨mem,free⟩) (by simp) found
  rw [orderSetAllocated,splitLoopOrder (tilesExcept inv.tiles best) mem (unallocatedOfFree free) taken]

def ownedBy (d : Data) : Option Nat := if d.connected = false ∧ 0 ≤ d.index then some d.index.toNat else none
def owner (s : Device) (f : Nat) : Option Nat := (s.file f).bind ownedBy

structure Owners (s : Device) : Prop where
  inv : Inv s.info
  linked : ∀ f d, s.file f = some d → d.connected = true → 0 ≤ d.index
  held : ∀ f i, owner s f = some i → ¬ Unallocated s.info i
  once : ∀ f g i, owner s f = some i → owner s g = some i → f = g

def Disowns (s : Device) : FileOp → Prop
  | .connect f (some g) => ∃ d e, s.file f = some d ∧ s.file g = some e ∧ d.connected = false ∧ 0 ≤ d.index ∧
      d.index = e.index
  | _ => False

def Guarded (s : Device) : FileOp → Prop
  | .release f _ past => ∀ i, owner s f = some i → Fenced (behind s.info past) ∨ Incomplete s.info i
  | _ => True

inductive Moves (s : Device) (op : FileOp) (s' : Device) : Prop where
  | same : s'.info = s.info → owner s' = owner s → Moves s op s'
  | takes (f i : Nat) : owner s f = none → Inv s'.info → s'.info.numEntries = s.info.numEntries → Unallocated s.info i →
      (∀ j, Unallocated s'.info j ↔ Unallocated s.info j ∧ j ≠ i) →
      (∀ j, ¬ Unallocated s.info j → pmemOrderAt s'.info j = pmemOrderAt s.info j) →
      owner s' = update (owner s) f (some i) → Moves s op s'
  | loses (f i : Nat) (src : Option Nat) : op = .connect f src → Disowns s op → owner s f = some i → s'.info = s.info →
      owner s' = update (owner s) f none → Moves s op s'
  | frees (f i : Nat) (mm : Nat → Bool) (past : Nat → Bits) : op = .release f mm past → owner s f = some i →
      s'.info = pmemFree (behind s.info past) i →
      owner s' = update (owner s) f none → Moves s op s'

variable {s s' f d e op}

@[simp] theorem ownerSetInfo (p : Info) : owner (setInfo s p) = owner s := rfl
@[simp] theorem ownerLogCalls (calls : List MapCall) : owner (logCalls s calls) = owner s := rfl
@[simp] theorem ownerSetFile (o : Option Data) : owner (setFile s f o) = update (owner s) f (o.bind ownedBy) :=
  comp_update (fun o : Option Data => o.bind ownedBy) s.file f o

theorem ownerSame (known : s.file f = some d) (same : ownedBy e = ownedBy d) :
    update (owner s) f (ownedBy e) = owner s := by
  rw [same]
  simp [owner,known]

theorem ownedAlike (index : e.index = d.index) (connected : e.connected = d.connected) : ownedBy e = ownedBy d := by
  simp [ownedBy,index,connected]

theorem movesAllocate (owners : Owners s) (known : s.file f = some d) (free : d.index < 0) (len : Nat) (m : Bool) :
    Moves s op (setInfo (setFile s f (some {(allocateIndex s.info d len).2 with mastermap := m})) (allocateIndex s.info d len).1) := by
  have mine : d.connected = false := by
    cases side : d.connected with
    | false => rfl
    | true =>
      have := owners.linked f d known side
      omega
  have nothing : ownedBy d = none := by simp [ownedBy,free]
  have orders := fun j => allocateOrder owners.inv len (j := j)
  have outcome := allocateCases owners.inv len
  simp only [allocateIndex]
  generalize pmemAllocate s.info len = out at outcome orders ⊢
  cases outcome with
  | failed =>
    refine .same rfl ?_
    rw [ownerSetInfo,ownerSetFile]
    exact ownerSame known (by rw [nothing]; simp [ownedBy])
  | @taken p' i inv' old free' order now exactly entries marks =>
    refine .takes f i (by simp [owner,known,nothing]) inv' entries (unallocatedOfFree free') marks orders ?_
    simp [ownedBy,mine]

structure MmapPassed (s : Device) (d : Data) (args : MmapArgs) : Prop where
  connected : d.connected = true
  aligned : args.pgoff = 0 ∧ args.size % PMEM_MIN_ALLOC = 0
  unmapped : (d.mastermap || d.submap || d.unsubmap) = false
  fits : 0 ≤ d.index ∧ args.size ≤ pmemLen s.info d
  garbage : args.garbage = true

structure RemapChecked (s : Device) (d : Data) (r : Region) (env : RemapEnv) : Prop where
  aligned : r.offset % PMEM_MIN_ALLOC = 0 ∧ r.len % PMEM_MIN_ALLOC = 0
  nonempty : 0 < r.len
  mm : isSubmap d = true → env.mm = true
  master : isMasterOwner d env.fdFile = true
  inside : r.offset ≤ pmemLen s.info d ∧ r.len ≤ pmemLen s.info d ∧ (r.offset + r.len) % word ≤ pmemLen s.info d

inductive Turn (s : Device) (f : Nat) (d : Data) : FileOp → Data → List MapCall → Prop where
  | master (args : MmapArgs) : Turn s f d (.mmap f args) {d with mastermap := true} []
  | client (args : MmapArgs) : MmapPassed s d args → Turn s f d (.mmap f args)
      {d with submap := true, vma := some (mapQueued ⟨args.size,fun _ => false⟩ d.regions args.remaps).1}
      (mapQueued ⟨args.size,fun _ => false⟩ d.regions args.remaps).2.1
  | connect (g : Nat) (e : Data) : s.file g = some e → 0 ≤ e.index → (d.index < 0 ∨ d.index = e.index) →
      Turn s f d (.connect f (some g)) (d.connect e g) []
  | queued (r : Region) (env : RemapEnv) : Turn s f d (.remap f r .map env) {d with regions := r::d.regions} []
  | mapped (r : Region) (env : RemapEnv) (v : Vma) : RemapChecked s d r env → env.node = true → d.vma = some v →
      Turn s f d (.remap f r .map env) {d with regions := r::d.regions, vma := some (pmemRemapPfnRange v r env.done).1}
        [⟨r.offset,r.len,v.size⟩]
  | dropped (r : Region) (env : RemapEnv) : (d.vma = none ∨ isSubmap d = false) →
      Turn s f d (.remap f r .unmap env) {d with regions := d.regions.filter (· ≠ r)} []
  | unmapped (r : Region) (env : RemapEnv) (v : Vma) : d.vma = some v →
      Turn s f d (.remap f r .unmap env) {d with regions := d.regions.filter (· ≠ r), vma := some (zapRange v r)} []
  | closed (u : Bool) : Turn s f d (.vmaClose f) {d with vma := none, unsubmap := u} []

def Quiet : FileOp → Prop
  | .connect _ _ => False
  | .release _ _ _ => False
  | _ => True

def Releases : FileOp → Prop
  | .release _ _ _ => True
  | _ => False

inductive Stepped (s : Device) : FileOp → Device → Prop where
  | refused {op : FileOp} : ¬ Releases op → Stepped s op s
  | opened (f : Nat) (allocated : Bool) : s.file f = none → Stepped s (.open f allocated)
      {setFile s f (some ⟨-1,false,false,false,false,none,none,[],s.opened,0⟩) with opened := s.opened + 1}
  | allocated {op : FileOp} (f : Nat) (d : Data) (len : Nat) (m : Bool) : s.file f = some d → d.index < 0 → Quiet op →
      Stepped s op (setInfo (setFile s f (some {(allocateIndex s.info d len).2 with mastermap := m})) (allocateIndex s.info d len).1)
  | failed (f : Nat) (d : Data) (args : MmapArgs) : s.file f = some d → MmapPassed s d args →
      Stepped s (.mmap f args) (logCalls s (mapQueued ⟨args.size,fun _ => false⟩ d.regions args.remaps).2.1)
  | turned {op : FileOp} {d' : Data} {calls : List MapCall} (f : Nat) (d : Data) : s.file f = some d → Turn s f d op d' calls →
      Stepped s op (setFile (logCalls s calls) f (some d'))
  | released (f : Nat) (mm : Nat → Bool) (past : Nat → Bits) : Stepped s (.release f mm past) (pmemRelease s f mm past)

theorem openStepped (allocated : Bool) : Stepped s (.open f allocated) (pmemOpen s f allocated).1 := by
  unfold pmemOpen
  split
  · exact .refused not_false
  · rename_i fresh
    simp only [Bool.or_eq_true,not_or,Bool.not_eq_true,isSome_eq_false_iff,isNone_iff_eq_none] at fresh
    exact .opened f allocated fresh.1

theorem mmapStepped (owners : Owners s) (args : MmapArgs) : Stepped s (.mmap f args) (pmemMmap s f args).1 := by
  unfold pmemMmap
  split
  · exact .refused not_false
  rename_i d known
  split
  · exact .refused not_false
  split
  · exact .refused not_false
  rename_i unmapped
  unfold settleIndex
  split
  -- the index is set just now, so the file is not connected
  · have settled (m : Bool) : Stepped s (.mmap f args)
        (setInfo (setFile s f (some {(allocateIndex s.info d args.size).2 with mastermap := m})) (allocateIndex s.info d args.size).1) :=
      .allocated f d args.size m known (by omega) trivial
    dsimp only
    split
    · exact settled d.mastermap
    split
    · exact settled d.mastermap
    split
    · rename_i connected
      exact absurd (owners.linked f d known connected) (by omega)
    unfold mmapMaster
    split
    · simpa [setFile,setInfo] using settled true
    · exact settled d.mastermap
  · dsimp only
    split
    · exact .refused not_false
    rename_i allocated
    split
    · exact .refused not_false
    rename_i fits
    split
    · rename_i connected
      unfold mmapClient
      split
      · rename_i garbage
        have passed : MmapPassed s d args := ⟨connected,by omega,by simpa using unmapped,
          ⟨by simpa [hasAllocation] using allocated,not_lt.mp fits⟩,garbage⟩
        dsimp only
        split
        · exact .turned f d known (.client args passed)
        · exact .failed f d args known passed
      · exact .refused not_false
    · unfold mmapMaster
      split
      · exact .turned f d known (.master args)
      · exact .refused not_false

theorem allocateStepped (len : Nat) : Stepped s (.allocate f len) (ioctlAllocate s f len).1 := by
  unfold ioctlAllocate
  split
  · exact .refused not_false
  rename_i d known
  split
  · exact .refused not_false
  · rename_i unset
    exact .allocated f d len d.mastermap known (by simpa [hasAllocation] using unset) trivial

theorem connectStepped (src : Option Nat) : Stepped s (.connect f src) (pmemConnect s f src).1 := by
  unfold pmemConnect
  split
  · rename_i d g known
    split
    · exact .refused not_false
    rename_i e there
    split
    · exact .refused not_false
    split
    · exact .refused not_false
    · rename_i allocated free
      simp only [hasAllocation,decide_eq_false_iff_not,not_not,decide_eq_true_eq] at allocated free
      exact .turned f d known (.connect g e there allocated (by omega))
  · exact .refused not_false

theorem notSubmap (other : ∀ v, d.vma = some v → isSubmap d = true → False) : d.vma = none ∨ isSubmap d = false := by
  cases live : d.vma with
  | none => exact .inl rfl
  | some v => exact .inr (by simpa using other v live)

theorem remapStepped (r : Region) (way : RemapOp) (env : RemapEnv) :
    Stepped s (.remap f r way env) (pmemRemap s f r way env).1 := by
  unfold pmemRemap
  split
  · exact .refused not_false
  rename_i d known
  iterate 3
    split
    · exact .refused not_false
  rename_i mm
  split
  · exact .refused not_false
  rename_i master
  split
  · exact .refused not_false
  have checked : RemapChecked s d r env := ⟨by omega,by omega,by simpa using mm,by simpa using master,by omega⟩
  cases way with
  | map =>
    simp only [remapMap]
    split
    · rename_i node
      split
      · rename_i v live sub
        exact .turned f d known (.mapped r env v checked node live)
      · exact .turned f d known (.queued r env)
    · exact .refused not_false
  | unmap =>
    simp only [remapUnmap]
    split
    · split
      · rename_i v live sub
        exact .turned f d known (.unmapped r env v live)
      · rename_i other
        exact .turned f d known (.dropped r env (notSubmap other))
    · exact .refused not_false

theorem closeStepped : Stepped s (.vmaClose f) (pmemVmaClose s f) := by
  unfold pmemVmaClose
  split
  · exact .refused not_false
  rename_i d known
  split
  · exact .turned f d known (.closed _)
  · exact .refused not_false

theorem stepped (owners : Owners s) (op : FileOp) : Stepped s op (fileStep s op) := by
  cases op with
  | «open» f allocated => exact openStepped allocated
  | mmap f args => exact mmapStepped owners args
  | allocate f len => exact allocateStepped len
  | connect f src => exact connectStepped src
  | remap f r way env => exact remapStepped r way env
  | vmaClose f => exact closeStepped
  | release f mm past => exact .released f mm past

variable {calls c i}

theorem turnSides (turn : Turn s f d op e calls) :
    (∃ g x, s.file g = some x ∧ 0 ≤ x.index ∧ (d.index < 0 ∨ d.index = x.index) ∧ op = .connect f (some g) ∧ e = d.connect x g) ∨
    e.index = d.index ∧ e.connected = d.connected := by
  cases turn with
  | connect g x there allocated free => exact .inl ⟨g,x,there,allocated,free,rfl,rfl⟩
  | master | client | queued | mapped | dropped | unmapped | closed => exact .inr ⟨rfl,rfl⟩

theorem movesConnect {g} (known : s.file f = some d) (there : s.file g = some e)
    (free : d.index < 0 ∨ d.index = e.index) :
    Moves s (.connect f (some g)) (setFile (logCalls s calls) f (some (d.connect e g))) := by
  have after_ : ownedBy (d.connect e g) = none := by simp [ownedBy]
  cases before : ownedBy d with
  | none => exact .same rfl (by rw [ownerSetFile]; exact ownerSame known (after_.trans before.symm))
  | some i =>
    have mine : d.connected = false ∧ 0 ≤ d.index := by
      by_contra not
      simp [ownedBy,not] at before
    refine .loses f i (some g) rfl ⟨d,e,known,there,mine.1,mine.2,by omega⟩ (by simp [owner,known,before]) rfl ?_
    simp [after_]

theorem revokeSides (d : Data) (mm : Bool) :
    (pmemRevoke d mm).connected = d.connected ∧ (pmemRevoke d mm).index = d.index := by
  unfold pmemRevoke
  dsimp only
  split <;> exact ⟨rfl,rfl⟩

theorem revokeAllOwner (mm : Nat → Bool) : owner (revokeAll s f mm) = owner s := by
  funext c
  cases known : s.file c with
  | none => simp [owner,revokeAll,known]
  | some d =>
    simp only [owner,revokeAll,known,map_some]
    split
    · exact ownedAlike (revokeSides d (mm c)).2 (revokeSides d (mm c)).1
    · rfl

theorem movesRelease (mm : Nat → Bool) (past : Nat → Bits) : Moves s (.release f mm past) (pmemRelease s f mm past) := by
  unfold pmemRelease
  split
  · exact .same rfl rfl
  rename_i d known
  generalize revoked : (if d.mastermap then revokeAll s f mm else s) = s1
  have same : s1.info = s.info ∧ owner s1 = owner s := by
    rw [← revoked]
    split
    · exact ⟨rfl,revokeAllOwner mm⟩
    · exact ⟨rfl,rfl⟩
  split
  · rename_i mine
    simp only [hasAllocation,Bool.and_eq_true,Bool.not_eq_true',decide_eq_true_eq] at mine
    refine .frees f d.index.toNat mm past rfl (by simp [owner,known,ownedBy,mine]) ?_ ?_
    · simp [same.1]
    · rw [ownerSetFile,ownerSetInfo,same.2]
      rfl
  · rename_i other
    refine .same same.1 ?_
    rw [ownerSetFile,same.2]
    have nothing : ownedBy d = none := by
      simp only [hasAllocation,Bool.and_eq_true,Bool.not_eq_true',decide_eq_true_eq] at other
      simp [ownedBy,other]
    simp [owner,known,nothing]

theorem ownerCleared (here : update (owner s) f none c = some i) : c ≠ f ∧ owner s c = some i := by
  by_cases same : c = f
  · simp [same] at here
  · exact ⟨same,by simpa [same] using here⟩

theorem ownerTaken (here : update (owner s) f (some j) c = some i) :
    (c = f ∧ i = j) ∨ (c ≠ f ∧ owner s c = some i) := by
  by_cases same : c = f
  · simp [same] at here
    exact .inl ⟨same,here.symm⟩
  · exact .inr ⟨same,by simpa [same] using here⟩

theorem linkedSetFile (linked : ∀ f d, s.file f = some d → d.connected = true → 0 ≤ d.index)
    (ok : d.connected = true → 0 ≤ d.index) :
    ∀ c e, (setFile s f (some d)).file c = some e → e.connected = true → 0 ≤ e.index := by
  intro c e here
  by_cases same : c = f
  · simp [same] at here
    exact here ▸ ok
  · exact linked c e (by simpa [same] using here)

theorem releaseFile (known : s.file f = some d) (mm : Nat → Bool) (past : Nat → Bits) (other : c ≠ f) :
    (pmemRelease s f mm past).file c = (s.file c).map fun e =>
      if d.mastermap && (isSubmap e && e.masterFile == some f) then pmemRevoke e (mm c) else e := by
  simp only [pmemRelease,known]
  have kept : ∀ t : Device, (if !d.connected && hasAllocation d then setInfo t (pmemFree (behind t.info past) d.index.toNat) else t).file =
      t.file := fun t => by split <;> rfl
  simp only [setFile_file,update_of_ne other,kept]
  cases d.mastermap with
  | false => simp
  | true => simp [revokeAll]

theorem startOwners {size} (small : size < word) : Owners (noFiles size) := by
  refine ⟨setupInv small,fun f d here => ?_,fun f i here => ?_,fun f g i here => ?_⟩ <;> cases here

theorem ownedIff : ownedBy d = some i ↔ d.connected = false ∧ d.index = i := by
  unfold ownedBy
  split
  · rename_i mine
    simp only [some.injEq,mine.1,true_and]
    omega
  · rename_i other
    simp only [reduceCtorEq,false_iff]
    exact fun mine => other ⟨mine.1,by omega⟩

theorem ownerIff : owner s f = some i ↔ ∃ d, s.file f = some d ∧ d.connected = false ∧ d.index = i := by
  simp only [owner,bind_eq_some_iff,ownedIff]

structure OwnershipOk (s : Device) : Prop where
  allocated : ∀ j ∈ blocks s.info, ¬ Unallocated s.info j ↔
    ∃ f d, s.file f = some d ∧ d.connected = false ∧ d.index = j
  once : ∀ j ∈ blocks s.info, ∀ f g d e, s.file f = some d → s.file g = some e → d.connected = false →
    e.connected = false → d.index = j → e.index = j → f = g
  block : ∀ f d, s.file f = some d → d.connected = false → 0 ≤ d.index → d.index.toNat ∈ blocks s.info
  closed : (∀ f, s.file f = none) → ∀ j ∈ blocks s.info, Unallocated s.info j

section
variable (owners : Owners s)
include owners

theorem steppedMoves (stepped : Stepped s op s') : Moves s op s' := by
  cases stepped with
  | refused | failed => exact .same rfl rfl
  | opened f allocated fresh =>
    refine .same rfl ?_
    change owner (setFile s f _) = owner s
    simp [owner,fresh,ownedBy]
  | allocated f d len m known free => exact movesAllocate owners known free len m
  | turned f d known turn =>
    rcases turnSides turn with ⟨g,e,there,_,free,rfl,rfl⟩ | ⟨index,side⟩
    · exact movesConnect known there free
    · exact .same rfl (by rw [ownerSetFile]; exact ownerSame known (ownedAlike index side))
  | released f mm past => exact movesRelease mm past

theorem movesOwners (guarded : Guarded s op) (moves : Moves s op s')
    (linked : ∀ f d, s'.file f = some d → d.connected = true → 0 ≤ d.index) : Owners s' := by
  cases moves with
  | same info same =>
    refine ⟨info ▸ owners.inv,linked,?_,same ▸ owners.once⟩
    rw [same,info]
    exact owners.held
  | takes f i before inv entries free marks orders after_ =>
    refine ⟨inv,linked,fun c j here => ?_,fun c c' j here there => ?_⟩
    · rw [after_] at here
      rw [marks]
      rcases ownerTaken here with ⟨_,same⟩ | ⟨_,old⟩
      · exact fun unallocated => unallocated.2 same
      · exact fun unallocated => owners.held c j old unallocated.1
    · rw [after_] at here there
      rcases ownerTaken here with ⟨left,same⟩ | ⟨_,old⟩
      · rcases ownerTaken there with ⟨right,_⟩ | ⟨_,old'⟩
        · exact left.trans right.symm
        · exact absurd (same ▸ free) (owners.held c' j old')
      · rcases ownerTaken there with ⟨_,same'⟩ | ⟨_,old'⟩
        · exact absurd (same' ▸ free) (owners.held c j old)
        · exact owners.once c c' j old old'
  | loses f i src call why before info after_ =>
    refine ⟨info ▸ owners.inv,linked,?_,?_⟩ <;> rw [after_]
    · rw [info]
      exact fun c j here => owners.held c j (ownerCleared here).2
    · exact fun c c' j here there => owners.once c c' j (ownerCleared here).2 (ownerCleared there).2
  | frees f i mm past call before freed after_ =>
    subst call
    have mem := owners.inv.tiles.heads i (owners.held f i before)
    have inv := behindInv owners.inv past
    have guard : Fenced (behind s.info past) ∨ Incomplete (behind s.info past) i := by
      have entries : (behind s.info past).numEntries = s.info.numEntries := rfl
      simpa only [Incomplete,behindBlocks owners.inv,behindUnallocated,entries] using guarded i before
    refine ⟨freed ▸ (freeKeeps inv (behindBlocks owners.inv past ▸ mem) guard).1,linked,?_,?_⟩ <;> rw [after_]
    · intro c j here
      obtain ⟨other,old⟩ := ownerCleared here
      rw [freed,freeMarks inv,behindUnallocated]
      rintro (free | same)
      · exact owners.held c j old free
      · exact other (owners.once c f i (same ▸ old) before)
    · exact fun c c' j here there => owners.once c c' j (ownerCleared here).2 (ownerCleared there).2

theorem movesKept (kept : ∀ j, ¬ Unallocated s.info j → ∃ f, owner s f = some j) (keeps : ¬ Disowns s op)
    (moves : Moves s op s') : ∀ j, ¬ Unallocated s'.info j → ∃ f, owner s' f = some j := by
  intro j taken
  cases moves with
  | same info same =>
    rw [same]
    exact kept j (info ▸ taken)
  | takes f i before inv entries free marks orders after_ =>
    rw [after_]
    rw [marks] at taken
    by_cases new : j = i
    · exact ⟨f,by simp [new]⟩
    obtain ⟨c,old⟩ := kept j fun unallocated => taken ⟨unallocated,new⟩
    have other : c ≠ f := by
      rintro rfl
      cases before.symm.trans old
    exact ⟨c,by simpa [other] using old⟩
  | loses f i src call why before info after_ => exact absurd why keeps
  | frees f i mm past call before freed after_ =>
    rw [after_]
    rw [freed,freeMarks (behindInv owners.inv past),behindUnallocated,not_or] at taken
    obtain ⟨c,old⟩ := kept j taken.1
    have other : c ≠ f := by
      rintro rfl
      exact taken.2 (some.inj (old.symm.trans before))
    exact ⟨c,by simpa [other] using old⟩

theorem steppedLinked (stepped : Stepped s op s') : ∀ c e, s'.file c = some e → e.connected = true → 0 ≤ e.index := by
  cases stepped with
  | refused | failed => exact owners.linked
  | opened f allocated fresh => exact linkedSetFile owners.linked (by simp)
  | allocated f d len m known free =>
    exact linkedSetFile owners.linked fun side => absurd (owners.linked f d known side) (by omega)
  | @turned _ d' calls f d known turn =>
    refine linkedSetFile owners.linked ?_
    rcases turnSides turn with ⟨g,e,_,allocated,_,_,rfl⟩ | ⟨index,side⟩
    · exact fun _ => allocated
    · rw [index,side]
      exact owners.linked f d known
  | released f mm past =>
    cases known : s.file f with
    | none =>
      simp only [pmemRelease,known]
      exact owners.linked
    | some d =>
      intro c e here
      by_cases same : c = f
      · subst same
        simp [pmemRelease,known] at here
      rw [releaseFile known mm past same] at here
      obtain ⟨old,there,rfl⟩ := map_eq_some_iff.mp here
      have before := owners.linked c old there
      split
      · rw [(revokeSides old (mm c)).1,(revokeSides old (mm c)).2]
        exact before
      · exact before

theorem stepOwners (op : FileOp) (guarded : Guarded s op) : Owners (fileStep s op) :=
  movesOwners owners guarded (steppedMoves owners (stepped owners op)) (steppedLinked owners (stepped owners op))

theorem ownershipOk (kept : ∀ j, ¬ Unallocated s.info j → ∃ f, owner s f = some j) : OwnershipOk s := by
  refine ⟨fun j mem => ⟨fun taken => ?_,fun ⟨f,here⟩ => owners.held f j (ownerIff.mpr here)⟩,
    fun j mem f g d e here there left right same same' => ?_,fun f d here mine allocated => ?_,fun closed j mem => ?_⟩
  · obtain ⟨f,here⟩ := kept j taken
    exact ⟨f,ownerIff.mp here⟩
  · exact owners.once f g j (ownerIff.mpr ⟨d,here,left,same⟩) (ownerIff.mpr ⟨e,there,right,same'⟩)
  · refine owners.inv.tiles.heads _ (owners.held f _ (ownerIff.mpr ⟨d,here,mine,?_⟩))
    exact (Int.toNat_of_nonneg allocated).symm
  · by_contra taken
    obtain ⟨f,here⟩ := kept j taken
    obtain ⟨d,there,_⟩ := ownerIff.mp here
    cases (closed f).symm.trans there

end

theorem stepOwned (s : Device) (op : FileOp) (before : Owners s ∧ ∀ j, ¬ Unallocated s.info j → ∃ f, owner s f = some j)
    (keeps : ¬ Disowns s op ∧ Guarded s op) : Owners (fileStep s op) ∧
      ∀ j, ¬ Unallocated (fileStep s op).info j → ∃ f, owner (fileStep s op) f = some j :=
  ⟨stepOwners before.1 op keeps.2,movesKept before.1 before.2 keeps.1 (steppedMoves before.1 (stepped before.1 op))⟩

theorem runOwnershipOk {size} (small : size < word) {ops}
    (admitted : Admitted fileStep (fun s op => ¬ Disowns s op ∧ Guarded s op) (noFiles size) ops) :
    OwnershipOk (run fileStep (noFiles size) ops) := by
  have start : ∀ j, ¬ Unallocated (noFiles size).info j → ∃ f, owner (noFiles size) f = some j :=
    fun j taken => absurd (((setupFrame small).unallocated j).mpr (blankFree j)) taken
  obtain ⟨owners,kept⟩ := runInvariant stepOwned ⟨startOwners small,start⟩ admitted
  exact ownershipOk owners kept

-- behind the bitmap free blocks of one page seem to follow
def freePages : Nat → Bits := fun _ => ⟨false,0⟩

theorem exampleOwnershipOk : OwnershipOk (run fileStep (noFiles 8192)
    [.open 1 true,.allocate 1 4096,.open 2 true,.connect 2 (some 1),.release 1 (fun _ => true) freePages,
     .release 2 (fun _ => true) freePages]) := by
  have plain {s : Device} {op : FileOp} (safe : ¬ Disowns s op) (quiet : Guarded s op) : ¬ Disowns s op ∧ Guarded s op := ⟨safe,quiet⟩
  refine runOwnershipOk (by decide) ⟨plain not_false trivial,plain not_false trivial,plain not_false trivial,plain ?_ trivial,
    plain not_false ?_,plain not_false ?_,trivial⟩
  · rintro ⟨d,e,here,_,_,allocated,_⟩
    cases here
    exact absurd allocated (by decide)
  · exact fun _ _ => .inl fun _ => by decide
  · exact fun _ _ => .inl fun _ => by decide

theorem selfConnectedLeaks : ¬ OwnershipOk (run fileStep (noFiles 8192)
    [.open 1 true,.allocate 1 4096,.connect 1 (some 1),.release 1 (fun _ => true) freePages]) := by
  intro ok
  refine absurd (ok.closed (fun f => ?_) 0 (by decide)) (by decide)
  by_cases here : f = 1
  · subst here
    rfl
  · calc
      _ = update (update (update (update (fun _ => none) 1 _) 1 _) 1 _) 1 none f := rfl
      _ = none := by simp

end EclairKernel.Pmem
