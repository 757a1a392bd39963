import EclairKernel.PmemOwnership

/-! What a connected file shows of its master's block: the regions mapped into its
vma lie in the vma and in a block the master still owns, as long as the calls
listed in `Safe` are made with the master alive and the region inside the vma. -/
namespace EclairKernel.Pmem
open Function List Bool Option Run Nat

def Shows (d : Data) : Prop := ∃ v j, d.vma = some v ∧ v.mapped j = true

structure MasterOf (s : Device) (d : Data) (m : Nat) (e : Data) : Prop where
  linked : d.masterFile = some m
  present : s.file m = some e
  serial : e.serial = d.masterSerial
  owns : e.connected = false
  index : e.index = d.index

def MasterLives (s : Device) (d : Data) : Prop := ∃ m e, MasterOf s d m e
def Backed (s : Device) (d : Data) (j : Nat) : Prop :=
  MasterLives s d ∧ j < 2^pmemOrderAt s.info d.index.toNat

def Safe (s : Device) : FileOp → Prop
  | .mmap f args => ∀ d, s.file f = some d → MmapPassed s d args → d.regions ≠ [] →
      (∀ r ∈ d.regions, r.offset + r.len ≤ args.size) ∧ MasterLives s d
  | .connect f (some g) => ∀ d e, s.file f = some d → s.file g = some e → (d.index < 0 ∨ d.index = e.index) →
      (Shows d → e.connected = false) ∧
      (d.connected = false → ∀ c x, s.file c = some x → MasterOf s x f d → ¬ Shows x)
  | .remap f r .map env => ∀ d v, s.file f = some d → d.vma = some v → RemapChecked s d r env → env.node = true →
      r.offset + r.len ≤ v.size ∧ MasterLives s d
  | .release f mm _ => ∀ d, s.file f = some d → ∀ c x, s.file c = some x → MasterOf s x f d → Shows x →
      d.mastermap = true ∧ mm c = true
  | _ => True

structure VmaOk (d : Data) (v : Vma) : Prop where
  connected : d.connected = true
  submap : isSubmap d = true
  small : v.size < word
  covered : ∀ j, v.mapped j = true → ∃ r ∈ d.regions, covers r j = true

structure Submaps (s : Device) : Prop where
  owners : Owners s
  calls : ∀ call ∈ s.calls, call.offset + call.len ≤ call.vmaSize
  vma : ∀ c d v, s.file c = some d → d.vma = some v → VmaOk d v
  backed : ∀ c d v j, s.file c = some d → d.vma = some v → v.mapped j = true → Backed s d j
  opened : ∀ c d, s.file c = some d → d.serial < s.opened
  serials : ∀ c c' d d', s.file c = some d → s.file c' = some d' → d.serial = d'.serial → c = c'

section
variable {s s' : Device} {f c d d' e op} {v j m} {rs : List Region} {x}

theorem rangeMapped {r done} (here : (pmemRemapPfnRange v r done).1.mapped j = true) :
    v.mapped j = true ∨ covers r j = true := by
  simp only [pmemRemapPfnRange,mapRange,zapRange,covers,or_eq_true,and_eq_true,decide_eq_true_eq] at here ⊢
  rcases here with old | new
  · exact .inl old.1
  · exact .inr ⟨new.1,by omega⟩

theorem queuedMapped {done}
    (here : (mapQueued v rs done).1.mapped j = true) : v.mapped j = true ∨ ∃ r ∈ rs, covers r j = true := by
  induction rs generalizing v done with
  | nil => exact .inl here
  | cons r rest ih =>
    have first : ∀ {x}, (pmemRemapPfnRange v r x).1.mapped j = true → v.mapped j = true ∨
        ∃ r' ∈ r::rest, covers r' j = true := fun mapped =>
      (rangeMapped mapped).imp_right fun inside => ⟨r,mem_cons_self,inside⟩
    unfold mapQueued at here
    dsimp only at here
    split at here
    · rcases ih here with earlier | ⟨r',mem,inside⟩
      · exact first earlier
      · exact .inr ⟨r',mem_cons_of_mem r mem,inside⟩
    · exact first here

theorem queuedSize (v : Vma) (rs : List Region) (done : List Nat) : (mapQueued v rs done).1.size = v.size := by
  induction rs generalizing v done with
  | nil => rfl
  | cons r rest ih =>
    unfold mapQueued
    dsimp only
    split
    · exact ih _ _
    · rfl

theorem queuedCalls {done call}
    (here : call ∈ (mapQueued v rs done).2.1) : ∃ r ∈ rs, call = ⟨r.offset,r.len,v.size⟩ := by
  induction rs generalizing v done with
  | nil => cases here
  | cons r rest ih =>
    unfold mapQueued at here
    dsimp only at here
    split at here
    · rcases mem_append.mp here with later | first
      · obtain ⟨r',mem,same⟩ := ih later
        exact ⟨r',mem_cons_of_mem r mem,same⟩
      · exact ⟨r,mem_cons_self,mem_singleton.mp first⟩
    · exact ⟨r,mem_cons_self,mem_singleton.mp here⟩

theorem zapAll (here : (rs.foldl zapRange v).mapped j = true) : v.mapped j = true ∧ ∀ r ∈ rs, covers r j = false := by
  induction rs generalizing v with
  | nil => exact ⟨here,by simp⟩
  | cons r rest ih =>
    obtain ⟨before,later⟩ := ih here
    simp only [zapRange,and_eq_true,not_eq_true'] at before
    exact ⟨before.1,forall_mem_cons.mpr ⟨before.2,later⟩⟩

theorem zapSize (v : Vma) (rs : List Region) : (rs.foldl zapRange v).size = v.size := by
  induction rs generalizing v with
  | nil => rfl
  | cons r rest ih => exact ih (zapRange v r)

inductive Became (s : Device) (c : Nat) (d : Data) : FileOp → Data → Prop where
  | kept {op : FileOp} : ¬ Releases op → Became s c d op d
  | allocated {op : FileOp} (i : Int) (m : Bool) : d.index < 0 → Quiet op → Became s c d op {d with index := i, mastermap := m}
  | turned {op : FileOp} {x : Data} {calls : List MapCall} : Turn s c d op x calls → Became s c d op x
  | spared (f : Nat) (mm : Nat → Bool) {past : Nat → Bits} :
      (∀ e, s.file f = some e → (e.mastermap && (isSubmap d && d.masterFile == some f)) = false) → Became s c d (.release f mm past) d
  | revoked (f : Nat) (mm : Nat → Bool) {past : Nat → Bits} (e : Data) : s.file f = some e → d.masterFile = some f →
      Became s c d (.release f mm past) (pmemRevoke d (mm c))

theorem setFileCases {t} (same : t.file = s.file) (here : (setFile t f (some d')).file c = some x) :
    c = f ∧ x = d' ∨ s.file c = some x := by
  by_cases own : c = f
  · simp [own] at here
    exact .inl ⟨own,here.symm⟩
  · exact .inr (by simpa [own,same] using here)

theorem steppedFile (stepped : Stepped s op s') (here : s'.file c = some x) :
    (∃ d, s.file c = some d ∧ Became s c d op x) ∨
    s.file c = none ∧ x.vma = none ∧ x.serial = s.opened ∧ s'.opened = s.opened + 1 ∧ ∃ allocated, op = .open c allocated := by
  cases stepped with
  | refused still => exact .inl ⟨x,here,.kept still⟩
  | opened f allocated fresh =>
    rcases setFileCases rfl here with ⟨rfl,rfl⟩ | old
    · exact .inr ⟨fresh,rfl,rfl,rfl,allocated,rfl⟩
    · exact .inl ⟨x,old,.kept not_false⟩
  | allocated f d len m known free quiet =>
    rcases setFileCases rfl here with ⟨rfl,rfl⟩ | old
    · exact .inl ⟨d,known,.allocated _ m free quiet⟩
    · exact .inl ⟨x,old,.kept fun releases => by cases op <;> first | exact quiet | exact releases⟩
  | failed => exact .inl ⟨x,here,.kept not_false⟩
  | turned f d known turn =>
    rcases setFileCases rfl here with ⟨rfl,rfl⟩ | old
    · exact .inl ⟨d,known,.turned turn⟩
    · exact .inl ⟨x,old,.kept fun releases => by cases turn <;> exact releases⟩
  | released f mm =>
    cases known : s.file f with
    | none =>
      simp only [pmemRelease,known] at here
      exact .inl ⟨x,here,.spared f mm fun e there => by cases known.symm.trans there⟩
    | some e =>
      by_cases same : c = f
      · subst same
        simp [pmemRelease,known] at here
      rw [releaseFile known mm _ same] at here
      obtain ⟨old,there,rfl⟩ := map_eq_some_iff.mp here
      refine .inl ⟨old,there,?_⟩
      split
      · rename_i revoked
        simp only [and_eq_true,beq_iff_eq] at revoked
        exact .revoked f mm e known revoked.2.2
      rename_i other
      refine .spared f mm fun e' there => ?_
      cases some.inj (known.symm.trans there)
      simpa using other

theorem revokeKept (d : Data) (mm : Bool) : (pmemRevoke d mm).serial = d.serial ∧ (pmemRevoke d mm).masterFile = none := by
  unfold pmemRevoke
  dsimp only
  split <;> exact ⟨rfl,rfl⟩

theorem steppedSerial (stepped : Stepped s op s') (here : s'.file c = some x) :
    (∃ d, s.file c = some d ∧ x.serial = d.serial) ∨
    s.file c = none ∧ x.serial = s.opened ∧ s'.opened = s.opened + 1 ∧ ∃ allocated, op = .open c allocated := by
  rcases steppedFile stepped here with ⟨d,known,became⟩ | ⟨fresh,_,opened⟩
  · refine .inl ⟨d,known,?_⟩
    cases became with
    | kept | allocated | spared => rfl
    | turned turn => cases turn <;> rfl
    | revoked => exact (revokeKept d _).1
  · exact .inr ⟨fresh,opened⟩

theorem pmemLenSmall (p : Info) (d : Data) : pmemLen p d < word := mod_lt _ (by decide)

theorem revokeCases (d : Data) (mm : Bool) : (mm = true ∧ ∃ v, d.vma = some v ∧
      pmemRevoke d mm = {d with masterFile := none, vma := some (d.regions.foldl zapRange v), regions := []}) ∨
    ((mm = false ∨ d.vma = none) ∧ pmemRevoke d mm = {d with masterFile := none}) := by
  unfold pmemRevoke
  cases live : d.vma with
  | none => exact .inr ⟨.inr rfl,by simp⟩
  | some v =>
    cases mm with
    | true => exact .inl ⟨rfl,v,rfl,by simp⟩
    | false => exact .inr ⟨.inl rfl,by simp⟩

section
variable (ok : ∀ v, d.vma = some v → VmaOk d v)
include ok

theorem revokeVma {mm} (live : (pmemRevoke d mm).vma = some v) :
    VmaOk (pmemRevoke d mm) v ∧ ∀ j, v.mapped j = true → mm = false ∧ d.vma = some v := by
  rcases revokeCases d mm with ⟨_,old,before,result⟩ | ⟨missing,result⟩
  · rw [result] at live ⊢
    cases live
    have ok := ok old before
    have hidden : ∀ j, (d.regions.foldl zapRange old).mapped j = true → False := by
      intro j mapped
      obtain ⟨shown,outside⟩ := zapAll mapped
      obtain ⟨r,mem,inside⟩ := ok.covered j shown
      cases (outside r mem).symm.trans inside
    exact ⟨⟨ok.connected,ok.submap,zapSize old d.regions ▸ ok.small,fun j mapped => (hidden j mapped).elim⟩,
      fun j mapped => (hidden j mapped).elim⟩
  · rw [result] at live ⊢
    have ok := ok v live
    refine ⟨⟨ok.connected,ok.submap,ok.small,ok.covered⟩,fun j _ => ⟨missing.resolve_right ?_,live⟩⟩
    intro none_
    cases none_.symm.trans live

theorem turnVma {calls} (turn : Turn s c d op x calls) (live : x.vma = some v) : VmaOk x v := by
  cases turn with
  | master args => exact ⟨(ok v live).connected,(ok v live).submap,(ok v live).small,(ok v live).covered⟩
  | connect g e => exact ⟨rfl,(ok v live).submap,(ok v live).small,(ok v live).covered⟩
  | client args passed =>
    cases live
    refine ⟨passed.connected,?_,?_,fun j mapped => ?_⟩
    · have unmapped := passed.unmapped
      simp only [or_eq_false_iff] at unmapped
      simp [isSubmap,unmapped.2]
    · rw [queuedSize]
      exact lt_of_le_of_lt passed.fits.2 (pmemLenSmall s.info d)
    · rcases queuedMapped mapped with none_ | inside
      · cases none_
      · exact inside
  | queued r env =>
    refine ⟨(ok v live).connected,(ok v live).submap,(ok v live).small,fun j mapped => ?_⟩
    obtain ⟨r',mem,inside⟩ := (ok v live).covered j mapped
    exact ⟨r',mem_cons_of_mem r mem,inside⟩
  | mapped r env old checked node before =>
    cases live
    have ok := ok old before
    refine ⟨ok.connected,ok.submap,ok.small,fun j mapped => ?_⟩
    rcases rangeMapped mapped with earlier | inside
    · obtain ⟨r',mem,inside⟩ := ok.covered j earlier
      exact ⟨r',mem_cons_of_mem r mem,inside⟩
    · exact ⟨r,mem_cons_self,inside⟩
  | dropped r env other =>
    rcases other with gone | plain
    · cases gone.symm.trans live
    · cases plain.symm.trans (ok v live).submap
  | unmapped r env old before =>
    cases live
    have ok := ok old before
    refine ⟨ok.connected,ok.submap,ok.small,fun j mapped => ?_⟩
    simp only [zapRange,and_eq_true,not_eq_true'] at mapped
    obtain ⟨r',mem,inside⟩ := ok.covered j mapped.1
    refine ⟨r',mem_filter.mpr ⟨mem,?_⟩,inside⟩
    rw [decide_eq_true_eq]
    rintro rfl
    cases mapped.2.symm.trans inside
  | closed u => cases live

theorem becameVma (became : Became s c d op x) (live : x.vma = some v) : VmaOk x v := by
  cases became with
  | kept | spared => exact ok v live
  | allocated => exact ⟨(ok v live).connected,(ok v live).submap,(ok v live).small,(ok v live).covered⟩
  | turned turn => exact turnVma ok turn live
  | revoked => exact (revokeVma ok live).1

end

theorem coversBound {r n} (inside : covers r j = true) (fits : r.offset + r.len ≤ n * PMEM_MIN_ALLOC) : j < n := by
  rw [covers,decide_eq_true_eq] at inside
  unfold PMEM_MIN_ALLOC at *
  omega

theorem pmemLenLe (p : Info) (d : Data) : pmemLen p d ≤ 2^pmemOrderAt p d.index.toNat * PMEM_MIN_ALLOC := mod_le _ _

theorem backedAlike (backed : Backed s d j) (file : x.masterFile = d.masterFile) (serial : x.masterSerial = d.masterSerial)
    (index : x.index = d.index) : Backed s x j := by
  obtain ⟨⟨m,e,master⟩,bound⟩ := backed
  exact ⟨⟨m,e,file.trans master.linked,master.present,master.serial.trans serial.symm,master.owns,
    master.index.trans index.symm⟩,index ▸ bound⟩

section
variable (before : Submaps s) (safe : Safe s op) (known : s.file c = some d)
include before safe known

theorem turnBacked {calls} (turn : Turn s c d op x calls) (live : x.vma = some v) (mapped : v.mapped j = true) :
    Backed s x j := by
  have old (v : Vma) (live : d.vma = some v) (mapped : v.mapped j = true) := before.backed c d v j known live mapped
  cases turn with
  | master | queued | dropped => exact backedAlike (old v live mapped) rfl rfl rfl
  | closed u => cases live
  | client args passed =>
    cases live
    rcases queuedMapped mapped with none_ | ⟨r,mem,inside⟩
    · cases none_
    obtain ⟨fits,lives⟩ := safe d known passed (ne_nil_of_mem mem)
    have within := le_trans (fits r mem) passed.fits.2
    exact backedAlike ⟨lives,coversBound inside (le_trans within (pmemLenLe s.info d))⟩ rfl rfl rfl
  | connect g e there allocated free =>
    have linked := before.owners.linked c d known (before.vma c d v known live).connected
    have index := free.resolve_left (by omega)
    have owns := (safe d e known there free).1 ⟨v,j,live,mapped⟩
    exact ⟨⟨g,e,rfl,there,rfl,owns,rfl⟩,index ▸ (old v live mapped).2⟩
  | mapped r env was checked node there =>
    cases live
    rcases rangeMapped mapped with earlier | inside
    · exact backedAlike (old was there earlier) rfl rfl rfl
    obtain ⟨fits,lives⟩ := safe d was known there checked node
    have small := (before.vma c d was known there).small
    -- the sum does not wrap, since the vma is no longer than 32 bits can say
    have within : r.offset + r.len ≤ pmemLen s.info d := by
      rw [← mod_eq_of_lt (lt_of_le_of_lt fits small)]
      exact checked.inside.2.2
    exact backedAlike ⟨lives,coversBound inside (le_trans within (pmemLenLe s.info d))⟩ rfl rfl rfl
  | unmapped r env was there =>
    cases live
    simp only [zapRange,and_eq_true] at mapped
    exact backedAlike (old was there mapped.1) rfl rfl rfl

theorem becameBacked (became : Became s c d op x) (live : x.vma = some v) (mapped : v.mapped j = true) : Backed s x j := by
  cases became with
  | kept | spared => exact before.backed c d v j known live mapped
  | allocated i m free =>
    exact absurd (before.owners.linked c d known (before.vma c d v known live).connected) (by omega)
  | turned turn => exact turnBacked before safe known turn live mapped
  | revoked f mm e there linked =>
    -- a master may only go while its files show nothing that is not taken away
    obtain ⟨missing,shown⟩ := (revokeVma (before.vma c d · known) live).2 j mapped
    obtain ⟨⟨m,e',master⟩,_⟩ := before.backed c d v j known shown mapped
    cases some.inj (linked.symm.trans master.linked)
    cases some.inj (there.symm.trans master.present)
    cases missing.symm.trans (safe e there c d known master ⟨v,j,shown,mapped⟩).2

theorem masterStays (became : Became s c d op x) (live : x.vma = some v) (mapped : v.mapped j = true) (master : MasterOf s x m e) :
    ¬ ((∃ src, op = .connect m src ∧ Disowns s op) ∨ ∃ mm past, op = .release m mm past) := by
  rintro (⟨src,rfl,why⟩ | ⟨mm,past,rfl⟩)
  · cases src with
    | none => exact why
    | some g =>
      obtain ⟨d0,e0,first,second,alone,_,same⟩ := why
      cases became with
      | kept =>
        cases some.inj (first.symm.trans master.present)
        exact (safe e e0 first second (.inr same)).2 alone c d known master ⟨v,j,live,mapped⟩
      | allocated i m free quiet => exact quiet
      | turned turn =>
        cases turn
        cases some.inj (known.symm.trans first)
        cases (before.vma _ d v known live).connected.symm.trans alone
  · cases became with
    | kept still => exact still trivial
    | allocated i m free quiet => exact quiet
    | turned turn => cases turn
    | spared f mm other =>
      have marked := (safe e master.present c d known master ⟨v,j,live,mapped⟩).1
      have plain := other e master.present
      simp [marked,(before.vma c d v known live).submap,master.linked] at plain
    | revoked => cases (revokeKept d _).2.symm.trans master.linked

end

theorem masterOwner (master : MasterOf s d m e) (allocated : 0 ≤ d.index) : owner s m = some d.index.toNat :=
  ownerIff.mpr ⟨e,master.present,master.owns,master.index.trans (Int.toNat_of_nonneg allocated).symm⟩

theorem movesOwned (owners : Owners s) (moves : Moves s op s') {i} (owned : owner s m = some i) :
    (owner s' m = some i ∧ pmemOrderAt s'.info i = pmemOrderAt s.info i) ∨
    (∃ src, op = .connect m src ∧ Disowns s op) ∨ ∃ mm past, op = .release m mm past := by
  cases moves with
  | same info same => exact .inl ⟨same ▸ owned,by rw [info]⟩
  | takes f k before inv entries free marks orders after_ =>
    have other : m ≠ f := by
      rintro rfl
      cases before.symm.trans owned
    exact .inl ⟨by rw [after_]; simpa [other] using owned,orders i (owners.held m i owned)⟩
  | loses f k src call why before info after_ =>
    by_cases other : m = f
    · exact .inr (.inl ⟨src,other ▸ call,why⟩)
    · exact .inl ⟨by rw [after_]; simpa [other] using owned,by rw [info]⟩
  | frees f k mm past call before freed after_ =>
    by_cases other : m = f
    · exact .inr (.inr ⟨mm,past,other ▸ call⟩)
    · have apart : i ≠ k := fun same => other (owners.once m f k (same ▸ owned) before)
      have held := owners.held m i owned
      have inside := Buddy.chainBelow owners.inv.tiles.chain (owners.inv.tiles.heads i held)
      refine .inl ⟨by rw [after_]; simpa [other] using owned,?_⟩
      rw [freed,freeOrder (behindInv owners.inv past) (fun free => held ((behindUnallocated past i).mp free)) apart,behindOrder past inside]

theorem backedMoves (owners : Owners s) (allocated : 0 ≤ d.index) (backed : Backed s d j)
    (moves : Moves s op s') (serials : ∀ m e e', s.file m = some e → s'.file m = some e' → e'.serial = e.serial)
    (kept : ∀ m e, MasterOf s d m e → ¬ ((∃ src, op = .connect m src ∧ Disowns s op) ∨ ∃ mm past, op = .release m mm past)) :
    Backed s' d j := by
  obtain ⟨⟨m,e,master⟩,bound⟩ := backed
  obtain ⟨owned,order⟩ := (movesOwned owners moves (masterOwner master allocated)).resolve_right (kept m e master)
  obtain ⟨e',present,owns,index⟩ := ownerIff.mp owned
  have same := serials m e e' master.present present
  refine ⟨⟨m,e',master.linked,present,same.trans master.serial,owns,?_⟩,order ▸ bound⟩
  exact index.trans (Int.toNat_of_nonneg allocated)

theorem steppedOpened (stepped : Stepped s op s') : s.opened ≤ s'.opened := by
  cases stepped with
  | refused | allocated | failed | turned => exact le_rfl
  | opened => exact le_succ _
  | released =>
    unfold pmemRelease
    split
    · exact le_rfl
    · split <;> split <;> exact le_rfl

theorem steppedCalls (before : Submaps s) (safe : Safe s op) (stepped : Stepped s op s') :
    ∀ call ∈ s'.calls, call.offset + call.len ≤ call.vmaSize := by
  have queued {f : Nat} {d : Data} {args : MmapArgs} (safe : Safe s (.mmap f args)) (known : s.file f = some d)
      (passed : MmapPassed s d args) (call : MapCall)
      (here : call ∈ (mapQueued ⟨args.size,fun _ => false⟩ d.regions args.remaps).2.1 ++ s.calls) :
      call.offset + call.len ≤ call.vmaSize := by
    rcases mem_append.mp here with new | old
    · obtain ⟨r,mem,rfl⟩ := queuedCalls new
      exact (safe d known passed (ne_nil_of_mem mem)).1 r mem
    · exact before.calls call old
  cases stepped with
  | refused | opened | allocated => exact before.calls
  | failed f d args known passed => exact queued safe known passed
  | turned f d known turn =>
    cases turn with
    | client args passed => exact queued safe known passed
    | mapped r env v checked node live => exact forall_mem_cons.mpr ⟨(safe d v known live checked node).1,before.calls⟩
    | master | connect | queued | dropped | unmapped | closed => exact before.calls
  | released =>
    unfold pmemRelease
    split
    · exact before.calls
    · split <;> split <;> exact before.calls

theorem steppedSerials (before : Submaps s) (stepped : Stepped s op s') : (∀ c d, s'.file c = some d → d.serial < s'.opened) ∧
    ∀ c c' d d', s'.file c = some d → s'.file c' = some d' → d.serial = d'.serial → c = c' := by
  have bound := steppedOpened stepped
  refine ⟨fun c d here => ?_,fun c c' d d' here there same => ?_⟩
  · rcases steppedSerial stepped here with ⟨old,known,serial⟩ | ⟨_,serial,counted,_⟩
    · have := before.opened c old known
      omega
    · omega
  · rcases steppedSerial stepped here with ⟨old,known,serial⟩ | ⟨_,serial,_,_,call⟩
    · have left := before.opened c old known
      rcases steppedSerial stepped there with ⟨old',known',serial'⟩ | ⟨_,serial',_⟩
      · exact before.serials c c' old old' known known' (by omega)
      · omega
    · rcases steppedSerial stepped there with ⟨old',known',serial'⟩ | ⟨_,_,_,_,call'⟩
      · have right := before.opened c' old' known'
        omega
      · cases call.symm.trans call'
        rfl

theorem serialKept (stepped : Stepped s op s') (present : s.file m = some e) (there : s'.file m = some d) : d.serial = e.serial := by
  rcases steppedSerial stepped there with ⟨old,known,same⟩ | ⟨fresh,_⟩
  · cases some.inj (present.symm.trans known)
    exact same
  · cases fresh.symm.trans present

theorem steppedSubmaps (before : Submaps s) (safe : Safe s op) (guarded : Guarded s op) (stepped : Stepped s op s') : Submaps s' := by
  have linked := steppedLinked before.owners stepped
  have moves := steppedMoves before.owners stepped
  obtain ⟨opened,serials⟩ := steppedSerials before stepped
  refine ⟨movesOwners before.owners guarded moves linked,steppedCalls before safe stepped,
    fun c x v here live => ?_,fun c x v j here live mapped => ?_,opened,serials⟩
  · rcases steppedFile stepped here with ⟨d,known,became⟩ | ⟨_,none_,_⟩
    · exact becameVma (before.vma c d · known) became live
    · cases none_.symm.trans live
  · rcases steppedFile stepped here with ⟨d,known,became⟩ | ⟨_,none_,_⟩
    · have allocated := linked c x here (becameVma (before.vma c d · known) became live).connected
      exact backedMoves before.owners allocated (becameBacked before safe known became live mapped) moves
        (fun _ _ _ present there => serialKept stepped present there)
        fun m e => masterStays before safe known became live mapped
    · cases none_.symm.trans live

theorem stepSubmaps (s : Device) (op : FileOp) (before : Submaps s) (safe : Safe s op ∧ Guarded s op) : Submaps (fileStep s op) :=
  steppedSubmaps before safe.1 safe.2 (stepped before.owners op)

theorem startSubmaps {size} (small : size < word) : Submaps (noFiles size) := by
  refine ⟨startOwners small,by simp [noFiles],?_,?_,?_,?_⟩ <;> simp [noFiles]

structure SubmapOk (s : Device) : Prop where
  calls : ∀ call ∈ s.calls, call.offset + call.len ≤ call.vmaSize
  live : ∀ c d v j, s.file c = some d → d.vma = some v → v.mapped j = true → ∃ m e, MasterOf s d m e ∧ 0 ≤ e.index ∧
    ¬ Unallocated s.info e.index.toNat ∧ j < 2^pmemOrderAt s.info e.index.toNat
  serials : ∀ c c' d d', s.file c = some d → s.file c' = some d' → d.serial = d'.serial → c = c'
  gone : ∀ k, (∀ m e, s.file m = some e → e.serial ≠ k) → ∀ c d, s.file c = some d → d.masterSerial = k → ¬ Shows d

theorem submapOk (submaps : Submaps s) : SubmapOk s := by
  refine ⟨submaps.calls,fun c d v j here live mapped => ?_,submaps.serials,fun k closed c d here same => ?_⟩
  · obtain ⟨⟨m,e,master⟩,bound⟩ := submaps.backed c d v j here live mapped
    have allocated := submaps.owners.linked c d here (submaps.vma c d v here live).connected
    rw [← master.index] at bound allocated
    exact ⟨m,e,master,allocated,submaps.owners.held m _ (master.index ▸ masterOwner master (master.index ▸ allocated)),bound⟩
  · rintro ⟨v,j,live,mapped⟩
    obtain ⟨⟨m,e,master⟩,_⟩ := submaps.backed c d v j here live mapped
    exact closed m e master.present (master.serial.trans same)

end

def sharedRun : List FileOp :=
  [.open 1 true,.allocate 1 8192,.mmap 1 ⟨0,8192,true,[],true⟩,.open 2 true,.connect 2 (some 1),
   .mmap 2 ⟨0,8192,true,[],true⟩,.remap 2 ⟨4096,4096⟩ .map ⟨some 1,true,true,4096⟩,.release 1 (fun _ => true) freePages]

def shortRun : List FileOp :=
  [.open 1 true,.allocate 1 8192,.open 2 true,.connect 2 (some 1),.mmap 2 ⟨0,4096,true,[],true⟩]

end EclairKernel.Pmem
