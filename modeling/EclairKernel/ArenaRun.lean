import EclairKernel.ArenaFree
import Mathlib.Data.Nat.Bitwise

/-! Runs of the arena: binder_mmap sets it up, binder_alloc_buf and binder_free_buf
work in it, and in every state a run reaches the buffers tile the area, the trees
hold them and the pages are those that are needed. -/
namespace EclairKernel.Arena
open List Option Nat Run Rbtree

section
variable (buffer start : Nat)

theorem colourXor (x y : Nat) : cacheColour (x ^^^ y) = 0 ↔ cacheColour x = cacheColour y := by
  have bits : ∀ v, cacheColour v = v / 2^12 % 2^2 := by
    simp only [cacheColour,pageSize]
    omega
  rw [bits,bits,bits,xor_div_two_pow,xor_mod_two_pow,xor_eq_zero_iff]

theorem colourLoopForward (fuel : Nat) (room : start + fuel * pageSize < word) :
    start ≤ colourLoop buffer fuel start := by
  induction fuel generalizing start with
  | zero => exact le_rfl
  | succ fuel ih =>
    simp only [colourLoop]
    split
    · exact le_rfl
    have small : (start + pageSize) % word = start + pageSize := by
      simp only [word,pageSize] at *
      omega
    have moved := ih (start + pageSize) (by simp only [pageSize] at *; omega)
    rw [small]
    omega

theorem colourLoopDone (fuel : Nat) (near : (4 + cacheColour buffer - cacheColour start) % 4 ≤ fuel) :
    cacheColour (colourLoop buffer fuel start) = cacheColour buffer := by
  have low : ∀ v, cacheColour v < 4 := by
    simp only [cacheColour,pageSize]
    omega
  have lowBuffer := low buffer
  induction fuel generalizing start with
  | zero =>
    have lowStart := low start
    rw [colourLoop]
    omega
  | succ fuel ih =>
    simp only [colourLoop,colourXor]
    split
    · assumption
    have lowStart := low start
    have turn : cacheColour ((start + pageSize) % word) = (cacheColour start + 1) % 4 := by
      simp only [cacheColour,pageSize,word]
      omega
    exact ih _ (by rw [turn]; omega)

end

variable {p}

theorem firstPage (vma : Vma) (env : Env) (positive : 0 < p.buffer) (empty : p.pages 0 = false) :
    (binderUpdatePageRange p true p.buffer (p.buffer + pageSize) (some vma) env =
        some (setPages p (filled p.pages 0 1),true) ∧
      vma.start ≤ (p.buffer + p.userBufferOffset) % word) ∨
    binderUpdatePageRange p true p.buffer (p.buffer + pageSize) (some vma) env = some (p,false) := by
  rcases updateAlloc (some vma) env (s := 0) (e := 1) positive rfl rfl
    (fun k _ high => by cases (show k = 0 by omega); exact empty) with done | failed
  · left
    refine ⟨done,?_⟩
    by_contra outside
    have span : pageSize / pageSize = 1 := rfl
    have more : ¬ p.buffer + pageSize ≤ p.buffer := by
      simp only [pageSize]
      omega
    have here : p.buffer < p.buffer + pageSize := by omega
    simp [binderUpdatePageRange,more,span,allocLoop,here,outside] at done
  · exact .inr failed

theorem offsetColour {buffer start offset} (given : offset = (start + (word - buffer)) % word) (fits : buffer ≤ word)
    (first : buffer % pageSize = 0) (second : start % pageSize = 0) (same : cacheColour start = cacheColour buffer)
    (addr : Nat) : cacheColour ((addr + offset) % word) = cacheColour addr := by
  simp only [cacheColour,pageSize,word] at *
  omega

structure Unmapped (p : Proc) : Prop where
  buffer : p.buffer = 0
  vma : p.vma = none
  free : p.freeBuffers = .leaf
  allocated : p.allocatedBuffers = .leaf

theorem firstBufferSound (vma : Vma) (free : p.freeBuffers = .leaf) (allocated : p.allocatedBuffers = .leaf)
    (placed : Placed p) (room : headerSize ≤ p.bufferSize) (pages : p.pages = filled (fun _ => false) 0 1) :
    ∃ q, firstBuffer p vma = some q ∧ Sound q ∧ (p.bufferSize < word → Quota q) := by
  generalize result : setHeader (setBuffers p [p.buffer]) p.buffer ⟨true,false,false,0,0⟩ = q
  have buffers : q.buffers = [p.buffer] := by simp [← result]
  have same : Same p q := by constructor <;> simp [← result]
  have own : (q.header p.buffer).free = true := by simp [← result]
  have shape : Shape q (some p.buffer) := by
    refine ⟨⟨?_,?_,?_⟩,?_,?_,?_⟩
    · simp [buffers,same.buffer]
    · simp [buffers,Spaced]
    · intro b mem
      rw [buffers,mem_singleton] at mem
      rw [same.buffer,same.bufferSize]
      omega
    · have tree : q.freeBuffers = .leaf := by simp [← result,free]
      rw [tree]
      exact holdsLeaf (by simp [buffers])
    · have tree : q.allocatedBuffers = .leaf := by simp [← result,allocated]
      rw [tree]
      refine holdsLeaf ?_
      rintro x ⟨mem,taken⟩
      rw [buffers,mem_singleton] at mem
      simp [mem,own] at taken
    · intro x mem y next
      rw [buffers] at mem next
      simp [nextBuffer] at next
  have alone : Alone q p.buffer := by
    constructor
    · intro y next
      simp [buffers,nextBuffer] at next
    · intro x mem next
      rw [buffers] at mem next
      simp [nextBuffer] at next
  obtain ⟨t,inserted,shape⟩ := insertFreeShape shape (by simp [buffers]) own alone
  have sound : Sound (setFreeBuffers q t) := by
    refine ⟨shape,?_,placedSame placed ⟨same.buffer,same.bufferSize⟩,?_⟩
    · intro b mem taken
      rw [setFreeBuffers_buffers,buffers,mem_singleton] at mem
      simp [mem,own] at taken
    · intro k
      have table : q.pages k = p.pages k := by simp [← result]
      have address : pageAddr (setFreeBuffers q t) k = p.buffer + pageSize * k := by simp [pageAddr,same.buffer]
      have first : OnHeader p.buffer (p.buffer + pageSize * k) ↔ k = 0 := by
        simp only [OnHeader,pageSize,headerSize]
        omega
      rw [setFreeBuffers_pages,table,pages,address]
      simp [Needed,buffers,own,first,filled]
  refine ⟨setVma (setFreeAsyncSpace (setFreeBuffers q t) (q.bufferSize / 2)) (some vma),
    by simp [firstBuffer,result,inserted],?_,?_⟩
  · exact soundCongr sound ⟨rfl,rfl⟩ rfl rfl rfl (fun _ => rfl) (fun _ => rfl) fun _ => ⟨rfl,rfl⟩
  · intro small
    refine ⟨same.bufferSize.symm ▸ small,?_⟩
    simp [asyncCharged,buffers,asyncCharge,own]

def Kept (p : Proc) : Prop := Unmapped p ∨ Sound p

def Metered (p : Proc) : Prop := p.buffer ≠ 0 → Quota p

theorem Kept.sound (kept : Kept p) (mapped : p.buffer ≠ 0) : Sound p :=
  kept.resolve_left fun unmapped => mapped unmapped.buffer

theorem mmapKept (unmapped : Unmapped p) (m : MmapArgs) :
    ∃ out, binderMmap p m = some out ∧ Kept out.1 ∧ Metered out.1 := by
  obtain ⟨start,stop,flags,aliasing,area,allocated,env,order,inside,startWhole,stopWhole,areaOk⟩ := m
  simp only [binderMmap,unmapped.buffer]
  have free : Metered p := absurd unmapped.buffer
  split
  · exact ⟨_,rfl,.inl unmapped,free⟩
  cases area with
  | none => exact ⟨_,rfl,.inl unmapped,free⟩
  | some addr =>
    obtain ⟨positive,whole,below⟩ := areaOk addr rfl
    cases allocated with
    | false => exact ⟨_,rfl,.inl ⟨rfl,unmapped.vma,unmapped.free,unmapped.allocated⟩,absurd rfl⟩
    | true =>
      simp only [if_true]
      generalize limit : (if SZ_4M < stop - start then start + SZ_4M else stop) = last
      generalize colour : (if aliasing then colourLoop addr 4 start else start) = first
      generalize setup : setBufferSize (setPages (setArea p addr ((start + (word - addr)) % word)) fun _ => false)
        ((last + (word - first)) % word) = q
      have buffer : q.buffer = addr := by simp [← setup]
      have table : q.pages = fun _ => false := by
        funext k
        simp [← setup]
      have forward : start ≤ first := by
        cases aliasing with
        | false => exact le_of_eq colour
        | true =>
          have moved := colourLoopForward addr start 4
            (by simp only [TASK_SIZE,pageSize,word] at *; omega)
          simp only [if_true] at colour
          omega
      rcases firstPage (p := q) ⟨first,last⟩ env (by omega) (by simp [table]) with
        ⟨done,low⟩ | failed
      · have user : (q.buffer + q.userBufferOffset) % word = start := by
          simp only [← setup,setBufferSize_userBufferOffset,
            setPages_userBufferOffset,setArea_userBufferOffset,word] at *
          omega
        have size : q.bufferSize = last - start ∧ (last - start) % pageSize = 0 ∧ pageSize ≤ last - start := by
          have given : q.bufferSize = (last + (word - first)) % word := by simp [← setup]
          split at limit <;> simp only [SZ_4M,word,pageSize] at * <;> omega
        obtain ⟨r,built,sound,quota⟩ := firstBufferSound (p := setPages q (filled q.pages 0 1)) ⟨first,last⟩
          (by simp [← setup,unmapped.free]) (by simp [← setup,unmapped.allocated])
          ⟨by simp [buffer,positive],by simp [buffer,whole],by simp [size.1,size.2.1]⟩
          (by simp only [setPages_bufferSize,headerSize,pageSize] at *; omega) (by rw [table]; rfl)
        rw [buffer] at done
        simp only [done,bind,bind_some,built]
        exact ⟨_,rfl,.inr sound,fun _ => quota (by simpa [← setup] using mod_lt _ (by decide))⟩
      · rw [buffer] at failed
        simp only [failed]
        exact ⟨_,rfl,.inl ⟨rfl,by simp [← setup,unmapped.vma],by simp [← setup,unmapped.free],
          by simp [← setup,unmapped.allocated]⟩,absurd rfl⟩

theorem transactionSound (sound : Sound p) (quota : Quota p) (b : Nat) (v : Bool) :
    Sound (setHeader p b ((p.header b).setTransaction v)) ∧ Quota (setHeader p b ((p.header b).setTransaction v)) := by
  refine ⟨soundCongr sound ⟨rfl,rfl⟩ rfl rfl rfl (fun _ => rfl) ?_ ?_,quotaCongr quota rfl rfl rfl ?_⟩ <;>
  · intro x
    by_cases same : x = b <;> simp [same,asyncCharge]

theorem stepKept (kept : Kept p) (metered : Metered p) (op : Op) (admissible : Admissible (some p) op) :
    ∃ q, step p op = some q ∧ Kept q ∧ Metered q := by
  cases op with
  | mmap m =>
    rcases kept with unmapped | sound
    · obtain ⟨out,mapped,kept,metered⟩ := mmapKept unmapped m
      exact ⟨out.1,by simp [step,mapped],kept,metered⟩
    have busy : p.buffer ≠ 0 := ne_of_gt sound.placed.positive
    simp only [step,binderMmap]
    split
    · exact ⟨p,rfl,.inr sound,metered⟩
    · exact ⟨p,rfl,.inr sound,metered⟩
  | alloc d o isAsync env =>
    rcases kept with unmapped | sound
    · exact ⟨p,by simp [step,binderAllocBuf,unmapped.vma],.inl unmapped,metered⟩
    have quota := metered (ne_of_gt sound.placed.positive)
    obtain ⟨⟨q,result⟩,done,sound,_,quota'⟩ := allocSound sound isAsync env d.toNat_lt o.toNat_lt
    cases result with
    | none => exact ⟨q,by simp [step,done],.inr sound,fun _ => quota' quota⟩
    | some b =>
      obtain ⟨sound,quota⟩ := transactionSound sound (quota' quota) b true
      exact ⟨_,by simp [step,done],.inr sound,fun _ => quota⟩
  | free b env =>
    have listed := admissible p rfl
    rcases kept with unmapped | sound
    · simp [unmapped.allocated,inorder] at listed
    obtain ⟨mem,taken⟩ := (sound.shape.allocated.mem b).mp listed
    obtain ⟨cleared,quota⟩ := transactionSound sound (metered (ne_of_gt sound.placed.positive)) b false
    obtain ⟨q,done,sound,quota'⟩ := freeSound cleared mem (by simp [taken]) (by simp) env
    exact ⟨q,done,.inr sound,fun _ => quota' quota⟩
  | vmaClose =>
    rcases kept with unmapped | sound
    · exact ⟨_,rfl,.inl ⟨unmapped.buffer,rfl,unmapped.free,unmapped.allocated⟩,absurd unmapped.buffer⟩
    · exact ⟨_,rfl,.inr (soundCongr sound ⟨rfl,rfl⟩ rfl rfl rfl (fun _ => rfl) (fun _ => rfl) fun _ => ⟨rfl,rfl⟩),
        fun mapped => quotaCongr (metered mapped) rfl rfl rfl fun _ => rfl⟩

theorem runKept {ops} (admitted : Admitted stepAll Admissible (some binderOpen) ops) :
    ∃ p, run stepAll (some binderOpen) ops = some p ∧ Kept p ∧ Metered p := by
  have keeps : ∀ s op, (∃ p, s = some p ∧ Kept p ∧ Metered p) → Admissible s op →
      ∃ p, stepAll s op = some p ∧ Kept p ∧ Metered p := by
    rintro s op ⟨p,rfl,kept,metered⟩ admissible
    exact stepKept kept metered op admissible
  exact runInvariant keeps ⟨_,rfl,.inl ⟨rfl,rfl,rfl,rfl⟩,absurd rfl⟩ admitted

structure ArenaOk (p : Proc) : Prop where
  first : p.buffers.head? = some p.buffer
  sorted : p.buffers.Pairwise (· < ·)
  tiles : ∀ b ∈ p.buffers,
    b + headerSize + binderBufferSize p b = (nextBuffer p.buffers b).getD (p.buffer + p.bufferSize)
  free : Holds p.freeBuffers (fun b => b ∈ p.buffers ∧ (p.header b).free = true)
    (fun x y => binderBufferSize p x ≤ binderBufferSize p y)
  allocated : Holds p.allocatedBuffers (fun b => b ∈ p.buffers ∧ (p.header b).free = false) (· < ·)
  apart : ∀ x ∈ p.buffers, ∀ y, nextBuffer p.buffers x = some y →
    ¬ ((p.header x).free = true ∧ (p.header y).free = true)
  room : ∀ b ∈ p.buffers, (p.header b).free = false →
    roundUp (p.header b).dataSize + roundUp (p.header b).offsetsSize ≤ binderBufferSize p b

theorem soundArena (sound : Sound p) : ArenaOk p := by
  refine ⟨sound.shape.first,?_,fun b => regionSize sound.shape.toTiled,?_,sound.shape.allocated,?_,sound.room⟩
  · refine sound.shape.spaced.imp ?_
    intro x y order
    simp only [headerSize] at order
    omega
  · exact holdsSame sound.shape.free fun b => by simp
  · rintro x mem y next ⟨freeX,freeY⟩
    simpa using sound.shape.apart x mem y next freeX freeY

structure PagesOk (p : Proc) : Prop where
  exactly : ∀ k, p.pages k = true ↔
    (∃ b ∈ p.buffers, b < pageAddr p k + pageSize ∧ pageAddr p k < b + headerSize) ∨
    ∃ b ∈ p.buffers, (p.header b).free = false ∧ pageAlign (b + headerSize) ≤ pageAddr p k ∧
      pageAddr p k + pageSize ≤ pageMask (b + headerSize + binderBufferSize p b)
  headers : ∀ b ∈ p.buffers, ∀ x, b ≤ x → x < b + headerSize → p.pages ((x - p.buffer) / pageSize) = true
  data : ∀ b ∈ p.buffers, (p.header b).free = false → ∀ x, b + headerSize ≤ x →
    x < b + headerSize + binderBufferSize p b → p.pages ((x - p.buffer) / pageSize) = true

theorem soundPages (sound : Sound p) : PagesOk p := by
  -- the page of an address of the arena
  have page : ∀ x, p.buffer ≤ x → pageAddr p ((x - p.buffer) / pageSize) ≤ x ∧
      x < pageAddr p ((x - p.buffer) / pageSize) + pageSize := by
    simp only [pageAddr,pageSize]
    omega
  refine ⟨?_,?_,?_⟩
  · intro k
    rw [sound.paged k]
    refine or_congr_right ⟨?_,?_⟩
    · rintro ⟨b,mem,taken,here⟩
      exact ⟨b,mem,taken,regionSize sound.shape.toTiled mem ▸ here⟩
    · rintro ⟨b,mem,taken,here⟩
      exact ⟨b,mem,taken,regionSize sound.shape.toTiled mem ▸ here⟩
  · intro b mem x low high
    obtain ⟨below,above⟩ := page x (le_trans (bufferLow sound.shape.toTiled mem) low)
    exact (sound.paged _).mpr (.inl ⟨b,mem,by omega,by omega⟩)
  · intro b mem taken x low high
    rw [regionSize sound.shape.toTiled mem] at high
    have start := bufferLow sound.shape.toTiled mem
    obtain ⟨below,above⟩ := page x (by omega)
    have whole := pageAddrAligned sound.placed ((x - p.buffer) / pageSize)
    rw [sound.paged]
    generalize pageAddr p ((x - p.buffer) / pageSize) = a at *
    by_cases front : pageAlign (b + headerSize) ≤ a
    · by_cases back : a + pageSize ≤ pageMask (regionEnd p b)
      · exact .inr ⟨b,mem,taken,front,back⟩
      · -- the last page of the region is that of the next header
        have cut : regionEnd p b % pageSize ≠ 0 := by
          simp only [pageMask,pageSize] at *
          omega
        refine .inl ⟨regionEnd p b,(regionEdge sound.placed b).resolve_left cut,?_⟩
        simp only [OnHeader,pageMask,pageSize] at *
        omega
    · refine .inl ⟨b,mem,?_⟩
      simp only [OnHeader,pageAlign,pageSize] at *
      omega

def exampleEnv : Env := ⟨true,fun _ => .ok,false⟩
def exampleMmap : MmapArgs :=
  { start := 0x40000000, stop := 0x40100000, flags := 1, aliasing := true, area := some 0xC8000000,
    pagesAllocated := true, env := exampleEnv, order := by decide, inside := by decide,
    startWhole := by decide, stopWhole := by decide, areaOk := by
      intro a same
      cases Option.some.inj same
      decide }
def exampleOps : List Op :=
  [.mmap exampleMmap,.alloc 100 8 false exampleEnv,.alloc 5000 0 true exampleEnv,.free 0xC8000000 exampleEnv]

theorem exampleAdmitted : Admitted stepAll Admissible (some binderOpen) exampleOps := by
  refine ⟨trivial,trivial,trivial,?_,trivial⟩
  intro p reached
  have listed : (run stepAll (some binderOpen) (exampleOps.take 3)).map
      (fun p => inorder p.allocatedBuffers) = some [0xC8000000,0xC8000094] := by decide +kernel
  have same : run stepAll (some binderOpen) (exampleOps.take 3) = some p := reached
  rw [same] at listed
  have known : inorder p.allocatedBuffers = [0xC8000000,0xC8000094] := some.inj listed
  rw [known]
  exact mem_cons_self

theorem exampleBuffer (reached : run stepAll (some binderOpen) exampleOps = some p) : p.buffer = 0xC8000000 := by
  have buffer : (run stepAll (some binderOpen) exampleOps).map (·.buffer) = some 0xC8000000 := by decide +kernel
  rw [reached] at buffer
  exact some.inj buffer

theorem runArenaOk {ops} (admitted : Admitted stepAll Admissible (some binderOpen) ops) :
    ∃ p, run stepAll (some binderOpen) ops = some p ∧ (p.buffer ≠ 0 → ArenaOk p) := by
  obtain ⟨p,reached,kept,_⟩ := runKept admitted
  exact ⟨p,reached,fun mapped => soundArena (kept.sound mapped)⟩

theorem exampleArenaOk : ∃ p, run stepAll (some binderOpen) exampleOps = some p ∧ p.buffer = 0xC8000000 ∧
    ArenaOk p := by
  obtain ⟨p,reached,ok⟩ := runArenaOk exampleAdmitted
  have here := exampleBuffer reached
  exact ⟨p,reached,here,ok (by simp [here])⟩

theorem allocFailureAtomic {ops} (admitted : Admitted stepAll Admissible (some binderOpen) ops)
    (d o : UInt32) (isAsync : Bool) (env : Env) : ∃ p, run stepAll (some binderOpen) ops = some p ∧
      ∃ out, binderAllocBuf p d.toNat o.toNat isAsync env = some out ∧ (out.2 = none → out.1 = p) := by
  obtain ⟨p,reached,unmapped | sound,_⟩ := runKept admitted
  · exact ⟨p,reached,(p,none),by simp [binderAllocBuf,unmapped.vma],fun _ => rfl⟩
  · obtain ⟨out,done,_,failed,_⟩ := allocSound sound isAsync env d.toNat_lt o.toNat_lt
    exact ⟨p,reached,out,done,failed⟩

def brokenEnv : Env := ⟨true,fun k => if k = 3 then .insertPageFailed else .ok,false⟩

theorem brokenInsertAtomic : ∃ p, run stepAll (some binderOpen) exampleOps = some p ∧
    binderAllocBuf p 20000 0 false brokenEnv = some (p,none) := by
  obtain ⟨p,reached,⟨q,result⟩,done,failed⟩ := allocFailureAtomic exampleAdmitted 20000 0 false brokenEnv
  have refused : ((run stepAll (some binderOpen) exampleOps).bind fun p =>
      (binderAllocBuf p 20000 0 false brokenEnv).map (·.2)) = some none := by decide +kernel
  have done : binderAllocBuf p 20000 0 false brokenEnv = some (q,result) := done
  rw [reached,bind_some,done] at refused
  cases refused
  exact ⟨p,reached,failed rfl ▸ done⟩

theorem asyncQuota {ops} (admitted : Admitted stepAll Admissible (some binderOpen) ops) :
    ∃ p, run stepAll (some binderOpen) ops = some p ∧ (p.buffer ≠ 0 →
      p.freeAsyncSpace + asyncCharged p = p.bufferSize / 2 ∧ p.freeAsyncSpace ≤ p.bufferSize / 2) := by
  obtain ⟨p,reached,_,metered⟩ := runKept admitted
  exact ⟨p,reached,fun mapped => ⟨(metered mapped).exact,(metered mapped).exact ▸ Nat.le_add_right ..⟩⟩

theorem exampleQuota : ∃ p, run stepAll (some binderOpen) exampleOps = some p ∧ asyncCharged p = 5040 ∧
    p.freeAsyncSpace + asyncCharged p = p.bufferSize / 2 := by
  obtain ⟨p,reached,quota⟩ := asyncQuota exampleAdmitted
  have seen : (run stepAll (some binderOpen) exampleOps).map (fun p => (p.buffer,asyncCharged p)) = some (0xC8000000,5040) := by
    decide +kernel
  rw [reached] at seen
  obtain ⟨buffer,charged⟩ := Prod.mk.inj (some.inj seen)
  exact ⟨p,reached,charged,(quota (by simp [buffer])).1⟩

theorem runPagesOk {ops} (admitted : Admitted stepAll Admissible (some binderOpen) ops) :
    ∃ p, run stepAll (some binderOpen) ops = some p ∧ (p.buffer ≠ 0 → PagesOk p) := by
  obtain ⟨p,reached,kept,_⟩ := runKept admitted
  exact ⟨p,reached,fun mapped => soundPages (kept.sound mapped)⟩

theorem examplePagesOk : ∃ p, run stepAll (some binderOpen) exampleOps = some p ∧ p.buffer = 0xC8000000 ∧
    PagesOk p := by
  obtain ⟨p,reached,ok⟩ := runPagesOk exampleAdmitted
  have here := exampleBuffer reached
  exact ⟨p,reached,here,ok (by simp [here])⟩

end EclairKernel.Arena
