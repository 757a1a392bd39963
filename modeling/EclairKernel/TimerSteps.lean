import EclairKernel.Timer

/-! The wheel's invariant and what the steps of timer.c do to it. -/
namespace EclairKernel.Timer
open EclairKernel.ListHeads Function List Nat

section
variable {K : Type}

structure Wheel (s : System K) (due : K → Nat) (T done : Nat) : Prop where
  clock : s.timerJiffies = T % 2^32
  once : Once s.entries
  pending : ∀ k, s.pending k = true ↔ ∃ h, k ∈ s.entries h
  placed : ∀ h k, k ∈ s.entries h → Placed T done (s.expires k) (due k) h

structure Kept (s s' : System K) : Prop where
  rest : s' = { s with entries := s'.entries }
  work : s'.entries .workList = s.entries .workList

variable {s s' s'' : System K} {due T done}

theorem Kept.refl (s : System K) : Kept s s := ⟨rfl,rfl⟩

theorem Kept.trans (first : Kept s s') (second : Kept s' s'') : Kept s s'' := by
  refine ⟨?_,second.work.trans first.work⟩
  rw [second.rest,first.rest]

theorem vecForVector (timerJiffies expires : Nat) :
    vecFor timerJiffies expires ≠ .workList ∧ vecFor timerJiffies expires ≠ .tvList := by
  simp only [vecFor,vecAt]
  split
  · simp
  split
  · simp
  split
  · simp
  split
  · simp
  split <;> simp

theorem INDEXdigit (clock : s.timerJiffies = T % 2^32) (n : Fin 4) : (INDEX s n).val = T / width n % TVN_SIZE := by
  rw [← digit n T,← clock]
  rfl

theorem Wheel.settled (wheel : Wheel s due T done) (empty : s.entries .tvList = [])
    (others : ∀ n : Fin 4, done ≤ n → T % width n ≠ 0) : Wheel s due T 4 := by
  refine ⟨wheel.clock,wheel.once,wheel.pending,fun h k mem => ?_⟩
  have placed := wheel.placed h k mem
  cases h with
  | tv1 i => exact placed
  | tvn n i =>
    obtain ⟨word,slot,low,strict,high⟩ := placed
    refine ⟨word,slot,low,fun _ => ?_,high⟩
    by_cases below : n.val < done
    · exact strict below
    · exact slotTickTurn (others n (not_lt.mp below))
  | workList => exact placed
  | tvList => simp [empty] at mem

theorem widthDvd {a b} (le : a ≤ b) : width a ∣ width b :=
  pow_dvd_pow 2 (Nat.add_le_add_left (Nat.mul_le_mul_right _ le) _)

theorem turnSucc {n} (turn : T % width n = 0) : T % width (n + 1) = 0 ↔ T / width n % TVN_SIZE = 0 := by
  have exact' := Nat.mul_div_cancel' (dvd_of_mod_eq_zero turn)
  constructor
  · intro next
    obtain ⟨q,rfl⟩ := dvd_of_mod_eq_zero next
    rw [widthSucc,mul_assoc,Nat.mul_div_cancel_left _ (widthPos n),mul_mod_right]
  · intro digit
    obtain ⟨q,eq⟩ := dvd_of_mod_eq_zero digit
    rw [← exact',eq,widthSucc,← mul_assoc,mul_mod_right]

theorem Wheel.advance (wheel : Wheel s due T 4) (empty : s.entries .tvList = []) (idle : s.entries .workList = []) :
    Wheel { s with
      timerJiffies := (s.timerJiffies + 1) % 2^32
      entries := replaceInit s.entries (.tv1 (Fin.ofNat TVR_SIZE s.timerJiffies)) .workList } due (T + 1) 0 := by
  have apart : Head.tv1 (Fin.ofNat TVR_SIZE s.timerJiffies) ≠ .workList := by simp
  have index : (Fin.ofNat TVR_SIZE s.timerJiffies).val = T % 256 := by
    rw [wheel.clock]
    change T % 2^32 % 256 = T % 256
    omega
  refine ⟨?_,wheel.once.replaceInit apart,fun x => ?_,fun h x mem => ?_⟩
  · change (s.timerJiffies + 1) % 2^32 = (T + 1) % 2^32
    rw [wheel.clock]
    omega
  · exact (wheel.pending x).trans (standsReplaceInit apart idle).symm
  · rcases (memReplaceInit apart).mp mem with ⟨notSlot,notWork,before⟩ | ⟨rfl,before⟩
    · have placed := wheel.placed h x before
      cases h with
      | tv1 i =>
        obtain ⟨low,high,slot⟩ := placed
        have later : due x ≠ T := by
          rintro same
          refine notSlot (congrArg Head.tv1 (Fin.ext ?_))
          rw [index,← slot,same]
        exact ⟨by omega,by omega,slot⟩
      | tvn n i =>
        obtain ⟨word,slot,low,strict,high⟩ := placed
        exact ⟨word,slot,by omega,fun below => absurd below (Nat.not_lt_zero _),by omega⟩
      | workList => exact absurd rfl notWork
      | tvList => simp [empty] at before
    · obtain ⟨low,high,slot⟩ := wheel.placed _ x before
      rw [index] at slot
      change due x % 256 = T % 256 at slot
      change due x < T + 256 at high
      change due x + 1 = T + 1
      omega

end

variable {K : Type} [DecidableEq K] {s s' s''} {due : K → Nat} {T done k} {n : Fin 4}

theorem Wheel.queue (wheel : Wheel s due T done) {E D} (place : Placed T done E D (vecFor s.timerJiffies E)) (k : K) :
    Wheel (internalAddTimer { s with entries := del s.entries k, expires := update s.expires k E } k)
      (update due k D) T done := by
  have absent : ∀ a, k ∉ del s.entries k a := fun a mem => (wheel.once.memDel.mp mem).2 rfl
  have vector : vecFor s.timerJiffies (update s.expires k E k) = vecFor s.timerJiffies E := by
    rw [update_self]
  refine ⟨wheel.clock,(wheel.once.del k).addTail _ absent,fun x => ?_,fun h x mem => ?_⟩
  · by_cases own : x = k
    · subst own
      exact iff_of_true (update_self ..) ⟨_,memAddTail.mpr (.inr ⟨rfl,rfl⟩)⟩
    · change update s.pending k true x = true ↔ _
      rw [update_of_ne own,wheel.pending x]
      refine exists_congr fun h => ⟨fun mem => memAddTail.mpr (.inl (wheel.once.memDel.mpr ⟨mem,own⟩)),fun mem => ?_⟩
      rcases memAddTail.mp mem with stays | ⟨-,same⟩
      · exact (wheel.once.memDel.mp stays).1
      · exact absurd same own
  · change Placed T done (update s.expires k E x) (update due k D x) h
    rcases memAddTail.mp mem with stays | ⟨rfl,rfl⟩
    · obtain ⟨before,other⟩ := wheel.once.memDel.mp stays
      rw [update_of_ne other,update_of_ne other]
      exact wheel.placed h x before
    · rw [update_self,update_self,vector]
      exact place

theorem Wheel.detach (wheel : Wheel s due T done) (k : K) : Wheel (detachTimer s k true) due T done := by
  refine ⟨wheel.clock,wheel.once.del k,fun x => ?_,fun h x mem => wheel.placed h x (wheel.once.memDel.mp mem).1⟩
  change update s.pending k false x = true ↔ ∃ h, x ∈ del s.entries k h
  by_cases own : x = k
  · subst own
    refine iff_of_false (by simp) ?_
    rintro ⟨h,mem⟩
    exact (wheel.once.memDel.mp mem).2 rfl
  · rw [update_of_ne own,wheel.pending x]
    exact exists_congr fun h => ⟨fun mem => wheel.once.memDel.mpr ⟨mem,own⟩,fun mem => (wheel.once.memDel.mp mem).1⟩

theorem cascadeLoopWheel (wheel : Wheel s due T done) (small : width (done - 1) ≤ 2^31) {l}
    (list : s.entries .tvList = l) :
    Wheel (cascadeLoop s l) due T done ∧ (cascadeLoop s l).entries .tvList = [] ∧ Kept s (cascadeLoop s l) := by
  induction l generalizing s with
  | nil => exact ⟨wheel,list,Kept.refl s⟩
  | cons k rest ih =>
    have mem := list ▸ mem_cons_self
    obtain ⟨word,low,high⟩ := wheel.placed .tvList k mem
    have place : Placed T done (s.expires k) (due k) (vecFor s.timerJiffies (s.expires k)) := by
      rw [word,wheel.clock]
      exact vecForPlaced low (by omega)
    have queued := wheel.queue place k
    rw [update_eq_self,update_eq_self] at queued
    have vector := vecForVector s.timerJiffies (s.expires k)
    have next : (internalAddTimer { s with entries := del s.entries k } k).entries .tvList = rest := by
      change addTail (del s.entries k) (vecFor s.timerJiffies (s.expires k)) k .tvList = rest
      rw [addTail,update_of_ne vector.2.symm,del,list,erase_cons_head]
    have kept : Kept s (internalAddTimer { s with entries := del s.entries k } k) := by
      refine ⟨?_,?_⟩
      · have pending : update s.pending k true = s.pending :=
          update_eq_self_iff.mpr ((wheel.pending k).mpr ⟨_,mem⟩).symm
        simp [internalAddTimer,pending]
      · change addTail (del s.entries k) (vecFor s.timerJiffies (s.expires k)) k .workList = _
        rw [addTail,update_of_ne vector.1.symm]
        refine erase_of_not_mem fun other => ?_
        have same := wheel.once.alone _ _ k mem other
        simp at same
    obtain ⟨wheel',empty,kept'⟩ := ih queued next
    exact ⟨wheel',empty,kept.trans kept'⟩

theorem cascadeWheel (wheel : Wheel s due T n) (turn : T % width n = 0) (empty : s.entries .tvList = []) :
    Wheel (cascade s n (INDEX s n)) due T (n + 1) ∧ (cascade s n (INDEX s n)).entries .tvList = [] ∧
      Kept s (cascade s n (INDEX s n)) := by
  have apart : Head.tvn n (INDEX s n) ≠ .tvList := by simp
  have index := INDEXdigit wheel.clock n
  have moved : Wheel { s with entries := replaceInit s.entries (.tvn n (INDEX s n)) .tvList } due T (n + 1) := by
    refine ⟨wheel.clock,wheel.once.replaceInit apart,fun x => ?_,fun h x mem => ?_⟩
    · exact (wheel.pending x).trans (standsReplaceInit apart empty).symm
    · rcases (memReplaceInit apart).mp mem with ⟨notSlot,notList,before⟩ | ⟨rfl,before⟩
      · have placed := wheel.placed h x before
        cases h with
        | tv1 i => exact placed
        | tvn m i =>
          obtain ⟨word,slot,low,strict,high⟩ := placed
          refine ⟨word,slot,low,fun below => ?_,high⟩
          by_cases same : m = n
          · subst same
            refine slotTickOther fun now => notSlot ?_
            rw [Fin.ext (slot.symm.trans (now.trans index.symm))]
          · omega
        | workList => exact placed
        | tvList => exact absurd rfl notList
      · obtain ⟨word,slot,low,-,high⟩ := wheel.placed _ x before
        have now := slotTickNow turn low high (slot.trans index)
        have near := ltSlotTick n (due x)
        have le := slotTickLe n (due x)
        exact ⟨word,by omega,by change _ < _ + width n; omega⟩
  have narrow : width n ≤ 2^31 := by
    have top : TVR_BITS + n * TVN_BITS ≤ 31 := by
      change 8 + n.val * 6 ≤ 31
      omega
    exact Nat.pow_le_pow_right (by decide) top
  obtain ⟨wheel',done',kept⟩ := cascadeLoopWheel moved narrow rfl
  refine ⟨wheel',done',kept.rest,kept.work.trans ?_⟩
  have notSlot : Head.workList ≠ .tvn n (INDEX s n) := by simp
  have notList : Head.workList ≠ .tvList := by simp
  exact replaceInitElsewhere notSlot notList

def Settled (s : System K) (due : K → Nat) (T : Nat) (s' : System K) : Prop :=
  Wheel s' due T 4 ∧ s'.entries .tvList = [] ∧ Kept s s'

theorem cascadeFromStep {rest} (wheel : Wheel s due T n) (turn : T % width n = 0)
    (empty : s.entries .tvList = [])
    (later : ∀ s', Wheel s' due T (n + 1) → s'.entries .tvList = [] → T % width (n + 1) = 0 →
      Settled s' due T (cascadeFrom s' rest)) : Settled s due T (cascadeFrom s (n::rest)) := by
  obtain ⟨wheel',empty',kept⟩ := cascadeWheel wheel turn empty
  have index := INDEXdigit wheel.clock n
  rw [cascadeFrom]
  split
  next zero =>
    have next := (turnSucc turn).mpr (index.symm.trans (congrArg Fin.val zero))
    obtain ⟨settled,none',kept'⟩ := later _ wheel' empty' next
    exact ⟨settled,none',kept.trans kept'⟩
  next other =>
    refine ⟨wheel'.settled empty' fun m above zero => other (Fin.ext ?_),empty',kept⟩
    have next := mod_eq_zero_of_dvd ((widthDvd above).trans (dvd_of_mod_eq_zero zero))
    exact index.trans ((turnSucc turn).mp next)

theorem cascadeFromWheel (wheel : Wheel s due T 0) (turn : T % width 0 = 0) (empty : s.entries .tvList = []) :
    Settled s due T (cascadeFrom s [0,1,2,3]) := by
  refine cascadeFromStep wheel turn empty fun s1 wheel1 empty1 turn1 => ?_
  refine cascadeFromStep wheel1 turn1 empty1 fun s2 wheel2 empty2 turn2 => ?_
  refine cascadeFromStep wheel2 turn2 empty2 fun s3 wheel3 empty3 turn3 => ?_
  exact cascadeFromStep wheel3 turn3 empty3 fun s4 wheel4 empty4 _ => ⟨wheel4,empty4,Kept.refl s4⟩

theorem tickWheel (wheel : Wheel s due T 0) (empty : s.entries .tvList = []) (idle : s.entries .workList = []) :
    Wheel (tick s) due (T + 1) 0 ∧ (tick s).entries .tvList = [] ∧ (tick s).pending = s.pending ∧
      (tick s).jiffies = s.jiffies ∧ (tick s).running = s.running := by
  have settled : Settled s due T (if Fin.ofNat TVR_SIZE s.timerJiffies = 0 then cascadeFrom s [0,1,2,3] else s) := by
    have turn : Fin.ofNat TVR_SIZE s.timerJiffies = 0 ↔ T % width 0 = 0 := by
      rw [Fin.ext_iff,wheel.clock]
      change T % 2^32 % 256 = 0 ↔ T % 256 = 0
      omega
    split
    next now => exact cascadeFromWheel wheel (turn.mp now) empty
    next other =>
      refine ⟨wheel.settled empty fun n _ zero => other (turn.mpr ?_),empty,Kept.refl s⟩
      exact mod_eq_zero_of_dvd ((widthDvd (Nat.zero_le _)).trans (dvd_of_mod_eq_zero zero))
  obtain ⟨wheel',empty',kept⟩ := settled
  have clock : ∀ s', Kept s s' → s'.timerJiffies = s.timerJiffies ∧ s'.pending = s.pending ∧ s'.jiffies = s.jiffies ∧
      s'.running = s.running := by
    intro s' kept
    rw [kept.rest]
    exact ⟨rfl,rfl,rfl,rfl⟩
  obtain ⟨same,pending,jiffies,running⟩ := clock _ kept
  have next := wheel'.advance empty' (kept.work.trans idle)
  rw [same] at next
  refine ⟨?_,?_,pending,jiffies,running⟩
  · simp only [tick,same]
    exact next
  · have notSlot : Head.tvList ≠ .tv1 (Fin.ofNat TVR_SIZE s.timerJiffies) := by simp
    have notWork : Head.tvList ≠ .workList := by simp
    exact (replaceInitElsewhere notSlot notWork).trans empty'

end EclairKernel.Timer
