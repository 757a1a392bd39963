import EclairKernel.ResourceSplit

/-! adjust_resource and allocate_resource. Both compute in 32 bits, so that an end that turns over
passes the tests of the first and a start that turns over in ALIGN those of the second; and a gap
of a single byte is not found. -/
namespace EclairKernel.Resource
open SlotList Fuel Function List Option Nat

section
variable {h h' root parent res start stop size} {kids : Nat → List Nat} {before after l}

theorem lastByteFits (start : Nat) (positive : 1 ≤ size) (fits : start + size ≤ 2^32) : lastByte start size = start + size - 1 := by
  unfold lastByte
  omega

theorem childrenInsideEnds {p} (start stop : Nat) (chain : Chain .sibling h.link p l) :
    ∃ b, Ends (childrenInside start stop · (h.link p) h) b ∧ (b = true ↔ ∀ c ∈ l, start ≤ h.start c ∧ h.stop c ≤ stop) := by
  rw [chainHead chain]
  induction l generalizing p with
  | nil => exact ⟨true,endsOnce fun _ => rfl,by simp⟩
  | cons tmp rest ih =>
    by_cases out : h.start tmp < start ∨ stop < h.stop tmp
    · exact ⟨false,endsOnce fun _ => if_pos out,Bool.noConfusion,fun inside => by have := (forall_mem_cons.mp inside).1; omega⟩
    · obtain ⟨b,ends,inside⟩ := ih chain.2
      refine ⟨b,endsSucc (fun _ => ?_) ends,fun passed => forall_mem_cons.mpr ⟨by omega,inside.mp passed⟩,
        fun whole => inside.mpr (forall_mem_cons.mp whole).2⟩
      rw [← chainHead chain.2]
      exact if_neg out

section
variable (ok : TreeOk h root kids) (mem : InTree root kids parent) (split : kids parent = before ++ res::after)
include ok mem split

theorem previousClearEnds (start : Nat) :
    ∃ b, Ends (previousClear · parent res start h) b ∧ (b = true ↔ ∀ c ∈ before, h.stop c < start) := by
  obtain ⟨leads,here,_⟩ := chainAppend.mp (split ▸ ok.chain parent mem)
  have absent : res ∉ before := fun listed => (nodup_append.mp (split ▸ ok.once mem)).2.2 res listed res mem_cons_self rfl
  unfold previousClear
  cases before with
  | nil =>
    rw [show h.link (.child parent) = some res from here]
    exact ⟨true,endsAt 0 fun _ => if_pos rfl,by simp⟩
  | cons x before =>
    rw [leads.1]
    have other : x ≠ res := fun eq => absent (eq ▸ mem_cons_self)
    have whole : Leads .sibling h.link (.sibling x) (before ++ [res]) := leadsAppend.mpr ⟨leads.2,here,trivial⟩
    obtain ⟨last,ends,slot⟩ := beforeFirstEnds whole fun listed => absent (mem_cons_of_mem x listed)
    obtain ⟨nil,_⟩ | ⟨early,y,eq,slot'⟩ := slotAfterCases Slot.sibling (.child parent) (x::before)
    · cases nil
    obtain rfl := Slot.sibling.inj (slot'.symm.trans slot)
    refine ⟨decide (h.stop y < start),?_,fun clear c listed => ?_,fun clear => decide_eq_true (clear y (eq ▸ by simp))⟩
    · simp only [bind,bind_some,if_neg other]
      exact endsBind ends endsDone
    · have clear := of_decide_eq_true clear
      rw [eq,append_assoc] at split
      rcases mem_append.mp (eq ▸ listed) with listed | listed
      · have less := (pairwise_append.mp (split ▸ ok.ordered parent mem)).2.2 c listed y (by simp)
        have := ok.inside parent mem y (split ▸ by simp)
        omega
      · exact mem_singleton.mp listed ▸ clear

def adjusted (h : Memory) (res start stop : Nat) : Memory := setStop (setStart h res start) res stop

structure Room (h : Memory) (kids : Nat → List Nat) (parent res start stop : Nat) (before after : List Nat) : Prop where
  within : h.start parent ≤ start ∧ stop ≤ h.stop parent
  left : ∀ c ∈ before, h.stop c < start
  right : ∀ c ∈ after, stop < h.start c
  around : ∀ c ∈ kids res, start ≤ h.start c ∧ h.stop c ≤ stop

theorem adjustedOk (room : Room h kids parent res start stop before after) (proper : start ≤ stop) :
    TreeOk (adjusted h res start stop) root kids := by
  obtain ⟨within,left,right,around⟩ := room
  have kid : res ∈ kids parent := split ▸ by simp
  have starts {a : Nat} (ne : a ≠ res) : (adjusted h res start stop).start a = h.start a := update_of_ne ne ..
  have stops {a : Nat} (ne : a ≠ res) : (adjusted h res start stop).stop a = h.stop a := update_of_ne ne ..
  have ownStart : (adjusted h res start stop).start res = start := update_self ..
  have ownStop : (adjusted h res start stop).stop res = stop := update_self ..
  have other {a c : Nat} (mem' : InTree root kids a) (ne : a ≠ parent) (kid' : c ∈ kids a) : c ≠ res :=
    fun eq => ne (ok.sameParent mem' mem kid' (eq ▸ kid))
  obtain ⟨_,once,across⟩ := nodup_append.mp (split ▸ ok.once mem)
  have inFront {c : Nat} (listed : c ∈ before) := across c listed res mem_cons_self
  have behind {c : Nat} (listed : c ∈ after) : c ≠ res := fun eq => (nodup_cons.mp once).1 (eq ▸ listed)
  refine ⟨ok.chain,ok.parent,fun a mem' => ?_,fun a mem' c kid' => ?_,ok.ranked⟩
  · by_cases here : a = parent
    · obtain ⟨front,back,between⟩ := pairwise_append.mp (split ▸ ok.ordered parent mem)
      rw [here,split]
      refine pairwise_append.mpr ⟨front.imp_of_mem fun {c d} inC inD less => ?_,
        pairwise_cons.mpr ⟨fun d inD => ?_,(pairwise_cons.mp back).2.imp_of_mem fun {c d} inC inD less => ?_⟩,fun c inC d inD => ?_⟩
      · rwa [stops (inFront inC),starts (inFront inD)]
      · rw [ownStop,starts (behind inD)]
        exact right d inD
      · rwa [stops (behind inC),starts (behind inD)]
      · rw [stops (inFront inC)]
        rcases mem_cons.mp inD with rfl | inD
        · exact ownStart.symm ▸ left c inC
        · rw [starts (behind inD)]
          exact between c inC d (mem_cons_of_mem res inD)
    · refine (ok.ordered a mem').imp_of_mem fun {c d} inC inD less => ?_
      rwa [stops (other mem' here inC),starts (other mem' here inD)]
  · by_cases own : c = res
    · subst own
      have apart : parent ≠ c := fun eq => ok.selfNotKid mem (eq.symm ▸ kid)
      rw [ok.sameParent mem' mem kid' kid,ownStart,ownStop,starts apart,stops apart]
      exact ⟨within.1,proper,within.2⟩
    have inside := ok.inside a mem' c kid'
    rw [starts own,stops own]
    by_cases below : a = res
    · subst below
      have := around c kid'
      omega
    · rwa [starts below,stops below]

theorem adjustFitsEnds : ∃ b, Ends (adjustFits · parent res start stop h) b ∧
    (b = true ↔ Room h kids parent res start stop before after) := by
  have kid : res ∈ kids parent := split ▸ by simp
  obtain ⟨inside,ends,around⟩ := childrenInsideEnds start stop (ok.chain res (.child mem kid))
  obtain ⟨b,ends',left⟩ := previousClearEnds ok mem split start
  obtain ⟨_,_,rest⟩ := chainAppend.mp (split ▸ ok.chain parent mem)
  by_cases out : start < h.start parent ∨ h.stop parent < stop
  · exact ⟨false,endsAt 0 fun _ => if_pos out,Bool.noConfusion,fun room => by have := room.within; omega⟩
  by_cases blocked : (!inside || (h.link (.sibling res)).any fun next => decide (h.start next ≤ stop)) = true
  · refine ⟨false,?_,Bool.noConfusion,fun room => ?_⟩
    · simp only [adjustFits,if_neg out]
      exact endsBind ends (endsAt 0 fun _ => if_pos blocked)
    · rw [around.mpr room.around,chainHead rest] at blocked
      cases after with
      | nil => cases blocked
      | cons next after =>
        have := room.right next mem_cons_self
        simp only [Bool.not_true,Bool.false_or,head?_cons,any_some,decide_eq_true_eq] at blocked
        omega
  refine ⟨b,?_,fun passed => ⟨by omega,left.mp passed,?_,around.mp ?_⟩,fun room => left.mpr room.left⟩
  · simp only [adjustFits,if_neg out]
    refine endsBind ends ?_
    simpa only [if_neg blocked] using ends'
  · rw [chainHead rest] at blocked
    cases after with
    | nil => simp
    | cons next after =>
      simp only [head?_cons,any_some,Bool.or_eq_true,decide_eq_true_eq] at blocked
      exact ok.beyond mem (split.trans (append_cons ..)) (by omega)
  · cases inside
    · exact absurd rfl blocked
    · rfl

end

theorem adjustResourceKeeps (ok : TreeOk h root kids) (mem : InTree root kids parent) (split : kids parent = before ++ res::after)
    (small : start < 2^32) (positive : 1 ≤ size) (short : size < 2^32) :
    (∃ r, Ends (adjustResource · res start size h) r ∧ TreeOk r.2 root kids ∧ (r.1 = false → r.2 = h)) ↔
    start + size ≤ 2^32 ∨ ¬Room h kids parent res start ((start + size - 1) % 2^32) before after := by
  have kid : res ∈ kids parent := split ▸ by simp
  have stop : lastByte start size = (start + size - 1) % 2^32 := by unfold lastByte; omega
  obtain ⟨b,ends,fits⟩ := @adjustFitsEnds _ _ _ _ start ((start + size - 1) % 2^32) _ _ _ ok mem split
  have result : Ends (adjustResource · res start size h) (b,if b then adjusted h res start ((start + size - 1) % 2^32) else h) := by
    simp only [adjustResource,ok.parent parent mem res kid,stop,bind,bind_some]
    exact endsBind ends endsDone
  cases b with
  | false => exact ⟨fun _ => .inr fun room => Bool.noConfusion (fits.mpr room),fun _ => ⟨_,result,ok,fun _ => rfl⟩⟩
  | true =>
    have room := fits.mp rfl
    constructor
    · rintro ⟨r,ends',ok',_⟩
      cases endsUnique result ends'
      have proper := (ok'.inside parent mem res kid).2.1
      simp only [if_true,adjusted,setStop,setStart,update_self] at proper
      exact .inl (by omega)
    · rintro (fits | none)
      · exact ⟨_,result,adjustedOk ok mem split room (by omega),Bool.noConfusion⟩
      · exact absurd room none

structure Fit (h : Memory) (root : Nat) (kids : List Nat) (size min max al a : Nat) : Prop where
  multiple : al ∣ a
  bounds : min ≤ a ∧ a + size ≤ max + 1
  inside : h.start root ≤ a ∧ a + size ≤ h.stop root + 1
  free : ∀ c ∈ kids, a + size ≤ h.start c ∨ h.stop c < a

/-- No start that is rounded up, and no end that is stepped over, leaves 32 bits. -/
structure NoWrap (h : Memory) (root : Nat) (kids : List Nat) (min al : Nat) : Prop where
  least : min + al ≤ 2^32
  first : h.start root + al ≤ 2^32
  next : ∀ c ∈ kids, h.stop c + 1 + al ≤ 2^32

/-- The gaps beside the children, in unbounded integers: where each begins, and the byte behind it. -/
def gapsFrom (h : Memory) (root : Nat) : Nat → List Nat → List (Nat × Nat)
  | s,[] => [(s,h.stop root + 1)]
  | s,t::l => (s,h.start t)::gapsFrom h root (h.stop t + 1) l

def roundUp (x al : Nat) : Nat := (x + (al - 1)) / al * al

/-- The room of a gap from its first aligned byte on is enough, and more than a byte. -/
def Takes (size lo hi al : Nat) (gap : Nat × Nat) : Prop :=
  let g := roundUp (max gap.1 lo) al
  g + size ≤ min gap.2 (hi + 1) ∧ g + 1 < min gap.2 (hi + 1)

/-- The first aligned byte is above 32 bits, and the room from 0 to the end of the gap is enough. -/
def TakesZero (size lo hi al : Nat) (gap : Nat × Nat) : Prop :=
  2^32 ≤ roundUp (max (gap.1 % 2^32) lo) al ∧ size ≤ min gap.2 (hi + 1) ∧ 1 < min gap.2 (hi + 1)

variable {lo hi al s a e new k}

theorem roundUpLeast (power : 0 < al) (x : Nat) :
    x ≤ roundUp x al ∧ al ∣ roundUp x al ∧ ∀ a, x ≤ a → al ∣ a → roundUp x al ≤ a := by
  refine ⟨?_,dvd_mul_left ..,fun a low multiple => ?_⟩
  · have := lt_div_mul_add (a := x + (al - 1)) power
    unfold roundUp
    omega
  · obtain ⟨q,rfl⟩ := multiple
    rw [roundUp,mul_comm al q]
    refine Nat.mul_le_mul_right al (Nat.lt_succ_iff.mp ((Nat.div_lt_iff_lt_mul power).mpr ?_))
    rw [succ_mul,mul_comm q al]
    omega

theorem roundUpMono {x y} (le : x ≤ y) : roundUp x al ≤ roundUp y al :=
  Nat.mul_le_mul_right al (Nat.div_le_div_right (Nat.add_le_add_right le _))

theorem alignCases {x} (power : k < 32) (small : x < 2^32) :
    roundUp x (2^k) < 2^32 ∧ align x (2^k) = roundUp x (2^k) ∨ 2^32 ≤ roundUp x (2^k) ∧ align x (2^k) = 0 := by
  have positive := Nat.two_pow_pos k
  have divides : 2^k ∣ 2^32 := Nat.pow_dvd_pow 2 power.le
  have most := Nat.le_of_dvd (by decide) divides
  rcases lt_or_ge (x + (2^k - 1)) (2^32) with fits | past
  · refine .inl ⟨lt_of_le_of_lt (div_mul_le_self ..) fits,?_⟩
    rw [align,roundUp,mod_eq_of_lt fits]
  · refine .inr ⟨?_,?_⟩
    · rw [roundUp,← Nat.div_mul_cancel divides]
      exact Nat.mul_le_mul_right _ (Nat.div_le_div_right past)
    · rw [align,mod_eq_sub_mod past,mod_eq_of_lt (by omega),Nat.div_eq_of_lt (by omega),zero_mul]

def candidate (lo al : Nat) (gap : Nat × Nat) : Nat := align (if gap.1 % 2^32 < lo then lo else gap.1 % 2^32) al

def Passes (size lo hi al : Nat) (gap : Nat × Nat) : Prop :=
  let u := if hi < gap.2 - 1 then hi else gap.2 - 1
  candidate lo al gap < u ∧ lastByte 0 size ≤ u - candidate lo al gap

instance {size lo hi al gap} : Decidable (Passes size lo hi al gap) := inferInstanceAs (Decidable (_ ∧ _))

structure Round (size lo hi al : Nat) (gap : Nat × Nat) : Prop where
  passed : Passes size lo hi al gap → al ∣ candidate lo al gap ∧ candidate lo al gap + size ≤ hi + 1 ∧ candidate lo al gap + size ≤ 2^32
  zero : candidate lo al gap < lo → candidate lo al gap = 0
  below : Passes size lo hi al gap ∧ candidate lo al gap < lo ↔ 0 < lo ∧ TakesZero size lo hi al gap
  takes : Takes size lo hi al gap → Passes size lo hi al gap
  taken : Passes size lo hi al gap →
    Takes size lo hi al gap ∧ candidate lo al gap = roundUp (max gap.1 lo) al ∨ 2^32 ≤ roundUp (max gap.1 lo) al ∧
      (2^32 ≤ gap.1 ∨ candidate lo al gap = 0)

theorem takesNotZero {gap gap'} (zero : TakesZero size lo hi al gap) (later : gap.1 ≤ gap'.1) (inside : gap'.2 ≤ 2^32) :
    ¬Takes size lo hi al gap' := by
  intro takes
  have up : roundUp (max (gap.1 % 2^32) lo) al ≤ roundUp (max gap'.1 lo) al :=
    roundUpMono (max_le_max_right lo ((mod_le _ _).trans later))
  have := zero.1
  have := takes.2
  omega

section
variable (power : k < 32) (least : lo < 2^32) (positive : 1 ≤ size) (small : size ≤ 2^32)
include power least positive small

theorem roundOk (room : 1 ≤ e) (inside : e ≤ 2^32) (hi : Nat) : Round size lo hi (2^k) (s,e) := by
  have last := lastByteFits 0 positive (by omega)
  have start : (if s % 2^32 < lo then lo else s % 2^32) = max (s % 2^32) lo := by split <;> omega
  have stop : (if hi < e - 1 then hi else e - 1) = min e (hi + 1) - 1 := by split <;> omega
  have up : roundUp (max (s % 2^32) lo) (2^k) ≤ roundUp (max s lo) (2^k) := roundUpMono (max_le_max_right lo (mod_le s _))
  obtain ⟨first,multiple,_⟩ := roundUpLeast (Nat.two_pow_pos k) (max (s % 2^32) lo)
  have beyond := (roundUpLeast (Nat.two_pow_pos k) (max s lo)).1
  have low : s % 2^32 < 2^32 := mod_lt _ (by decide)
  have try_ : candidate lo (2^k) (s,e) = align (max (s % 2^32) lo) (2^k) := by rw [candidate,start]
  have test : Passes size lo hi (2^k) (s,e) ↔ candidate lo (2^k) (s,e) + size ≤ min e (hi + 1) ∧
      candidate lo (2^k) (s,e) + 1 < min e (hi + 1) := by
    simp only [Passes,stop,last]
    omega
  have unwrapped : s < 2^32 → roundUp (max (s % 2^32) lo) (2^k) = roundUp (max s lo) (2^k) := fun proper => by rw [mod_eq_of_lt proper]
  rcases alignCases power (show max (s % 2^32) lo < 2^32 by omega) with ⟨fits,here⟩ | ⟨past,here⟩
  · have own := try_.trans here
    rw [own] at test
    refine ⟨fun pass => ?_,fun low => ?_,?_,fun takes => test.mpr ?_,fun pass => ?_⟩
    · rw [own]
      have := test.mp pass
      exact ⟨multiple,by omega⟩
    · rw [own] at low
      omega
    · rw [own]
      exact ⟨fun low => by omega,fun zero => by have := zero.2.1; dsimp only at this; omega⟩
    · have := takes.2
      dsimp only at this
      rw [unwrapped (by omega)]
      exact takes
    · rcases lt_or_ge s (2^32) with proper | wrapped
      · rw [unwrapped proper] at test own
        exact .inl ⟨test.mp pass,own⟩
      · exact .inr ⟨by dsimp only; omega,.inl wrapped⟩
  · have own := try_.trans here
    rw [own] at test
    refine ⟨fun pass => ?_,fun _ => own,?_,fun takes => ?_,fun pass => .inr ⟨past.trans up,.inr own⟩⟩
    · rw [own]
      have := test.mp pass
      exact ⟨dvd_zero _,by omega⟩
    · rw [own,test,zero_add,zero_add]
      exact ⟨fun low => ⟨low.2,past,low.1⟩,fun zero => ⟨zero.2.2,zero.1⟩⟩
    · have := takes.2
      dsimp only at this
      omega

end

structure Searched (size lo hi al : Nat) (gaps : List (Nat × Nat)) (r : Bool × Nat × Nat) : Prop where
  found : r.1 = true → al ∣ r.2.1 ∧ r.2.1 + size ≤ hi + 1 ∧ r.2.2 = r.2.1 + size - 1
  zero : r.1 = true → r.2.1 < lo → r.2.1 = 0
  below : r.1 = true ∧ r.2.1 < lo ↔ 0 < lo ∧ (∀ gap ∈ gaps, ¬Takes size lo hi al gap) ∧ ∃ gap ∈ gaps, TakesZero size lo hi al gap
  taken : r.1 = true → (∃ gap ∈ gaps, Takes size lo hi al gap ∧ r.2.1 = roundUp (max gap.1 lo) al) ∨
    ∃ gap ∈ gaps, 2^32 ≤ roundUp (max gap.1 lo) al
  none : r.1 = false → ∀ gap ∈ gaps, ¬Takes size lo hi al gap

section
variable {gap : Nat × Nat} {gaps : List (Nat × Nat)} {r : Bool × Nat × Nat}

theorem Searched.skip (searched : Searched size lo hi al gaps r) (untaken : ¬Takes size lo hi al gap)
    (unzero : 0 < lo → ¬TakesZero size lo hi al gap) : Searched size lo hi al (gap::gaps) r := by
  obtain ⟨found,zero,below,taken,none⟩ := searched
  refine ⟨found,zero,below.trans ?_,fun hit => ?_,fun miss => forall_mem_cons.mpr ⟨untaken,none miss⟩⟩
  · refine ⟨fun ⟨pos,no,gap',mem,zero⟩ => ⟨pos,forall_mem_cons.mpr ⟨untaken,no⟩,gap',mem_cons_of_mem _ mem,zero⟩,
      fun ⟨pos,no,gap',mem,zero⟩ => ⟨pos,(forall_mem_cons.mp no).2,gap',?_,zero⟩⟩
    exact (mem_cons.mp mem).resolve_left fun same => unzero pos (same ▸ zero)
  · exact (taken hit).imp (fun ⟨gap',mem,rest⟩ => ⟨gap',mem_cons_of_mem _ mem,rest⟩) fun ⟨gap',mem,rest⟩ => ⟨gap',mem_cons_of_mem _ mem,rest⟩

theorem Searched.miss {x y} : Searched size lo hi al [] (false,x,y) :=
  ⟨Bool.noConfusion,Bool.noConfusion,by simp,Bool.noConfusion,by simp⟩

theorem Searched.hit (positive : 1 ≤ size) (round : Round size lo hi al gap) (passes : Passes size lo hi al gap)
    (later : ∀ gap' ∈ gap::gaps, gap.1 ≤ gap'.1 ∧ gap'.2 ≤ 2^32) (last : 2^32 ≤ gap.1 → gaps = []) :
    Searched size lo hi al (gap::gaps) (true,candidate lo al gap,lastByte (candidate lo al gap) size) := by
  obtain ⟨multiple,below,inside⟩ := round.passed passes
  refine ⟨fun _ => ⟨multiple,below,lastByteFits _ positive inside⟩,fun _ => round.zero,⟨?_,?_⟩,fun _ => ?_,Bool.noConfusion⟩
  · rintro ⟨_,low⟩
    obtain ⟨pos,zero⟩ := round.below.mp ⟨passes,low⟩
    exact ⟨pos,fun gap' mem => takesNotZero zero (later gap' mem).1 (later gap' mem).2,gap,mem_cons_self,zero⟩
  · rintro ⟨pos,no,gap',mem,zero⟩
    refine ⟨rfl,?_⟩
    rcases round.taken passes with ⟨takes,_⟩ | ⟨_,wrapped | here⟩
    · exact absurd takes (no gap mem_cons_self)
    · rw [last wrapped,mem_singleton] at mem
      exact (round.below.mpr ⟨pos,mem ▸ zero⟩).2
    · exact here.symm ▸ pos
  · exact (round.taken passes).imp (fun takes => ⟨gap,mem_cons_self,takes⟩) fun wraps => ⟨gap,mem_cons_self,wraps.1⟩

theorem Round.skips (round : Round size lo hi al gap) (fails : ¬Passes size lo hi al gap) :
    ¬Takes size lo hi al gap ∧ (0 < lo → ¬TakesZero size lo hi al gap) :=
  ⟨fun takes => fails (round.takes takes),fun pos zero => fails (round.below.mpr ⟨pos,zero⟩).1⟩

end

theorem gapsLater (low : h.stop root < 2^32) (ahead : ∀ c ∈ l, s ≤ h.start c)
    (proper : ∀ c ∈ l, h.start c ≤ h.stop c ∧ h.stop c ≤ h.stop root) (ordered : l.Pairwise fun c d => h.stop c < h.start d) :
    ∀ gap ∈ gapsFrom h root s l, s ≤ gap.1 ∧ gap.2 ≤ 2^32 := by
  induction l generalizing s with
  | nil =>
    intro gap mem
    rw [mem_singleton.mp mem]
    exact ⟨le_rfl,low⟩
  | cons t l ih =>
    obtain ⟨first,rest⟩ := pairwise_cons.mp ordered
    obtain ⟨here,later⟩ := forall_mem_cons.mp proper
    have above := (forall_mem_cons.mp ahead).1
    refine forall_mem_cons.mpr ⟨⟨le_rfl,by dsimp only; omega⟩,fun gap mem => ?_⟩
    have := ih (s := h.stop t + 1) first later rest gap mem
    omega

section
variable (ok : TreeOk h root kids) (low : h.stop root < 2^32) (power : k < 32) (least : lo < 2^32)
  (positive : 1 ≤ size) (small : size ≤ 2^32) (hi)
include ok low power least positive small

theorem findLoopEnds (split : kids root = before ++ l) (here : s ≤ 2^32) (ahead : ∀ c ∈ l, s ≤ h.start c)
    (started : ∀ c ∈ l, h.start c ≠ 0) : ∃ r, Ends (findLoop root size lo hi (2^k) h · l.head? (s % 2^32)) r ∧
      Searched size lo hi (2^k) (gapsFrom h root s l) r := by
  induction l generalizing before s with
  | nil =>
    have round := roundOk power least positive small (s := s) (show 1 ≤ h.stop root + 1 by omega) (by omega) hi
    by_cases passes : Passes size lo hi (2^k) (s,h.stop root + 1)
    · exact ⟨_,endsOnce fun _ => if_pos passes,.hit positive round passes (gapsLater low (by simp) (by simp) .nil) fun _ => rfl⟩
    · obtain ⟨untaken,unzero⟩ := round.skips passes
      exact ⟨_,endsOnce fun _ => if_neg passes,Searched.miss.skip untaken unzero⟩
  | cons t l ih =>
    obtain ⟨_,_,rest⟩ := chainAppend.mp (split ▸ ok.chain root .root)
    have listed {c : Nat} (mem : c ∈ t::l) : c ∈ kids root := split ▸ mem_append_right before mem
    have inside {c : Nat} (mem : c ∈ t::l) := (ok.inside root .root c (listed mem)).2
    obtain ⟨first,ordered⟩ := pairwise_cons.mp (pairwise_append.mp (split ▸ ok.ordered root .root)).2.1
    have own := inside mem_cons_self
    have above := ahead t mem_cons_self
    have nonzero := started t mem_cons_self
    have stop : lastByte 0 (h.start t) = h.start t - 1 := by
      rw [lastByteFits 0 (by omega) (by omega),zero_add]
    have round := roundOk power least positive small (s := s) (show 1 ≤ h.start t by omega) (by omega) hi
    have later := gapsLater low ahead (fun c mem => inside mem) (pairwise_cons.mpr ⟨first,ordered⟩)
    by_cases passes : Passes size lo hi (2^k) (s,h.start t)
    · refine ⟨_,endsOnce fun _ => ?_,.hit positive round passes later fun wrapped => by dsimp only at wrapped; omega⟩
      simp only [findLoop,head?_cons,stop]
      exact if_pos passes
    · obtain ⟨r,ends,searched⟩ := ih (split.trans (append_cons ..)) (s := h.stop t + 1) (by omega) first
        fun c mem => started c (mem_cons_of_mem t mem)
      obtain ⟨untaken,unzero⟩ := round.skips passes
      refine ⟨r,endsSucc (fun _ => ?_) ends,searched.skip untaken unzero⟩
      simp only [findLoop,head?_cons,chainHead rest,stop]
      exact if_neg passes

theorem findResourceEnds (first : h.start root < 2^32) : ∃ r, Ends (findResource · root size lo hi (2^k) h) r ∧
    Searched size lo hi (2^k) (gapsFrom h root (h.start root) (kids root)) r := by
  have same := mod_eq_of_lt first
  have head := chainHead (ok.chain root .root)
  have ahead : ∀ c ∈ kids root, h.start root ≤ h.start c := fun c mem => (ok.inside root .root c mem).1
  have whole := fun started => findLoopEnds hi ok low power least positive small (nil_append (kids root)).symm first.le ahead started
  rw [same] at whole
  unfold findResource
  rw [head]
  cases list : kids root with
  | nil =>
    rw [list] at whole
    exact whole (by simp)
  | cons t l =>
    obtain ⟨_,rest⟩ := list ▸ ok.chain root .root
    have inside := ok.inside root .root t (list ▸ mem_cons_self)
    have next := (pairwise_cons.mp (list ▸ ok.ordered root .root)).1
    by_cases zero : h.start t = 0
    · obtain ⟨r,ends,searched⟩ := findLoopEnds hi ok low power least positive small (s := h.stop t + 1)
        (show kids root = [t] ++ l from list) (by omega) next fun c mem => Nat.ne_of_gt (lt_of_le_of_lt (Nat.zero_le _) (next c mem))
      refine ⟨r,?_,searched.skip (fun takes => ?_) fun _ takes => ?_⟩
      · simp only [head?_cons,if_pos zero,chainHead rest]
        exact ends
      · have := takes.2
        dsimp only at this
        omega
      · have := takes.2.2
        dsimp only at this
        omega
    · rw [list] at whole
      simp only [head?_cons,if_neg zero]
      exact whole fun c mem => by
        rcases mem_cons.mp mem with rfl | mem
        · exact zero
        · have := next c mem
          omega

end

/-- The byte 0 is below the minimum and the call does not end there: it is not in the root, or a
child is in the way, or a gap above the minimum comes first, or no start turns over to it. -/
def AlignKeeps (h : Memory) (root : Nat) (kids : List Nat) (size lo hi al : Nat) : Prop :=
  let gaps := gapsFrom h root (h.start root) kids
  lo = 0 ∨ h.start root ≠ 0 ∨ h.stop root + 1 < size ∨ (∃ c ∈ kids, h.start c < size) ∨
    (∃ gap ∈ gaps, Takes size lo hi al gap) ∨ ∀ gap ∈ gaps, ¬TakesZero size lo hi al gap

inductive Allocated (h : Memory) (root : Nat) (kids : List Nat) (new : Nat) : Bool × Nat × Nat → Bool × Memory → Prop
  | missed {x : Nat × Nat} {h' : Memory} : Allocated h root kids new (false,x) (false,h')
  | busy {a e : Nat} {h' : Memory} (unfit : h.start root ≤ a → e ≤ h.stop root → ¬∀ c ∈ kids, e < h.start c ∨ h.stop c < a) :
      Allocated h root kids new (true,a,e) (false,h')
  | placed {a e : Nat} {h' : Memory} (within : h.start root ≤ a ∧ e ≤ h.stop root) (free : ∀ c ∈ kids, e < h.start c ∨ h.stop c < a)
      (own : h'.start new = a ∧ h'.stop new = e ∧ h'.parent new = some root)
      (listed : ∃ before after, kids = before ++ after ∧ Chain .sibling h'.link (.child root) (before ++ new::after)) :
      Allocated h root kids new (true,a,e) (true,h')

section
variable (ok : TreeOk h root kids) (low : h.stop root < 2^32) (power : k < 32) (least : lo < 2^32)
  (positive : 1 ≤ size) (small : size < 2^32) (outside : ¬InTree root kids new) (first : h.start root < 2^32)
include ok low power least positive small outside first

theorem allocateEnds (hi : Nat) : ∃ found r, Ends (allocateResource · root new size lo hi (2^k) h) r ∧
    Searched size lo hi (2^k) (gapsFrom h root (h.start root) (kids root)) found ∧ Allocated h root (kids root) new found r := by
  obtain ⟨⟨_ | _,start,stop⟩,ends,searched⟩ := findResourceEnds hi ok low power least positive small.le first
  · exact ⟨_,_,endsBind ends endsDone,searched,.missed⟩
  have last : stop = start + size - 1 := (searched.found rfl).2.2
  have same : SameTree root kids h (adjusted h new start stop) := (sameSetStart outside start).trans (sameSetStop outside stop)
  have ownStart : (adjusted h new start stop).start new = start := update_self ..
  have ownStop : (adjusted h new start stop).stop new = stop := update_self ..
  have kid {c : Nat} (listed : c ∈ kids root) : InTree root kids c := .child .root listed
  obtain ⟨r,ends',requested⟩ := requestEnds (ok.same same) .root new
  refine ⟨_,_,endsBind ends (endsBind ends' endsDone),searched,?_⟩
  cases requested with
  | refused unfit =>
    refine .busy fun low high => absurd ⟨?_,?_,?_⟩ unfit
    all_goals
      simp only [ownStart,ownStop,same.start root .root,same.stop root .root]
      omega
  | conflict before tmp after split _ _ late early =>
    have listed : tmp ∈ kids root := split ▸ by simp
    rw [ownStop,same.start tmp (kid listed)] at late
    rw [ownStart,same.stop tmp (kid listed)] at early
    refine .busy fun _ _ free => ?_
    have := free tmp listed
    omega
  | placed before after split place =>
    have within := place.within
    rw [ownStart,ownStop,same.start root .root,same.stop root .root] at within
    refine .placed ⟨within.1,within.2.2⟩ (fun c listed => ?_) ⟨ownStart,ownStop,update_self ..⟩
      ⟨before,after,split,linkInTop (ok.same same) .root outside split⟩
    rcases mem_append.mp (split ▸ listed) with front | behind
    · have := place.left c front
      rw [ownStart,same.stop c (kid listed)] at this
      exact .inr this
    · have := place.right c behind
      rw [ownStop,same.start c (kid listed)] at this
      exact .inl this

theorem allocateBounded :
    (∀ h', Ends (allocateResource · root new size lo hi (2^k) h) (true,h') →
      Fit h root (kids root) size lo hi (2^k) (h'.start new) ∧ h'.stop new = h'.start new + size - 1 ∧ h'.parent new = some root ∧
      ∃ before after, kids root = before ++ after ∧ Chain .sibling h'.link (.child root) (before ++ new::after)) ↔
    AlignKeeps h root (kids root) size lo hi (2^k) := by
  obtain ⟨⟨found,start,stop⟩,r,result,searched,allocated⟩ := allocateEnds ok low power least positive small outside first hi
  have keeps (above : ¬(found = true ∧ start < lo)) : AlignKeeps h root (kids root) size lo hi (2^k) := by
    by_contra none
    simp only [AlignKeeps,not_or,not_exists,not_and,not_forall,not_not] at none
    obtain ⟨pos,_,_,_,no,gap,mem,zero⟩ := none
    exact above (searched.below.mpr ⟨Nat.pos_of_ne_zero pos,no,gap,mem,zero⟩)
  cases allocated with
  | missed => exact ⟨fun _ => keeps fun bad => Bool.noConfusion bad.1,fun _ h' done => by cases endsUnique result done⟩
  | busy unfit =>
    refine ⟨fun _ => ?_,fun _ h' done => by cases endsUnique result done⟩
    by_cases zero : start < lo
    · have here : start = 0 := searched.zero rfl zero
      have last : stop = start + size - 1 := (searched.found rfl).2.2
      by_contra none
      simp only [AlignKeeps,not_or,not_exists,not_and,not_not] at none
      obtain ⟨_,_,_,clear,_⟩ := none
      refine unfit (by omega) (by omega) fun c listed => .inl ?_
      have := clear c listed
      omega
    · exact keeps fun bad => zero bad.2
  | placed within free own listed =>
    obtain ⟨multiple,below,last⟩ : 2^k ∣ start ∧ start + size ≤ hi + 1 ∧ stop = start + size - 1 := searched.found rfl
    by_cases zero : start < lo
    · have here : start = 0 := searched.zero rfl zero
      constructor
      · intro bounded
        have fit := (bounded _ result).1.bounds.1
        rw [own.1] at fit
        exact absurd fit (not_le.mpr zero)
      · obtain ⟨pos,no,gap,mem,takes⟩ := searched.below.mp ⟨rfl,zero⟩
        rintro (none | high | short | ⟨c,meets⟩ | ⟨gap',mem',takes'⟩ | unwrapped)
        · omega
        · omega
        · omega
        · have := free c meets.1
          have := (ok.inside root .root c meets.1).2.1
          omega
        · exact absurd takes' (no gap' mem')
        · exact absurd takes (unwrapped gap mem)
    · refine ⟨fun _ => keeps fun bad => zero bad.2,fun _ h' done => ?_⟩
      cases endsUnique result done
      rw [own.1]
      refine ⟨⟨multiple,⟨not_lt.mp zero,below⟩,by omega,fun c listed => ?_⟩,own.2.1.trans last,own.2.2,listed⟩
      have := free c listed
      omega

end

theorem gapIff (ahead : ∀ c ∈ l, s ≤ h.start c)
    (proper : ∀ c ∈ l, h.start c ≤ h.stop c ∧ h.stop c ≤ h.stop root) (ordered : l.Pairwise fun c d => h.stop c < h.start d) :
    ((s ≤ a ∧ a + size ≤ h.stop root + 1) ∧ ∀ c ∈ l, a + size ≤ h.start c ∨ h.stop c < a) ↔
    ∃ gap ∈ gapsFrom h root s l, gap.1 ≤ a ∧ a + size ≤ gap.2 := by
  induction l generalizing s with
  | nil => simp [gapsFrom]
  | cons t l ih =>
    obtain ⟨first,rest⟩ := pairwise_cons.mp ordered
    obtain ⟨here,later⟩ := forall_mem_cons.mp proper
    have above := (forall_mem_cons.mp ahead).1
    simp only [gapsFrom,mem_cons,exists_eq_or_imp,forall_eq_or_imp,← ih first later rest]
    constructor
    · rintro ⟨inside,before | past,free⟩
      · exact .inl ⟨inside.1,before⟩
      · exact .inr ⟨⟨past,inside.2⟩,free⟩
    · rintro (⟨start,before⟩ | ⟨inside,free⟩)
      · refine ⟨by omega,.inl before,fun c mem => .inl ?_⟩
        have := first c mem
        omega
      · exact ⟨by omega,.inr (by omega),free⟩

theorem gapStarts {gap : Nat × Nat} (mem : gap ∈ gapsFrom h root s l) : gap.1 = s ∨ ∃ c ∈ l, gap.1 = h.stop c + 1 := by
  induction l generalizing s with
  | nil => exact .inl (mem_singleton.mp mem ▸ rfl)
  | cons t l ih =>
    rcases mem_cons.mp mem with rfl | mem
    · exact .inl rfl
    · rcases ih mem with here | ⟨c,listed,here⟩
      · exact .inr ⟨t,mem_cons_self,here⟩
      · exact .inr ⟨c,mem_cons_of_mem t listed,here⟩

section
variable (ok : TreeOk h root kids) (low : h.stop root < 2^32) (power : k < 32)
  (positive : 1 ≤ size) (small : size < 2^32) (outside : ¬InTree root kids new) (wraps : NoWrap h root (kids root) lo (2^k))

theorem gapFits (wraps : NoWrap h root (kids root) lo al) (pos : 0 < al) {gap : Nat × Nat}
    (mem : gap ∈ gapsFrom h root (h.start root) (kids root)) : roundUp (max gap.1 lo) al < 2^32 := by
  have most : roundUp (max gap.1 lo) al ≤ max gap.1 lo + (al - 1) := div_mul_le_self ..
  have := wraps.least
  rcases gapStarts mem with here | ⟨c,listed,here⟩
  · have := wraps.first
    omega
  · have := wraps.next c listed
    omega

theorem fitIff (ok : TreeOk h root kids) : Fit h root (kids root) size lo hi al a ↔
    (al ∣ a ∧ lo ≤ a ∧ a + size ≤ hi + 1) ∧ ∃ gap ∈ gapsFrom h root (h.start root) (kids root), gap.1 ≤ a ∧ a + size ≤ gap.2 := by
  rw [← gapIff (fun c mem => (ok.inside root .root c mem).1) (fun c mem => (ok.inside root .root c mem).2) (ok.ordered root .root)]
  exact ⟨fun fit => ⟨⟨fit.multiple,fit.bounds⟩,fit.inside,fit.free⟩,fun fit => ⟨fit.1.1,fit.1.2,fit.2.1,fit.2.2⟩⟩

theorem someFit (ok : TreeOk h root kids) (pos : 0 < al) : (∃ a, Fit h root (kids root) size lo hi al a) ↔
    ∃ gap ∈ gapsFrom h root (h.start root) (kids root), roundUp (max gap.1 lo) al + size ≤ min gap.2 (hi + 1) := by
  simp only [fitIff ok]
  constructor
  · rintro ⟨a,⟨multiple,above,below⟩,gap,mem,inside⟩
    have := (roundUpLeast pos (max gap.1 lo)).2.2 a (by omega) multiple
    exact ⟨gap,mem,by omega⟩
  · rintro ⟨gap,mem,room⟩
    obtain ⟨start,multiple,_⟩ := roundUpLeast pos (max gap.1 lo)
    exact ⟨_,⟨multiple,by omega,by omega⟩,gap,mem,by omega⟩

variable (hi)
include ok low power positive small outside wraps

theorem allocateTakes : ∃ r, Ends (allocateResource · root new size lo hi (2^k) h) r ∧
    (r.1 = true ↔ ∃ gap ∈ gapsFrom h root (h.start root) (kids root), Takes size lo hi (2^k) gap) := by
  have pos := Nat.two_pow_pos k
  have least := wraps.least
  have first := wraps.first
  obtain ⟨⟨found,start,stop⟩,r,result,searched,allocated⟩ :=
    allocateEnds ok low power (show lo < 2^32 by omega) positive small outside (by omega) hi
  refine ⟨r,result,?_⟩
  cases found with
  | false =>
    cases allocated
    exact ⟨Bool.noConfusion,fun ⟨gap,mem,takes⟩ => absurd takes (searched.none rfl gap mem)⟩
  | true =>
    obtain ⟨gap,mem,takes,here⟩ := (searched.taken rfl).resolve_right fun ⟨gap,mem,past⟩ => absurd (gapFits wraps pos mem) (not_lt.mpr past)
    replace here : start = roundUp (max gap.1 lo) (2^k) := here
    have fit : Fit h root (kids root) size lo hi (2^k) start := by
      obtain ⟨above,multiple,_⟩ := roundUpLeast pos (max gap.1 lo)
      have room := takes.1
      rw [← here] at above multiple room
      exact (fitIff ok).mpr ⟨⟨multiple,by omega,by omega⟩,gap,mem,by omega⟩
    cases allocated with
    | placed => exact ⟨fun _ => ⟨gap,mem,takes⟩,fun _ => rfl⟩
    | busy unfit =>
      have last : stop = start + size - 1 := (searched.found rfl).2.2
      have inside := fit.inside
      refine absurd (fun c listed => ?_) (unfit (by omega) (by omega))
      have := fit.free c listed
      omega

theorem allocateComplete : ((∃ h', Ends (allocateResource · root new size lo hi (2^k) h) (false,h')) →
      ¬∃ a, Fit h root (kids root) size lo hi (2^k) a) ↔
    let gaps := gapsFrom h root (h.start root) (kids root)
    2 ≤ size ∨ (∃ gap ∈ gaps, Takes size lo hi (2^k) gap) ∨ ∀ gap ∈ gaps, roundUp (max gap.1 lo) (2^k) + 1 ≠ min gap.2 (hi + 1) := by
  obtain ⟨⟨b,h₁⟩,ends,takes⟩ := allocateTakes hi ok low power positive small outside wraps
  rw [someFit ok (Nat.two_pow_pos k)]
  constructor
  · intro complete
    by_contra none
    simp only [not_or,not_exists,not_and,not_forall,not_not] at none
    obtain ⟨one,no,gap,mem,byte⟩ := none
    have busy : b = false := Bool.eq_false_iff.mpr fun found => by
      obtain ⟨gap,mem,taken⟩ := takes.mp found
      exact no gap mem taken
    exact complete ⟨h₁,busy ▸ ends⟩ ⟨gap,mem,by omega⟩
  · rintro cond ⟨h',done⟩ ⟨gap,mem,room⟩
    cases endsUnique ends done
    have no (gap' : Nat × Nat) (mem' : gap' ∈ gapsFrom h root (h.start root) (kids root)) : ¬Takes size lo hi (2^k) gap' :=
      fun taken => Bool.noConfusion (takes.mpr ⟨gap',mem',taken⟩)
    have tight : ¬roundUp (max gap.1 lo) (2^k) + 1 < min gap.2 (hi + 1) := fun more => no gap mem ⟨room,more⟩
    rcases cond with two | ⟨gap',mem',taken⟩ | bytes
    · omega
    · exact no gap' mem' taken
    · exact bytes gap mem (by omega)

end
end

/-- 1 has the sibling 2 and the child 5, and grows downwards. -/
theorem nestedAdjusted : ∃ kids, TreeOk nested 0 kids ∧
    ∃ r, Ends (adjustResource · 1 0xc0 0x140 nested) r ∧ TreeOk r.2 0 kids ∧ r.2.start 1 = 0xc0 := by
  obtain ⟨kids,ok⟩ := reachOk nestedReach
  have top : kids 0 = [4] := chainUnique (ok.chain 0 .root) ⟨rfl,rfl⟩
  have in4 : InTree 0 kids 4 := .child .root (top ▸ by simp)
  have four : kids 4 = [3] := chainUnique (ok.chain 4 in4) ⟨rfl,rfl⟩
  have in3 : InTree 0 kids 3 := .child in4 (four ▸ by simp)
  have three : kids 3 = [] ++ 1::[2] := chainUnique (ok.chain 3 in3) ⟨rfl,rfl,rfl⟩
  have grows : Ends (adjustResource · 1 0xc0 0x140 nested) (true,adjusted nested 1 0xc0 0x1ff) :=
    endsAt 12 fun fuel => by rw [add_comm]; rfl
  obtain ⟨r,ends,kept,_⟩ := (adjustResourceKeeps ok in3 three (by decide) (by decide) (by decide)).mpr (.inl (show 0xc0 + 0x140 ≤ 2^32 by decide))
  cases endsUnique ends grows
  exact ⟨kids,ok,_,grows,kept,rfl⟩

/-- The end turns over and comes before the start. -/
theorem adjustedInverted : (∃ kids, TreeOk portRegion 0 kids) ∧
    ∃ h', Ends (adjustResource · 1 0x1000 0xfffff001 portRegion) (true,h') ∧ ¬∃ kids, TreeOk h' 0 kids := by
  refine ⟨reachOk portRegionReach,adjusted portRegion 1 0x1000 0,endsOnce fun _ => rfl,fun ⟨kids,ok⟩ => ?_⟩
  · have kid : 1 ∈ kids 0 := mem_of_mem_head? (chainHead (ok.chain 0 .root)).symm
    exact absurd (ok.inside 0 .root 1 kid).2.1 (by decide)

def wholeSpace : Memory := { ports with stop := fun _ => 0xffffffff }

theorem siblingsOk : ∃ kids, TreeOk siblings 0 kids ∧ kids 0 = [1,2] ∧ ¬InTree 0 kids 3 := by
  obtain ⟨kids,ok⟩ := reachOk siblingsReach
  exact ⟨kids,ok,chainUnique (ok.chain 0 .root) ⟨rfl,rfl,rfl⟩,fun mem => outsideNode siblingsReach rfl (by decide) (ok.node.mpr mem)⟩

/-- The gap before 1 has no room above the minimum, and the one between 1 and 2 is taken whole. -/
theorem siblingsAllocated : ∃ h', Ends (allocateResource · 0 3 0x100 0x90 0xffff 0x100 siblings) (true,h') ∧
    Fit siblings 0 [1,2] 0x100 0x90 0xffff 0x100 (h'.start 3) ∧ h'.start 3 = 0x200 := by
  obtain ⟨kids,ok,list,outside⟩ := siblingsOk
  have ends : Ends (allocateResource · 0 3 0x100 0x90 0xffff (2^8) siblings)
      (true,linkIn (adjusted siblings 3 0x200 0x2ff) 0 3 (.sibling 1)) := endsAt 12 fun fuel => by rw [add_comm]; rfl
  have keeps : AlignKeeps siblings 0 (kids 0) 0x100 0x90 0xffff (2^8) :=
    .inr (.inr (.inr (.inr (.inl ⟨(0x200,0x300),by rw [list]; decide,by decide,by decide⟩))))
  have bounded := (allocateBounded ok (by decide) (by decide) (by decide) (by decide) (by decide) outside (by decide)).mpr keeps _ ends
  exact ⟨_,ends,list ▸ bounded.1,rfl⟩

/-- ALIGN turns over to 0, below the minimum. -/
theorem allocatedBelow : ∃ h', Ends (allocateResource · 0 1 1 0xfffffff1 0xffffffff 0x1000 wholeSpace) (true,h') ∧
    ¬ Fit wholeSpace 0 [] 1 0xfffffff1 0xffffffff 0x1000 (h'.start 1) := by
  refine ⟨linkIn (adjusted wholeSpace 1 0 0) 0 1 (.child 0),endsOnce fun _ => rfl,fun fit => absurd fit.bounds.1 (by decide)⟩

theorem nothingFits : ¬∃ a, Fit siblings 0 [1,2] 0x101 0 0x3ff 0x100 a := by
  obtain ⟨kids,ok,list,outside⟩ := siblingsOk
  have ends : Ends (allocateResource · 0 3 0x101 0 0x3ff (2^8) siblings) (false,adjusted siblings 3 0x400 0x3ff) :=
    endsAt 12 fun fuel => by rw [add_comm]; rfl
  have wraps : NoWrap siblings 0 (kids 0) 0 (2^8) := ⟨by decide,by decide,by rw [list]; decide⟩
  exact list ▸ (allocateComplete 0x3ff ok (by decide) (by decide) (by decide) (by decide) outside wraps).mpr (.inl (by decide)) ⟨_,ends⟩

/-- The test wants the start before the end, so one byte does not fit a gap of one byte. -/
theorem byteMissed : (∃ h', Ends (allocateResource · 0 1 1 0x60 0x60 1 wholeSpace) (false,h')) ∧ Fit wholeSpace 0 [] 1 0x60 0x60 1 0x60 := by
  refine ⟨⟨adjusted wholeSpace 1 0x60 0x60,endsOnce fun _ => rfl⟩,by decide,by decide,by decide,by simp⟩

end EclairKernel.Resource
