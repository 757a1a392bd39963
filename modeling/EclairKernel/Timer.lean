import EclairKernel.ListHeads
import Mathlib.Data.Nat.ModEq
import Mathlib.Data.Fintype.Basic
import Mathlib.Tactic.FinCases
import Mathlib.Tactic.NormNum

/-! The timer wheel of kernel/timer.c on one processor. The list heads of the five
vectors, of `work_list` and of `tv_list` are one family of lists; `unsigned long` is
a number below 2^32. Every timer has a function. -/
namespace EclairKernel.Timer
open EclairKernel.ListHeads Function

def TVN_BITS : Nat := 6
def TVR_BITS : Nat := 8
abbrev TVN_SIZE : Nat := 64
abbrev TVR_SIZE : Nat := 256

local instance tvnNonzero : NeZero TVN_SIZE := ⟨by decide⟩

inductive Head where
  | tv1 (i : Fin TVR_SIZE)
  | tvn (n : Fin 4) (i : Fin TVN_SIZE)
  | workList
  | tvList
  deriving DecidableEq

-- `pending` is `entry.next != NULL`; `running` says that `__run_timers` is in its loop.
structure System (K : Type) where
  jiffies : Nat
  timerJiffies : Nat
  entries : Head → List K
  pending : K → Bool
  expires : K → Nat
  running : Bool

def minus (a b : Nat) : Nat := (a + 2^32 - b) % 2^32

def timeAfterEq (a b : Nat) : Bool := minus a b < 2^31

def vecAt (n : Fin 4) (expires : Nat) : Head := .tvn n (Fin.ofNat TVN_SIZE (expires >>> (TVR_BITS + n.val * TVN_BITS)))

def vecFor (timerJiffies expires : Nat) : Head :=
  let idx := minus expires timerJiffies
  if idx < TVR_SIZE then .tv1 (Fin.ofNat TVR_SIZE expires)
  else if idx < 1 <<< (TVR_BITS + TVN_BITS) then vecAt 0 expires
  else if idx < 1 <<< (TVR_BITS + 2 * TVN_BITS) then vecAt 1 expires
  else if idx < 1 <<< (TVR_BITS + 3 * TVN_BITS) then vecAt 2 expires
  else if 2^31 ≤ idx then .tv1 (Fin.ofNat TVR_SIZE timerJiffies)
  else vecAt 3 expires

variable {K : Type} [DecidableEq K]

def internalAddTimer (s : System K) (k : K) : System K :=
  { s with
    entries := addTail s.entries (vecFor s.timerJiffies (s.expires k)) k
    pending := update s.pending k true }

def detachTimer (s : System K) (k : K) (clearPending : Bool) : System K :=
  { s with
    entries := del s.entries k
    pending := if clearPending then update s.pending k false else s.pending }

def modTimerLocked (s : System K) (k : K) (expires : Nat) : Bool × System K :=
  let detached := if s.pending k then detachTimer s k false else s
  (s.pending k,internalAddTimer { detached with expires := update s.expires k expires } k)

def Unmodified (s : System K) (k : K) (expires : Nat) : Prop := s.expires k = expires ∧ s.pending k = true

instance (s : System K) (k : K) (expires : Nat) : Decidable (Unmodified s k expires) :=
  inferInstanceAs (Decidable (_ ∧ _))

def modTimer (s : System K) (k : K) (expires : Nat) : Bool × System K :=
  if Unmodified s k expires then (true,s) else modTimerLocked s k expires

def addTimer (s : System K) (k : K) (expires : Nat) : Option (System K) :=
  if s.pending k then none
  else some (modTimerLocked { s with expires := update s.expires k expires } k expires).2

def delTimer (s : System K) (k : K) : Bool × System K :=
  if s.pending k then (true,detachTimer s k true) else (false,s)

def cascadeLoop (s : System K) : List K → System K
  | [] => s
  | k::rest => cascadeLoop (internalAddTimer { s with entries := del s.entries k } k) rest

def cascade (s : System K) (n : Fin 4) (index : Fin TVN_SIZE) : System K :=
  let s := { s with entries := replaceInit s.entries (.tvn n index) .tvList }
  cascadeLoop s (s.entries .tvList)

def INDEX (s : System K) (n : Fin 4) : Fin TVN_SIZE :=
  Fin.ofNat TVN_SIZE (s.timerJiffies >>> (TVR_BITS + n.val * TVN_BITS))

def cascadeFrom (s : System K) : List (Fin 4) → System K
  | [] => s
  | n::rest => if INDEX s n = 0 then cascadeFrom (cascade s n (INDEX s n)) rest else cascade s n (INDEX s n)

def tick (s : System K) : System K :=
  let index := Fin.ofNat TVR_SIZE s.timerJiffies
  let s := if index = 0 then cascadeFrom s [0,1,2,3] else s
  { s with
    timerJiffies := (s.timerJiffies + 1) % 2^32
    entries := replaceInit s.entries (.tv1 index) .workList }

def loopStep (s : System K) : Option K × System K :=
  match s.entries .workList with
  | k::_ => (some k,detachTimer s k true)
  | [] => if timeAfterEq s.jiffies s.timerJiffies then (none,tick s) else (none,{ s with running := false })

/-! Where a timer stands in the wheel. With the ticks counted without wrap, a timer
due at tick `D` is in the slot of a vector that is emptied at the last tick up to `D`
at which that vector is looked at; a cascade brings it one vector down, and the first
vector hands it out at `D`. -/

def width (n : Nat) : Nat := 2^(TVR_BITS + n * TVN_BITS)

def slotTick (n D : Nat) : Nat := width n * (D / width n)

-- What a place says about a timer at tick `T`, once the vectors below `done` have
-- been emptied at that tick.
def Placed (T done expires D : Nat) : Head → Prop
  | .tv1 i => T ≤ D ∧ D < T + TVR_SIZE ∧ D % TVR_SIZE = i
  | .tvn n i => expires = D % 2^32 ∧ D / width n % TVN_SIZE = i ∧ T ≤ slotTick n D ∧
      (n < done → T ≠ slotTick n D) ∧ slotTick n D < T + width (n + 1)
  | .workList => D + 1 = T
  | .tvList => expires = D % 2^32 ∧ T ≤ D ∧ D < T + width (done - 1)

variable {T D done} {n : Fin 4}

theorem widthPos (n : Nat) : 0 < width n := Nat.two_pow_pos _

theorem widthSucc (n : Nat) : width (n + 1) = width n * TVN_SIZE := by
  rw [width,Nat.succ_mul,← add_assoc,Nat.pow_add]
  rfl

theorem slotTickLe (n D : Nat) : slotTick n D ≤ D := Nat.mul_div_le D (width n)

theorem ltSlotTick (n D : Nat) : D < slotTick n D + width n := by
  have next := Nat.lt_mul_div_succ D (widthPos n)
  rwa [mul_add,mul_one] at next

theorem slotTickLater (far : T + width n ≤ D) : T < slotTick n D := by
  have near := ltSlotTick n D
  omega

theorem slotTickNow (turn : T % width n = 0) (low : T ≤ slotTick n D) (high : slotTick n D < T + width (n + 1))
    (slot : D / width n % TVN_SIZE = T / width n % TVN_SIZE) : slotTick n D = T := by
  have exact' := Nat.mul_div_cancel' (Nat.dvd_of_mod_eq_zero turn)
  have more := Nat.le_of_mul_le_mul_left (exact'.trans_le low) (widthPos n)
  have less : D / width n < T / width n + 64 := by
    refine Nat.lt_of_mul_lt_mul_left (a := width n) ?_
    rw [mul_add,exact']
    exact high.trans_eq (congrArg (T + ·) (widthSucc n))
  have same : D / width n = T / width n := by
    change _ % 64 = _ % 64 at slot
    omega
  rw [slotTick,same,exact']

theorem slotTickOther (slot : D / width n % TVN_SIZE ≠ T / width n % TVN_SIZE) : T ≠ slotTick n D := by
  rintro rfl
  refine slot ?_
  rw [slotTick,Nat.mul_div_cancel_left _ (widthPos n)]

theorem slotTickTurn (turn : T % width n ≠ 0) : T ≠ slotTick n D := by
  rintro rfl
  exact turn (Nat.mul_mod_right _ _)

theorem digit (n : Fin 4) (D : Nat) : (D % 2^32) >>> (TVR_BITS + n.val * TVN_BITS) % TVN_SIZE = D / width n % TVN_SIZE := by
  fin_cases n <;> simp only [width,TVR_BITS,TVN_BITS] <;> norm_num <;> omega

theorem minusTick (low : T ≤ D) (high : D < T + 2^32) : minus (D % 2^32) (T % 2^32) = D - T := by
  rw [minus]
  omega

theorem vecAtPlaced (near : D < T + width (n + 1)) (far : T + width n ≤ D) :
    Placed T done (D % 2^32) D (vecAt n (D % 2^32)) := by
  have later := slotTickLater far
  exact ⟨rfl,(digit n D).symm,le_of_lt later,fun _ => ne_of_lt later,(slotTickLe n D).trans_lt near⟩

theorem vecForPlaced (low : T ≤ D) (high : D < T + 2^31) :
    Placed T done (D % 2^32) D (vecFor (T % 2^32) (D % 2^32)) := by
  have idx := minusTick low (by omega)
  have widths : width 0 = 2^8 ∧ width 1 = 2^14 ∧ width 2 = 2^20 ∧ width 3 = 2^26 ∧ width 4 = 2^32 := by decide
  simp only [vecFor,idx,TVR_BITS,TVN_BITS]
  split
  next first =>
    refine ⟨low,by omega,?_⟩
    change D % 256 = D % 2^32 % 256
    omega
  next far =>
  change ¬D - T < 256 at far
  split
  next near => exact vecAtPlaced (by change _ < _ + width 1; omega) (by change _ + width 0 ≤ _; omega)
  split
  next near => exact vecAtPlaced (by change _ < _ + width 2; omega) (by change _ + width 1 ≤ _; omega)
  next =>
  split
  next near => exact vecAtPlaced (by change _ < _ + width 3; omega) (by change _ + width 2 ≤ _; omega)
  rw [if_neg (by omega)]
  exact vecAtPlaced (by change _ < _ + width 4; omega) (by change _ + width 3 ≤ _; omega)

theorem vecForPast {E} (past : 2^31 ≤ minus E (T % 2^32)) : Placed T done E T (vecFor (T % 2^32) E) := by
  have far : ∀ e ≤ 26, ¬minus E (T % 2^32) < 1 <<< e := by
    intro e small
    have le : 2^e ≤ 2^26 := Nat.pow_le_pow_right (by decide) small
    omega
  have notFirst : ¬minus E (T % 2^32) < TVR_SIZE := far 8 (by decide)
  have notSecond : ¬minus E (T % 2^32) < 1 <<< (TVR_BITS + TVN_BITS) := far 14 (by decide)
  have notThird : ¬minus E (T % 2^32) < 1 <<< (TVR_BITS + 2 * TVN_BITS) := far 20 (by decide)
  have notFourth : ¬minus E (T % 2^32) < 1 <<< (TVR_BITS + 3 * TVN_BITS) := far 26 (by decide)
  rw [vecFor]
  simp only [if_neg notFirst,if_neg notSecond,if_neg notThird,if_neg notFourth,if_pos past]
  refine ⟨le_refl T,Nat.lt_add_of_pos_right (by decide),?_⟩
  change T % 256 = T % 2^32 % 256
  omega

end EclairKernel.Timer
