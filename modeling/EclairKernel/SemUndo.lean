import EclairKernel.SemRun

/-! The undo values of one process. The range of semadj is tested against its value before the
call, so the test is exact for a call that undoes no semaphore twice, and only for such. -/
namespace EclairKernel.Sem
open Function List Int

def undoSum (sops : List Sembuf) (k : Nat) : Int := sumOps (sops.filter Sembuf.undo) k

-- semtimedop looks for an undo structure only if some operation asks for it
def undoFor (u : Nat) (sops : List Sembuf) : Option Nat := if sops.any Sembuf.undo then some u else none

def AdjRange (v : Int) : Prop := -SEMAEM - 1 ≤ v ∧ v ≤ SEMAEM

def Single (sops : List Sembuf) : Prop := ∀ k, (sops.filter fun sop => sop.undo && sop.semNum == k).length ≤ 1

/-- The operations that the owner of `u` has made, since its undo structure was made, in calls
that `ok` allows. Each ends in a try_atomic_semop, by itself or from update_queue; in between,
others change everything but its semadj. -/
inductive Calls (u : Nat) (ok : List Sembuf → Prop) : List Sembuf → Sems → Prop
  | start {s : Sems} (zero : ∀ k, s.semadj u k = 0) : Calls u ok [] s
  | others {done s} {s' : Sems} (calls : Calls u ok done s) (own : s'.semadj u = s.semadj u) : Calls u ok done s'
  | call {done s sops pid} (calls : Calls u ok done s) (allowed : ok sops)
      (made : (tryAtomicSemop s sops (undoFor u sops) pid).1 = .done) :
      Calls u ok (done ++ sops) (tryAtomicSemop s sops (undoFor u sops) pid).2

variable {s u k sops made rest sop pid done}

theorem undoAppend (a b : List Sembuf) (k : Nat) : undoSum (a ++ b) k = undoSum a k + undoSum b k := by
  rw [undoSum,filter_append,sumAppend,undoSum,undoSum]

theorem commitUndo (made : List Sembuf) (s : Sems) :
    (commitOps (some u) pid made s).semadj u k = s.semadj u k - Int16.ofInt (undoSum made k) := by
  induction made generalizing s with
  | nil => simp [commitOps,undoSum,sumOps]
  | cons sop made ih =>
    rw [commitOps,ih,undoSum,undoSum,filter_cons]
    dsimp only
    split
    · rw [update_self,sumCons]
      by_cases here : k = sop.semNum
      · subst here
        rw [update_self,if_pos rfl,Int16.ofInt_add,Int16.ofInt_toInt,Int16.sub_sub]
      · rw [update_of_ne here,if_neg (Ne.symm here),zero_add]
    · rfl

theorem commitNone (made : List Sembuf) (s : Sems) : (commitOps none pid made s).semadj = s.semadj := by
  induction made generalizing s with
  | nil => rfl
  | cons sop made ih => exact ih _

theorem sumFilter (sops : List Sembuf) (k : Nat) : sumOps sops k = sumOps (sops.filter fun sop => sop.semNum == k) k := by
  induction sops with
  | nil => rfl
  | cons sop rest ih =>
    rw [filter_cons,sumCons,ih]
    by_cases here : sop.semNum = k
    · rw [if_pos (beq_iff_eq.mpr here),sumCons]
    · rw [if_neg here,if_neg (by simpa using here),zero_add]

theorem singleSum (single : Single sops) (k : Nat) :
    undoSum sops k = 0 ∨ ∃ sop ∈ sops, sop.undo ∧ sop.semNum = k ∧ undoSum sops k = sop.semOp.toInt := by
  have few := single k
  rw [undoSum,sumFilter,filter_filter]
  simp only [Bool.and_comm] at few ⊢
  cases found : sops.filter fun sop => sop.semNum == k && sop.undo with
  | nil => exact .inl rfl
  | cons sop rest =>
    have few : rest = [] := by simpa [found] using few
    have mem := found ▸ mem_cons_self
    simp only [mem_filter,Bool.and_eq_true,beq_iff_eq] at mem
    exact .inr ⟨sop,mem.1,mem.2.2,mem.2.1,by simp [few,sumOps,mem.2.1]⟩

theorem ableUndo {un} (able : AllAble s un made rest) (mem : sop ∈ rest) (undo : sop.undo) :
    AdjRange ((adjOf s.semadj un sop.semNum).toInt - sop.semOp.toInt) := by
  induction rest generalizing made with
  | nil => cases mem
  | cons first rest ih =>
    rcases mem_cons.mp mem with rfl | later
    · exact able.1.undo undo
    · exact ih able.2 later

theorem adjRange (a : Int16) : AdjRange a.toInt := ⟨a.le_toInt,Int.le_sub_one_of_lt a.toInt_lt⟩

theorem undoneExact {a : Int16} {n : Int} (range : AdjRange (a.toInt - n)) : (a - Int16.ofInt n).toInt = a.toInt - n := by
  rw [← Int16.ofInt_toInt a,← Int16.ofInt_sub,Int16.ofInt_toInt]
  exact Int16.toInt_ofInt_of_le range.1 (Int.lt_add_one_of_le range.2)

theorem callsExact (calls : Calls u Single done s) (k : Nat) : (s.semadj u k).toInt = -undoSum done k := by
  induction calls with
  | start zero => simp [zero,undoSum,sumOps]
  | others _ own ih => rw [own,ih]
  | @call done s sops pid _ single made ih =>
    obtain ⟨able,out,-⟩ := tryDone made
    rw [out,undoAppend]
    by_cases some_ : sops.any Sembuf.undo
    · rw [undoFor,if_pos some_] at able ⊢
      have sum : undoSum sops.reverse k = undoSum sops k := by rw [undoSum,filter_reverse,sumReverse,undoSum]
      have kept : (s.after sops.reverse).semadj = s.semadj := rfl
      rw [commitUndo,sum,kept]
      have range : AdjRange ((s.semadj u k).toInt - undoSum sops k) := by
        rcases singleSum single k with none_ | ⟨sop,mem,undo,rfl,same⟩
        · rw [none_,sub_zero]
          exact adjRange _
        · rw [same]
          exact ableUndo able mem undo
      rw [undoneExact range]
      omega
    · have nothing : undoSum sops k = 0 := by
        rw [undoSum,filter_eq_nil_iff.mpr (by simpa using some_),sumOps]
      rw [undoFor,if_neg some_,commitNone,nothing,add_zero]
      exact ih

theorem tryPrefix {un} (able : AllAble s un made sops) : tryFrom un pid made (sops ++ rest) (s.after made) =
    tryFrom un pid (sops.reverse ++ made) rest (s.after (sops.reverse ++ made)) := by
  induction sops generalizing made with
  | nil => rfl
  | cons sop sops ih =>
    rcases tryStep s un pid made sop (sops ++ rest) with ⟨_,next⟩ | ⟨unable,_⟩
    · rw [cons_append,next,ih able.2,reverse_cons,append_assoc]
      rfl
    · exact absurd able.1 unable

/-- semadj is minus what was undone, and an operation that the value allows but that would
take semadj out of its range gives -ERANGE. -/
theorem undoExact (calls : Calls u Single done s) (k : Nat) :
    (s.semadj u k).toInt = -undoSum done k ∧ AdjRange (-undoSum done k) ∧
    ∀ made sop rest pid, AllAble s (some u) [] made → sop.undo → sop.semNum = k →
      InRange (s.semval k + sumOps made k + sop.semOp.toInt) → ¬AdjRange (-undoSum done k - sop.semOp.toInt) →
      (tryAtomicSemop s (made ++ sop::rest) (undoFor u (made ++ sop::rest)) pid).1 = .error .ERANGE := by
  have exact_ := callsExact calls k
  refine ⟨exact_,exact_ ▸ adjRange _,fun made sop rest pid able undo here range far => ?_⟩
  rw [← exact_] at far
  have asks : (made ++ sop::rest).any Sembuf.undo := by simp [undo]
  rw [undoFor,if_pos asks,tryAtomicSemop,← startAfter s,tryPrefix able,append_nil,tryFrom]
  have value : (s.after made.reverse).semval sop.semNum = s.semval k + sumOps made k := by
    rw [here,← sumReverse]
    rfl
  have own : adjOf (s.after made.reverse).semadj (some u) sop.semNum = s.semadj u k := by
    rw [here]
    rfl
  have moves : sop.semOp.toInt ≠ 0 := fun zero => far (by rw [zero,sub_zero]; exact adjRange _)
  simp only [value,own]
  rw [if_neg (moves ·.1),if_neg (not_lt.mpr range.1),if_neg (not_lt.mpr range.2)]
  simp only [AdjRange] at far
  rw [if_pos ⟨undo,by omega⟩]

def filled (n : Int) : Sems := ⟨fun _ => n,fun _ => 0,fun _ _ => 0⟩

def takeAndGive : List Sembuf := [⟨0,-20000,SEM_UNDO⟩,⟨0,20000,0⟩]
def takenOnce : Sems := (tryAtomicSemop (filled 30000) takeAndGive (undoFor 0 takeAndGive) 1).2
def takenTwice : Sems := (tryAtomicSemop takenOnce [⟨0,-10000,SEM_UNDO⟩] (undoFor 0 [⟨0,-10000,SEM_UNDO⟩]) 1).2

theorem undoExactTwice : (takenTwice.semadj 0 0).toInt = 30000 ∧
    (tryAtomicSemop takenTwice [⟨0,-5000,SEM_UNDO⟩] (undoFor 0 [⟨0,-5000,SEM_UNDO⟩]) 1).1 = .error .ERANGE := by
  have first : Single takeAndGive := fun k => by
    cases k with
    | zero => decide
    | succ k => exact Nat.zero_le 1
  have second : Single [⟨0,-10000,SEM_UNDO⟩] := fun k => length_filter_le ..
  have calls : Calls 0 Single _ takenTwice := .call (.call (.start fun _ => rfl) first (by decide)) second (by decide)
  obtain ⟨own,-,refused⟩ := undoExact calls 0
  exact ⟨own.trans (by decide),refused [] _ [] 1 trivial rfl rfl ⟨by decide,by decide⟩ (fun in_ => absurd in_.2 (by decide))⟩

def twice : List Sembuf := [⟨0,-20000,SEM_UNDO⟩,⟨0,20000,0⟩,⟨0,-20000,SEM_UNDO⟩]

/-- The two undone operations pass one by one, and together wrap the 16 bits of semadj. -/
theorem undoWraps : (tryAtomicSemop (filled 32767) twice (undoFor 0 twice) 1).1 = .done ∧
    ((tryAtomicSemop (filled 32767) twice (undoFor 0 twice) 1).2.semadj 0 0).toInt = -25536 ∧ -undoSum twice 0 = 40000 := by
  decide

end EclairKernel.Sem
