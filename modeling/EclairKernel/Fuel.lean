import Mathlib.Order.Basic

/-! Computations with fuel. One ends with a result when it gives that result with every
amount of fuel from some amount on. Nothing here names a component. -/
namespace EclairKernel.Fuel

variable {α β : Type}

def Ends (f : Nat → Option α) (r : α) : Prop := ∃ n, ∀ fuel, n ≤ fuel → f fuel = some r

variable {f g} {a r r' : α}

theorem endsAt (n : Nat) (done : ∀ fuel, f (n + fuel) = some r) : Ends f r := by
  refine ⟨n,fun fuel enough => ?_⟩
  obtain ⟨more,rfl⟩ := Nat.exists_eq_add_of_le enough
  exact done more

theorem endsDone : Ends (fun _ => some r) r := endsAt 0 fun _ => rfl

theorem endsOnce (done : ∀ fuel, f (fuel + 1) = some r) : Ends f r := endsAt 1 fun fuel => Nat.add_comm fuel 1 ▸ done fuel

theorem endsAfter (n : Nat) (round : ∀ fuel, n ≤ fuel → f (fuel + 1) = g fuel) (later : Ends g r) : Ends f r := by
  obtain ⟨m,ends⟩ := later
  refine ⟨max n m + 1,fun fuel enough => ?_⟩
  obtain ⟨more,rfl⟩ := Nat.exists_eq_add_of_le enough
  rw [Nat.add_right_comm,round _ (Nat.le_trans (Nat.le_max_left n m) (Nat.le_add_right _ more))]
  exact ends _ (Nat.le_trans (Nat.le_max_right n m) (Nat.le_add_right _ more))

theorem endsSucc (round : ∀ fuel, f (fuel + 1) = g fuel) (later : Ends g r) : Ends f r := endsAfter 0 (fun fuel _ => round fuel) later

theorem endsBind {k : Nat → α → Option β} {r : β} (first : Ends f a) (later : Ends (k · a) r) :
    Ends (fun fuel => f fuel >>= k fuel) r := by
  obtain ⟨n,ends⟩ := first
  obtain ⟨m,ends'⟩ := later
  refine ⟨max n m,fun fuel enough => ?_⟩
  show (f fuel >>= k fuel) = some r
  rw [ends fuel (Nat.le_trans (Nat.le_max_left n m) enough)]
  exact ends' fuel (Nat.le_trans (Nat.le_max_right n m) enough)

theorem endsRound {k : Nat → α → Option β} {f : Nat → Option β} {r : β} (round : ∀ fuel, f (fuel + 1) = g fuel >>= k fuel)
    (first : Ends g a) (done : ∀ fuel, k fuel a = some r) : Ends f r :=
    endsSucc round (endsBind first (endsAt 0 fun _ => done _))

theorem endsMono {n} (mono : ∀ fuel, f fuel = some r → f (fuel + 1) = some r) (done : f n = some r) : Ends f r := by
  refine endsAt n fun fuel => ?_
  induction fuel with
  | zero => exact done
  | succ fuel ih => exact mono _ ih

theorem endsUnique (ends : Ends f r) (ends' : Ends f r') : r = r' := by
  obtain ⟨n,ends⟩ := ends
  obtain ⟨m,ends'⟩ := ends'
  exact Option.some.inj ((ends _ (Nat.le_max_left n m)).symm.trans (ends' _ (Nat.le_max_right n m)))

end EclairKernel.Fuel
