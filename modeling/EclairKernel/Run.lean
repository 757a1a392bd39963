import Mathlib.Logic.Basic

/-! Runs of a deterministic machine whose events may carry a side condition.
Nothing here names a component: a machine is a step function, a run is the fold
of its events, and an invariant is carried along every admitted run. -/
namespace EclairKernel.Run

variable {S E : Type} (step : S → E → S) (ok : S → E → Prop)

def run (s : S) : List E → S
  | [] => s
  | e::rest => run (step s e) rest

def Admitted (s : S) : List E → Prop
  | [] => True
  | e::rest => ok s e ∧ Admitted (step s e) rest

instance decidableAdmitted [∀ s e, Decidable (ok s e)] : ∀ s events, Decidable (Admitted step ok s events)
  | _, [] => isTrue trivial
  | s, e::rest =>
    have := decidableAdmitted (step s e) rest
    inferInstanceAs (Decidable (ok s e ∧ Admitted step ok (step s e) rest))

theorem runAppend (s : S) (before after : List E) :
    run step s (before ++ after) = run step (run step s before) after := by
  induction before generalizing s with
  | nil => rfl
  | cons e rest ih => exact ih (step s e)

theorem admittedAppend (s : S) (before after : List E) : Admitted step ok s (before ++ after) ↔
    Admitted step ok s before ∧ Admitted step ok (run step s before) after := by
  induction before generalizing s with
  | nil => exact ⟨fun h => ⟨trivial,h⟩,And.right⟩
  | cons e rest ih =>
    have later := ih (step s e)
    exact ⟨fun h => ⟨⟨h.1,(later.mp h.2).1⟩,(later.mp h.2).2⟩,fun h => ⟨h.1.1,later.mpr ⟨h.1.2,h.2⟩⟩⟩

variable {step ok}

theorem runInvariant {Inv : S → Prop} (keeps : ∀ s e, Inv s → ok s e → Inv (step s e))
    {s} (start : Inv s) {events} (admitted : Admitted step ok s events) : Inv (run step s events) := by
  induction events generalizing s with
  | nil => exact start
  | cons e rest ih => exact ih (keeps s e start admitted.1) admitted.2

theorem runEach {Inv : S → Prop} {each : E → Prop} (keeps : ∀ s e, Inv s → each e → Inv (step s e))
    {s} (start : Inv s) {events} (all : ∀ e ∈ events, each e) : Inv (run step s events) := by
  induction events generalizing s with
  | nil => exact start
  | cons e rest ih =>
    exact ih (keeps s e start (all e List.mem_cons_self)) fun e' mem => all e' (List.mem_cons_of_mem e mem)

theorem runAlways {Inv : S → Prop} (keeps : ∀ s e, Inv s → Inv (step s e)) {s : S} (start : Inv s) (events : List E) :
    Inv (run step s events) :=
  runEach (fun s e inv (_ : True) => keeps s e inv) start fun _ _ => trivial

end EclairKernel.Run
