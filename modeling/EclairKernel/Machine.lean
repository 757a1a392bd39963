import Mathlib.Data.List.Chain

/-! Deterministic machines that stop with a verdict. A step emits events and goes on or
stops; a run lists the states it visited with their events. Nothing here names a component. -/
namespace EclairKernel.Machine
open List

inductive Outcome (S V : Type) where
  | next (s : S)
  | stop (v : V)
  deriving DecidableEq, Repr

structure Visit (S E : Type) where
  state : S
  events : List E

variable {S E V : Type} (step : S → List E × Outcome S V)

def run : Nat → S → List (Visit S E) × Option V
  | 0, _ => ([],none)
  | n+1, s =>
    match (step s).2 with
    | .stop v => ([⟨s,(step s).1⟩],some v)
    | .next s' => (⟨s,(step s).1⟩::(run n s').1,(run n s').2)

variable {step} {n s}

theorem runStop {v} (out : (step s).2 = .stop v) : run step (n+1) s = ([⟨s,(step s).1⟩],some v) := by
  simp [run,out]

theorem runNext {s'} (out : (step s).2 = .next s') :
    run step (n+1) s = (⟨s,(step s).1⟩::(run step n s').1,(run step n s').2) := by
  simp [run,out]

theorem visitReached {Inv : S → Prop} (keeps : ∀ s s', Inv s → (step s).2 = .next s' → Inv s') (start : Inv s) :
    ∀ visit ∈ (run step n s).1, Inv visit.state ∧ visit.events = (step visit.state).1 ∧
      ∀ v, (step visit.state).2 = .stop v → (run step n s).2 = some v := by
  induction n generalizing s with
  | zero => simp [run]
  | succ n ih =>
    intro visit mem
    cases out : (step s).2 with
    | stop v =>
      rw [runStop out] at mem ⊢
      cases mem_singleton.mp mem
      exact ⟨start,rfl,fun w stops => by rw [out] at stops; cases stops; rfl⟩
    | next s' =>
      rw [runNext out] at mem ⊢
      rcases mem_cons.mp mem with rfl | later
      · exact ⟨start,rfl,fun w stops => by rw [out] at stops; cases stops⟩
      · exact ih (keeps s s' start out) visit later

theorem verdictVisited {v} (verdict : (run step n s).2 = some v) :
    ∃ visit ∈ (run step n s).1, (step visit.state).2 = .stop v := by
  induction n generalizing s with
  | zero => cases verdict
  | succ n ih =>
    cases out : (step s).2 with
    | stop w =>
      rw [runStop out] at verdict ⊢
      cases verdict
      exact ⟨_,mem_singleton_self _,out⟩
    | next s' =>
      rw [runNext out] at verdict ⊢
      obtain ⟨visit,mem,stops⟩ := ih verdict
      exact ⟨visit,mem_cons_of_mem _ mem,stops⟩

theorem verdictReached (Inv : S → Prop) (left : S → Nat)
    (keeps : ∀ s s', Inv s → (step s).2 = .next s' → Inv s' ∧ left s' < left s)
    (start : Inv s) (enough : left s < n) : ∃ v, (run step n s).2 = some v := by
  induction n generalizing s with
  | zero => omega
  | succ n ih =>
    cases out : (step s).2 with
    | stop v => exact ⟨v,by rw [runStop out]⟩
    | next s' =>
      obtain ⟨kept,fewer⟩ := keeps s s' start out
      obtain ⟨v,verdict⟩ := ih kept (by omega)
      exact ⟨v,by rw [runNext out]; exact verdict⟩

theorem visitChain {Inv : S → Prop} {R : S → S → Prop}
    (keeps : ∀ s s', Inv s → (step s).2 = .next s' → Inv s' ∧ R s s') (start : Inv s) :
    (run step n s).1.IsChain fun a b => R a.state b.state := by
  induction n generalizing s with
  | zero => exact List.IsChain.nil
  | succ n ih =>
    cases out : (step s).2 with
    | stop v =>
      rw [runStop out]
      exact List.IsChain.singleton _
    | next s' =>
      obtain ⟨kept,related⟩ := keeps s s' start out
      rw [runNext out]
      refine isChain_cons.mpr ⟨?_,ih kept⟩
      intro visit first
      cases n with
      | zero => cases first
      | succ n =>
        have here : visit.state = s' := by
          cases onward : (step s').2 with
          | stop v => rw [runStop onward] at first; cases first; rfl
          | next s'' => rw [runNext onward] at first; cases first; rfl
        exact here ▸ related

/-! A value kept beside the run, brought up to date and tested at every state. -/

variable {G : Type} (upd : G → S → G) (ok : G → S → Prop)

def Followed : G → List (Visit S E) → Prop
  | _, [] => True
  | g, visit::rest => ok g visit.state ∧ Followed (upd g visit.state) rest

def Agree (R : S → S → Prop) : Outcome S V → Outcome S V → Prop
  | .next s, .next t => R s t
  | .stop v, .stop w => v = w
  | _, _ => False

variable {upd ok}

theorem lockstep {R : G → S → S → Prop}
    (each : ∀ g s t, R g s t → ok g s → (step t).1 = (step s).1 ∧ Agree (R (upd g s)) (step s).2 (step t).2)
    {n g s t} (related : R g s t) (followed : Followed upd ok g (run step n s).1) :
    (run step n t).1.map Visit.events = (run step n s).1.map Visit.events ∧ (run step n t).2 = (run step n s).2 := by
  induction n generalizing g s t with
  | zero => exact ⟨rfl,rfl⟩
  | succ n ih =>
    have now : ok g s := by
      cases out : (step s).2 <;> simp only [run,out] at followed <;> exact followed.1
    obtain ⟨same,agree⟩ := each g s t related now
    cases out : (step s).2 <;> cases out' : (step t).2 <;> rw [out,out'] at agree
    · rw [runNext out] at followed
      obtain ⟨events,verdict⟩ := ih agree followed.2
      rw [runNext out,runNext out',same]
      exact ⟨congrArg (List.cons (step s).1) events,verdict⟩
    · exact agree.elim
    · exact agree.elim
    · rw [runStop out,runStop out',same,show _ = _ from agree]
      exact ⟨rfl,rfl⟩

end EclairKernel.Machine
