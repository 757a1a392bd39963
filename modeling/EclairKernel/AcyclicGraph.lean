import Mathlib.Logic.Relation

/-! Relations without cycles: adding an edge closes a cycle only if there was a
path back. -/
namespace EclairKernel.Graph
open Relation

variable {α : Type} {r r' : α → α → Prop}

def Acyclic (r : α → α → Prop) : Prop := ∀ a, ¬TransGen r a a

theorem Acyclic.mono (acyclic : Acyclic r) (sub : ∀ a b, r' a b → r a b) : Acyclic r' :=
  fun a cycle => acyclic a (TransGen.mono sub a a cycle)

def withEdge (r : α → α → Prop) (x y a b : α) : Prop := r a b ∨ a = x ∧ b = y

variable {x y a b}

theorem withEdgePath (path : TransGen (withEdge r x y) a b) :
    TransGen r a b ∨ ReflTransGen r a x ∧ ReflTransGen r y b := by
  induction path with
  | single edge =>
    rcases edge with old | ⟨rfl,rfl⟩
    · exact .inl (.single old)
    · exact .inr ⟨.refl,.refl⟩
  | tail _ edge ih =>
    rcases edge with old | ⟨rfl,rfl⟩
    · exact ih.imp (·.tail old) fun through => ⟨through.1,through.2.tail old⟩
    · exact .inr ⟨ih.elim TransGen.to_reflTransGen And.left,.refl⟩

theorem Acyclic.addEdge (acyclic : Acyclic r) (noPath : ¬ReflTransGen r y x) : Acyclic (withEdge r x y) := by
  intro a cycle
  rcases withEdgePath cycle with old | ⟨there,back⟩
  · exact acyclic a old
  · exact noPath (back.trans there)

theorem closesCycle (path : ReflTransGen r y x) : TransGen (withEdge r x y) x x :=
  TransGen.head' (.inr ⟨rfl,rfl⟩) (ReflTransGen.mono (fun _ _ edge => .inl edge) y x path)

def Steps (r : α → α → Prop) : Nat → α → α → Prop
  | 0, a, b => a = b
  | n+1, a, b => ∃ c, r a c ∧ Steps r n c b

theorem stepsOfPath (path : ReflTransGen r a b) : ∃ n, Steps r n a b := by
  induction path using ReflTransGen.head_induction_on with
  | refl => exact ⟨0,rfl⟩
  | head edge _ ih =>
    obtain ⟨n,steps⟩ := ih
    exact ⟨n+1,_,edge,steps⟩

end EclairKernel.Graph
