import Mathlib.Data.List.Nodup
import Mathlib.Logic.Function.Basic

/-! Lists whose entries are linked into the elements themselves, so that an element
stands on one list at a time. A family of such lists is a function from the list
heads; nothing here names a component. -/
namespace EclairKernel.ListHeads
open Function

structure Once {H K : Type} (l : H → List K) : Prop where
  nodup : ∀ h, (l h).Nodup
  alone : ∀ a b k, k ∈ l a → k ∈ l b → a = b

section
variable {H K : Type} [DecidableEq K] {l : H → List K} {a k x}

def del (l : H → List K) (k : K) : H → List K := fun h => (l h).erase k

theorem Once.memDel (once : Once l) : x ∈ del l k a ↔ x ∈ l a ∧ x ≠ k := by
  rw [ListHeads.del,(once.nodup a).mem_erase_iff,and_comm]

theorem delAbsent (absent : ∀ a, k ∉ l a) : del l k = l := funext fun a => List.erase_of_not_mem (absent a)

theorem Once.del (once : Once l) (k : K) : Once (del l k) :=
  ⟨fun a => (once.nodup a).erase k,
    fun a b x left right => once.alone a b x (once.memDel.mp left).1 (once.memDel.mp right).1⟩

end

variable {H K : Type} [DecidableEq H] {l : H → List K} {h a old new k x}

def addTail (l : H → List K) (h : H) (k : K) : H → List K := update l h (l h ++ [k])

def replaceInit (l : H → List K) (old new : H) : H → List K := update (update l new (l old)) old []

@[simp] theorem memAddTail : x ∈ addTail l h k a ↔ x ∈ l a ∨ a = h ∧ x = k := by
  by_cases same : a = h
  · subst same
    simp [addTail]
  · simp [addTail,same]

theorem memReplaceInit (apart : old ≠ new) :
    x ∈ replaceInit l old new a ↔ a ≠ old ∧ a ≠ new ∧ x ∈ l a ∨ a = new ∧ x ∈ l old := by
  by_cases isOld : a = old
  · subst isOld
    simp [replaceInit,apart]
  by_cases isNew : a = new
  · subst isNew
    simp [replaceInit,update_of_ne isOld]
  · simp [replaceInit,isOld,isNew]

theorem replaceInitElsewhere (notOld : a ≠ old) (notNew : a ≠ new) : replaceInit l old new a = l a := by
  rw [replaceInit,update_of_ne notOld,update_of_ne notNew]

theorem standsReplaceInit (apart : old ≠ new) (empty : l new = []) :
    (∃ a, x ∈ replaceInit l old new a) ↔ ∃ a, x ∈ l a := by
  constructor
  · rintro ⟨a,mem⟩
    rcases (memReplaceInit apart).mp mem with ⟨-,-,before⟩ | ⟨-,before⟩
    · exact ⟨a,before⟩
    · exact ⟨old,before⟩
  · rintro ⟨a,mem⟩
    by_cases moved : a = old
    · exact ⟨new,(memReplaceInit apart).mpr (.inr ⟨rfl,moved ▸ mem⟩)⟩
    have other : a ≠ new := by
      rintro rfl
      simp [empty] at mem
    exact ⟨a,(memReplaceInit apart).mpr (.inl ⟨moved,other,mem⟩)⟩

theorem Once.addTail (once : Once l) (h : H) (absent : ∀ a, k ∉ l a) : Once (addTail l h k) := by
  refine ⟨fun a => ?_,fun a b x left right => ?_⟩
  · by_cases same : a = h
    · subst same
      have longer := (once.nodup a).concat (absent a)
      rw [List.concat_eq_append] at longer
      rwa [ListHeads.addTail,update_self]
    · rw [ListHeads.addTail,update_of_ne same]
      exact once.nodup a
  · rcases memAddTail.mp left with stands | ⟨rfl,rfl⟩ <;> rcases memAddTail.mp right with also | ⟨rfl,same⟩
    · exact once.alone a b x stands also
    · exact absurd (same ▸ stands) (absent a)
    · exact absurd also (absent b)
    · rfl

theorem Once.replaceInit (once : Once l) (apart : old ≠ new) : Once (replaceInit l old new) := by
  refine ⟨fun a => ?_,fun a b x left right => ?_⟩
  · by_cases isOld : a = old
    · subst isOld
      simp [ListHeads.replaceInit]
    · by_cases isNew : a = new
      · subst isNew
        simpa [ListHeads.replaceInit,update_of_ne isOld] using once.nodup old
      · simpa [ListHeads.replaceInit,isOld,isNew] using once.nodup a
  · rcases (memReplaceInit apart).mp left with ⟨notOld,-,stands⟩ | ⟨rfl,stands⟩ <;>
      rcases (memReplaceInit apart).mp right with ⟨notOld',-,also⟩ | ⟨rfl,also⟩
    · exact once.alone a b x stands also
    · exact absurd (once.alone a old x stands also) notOld
    · exact absurd (once.alone b old x also stands) notOld'
    · rfl

end EclairKernel.ListHeads
