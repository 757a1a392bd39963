import Mathlib.Logic.Function.Basic
import Mathlib.Data.List.Basic

/-! Singly linked lists in memory. A walk from a pointer along the next pointers visits a
list of cells and ends at a pointer; linking a cell in and cutting cells out change one
pointer and leave the rest of the walk alone. -/
namespace EclairKernel.Pointers
open Function List

variable {α : Type} {next next' h e} {l before after : List α} {p x}

def Walk (next : α → Option α) : Option α → List α → Option α → Prop
  | h, [], e => h = e
  | h, x::rest, e => h = some x ∧ Walk next (next x) rest e

theorem walkAppend : Walk next h (before ++ after) e ↔ ∃ m, Walk next h before m ∧ Walk next m after e := by
  induction before generalizing h with
  | nil => simp [Walk]
  | cons x rest ih =>
    simp only [cons_append,Walk,ih]
    constructor
    · rintro ⟨here,m,first,second⟩
      exact ⟨m,⟨here,first⟩,second⟩
    · rintro ⟨m,⟨here,first⟩,second⟩
      exact ⟨here,m,first,second⟩

theorem walkCongr (same : ∀ x ∈ l, next' x = next x) (walk : Walk next h l e) : Walk next' h l e := by
  induction l generalizing h with
  | nil => exact walk
  | cons x rest ih =>
    obtain ⟨here,onward⟩ := walk
    rw [← same x mem_cons_self] at onward
    exact ⟨here,ih (forall_mem_cons.mp same).2 onward⟩

theorem walkHead (walk : Walk next h l none) : h = l.head? := by
  cases l with
  | nil => exact walk
  | cons x rest => exact walk.1

theorem walkNext (walk : Walk next h (before ++ x::after) none) : next x = after.head? := by
  obtain ⟨m,_,_,rest⟩ := walkAppend.mp walk
  exact walkHead rest

theorem cutHead {run} (walk : Walk next h (run ++ after) none) : Walk next after.head? after none := by
  obtain ⟨k,_,last⟩ := walkAppend.mp walk
  rw [← walkHead last]
  exact last

variable [DecidableEq α]

theorem walkUpdate {v} (outside : x ∉ l) (walk : Walk next h l e) : Walk (update next x v) h l e :=
  walkCongr (fun y mem => update_of_ne (fun same : y = x => outside (same ▸ mem)) _ _) walk

theorem linkHead (outside : x ∉ l) (walk : Walk next h l none) : Walk (update next x h) (some x) (x::l) none :=
  ⟨rfl,by simpa using walkUpdate outside walk⟩

theorem linkAfter (once : (before ++ p::after).Nodup) (outside : x ∉ before ++ p::after) (walk : Walk next h (before ++ p::after) none) :
    Walk (update (update next x (next p)) p (some x)) h (before ++ p::x::after) none := by
  obtain ⟨m,first,here,rest⟩ := walkAppend.mp walk
  obtain ⟨_,tail,apart⟩ := nodup_append.mp once
  simp only [mem_append,mem_cons,not_or] at outside
  have early : p ∉ before := fun mem => apart p mem p mem_cons_self rfl
  have late := (nodup_cons.mp tail).1
  refine walkAppend.mpr ⟨m,walkUpdate early (walkUpdate outside.1 first),here,?_⟩
  rw [update_self]
  refine ⟨rfl,?_⟩
  rw [update_of_ne outside.2.1,update_self]
  exact walkUpdate late (walkUpdate outside.2.2 rest)

theorem cutAfter {run} (once : (before ++ p::(run ++ after)).Nodup) (walk : Walk next h (before ++ p::(run ++ after)) none) :
    Walk (update next p after.head?) h (before ++ p::after) none := by
  obtain ⟨m,first,here,rest⟩ := walkAppend.mp walk
  obtain ⟨k,_,last⟩ := walkAppend.mp rest
  obtain ⟨_,tail,apart⟩ := nodup_append.mp once
  have early : p ∉ before := fun mem => apart p mem p mem_cons_self rfl
  have late : p ∉ after := fun mem => (nodup_cons.mp tail).1 (mem_append_right run mem)
  refine walkAppend.mpr ⟨m,walkUpdate early first,here,?_⟩
  rw [update_self,← walkHead last]
  exact walkUpdate late last

end EclairKernel.Pointers
