import Mathlib.Logic.Function.Basic
import Mathlib.Data.List.Basic

/-! Singly linked lists walked by a pointer to a pointer. A slot is a place that holds a
pointer: the head of the list, or the next field of a cell. What is stored in the slot
behind a part of the list replaces the rest of it. Nothing here names a component. -/
namespace EclairKernel.SlotList
open Function List

variable {σ α : Type} (next : α → σ)

def Chain (link : σ → Option α) : σ → List α → Prop
  | p, [] => link p = none
  | p, x::rest => link p = some x ∧ Chain link (next x) rest

def Leads (link : σ → Option α) : σ → List α → Prop
  | _, [] => True
  | p, x::rest => link p = some x ∧ Leads link (next x) rest

def slotAfter (p : σ) : List α → σ
  | [] => p
  | x::rest => slotAfter (next x) rest

variable {next link link' p q x l l' before rest}

theorem chainAppend : Chain next link p (before ++ rest) ↔
    Leads next link p before ∧ Chain next link (slotAfter next p before) rest := by
  induction before generalizing p with
  | nil => simp [Leads,slotAfter]
  | cons x before ih => simp only [cons_append,Chain,Leads,slotAfter,ih,and_assoc]

theorem leadsAppend : Leads next link p (before ++ rest) ↔
    Leads next link p before ∧ Leads next link (slotAfter next p before) rest := by
  induction before generalizing p with
  | nil => simp [Leads,slotAfter]
  | cons x before ih => simp only [cons_append,Leads,slotAfter,ih,and_assoc]

theorem slotAfterAppend (p : σ) (before rest : List α) :
    slotAfter next p (before ++ rest) = slotAfter next (slotAfter next p before) rest := by
  induction before generalizing p with
  | nil => rfl
  | cons x before ih => exact ih (next x)

variable (next) in
theorem slotAfterCases (p : σ) (l : List α) : (l = [] ∧ slotAfter next p l = p) ∨
    ∃ before x, l = before ++ [x] ∧ slotAfter next p l = next x := by
  rcases eq_nil_or_concat l with rfl | ⟨before,x,rfl⟩
  · exact .inl ⟨rfl,rfl⟩
  · rw [concat_eq_append]
    exact .inr ⟨before,x,rfl,slotAfterAppend p before [x]⟩

variable (next) in
theorem slotAfterMem (p : σ) (l : List α) : slotAfter next p l = p ∨ ∃ x ∈ l, slotAfter next p l = next x := by
  rcases slotAfterCases next p l with ⟨_,same⟩ | ⟨before,x,rfl,slot⟩
  · exact .inl same
  · exact .inr ⟨x,by simp,slot⟩

theorem chainHead (chain : Chain next link p l) : link p = l.head? := by
  cases l with
  | nil => exact chain
  | cons x rest => exact chain.1

theorem chainUnique (chain : Chain next link p l) (other : Chain next link p l') : l = l' := by
  induction l generalizing p l' with
  | nil =>
    cases l' with
    | nil => rfl
    | cons x rest => cases chain.symm.trans other.1
  | cons x rest ih =>
    cases l' with
    | nil => cases chain.1.symm.trans other
    | cons y rest' =>
      cases chain.1.symm.trans other.1
      rw [ih chain.2 other.2]

theorem chainCongr (here : link' q = link p) (same : ∀ x ∈ l, link' (next x) = link (next x))
    (chain : Chain next link p l) : Chain next link' q l := by
  induction l generalizing p q with
  | nil => exact here.trans chain
  | cons x rest ih =>
    have onward := ih (same x mem_cons_self) (forall_mem_cons.mp same).2 chain.2
    exact ⟨here.trans chain.1,onward⟩

theorem leadsCongr (here : link' q = link p) (same : ∀ x ∈ l, link' (next x) = link (next x))
    (leads : Leads next link p l) : Leads next link' q l := by
  induction l generalizing p q with
  | nil => trivial
  | cons x rest ih =>
    have onward := ih (same x mem_cons_self) (forall_mem_cons.mp same).2 leads.2
    exact ⟨here.trans leads.1,onward⟩

variable [DecidableEq σ]

theorem leadsStore {v} (injective : Function.Injective next) (apart : ∀ x ∈ l, next x ≠ p) (once : l.Nodup)
    (leads : Leads next link p l) : Leads next (update link (slotAfter next p l) v) p l := by
  rcases slotAfterCases next p l with ⟨rfl,_⟩ | ⟨before,x,rfl,slot⟩
  · trivial
  obtain ⟨first,here,_⟩ := leadsAppend.mp leads
  have early : x ∉ before := fun mem => (nodup_append.mp once).2.2 x mem x (mem_singleton_self x) rfl
  have other {q : σ} (ne : q ≠ next x) : update link (slotAfter next p (before ++ [x])) v q = link q := by
    rw [slot,update_of_ne ne]
  have mem : x ∈ before ++ [x] := by simp
  have first' := leadsCongr (other (apart x mem).symm)
    (fun y mem => other fun eq => early (injective eq ▸ mem)) first
  refine leadsAppend.mpr ⟨first',?_,trivial⟩
  rcases slotAfterCases next p before with ⟨rfl,nil⟩ | ⟨before',y,rfl,slot'⟩
  · rw [nil,other (apart x mem).symm]
    exact nil ▸ here
  · rw [slot',other fun eq => early (injective eq ▸ by simp)]
    exact slot' ▸ here

theorem chainStore {v} (injective : Function.Injective next) (apart : ∀ x ∈ before, next x ≠ p)
    (once : before.Nodup) (leads : Leads next link p before)
    (tail : Chain next (update link (slotAfter next p before) v) (slotAfter next p before) rest) :
    Chain next (update link (slotAfter next p before) v) p (before ++ rest) :=
  chainAppend.mpr ⟨leadsStore injective apart once leads,tail⟩

end EclairKernel.SlotList
