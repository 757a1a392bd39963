import Mathlib.Data.List.Pairwise
import Mathlib.Order.MinMax
import Mathlib.Algebra.Order.Ring.Int

/-! Maps from integers to labels as sorted lists of labelled intervals, none of
which could be joined with another. Overriding the map on one interval is
clipping what lies on either side; what it covers is dropped, what it touches
under the same label is joined to it. -/
namespace EclairKernel.IntervalMap
open List

structure Piece (T : Type) where
  lo : Int
  hi : Int
  label : T

variable {T : Type}

def Covers (p : Piece T) (x : Int) : Prop := p.lo ≤ x ∧ x ≤ p.hi

instance (p : Piece T) (x : Int) : Decidable (Covers p x) := inferInstanceAs (Decidable (_ ∧ _))

def Apart (p q : Piece T) : Prop := p.hi < q.lo ∧ (p.label = q.label → p.hi + 1 < q.lo)

structure Tidy (l : List (Piece T)) : Prop where
  nonempty : ∀ p ∈ l, p.lo ≤ p.hi
  apart : l.Pairwise Apart

def Held (l : List (Piece T)) (x : Int) (t : T) : Prop := ∃ p ∈ l, Covers p x ∧ p.label = t

def Over (p : Piece T) (keeps : Prop) (l : List (Piece T)) (x : Int) (t : T) : Prop :=
  (Covers p x ∧ keeps ∧ p.label = t) ∨ (¬Covers p x ∧ Held l x t)

variable {l before after : List (Piece T)} {p q k : Piece T} {x keeps}

theorem Tidy.sublist {l'} (tidy : Tidy l) (sub : l'.Sublist l) : Tidy l' :=
  ⟨fun p mem => tidy.nonempty p (sub.subset mem),tidy.apart.sublist sub⟩

theorem Apart.trans {r} (first : Apart p q) (nonempty : q.lo ≤ q.hi) (second : Apart q r) :
    p.hi + 1 < r.lo := by
  have := first.1
  have := second.1
  omega

theorem apartCovers (apart : Apart p q) (left : Covers p x) : ¬Covers q x := by
  intro right
  have := apart.1
  have := left.2
  have := right.1
  omega

theorem pairwiseCovers (apart : l.Pairwise Apart)
    (left : p ∈ l) (right : q ∈ l) (inLeft : Covers p x) (inRight : Covers q x) : p = q := by
  induction l with
  | nil => cases left
  | cons k rest ih =>
    obtain ⟨ahead,tail⟩ := pairwise_cons.mp apart
    rcases mem_cons.mp left with rfl | later <;> rcases mem_cons.mp right with rfl | later'
    · rfl
    · exact absurd inRight (apartCovers (ahead q later') inLeft)
    · exact absurd inLeft (apartCovers (ahead p later) inRight)
    · exact ih tail later later'

theorem heldUnique (tidy : Tidy l) (mem : p ∈ l) (covers : Covers p x) (t : T) : Held l x t ↔ p.label = t := by
  constructor
  · rintro ⟨q,found,inside,rfl⟩
    rw [pairwiseCovers tidy.apart mem found covers inside]
  · exact fun h => ⟨p,mem,covers,h⟩

theorem heldAppend (l l' : List (Piece T)) (x : Int) (t : T) : Held (l ++ l') x t ↔ Held l x t ∨ Held l' x t := by
  simp only [Held,mem_append,or_and_right,exists_or]

theorem heldSkip (outside : ¬Covers k x) (t : T) : Held (before ++ k::after) x t ↔ Held (before ++ after) x t := by
  have skip : Held (k::after) x t ↔ Held after x t := by simp [Held,outside]
  rw [heldAppend,heldAppend,skip]

theorem overDrop (lo : p.lo ≤ k.lo) (hi : k.hi ≤ p.hi)
    (x : Int) (t : T) : Over p keeps (before ++ after) x t ↔ Over p keeps (before ++ k::after) x t := by
  refine or_congr_right (and_congr_right fun outside => (heldSkip ?_ t).symm)
  intro inside
  exact outside ⟨by have := inside.1; omega,by have := inside.2; omega⟩

theorem overJoin {joined} (keep : keeps)
    (tidy : Tidy (before ++ k::after)) (label : k.label = p.label) (same : joined.label = p.label)
    (left : p.lo - 1 ≤ k.hi) (right : k.lo - 1 ≤ p.hi) (lo : joined.lo = min p.lo k.lo)
    (hi : joined.hi = max p.hi k.hi) (x : Int) (t : T) :
    Over joined keeps (before ++ after) x t ↔ Over p keeps (before ++ k::after) x t := by
  have member : k ∈ before ++ k::after := mem_append_right _ mem_cons_self
  have cover : Covers joined x ↔ Covers p x ∨ Covers k x := by
    simp only [Covers]
    omega
  by_cases inP : Covers p x
  · simp [Over,cover,inP,same]
  by_cases inK : Covers k x
  · simp [Over,cover,inP,inK,keep,heldUnique tidy member inK t,same,label]
  · simp [Over,cover,inP,inK,heldSkip inK t]

def clipLeft (p k : Piece T) : Piece T := { k with hi := min k.hi (p.lo - 1) }
def clipRight (p k : Piece T) : Piece T := { k with lo := max k.lo (p.hi + 1) }

/-- The pieces around an overriding interval: `before` end by it, `after` reach
beyond it, and `split` is the piece of `after`, if any, that reaches over it on
both sides. -/
structure Around (p : Piece T) (before split after : List (Piece T)) : Prop where
  tidyBefore : Tidy (before ++ split)
  tidyAfter : Tidy after
  lower : ∀ k ∈ before, k.lo < p.lo ∧ k.hi ≤ p.hi ∧ (k.label = p.label → k.hi + 1 < p.lo)
  upper : ∀ k ∈ after, p.hi < k.hi ∧ (k.label = p.label → p.hi + 1 < k.lo) ∧ (k.lo < p.lo → k ∈ split)
  both : ∀ k ∈ split, k ∈ after ∧ k.lo < p.lo ∧ k.label ≠ p.label

def override (p : Piece T) (new before split after : List (Piece T)) : List (Piece T) :=
  (before ++ split).map (clipLeft p) ++ new ++ after.map (clipRight p)

section
variable {split new}

theorem apartClip {a b} (p : Piece T) (apart : Apart a b) :
    Apart (clipLeft p a) (clipLeft p b) ∧ Apart (clipRight p a) (clipRight p b) := by
  obtain ⟨less,gap⟩ := apart
  simp only [Apart,clipLeft,clipRight]
  refine ⟨⟨by omega,fun same => ?_⟩,by omega,fun same => ?_⟩
  all_goals
    have := gap same
    omega

theorem heldMap {clip : Piece T → Piece T} {kept : Prop} {t} (covers : ∀ k, Covers (clip k) x ↔ kept ∧ Covers k x)
    (label : ∀ k, (clip k).label = k.label) : Held (l.map clip) x t ↔ kept ∧ Held l x t := by
  simp only [Held,mem_map,exists_exists_and_eq_and,covers,label,and_assoc,and_left_comm (b := kept),exists_and_left]

theorem heldClipLeft (l : List (Piece T)) (p : Piece T) (x : Int) (t : T) :
    Held (l.map (clipLeft p)) x t ↔ x < p.lo ∧ Held l x t := by
  refine heldMap (fun k => ?_) fun k => rfl
  simp only [Covers,clipLeft]
  omega

theorem heldClipRight (l : List (Piece T)) (p : Piece T) (x : Int) (t : T) :
    Held (l.map (clipRight p)) x t ↔ p.hi < x ∧ Held l x t := by
  refine heldMap (fun k => ?_) fun k => rfl
  simp only [Covers,clipRight]
  omega

section
variable (around : Around p before split after)
include around

theorem Around.startsBelow {k} (mem : k ∈ before ++ split) :
    k.lo < p.lo ∧ (k.label = p.label → k.hi + 1 < p.lo) := by
  rcases mem_append.mp mem with early | cut
  · exact ⟨(around.lower k early).1,(around.lower k early).2.2⟩
  · exact ⟨(around.both k cut).2.1,fun same => absurd same (around.both k cut).2.2⟩

theorem overrideNonempty (nonempty : p.lo ≤ p.hi) (placed : ∀ k ∈ new, k = p) :
    ∀ k ∈ override p new before split after, k.lo ≤ k.hi := by
  intro k mem
  rcases mem_append.mp mem with mem | right
  · rcases mem_append.mp mem with left | mid
    · obtain ⟨a,found,rfl⟩ := mem_map.mp left
      have := around.tidyBefore.nonempty a found
      have := (around.startsBelow found).1
      simp only [clipLeft]
      omega
    · rw [placed k mid]
      exact nonempty
  · obtain ⟨a,found,rfl⟩ := mem_map.mp right
    have := around.tidyAfter.nonempty a found
    have := (around.upper a found).1
    simp only [clipRight]
    omega

theorem overrideTidy (nonempty : p.lo ≤ p.hi) (placed : new = [] ∨ new = [p]) :
    Tidy (override p new before split after) := by
  have only : ∀ k ∈ new, k = p := by
    rcases placed with rfl | rfl
    · exact fun k mem => absurd mem not_mem_nil
    · exact fun k mem => mem_singleton.mp mem
  refine ⟨overrideNonempty around nonempty only,?_⟩
  have leftNew : ∀ a ∈ (before ++ split).map (clipLeft p), ∀ b ∈ new, Apart a b := by
    intro a mem b inNew
    obtain ⟨k,found,rfl⟩ := mem_map.mp mem
    rw [only b inNew]
    obtain ⟨below,gap⟩ := around.startsBelow found
    refine ⟨?_,fun same => ?_⟩
    · simp only [clipLeft]
      omega
    · have := gap same
      simp only [clipLeft]
      omega
  have toRight : ∀ a ∈ (before ++ split).map (clipLeft p) ++ new, ∀ b ∈ after.map (clipRight p), Apart a b := by
    intro a mem b inAfter
    obtain ⟨k,found,rfl⟩ := mem_map.mp inAfter
    rcases mem_append.mp mem with left | mid
    · obtain ⟨j,_,rfl⟩ := mem_map.mp left
      refine ⟨?_,fun _ => ?_⟩ <;>
      · simp only [clipLeft,clipRight]
        omega
    · rw [only a mid]
      refine ⟨?_,fun same => ?_⟩
      · simp only [clipRight]
        omega
      · have := (around.upper k found).2.1 same.symm
        simp only [clipRight]
        omega
  refine pairwise_append.mpr ⟨pairwise_append.mpr ⟨?_,?_,leftNew⟩,?_,toRight⟩
  · exact pairwise_map.mpr (around.tidyBefore.apart.imp fun apart => (apartClip p apart).1)
  · rcases placed with rfl | rfl
    · exact List.Pairwise.nil
    · exact pairwise_singleton Apart p
  · exact pairwise_map.mpr (around.tidyAfter.apart.imp fun apart => (apartClip p apart).2)

theorem Around.heldBelow {x} (below : x < p.lo) (t : T) :
    Held (before ++ split) x t ↔ Held (before ++ after) x t := by
  simp only [heldAppend]
  refine or_congr_right ⟨?_,?_⟩
  · rintro ⟨k,mem,rest⟩
    exact ⟨k,(around.both k mem).1,rest⟩
  · rintro ⟨k,mem,covers,label⟩
    have := covers.1
    exact ⟨k,(around.upper k mem).2.2 (by omega),covers,label⟩

theorem Around.heldAbove {x} (above : p.hi < x) (t : T) : Held after x t ↔ Held (before ++ after) x t := by
  rw [heldAppend]
  constructor
  · exact .inr
  · rintro (⟨k,mem,covers,_⟩ | held)
    · have := (around.lower k mem).2.1
      have := covers.2
      omega
    · exact held

theorem overrideHeld (nonempty : p.lo ≤ p.hi) {keeps}
    (placed : ∀ k, k ∈ new ↔ keeps ∧ k = p) (x : Int) (t : T) :
    Held (override p new before split after) x t ↔ Over p keeps (before ++ after) x t := by
  have inNew : Held new x t ↔ Covers p x ∧ keeps ∧ p.label = t := by
    simp only [Held,placed]
    exact ⟨fun ⟨_,⟨keep,rfl⟩,covers,label⟩ => ⟨covers,keep,label⟩,fun ⟨covers,keep,label⟩ => ⟨p,⟨keep,rfl⟩,covers,label⟩⟩
  simp only [override,heldAppend (_ ++ _) (after.map _),heldAppend _ new,heldClipLeft,heldClipRight,inNew,Over]
  rcases lt_or_ge x p.lo with below | notBelow
  · have outside : ¬Covers p x := fun covers => by have := covers.1; omega
    have notAbove : ¬p.hi < x := by omega
    simp only [below,outside,notAbove,false_and,or_false,not_false_eq_true,false_or,around.heldBelow below t]
  rcases lt_or_ge p.hi x with above | inside
  · have outside : ¬Covers p x := fun covers => by have := covers.2; omega
    simp only [notBelow.not_gt,outside,above,false_and,false_or,not_false_eq_true,around.heldAbove above t]
  · have covers : Covers p x := ⟨notBelow,inside⟩
    simp only [notBelow.not_gt,covers,inside.not_gt,false_and,false_or,not_true_eq_false]

end

end

def labelAt (l : List (Piece T)) (x : Int) : Option T := (l.find? fun p => decide (Covers p x)).map Piece.label

theorem labelAtSome (tidy : Tidy l) (x : Int) (t : T) : labelAt l x = some t ↔ Held l x t := by
  simp only [labelAt,Option.map_eq_some_iff]
  constructor
  · rintro ⟨p,found,label⟩
    exact ⟨p,mem_of_find?_eq_some found,by simpa using find?_some found,label⟩
  · rintro ⟨p,mem,covers,rfl⟩
    cases found : l.find? fun p => decide (Covers p x) with
    | none => exact absurd covers (by simpa using find?_eq_none.mp found p mem)
    | some q =>
      have inside : Covers q x := by simpa using find?_some found
      exact ⟨q,rfl,by rw [pairwiseCovers tidy.apart mem (mem_of_find?_eq_some found) covers inside]⟩

theorem labelAtOver {l'} (tidy : Tidy l) (tidy' : Tidy l')
    [Decidable keeps] (held : ∀ x t, Held l' x t ↔ Over p keeps l x t) (x : Int) :
    labelAt l' x = if Covers p x then (if keeps then some p.label else none) else labelAt l x := by
  refine Option.ext fun t => ?_
  rw [labelAtSome tidy',held,Over]
  by_cases inside : Covers p x
  · by_cases keep : keeps
    · simp [inside]
    · simp [inside]
  · simp [inside,labelAtSome tidy]

end EclairKernel.IntervalMap
