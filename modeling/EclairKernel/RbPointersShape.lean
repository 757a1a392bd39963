import EclairKernel.RbPointers
import EclairKernel.RbtreeBalance

/-! A tree in memory: the elements of the tree are the addresses of its nodes, and every word
says what the tree says. A place in the tree is a subtree with the path above it; each
operation of the code at a place changes the tree there and nothing else. -/
namespace EclairKernel.RbPointers
open List Rbtree
open BitVec (getElem_and getElem_not getElem_or)

section
variable {w q m k d : BitVec 32}

theorem maskedOr (apart : q &&& m = 0#32) : (w &&& m ||| q) &&& ~~~m = q := by
  ext i hi
  have bit : (q[i] && m[i]) = false := by rw [← getElem_and,apart,BitVec.getElem_zero]
  simp only [getElem_and,getElem_or,getElem_not]
  revert bit
  cases q[i] <;> cases m[i] <;> simp

theorem insideOr (sub : k &&& m = k) (apart : q &&& m = 0#32) : (w &&& m ||| q) &&& k = w &&& k := by
  ext i hi
  have bit : (q[i] && m[i]) = false := by rw [← getElem_and,apart,BitVec.getElem_zero]
  have bit' : (k[i] && m[i]) = k[i] := by rw [← getElem_and,sub]
  simp only [getElem_and,getElem_or]
  revert bit bit'
  cases q[i] <;> cases m[i] <;> cases k[i] <;> simp

theorem replacedOutside (sub : k &&& m = k) (small : d &&& m = d) : (w &&& ~~~k ||| d) &&& ~~~m = w &&& ~~~m := by
  ext i hi
  have bit : (d[i] && m[i]) = d[i] := by rw [← getElem_and,small]
  have bit' : (k[i] && m[i]) = k[i] := by rw [← getElem_and,sub]
  simp only [getElem_and,getElem_or,getElem_not]
  revert bit bit'
  cases d[i] <;> cases m[i] <;> cases k[i] <;> simp

theorem replacedInside (small : d &&& k = d) : (w &&& ~~~k ||| d) &&& k = d := by
  ext i hi
  have bit : (d[i] && k[i]) = d[i] := by rw [← getElem_and,small]
  simp only [getElem_and,getElem_or,getElem_not]
  revert bit
  cases d[i] <;> cases k[i] <;> simp

theorem orReplaced : w ||| k = w &&& ~~~k ||| k := by
  ext i hi
  simp only [getElem_and,getElem_or,getElem_not]
  cases k[i] <;> simp

end

def bit : Color → BitVec 32
  | .red => 0
  | .black => 1

structure Cell (n : RbNode) (parent : Ptr) (c : Color) (s : Side) (near far : Ptr) : Prop where
  parent : n.parent = parent
  color : n.color = bit c
  near : n.child s = near
  far : n.child s.other = far

def Aligned (p : Ptr) : Prop := p &&& 3 = 0#32

section
variable {n p q near far c c' s}

@[simp] theorem otherOther (s : Side) : s.other.other = s := by cases s <;> rfl
section
variable (cell : Cell n p c s near far)
include cell

theorem Cell.flip : Cell n p c s.other far near :=
  ⟨cell.parent,cell.color,cell.far,(otherOther s).symm ▸ cell.near⟩

theorem Cell.setParent (aligned : Aligned q) : Cell (n.setParent q) q c s near far where
  parent := maskedOr aligned
  color := (insideOr (by decide) aligned).trans cell.color
  near := by cases s <;> exact cell.near
  far := by cases s <;> exact cell.far

theorem Cell.setNear (q : Ptr) : Cell (n.setChild q s) p c s q far := by
  cases s <;> exact ⟨cell.parent,cell.color,rfl,cell.far⟩

theorem Cell.setFar (q : Ptr) : Cell (n.setChild q s.other) p c s near q := by
  cases s <;> exact ⟨cell.parent,cell.color,cell.near,rfl⟩

theorem Cell.setColor (c' : Color) : Cell (n.setColor (bit c')) p c' s near far where
  parent := (replacedOutside (by decide) (by cases c' <;> rfl)).trans cell.parent
  color := replacedInside (by cases c' <;> rfl)
  near := by cases s <;> exact cell.near
  far := by cases s <;> exact cell.far

end

theorem setRedColor (n : RbNode) : n.setRed = n.setColor (bit .red) := by simp [RbNode.setRed,RbNode.setColor,bit]

theorem setBlackColor (n : RbNode) : n.setBlack = n.setColor (bit .black) := congrArg (RbNode.mk · _ _) orReplaced

end

def branch (s : Side) (c : Color) (near : Rbtree.Tree Ptr) (x : Ptr) (far : Rbtree.Tree Ptr) : Rbtree.Tree Ptr :=
  match s with
  | .left => .node c near x far
  | .right => .node c far x near

def frame (s : Side) (c : Color) (x : Ptr) (far : Rbtree.Tree Ptr) : Frame Ptr :=
  match s with
  | .left => .left c x far
  | .right => .right c far x

def addr : Rbtree.Tree Ptr → Ptr
  | .leaf => 0
  | .node _ _ x _ => x

def up : List (Frame Ptr) → Ptr
  | [] => 0
  | .left _ x _::_ => x
  | .right _ _ x::_ => x

def outer : List (Frame Ptr) → List Ptr
  | [] => []
  | .left _ x r::path => x::(inorder r ++ outer path)
  | .right _ l x::path => x::(inorder l ++ outer path)

def Fields (h : Memory) : Rbtree.Tree Ptr → Ptr → Prop
  | .leaf, _ => True
  | .node c l x r, p => Cell (h.node x) p c .left (addr l) (addr r) ∧ Fields h l x ∧ Fields h r x

def Above (h : Memory) : List (Frame Ptr) → Ptr → Prop
  | [], a => h.root = a
  | .left c x r::path, a => Cell (h.node x) (up path) c .left a (addr r) ∧ Fields h r x ∧ Above h path x
  | .right c l x::path, a => Cell (h.node x) (up path) c .left (addr l) a ∧ Fields h l x ∧ Above h path x

structure At (h : Memory) (t : Rbtree.Tree Ptr) (path : List (Frame Ptr)) : Prop where
  sub : Fields h t (up path)
  above : Above h path (addr t)
  once : (inorder t ++ outer path).Nodup
  valid : ∀ x ∈ inorder t ++ outer path, x ≠ 0 ∧ Aligned x

def Rep (h : Memory) (t : Rbtree.Tree Ptr) : Prop := At h t []

variable {h h' s c a b t o x p q path}

theorem branchOther (s : Side) (c : Color) (a : Rbtree.Tree Ptr) (x : Ptr) (b : Rbtree.Tree Ptr) : branch s.other c a x b = branch s c b x a := by
  cases s <;> rfl

@[simp] theorem addrBranch : addr (branch s c a x b) = x := by cases s <;> rfl
@[simp] theorem upFrame : up (frame s c x o::path) = x := by cases s <;> rfl
@[simp] theorem outerFrame : outer (frame s c x o::path) = x::(inorder o ++ outer path) := by cases s <;> rfl
@[simp] theorem plugFrame : plug t (frame s c x o::path) = plug (branch s c t x o) path := by cases s <;> rfl

theorem frameCases (f : Frame Ptr) : ∃ s c x o, f = frame s c x o := by
  cases f with
  | left c x r => exact ⟨.left,c,x,r,rfl⟩
  | right c l x => exact ⟨.right,c,x,l,rfl⟩

theorem nodeCases (s : Side) (t : Rbtree.Tree Ptr) : t = .leaf ∨ ∃ c a x b, t = branch s c a x b := by
  cases t with
  | leaf => exact .inl rfl
  | node c l x r =>
    cases s with
    | left => exact .inr ⟨c,l,x,r,rfl⟩
    | right => exact .inr ⟨c,r,x,l,rfl⟩

theorem inorderBranch : (inorder (branch s c a x b)).Perm (x::(inorder a ++ inorder b)) := by
  cases s with
  | left => exact perm_middle
  | right => exact perm_middle.trans (perm_append_comm.cons x)

theorem memBranch {y} : y ∈ inorder (branch s c a x b) ↔ y = x ∨ y ∈ inorder a ∨ y ∈ inorder b := by
  simp [inorderBranch.mem_iff]

theorem fieldsBranch : Fields h (branch s c a x b) p ↔ Cell (h.node x) p c s (addr a) (addr b) ∧ Fields h a x ∧ Fields h b x := by
  cases s with
  | left => exact Iff.rfl
  | right => exact ⟨fun ⟨cell,sub,sub'⟩ => ⟨cell.flip,sub',sub⟩,fun ⟨cell,sub,sub'⟩ => ⟨cell.flip,sub',sub⟩⟩

theorem aboveFrame : Above h (frame s c x o::path) p ↔ Cell (h.node x) (up path) c s p (addr o) ∧ Fields h o x ∧ Above h path x := by
  cases s with
  | left => exact Iff.rfl
  | right => exact ⟨fun ⟨cell,rest⟩ => ⟨cell.flip,rest⟩,fun ⟨cell,rest⟩ => ⟨cell.flip,rest⟩⟩

theorem framePerm : (inorder (branch s c t x o) ++ outer path).Perm (inorder t ++ outer (frame s c x o::path)) := by
  rw [outerFrame]
  refine (inorderBranch.append_right _).trans ?_
  simp only [cons_append,append_assoc]
  exact perm_middle.symm

theorem atFrame : At h t (frame s c x o::path) ↔ At h (branch s c t x o) path := by
  constructor
  · rintro ⟨sub,above,once,valid⟩
    rw [upFrame] at sub
    obtain ⟨cell,sub',above⟩ := aboveFrame.mp above
    exact ⟨fieldsBranch.mpr ⟨cell,sub,sub'⟩,addrBranch.symm ▸ above,framePerm.nodup_iff.mpr once,
      fun y mem => valid y (framePerm.mem_iff.mp mem)⟩
  · rintro ⟨sub,above,once,valid⟩
    rw [addrBranch] at above
    obtain ⟨cell,sub,sub'⟩ := fieldsBranch.mp sub
    exact ⟨upFrame.symm ▸ sub,aboveFrame.mpr ⟨cell,sub',above⟩,framePerm.nodup_iff.mp once,
      fun y mem => valid y (framePerm.mem_iff.mpr mem)⟩

theorem atPlug : At h t path ↔ Rep h (plug t path) := by
  induction path generalizing t with
  | nil => exact Iff.rfl
  | cons f path ih =>
    obtain ⟨s,c,x,o,rfl⟩ := frameCases f
    rw [plugFrame]
    exact atFrame.trans ih

theorem fieldsKeep (same : ∀ z ∈ inorder t, h'.node z = h.node z) (sub : Fields h t p) : Fields h' t p := by
  induction t generalizing p with
  | leaf => trivial
  | node c l x r ihl ihr =>
    obtain ⟨cell,left,right⟩ := sub
    refine ⟨?_,ihl (fun z mem => same z (by simp [inorder,mem])) left,ihr (fun z mem => same z (by simp [inorder,mem])) right⟩
    rw [same x (by simp [inorder])]
    exact cell

theorem aboveKeep (same : ∀ z ∈ outer path, h'.node z = h.node z) (root : h'.root = h.root) (above : Above h path p) :
    Above h' path p := by
  induction path generalizing p with
  | nil => exact root.trans above
  | cons f path ih =>
    obtain ⟨s,c,x,o,rfl⟩ := frameCases f
    rw [outerFrame] at same
    obtain ⟨cell,sub,above⟩ := aboveFrame.mp above
    refine aboveFrame.mpr ⟨?_,fieldsKeep (fun z mem => same z (by simp [mem])) sub,ih (fun z mem => same z (by simp [mem])) above⟩
    rw [same x mem_cons_self]
    exact cell

theorem readSome (there : x ≠ 0) : read x h = some (h.node x) := if_neg there

theorem writeSome (there : x ≠ 0) (f : RbNode → RbNode) : write x f h = some (put x (f (h.node x)) h) := by
  rw [write,readSome there]
  rfl

@[simp] theorem putSelf (n : RbNode) : (put x n h).node x = n := Function.update_self ..
theorem putOther {z} (n : RbNode) (ne : z ≠ x) : (put x n h).node z = h.node z := Function.update_of_ne ne ..

section
variable (here : At h (branch s c a x b) path)
include here

theorem At.cell : Cell (h.node x) (up path) c s (addr a) (addr b) := (fieldsBranch.mp here.sub).1

theorem At.there : x ≠ 0 ∧ Aligned x := here.valid x (by simp [memBranch])

theorem At.flip : At h (branch s.other c b x a) path := (branchOther s c b x a).symm ▸ here

theorem At.across : At h b (frame s.other c x a::path) := atFrame.mpr here.flip

theorem At.nearChild : child s x h = some (addr a) := by
  rw [child,readSome here.there.1]
  exact congrArg some here.cell.near

theorem At.farChild : child s.other x h = some (addr b) := by
  rw [child,readSome here.there.1]
  exact congrArg some here.cell.far

theorem At.parentOf : rbParent x h = some (up path) := by
  rw [rbParent,readSome here.there.1]
  exact congrArg some here.cell.parent

theorem At.colorOf : rbColor x h = some (bit c) := by
  rw [rbColor,readSome here.there.1]
  exact congrArg some here.cell.color

end

theorem At.back (here : At h b (frame s.other c x a::path)) : At h (branch s c a x b) path := by
  have whole := (atFrame.mp here).flip
  rwa [otherOther] at whole

theorem upAligned (valid : ∀ x ∈ outer path, x ≠ 0 ∧ Aligned x) : Aligned (up path) := by
  cases path with
  | nil => rfl
  | cons f path =>
    obtain ⟨s,c,x,o,rfl⟩ := frameCases f
    rw [upFrame]
    exact (valid x (by simp)).2

theorem At.apart (here : At h (branch s c a x b) path) : (x ∉ inorder a ∧ x ∉ inorder b ∧ x ∉ outer path) ∧
    (∀ z ∈ inorder a, z ∉ inorder b ∧ z ∉ outer path) ∧ (∀ z ∈ inorder b, z ∉ outer path) ∧
    (inorder a).Nodup ∧ (inorder b).Nodup ∧ (outer path).Nodup := by
  have once := (inorderBranch.append_right (outer path)).nodup_iff.mp here.once
  grind

theorem addrMem (there : addr t ≠ 0) : addr t ∈ inorder t := by
  cases t with
  | leaf => exact absurd rfl there
  | node c l x r => simp [addr,inorder]

theorem reparent (sub : Fields h t p) (once : (inorder t).Nodup) (valid : ∀ x ∈ inorder t, x ≠ 0) (aligned : Aligned q) :
    ∃ h', unlessNull (addr t) (rbSetParent (addr t) q) h = some h' ∧ Fields h' t q ∧
      (∀ z, z ∉ inorder t → h'.node z = h.node z) ∧ h'.root = h.root := by
  cases t with
  | leaf => exact ⟨h,rfl,trivial,fun _ _ => rfl,rfl⟩
  | node c l x r =>
    have there := valid x (by simp [inorder])
    obtain ⟨cell,left,right⟩ := sub
    have apart {z : Ptr} (mem : z ∈ inorder l ∨ z ∈ inorder r) : z ≠ x := by
      simp only [inorder] at once
      grind
    refine ⟨put x ((h.node x).setParent q) h,(if_neg there).trans (writeSome there _),⟨?_,?_,?_⟩,fun z absent => ?_,rfl⟩
    · rw [putSelf]
      exact cell.setParent aligned
    · exact fieldsKeep (fun z mem => putOther _ (apart (.inl mem))) left
    · exact fieldsKeep (fun z mem => putOther _ (apart (.inr mem))) right
    · exact putOther _ fun eq => absent (by simp [inorder,eq])

theorem relinkAbove (s : Side) {old new} (above : Above h path old) (there : old ≠ 0) (absent : old ∉ outer path)
    (once : (outer path).Nodup) (valid : ∀ x ∈ outer path, x ≠ 0 ∧ Aligned x) :
    ∃ h', relink s (up path) old new h = some h' ∧ Above h' path new ∧ ∀ z, z ∉ outer path → h'.node z = h.node z := by
  cases path with
  | nil => exact ⟨{ h with root := new },rfl,rfl,fun _ _ => rfl⟩
  | cons f path =>
    obtain ⟨t,c,x,o,rfl⟩ := frameCases f
    rw [outerFrame] at absent once valid ⊢
    obtain ⟨cell,sub,above⟩ := aboveFrame.mp above
    obtain ⟨fresh,once⟩ := nodup_cons.mp once
    have up' := (valid x mem_cons_self).1
    have sibling : old ≠ addr o := fun eq => absent (mem_cons_of_mem x (mem_append_left _ (eq ▸ addrMem (eq ▸ there))))
    have others {z : Ptr} (mem : z ∈ inorder o ++ outer path) : z ≠ x := fun eq => fresh (eq ▸ mem)
    have ran : relink s x old new h = some (put x ((h.node x).setChild new t) h) := by
      rw [relink,if_neg up',child,readSome up']
      by_cases side : s = t
      · subst side
        exact (if_pos cell.near.symm).trans (writeSome up' _)
      have side' : s = t.other := by cases s <;> cases t <;> simp_all [Side.other]
      subst side'
      rw [otherOther]
      exact (if_neg fun eq => sibling (eq.trans cell.far)).trans (writeSome up' _)
    rw [upFrame]
    refine ⟨_,ran,aboveFrame.mpr ⟨?_,?_,?_⟩,fun z absent => putOther _ fun eq => absent (eq ▸ mem_cons_self)⟩
    · rw [putSelf]
      exact cell.setNear new
    · exact fieldsKeep (fun z mem => putOther _ (others (mem_append_left _ mem))) sub
    · exact aboveKeep (fun z mem => putOther _ (others (mem_append_right _ mem))) rfl above

section
variable (here : At h (branch s c a x b) path)
include here

theorem recolor (c' : Color) : At (put x ((h.node x).setColor (bit c')) h) (branch s c' a x b) path := by
  obtain ⟨cell,near,far⟩ := fieldsBranch.mp here.sub
  obtain ⟨⟨left,right,above⟩,_⟩ := here.apart
  have same : inorder (branch s c' a x b) = inorder (branch s c a x b) := by cases s <;> rfl
  refine ⟨fieldsBranch.mpr ⟨?_,?_,?_⟩,?_,same ▸ here.once,same ▸ here.valid⟩
  · rw [putSelf]
    exact cell.setColor c'
  · exact fieldsKeep (fun z mem => putOther _ fun eq => left (eq ▸ mem)) near
  · exact fieldsKeep (fun z mem => putOther _ fun eq => right (eq ▸ mem)) far
  · have whole := here.above
    rw [addrBranch] at whole ⊢
    exact aboveKeep (fun z mem => putOther _ fun eq => above (eq ▸ mem)) rfl whole

theorem setRedAt : ∃ h', rbSetRed x h = some h' ∧ At h' (branch s .red a x b) path :=
  ⟨_,writeSome here.there.1 _,setRedColor (h.node x) ▸ recolor here .red⟩

theorem setBlackAt : ∃ h', rbSetBlack x h = some h' ∧ At h' (branch s .black a x b) path :=
  ⟨_,writeSome here.there.1 _,setBlackColor (h.node x) ▸ recolor here .black⟩

theorem setColorAt (c' : Color) : ∃ h', rbSetColor x (bit c') h = some h' ∧ At h' (branch s c' a x b) path :=
  ⟨_,writeSome here.there.1 _,recolor here c'⟩

end

theorem rotateAt {y c' l} (here : At h (branch s c l x (branch s c' a y b)) path) :
    ∃ h', rbRotate s x h = some h' ∧ At h' (branch s c' (branch s c l x a) y b) path := by
  obtain ⟨cell,outside,low⟩ := fieldsBranch.mp here.sub
  obtain ⟨cell',inside,far⟩ := fieldsBranch.mp low
  have lower := here.across
  obtain ⟨⟨xl,xr,xo⟩,parts,partsr,_,_,onceo⟩ := here.apart
  obtain ⟨⟨ya,yb,yo⟩,parta,partb,oncea,_,_⟩ := lower.apart
  simp only [memBranch] at xr parts partsr yo parta partb
  obtain ⟨x0,xAligned⟩ := here.there
  obtain ⟨y0,yAligned⟩ := lower.there
  have validOuter : ∀ z ∈ outer path, z ≠ 0 ∧ Aligned z := fun z mem => here.valid z (by simp [mem])
  have valida : ∀ z ∈ inorder a, z ≠ 0 := fun z mem => (here.valid z (by simp [memBranch,mem])).1
  -- node->rb_right = right->rb_left
  let h1 := put x ((h.node x).setChild (addr a) s.other) h
  have inside1 : Fields h1 a y := fieldsKeep (fun z mem => putOther _ (by grind)) inside
  obtain ⟨h2,ran2,inside2,keep2,root2⟩ := reparent inside1 oncea valida xAligned
  -- right->rb_left = node; rb_set_parent(right, parent)
  let h3 := put y ((h2.node y).setChild x s) h2
  let h4 := put y ((h3.node y).setParent (up path)) h3
  have keep4 (z : Ptr) (nx : z ≠ x) (ny : z ≠ y) (na : z ∉ inorder a) : h4.node z = h.node z := by
    rw [putOther _ ny,putOther _ ny,keep2 z na,putOther _ nx]
  have above4 : Above h4 path x := by
    have whole := here.above
    rw [addrBranch] at whole
    exact aboveKeep (fun z mem => keep4 z (by grind) (by grind) (by grind)) root2 whole
  obtain ⟨h5,ran5,above5,keep5⟩ := @relinkAbove _ _ s x y above4 x0 xo onceo validOuter
  refine ⟨put x ((h5.node x).setParent y) h5,?_,?_⟩
  · have ran1 : setChild s.other x (addr a) h = some h1 := writeSome x0 _
    have inner : child s y h1 = some (addr a) := by
      rw [child,readSome y0,putOther _ (by grind)]
      exact congrArg some cell'.near
    have ran2' : unlessNull (addr a) (fun h => (child s y h).bind fun p => rbSetParent p x h) h1 = some h2 := by
      rw [← ran2]
      unfold unlessNull
      split
      · rfl
      · exact congrArg (·.bind fun p => rbSetParent p x h1) inner
    have ran3 : setChild s y x h2 = some h3 := writeSome y0 _
    have ran4 : rbSetParent y (up path) h3 = some h4 := writeSome y0 _
    have right := here.farChild
    rw [addrBranch] at right
    simp only [rbRotate,right,here.parentOf,lower.nearChild,ran1,ran2',ran3,ran4,ran5,bind,Option.bind_some]
    exact writeSome x0 _
  · have xNode : h5.node x = (h.node x).setChild (addr a) s.other := by
      rw [keep5 x xo,putOther _ (by grind),putOther _ (by grind),keep2 x (by grind),putSelf]
    have yNode : h5.node y = ((h.node y).setChild x s).setParent (up path) := by
      rw [keep5 y (by grind),putSelf,putSelf,keep2 y ya,putOther _ (by grind)]
    have keep (z : Ptr) (nx : z ≠ x) (ny : z ≠ y) (na : z ∉ inorder a) (no : z ∉ outer path) :
        (put x ((h5.node x).setParent y) h5).node z = h.node z := by
      rw [putOther _ nx,keep5 z no,keep4 z nx ny na]
    have same : inorder (branch s c' (branch s c l x a) y b) = inorder (branch s c l x (branch s c' a y b)) := by
      cases s <;> simp [branch,inorder]
    refine ⟨fieldsBranch.mpr ⟨?_,fieldsBranch.mpr ⟨?_,?_,?_⟩,?_⟩,?_,same ▸ here.once,same ▸ here.valid⟩
    · rw [putOther _ (by grind),yNode,addrBranch]
      exact (cell'.setNear x).setParent (upAligned validOuter)
    · rw [putSelf,xNode]
      exact (cell.setFar (addr a)).setParent yAligned
    · exact fieldsKeep (fun z mem => keep z (by grind) (by grind) (by grind) (by grind)) outside
    · refine fieldsKeep (fun z mem => ?_) inside2
      rw [putOther _ (by grind),keep5 z (by grind),putOther _ (by grind),putOther _ (by grind)]
    · exact fieldsKeep (fun z mem => keep z (by grind) (by grind) (by grind) (by grind)) far
    · rw [addrBranch]
      exact aboveKeep (fun z mem => putOther _ (by grind)) rfl above5

end EclairKernel.RbPointers
