import EclairKernel.RbPointersErase

/-! rb_erase: the node, or its successor, is taken out of its place, and the successor put
in the place of the node. -/
namespace EclairKernel.RbPointers
open List Option Rbtree
open Fuel

section
variable {h s side c cp a b t l r o x p e path rest} {q spot}

theorem atAppend : At h t (path ++ q) ↔ At h (plug t path) q := by
  induction path generalizing t with
  | nil => exact Iff.rfl
  | cons f path ih =>
    obtain ⟨s,c,x,o,rfl⟩ := frameCases f
    rw [plugFrame]
    exact atFrame.trans ih

theorem plugPerm : (inorder (plug t path) ++ outer q).Perm (inorder t ++ outer (path ++ q)) := by
  induction path generalizing t with
  | nil => exact .refl _
  | cons f path ih =>
    obtain ⟨s,c,x,o,rfl⟩ := frameCases f
    rw [plugFrame]
    exact ih.trans framePerm

theorem outerAppend (path q : List (Frame Ptr)) : outer (path ++ q) = outer path ++ outer q := by
  induction path with
  | nil => rfl
  | cons f path ih =>
    obtain ⟨s,c,x,o,rfl⟩ := frameCases f
    rw [cons_append,outerFrame,outerFrame,ih,cons_append,append_assoc]

theorem At.without {h'} (here : At h (branch s c .leaf x b) path) (sub : Fields h' b (up path)) (above : Above h' path (addr b)) :
    At h' b path := by
  have perm : (inorder (branch s c .leaf x b) ++ outer path).Perm (x::(inorder b ++ outer path)) :=
    inorderBranch.append_right (outer path)
  refine ⟨sub,above,(nodup_cons.mp (perm.nodup_iff.mp here.once)).2,fun z mem => ?_⟩
  exact here.valid z (perm.mem_iff.mpr (mem_cons_of_mem x mem))

theorem eraseSingleAt (here : At h (branch s c .leaf x b) path) :
    ∃ h', eraseSingle x (addr b) h = some (⟨bit c,addr b,up path⟩,h') ∧ At h' b path := by
  obtain ⟨cell,_,sub⟩ := fieldsBranch.mp here.sub
  obtain ⟨⟨_,xb,xo⟩,_,partb,_,onceb,onceo⟩ := here.apart
  have validOuter : ∀ z ∈ outer path, z ≠ 0 ∧ Aligned z := fun z mem => here.valid z (by simp [mem])
  have validb : ∀ z ∈ inorder b, z ≠ 0 := fun z mem => (here.valid z (by simp [memBranch,mem])).1
  obtain ⟨h1,ran1,sub1,keep1,root1⟩ := reparent sub onceb validb (upAligned validOuter)
  have above1 : Above h1 path x := by
    have whole := here.above
    rw [addrBranch] at whole
    exact aboveKeep (fun z mem => keep1 z fun mem' => partb z mem' mem) root1 whole
  obtain ⟨h2,ran2,above2,keep2⟩ := @relinkAbove _ _ .left x (addr b) above1 here.there.1 xo onceo validOuter
  refine ⟨h2,?_,here.without (fieldsKeep (fun z mem => keep2 z (partb z mem)) sub1) above2⟩
  simp [eraseSingle,here.parentOf,here.colorOf,ran1,ran2]

theorem dropAt (here : At h (branch side c .leaf e b) (frame s cp p o::rest)) :
    ∃ h1 h2, unlessNull (addr b) (rbSetParent (addr b) p) h = some h1 ∧ setChild s p (addr b) h1 = some h2 ∧
      At h2 b (frame s cp p o::rest) := by
  obtain ⟨cell,_,sub⟩ := fieldsBranch.mp here.sub
  obtain ⟨cell',sub',above⟩ := aboveFrame.mp here.above
  have parent := atFrame.mp here
  obtain ⟨⟨eb,_,_⟩,_,partb,_,onceb,_⟩ := here.apart
  obtain ⟨⟨_,po,pout⟩,_⟩ := parent.apart
  rw [outerFrame] at partb
  have validb : ∀ z ∈ inorder b, z ≠ 0 := fun z mem => (here.valid z (by simp [memBranch,mem])).1
  obtain ⟨h1,ran1,sub1,keep1,root1⟩ := reparent sub onceb validb parent.there.2
  have pb : p ∉ inorder b := fun mem => partb p mem mem_cons_self
  have keep (z : Ptr) (np : z ≠ p) (nb : z ∉ inorder b) : (put p ((h1.node p).setChild (addr b) s) h1).node z = h.node z := by
    rw [putOther _ np,keep1 z nb]
  refine ⟨h1,_,ran1,writeSome parent.there.1 _,here.without ?_ (aboveFrame.mpr ⟨?_,?_,?_⟩)⟩
  · rw [upFrame]
    exact fieldsKeep (fun z mem => putOther _ fun eq => pb (eq ▸ mem)) sub1
  · rw [putSelf,keep1 p pb]
    exact cell'.setNear _
  · exact fieldsKeep (fun z mem => keep z (fun eq => po (eq ▸ mem)) fun mem' => partb z mem' (by simp [mem])) sub'
  · exact aboveKeep (fun z mem => keep z (fun eq => pout (eq ▸ mem)) fun mem' => partb z mem' (by simp [mem])) root1 above

theorem leftmostEnds (here : At h t (path ++ q)) (found : leftmost t path = some spot) :
    Ends (leftmostLoop · (addr t) h) spot.elem ∧ At h (branch .left spot.color .leaf spot.elem spot.child) (spot.path ++ q) := by
  fun_induction leftmost t path with
  | case1 => cases found
  | case2 c x r path =>
    cases found
    have node : At h (branch .left c .leaf x r) (path ++ q) := here
    refine ⟨endsOnce fun fuel => ?_,here⟩
    simp only [leftmostLoop,addr,node.nearChild,bind,bind_some,if_true]
  | case3 c cl ll lx lr x r path ih =>
    have node : At h (branch .left c (.node cl ll lx lr) x r) (path ++ q) := here
    have lower : At h (branch .left cl ll lx lr) (frame .left c x r::(path ++ q)) := atFrame.mpr node
    obtain ⟨ends,spotted⟩ := ih lower found
    refine ⟨endsSucc (fun fuel => ?_) ends,spotted⟩
    simp only [leftmostLoop,addr,node.nearChild,lower.there.1,bind,bind_some,if_false]

theorem leftmostPath (found : leftmost t path = some spot) :
    spot.path = path ∨ ∃ c x r q, spot.path = frame .left c x r::q := by
  fun_induction leftmost t path with
  | case1 => cases found
  | case2 c x r path =>
    cases found
    exact .inl rfl
  | case3 c cl ll lx lr x r path ih =>
    rcases ih found with same | longer
    · exact .inr ⟨c,x,r,path,same⟩
    · exact .inr longer

theorem eraseAtEnds {t'} (here : At h t path) (result : eraseAt c t path = some t') :
    ∃ h', Ends (fun fuel => if bit c = RB_BLACK then rbEraseColor fuel (addr t) (up path) h else some h) h' ∧ Rep h' t' := by
  cases c with
  | red =>
    cases result
    exact ⟨h,endsDone,atPlug.mp here⟩
  | black => exact eraseColorEnds here result

section
variable (here : At h (branch .left c l x r) path)
include here

theorem takePlaceAt (low : l ≠ .leaf)
    (fresh : e ∉ inorder (branch .left c l x r) ++ outer path) (there : e ≠ 0) (aligned : Aligned e) :
    ∃ h', takePlace x e h = some h' ∧ At h' (branch .left c l e r) path := by
  obtain ⟨cell,left,right⟩ := fieldsBranch.mp here.sub
  obtain ⟨⟨xl,xr,xo⟩,partl,partr,oncel,oncer,onceo⟩ := here.apart
  simp only [mem_append,memBranch] at fresh
  have validOuter : ∀ z ∈ outer path, z ≠ 0 ∧ Aligned z := fun z mem => here.valid z (by simp [mem])
  have validl : ∀ z ∈ inorder l, z ≠ 0 := fun z mem => (here.valid z (by simp [memBranch,mem])).1
  have validr : ∀ z ∈ inorder r, z ≠ 0 := fun z mem => (here.valid z (by simp [memBranch,mem])).1
  have lowAddr : addr l ≠ 0 := fun null => low (leafOfAddr validl null)
  let h1 := put e (h.node x) h
  have keep1 (z : Ptr) (ne : z ≠ e) : h1.node z = h.node z := putOther _ ne
  have above1 : Above h1 path x := by
    have whole := here.above
    exact aboveKeep (fun z mem => keep1 z (by grind)) rfl whole
  obtain ⟨h2,ran2,above2,keep2⟩ := @relinkAbove _ _ .left x e above1 here.there.1 xo onceo validOuter
  have left2 := fieldsKeep (fun z mem => by rw [keep2 z (by grind),keep1 z (by grind)]) left
  obtain ⟨h3,ran3,left3,keep3,root3⟩ := reparent left2 oncel validl aligned
  have right3 := fieldsKeep (fun z mem => by rw [keep3 z (by grind),keep2 z (by grind),keep1 z (by grind)]) right
  obtain ⟨h4,ran4,right4,keep4,root4⟩ := reparent right3 oncer validr aligned
  have perm : (inorder (branch .left c l e r) ++ outer path).Perm (e::(inorder l ++ inorder r ++ outer path)) :=
    inorderBranch.append_right (outer path)
  have perm' : (inorder (branch .left c l x r) ++ outer path).Perm (x::(inorder l ++ inorder r ++ outer path)) :=
    inorderBranch.append_right (outer path)
  refine ⟨h4,?_,fieldsBranch.mpr ⟨?_,?_,right4⟩,?_,perm.nodup_iff.mpr ?_,fun z mem => ?_⟩
  · have xNode1 := keep1 x (by grind)
    have xNode2 := (keep2 x xo).trans xNode1
    have xNode3 : h3.node x = h.node x := (keep3 x xl).trans xNode2
    have ran1 : write e (fun _ => h.node x) h = some h1 := writeSome there _
    have up1 : rbParent x h1 = some (up path) := by
      rw [rbParent,readSome here.there.1,xNode1]
      exact congrArg some cell.parent
    have left2 : child .left x h2 = some (addr l) := by
      rw [child,readSome here.there.1,xNode2]
      exact congrArg some cell.near
    have right3 : child .right x h3 = some (addr r) := by
      rw [child,readSome here.there.1,xNode3]
      exact congrArg some cell.far
    have ran3' := (if_neg lowAddr).symm.trans ran3
    simp [takePlace,readSome here.there.1,ran1,up1,ran2,left2,ran3',right3,ran4]
  · rw [keep4 e (by grind),keep3 e (by grind),keep2 e (by grind),putSelf]
    exact cell
  · exact fieldsKeep (fun z mem => keep4 z (by grind)) left3
  · exact aboveKeep (fun z mem => by rw [keep4 z (by grind),keep3 z (by grind)]) (root4.trans root3) above2
  · grind
  · rcases mem_cons.mp (perm.mem_iff.mp mem) with rfl | mem
    · exact ⟨there,aligned⟩
    · exact here.valid z (perm'.mem_iff.mpr (mem_cons_of_mem x mem))

theorem eraseDoubleAt (low : l ≠ .leaf)
    (found : leftmost r [] = some spot) : ∃ gone h', Ends (eraseDouble · x h) (gone,h') ∧
      gone = ⟨bit spot.color,addr spot.child,up (spot.path ++ frame .right c spot.elem l::path)⟩ ∧
      At h' spot.child (spot.path ++ frame .right c spot.elem l::path) := by
  have right : At h r (frame .right c x l::path) := here.across
  obtain ⟨ends,spotted⟩ := @leftmostEnds _ _ [] _ _ right found
  -- out of its place, below x itself or further to the left
  obtain ⟨h1,h2,ran1,ran2,here2,parent⟩ : ∃ h1 h2,
      unlessNull (addr spot.child) (rbSetParent (addr spot.child) (up (spot.path ++ frame .right c x l::path))) h = some h1 ∧
      setChild (if up (spot.path ++ frame .right c x l::path) = x then .right else .left) (up (spot.path ++ frame .right c x l::path))
        (addr spot.child) h1 = some h2 ∧ At h2 spot.child (spot.path ++ frame .right c x l::path) ∧
      (if up (spot.path ++ frame .right c x l::path) = x then spot.elem else up (spot.path ++ frame .right c x l::path)) =
        up (spot.path ++ frame .right c spot.elem l::path) := by
    rcases leftmostPath found with first | ⟨c',p,o,q,further⟩
    · rw [first] at spotted ⊢
      obtain ⟨h1,h2,ran1,ran2,here2⟩ := dropAt spotted
      exact ⟨h1,h2,ran1,(if_pos upFrame).symm ▸ ran2,here2,if_pos rfl⟩
    rw [further] at spotted ⊢
    obtain ⟨h1,h2,ran1,ran2,here2⟩ := dropAt spotted
    have other : p ≠ x := by
      rintro rfl
      have once := (nodup_append.mp spotted.once).2.1
      rw [cons_append,outerFrame,outerAppend] at once
      exact (nodup_cons.mp once).1 (by simp)
    exact ⟨h1,h2,ran1,(if_neg other).symm ▸ ran2,here2,if_neg other⟩
  -- into the place of x
  have whole2 := (atFrame.mp (atAppend.mp here2)).flip
  have fresh : spot.elem ∉ inorder (branch .left c l x (plug spot.child spot.path)) ++ outer path := by
    have perm : (inorder (branch .left c l x (plug spot.child spot.path)) ++ outer path).Perm
        (inorder spot.child ++ outer (spot.path ++ frame .right c x l::path)) := (framePerm (s := .right)).trans plugPerm
    rw [perm.mem_iff,mem_append]
    obtain ⟨⟨_,below,above⟩,_⟩ := spotted.apart
    rintro (mem | mem)
    · exact below mem
    · exact above mem
  obtain ⟨h3,ran3,here3⟩ := takePlaceAt whole2 low fresh spotted.there.1 spotted.there.2
  refine ⟨_,h3,?_,rfl,atAppend.mpr (atFrame.mpr here3.flip)⟩
  have start : child .right x h = some (addr r) := here.farChild
  have belowChild : child .right spot.elem h = some (addr spot.child) := spotted.farChild
  simp only [eraseDouble,start,bind,bind_some]
  refine endsBind ends (endsAt 0 fun _ => ?_)
  simp [belowChild,spotted.parentOf,spotted.colorOf,ran1,ran2,ran3,parent]

theorem rbEraseEnds {t'} (result : Rbtree.rbErase c l r path = some t') :
    ∃ h', Ends (rbErase · x h) h' ∧ Rep h' t' := by
  have right : child .right x h = some (addr r) := here.farChild
  cases l with
  | leaf =>
    have left : child .left x h = some 0 := here.nearChild
    obtain ⟨h1,ran,here1⟩ := eraseSingleAt here
    obtain ⟨h2,ends,rep⟩ := eraseAtEnds here1 result
    refine ⟨h2,?_,rep⟩
    simpa [rbErase,left,right,ran] using ends
  | node cl ll lx lr =>
    have left : child .left x h = some lx := here.nearChild
    have low : At h (branch .left cl ll lx lr) (frame .left c x r::path) := atFrame.mpr here
    cases r with
    | leaf =>
      obtain ⟨h1,ran,here1⟩ := eraseSingleAt here.flip
      obtain ⟨h2,ends,rep⟩ := eraseAtEnds here1 result
      refine ⟨h2,?_,rep⟩
      simp only [addr] at right ran
      simp only [rbErase,left,right,ran,bind,bind_some,if_neg low.there.1]
      exact ends
    | node cr rl rx rr =>
      have high : At h (branch .left cr rl rx rr) (frame .right c x (.node cl ll lx lr)::path) := here.across
      obtain ⟨spot,found⟩ := Rbtree.leftmostFound cr rl rx rr []
      obtain ⟨gone,h1,ends,same,here1⟩ := eraseDoubleAt here (by simp) found
      rw [Rbtree.rbErase,found] at result
      · obtain ⟨h2,ends',rep⟩ := eraseAtEnds here1 result
        refine ⟨h2,?_,rep⟩
        simp only [addr] at right
        simp only [rbErase,left,right,bind,bind_some,if_neg low.there.1,if_neg high.there.1]
        refine endsBind ends ?_
        subst same
        exact ends'
      · simp
      · simp

end

theorem eraseKeepsRedBlack (rep : Rep h t) (balanced : RedBlack t) (mem : x ∈ inorder t) :
    ∃ h' t', Ends (rbErase · x h) h' ∧ Rep h' t' ∧ RedBlack t' ∧ inorder t' = (inorder t).erase x := by
  have once : (inorder t).Nodup := by
    have once := rep.once
    rwa [outer,append_nil] at once
  obtain ⟨t',erased,balanced',order⟩ := eraseElemSpec balanced once mem
  obtain ⟨c,l,r,path,found⟩ := locateFound mem []
  have place := (locateSpec found).1
  rw [eraseElem,found] at erased
  have here : At h (branch .left c l x r) path := atPlug.mpr (place.symm ▸ rep)
  obtain ⟨h',ends,rep'⟩ := rbEraseEnds here erased
  exact ⟨h',t',ends,rep',balanced',order⟩

end

/-- 48 takes the place of 32, and 16 is rotated over it. -/
theorem sevenErased : (∃ h' t', Ends (rbErase · 32 sevenNodes) h' ∧ Rep h' t' ∧ RedBlack t' ∧ inorder t' = [8,16,24,48,64,96]) ∧
    (rbErase 8 32 sevenNodes).map (fun h => (h.node 64).left) = some 16 :=
  ⟨eraseKeepsRedBlack sevenRep sevenBalanced (by decide),by decide +kernel⟩

end EclairKernel.RbPointers
