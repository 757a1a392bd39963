import EclairKernel.Fuel
import EclairKernel.RbPointersShape

/-! rb_insert_color on memory does what rbInsertColor does on trees: it follows no NULL
pointer, and comes to an end. -/
namespace EclairKernel.RbPointers
open Rbtree (Color Frame inorder plug isRed setBlack RedBlack Pass)
open Fuel List Option

section
variable {h s side c cg a b t u sib x p g} {path rest : List (Frame Ptr)}

theorem redThereAt (here : At h t path) : redThere (addr t) h = some (isRed t) := by
  cases t with
  | leaf => rfl
  | node c l x r =>
    have here : At h (branch .left c l x r) path := here
    rw [addr,redThere,if_neg here.there.1,rbIsRed,here.colorOf]
    cases c <;> rfl

theorem insertColorRound (side s : Side) (c cg : Color) (a : Rbtree.Tree Ptr) (x : Ptr) (b : Rbtree.Tree Ptr) (p : Ptr) (sib : Rbtree.Tree Ptr) (g : Ptr)
    (u : Rbtree.Tree Ptr) (rest : List (Frame Ptr)) :
    Rbtree.rbInsertColor (branch s c a x b) (frame side .red p sib::frame s cg g u::rest) =
      if isRed u then Rbtree.rbInsertColor (branch s .red (branch side .black (branch s c a x b) p sib) g (setBlack u)) rest
      else if side = s then some (setBlack (plug (branch s .black (branch s c a x b) p (branch s .red sib g u)) rest))
      else some (setBlack (plug (branch s .black (branch s .red sib p a) x (branch s .red b g u)) rest)) := by
  cases s <;> cases side <;> simp [branch,frame,Rbtree.rbInsertColor]

theorem setBlackTree (here : At h u path) (red : isRed u = true) :
    ∃ h', rbSetBlack (addr u) h = some h' ∧ At h' (setBlack u) path := by
  cases u with
  | leaf => cases red
  | node c l y r => exact @setBlackAt h .left c l r y path here

theorem insertRoundUp (x : Ptr) (here : At h t (frame side .red p sib::frame s cg g u::rest)) (red : isRed u = true) :
    ∃ h', insertRound s x p g h = some (g,h') ∧ At h' (branch s .red (branch side .black t p sib) g (setBlack u)) rest := by
  have whole := atFrame.mp (atFrame.mp here)
  have uncle := whole.across
  obtain ⟨h1,ran1,here1⟩ := setBlackTree uncle red
  have parent := atFrame.mpr here1.back
  obtain ⟨h2,ran2,here2⟩ := setBlackAt parent
  obtain ⟨h3,ran3,here3⟩ := setRedAt (atFrame.mp here2)
  refine ⟨h3,?_,here3⟩
  simp [insertRound,whole.farChild,redThereAt uncle,red,ran1,ran2,ran3]

theorem insertTurn (here : At h (branch s c t p sib) (frame s cg g u::rest)) :
    ∃ h1 h2 h3, rbSetBlack p h = some h1 ∧ rbSetRed g h1 = some h2 ∧ rbRotate s.other g h2 = some h3 ∧
      At h3 (branch s .black t p (branch s .red sib g u)) rest := by
  obtain ⟨h1,ran1,here1⟩ := setBlackAt here
  obtain ⟨h2,ran2,here2⟩ := setRedAt (atFrame.mp here1)
  have turned := here2.flip
  rw [← branchOther s .black sib p t] at turned
  obtain ⟨h3,ran3,here3⟩ := rotateAt turned
  rw [branchOther,branchOther] at here3
  exact ⟨h1,h2,h3,ran1,ran2,ran3,here3⟩

theorem insertRoundOuter (here : At h (branch s c a x b) (frame s .red p sib::frame s cg g u::rest)) (black : isRed u = false) :
    ∃ h', insertRound s x p g h = some (x,h') ∧ At h' (branch s .black (branch s c a x b) p (branch s .red sib g u)) rest := by
  have parent := atFrame.mp here
  have whole := atFrame.mp parent
  have uncle := whole.across
  have outside : addr sib ≠ x := by
    intro eq
    have mem := eq ▸ addrMem (eq.symm ▸ here.there.1)
    exact here.apart.1.2.2 (by simp [mem])
  obtain ⟨h1,h2,h3,ran1,ran2,ran3,here3⟩ := insertTurn parent
  refine ⟨h3,?_,here3⟩
  simp [insertRound,whole.farChild,redThereAt uncle,black,parent.farChild,if_neg outside,ran1,ran2,ran3]

theorem insertRoundInner (here : At h (branch s c a x b) (frame s.other .red p sib::frame s cg g u::rest)) (black : isRed u = false) :
    ∃ h', insertRound s x p g h = some (p,h') ∧ At h' (branch s .black (branch s .red sib p a) x (branch s .red b g u)) rest := by
  have parent := atFrame.mp here
  rw [branchOther] at parent
  have whole := atFrame.mp parent
  have uncle := whole.across
  have inner := parent.farChild
  obtain ⟨h0,ran0,here0⟩ := rotateAt parent
  obtain ⟨h1,h2,h3,ran1,ran2,ran3,here3⟩ := insertTurn here0
  refine ⟨h3,?_,here3⟩
  simp [insertRound,whole.farChild,redThereAt uncle,black,inner,ran0,ran1,ran2,ran3]

theorem insertLoopStops (here : At h (branch s c a x b) path) (stops : redThere (up path) h = some false) :
    Ends (insertLoop · x h) h := by
  refine endsOnce fun fuel => ?_
  rw [insertLoop,here.parentOf]
  simp [stops]

theorem insertLoopBlack {y o} (here : At h (branch s c a x b) (frame side .black y o::path)) :
    Ends (insertLoop · x h) h := by
  refine insertLoopStops here ?_
  have parent := redThereAt (atFrame.mp here)
  rw [addrBranch] at parent
  rw [upFrame,parent]
  cases side <;> rfl

theorem insertLoopRound {r h'} (here : At h (branch s c a x b) (frame side .red p sib::frame s cg g u::rest))
    (ran : insertRound s x p g h = some r) (later : Ends (insertLoop · r.1 r.2) h') : Ends (insertLoop · x h) h' := by
  have parent := atFrame.mp here
  have whole := atFrame.mp parent
  have red := redThereAt parent
  rw [addrBranch] at red
  have isRed : isRed (branch side .red (branch s c a x b) p sib) = true := by cases side <;> rfl
  have up1 := here.parentOf
  have up2 := parent.parentOf
  obtain ⟨left,leftChild,which⟩ : ∃ left, child .left g h = some left ∧ (if p = left then .left else .right) = s := by
    have near := whole.nearChild
    rw [addrBranch] at near
    cases s with
    | left => exact ⟨p,near,if_pos rfl⟩
    | right =>
      refine ⟨addr u,whole.farChild,if_neg fun eq => ?_⟩
      have mem := eq ▸ addrMem (eq ▸ parent.there.1)
      exact parent.apart.1.2.2 (by simp [mem])
  refine endsSucc (fun fuel => ?_) later
  rw [insertLoop,up1]
  simp [red,isRed,up2,leftChild,which,ran]

theorem branchAs (s s' : Side) (c : Color) (a : Rbtree.Tree Ptr) (x : Ptr) (b : Rbtree.Tree Ptr) : ∃ a' b', branch s c a x b = branch s' c a' x b' := by
  by_cases same : s = s'
  · exact ⟨a,b,same ▸ rfl⟩
  · have other : s = s'.other := by cases s <;> cases s' <;> simp_all [Side.other]
    exact ⟨b,a,other ▸ branchOther ..⟩

theorem plugBranch : plug (branch s c a x b) path ≠ .leaf := by
  induction path generalizing s c a x b with
  | nil => cases s <;> simp [branch,plug]
  | cons f path ih =>
    obtain ⟨s',c',y,o,rfl⟩ := frameCases f
    rw [plugFrame]
    exact ih

section
variable {t'} (here : At h (branch s .red a x b) path)
  (result : Rbtree.rbInsertColor (branch s .red a x b) path = some t')
include here result

theorem insertLoopEnds :
    ∃ h' whole, Ends (insertLoop · x h) h' ∧ Rep h' whole ∧ whole ≠ .leaf ∧ setBlack whole = t' := by
  induction len : path.length using Nat.strongRecOn generalizing h s a x b path with
  | ind n ih =>
    cases path with
    | nil =>
      refine ⟨h,_,insertLoopStops here rfl,atPlug.mp here,plugBranch,?_⟩
      cases s <;> exact some.inj result
    | cons f path =>
      obtain ⟨side,cp,p,sib,rfl⟩ := frameCases f
      cases cp with
      | black =>
        refine ⟨h,_,insertLoopBlack here,atPlug.mp here,plugBranch,?_⟩
        cases s <;> cases side <;> exact some.inj result
      | red =>
        cases path with
        | nil => cases s <;> cases side <;> cases result
        | cons f rest =>
          obtain ⟨s',cg,g,u,rfl⟩ := frameCases f
          obtain ⟨a,b,same⟩ := branchAs s s' .red a x b
          rw [same] at here result
          rw [insertColorRound] at result
          cases color : isRed u with
          | true =>
            rw [color] at result
            obtain ⟨h1,ran,here1⟩ := insertRoundUp x here color
            obtain ⟨h',whole,ends,done⟩ := ih rest.length (by simp only [length_cons] at len; omega) here1 result rfl
            exact ⟨h',whole,insertLoopRound here ran ends,done⟩
          | false =>
            rw [color] at result
            by_cases straight : side = s'
            · subst straight
              obtain ⟨h1,ran,here1⟩ := insertRoundOuter here color
              rw [if_pos rfl] at result
              exact ⟨h1,_,insertLoopRound here ran (insertLoopBlack (atFrame.mpr here1)),atPlug.mp here1,plugBranch,some.inj result⟩
            · rw [if_neg straight] at result
              have other : side = s'.other := by cases side <;> cases s' <;> simp_all [Side.other]
              subst other
              obtain ⟨h1,ran,here1⟩ := insertRoundInner here color
              exact ⟨h1,_,insertLoopRound here ran (insertLoopBlack (atFrame.mpr here1)),atPlug.mp here1,plugBranch,some.inj result⟩

theorem insertColorEnds : ∃ h', Ends (rbInsertColor · x h) h' ∧ Rep h' t' := by
  obtain ⟨h1,whole,ends,rep,nonempty,rfl⟩ := insertLoopEnds here result
  cases whole with
  | leaf => exact absurd rfl nonempty
  | node c l y r =>
    obtain ⟨h2,ran,rep2⟩ := @setBlackAt h1 .left c l r y [] rep
    refine ⟨h2,endsBind ends (endsAt 0 fun _ => ?_),rep2⟩
    rw [rep.above]
    exact ran

end

inductive EmptyLink (h : Memory) (t : Rbtree.Tree Ptr) : Ptr → Link → Prop
  | root : t = .leaf → EmptyLink h t 0 .root
  | child {s : Side} {p : Ptr} : p ∈ inorder t → (h.node p).child s = 0 → EmptyLink h t p (.child s p)

def linkOf : List (Frame Ptr) → Link
  | [] => .root
  | .left _ x _::_ => .child .left x
  | .right _ _ x::_ => .child .right x

theorem leafOfAddr (valid : ∀ z ∈ inorder t, z ≠ 0) (null : addr t = 0) : t = .leaf := by
  cases t with
  | leaf => rfl
  | node c l x r => exact absurd null (valid x (by simp [inorder]))

theorem memPlace (mem : x ∈ inorder t) : ∃ c a b path, t = plug (branch s c a x b) path := by
  obtain ⟨c,l,r,path,found⟩ := Rbtree.locateFound mem []
  have place := (Rbtree.locateSpec found).1
  obtain ⟨a,b,same⟩ := branchAs .left s c l x r
  exact ⟨c,a,b,path,place.symm.trans (congrArg (plug · path) same)⟩

theorem EmptyLink.place {parent link} (empty : EmptyLink h t parent link) (rep : Rep h t) :
    ∃ path, t = plug .leaf path ∧ parent = up path ∧ link = linkOf path := by
  cases empty with
  | root leaf => exact ⟨[],leaf,rfl,rfl⟩
  | @child s _ mem null =>
    obtain ⟨c,a,b,path,rfl⟩ := memPlace (s := s) mem
    have here := atPlug.mpr rep
    have leaf := leafOfAddr (fun z mem => (here.valid z (by simp [memBranch,mem])).1) (here.cell.near.symm.trans null)
    subst leaf
    refine ⟨frame s c parent b::path,plugFrame.symm,upFrame.symm,?_⟩
    cases s <;> rfl

theorem newCell (aligned : Aligned p) : Cell ⟨p,0,0⟩ p .red s 0 0 := by
  have word : p = 0#32 &&& 3#32 ||| p := by simp
  refine ⟨?_,?_,by cases s <;> rfl,by cases s <;> rfl⟩
  · exact (congrArg (· &&& ~~~3#32) word).trans (maskedOr aligned)
  · exact (congrArg (· &&& 1#32) word).trans (insideOr (by decide) aligned)

theorem linkAt {new} (here : At h .leaf path) (fresh : new ∉ outer path) (there : new ≠ 0) (aligned : Aligned new) :
    ∃ h', rbLinkNode new (up path) (linkOf path) h = some h' ∧ At h' (branch s .red .leaf new .leaf) path := by
  have only : inorder (branch s .red .leaf new .leaf) = [new] := by cases s <;> rfl
  have once : (inorder (branch s .red .leaf new .leaf) ++ outer path).Nodup := by
    rw [only]
    exact nodup_cons.mpr ⟨fresh,here.once⟩
  have valid : ∀ z ∈ inorder (branch s .red .leaf new .leaf) ++ outer path, z ≠ 0 ∧ Aligned z := by
    rw [only]
    exact forall_mem_cons.mpr ⟨⟨there,aligned⟩,here.valid⟩
  have cell := @newCell s (up path) (upAligned here.valid)
  have ran : write new (fun _ => ⟨up path,0,0⟩) h = some (put new ⟨up path,0,0⟩ h) := writeSome there _
  cases path with
  | nil =>
    refine ⟨{ put new ⟨0,0,0⟩ h with root := new },?_,fieldsBranch.mpr ⟨?_,trivial,trivial⟩,addrBranch.symm,once,valid⟩
    · exact congrArg (·.bind fun h => some { h with root := new }) ran
    · exact (putSelf _).symm ▸ cell
  | cons f path =>
    obtain ⟨side,c,p,o,rfl⟩ := frameCases f
    have parent := atFrame.mp here
    obtain ⟨cell',sub,above⟩ := aboveFrame.mp here.above
    rw [outerFrame] at fresh
    have ne : p ≠ new := fun eq => fresh (eq ▸ mem_cons_self)
    obtain ⟨⟨_,po,pout⟩,_⟩ := parent.apart
    rw [upFrame] at cell ran ⊢
    let h1 := put new ⟨p,0,0⟩ h
    have keep (z : Ptr) (np : z ≠ p) (nn : z ≠ new) : (put p ((h1.node p).setChild new side) h1).node z = h.node z := by
      rw [putOther _ np,putOther _ nn]
    refine ⟨put p ((h1.node p).setChild new side) h1,?_,fieldsBranch.mpr ⟨?_,trivial,trivial⟩,addrBranch.symm ▸ aboveFrame.mpr ⟨?_,?_,?_⟩,
      once,valid⟩
    · have link : linkOf (frame side c p o::path) = .child side p := by cases side <;> rfl
      simp only [link,rbLinkNode,ran]
      exact writeSome parent.there.1 _
    · rw [putOther _ ne.symm,putSelf,upFrame]
      exact cell
    · rw [putSelf,putOther _ ne]
      exact cell'.setNear new
    · exact fieldsKeep (fun z mem => keep z (fun eq => po (eq ▸ mem)) fun eq => fresh (by simp [← eq,mem])) sub
    · exact aboveKeep (fun z mem => keep z (fun eq => pout (eq ▸ mem)) fun eq => fresh (by simp [← eq,mem])) rfl above

theorem plugFits (balanced : RedBlack (plug t path)) : Rbtree.Fits t path := by
  induction path generalizing t with
  | nil =>
    obtain ⟨n,whole⟩ := balanced
    exact ⟨.black,n,whole,.root⟩
  | cons f path ih =>
    cases f with
    | left c x r => exact (ih balanced).down.1
    | right c l x => exact (ih balanced).down.2

theorem outerMem : x ∈ outer path ↔ x ∈ Rbtree.before path ∨ x ∈ Rbtree.after path := by
  induction path with
  | nil => simp [outer,Rbtree.before,Rbtree.after]
  | cons f path ih => cases f <;> simp [outer,Rbtree.before,Rbtree.after] <;> grind

theorem insertKeepsRedBlack {new parent link} (rep : Rep h t) (balanced : RedBlack t) (empty : EmptyLink h t parent link)
    (fresh : new ∉ inorder t) (there : new ≠ 0) (aligned : Aligned new) :
    ∃ h1 t1 h2 t2 low high, rbLinkNode new parent link h = some h1 ∧ Rep h1 t1 ∧ inorder t = low ++ high ∧ inorder t1 = low ++ new::high ∧
      Ends (rbInsertColor · new h1) h2 ∧ Rep h2 t2 ∧ RedBlack t2 ∧ inorder t2 = inorder t1 := by
  obtain ⟨path,rfl,rfl,rfl⟩ := empty.place rep
  have order := Rbtree.inorderPlug (.leaf : Rbtree.Tree Ptr) path
  have fresh' : new ∉ outer path := by
    rw [order] at fresh
    simpa [outerMem,inorder] using fresh
  obtain ⟨h1,linked,here⟩ := @linkAt _ .left _ _ (atPlug.mpr rep) fresh' there aligned
  obtain ⟨c,n,null,hole⟩ := plugFits balanced
  cases null
  obtain ⟨t2,colored,balanced⟩ := Rbtree.insertColorBalanced .leaf .leaf hole
  obtain ⟨h2,ends,rep2⟩ := insertColorEnds here colored
  refine ⟨h1,_,h2,t2,Rbtree.before path,Rbtree.after path,linked,atPlug.mp here,?_,?_,ends,rep2,balanced,Rbtree.insertColorInorder colored⟩
  · simpa [inorder] using order
  · simpa [inorder,branch] using Rbtree.inorderPlug (branch .left .red .leaf new .leaf) path

end

def sevenNodes : Memory :=
  ⟨fun p => (List.lookup p [(64,⟨1,96,32⟩), (96,⟨65,0,0⟩), (32,⟨64,48,16⟩), (48,⟨33,0,0⟩), (16,⟨33,24,8⟩), (24,⟨16,0,0⟩)]).getD ⟨16,0,0⟩,64⟩

def sevenTree : Rbtree.Tree Ptr :=
  .node .black (.node .red (.node .black (.node .red .leaf 8 .leaf) 16 (.node .red .leaf 24 .leaf)) 32 (.node .black .leaf 48 .leaf))
    64 (.node .black .leaf 96 .leaf)

theorem sevenBalanced : RedBlack sevenTree :=
  ⟨2,.black (.red (.black (.red .leaf .leaf) (.red .leaf .leaf)) (.black .leaf .leaf)) (.black .leaf .leaf)⟩

theorem sevenRep : Rep sevenNodes sevenTree := by
  refine ⟨⟨⟨rfl,rfl,rfl,rfl⟩,⟨⟨rfl,rfl,rfl,rfl⟩,⟨⟨rfl,rfl,rfl,rfl⟩,⟨⟨rfl,rfl,rfl,rfl⟩,trivial,trivial⟩,⟨⟨rfl,rfl,rfl,rfl⟩,trivial,trivial⟩⟩,
    ⟨⟨rfl,rfl,rfl,rfl⟩,trivial,trivial⟩⟩,⟨⟨rfl,rfl,rfl,rfl⟩,trivial,trivial⟩⟩,rfl,by decide,?_⟩
  simp [inorder,outer,Aligned,sevenTree]

/-- 4 comes under the red 8 with the red 24 beside it, so 16 turns red under the red 32, and 32
is rotated to the root. -/
theorem sevenInserted : (∃ h1 t1 h2 t2 low high, rbLinkNode 4 8 (.child .left 8) sevenNodes = some h1 ∧ Rep h1 t1 ∧
      [8#32,16,24,32,48,64,96] = low ++ high ∧ inorder t1 = low ++ 4#32::high ∧
      Ends (rbInsertColor · 4 h1) h2 ∧ Rep h2 t2 ∧ RedBlack t2 ∧ inorder t2 = inorder t1) ∧
    ((rbLinkNode 4 8 (.child .left 8) sevenNodes).bind (rbInsertColor 8 4)).map Memory.root = some 32 :=
  ⟨insertKeepsRedBlack sevenRep sevenBalanced (.child (by decide) rfl) (by decide) (by decide) rfl,by decide +kernel⟩

/-! rb_erase on memory does what rbErase does on trees. In a balanced tree the sibling of the
short side is a node, so that none of its fields is read through a NULL pointer. -/

open Bool

variable {h s c cp co a b t near far} {x p o : Ptr} {path rest}

def erasePass (s : Side) (cp : Color) (t : Rbtree.Tree Ptr) (p : Ptr) (other : Rbtree.Tree Ptr) : Option (Pass Ptr) :=
  match s with
  | .left => Rbtree.erasePassLeft cp t p other
  | .right => Rbtree.erasePassRight cp p t other

theorem erasePassLeaf : erasePass s cp t p .leaf = none := by cases s <;> rfl

theorem erasePassUp (nearBlack : isRed near = false) (farBlack : isRed far = false) :
    erasePass s cp t p (branch s co near o far) = some (.up (branch s cp t p (branch s .red near o far))) := by
  cases s <;> simp [erasePass,branch,Rbtree.erasePassLeft,Rbtree.erasePassRight,nearBlack,farBlack]

theorem erasePassOuter (farRed : isRed far = true) : erasePass s cp t p (branch s co near o far) =
    some (.done (branch s cp (branch s .black t p near) o (setBlack far))) := by
  cases s <;> simp [erasePass,branch,Rbtree.erasePassLeft,Rbtree.erasePassRight,farRed]

theorem isRedNode {l r} : isRed (.node c l x r) = (c == .red) := by cases c <;> rfl

variable {y t' other f}

theorem erasePassInner (farBlack : isRed far = false) : erasePass s cp t p (branch s co (branch s .red a y b) o far) =
    some (.done (branch s cp (branch s .black t p a) y (branch s .black b o far))) := by
  cases s <;> simp [erasePass,branch,Rbtree.erasePassLeft,Rbtree.erasePassRight,farBlack,isRedNode]

theorem eraseColorRed (black : isRed t = false)
    (result : Rbtree.rbEraseColor t (frame s cp p (branch s .red a o b)::rest) = some t') :
    (∃ sub, erasePass s .red t p a = some (.up sub) ∧ t' = plug (setBlack sub) (frame s .black o b::rest)) ∨
    ∃ sub, erasePass s .red t p a = some (.done sub) ∧ t' = setBlack (plug sub (frame s .black o b::rest)) := by
  cases s
  all_goals
    simp only [frame,branch,Rbtree.rbEraseColor,black,false_eq_true,if_false] at result
    split at result
    · cases result
    · exact .inl ⟨_,by assumption,(some.inj result).symm⟩
    · exact .inr ⟨_,by assumption,(some.inj result).symm⟩

theorem eraseColorBlack (black : isRed t = false) (sibling : isRed other = false)
    (result : Rbtree.rbEraseColor t (frame s cp p other::rest) = some t') :
    (∃ sub, erasePass s cp t p other = some (.up sub) ∧ Rbtree.rbEraseColor sub rest = some t') ∨
    ∃ sub, erasePass s cp t p other = some (.done sub) ∧ t' = setBlack (plug sub rest) := by
  cases s
  all_goals
    simp only [frame,Rbtree.rbEraseColor,black,false_eq_true,if_false] at result
    split at result
    · cases sibling
    split at result
    · cases result
    · exact .inl ⟨_,by assumption,result⟩
    · exact .inr ⟨_,by assumption,(some.inj result).symm⟩

theorem blackOrNullAt (here : At h t path) : blackOrNull (addr t) h = some (!isRed t) := by
  cases t with
  | leaf => rfl
  | node c l x r =>
    have here : At h (branch .left c l x r) path := here
    rw [addr,blackOrNull,if_neg here.there.1,rbIsBlack,here.colorOf]
    cases c <;> rfl

theorem setBlackIf (here : At h t path) : ∃ h', unlessNull (addr t) (rbSetBlack (addr t)) h = some h' ∧ At h' (setBlack t) path := by
  cases t with
  | leaf => exact ⟨h,rfl,here⟩
  | node c l x r =>
    have here : At h (branch .left c l x r) path := here
    obtain ⟨h',ran,here'⟩ := setBlackAt here
    exact ⟨h',(if_neg here.there.1).trans ran,here'⟩

theorem blackSiblingRed (here : At h t (frame s cp p (branch s .red a o b)::rest)) :
    ∃ h', blackSibling s p h = some (addr a,h') ∧ At h' t (frame s .red p a::frame s .black o b::rest) := by
  have whole := atFrame.mp here
  have sibling := whole.across
  have other := whole.farChild
  rw [addrBranch] at other
  have red : rbIsRed o h = some true := by
    rw [rbIsRed,sibling.colorOf]
    rfl
  obtain ⟨h1,ran1,here1⟩ := setBlackAt sibling
  have whole1 := here1.back
  obtain ⟨h2,ran2,here2⟩ := setRedAt whole1
  obtain ⟨h3,ran3,here3⟩ := rotateAt here2
  have lower := atFrame.mpr here3
  refine ⟨h3,?_,atFrame.mpr lower⟩
  simp [blackSibling,other,red,ran1,ran2,ran3,lower.farChild,bind]

theorem blackSiblingBlack (here : At h t (frame s cp p (branch s .black a o b)::rest)) : blackSibling s p h = some (o,h) := by
  have whole := atFrame.mp here
  have sibling := whole.across
  have other := whole.farChild
  have black : rbIsRed o h = some false := by
    rw [rbIsRed,sibling.colorOf]
    rfl
  simp [blackSibling,other,black]

theorem eraseTurnAt (here : At h t (frame s cp p (branch s co near o far)::rest)) :
    ∃ h', eraseTurn s p o h = some h' ∧ At h' (branch s cp (branch s .black t p near) o (setBlack far)) rest := by
  have whole := atFrame.mp here
  have sibling := whole.across
  obtain ⟨h1,ran1,here1⟩ := setColorAt sibling cp
  have whole1 := here1.back
  obtain ⟨h2,ran2,here2⟩ := setBlackAt whole1
  have sibling2 := here2.across
  have outer := sibling2.across
  obtain ⟨h3,ran3,here3⟩ := setBlackIf outer
  have whole3 := here3.back.back
  obtain ⟨h4,ran4,here4⟩ := rotateAt whole3
  refine ⟨h4,?_,here4⟩
  simp only [eraseTurn,whole.colorOf,ran1,ran2,sibling2.farChild,ran3,bind,bind_some]
  exact ran4

theorem bothBlack (sibling : At h (branch s co near o far) path) : ∃ l r bl br, child .left o h = some l ∧ child .right o h = some r ∧
    blackOrNull l h = some bl ∧ blackOrNull r h = some br ∧ (bl && br) = (!isRed near && !isRed far) := by
  have low := blackOrNullAt (atFrame.mpr sibling)
  have high := blackOrNullAt sibling.across
  cases s with
  | left => exact ⟨_,_,_,_,sibling.nearChild,sibling.farChild,low,high,rfl⟩
  | right => exact ⟨_,_,_,_,sibling.farChild,sibling.nearChild,high,low,and_comm ..⟩

theorem outerRedAt (here : At h t (frame s cp p (branch s co (branch s .red a y b) o far)::rest)) (farBlack : isRed far = false) :
    ∃ h', outerRed s p o h = some (y,h') ∧ At h' t (frame s cp p (branch s .black a y (branch s .red b o far))::rest) := by
  have whole := atFrame.mp here
  have sibling := whole.across
  have inner := atFrame.mpr sibling
  have innerChild := sibling.nearChild
  obtain ⟨h1,ran1,here1⟩ := setBlackIf inner
  rw [addrBranch] at ran1
  have black : setBlack (branch s .red a y b) = branch s .black a y b := by cases s <;> rfl
  rw [black] at here1
  obtain ⟨h2,ran2,here2⟩ := setRedAt (atFrame.mp here1)
  have turned := here2.flip
  rw [← branchOther s .black b y a] at turned
  obtain ⟨h3,ran3,here3⟩ := rotateAt turned
  rw [branchOther,branchOther] at here3
  have whole3 := here3.back
  have other := whole3.farChild
  rw [addrBranch] at other
  refine ⟨h3,?_,atFrame.mpr whole3⟩
  have farNull := blackOrNullAt sibling.across
  simp [outerRed,sibling.farChild,farNull,farBlack,innerChild,ran1,ran2,ran3,other,bind]

theorem blackRoundAt {pass} (here : At h t (frame s cp p (branch s co near o far)::rest))
    (made : erasePass s cp t p (branch s co near o far) = some pass) :
    (∃ a b h', pass = .up (branch s cp a p b) ∧ blackRound s p o h = some (.up p (up rest) h') ∧ At h' (branch s cp a p b) rest) ∨
    ∃ sub h', pass = .done sub ∧ blackRound s p o h = some (.stop h') ∧ At h' sub rest := by
  have whole := atFrame.mp here
  have sibling := whole.across
  obtain ⟨l,r,bl,br,left,right,leftBlack,rightBlack,both⟩ := bothBlack sibling
  cases farColor : isRed far with
  | true =>
    obtain ⟨h1,ran1,here1⟩ := eraseTurnAt here
    rw [erasePassOuter farColor] at made
    refine .inr ⟨_,h1,(some.inj made).symm,?_,here1⟩
    have outer : outerRed s p o h = some (o,h) := by
      have farNull := blackOrNullAt sibling.across
      simp only [outerRed,sibling.farChild,farNull,farColor,bind,bind_some,Bool.not_true,Bool.false_eq_true,if_false]
    simp only [blackRound,left,right,leftBlack,rightBlack,both,farColor,outer,ran1,bind,bind_some,Bool.not_true,
      Bool.and_false,Bool.false_eq_true,if_false]
  | false =>
    cases nearColor : isRed near with
    | true =>
      rcases nodeCases s near with rfl | ⟨c,a,y,b,rfl⟩
      · cases nearColor
      have red : c = .red := by cases s <;> cases c <;> first | rfl | cases nearColor
      subst red
      obtain ⟨h1,ran1,here1⟩ := outerRedAt here farColor
      obtain ⟨h2,ran2,here2⟩ := eraseTurnAt here1
      have black : setBlack (branch s .red b o far) = branch s .black b o far := by cases s <;> rfl
      rw [black] at here2
      rw [erasePassInner farColor] at made
      refine .inr ⟨_,h2,(some.inj made).symm,?_,here2⟩
      simp only [blackRound,left,right,leftBlack,rightBlack,both,nearColor,ran1,ran2,bind,bind_some,Bool.not_true,
        Bool.false_and,Bool.false_eq_true,if_false]
    | false =>
      obtain ⟨h1,ran1,here1⟩ := setRedAt sibling
      have whole1 := here1.back
      rw [erasePassUp nearColor farColor] at made
      refine .inl ⟨_,_,h1,(some.inj made).symm,?_,whole1⟩
      simp only [blackRound,left,right,leftBlack,rightBlack,both,nearColor,farColor,ran1,whole1.parentOf,bind,bind_some,
        Bool.not_false,Bool.and_self,if_true]

theorem rootOuter (above : Above h (f::path) p) : h.root ∈ outer (f::path) := by
  induction path generalizing f p with
  | nil =>
    obtain ⟨s,c,x,o,rfl⟩ := frameCases f
    obtain ⟨_,_,root⟩ := aboveFrame.mp above
    rw [root,outerFrame]
    exact mem_cons_self
  | cons g path ih =>
    obtain ⟨s,c,x,o,rfl⟩ := frameCases f
    obtain ⟨_,_,above⟩ := aboveFrame.mp above
    rw [outerFrame]
    exact mem_cons_of_mem x (mem_append_right _ (ih above))

theorem At.notRoot (here : At h t (f::path)) : addr t ≠ h.root := by
  intro eq
  have mem := rootOuter here.above
  have there := (here.valid _ (mem_append_right _ mem)).1
  exact (nodup_append.mp here.once).2.2 _ (addrMem (eq ▸ there)) _ mem eq

theorem eraseLoopRed (here : At h t path) (red : isRed t = true) (q : Ptr) : Ends (eraseLoop · (addr t) q h) (addr t,h) := by
  refine endsOnce fun fuel => ?_
  simp [eraseLoop,blackOrNullAt here,red]

theorem eraseLoopTop (here : At h t []) (q : Ptr) : Ends (eraseLoop · (addr t) q h) (addr t,h) := by
  refine endsOnce fun fuel => ?_
  have top : h.root = addr t := here.above
  simp [eraseLoop,blackOrNullAt here,top]

theorem eraseSide (here : At h t (frame s cp p other::rest)) (sibling : other ≠ .leaf) :
    ∃ left, child .left p h = some left ∧ (if left = addr t then Side.left else .right) = s := by
  have whole := atFrame.mp here
  cases s with
  | left => exact ⟨_,whole.nearChild,if_pos rfl⟩
  | right =>
    refine ⟨_,whole.farChild,if_neg fun eq => ?_⟩
    have there : addr other ≠ 0 := fun null =>
      sibling (leafOfAddr (fun z mem => (whole.valid z (by simp [memBranch,mem])).1) null)
    have mem := addrMem there
    exact (whole.apart.2.1 _ (addrMem (eq ▸ there))).1 (eq ▸ mem)

section
variable (here : At h t (frame s cp p other::rest)) (black : isRed t = false) (sibling : other ≠ .leaf)
include here black sibling

theorem eraseLoopUp {node parent h' r} (round : eraseRound s p h = some (.up node parent h'))
    (later : Ends (eraseLoop · node parent h') r) : Ends (eraseLoop · (addr t) p h) r := by
  obtain ⟨left,leftChild,side⟩ := eraseSide here sibling
  refine endsSucc (fun fuel => ?_) later
  simp [eraseLoop,blackOrNullAt here,black,leftChild,side,round,here.notRoot]

theorem eraseLoopDone {h'} (round : eraseRound s p h = some (.stop h')) : Ends (eraseLoop · (addr t) p h) (h'.root,h') := by
  obtain ⟨left,leftChild,side⟩ := eraseSide here sibling
  refine endsOnce fun fuel => ?_
  simp [eraseLoop,blackOrNullAt here,black,leftChild,side,round,here.notRoot]

end

def Finished (r : Ptr × Memory) (t : Rbtree.Tree Ptr) : Prop := ∃ h', unlessNull r.1 (rbSetBlack r.1) r.2 = some h' ∧ Rep h' t

theorem finishedAt (here : At h t path) : Finished (addr t,h) (plug (setBlack t) path) := by
  obtain ⟨h',ran,here'⟩ := setBlackIf here
  exact ⟨h',ran,atPlug.mp here'⟩

theorem finishedRoot (here : At h t path) : Finished (h.root,h) (setBlack (plug t path)) := by
  have rep := atPlug.mp here
  rw [rep.above]
  exact finishedAt rep

theorem eraseLoopEnds (here : At h t path) (result : Rbtree.rbEraseColor t path = some t') :
    ∃ r, Ends (eraseLoop · (addr t) (up path) h) r ∧ Finished r t' := by
  induction path generalizing t h with
  | nil =>
    have same : t' = plug (setBlack t) [] := by
      cases t <;> exact (some.inj result).symm
    exact ⟨_,eraseLoopTop here _,same ▸ finishedAt here⟩
  | cons f rest ih =>
    obtain ⟨s,cp,p,other,rfl⟩ := frameCases f
    rw [upFrame]
    cases black : isRed t with
    | true =>
      have same : t' = plug (setBlack t) (frame s cp p other::rest) := by
        rw [Rbtree.eraseColorRed black] at result
        exact (some.inj result).symm
      exact ⟨_,eraseLoopRed here black _,same ▸ finishedAt here⟩
    | false =>
      rcases nodeCases s other with rfl | ⟨co,near,o,far,rfl⟩
      · rcases eraseColorBlack black rfl result with ⟨_,made,_⟩ | ⟨_,made,_⟩
        · cases erasePassLeaf.symm.trans made
        · cases erasePassLeaf.symm.trans made
      have sibling : branch s co near o far ≠ .leaf := @plugBranch _ _ _ _ _ []
      cases co with
      | red =>
        obtain ⟨h1,lifted,here1⟩ := blackSiblingRed here
        have inner (pass : Pass Ptr) (made : erasePass s .red t p near = some pass) : ∃ c a y b, near = branch s c a y b := by
          rcases nodeCases s near with rfl | node
          · cases erasePassLeaf.symm.trans made
          · exact node
        rcases eraseColorRed black result with ⟨sub,made,rfl⟩ | ⟨sub,made,rfl⟩
        all_goals
          obtain ⟨c,a,y,b,rfl⟩ := inner _ made
          rcases blackRoundAt here1 made with ⟨a,b,h2,same,ran,here2⟩ | ⟨_,h2,same,ran,here2⟩ <;> cases same
        · have round : eraseRound s p h = some (.up p o h2) := by
            simp [eraseRound,lifted,ran]
          have red : isRed (branch s .red a p b) = true := by cases s <;> rfl
          have stop := eraseLoopRed here2 red o
          rw [addrBranch] at stop
          have finished := finishedAt here2
          rw [addrBranch] at finished
          exact ⟨_,eraseLoopUp here black sibling round stop,finished⟩
        · have round : eraseRound s p h = some (.stop h2) := by
            simp [eraseRound,lifted,ran]
          exact ⟨_,eraseLoopDone here black sibling round,finishedRoot here2⟩
      | black =>
        have kept := blackSiblingBlack here
        have color : isRed (branch s .black near o far) = false := by cases s <;> rfl
        rcases eraseColorBlack black color result with ⟨sub,made,later⟩ | ⟨sub,made,rfl⟩
        all_goals
          rcases blackRoundAt here made with ⟨a,b,h1,same,ran,here1⟩ | ⟨_,h1,same,ran,here1⟩ <;> cases same
        · have round : eraseRound s p h = some (.up p (up rest) h1) := by
            simp [eraseRound,kept,ran]
          obtain ⟨r,ends,finished⟩ := ih here1 later
          rw [addrBranch] at ends
          exact ⟨r,eraseLoopUp here black sibling round ends,finished⟩
        · have round : eraseRound s p h = some (.stop h1) := by
            simp [eraseRound,kept,ran]
          exact ⟨_,eraseLoopDone here black sibling round,finishedRoot here1⟩

theorem eraseColorEnds (here : At h t path) (result : Rbtree.rbEraseColor t path = some t') :
    ∃ h', Ends (rbEraseColor · (addr t) (up path) h) h' ∧ Rep h' t' := by
  obtain ⟨r,ends,h',ran,rep⟩ := eraseLoopEnds here result
  exact ⟨h',endsBind ends (endsAt 0 fun _ => ran),rep⟩

end EclairKernel.RbPointers
