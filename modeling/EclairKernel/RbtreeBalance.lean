import EclairKernel.Rbtree
import Mathlib.Data.List.Nodup

/-! What rb_insert_color and rb_erase do to a tree: the in-order sequence gains
or loses exactly the one element, and the red-black balance is kept, so that no
step of either function meets a NULL sibling or grandparent. -/
namespace EclairKernel.Rbtree
open List Option

variable {α : Type}

def before : List (Frame α) → List α
  | [] => []
  | .left _ _ _::path => before path
  | .right _ l x::path => before path ++ (inorder l ++ [x])

def after : List (Frame α) → List α
  | [] => []
  | .left _ x r::path => x::(inorder r ++ after path)
  | .right _ _ _::path => after path

theorem inorderPlug (t : Tree α) (path : List (Frame α)) :
    inorder (plug t path) = before path ++ inorder t ++ after path := by
  induction path generalizing t with
  | nil => simp [plug,before,after]
  | cons f path ih =>
    cases f with
    | left c x r => simp [plug,before,after,ih,inorder]
    | right c l x => simp [plug,before,after,ih,inorder]

theorem inorderSetBlack (t : Tree α) : inorder (setBlack t) = inorder t := by
  cases t <;> rfl

variable {t t' other child : Tree α} {path : List (Frame α)} {c cc n x goLeft}

theorem insertColorInorder (h : rbInsertColor t path = some t') : inorder t' = inorder (plug t path) := by
  fun_induction rbInsertColor t path
  all_goals first
    | contradiction
    | rename_i ih
      rw [ih h]
      simp [plug,inorderPlug,inorder,inorderSetBlack]
    | cases h
      simp [plug,inorderPlug,inorder,inorderSetBlack]

def Pass.tree : Pass α → Tree α
  | .up t => t
  | .done t => t

theorem passInorder {cp p pass} :
    (erasePassLeft cp t p other = some pass → inorder pass.tree = inorder t ++ p::inorder other) ∧
    (erasePassRight cp p t other = some pass → inorder pass.tree = inorder other ++ p::inorder t) := by
  cases other with
  | leaf => simp [erasePassLeft,erasePassRight]
  | node co ol o or =>
    constructor
    all_goals
      intro h
      simp only [erasePassLeft,erasePassRight] at h
      split at h
      · cases h
        rfl
      split at h
      · split at h <;> try contradiction
        cases h
        simp [Pass.tree,inorder]
      · cases h
        simp [Pass.tree,inorder,inorderSetBlack]

theorem eraseColorInorder (h : rbEraseColor t path = some t') : inorder t' = inorder (plug t path) := by
  fun_induction rbEraseColor t path
  all_goals first
    | contradiction
    | have same := passInorder.1 ‹_›
    | have same := passInorder.2 ‹_›
    | skip
  all_goals
    first
    | cases h
      simp [plug,inorderPlug,inorder,inorderSetBlack]
      done
    | simp only [Pass.tree] at same
      first
      | cases h
        simp [plug,inorderPlug,inorder,inorderSetBlack,same]
      | rename_i ih
        rw [ih h]
        simp [plug,inorderPlug,inorder,same]

theorem beforeAppend (p q : List (Frame α)) : before (p ++ q) = before q ++ before p := by
  induction p with
  | nil => simp [before]
  | cons f p ih => cases f <;> simp [before,ih]

theorem afterAppend (p q : List (Frame α)) : after (p ++ q) = after p ++ after q := by
  induction p with
  | nil => simp [after]
  | cons f p ih => cases f <;> simp [after,ih]

theorem leftmostInorder {spot} (h : leftmost t path = some spot) : before spot.path = before path ∧
    spot.elem::(inorder spot.child ++ after spot.path) = inorder t ++ after path := by
  fun_induction leftmost t path
  · contradiction
  · cases h
    simp [inorder]
  · rename_i ih
    obtain ⟨low,high⟩ := ih h
    simp only [before,after] at low high
    simp [low,high,inorder]

theorem eraseAtInorder
    (h : eraseAt c child path = some t') : inorder t' = before path ++ inorder child ++ after path := by
  rw [← inorderPlug]
  cases c with
  | black => exact eraseColorInorder h
  | red => exact (some.inj h) ▸ rfl

theorem eraseInorder {l r} (h : rbErase c l r path = some t') :
    inorder t' = before path ++ (inorder l ++ inorder r) ++ after path := by
  unfold rbErase at h
  split at h
  · simp [eraseAtInorder h,inorder]
  · simp [eraseAtInorder h,inorder]
  split at h <;> try contradiction
  rename_i spot found
  obtain ⟨low,high⟩ := leftmostInorder found
  simp only [after,append_nil] at low high
  simp [eraseAtInorder h,beforeAppend,afterAppend,before,after,low,← high]

inductive Balanced : Tree α → Color → Nat → Prop where
  | leaf : Balanced .leaf .black 0
  | red {l x r n} (left : Balanced l .black n) (right : Balanced r .black n) :
      Balanced (.node .red l x r) .red n
  | black {l x r cl cr n} (left : Balanced l cl n) (right : Balanced r cr n) :
      Balanced (.node .black l x r) .black (n+1)

/-- A path in a balanced tree with a black root, from a place where a subtree of
this color and black height may stand. -/
inductive Hole : List (Frame α) → Color → Nat → Prop where
  | root {n : Nat} : Hole [] .black n
  | redLeft {x r path n} (other : Balanced r .black n) (above : Hole path .red n) :
      Hole (.left .red x r::path) .black n
  | redRight {l x path n} (other : Balanced l .black n) (above : Hole path .red n) :
      Hole (.right .red l x::path) .black n
  | blackLeft {x r path co c n} (other : Balanced r co n) (above : Hole path .black (n+1)) :
      Hole (.left .black x r::path) c n
  | blackRight {l x path co c n} (other : Balanced l co n) (above : Hole path .black (n+1)) :
      Hole (.right .black l x::path) c n

def RedBlack (t : Tree α) : Prop := ∃ n, Balanced t .black n

theorem plugBalanced (hole : Hole path c n) (sub : Balanced t c n) : RedBlack (plug t path) := by
  induction hole generalizing t with
  | root => exact ⟨_,sub⟩
  | redLeft other above ih => exact ih (.red sub other)
  | redRight other above ih => exact ih (.red other sub)
  | blackLeft other above ih => exact ih (.black sub other)
  | blackRight other above ih => exact ih (.black other sub)

theorem setBlackOfBlack (h : Balanced t .black n) : setBlack t = t := by
  cases h <;> rfl

theorem setBlackBalanced (h : Balanced t c n) : RedBlack (setBlack t) := by
  cases h with
  | leaf => exact ⟨0,.leaf⟩
  | red left right | black left right => exact ⟨_,.black left right⟩

theorem balancedNode (h : Balanced t c n) (red : isRed t = true) :
    ∃ l x r, t = .node .red l x r ∧ Balanced l .black n ∧ Balanced r .black n := by
  cases h with
  | leaf => simp [isRed] at red
  | red left right => exact ⟨_,_,_,rfl,left,right⟩
  | black => simp [isRed] at red

theorem balancedRed (h : Balanced t c n) (red : isRed t = true) : Balanced (setBlack t) .black (n+1) := by
  obtain ⟨l,x,r,rfl,left,right⟩ := balancedNode h red
  exact .black left right

theorem balancedBlack (h : Balanced t c n) (black : isRed t = false) : Balanced t .black n := by
  cases h with
  | leaf => exact .leaf
  | red => simp [isRed] at black
  | black left right => exact .black left right

theorem restored (hole : Hole path c n)
    (sub : Balanced t c n) : ∃ t', some (setBlack (plug t path)) = some t' ∧ RedBlack t' := by
  obtain ⟨m,whole⟩ := plugBalanced hole sub
  exact ⟨_,rfl,m,(setBlackOfBlack whole).symm ▸ whole⟩

-- The loop moves up two frames at a time, so the induction is on the length of the path.
theorem insertColorBalanced {a b}
    (left : Balanced a .black n) (right : Balanced b .black n) (hole : Hole path .black n) :
    ∃ t', rbInsertColor (.node .red a x b) path = some t' ∧ RedBlack t' := by
  induction len : path.length using Nat.strongRecOn generalizing a x b path n with
  | ind k ih =>
    subst len
    cases hole with
    | root => exact ⟨_,rfl,_,.black left right⟩
    | blackLeft other above => exact restored (.blackLeft other above) (.red left right)
    | blackRight other above => exact restored (.blackRight other above) (.red left right)
    | redLeft other above | redRight other above =>
      have own := Balanced.red (x := x) left right
      cases above with
      | @blackLeft _ u rest _ _ _ uncle above | @blackRight u _ rest _ _ _ uncle above =>
        simp only [rbInsertColor]
        split
        · have uncle := balancedRed uncle ‹_›
          refine ih rest.length (by simp only [length_cons]; omega) ?_ ?_ above rfl
          all_goals first | exact uncle | exact .black own other | exact .black other own
        · have uncle := balancedBlack uncle (by simpa using ‹¬ isRed u = true›)
          apply restored above
          apply Balanced.black <;> constructor <;> assumption

theorem eraseColorRed (red : isRed t = true) (path : List (Frame α)) :
    rbEraseColor t path = some (plug (setBlack t) path) := by
  cases path with
  | nil => rfl
  | cons f rest => cases f <;> simp [rbEraseColor,red]

/-- What a pass over a black sibling of height n+1 leaves: the parent one black
node short with a red sibling below it, or a node of the parent's color over two
black children of full height. -/
inductive Passed (cp : Color) (short : Tree α → Prop) (n : Nat) : Pass α → Prop where
  | up {t : Tree α} (sub : short t) : Passed cp short n (.up t)
  | done {l x r} (left : Balanced l .black (n+1)) (right : Balanced r .black (n+1)) :
      Passed cp short n (.done (.node cp l x r))

theorem passBalanced (cp : Color) (p : α) (sub : Balanced t .black n) (sibling : Balanced other .black (n+1))
    (out : Option (Pass α)) (side : erasePassLeft cp t p other = out ∨ erasePassRight cp p t other = out) :
    ∃ pass, out = some pass ∧
      Passed cp (fun t' => ∃ l r c c', t' = .node cp l p r ∧ Balanced l c n ∧ Balanced r c' n) n pass := by
  cases sibling with
  | @black ol o or _ _ _ left right =>
    rcases side with rfl | rfl
    all_goals
      simp only [erasePassLeft,erasePassRight]
      split
      · rename_i both
        simp only [Bool.and_eq_true,Bool.not_eq_true'] at both
        have low := Balanced.red (x := o) (balancedBlack left both.1) (balancedBlack right both.2)
        first
        | exact ⟨_,rfl,.up ⟨_,_,_,_,rfl,sub,low⟩⟩
        | exact ⟨_,rfl,.up ⟨_,_,_,_,rfl,low,sub⟩⟩
      rename_i some_
      split
      · rename_i outer
        simp only [outer,Bool.and_true,Bool.true_and,Bool.not_eq_true',Bool.not_eq_false] at some_
        first
        | obtain ⟨a,y,b,rfl,near,far⟩ := balancedNode left some_
          exact ⟨_,rfl,.done (.black sub near) (.black far right)⟩
        | obtain ⟨a,y,b,rfl,far,near⟩ := balancedNode right some_
          exact ⟨_,rfl,.done (.black left far) (.black near sub)⟩
      · rename_i outer
        simp only [Bool.not_eq_true',Bool.not_eq_false] at outer
        first
        | exact ⟨_,rfl,.done (.black sub left) (balancedRed right outer)⟩
        | exact ⟨_,rfl,.done (balancedRed left outer) (.black right sub)⟩

theorem holeBlack (hole : Hole path .red n) : Hole path .black n := by
  cases hole with
  | blackLeft other above => exact .blackLeft other above
  | blackRight other above => exact .blackRight other above

theorem plugged (hole : Hole path c n) (sub : Balanced t c n) : ∃ t', some (plug t path) = some t' ∧ RedBlack t' :=
  ⟨_,rfl,plugBalanced hole sub⟩

theorem eraseColorBalanced (sub : Balanced t c n) (hole : Hole path .black (n+1)) :
    ∃ t', rbEraseColor t path = some t' ∧ RedBlack t' := by
  induction path generalizing t c n with
  | nil => exact ⟨_,rfl,setBlackBalanced sub⟩
  | cons f rest ih =>
    by_cases red : isRed t = true
    · rw [eraseColorRed red]
      exact plugged hole (balancedRed sub red)
    have red : isRed t = false := by simpa using red
    have sub := balancedBlack sub red
    cases hole with
    | @redLeft p _ _ _ sibling above | @redRight _ p _ _ sibling above =>
      have ends := passBalanced .red p sub sibling
      cases sibling with
      | black =>
        simp only [rbEraseColor,red,Bool.false_eq_true,if_false]
        split
        all_goals
          obtain ⟨pass,made,passed⟩ := ends _ (by tauto)
          cases made <;> cases passed
        · rename_i short
          obtain ⟨l,r,_,_,rfl,left,right⟩ := short
          rw [eraseColorRed rfl]
          exact plugged (holeBlack above) (.black left right)
        · exact restored above (.red ‹_› ‹_›)
    | @blackLeft p _ _ _ _ _ sibling above | @blackRight _ p _ _ _ _ sibling above =>
      cases sibling with
      | red low high =>
        -- the red sibling is rotated over the parent, which turns red
        simp only [rbEraseColor,red,Bool.false_eq_true,if_false]
        split
        all_goals
          rename_i found
          first
          | have ends := passBalanced .red p sub low _ (.inl found)
          | have ends := passBalanced .red p sub high _ (.inr found)
          obtain ⟨pass,made,passed⟩ := ends
          cases made <;> cases passed
        · rename_i short
          obtain ⟨l,r,_,_,rfl,left,right⟩ := short
          exact plugged (by constructor <;> assumption) (.black left right)
        · exact restored (by constructor <;> assumption) (.red ‹_› ‹_›)
      | @black _ y _ _ _ _ low high =>
        have ends := passBalanced .black p sub (Balanced.black (x := y) low high)
        simp only [rbEraseColor,red,Bool.false_eq_true,if_false]
        split
        all_goals
          obtain ⟨pass,made,passed⟩ := ends _ (by tauto)
          cases made <;> cases passed
        · rename_i short
          obtain ⟨l,r,_,_,rfl,left,right⟩ := short
          exact ih (.black left right) above
        · exact restored above (.black ‹_› ‹_›)

def Fits (t : Tree α) (path : List (Frame α)) : Prop := ∃ c n, Balanced t c n ∧ Hole path c n

theorem Fits.down {l r} (fits : Fits (.node c l x r) path) :
    Fits l (.left c x r::path) ∧ Fits r (.right c l x::path) := by
  obtain ⟨_,_,sub,hole⟩ := fits
  cases sub with
  | red left right => exact ⟨⟨_,_,left,.redLeft right hole⟩,_,_,right,.redRight left hole⟩
  | black left right => exact ⟨⟨_,_,left,.blackLeft right hole⟩,_,_,right,.blackRight left hole⟩

theorem eraseAtBalanced (fits : Fits (.node c .leaf x child) path ∨ Fits (.node c child x .leaf) path) :
    ∃ t', eraseAt c child path = some t' ∧ RedBlack t' := by
  rcases fits with ⟨_,_,node,hole⟩ | ⟨_,_,node,hole⟩
  all_goals
    cases node with
    | red left right => exact plugged (holeBlack hole) ‹Balanced child _ _›
    | black left right => exact eraseColorBalanced ‹Balanced child _ _› hole

theorem leftmostFound (c : Color) (l : Tree α) (x : α) (r : Tree α) (path : List (Frame α)) :
    ∃ spot, leftmost (.node c l x r) path = some spot := by
  induction l generalizing c x r path with
  | leaf => exact ⟨_,rfl⟩
  | node cl ll lx lr ihl _ => exact ihl cl lx lr _

theorem leftmostFits {q spot} (found : leftmost t path = some spot)
    (fits : Fits t (path ++ q)) : Fits (.node spot.color .leaf spot.elem spot.child) (spot.path ++ q) := by
  fun_induction leftmost t path
  · contradiction
  · cases found
    exact fits
  · rename_i ih
    exact ih found fits.down.1

theorem eraseBalanced {l r} (fits : Fits (.node c l x r) path) : ∃ t', rbErase c l r path = some t' ∧ RedBlack t' := by
  unfold rbErase
  split
  · exact eraseAtBalanced (.inl fits)
  · exact eraseAtBalanced (.inr fits)
  rename_i full
  cases r with
  | leaf => simp at full
  | node cr rl rx rr =>
    obtain ⟨spot,found⟩ := leftmostFound cr rl rx rr []
    -- the element of the node takes no part in where a subtree fits
    have node : Fits (.node c l spot.elem (.node cr rl rx rr)) path := by
      obtain ⟨_,_,sub,hole⟩ := fits
      cases sub with
      | red left right => exact ⟨_,_,.red left right,hole⟩
      | black left right => exact ⟨_,_,.black left right,hole⟩
    simp only [found]
    exact eraseAtBalanced (.inl (leftmostFits found node.down.2))

section
variable [DecidableEq α]

theorem locateFound (mem : x ∈ inorder t) (path : List (Frame α)) :
    ∃ c l r path', locate x t path = some (c,l,r,path') := by
  induction t generalizing path with
  | leaf => simp [inorder] at mem
  | node c l y r ihl ihr =>
    simp only [locate]
    split
    · exact ⟨_,_,_,_,rfl⟩
    rename_i other
    simp only [inorder,mem_append,mem_cons] at mem
    rcases mem with left | rfl | right
    · obtain ⟨c',l',r',path',found⟩ := ihl left (.left c y r::path)
      exact ⟨c',l',r',path',by rw [found]; rfl⟩
    · exact absurd rfl other
    · obtain ⟨c',l',r',path',found⟩ := ihr right (.right c l y::path)
      cases first : locate x l (.left c y r::path) with
      | none => exact ⟨c',l',r',path',found⟩
      | some place => exact ⟨_,_,_,_,rfl⟩

theorem locateSpec {path' l r} (found : locate x t path = some (c,l,r,path')) :
    plug (.node c l x r) path' = plug t path ∧ (Fits t path → Fits (.node c l x r) path') := by
  induction t generalizing path with
  | leaf => simp [locate] at found
  | node _ lt y rt ihl ihr =>
    simp only [locate] at found
    split at found
    · rename_i same
      cases found
      exact ⟨same ▸ rfl,fun fits => same ▸ fits⟩
    rcases or_eq_some_iff.mp found with first | ⟨_,second⟩
    · exact (ihl first).imp_right fun lower fits => lower fits.down.1
    · exact (ihr second).imp_right fun lower fits => lower fits.down.2

theorem locateOrder {l r} (found : locate x t [] = some (c,l,r,path)) :
    inorder t = before path ++ inorder l ++ x::(inorder r ++ after path) := by
  have same := congrArg inorder (locateSpec found).1
  rw [inorderPlug] at same
  simpa [plug,inorder] using same.symm

theorem eraseElemSpec (balanced : RedBlack t) (nodup : (inorder t).Nodup) (mem : x ∈ inorder t) :
    ∃ t', eraseElem x t = some t' ∧ RedBlack t' ∧ inorder t' = (inorder t).erase x := by
  obtain ⟨n,whole⟩ := balanced
  obtain ⟨c,l,r,path,found⟩ := locateFound mem []
  obtain ⟨t',erased,redBlack⟩ := eraseBalanced ((locateSpec found).2 ⟨_,_,whole,.root⟩)
  have order := locateOrder found
  have fresh : x ∉ before path ++ inorder l := by
    rw [order] at nodup
    intro bad
    exact (nodup_append.mp nodup).2.2 x bad x mem_cons_self rfl
  refine ⟨t',by simp [eraseElem,found,erased],redBlack,?_⟩
  rw [eraseInorder erased,order,erase_append_right _ fresh]
  simp

end

theorem descendSpec {test : α → Bool} (path : List (Frame α)) (total : ∀ y ∈ inorder t, goLeft y = some (test y))
    (monotone : (inorder t).Pairwise (fun a b => test a = true → test b = true))
    (low : ∀ y ∈ before path, test y = false) (high : ∀ y ∈ after path, test y = true) :
    ∃ path', descend goLeft t path = some path' ∧ (∀ y ∈ before path', test y = false) ∧
      (∀ y ∈ after path', test y = true) ∧ plug .leaf path' = plug t path := by
  induction t generalizing path with
  | leaf => exact ⟨path,rfl,low,high,rfl⟩
  | node c l y r ihl ihr =>
    simp only [inorder] at total monotone
    obtain ⟨leftMono,rest,across⟩ := pairwise_append.mp monotone
    obtain ⟨onward,rightMono⟩ := pairwise_cons.mp rest
    have here := total y (by simp)
    cases go : test y with
    | true =>
      rw [go] at here
      simp only [descend,here]
      refine ihl _ (fun z hz => total z (by simp [hz])) leftMono low ?_
      simp only [after,mem_cons,mem_append]
      rintro z (rfl | right | above)
      · exact go
      · exact onward z right go
      · exact high z above
    | false =>
      rw [go] at here
      simp only [descend,here]
      refine ihr _ (fun z hz => total z (by simp [hz])) rightMono ?_ high
      simp only [before,mem_append,mem_singleton]
      rintro z (below | left | rfl)
      · exact low z below
      · by_contra up
        have := across z left y mem_cons_self (by simpa using up)
        simp [go] at this
      · exact go

theorem descendFits {path'} (found : descend goLeft t path = some path') (fits : Fits t path) :
    Fits .leaf path' := by
  induction t generalizing path with
  | leaf => exact some.inj found ▸ fits
  | node _ l y r ihl ihr =>
    simp only [descend] at found
    split at found <;> try contradiction
    · exact ihl found fits.down.1
    · exact ihr found fits.down.2

theorem insertElemSpec {test : α → Bool} (x : α)
    (balanced : RedBlack t) (total : ∀ y ∈ inorder t, goLeft y = some (test y))
    (monotone : (inorder t).Pairwise (fun a b => test a = true → test b = true)) :
    ∃ t' low high, insertElem goLeft x t = some t' ∧ RedBlack t' ∧ inorder t = low ++ high ∧
      inorder t' = low ++ x::high ∧ (∀ y ∈ low, test y = false) ∧ ∀ y ∈ high, test y = true := by
  obtain ⟨n,whole⟩ := balanced
  obtain ⟨path,found,low,high,place⟩ := descendSpec [] total monotone (by simp [before]) (by simp [after])
  obtain ⟨_,_,sub,hole⟩ := descendFits found ⟨_,_,whole,.root⟩
  cases sub
  obtain ⟨t',inserted,redBlack⟩ := insertColorBalanced (x := x) .leaf .leaf hole
  have order := congrArg inorder place
  rw [inorderPlug] at order
  refine ⟨t',before path,after path,by simp [insertElem,found,inserted],redBlack,?_,?_,low,high⟩
  · simpa [plug,inorder] using order.symm
  · simpa [inorderPlug,inorder] using insertColorInorder inserted

structure Holds (t : Tree α) (S : α → Prop) (R : α → α → Prop) : Prop where
  balanced : RedBlack t
  nodup : (inorder t).Nodup
  mem : ∀ x, x ∈ inorder t ↔ S x
  sorted : (inorder t).Pairwise R

variable {S S'} {R R' : α → α → Prop}

theorem holdsLeaf (empty : ∀ x, ¬ S x) : Holds .leaf S R :=
  ⟨⟨0,.leaf⟩,nodup_nil,fun x => ⟨fun h => by simp [inorder] at h,fun h => absurd h (empty x)⟩,List.Pairwise.nil⟩

theorem holdsCongr (holds : Holds t S R) (same : ∀ x, S x ↔ S' x)
    (order : ∀ x y, S x → S y → R x y → R' x y) : Holds t S' R' := by
  refine ⟨holds.balanced,holds.nodup,fun x => (holds.mem x).trans (same x),?_⟩
  exact holds.sorted.imp_of_mem fun hx hy => order _ _ ((holds.mem _).mp hx) ((holds.mem _).mp hy)

theorem holdsSame (holds : Holds t S R) (same : ∀ x, S x ↔ S' x) : Holds t S' R := holdsCongr holds same fun _ _ _ _ order => order

section
variable {key key' : α → Nat}

theorem holdsKeys (holds : Holds t S fun a b => key a < key b) (same : ∀ x, S x ↔ S' x) (keys : ∀ x, S x → key' x = key x) :
    Holds t S' fun a b => key' a < key' b :=
  holdsCongr holds same fun a b ha hb order => by rwa [keys a ha,keys b hb]

theorem holdsEach {ι : Type} {tree tree' : ι → Tree α} {S S' : ι → α → Prop} {p : ι}
    (old : ∀ q, Holds (tree q) (S q) fun a b => key a < key b) (own : Holds (tree' p) (S' p) fun a b => key' a < key' b)
    (others : ∀ q, q ≠ p → tree' q = tree q ∧ (∀ x, S q x ↔ S' q x) ∧ ∀ x, S q x → key' x = key x) (q : ι) :
    Holds (tree' q) (S' q) fun a b => key' a < key' b := by
  by_cases here : q = p
  · exact here ▸ own
  · obtain ⟨tree,same,keys⟩ := others q here
    rw [tree]
    exact holdsKeys (old q) same keys

end

theorem holdsErase [DecidableEq α] (holds : Holds t S R) (mem : S x) :
    ∃ t', eraseElem x t = some t' ∧ Holds t' (fun y => S y ∧ y ≠ x) R := by
  obtain ⟨t',erased,balanced,order⟩ := eraseElemSpec holds.balanced holds.nodup ((holds.mem x).mpr mem)
  refine ⟨t',erased,balanced,order ▸ holds.nodup.erase x,?_,order ▸ holds.sorted.sublist erase_sublist⟩
  intro y
  rw [order,holds.nodup.mem_erase_iff,holds.mem,and_comm]

theorem holdsInsert (goLeft : α → Option Bool) (test : α → Bool) (holds : Holds t S R) (fresh : ¬ S x)
    (total : ∀ y, S y → goLeft y = some (test y))
    (monotone : ∀ a b, S a → S b → R a b → test a = true → test b = true)
    (below : ∀ y, S y → test y = false → R y x) (above : ∀ y, S y → test y = true → R x y) :
    ∃ t', insertElem goLeft x t = some t' ∧ Holds t' (fun y => y = x ∨ S y) R := by
  have known := holds.mem
  obtain ⟨t',low,high,inserted,balanced,before_,after_,lower,upper⟩ := insertElemSpec x holds.balanced
    (fun y hy => total y ((known y).mp hy))
    (holds.sorted.imp_of_mem fun ha hb => monotone _ _ ((known _).mp ha) ((known _).mp hb))
  have sorted := holds.sorted
  have nodup := holds.nodup
  have perm : (inorder t').Perm (x::inorder t) := by
    rw [after_,before_]
    exact perm_middle
  have outside : x ∉ inorder t := fun h => fresh ((known x).mp h)
  refine ⟨t',inserted,balanced,perm.nodup_iff.mpr (nodup_cons.mpr ⟨outside,nodup⟩),?_,?_⟩
  · intro y
    rw [perm.mem_iff,mem_cons,known]
  · rw [before_] at sorted
    obtain ⟨left,right,across⟩ := pairwise_append.mp sorted
    have member : ∀ y, y ∈ low ∨ y ∈ high → S y := by
      intro y hy
      rw [← known,before_]
      exact mem_append.mpr hy
    rw [after_]
    refine pairwise_append.mpr ⟨left,pairwise_cons.mpr ⟨?_,right⟩,?_⟩
    · exact fun y hy => above y (member y (.inr hy)) (upper y hy)
    · exact fun y hy => forall_mem_cons.mpr ⟨below y (member y (.inl hy)) (lower y hy),across y hy⟩

variable {key} {value : α → Nat}

theorem holdsSearch (k : Nat) (holds : Holds t S R) (known : ∀ x, S x → key x = some (value x))
    (order : ∀ x y, S x → S y → R x y → value x < value y) :
    (∃ x, search key k t = some (some x) ∧ S x ∧ value x = k) ∨
    (search key k t = some none ∧ ∀ x, S x → value x ≠ k) := by
  have sorted := holds.sorted.imp_of_mem fun hx hy =>
    order _ _ ((holds.mem _).mp hx) ((holds.mem _).mp hy)
  have member := fun x => (holds.mem x).mp
  have found : ∃ r, search key k t = some r ∧ ∀ y, r = some y ↔ y ∈ inorder t ∧ value y = k := by
    clear holds
    induction t with
    | leaf => exact ⟨none,rfl,by simp [inorder]⟩
    | node c l x r ihl ihr =>
      simp only [inorder] at sorted member ⊢
      obtain ⟨left,right,across⟩ := pairwise_append.mp sorted
      obtain ⟨above,right⟩ := pairwise_cons.mp right
      obtain ⟨low,lower,inLow⟩ := ihl left fun y hy => member y (by simp [hy])
      obtain ⟨high,higher,inHigh⟩ := ihr right fun y hy => member y (by simp [hy])
      simp only [search,known x (member x (by simp))]
      split
      · exact ⟨low,lower,by grind⟩
      split
      · exact ⟨high,higher,by grind⟩
      · exact ⟨some x,rfl,by grind⟩
  obtain ⟨r,done,at_⟩ := found
  cases r with
  | some x =>
    obtain ⟨mem,same⟩ := (at_ x).mp rfl
    exact .inl ⟨x,done,member x mem,same⟩
  | none => exact .inr ⟨done,fun x hx same => some_ne_none x ((at_ x).mpr ⟨(holds.mem x).mpr hx,same⟩).symm⟩

variable (key value) in
theorem holdsInsertKeyed (k : Nat) (holds : Holds t S (fun a b => value a < value b))
    (known : ∀ y, S y → key y = some (value y)) (fresh : ∀ y, S y → value y ≠ k) (own : value x = k) :
    ∃ t', insertKeyed key k x t = some t' ∧ Holds t' (fun y => y = x ∨ S y) (fun a b => value a < value b) := by
  refine holdsInsert _ (fun y => decide (k < value y)) holds (fun here => fresh x here own) ?_ ?_ ?_ ?_
  · intro y hy
    have other := fresh y hy
    simp only [known y hy,bind_some]
    split
    · simp [*]
    · rename_i notBefore
      have after : value y < k := by omega
      simp [after,notBefore]
  · intro a b _ _ order before
    simp only [decide_eq_true_eq] at before ⊢
    omega
  · intro y hy after
    have other := fresh y hy
    simp only [decide_eq_false_iff_not] at after
    omega
  · intro y _ before
    simp only [decide_eq_true_eq] at before
    omega

theorem holdsOnce (holds : Holds t S (fun a b => value a < value b)) {y} (hx : S x) (hy : S y)
    (same : value x = value y) : x = y := by
  have nodup := pairwise_map.mpr (holds.sorted.imp Nat.ne_of_lt)
  exact inj_on_of_nodup_map nodup ((holds.mem x).mpr hx) ((holds.mem y).mpr hy) same

end EclairKernel.Rbtree
