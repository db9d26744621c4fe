import SonicUtils.RbTree.Operations
import SonicUtils.WalkCount

/-!
# Walks of a red-black tree

`std_rbtree_walk` and `std_rbtree_rwalk`. A `walk_fn` reads and writes memory of
its user's, but not the tree; the data that it is called with are listed.
-/

namespace SonicUtils.RbTree

open Loop RedBlack

variable {δ σ : Type}

inductive WalkDir
  | walkDown
  | walkUp
  | walkRight
  deriving DecidableEq, Repr

/-- `RBT_INORDERWALK` and `RBT_PREORDERWALK`. -/
inductive WalkFlag
  | inorder
  | preorder
  deriving DecidableEq, Repr

/-- A `walk_fn`: what it returns, and the user's memory that it leaves. -/
abbrev WalkFn (σ δ : Type) := δ → σ → Int × σ

/-- The variables of a walk, with the user's memory and the data that `walk_fn` has
been called with so far. -/
structure Walk (σ δ : Type) where
  lcnt : UInt64
  dir : WalkDir
  x : Option NodeId
  user : σ
  calls : List δ

/-- `RBTUSERCALLBACK`. -/
def Walk.userCallback (w : Walk σ δ) (walkFn : Option (WalkFn σ δ)) (data : δ) : Walk σ δ :=
  let w := { w with lcnt := w.lcnt - 1 }
  match walkFn with
  | none => w
  | some walkFn =>
    let (stop, user) := walkFn data w.user
    { w with lcnt := if stop ≠ 0 then 0 else w.lcnt, user := user, calls := w.calls ++ [data] }

namespace Rbtt

variable (rbtt : Rbtt δ)

/-- From `y` to its parent. -/
def walkOut (walkFn : Option (WalkFn σ δ)) (flag : WalkFlag) (w : Walk σ δ) (y : NodeId) (n : RbNode δ) :
    Except Fault (Walk σ δ ⊕ (Option NodeId × Walk σ δ)) :=
  match n.rbtParent with
  | none => return .inr (none, { w with x := none })
  | some x => do
    let n ← rbtt.node x
    if n.rbtLeft = some y then
      let w := { w with x := some x, dir := .walkRight }
      return .inl (if flag = .inorder then w.userCallback walkFn n.rbtData else w)
    else return .inl { w with x := some x, dir := .walkUp }

/-- One turn of the loop of `_std_rbtree_walk`, which returns a node and, in this
model, the variables. -/
def walkTurn (walkFn : Option (WalkFn σ δ)) (flag : WalkFlag) (w : Walk σ δ) :
    Except Fault (Walk σ δ ⊕ (Option NodeId × Walk σ δ)) :=
  match w.x with
  | none => return .inr (none, w)
  | some x =>
    if w.lcnt = 0 then return .inr (some x, w)
    else do
      let n ← rbtt.node x
      match w.dir with
      | .walkDown =>
        match n.rbtLeft with
        | some l =>
          let w := if flag = .preorder then w.userCallback walkFn n.rbtData else w
          return .inl { w with x := some l }
        | none => return .inl { w.userCallback walkFn n.rbtData with dir := .walkRight }
      | .walkRight =>
        match n.rbtRight with
        | none => rbtt.walkOut walkFn flag w x n
        | some r => return .inl { w with dir := .walkDown, x := some r }
      | .walkUp => rbtt.walkOut walkFn flag w x n

/-- The variables of `_std_rbtree_walk` before its loop. -/
def walkStart (x : Option NodeId) (cnt : Int32) (user : σ) : Walk σ δ :=
  match x with
  | none => ⟨walkCount cnt, .walkDown, rbtt.rbttRoot, user, []⟩
  | some x => ⟨walkCount cnt, .walkRight, some x, user, []⟩

/-- `_std_rbtree_walk`. -/
def walkNode (x : Option NodeId) (walkFn : Option (WalkFn σ δ)) (cnt : Int32) (flag : WalkFlag) (user : σ)
    (fuel : Nat) : Except Fault (Option NodeId × Walk σ δ) := do
  rbtt.validateHandle
  loop .noReturn (rbtt.walkTurn walkFn flag) fuel (rbtt.walkStart x cnt user)

/-- Where `std_rbtree_walk` starts. -/
def walkFrom (data : Option δ) (fuel : Nat) : Except Fault (Option NodeId) :=
  match data with
  | none => pure none
  | some data => rbtt.getexactornextNode data fuel

/-- `std_rbtree_walk`: what it returns, the user's memory and the data that `walk_fn`
is called with. -/
def stdRbtreeWalk (data : Option δ) (walkFn : Option (WalkFn σ δ)) (cnt : Int32) (flag : WalkFlag) (user : σ)
    (fuel : Nat) : Except Fault (Option δ × σ × List δ) := do
  rbtt.validateHandle
  let x ← rbtt.walkFrom data fuel
  let (y, w) ← rbtt.walkNode x walkFn cnt flag user fuel
  return (← rbtt.dataOf y, w.user, w.calls)

/-- `_std_rbtree_rwalk`, from `x` down. -/
def rwalkNode (walkFn : WalkFn σ δ) : Nat → Option NodeId → σ × List δ → Except Fault (σ × List δ)
  | _, none, s => return s
  | 0, some _, _ => throw .noReturn
  | fuel + 1, some x, s => do
    let n ← rbtt.node x
    let (user, calls) ← rwalkNode walkFn fuel n.rbtLeft s
    let (_, user) := walkFn n.rbtData user
    rwalkNode walkFn fuel n.rbtRight (user, calls ++ [n.rbtData])

/-- `std_rbtree_rwalk`. -/
def stdRbtreeRwalk (walkFn : WalkFn σ δ) (user : σ) (fuel : Nat) : Except Fault (σ × List δ) := do
  rbtt.validateHandle
  rbtt.rwalkNode walkFn fuel rbtt.rbttRoot (user, [])

end Rbtt

end SonicUtils.RbTree
