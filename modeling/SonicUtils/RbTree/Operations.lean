import SonicUtils.RbTree.Table

/-!
# Red-black trees: searches, insertion, removal and walks

The functions of `std_rbtree.c` that are called from outside. A loop gets the
fuel that bounds its turns. The functions whose names begin with an underscore
work on nodes, and here have `Node` in their names.
-/

namespace SonicUtils.RbTree.Rbtt

open Loop RedBlack Compare

variable {δ : Type} (rbtt : Rbtt δ)

/-! ## Compare functions -/

/-- `_std_rbtree_compare_ul`; `key` reads the key of a datum. -/
def stdRbtreeCompareUl (key : δ → UInt64) (one two : δ) : Int := threeWay (key one) (key two)

/-- `_std_rbtree_compare_i`. -/
def stdRbtreeCompareI (key : δ → Int32) (one two : δ) : Int := threeWay (key one) (key two)

/-- `std_rbtree_gen_cmp`, where `key` reads `rbtt_keylength` bytes. -/
def stdRbtreeGenCmp (key : δ → List UInt8) (lhs rhs : δ) : Int := threeWay (key lhs) (key rhs)

/-! ## Searches -/

/-- `while (x->rbt_left != NIL(rbtt)) x = x->rbt_left;` -/
def leftmostTurn (x : NodeId) : Except Fault (NodeId ⊕ NodeId) := do
  match (← rbtt.child x false) with
  | none => return .inr x
  | some l => return .inl l

/-- `_std_rbtree_getfirst`. -/
def getfirstNode (fuel : Nat) : Except Fault (Option NodeId) := do
  rbtt.validateHandle
  match rbtt.rbttRoot with
  | none => return none
  | some x => return some (← loop .noReturn rbtt.leftmostTurn fuel x)

/-- `x->rbt_data` of a node that was found. -/
def dataOf (x : Option NodeId) : Except Fault (Option δ) :=
  match x with
  | none => pure none
  | some x => do return some (← rbtt.node x).rbtData

/-- `std_rbtree_getfirst`. -/
def stdRbtreeGetfirst (fuel : Nat) : Except Fault (Option δ) := do
  rbtt.dataOf (← rbtt.getfirstNode fuel)

def getexactTurn (data : δ) (x : Option NodeId) : Except Fault (Option NodeId ⊕ Option NodeId) := do
  match x with
  | none => return .inr none
  | some x =>
    let n ← rbtt.node x
    let cmp := rbtt.rbttCompare data n.rbtData
    if cmp = 0 then return .inr (some x)
    else if cmp < 0 then return .inl n.rbtLeft
    else return .inl n.rbtRight

/-- `_std_rbtree_getexact`. -/
def getexactNode (data : δ) (fuel : Nat) : Except Fault (Option NodeId) := do
  rbtt.validateHandle
  loop .noReturn (rbtt.getexactTurn data) fuel rbtt.rbttRoot

/-- `std_rbtree_getexact`. -/
def stdRbtreeGetexact (data : δ) (fuel : Nat) : Except Fault (Option δ) := do
  rbtt.dataOf (← rbtt.getexactNode data fuel)

/-- `while (y != NIL(rbtt) && x == y->rbt_right) { x = y; y = x->rbt_parent; }`, or for the
left side its mirror image, on `x` and `y`. -/
def climbTurn (side : Bool) (s : NodeId × Option NodeId) :
    Except Fault ((NodeId × Option NodeId) ⊕ Option NodeId) := do
  let (x, y) := s
  match y with
  | none => return .inr none
  | some y =>
    let n ← rbtt.node y
    if n.child side = some x then return .inl (y, n.rbtParent) else return .inr (some y)

/-- The climb from `x` out of subtrees on the side. -/
def climb (side : Bool) (x : NodeId) (fuel : Nat) : Except Fault (Option NodeId) := do
  loop .noReturn (rbtt.climbTurn side) fuel (x, ← rbtt.parent (some x))

/-- `_std_rbtree_getnext`, of a node. -/
def getnextNode (x : NodeId) (fuel : Nat) : Except Fault (Option NodeId) := do
  rbtt.validateHandle
  match (← rbtt.child x true) with
  | some y => return some (← loop .noReturn rbtt.leftmostTurn fuel y)
  | none => rbtt.climb true x fuel

/-- The loop body of `_std_rbtree_getexactornext`, or for the left side of
`_std_rbtree_getexactorprev`, but for the climb: the node to go on with, or the
last one and whether to climb from it. The search for the next datum climbs
where it cannot go right, and the other one where it cannot go left. -/
def nearestTurn (side : Bool) (data : δ) (x : Option NodeId) :
    Except Fault (Option NodeId ⊕ (Option NodeId × Bool)) := do
  match x with
  | none => return .inr (none, false)
  | some x =>
    let n ← rbtt.node x
    let cmp := rbtt.rbttCompare data n.rbtData
    if cmp = 0 then return .inr (some x, false)
    else
      let way := !decide (cmp < 0)
      match n.child way with
      | none => return .inr (some x, way = side)
      | some y => return .inl (some y)

def nearestNode (side : Bool) (data : δ) (fuel : Nat) : Except Fault (Option NodeId) := do
  rbtt.validateHandle
  let (x, climbs) ← loop .noReturn (rbtt.nearestTurn side data) fuel rbtt.rbttRoot
  match x with
  | none => return none
  | some x => if climbs then rbtt.climb side x fuel else return some x

/-- `_std_rbtree_getexactornext`. -/
def getexactornextNode (data : δ) (fuel : Nat) : Except Fault (Option NodeId) := rbtt.nearestNode true data fuel

/-- `_std_rbtree_getexactorprev`. -/
def getexactorprevNode (data : δ) (fuel : Nat) : Except Fault (Option NodeId) := rbtt.nearestNode false data fuel

/-- `std_rbtree_getexactornext`. -/
def stdRbtreeGetexactornext (data : δ) (fuel : Nat) : Except Fault (Option δ) := do
  rbtt.dataOf (← rbtt.getexactornextNode data fuel)

/-- `std_rbtree_getexactorprev`. -/
def stdRbtreeGetexactorprev (data : δ) (fuel : Nat) : Except Fault (Option δ) := do
  rbtt.dataOf (← rbtt.getexactorprevNode data fuel)

/-- `std_rbtree_getnext`. -/
def stdRbtreeGetnext (data : δ) (fuel : Nat) : Except Fault (Option δ) := do
  match (← rbtt.getexactNode data fuel) with
  | some x => rbtt.dataOf (← rbtt.getnextNode x fuel)
  | none => rbtt.dataOf (← rbtt.getexactornextNode data fuel)

/-! ## Insertion and removal -/

/-- The search loop of `_std_rbtree_insert`, on `y` and `x`. -/
def insertDescent (data : δ) (s : Option NodeId × Option NodeId) :
    Except Fault ((Option NodeId × Option NodeId) ⊕ Option NodeId) := do
  let (y, x) := s
  match x with
  | none => return .inr y
  | some x =>
    let n ← rbtt.node x
    if rbtt.rbttCompare data n.rbtData < 0 then return .inl (some x, n.rbtLeft)
    else return .inl (some x, n.rbtRight)

/-- The new node below `y`. -/
def hang (z : NodeId) (data : δ) (y : Option NodeId) : Except Fault (Rbtt δ) :=
  match y with
  | none => pure { rbtt with rbttRoot := some z }
  | some y => do
    let n ← rbtt.node y
    rbtt.write y fun n' => n'.setChild (!decide (rbtt.rbttCompare data n.rbtData < 0)) (some z)

/-- `_std_rbtree_insert`. -/
def insertNode (z : NodeId) (fuel : Nat) : Except Fault (Rbtt δ) := do
  rbtt.validateHandle
  let data := (← rbtt.node z).rbtData
  let y ← loop .noReturn (rbtt.insertDescent data) fuel (none, rbtt.rbttRoot)
  let rbtt ← rbtt.write z fun n => { n with rbtParent := y, rbtLeft := none, rbtRight := none }
  let rbtt ← rbtt.hang z data y
  let rbtt ← rbtt.stdRbtreeBalanceoninsert z fuel
  return { rbtt with
    rbttNuminserts := rbtt.rbttNuminserts + 1
    rbttNuminodes := rbtt.rbttNuminodes + 1 }

/-- `std_rbtree_insert`, where `z` is what `rbtt_malloc` gives: whether it returns
`STD_ERR_OK`. All fields of the new node are written before they are read. -/
def stdRbtreeInsert (data : δ) (z : Option NodeId) (fuel : Nat) : Except Fault (Rbtt δ × Bool) := do
  rbtt.validateHandle
  match z with
  | none => return (rbtt, false)
  | some z =>
    let rbtt := { rbtt with
      nodes := Function.update rbtt.nodes z (some ⟨none, none, none, .black, data⟩)
      rbttNummallocs := rbtt.rbttNummallocs + 1 }
    return (← rbtt.insertNode z fuel, true)

/-- In `_std_rbtree_remove`: the node `y` to take out of the tree, which has a NIL as
a child. -/
def removable (z : NodeId) (fuel : Nat) : Except Fault NodeId := do
  let n ← rbtt.node z
  if n.rbtLeft = none ∨ n.rbtRight = none then return z else deref (← rbtt.getnextNode z fuel)

/-- In `_std_rbtree_remove`: the only child `x` of `y` in its place. -/
def spliceOut (x : Option NodeId) (y : NodeId) (p : Option NodeId) : Except Fault (Rbtt δ) := do
  let rbtt ← rbtt.setParent x p
  rbtt.relink false p y x

def rebalance (c : Color) (x : Option NodeId) (fuel : Nat) : Except Fault (Rbtt δ) :=
  if c = .black then rbtt.stdRbtreeBalanceonremove x fuel else pure rbtt

/-- In `_std_rbtree_remove`: the pointer to `z` in its parent, if there is one. -/
def repoint (p : Option NodeId) (z y : NodeId) : Except Fault (Rbtt δ) :=
  if p = none then pure rbtt else rbtt.relink false p z (some y)

/-- In `_std_rbtree_remove`: `y` in the place of `z`. -/
def replace (z y : NodeId) : Except Fault (Rbtt δ) := do
  if y = z then return rbtt
  let rbtt := if rbtt.rbttRoot = some z then { rbtt with rbttRoot := some y } else rbtt
  let n ← rbtt.node z
  let rbtt ← rbtt.write y fun m => { m with
    rbtParent := n.rbtParent, rbtLeft := n.rbtLeft, rbtRight := n.rbtRight, rbtColor := n.rbtColor }
  let rbtt ← rbtt.repoint n.rbtParent z y
  let rbtt ← rbtt.adopt n.rbtLeft (some y)
  rbtt.adopt n.rbtRight (some y)

/-- `_std_rbtree_remove`. -/
def removeNode (z : NodeId) (fuel : Nat) : Except Fault (Rbtt δ) := do
  rbtt.validateHandle
  let y ← rbtt.removable z fuel
  let n ← rbtt.node y
  let x := if n.rbtLeft ≠ none then n.rbtLeft else n.rbtRight
  let rbtt ← rbtt.spliceOut x y n.rbtParent
  let rbtt ← rbtt.rebalance n.rbtColor x fuel
  let rbtt ← rbtt.replace z y
  let rbtt ← rbtt.write z fun n => { n with rbtLeft := none, rbtRight := none, rbtParent := none }
  return { rbtt with
    rbttNumremoved := rbtt.rbttNumremoved + 1
    rbttNuminodes := rbtt.rbttNuminodes - 1 }

/-- `std_rbtree_remove`. -/
def stdRbtreeRemove (data : δ) (fuel : Nat) : Except Fault (Rbtt δ × Option δ) := do
  match (← rbtt.getexactNode data fuel) with
  | none => return (rbtt, none)
  | some x =>
    let rbtt ← rbtt.removeNode x fuel
    let n ← rbtt.node x
    return ({ rbtt with
      nodes := Function.update rbtt.nodes x none
      rbttNumfrees := rbtt.rbttNumfrees + 1 }, some n.rbtData)

end SonicUtils.RbTree.Rbtt
