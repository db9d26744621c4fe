import SonicUtils.Fault
import SonicUtils.Lib.Compare
import SonicUtils.Lib.RedBlack

/-!
# Red-black trees: the table and its operations

`std_rbtree.c`. A pointer to a node is `none` where it is `NIL(rbtt)`, the
sentinel in the table. The colour and the parent of the sentinel are read and
written as the code does; where the code takes a pointer for one to a node and
it is the sentinel, that is a fault. A datum is a pointer that is not NULL, so
that the asserts on data hold. `rbtt_name`, `rbtt_keyoffset`, `rbtt_keylength`,
`rbtt_debug` and `rbt_height` are left out: they decide nothing.

The code for one side and its mirror image are one definition with the side as
an argument: `false` is left and `true` is right.
-/

namespace SonicUtils.RbTree

open Loop RedBlack

abbrev NodeId := Nat

/-- `std_rbtree_node`. -/
structure RbNode (δ : Type) where
  rbtLeft : Option NodeId
  rbtRight : Option NodeId
  rbtParent : Option NodeId
  rbtColor : Color
  rbtData : δ

def RbNode.child {δ : Type} (n : RbNode δ) (side : Bool) : Option NodeId :=
  if side then n.rbtRight else n.rbtLeft

def RbNode.setChild {δ : Type} (n : RbNode δ) (side : Bool) (p : Option NodeId) : RbNode δ :=
  if side then { n with rbtRight := p } else { n with rbtLeft := p }

/-- `std_rbtree_table`, and in the last field the nodes that are allocated. -/
structure Rbtt (δ : Type) where
  rbttMagic : UInt64
  rbttRoot : Option NodeId
  rbttCompare : δ → δ → Int
  rbttNuminodes : UInt64
  rbttNuminserts : UInt64
  rbttNumremoved : UInt64
  rbttNummallocs : UInt64
  rbttNumfrees : UInt64
  nil : RbNode Unit
  nodes : NodeId → Option (RbNode δ)

def rbtMagic : UInt64 := 0xdeadbeef

/-- `std_rbtree_create`. -/
def stdRbtreeCreate {δ : Type} (compare : δ → δ → Int) : Rbtt δ where
  rbttMagic := rbtMagic
  rbttRoot := none
  rbttCompare := compare
  rbttNuminodes := 0
  rbttNuminserts := 0
  rbttNumremoved := 0
  rbttNummallocs := 0
  rbttNumfrees := 0
  nil := ⟨none, none, none, .black, ()⟩
  nodes _ := none

namespace Rbtt

variable {δ : Type}

/-! ## Nodes -/

/-- `RBT_VALIDATE_HANDLE`. -/
def validateHandle (rbtt : Rbtt δ) : Except Fault Unit := check (rbtt.rbttMagic = rbtMagic)

/-- `*x`. -/
def node (rbtt : Rbtt δ) (x : NodeId) : Except Fault (RbNode δ) :=
  match rbtt.nodes x with
  | none => throw .freed
  | some n => pure n

/-- A write of fields of `*x`. -/
def write (rbtt : Rbtt δ) (x : NodeId) (f : RbNode δ → RbNode δ) : Except Fault (Rbtt δ) := do
  let n ← rbtt.node x
  return { rbtt with nodes := Function.update rbtt.nodes x (some (f n)) }

/-- `x->rbt_parent`. -/
def parent (rbtt : Rbtt δ) (x : Option NodeId) : Except Fault (Option NodeId) :=
  match x with
  | none => pure rbtt.nil.rbtParent
  | some x => do return (← rbtt.node x).rbtParent

def setParent (rbtt : Rbtt δ) (x p : Option NodeId) : Except Fault (Rbtt δ) :=
  match x with
  | none => pure { rbtt with nil := { rbtt.nil with rbtParent := p } }
  | some x => rbtt.write x fun n => { n with rbtParent := p }

/-- `x->rbt_color`. -/
def color (rbtt : Rbtt δ) (x : Option NodeId) : Except Fault Color :=
  match x with
  | none => pure rbtt.nil.rbtColor
  | some x => do return (← rbtt.node x).rbtColor

def setColor (rbtt : Rbtt δ) (x : Option NodeId) (c : Color) : Except Fault (Rbtt δ) :=
  match x with
  | none => pure { rbtt with nil := { rbtt.nil with rbtColor := c } }
  | some x => rbtt.write x fun n => { n with rbtColor := c }

/-- `x->rbt_left` or `x->rbt_right`. -/
def child (rbtt : Rbtt δ) (x : NodeId) (side : Bool) : Except Fault (Option NodeId) := do
  return (← rbtt.node x).child side

/-- The parent, where it is taken for a node. -/
def parentNode (rbtt : Rbtt δ) (x : Option NodeId) : Except Fault NodeId := do deref (← rbtt.parent x)

/-- The child, where it is taken for a node. -/
def childNode (rbtt : Rbtt δ) (x : NodeId) (side : Bool) : Except Fault NodeId := do
  deref (← rbtt.child x side)

/-- Whether `x` is the left or the right child of `p`. -/
def sideOf (rbtt : Rbtt δ) (p : NodeId) (x : Option NodeId) : Except Fault Bool := do
  return !decide (x = (← rbtt.child p false))

/-- The pointer to `x` in its parent `p`, or in the table, from now on is `y`. -/
def relink (rbtt : Rbtt δ) (side : Bool) (p : Option NodeId) (x : NodeId) (y : Option NodeId) :
    Except Fault (Rbtt δ) :=
  match p with
  | none => pure { rbtt with rbttRoot := y }
  | some p => rbtt.write p fun n => if n.child side = some x then n.setChild side y else n.setChild (!side) y

/-- A child that is a node gets the parent. -/
def adopt (rbtt : Rbtt δ) (x p : Option NodeId) : Except Fault (Rbtt δ) :=
  if x = none then pure rbtt else rbtt.setParent x p

/-! ## Balance -/

/-- `std_rbtree_rotateleft`, or for the right side its mirror image. -/
def rotate (side : Bool) (rbtt : Rbtt δ) (x : NodeId) : Except Fault (Rbtt δ) := do
  let y ← rbtt.childNode x (!side)
  let inner ← rbtt.child y side
  let rbtt ← rbtt.write x fun n => n.setChild (!side) inner
  let rbtt ← rbtt.adopt inner (some x)
  let p ← rbtt.parent (some x)
  let rbtt ← rbtt.setParent (some y) p
  let rbtt ← rbtt.relink side p x (some y)
  let rbtt ← rbtt.write y fun n => n.setChild side (some x)
  rbtt.setParent (some x) (some y)

def stdRbtreeRotateleft (rbtt : Rbtt δ) (x : NodeId) : Except Fault (Rbtt δ) := rbtt.rotate false x

def stdRbtreeRotateright (rbtt : Rbtt δ) (x : NodeId) : Except Fault (Rbtt δ) := rbtt.rotate true x

/-- The uncle is red. -/
def insertRed (rbtt : Rbtt δ) (p g : NodeId) (y : Option NodeId) : Except Fault (Rbtt δ × NodeId) := do
  let rbtt ← rbtt.setColor (some p) .black
  let rbtt ← rbtt.setColor y .black
  let rbtt ← rbtt.setColor (some g) .red
  return (rbtt, g)

/-- `x` as an outer child of its parent `p`. -/
def outward (side : Bool) (rbtt : Rbtt δ) (x p : NodeId) : Except Fault (Rbtt δ × NodeId) := do
  if some x = (← rbtt.child p (!side)) then return (← rbtt.rotate side p, p) else return (rbtt, x)

/-- The uncle is black. -/
def insertBlack (side : Bool) (rbtt : Rbtt δ) (x p : NodeId) : Except Fault (Rbtt δ × NodeId) := do
  let (rbtt, x) ← outward side rbtt x p
  let p ← rbtt.parentNode (some x)
  let rbtt ← rbtt.setColor (some p) .black
  let g ← rbtt.parentNode (some p)
  let rbtt ← rbtt.setColor (some g) .red
  return (← rbtt.rotate (!side) g, x)

/-- The loop body of `std_rbtree_balanceoninsert`, on the table and `x`. -/
def insertTurn (s : Rbtt δ × NodeId) : Except Fault ((Rbtt δ × NodeId) ⊕ Rbtt δ) := do
  let (rbtt, x) := s
  if rbtt.rbttRoot = some x then return .inr rbtt
  else
    let p ← rbtt.parentNode (some x)
    if (← rbtt.color (some p)) ≠ .red then return .inr rbtt
    else
      let g ← rbtt.parentNode (some p)
      let side ← rbtt.sideOf g (some p)
      let y ← rbtt.child g (!side)
      if y ≠ none ∧ (← rbtt.color y) = .red then return .inl (← insertRed rbtt p g y)
      else return .inl (← insertBlack side rbtt x p)

/-- `std_rbtree_balanceoninsert`. -/
def stdRbtreeBalanceoninsert (rbtt : Rbtt δ) (x : NodeId) (fuel : Nat) : Except Fault (Rbtt δ) := do
  let rbtt ← rbtt.setColor (some x) .red
  let rbtt ← loop .noReturn insertTurn fuel (rbtt, x)
  rbtt.setColor rbtt.rbttRoot .black

/-- A black sibling of `x`, in place of `w`. -/
def blackSibling (side : Bool) (rbtt : Rbtt δ) (x : Option NodeId) (p w : NodeId) :
    Except Fault (Rbtt δ × Option NodeId) := do
  if (← rbtt.color (some w)) = .red then
    let rbtt ← rbtt.setColor (some w) .black
    let rbtt ← rbtt.setColor (some p) .red
    let rbtt ← rbtt.rotate side p
    return (rbtt, ← rbtt.child (← rbtt.parentNode x) (!side))
  else return (rbtt, some w)

/-- A sibling with a red outer child, in place of `w`. -/
def redOuter (side : Bool) (rbtt : Rbtt δ) (x : Option NodeId) (w : NodeId) : Except Fault (Rbtt δ × NodeId) := do
  if (← rbtt.color (← rbtt.child w (!side))) = .black then
    let rbtt ← rbtt.setColor (some (← rbtt.childNode w side)) .black
    let rbtt ← rbtt.setColor (some w) .red
    let rbtt ← rbtt.rotate (!side) w
    return (rbtt, ← rbtt.childNode (← rbtt.parentNode x) (!side))
  else return (rbtt, w)

/-- The sibling has a red child. -/
def removeRed (side : Bool) (rbtt : Rbtt δ) (x : Option NodeId) (w : NodeId) :
    Except Fault (Rbtt δ × Option NodeId) := do
  let (rbtt, w) ← redOuter side rbtt x w
  let p ← rbtt.parentNode x
  let rbtt ← rbtt.setColor (some w) (← rbtt.color (some p))
  let rbtt ← rbtt.setColor (some p) .black
  let rbtt ← rbtt.setColor (some (← rbtt.childNode w (!side))) .black
  let rbtt ← rbtt.rotate side p
  return (rbtt, rbtt.rbttRoot)

/-- The sibling has black children only. -/
def removeBlack (rbtt : Rbtt δ) (x : Option NodeId) (w : NodeId) : Except Fault (Rbtt δ × Option NodeId) := do
  let rbtt ← rbtt.setColor (some w) .red
  return (rbtt, ← rbtt.parent x)

/-- The loop body of `std_rbtree_balanceonremove`, on the table and `x`. -/
def removeTurn (s : Rbtt δ × Option NodeId) :
    Except Fault ((Rbtt δ × Option NodeId) ⊕ (Rbtt δ × Option NodeId)) := do
  let (rbtt, x) := s
  if x = rbtt.rbttRoot ∨ (← rbtt.color x) ≠ .black then return .inr (rbtt, x)
  else
    let p ← rbtt.parentNode x
    let side ← rbtt.sideOf p x
    let w ← rbtt.childNode p (!side)
    let (rbtt, w) ← blackSibling side rbtt x p w
    match w with
    | none => return .inr (rbtt, x)
    | some w =>
      if (← rbtt.color (← rbtt.child w false)) = .black ∧ (← rbtt.color (← rbtt.child w true)) = .black then
        return .inl (← removeBlack rbtt x w)
      else return .inl (← removeRed side rbtt x w)

/-- `std_rbtree_balanceonremove`. -/
def stdRbtreeBalanceonremove (rbtt : Rbtt δ) (x : Option NodeId) (fuel : Nat) : Except Fault (Rbtt δ) := do
  let (rbtt, x) ← loop .noReturn removeTurn fuel (rbtt, x)
  rbtt.setColor x .black

end Rbtt

end SonicUtils.RbTree
