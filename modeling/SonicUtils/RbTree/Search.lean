import SonicUtils.Lib.SearchTree
import SonicUtils.RbTree.Memory
import SonicUtils.RbTree.Operations

/-!
# Searches of a red-black tree

The loops that only read, on the tree that the table holds.

* `insertDescent_spec`, `getexact_spec`, `nearest_spec`: the ways down;
* `climb_spec`: the way up;
* `getnextNode_spec`: the next node in the inorder.
-/

namespace SonicUtils.RbTree

open PtrTree RedBlack Loop

variable {δ : Type} {rbtt : Rbtt δ} {x y : Cell δ} {l r t : Cells δ} {fs : List (Frame (Cell δ))} {f : Frame (Cell δ)}
  {side : Bool} {data : δ}

/-! ## Ways down -/

/-- The ways of the search loops at a node. -/
def insertWay (compare : δ → δ → Int) (data : δ) (x : Cell δ) : Option Bool :=
  some (!decide (compare data x.2.2 < 0))

def exactWay (compare : δ → δ → Int) (data : δ) (x : Cell δ) : Option Bool :=
  if compare data x.2.2 = 0 then none else some (!decide (compare data x.2.2 < 0))

theorem insertDescent_spec (h : Holds rbtt (plug fs t)) (data : δ) :
    Ends .noReturn (rbtt.insertDescent data) (up fs, root t)
      (up (descend (insertWay rbtt.rbttCompare data) fs t).1) := by
  induction t generalizing fs with
  | nil => exact .done rfl
  | node x l r ihl ihr =>
    have turn : rbtt.insertDescent data (up fs, some x.1) =
        .ok (.inl (some x.1, if rbtt.rbttCompare data x.2.2 < 0 then root l else root r)) := by
      simp only [Rbtt.insertDescent, node_of h.at, ok_bind]
      split <;> rfl
    apply Ends.head turn
    by_cases less : rbtt.rbttCompare data x.2.2 < 0
    · rw [if_pos less, descend_left (by simp [insertWay, less])]
      exact @ihl (⟨false, x, r⟩ :: fs) h
    · rw [if_neg less, descend_right (by simp [insertWay, less])]
      exact @ihr (⟨true, x, l⟩ :: fs) h

theorem getexact_spec (h : Holds rbtt (plug fs t)) (data : δ) :
    Ends .noReturn (rbtt.getexactTurn data) (root t)
      (root (descend (exactWay rbtt.rbttCompare data) fs t).2) := by
  induction t generalizing fs with
  | nil => exact .done rfl
  | node x l r ihl ihr =>
    by_cases here : rbtt.rbttCompare data x.2.2 = 0
    · rw [descend_stop (by simp [exactWay, here])]
      apply Ends.done
      simp [Rbtt.getexactTurn, node_of h.at, here]
    · by_cases less : rbtt.rbttCompare data x.2.2 < 0
      · rw [descend_left (by simp [exactWay, less, here])]
        apply Ends.head _ (@ihl (⟨false, x, r⟩ :: fs) h)
        simp [Rbtt.getexactTurn, node_of h.at, here, less]
      · rw [descend_right (by simp [exactWay, less, here])]
        apply Ends.head _ (@ihr (⟨true, x, l⟩ :: fs) h)
        simp [Rbtt.getexactTurn, node_of h.at, here, less]

/-- Where the search for the nearest node ends, and whether it climbs from
there. -/
def nearestEnd (side : Bool) : List (Frame (Cell δ)) × Cells δ → Option NodeId × Bool
  | (_, .node x _ _) => (some x.1, false)
  | ([], .nil) => (none, false)
  | (f :: _, .nil) => (some f.node.1, f.side = side)

theorem nearest_spec (h : Holds rbtt (plug fs t)) (some_ : t ≠ .nil) (side : Bool) (data : δ) :
    Ends .noReturn (rbtt.nearestTurn side data) (root t)
      (nearestEnd side (descend (exactWay rbtt.rbttCompare data) fs t)) := by
  induction t generalizing fs with
  | nil => exact absurd rfl some_
  | node x l r ihl ihr =>
    by_cases here : rbtt.rbttCompare data x.2.2 = 0
    · rw [descend_stop (by simp [exactWay, here])]
      apply Ends.done
      simp [Rbtt.nearestTurn, node_of h.at, here, nearestEnd]
    · by_cases less : rbtt.rbttCompare data x.2.2 < 0
      · have way : ¬0 ≤ rbtt.rbttCompare data x.2.2 := by omega
        rw [descend_left (by simp [exactWay, less, here])]
        cases l with
        | nil =>
          apply Ends.done
          simp [Rbtt.nearestTurn, node_of h.at, here, way, less, RbNode.child, nearestEnd, descend]
        | node y l' r' =>
          apply Ends.head _ (@ihl (⟨false, x, r⟩ :: fs) h (by simp))
          simp [Rbtt.nearestTurn, node_of h.at, here, way, RbNode.child]
      · have way : 0 ≤ rbtt.rbttCompare data x.2.2 := by omega
        rw [descend_right (by simp [exactWay, less, here])]
        cases r with
        | nil =>
          apply Ends.done
          simp [Rbtt.nearestTurn, node_of h.at, here, way, less, RbNode.child, nearestEnd, descend]
        | node y l' r' =>
          apply Ends.head _ (@ihr (⟨true, x, l⟩ :: fs) h (by simp))
          simp [Rbtt.nearestTurn, node_of h.at, here, way, RbNode.child]

theorem leftmost_spec {i : NodeId} (h : Holds rbtt (plug fs t)) (top : root t = some i) :
    ∃ y, (inorder t).head? = some y ∧ Ends .noReturn rbtt.leftmostTurn i y.1 := by
  induction t generalizing fs i with
  | nil => cases top
  | node x l r ihl _ =>
    obtain rfl := Option.some.inj top
    cases l with
    | nil =>
      refine ⟨x, rfl, .done ?_⟩
      simp [Rbtt.leftmostTurn, Rbtt.child, node_of h.at, RbNode.child]
    | node y ly ry =>
      obtain ⟨first, head, ends⟩ := @ihl (⟨false, x, r⟩ :: fs) y.1 h rfl
      refine ⟨first, ?_, .head ?_ ends⟩
      · rw [inorder_node, List.head?_append, head]
        rfl
      · simp [Rbtt.leftmostTurn, Rbtt.child, node_of h.at, RbNode.child]

/-! ## The way up -/

theorem climbLoop_spec (h : Holds rbtt (plug fs (.node x l r))) (side : Bool) :
    Ends .noReturn (rbtt.climbTurn side) (x.1, up fs) ((turning side fs).map Prod.fst) := by
  induction fs generalizing x l r with
  | nil => exact .done rfl
  | cons f fs ih =>
    have apart := h.apart (by simp)
    rw [root_node] at apart
    obtain ⟨n, live, parent, child, other⟩ := h.above
    by_cases same : f.side = side
    · obtain ⟨l', r', filled⟩ := exists_fill f (.node x l r)
      have above : Holds rbtt (plug fs (.node f.node l' r')) := filled ▸ h
      rw [turning, if_pos same]
      apply Ends.head _ (ih above)
      rw [same, root_node] at child
      simp [Rbtt.climbTurn, node_of live, child, parent]
    · rw [turning, if_neg same]
      apply Ends.done
      have flipped : side = !f.side := by cases side <;> simp_all
      rw [← flipped] at other
      simp [Rbtt.climbTurn, node_of live, other, apart]

theorem climb_spec (h : Holds rbtt (plug fs (.node x l r))) (side : Bool) :
    Returns (rbtt.climb side x.1) ((turning side fs).map Prod.fst) := by
  apply Returns.bind (.of_ok fun _ => h.parent)
  exact climbLoop_spec h side

theorem getnextNode_spec (h : Holds rbtt (plug fs (.node x l r))) (magic : rbtt.rbttMagic = rbtMagic) :
    Returns (rbtt.getnextNode x.1) ((inorder r ++ after fs).head?.map Prod.fst) := by
  have valid : rbtt.validateHandle = .ok () := check_of magic
  have child : rbtt.child x.1 true = .ok (root r) := by simp [Rbtt.child, node_of h.at, RbNode.child]
  cases r with
  | nil =>
    have run (fuel : Nat) : rbtt.getnextNode x.1 fuel = rbtt.climb true x.1 fuel := by
      simp [Rbtt.getnextNode, valid, child]
    rw [inorder_nil, List.nil_append, ← turning_right, funext run]
    exact climb_spec h true
  | node y l' r' =>
    have below : Holds rbtt (plug (⟨true, x, l⟩ :: fs) (.node y l' r')) := h
    obtain ⟨first, head, ends⟩ := leftmost_spec below rfl
    have run (fuel : Nat) : rbtt.getnextNode x.1 fuel =
        (loop .noReturn rbtt.leftmostTurn fuel y.1 >>= fun z => .ok (some z)) := by
      simp [Rbtt.getnextNode, valid, child]
    rw [List.head?_append, head, funext run]
    exact Returns.bind ends (.of_ok fun _ => rfl)

theorem dataOf_spec (h : Holds rbtt t) (mem : x ∈ nodes t) : rbtt.dataOf (some x.1) = .ok (some x.2.2) := by
  obtain ⟨k, held⟩ := h.linked.holds mem
  simp [Rbtt.dataOf, node_of held]

end SonicUtils.RbTree
