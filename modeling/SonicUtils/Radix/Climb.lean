import SonicUtils.Lib.TrieOrder
import SonicUtils.Radix.Search

/-!
# The loops of the preorder walk

* `climbRight_spec`: the climb to a right sibling of the way;
* `firstRth_spec`: the first head at or after a node.
-/

namespace SonicUtils.Radix

open PtrTree BitTrie

variable {rtt : Rtt} {fs : List (Frame (Node NodeId HeadId))} {x : Node NodeId HeadId} {l r : RtTree}

/-- A climb to the right does not stop at the frame. -/
def Passed (past : Label HeadId → Bool) (f : Frame (Node NodeId HeadId)) : Prop :=
  past f.node.2 = true ∨ f.side = true ∨ f.other = .nil

/-- Where a climb to the right from below `fs` ends. -/
inductive RightOf (past : Label HeadId → Bool) (fs : List (Frame (Node NodeId HeadId))) :
    Option NodeId → Prop
  | out : (∀ f ∈ fs, Passed past f) → RightOf past fs none
  | at (gs : List (Frame (Node NodeId HeadId))) (f : Frame (Node NodeId HeadId))
      (fs' : List (Frame (Node NodeId HeadId))) : fs = gs ++ f :: fs' → (∀ g ∈ gs, Passed past g) →
      past f.node.2 = false → f.side = false → f.other ≠ .nil → RightOf past fs (root f.other)

theorem RightOf.cons {past : Label HeadId → Bool} {f : Frame (Node NodeId HeadId)} {res : Option NodeId}
    (h : RightOf past fs res) (passed : Passed past f) : RightOf past (f :: fs) res := by
  cases h with
  | out all => exact .out (List.forall_mem_cons.mpr ⟨passed, all⟩)
  | «at» gs g fs' split before stop side full =>
    exact .at (f :: gs) g fs' (by rw [split]; rfl) (List.forall_mem_cons.mpr ⟨passed, before⟩) stop side
      full

theorem climbRight_spec (valid above : RtNode → Bool) (fine past : Label HeadId → Bool)
    (checks : ∀ n k lab, RtNode.Holds n k lab → valid n = fine lab)
    (reads : ∀ n k lab, RtNode.Holds n k lab → above n = past lab) (fuel : Nat)
    (fs : List (Frame (Node NodeId HeadId))) (x : Node NodeId HeadId) (l r : RtTree)
    (linked : Linked rtt.mem none (plug fs (.node x l r)))
    (distinct : (ids (plug fs (.node x l r))).Nodup) (enough : fs.length < fuel)
    (good : ∀ f ∈ fs, fine f.node.2 = true) :
    ∃ res, rtt.climbRight valid above fuel x.1 = .ok res ∧ RightOf past fs res := by
  induction fuel generalizing fs x l r with
  | zero => omega
  | succ fuel ih =>
    obtain ⟨⟨n, live, holds⟩, _⟩ := holds_at linked
    cases fs with
    | nil =>
      refine ⟨none, ?_, .out (by simp)⟩
      have parent : n.rtnParent = none := holds.parent
      simp [Rtt.climbRight, node_of live, parent]
    | cons f fs =>
      obtain ⟨p, plive, pholds⟩ := holds_above linked
      have parent : n.rtnParent = some f.node.1 := holds.parent
      have ok : valid p = true := (checks _ _ _ pholds).trans (good f (by simp))
      have turn : rtt.climbRight valid above (fuel + 1) x.1 =
          if past f.node.2 || p.rtnRight = none || p.rtnRight = some x.1 then
            rtt.climbRight valid above fuel f.node.1 else .ok p.rtnRight := by
        simp [Rtt.climbRight, node_of live, parent, node_of plive, ok, reads _ _ _ pholds]
      obtain ⟨l₁, r₁, fill⟩ := exists_fill f (.node x l r)
      have linked' : Linked rtt.mem none (plug fs (.node f.node l₁ r₁)) := fill ▸ linked
      have distinct' : (ids (plug fs (.node f.node l₁ r₁))).Nodup := fill ▸ distinct
      obtain ⟨res, run, right⟩ := ih fs f.node l₁ r₁ linked' distinct' (by simpa using enough)
        fun g hg => good g (by simp [hg])
      rw [turn]
      cases side : f.side with
      | true =>
        have right_x : p.rtnRight = some x.1 := by
          have at_right := pholds.right
          simpa [Frame.links, side] using at_right
        exact ⟨res, by simp [right_x, run], right.cons (.inr (.inl side))⟩
      | false =>
        have right_other : p.rtnRight = root f.other := by
          have at_right := pholds.right
          simpa [Frame.links, side] using at_right
        have apart : root f.other ≠ some x.1 := by
          intro same
          obtain ⟨y, hy, eq⟩ := List.mem_map.mp (root_mem_ids same)
          exact others_apart distinct (.inr (.inr (by simp [hy]))) eq
        by_cases passed : past f.node.2 = true ∨ f.other = .nil
        · refine ⟨res, ?_, right.cons (passed.imp_right .inr)⟩
          rw [if_pos, run]
          rcases passed with up | none
          · simp [up]
          · simp [right_other, none]
        · obtain ⟨stop, full⟩ := not_or.mp passed
          have stop := Bool.eq_false_of_not_eq_true stop
          refine ⟨root f.other, ?_, .at [] f fs rfl (by simp) stop side full⟩
          simp [right_other, stop, apart, full]

/-- The first head at or after a node is in its subtree. -/
theorem firstRth_spec (fuel : Nat) (s : List Bool) (fs : List (Frame (Node NodeId HeadId)))
    (x : Node NodeId HeadId) (l r : RtTree) (linked : Linked rtt.mem none (plug fs (.node x l r)))
    (trie : Trie s (.node x l r)) (enough : (BinaryTree.node x l r).height ≤ fuel) :
    rtt.firstRth fuel x.1 = .ok ((entries (.node x l r)).head?.map Prod.snd) := by
  induction fuel generalizing fs s x l r with
  | zero => simp at enough
  | succ fuel ih =>
    obtain ⟨⟨n, live, holds⟩, _⟩ := holds_at linked
    cases val : x.2.val with
    | some h => simp [Rtt.firstRth, node_of live, holds.rth, val, own]
    | none =>
      obtain ⟨_, two, left, _⟩ := trie
      cases l with
      | nil => exact absurd rfl (two val).1
      | node y yl yr =>
        have child : n.rtnLeft = some y.1 := holds.left
        have room : (BinaryTree.node y yl yr).height ≤ fuel := by
          simp only [BinaryTree.height] at enough ⊢
          omega
        have rest := ih _ (⟨false, x, r⟩ :: fs) y yl yr linked left room
        have first : entries (.node x (.node y yl yr) r) = entries (.node y yl yr) ++ entries r := by
          simp [own, val]
        obtain ⟨e, es, list⟩ := List.exists_cons_of_ne_nil (left.entries_ne_nil (by simp))
        rw [first, list]
        rw [list] at rest
        simp [Rtt.firstRth, Rtt.preorderNext, node_of live, holds.rth, val, child, rest]

/-- One step of the preorder walk: to a child, the left one first, or else to the
right of the way up. -/
theorem preorderNext_spec (linked : Linked rtt.mem none (plug fs (.node x l r)))
    (distinct : (ids (plug fs (.node x l r))).Nodup) (enough : fs.length < Rtt.pathFuel) :
    ∃ res, rtt.preorderNext x.1 = .ok res ∧
      match (l, r) with
      | (.node z _ _, _) => res = some z.1
      | (.nil, .node z _ _) => res = some z.1
      | (.nil, .nil) => RightOf (fun _ => false) fs res := by
  obtain ⟨⟨n, live, holds⟩, _⟩ := holds_at linked
  cases l with
  | node z zl zr =>
    have child : n.rtnLeft = some z.1 := holds.left
    exact ⟨some z.1, by simp [Rtt.preorderNext, node_of live, child], rfl⟩
  | nil =>
    have none_left : n.rtnLeft = none := holds.left
    cases r with
    | node z zl zr =>
      have child : n.rtnRight = some z.1 := holds.right
      exact ⟨some z.1, by simp [Rtt.preorderNext, node_of live, none_left, child], rfl⟩
    | nil =>
      have none_right : n.rtnRight = none := holds.right
      obtain ⟨res, run, right⟩ := climbRight_spec (fun _ => true) (fun _ => false) (fun _ => true)
        (fun _ => false) (fun _ _ _ _ => rfl) (fun _ _ _ _ => rfl) Rtt.pathFuel fs x .nil .nil linked
        distinct enough fun _ _ => rfl
      exact ⟨res, by simp [Rtt.preorderNext, node_of live, none_left, none_right, run], right⟩

end SonicUtils.Radix
