import SonicUtils.RbTree.Remove
import SonicUtils.RbTree.Search

/-!
# Insertion into a red-black tree and removal from it

* `Ordered`: what every operation keeps;
* `insertNode_spec`: the new item is behind all that are not greater;
* `removeNode_spec`: one item is taken out.
-/

namespace SonicUtils.RbTree

open PtrTree RedBlack Loop Compare

variable {δ : Type} {rbtt rbtt' : Rbtt δ} {x y z : Cell δ} {l r t t' : Cells δ} {fs : List (Frame (Cell δ))}
  {f : Frame (Cell δ)} {i : NodeId} {n : RbNode δ} {data : δ}

/-- A red-black tree in the order of its compare function. -/
structure Ordered (rbtt : Rbtt δ) (t : Cells δ) : Prop where
  holds : Holds rbtt t
  magic : rbtt.rbttMagic = rbtMagic
  nil : rbtt.nil.rbtColor = .black
  balanced : ∃ m, Rb Cell.color .black m t
  sorted : Ascending rbtt.rbttCompare ((items t).map Prod.snd)

/-- The order of the nodes. -/
def cellLe (compare : δ → δ → Int) (x y : Cell δ) : Prop := compare x.2.2 y.2.2 ≤ 0

theorem Ordered.pairwise (h : Ordered rbtt t) : (inorder t).Pairwise (cellLe rbtt.rbttCompare) := by
  have sorted := h.sorted
  rw [Ascending, items, List.map_map, List.pairwise_map] at sorted
  exact sorted

theorem insertWay_directs {compare : δ → δ → Int} (order : TotalPreorder compare) (data : δ) :
    Directs (insertWay compare data) (cellLe compare) := by
  constructor
  · intro x y le left
    have less : compare data x.2.2 < 0 := by simpa [insertWay] using left
    simpa [insertWay] using order.lt_of_lt_of_le less le
  · intro x y le right
    have more : 0 ≤ compare data x.2.2 := by simpa [insertWay] using right
    have back : compare x.2.2 data ≤ 0 := order.not_lt.mp (by omega)
    have less := order.not_lt.mpr (order.trans _ _ _ le back)
    simpa [insertWay] using less

theorem exactWay_directs {compare : δ → δ → Int} (order : TotalPreorder compare) (data : δ) :
    Directs (exactWay compare data) (cellLe compare) := by
  have left_iff (x : Cell δ) : exactWay compare data x = some false ↔ compare data x.2.2 < 0 := by
    simp only [exactWay]
    split
    · simp
      omega
    · simp
  have right_iff (x : Cell δ) : exactWay compare data x = some true ↔ compare x.2.2 data < 0 := by
    have flip := order.flip x.2.2 data
    simp only [exactWay]
    split <;> simp <;> omega
  constructor
  · intro x y le left
    rw [left_iff] at left ⊢
    exact order.lt_of_lt_of_le left le
  · intro x y le right
    rw [right_iff] at right ⊢
    exact order.lt_of_le_of_lt le right

/-- The insertion loop ends below a place for the datum. -/
theorem exists_place (order : TotalPreorder rbtt.rbttCompare) (h : Ordered rbtt t) (data : δ) :
    ∃ fs, Ends .noReturn (rbtt.insertDescent data) (none, root t) (up fs) ∧ plug fs .nil = t ∧
      (∀ f ∈ fs, (!decide (rbtt.rbttCompare data f.node.2.2 < 0)) = f.side) ∧
      (∀ y ∈ before fs, rbtt.rbttCompare y.2.2 data ≤ 0) ∧ ∀ y ∈ after fs, rbtt.rbttCompare data y.2.2 < 0 := by
  have whole : Holds rbtt (plug [] t) := h.holds
  have ends := insertDescent_spec whole data
  have filled := plug_descend (insertWay rbtt.rbttCompare data) [] t
  have out : (descend (insertWay rbtt.rbttCompare data) [] t).2 = .nil := by
    cases last : (descend (insertWay rbtt.rbttCompare data) [] t).2 with
    | nil => rfl
    | node x l r => cases descend_node last
  rw [out] at filled
  have sorted : (inorder (plug [] t)).Pairwise (cellLe rbtt.rbttCompare) := h.pairwise
  obtain ⟨below, above⟩ := descend_bounds (insertWay_directs order data) sorted (by simp) (by simp)
  refine ⟨_, ends, filled, ?_, ?_, ?_⟩
  · intro f hf
    cases mem_descend hf with
    | inl mem => cases mem
    | inr way => exact Option.some.inj way
  · intro y hy
    have way := below y hy
    have notLess : ¬rbtt.rbttCompare data y.2.2 < 0 := by simpa [insertWay] using way
    exact order.not_lt.mp notLess
  · intro y hy
    have way := above y hy
    simpa [insertWay] using way

/-- The new node hangs at its place. -/
theorem hang_spec (h : Holds rbtt (plug fs .nil)) (live : rbtt.nodes i = some ⟨none, none, up fs, n.rbtColor, n.rbtData⟩)
    (out : i ∉ ids (plug fs (.nil : Cells δ)))
    (sides : ∀ f ∈ fs, (!decide (rbtt.rbttCompare data f.node.2.2 < 0)) = f.side) :
    ∃ rbtt', rbtt.hang i data (up fs) = .ok rbtt' ∧
      Holds rbtt' (plug fs (.node (i, (n.rbtColor, n.rbtData)) .nil .nil)) ∧ rbtt'.rest = rbtt.rest ∧
      ∀ j, up fs ≠ some j → rbtt'.nodes j = rbtt.nodes j := by
  obtain ⟨_, above⟩ := linked_plug.mp h.linked
  have distinct : (ids (plug fs (.node (i, (n.rbtColor, n.rbtData)) .nil .nil))).Nodup := by
    rw [nodup_plug]
    rw [(ids_plug fs _).mem_iff] at out
    exact List.nodup_cons.mpr ⟨out, nodup_above h.distinct⟩
  cases fs with
  | nil => exact ⟨_, rfl, ⟨rfl, ⟨live, trivial, trivial⟩, distinct⟩, rfl, fun _ _ => rfl⟩
  | cons f fs =>
    obtain ⟨rbtt', run, here, keep, rest, top⟩ := write_spec h.frame fun n => n.setChild f.side (some i)
    have side := sides f List.mem_cons_self
    have out' : i ∉ (nodesAbove (f :: fs)).map Prod.fst := by
      intro mem
      exact out ((ids_plug _ _).mem_iff.mpr (List.mem_append_right _ mem))
    rw [nodesAbove_cons, List.map_cons, List.mem_cons, not_or] at out'
    refine ⟨rbtt', ?_, ⟨?_, linked_plug.mpr ⟨⟨?_, trivial, trivial⟩, above.repoint ?_ ?_⟩, distinct⟩, rest, ?_⟩
    · simp only [Rbtt.hang, up_cons, node_of h.frame, ok_bind, side, run]
    · exact top.trans (h.top.trans (root_plug_cons ..).symm)
    · exact (keep i out'.1).trans live
    · refine here.trans ?_
      clear side
      cases f with
      | mk side y other => cases side <;> rfl
    · intro y hy k held
      refine (keep y.1 ?_).trans held
      have first := (List.nodup_cons.mp (nodup_above h.distinct)).1
      intro same
      apply first
      rw [← same]
      exact List.mem_map_of_mem hy
    · intro j other
      exact keep j fun same => other (congrArg some same.symm)

/-- The items in a place of a tree and around it. -/
theorem items_at (fs : List (Frame (Cell δ))) (x : Cell δ) (l r : Cells δ) :
    items (plug fs (.node x l r)) =
      ((before fs).map Cell.item ++ items l) ++ x.item :: (items r ++ (after fs).map Cell.item) := by
  rw [items, inorder_plug]
  simp [items]

/-- The item is new in the list, behind those that are not greater. -/
structure Added (compare : δ → δ → Int) (items items' : List (NodeId × δ)) (i : NodeId) (data : δ) : Prop where
  split : ∃ a b, items = a ++ b ∧ items' = a ++ (i, data) :: b ∧ (∀ e ∈ a, compare e.2 data ≤ 0) ∧
    ∀ e ∈ b, compare data e.2 < 0

theorem Added.ascending {compare : δ → δ → Int} {l l' : List (NodeId × δ)} (h : Added compare l l' i data)
    (sorted : Ascending compare (l.map Prod.snd)) : Ascending compare (l'.map Prod.snd) := by
  obtain ⟨a, b, rfl, rfl, below, above⟩ := h.split
  rw [Ascending, List.pairwise_map, List.pairwise_append] at sorted
  rw [Ascending, List.pairwise_map, List.pairwise_append, List.pairwise_cons]
  obtain ⟨first, second, across⟩ := sorted
  refine ⟨first, ⟨fun e he => ?_, second⟩, fun e he e' he' => ?_⟩
  · exact Int.le_of_lt (above e he)
  · cases he' with
    | head => exact below e he
    | tail _ mem => exact across e he e' mem

/-- The new node at its place, before the tree is balanced. -/
structure Hung (rbtt : Rbtt δ) (t : Cells δ) (i : NodeId) (n : RbNode δ) (fs : List (Frame (Cell δ))) (rbtt' : Rbtt δ) :
    Prop where
  place : plug fs .nil = t
  holds : Holds rbtt' (plug fs (.node (i, (n.rbtColor, n.rbtData)) .nil .nil))
  rest : rbtt'.rest = rbtt.rest
  sides : ∀ f ∈ fs, (!decide (rbtt.rbttCompare n.rbtData f.node.2.2 < 0)) = f.side
  below : ∀ y ∈ before fs, rbtt.rbttCompare y.2.2 n.rbtData ≤ 0
  above : ∀ y ∈ after fs, rbtt.rbttCompare n.rbtData y.2.2 < 0
  balance : ∀ rbtt'', Returns (rbtt'.stdRbtreeBalanceoninsert i) rbtt'' → Returns (rbtt.insertNode i)
    { rbtt'' with rbttNuminserts := rbtt''.rbttNuminserts + 1, rbttNuminodes := rbtt''.rbttNuminodes + 1 }
  keep : ∀ j, j ≠ i → up fs ≠ some j → rbtt'.nodes j = rbtt.nodes j

theorem insertNode_hung (order : TotalPreorder rbtt.rbttCompare) (h : Ordered rbtt t) (live : rbtt.nodes i = some n)
    (out : i ∉ ids t) : ∃ fs rbtt', Hung rbtt t i n fs rbtt' := by
  obtain ⟨fs, ends, rfl, sides, below, above⟩ := exists_place order h n.rbtData
  obtain ⟨r₁, run₁, here₁, keep₁, rest₁, root₁⟩ := write_spec live fun n =>
    { n with rbtParent := up fs, rbtLeft := none, rbtRight := none }
  have holds₁ : Holds r₁ (plug fs .nil) := ⟨root₁.trans h.holds.top,
    linked_only h.holds.linked fun j hj => keep₁ j (ne_of_mem_of_not_mem hj out), h.holds.distinct⟩
  have compare₁ : r₁.rbttCompare = rbtt.rbttCompare := rest_compare rest₁
  obtain ⟨r₂, run₂, holds₂, rest₂, keep₂⟩ := hang_spec holds₁ here₁ out (compare₁ ▸ sides)
  refine ⟨fs, r₂, rfl, holds₂, rest₂.trans rest₁, sides, below, above, fun r₃ run₃ => ?_, fun j other off =>
    (keep₂ j off).trans (keep₁ j other)⟩
  apply Returns.bind (.of_ok fun _ => check_of h.magic)
  apply Returns.bind (.of_ok fun _ => node_of live)
  rw [h.holds.top]
  apply Returns.bind ends
  apply Returns.bind (.of_ok fun _ => run₁)
  apply Returns.bind (.of_ok fun _ => run₂)
  apply Returns.bind run₃
  exact .of_ok fun _ => rfl

theorem insertNode_spec (order : TotalPreorder rbtt.rbttCompare) (h : Ordered rbtt t) (live : rbtt.nodes i = some n)
    (out : i ∉ ids t) :
    ∃ rbtt' t', Returns (rbtt.insertNode i) rbtt' ∧ Ordered rbtt' t' ∧
      Added rbtt.rbttCompare (items t) (items t') i n.rbtData ∧
      rbtt'.rest = { rbtt.rest with
        rbttNuminserts := rbtt.rbttNuminserts + 1
        rbttNuminodes := rbtt.rbttNuminodes + 1 } ∧
      ∀ j, j ∉ ids t' → rbtt'.nodes j = rbtt.nodes j := by
  obtain ⟨fs, r₂, hung⟩ := insertNode_hung order h live out
  obtain rfl := hung.place
  have nil₂ : r₂.nil.rbtColor = .black := rest_nil hung.rest ▸ h.nil
  obtain ⟨m, whole⟩ := h.balanced
  obtain ⟨c, k, hole, aboveHole⟩ := whole.split
  cases hole with
  | nil =>
    obtain ⟨r₃, t', run₃, h₃, balanced⟩ := balanceoninsert_spec hung.holds nil₂ aboveHole
    have rest := h₃.rest.trans hung.rest
    have added : Added rbtt.rbttCompare (items (plug fs .nil)) (items t') i n.rbtData := by
      refine ⟨(before fs).map Cell.item, (after fs).map Cell.item, ?_, ?_, ?_, ?_⟩
      · rw [items_plug]
        rfl
      · rw [h₃.items, items_at]
        simp [items, Cell.item]
      · rw [List.forall_mem_map]
        exact hung.below
      · rw [List.forall_mem_map]
        exact hung.above
    refine ⟨_, t', hung.balance r₃ run₃, ⟨⟨h₃.holds.top, h₃.holds.linked, h₃.holds.distinct⟩, ?_, ?_, balanced, ?_⟩, added,
      ?_, ?_⟩
    · exact (rest_magic rest).trans h.magic
    · exact (congrArg RbNode.rbtColor (rest_nil rest)).trans h.nil
    · exact (rest_compare rest).symm ▸ added.ascending h.sorted
    · have counted := congrArg (fun s : Rbtt δ => { s with
        rbttNuminserts := s.rbttNuminserts + 1
        rbttNuminodes := s.rbttNuminodes + 1 }) rest
      exact counted
    · intro j outside
      have out' := mt (ids_perm_of_items h₃.items).symm.mem_iff.mp outside
      have apart := out'
      rw [(ids_plug fs _).mem_iff, List.mem_append, not_or] at apart
      have other : j ≠ i := by simpa [ids] using apart.1
      exact (h₃.elsewhere j out').trans (hung.keep j other (up_ne apart.2))

end SonicUtils.RbTree
