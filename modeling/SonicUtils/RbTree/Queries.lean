import SonicUtils.RbTree.Update

/-!
# What the searches of a red-black tree find

Each search gives the first or the last stored datum of some kind.

* `Spot`: the place of a datum among the nodes;
* `getfirst_spec`, `getexactornext_spec`, `getexactorprev_spec`, `getnext_spec`.
-/

namespace SonicUtils.RbTree

open PtrTree RedBlack Loop Compare

variable {δ : Type} {rbtt : Rbtt δ} {compare : δ → δ → Int} {x : Cell δ} {l r s t : Cells δ}
  {fs : List (Frame (Cell δ))} {data : δ}

/-- The data of a tree, in its order. -/
def stored (t : Cells δ) : List δ := (items t).map Prod.snd

/-- The data of a list of nodes. -/
def dataList (l : List (Cell δ)) : List δ := l.map fun x => x.2.2

theorem stored_eq (t : Cells δ) : stored t = dataList (inorder t) := by
  simp [stored, items, dataList, Cell.item, Function.comp_def]

theorem mem_stored (mem : x ∈ nodes t) : x.2.2 ∈ stored t := by
  rw [stored_eq]
  exact List.mem_map_of_mem (mem_inorder.mpr mem)

theorem stored_plug (fs : List (Frame (Cell δ))) (t : Cells δ) :
    stored (plug fs t) = dataList (before fs) ++ (stored t ++ dataList (after fs)) := by
  simp [stored_eq, inorder_plug, dataList]

/-- The tree is `s` below `fs`; all on the left is less than the datum, all on the
right is greater, and the root of `s`, if there is one, is equal. -/
structure Spot (compare : δ → δ → Int) (data : δ) (t : Cells δ) (fs : List (Frame (Cell δ))) (s : Cells δ) : Prop where
  whole : plug fs s = t
  less : ∀ e ∈ dataList (before fs), compare e data < 0
  more : ∀ e ∈ dataList (after fs), compare data e < 0
  equal : ∀ x l r, s = .node x l r → compare data x.2.2 = 0

/-- Where the searches for a datum end. -/
theorem spot_descend (order : TotalPreorder rbtt.rbttCompare) (h : Ordered rbtt t) (data : δ) :
    Spot rbtt.rbttCompare data t (descend (exactWay rbtt.rbttCompare data) [] t).1
      (descend (exactWay rbtt.rbttCompare data) [] t).2 := by
  have sorted : (inorder (plug [] t)).Pairwise (cellLe rbtt.rbttCompare) := h.pairwise
  obtain ⟨below, above⟩ := descend_bounds (exactWay_directs order data) sorted (by simp) (by simp)
  refine ⟨plug_descend _ [] t, ?_, ?_, ?_⟩
  · rw [dataList, List.forall_mem_map]
    intro y hy
    have way := below y hy
    have flip := order.flip y.2.2 data
    simp only [exactWay] at way
    split at way
    · cases way
    · simp at way
      omega
  · rw [dataList, List.forall_mem_map]
    intro y hy
    have way := above y hy
    simp only [exactWay] at way
    split at way
    · cases way
    · simpa using way
  · intro x l r found
    have stops := descend_node found
    simp only [exactWay] at stops
    split at stops
    · assumption
    · cases stops

theorem getexactNode_spec (h : Ordered rbtt t) (data : δ) :
    Returns (rbtt.getexactNode data) (root (descend (exactWay rbtt.rbttCompare data) [] t).2) := by
  have whole : Holds rbtt (plug [] t) := h.holds
  apply Returns.bind (.of_ok fun _ => check_of h.magic)
  rw [h.holds.top]
  exact getexact_spec whole data

theorem Spot.absent (order : TotalPreorder compare) (h : Spot compare data t fs .nil) :
    ∀ e ∈ stored t, compare data e ≠ 0 := by
  intro e he same
  rw [← h.whole, stored_plug, List.mem_append] at he
  cases he with
  | inl left =>
    have less := (order.flip _ _).mp (h.less e left)
    omega
  | inr right =>
    have more := h.more e right
    omega

theorem Spot.dataOf (holds : Holds rbtt t) (h : Spot compare data t fs (.node x l r)) :
    rbtt.dataOf (some x.1) = .ok (some x.2.2) ∧ x.2.2 ∈ stored t := by
  have mem : x ∈ nodes t := by
    rw [← h.whole]
    exact mem_nodes_plug.mpr (.inl (by simp))
  refine ⟨dataOf_spec holds mem, ?_⟩
  rw [stored_eq]
  exact List.mem_map_of_mem (mem_inorder.mpr mem)

/-- `std_rbtree_getexact` finds an equal datum, if there is one. -/
theorem getexact_found (order : TotalPreorder rbtt.rbttCompare) (h : Ordered rbtt t) (data : δ) :
    ∃ found, Returns (rbtt.stdRbtreeGetexact data) found ∧
      (∀ e, found = some e → e ∈ stored t ∧ rbtt.rbttCompare data e = 0) ∧
      (found = none → ∀ e ∈ stored t, rbtt.rbttCompare data e ≠ 0) := by
  have spot := spot_descend order h data
  have search := getexactNode_spec h data
  generalize (descend (exactWay rbtt.rbttCompare data) [] t).1 = fs at spot
  generalize (descend (exactWay rbtt.rbttCompare data) [] t).2 = s at spot search
  cases s with
  | nil => exact ⟨none, Returns.bind search (.of_ok fun _ => rfl), by simp, fun _ => spot.absent order⟩
  | node x l r =>
    obtain ⟨read, mem⟩ := spot.dataOf h.holds
    refine ⟨some x.2.2, Returns.bind search (.of_ok fun _ => read), ?_, by simp⟩
    intro e same
    obtain rfl := Option.some.inj same
    exact ⟨mem, spot.equal x l r rfl⟩

/-! ## The nearest datum -/

/-- The data of nodes of the tree are read. -/
theorem dataOf_map (holds : Holds rbtt t) {o : Option (Cell δ)} (mem : ∀ x, o = some x → x ∈ nodes t) :
    rbtt.dataOf (o.map Prod.fst) = .ok (o.map fun x => x.2.2) := by
  cases o with
  | none => rfl
  | some x => exact dataOf_spec holds (mem x rfl)

/-- The node at the spot of the datum, or else the next one on the side. -/
def nearest (side : Bool) (fs : List (Frame (Cell δ))) : Cells δ → Option (Cell δ)
  | .nil => turning side fs
  | .node x _ _ => some x

theorem mem_nearest {side : Bool} (h : nearest side fs s = some x) : x ∈ nodes (plug fs s) := by
  rw [mem_nodes_plug]
  cases s with
  | nil => exact .inr (mem_nodes_turning h)
  | node y l r =>
    obtain rfl := Option.some.inj h
    exact .inl (by simp)

theorem nearestNode_spec (h : Ordered rbtt t) (side : Bool) (data : δ) :
    Returns (rbtt.nearestNode side data)
      ((nearest side (descend (exactWay rbtt.rbttCompare data) [] t).1
        (descend (exactWay rbtt.rbttCompare data) [] t).2).map Prod.fst) := by
  have whole : Holds rbtt (plug [] t) := h.holds
  apply Returns.bind (.of_ok fun _ => check_of h.magic)
  rw [h.holds.top]
  by_cases none_ : t = .nil
  · subst none_
    have ends : Ends .noReturn (rbtt.nearestTurn side data) none (none, false) := .done rfl
    exact Returns.bind ends (.of_ok fun _ => rfl)
  · have filled := plug_descend (exactWay rbtt.rbttCompare data) [] t
    apply Returns.bind (nearest_spec whole none_ side data)
    generalize descend (exactWay rbtt.rbttCompare data) [] t = place at filled ⊢
    obtain ⟨fs, s⟩ := place
    cases s with
    | node x l r => exact .of_ok fun _ => rfl
    | nil =>
      cases fs with
      | nil => exact absurd filled.symm none_
      | cons f fs =>
        obtain ⟨l, r, node⟩ := exists_fill f .nil
        rw [plug_nil, plug_cons, node] at filled
        have above : Holds rbtt (plug fs (.node f.node l r)) := filled ▸ h.holds
        by_cases climbs : f.side = side
        · have up_ := climb_spec above side
          simpa [nearestEnd, climbs, nearest, turning] using up_
        · simp only [nearestEnd, climbs, nearest, turning]
          exact .of_ok fun _ => rfl

/-! ## Distinct data -/

/-- The parts of the stored data around a datum: those that are less, the equal one,
if there is one, and those that are greater. -/
structure Cut (compare : δ → δ → Int) (data : δ) (l : List δ) (a : List δ) (m : Option δ) (b : List δ) : Prop where
  whole : l = a ++ (m.toList ++ b)
  less : ∀ e ∈ a, compare e data < 0
  equal : ∀ e, m = some e → compare data e = 0
  more : ∀ e ∈ b, compare data e < 0

theorem Spot.cut_nil (h : Spot compare data t fs .nil) :
    Cut compare data (stored t) (dataList (before fs)) none (dataList (after fs)) := by
  refine ⟨?_, h.less, by simp, h.more⟩
  rw [← h.whole, stored_plug]
  rfl

theorem Spot.cut_node (order : TotalPreorder compare) (sorted : Ascending compare (stored t))
    (distinct : Distinct compare (stored t)) (h : Spot compare data t fs (.node x l r)) :
    Cut compare data (stored t) (dataList (before fs) ++ stored l) (some x.2.2)
      (stored r ++ dataList (after fs)) := by
  have equal := h.equal x l r rfl
  have whole : stored t = (dataList (before fs) ++ stored l) ++ x.2.2 :: (stored r ++ dataList (after fs)) := by
    rw [← h.whole, stored_plug]
    simp [stored_eq, dataList]
  have strict := sorted.strictly distinct
  rw [whole, List.pairwise_append, List.pairwise_cons] at strict
  obtain ⟨_, ⟨later, _⟩, earlier⟩ := strict
  have back := order.eq_comm.mp equal
  refine ⟨whole, ?_, ?_, ?_⟩
  · intro e he
    exact order.lt_of_lt_of_le (earlier e he _ List.mem_cons_self) (by omega)
  · intro e same
    exact Option.some.inj same ▸ equal
  · intro e he
    exact order.lt_of_le_of_lt (by omega) (later e he)

theorem head_dataList (l : List (Cell δ)) : (dataList l).head? = l.head?.map fun x => x.2.2 := List.head?_map

theorem getLast_dataList (l : List (Cell δ)) : (dataList l).getLast? = l.getLast?.map fun x => x.2.2 :=
  List.getLast?_map

/-- What the searches give, by the parts around the datum. -/
theorem searches_spec (order : TotalPreorder rbtt.rbttCompare) (h : Ordered rbtt t)
    (distinct : Distinct rbtt.rbttCompare (stored t)) (data : δ) :
    ∃ a m b, Cut rbtt.rbttCompare data (stored t) a m b ∧
      Returns (rbtt.stdRbtreeGetexactornext data) (m.or b.head?) ∧
      Returns (rbtt.stdRbtreeGetexactorprev data) (m.or a.getLast?) ∧
      Returns (rbtt.stdRbtreeGetnext data) b.head? := by
  have spot := spot_descend order h data
  have exact_ := getexactNode_spec h data
  have next := nearestNode_spec h true data
  have prev := nearestNode_spec h false data
  generalize descend (exactWay rbtt.rbttCompare data) [] t = place at spot exact_ next prev
  obtain ⟨fs, s⟩ := place
  have read (side : Bool) := dataOf_map h.holds fun x (found : nearest side fs s = some x) =>
    spot.whole ▸ mem_nearest found
  have next := Returns.bind next (.of_ok fun _ => read true)
  have prev := Returns.bind prev (.of_ok fun _ => read false)
  cases s with
  | nil =>
    have after_ : (nearest true fs .nil).map (fun x => x.2.2) = (dataList (after fs)).head? := by
      rw [head_dataList, ← turning_right]
      rfl
    have before_ : (nearest false fs .nil).map (fun x => x.2.2) = (dataList (before fs)).getLast? := by
      rw [getLast_dataList, ← turning_left]
      rfl
    rw [after_] at next
    rw [before_] at prev
    exact ⟨_, _, _, spot.cut_nil, next, prev, Returns.bind exact_ next⟩
  | node x l r =>
    obtain rfl := spot.whole
    refine ⟨_, _, _, spot.cut_node order h.sorted distinct, next, prev, ?_⟩
    have following := getnextNode_spec h.holds h.magic
    have mem (y : Cell δ) (found : (inorder r ++ after fs).head? = some y) : y ∈ nodes (plug fs (.node x l r)) := by
      rw [← mem_inorder, inorder_plug]
      have here := List.mem_of_mem_head? found
      simp only [inorder_node, List.mem_append, List.mem_cons] at here ⊢
      exact .inr (here.imp_left fun right => .inr (.inr right))
    have back : stored r ++ dataList (after fs) = dataList (inorder r ++ after fs) := by
      simp [stored_eq, dataList]
    rw [back, head_dataList]
    exact Returns.bind exact_ (Returns.bind following (.of_ok fun _ => dataOf_map h.holds mem))

/-- The first datum. -/
theorem getfirst_spec (h : Ordered rbtt t) : Returns rbtt.stdRbtreeGetfirst (stored t).head? := by
  have whole : Holds rbtt (plug [] t) := h.holds
  rw [stored_eq, head_dataList]
  cases t with
  | nil =>
    have top : rbtt.rbttRoot = none := h.holds.top
    have run (fuel : Nat) : rbtt.stdRbtreeGetfirst fuel = .ok none := by
      simp [Rbtt.stdRbtreeGetfirst, Rbtt.getfirstNode, Rbtt.validateHandle, check_of h.magic, top, Rbtt.dataOf]
    exact .of_ok run
  | node x l r =>
    obtain ⟨y, head, ends⟩ := leftmost_spec whole rfl
    have mem : y ∈ nodes (.node x l r) := mem_inorder.mp (List.mem_of_mem_head? head)
    have run : rbtt.stdRbtreeGetfirst = fun fuel =>
        loop .noReturn rbtt.leftmostTurn fuel x.1 >>= fun z => rbtt.dataOf (some z) := by
      funext fuel
      simp [Rbtt.stdRbtreeGetfirst, Rbtt.getfirstNode, Rbtt.validateHandle, check_of h.magic, h.holds.top]
    rw [run, head]
    exact Returns.bind ends (.of_ok fun _ => dataOf_spec h.holds mem)

end SonicUtils.RbTree
