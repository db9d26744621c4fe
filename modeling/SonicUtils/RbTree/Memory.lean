import SonicUtils.RbTree.Table

/-!
# The tree that a table holds

`Holds rbtt t`: the nodes of the table are linked as the tree `t`. The writes of
the balancing loops, a change of colour and a rotation, are moves in `t` that
leave the items as they are.

* `adopt_spec`, `relink_spec`: single pointers;
* `setColor_spec`, `rotate_spec`: the two moves.
-/

namespace SonicUtils.RbTree

open PtrTree RedBlack

variable {δ : Type}

/-- A node of a tree: its address, colour and datum. -/
abbrev Cell (δ : Type) := NodeId × (Color × δ)

abbrev Cells (δ : Type) := BinaryTree (Cell δ)

def Cell.color (x : Cell δ) : Color := x.2.1

def Cell.paint (x : Cell δ) (c : Color) : Cell δ := (x.1, (c, x.2.2))

/-- The address and the datum. -/
def Cell.item (x : Cell δ) : NodeId × δ := (x.1, x.2.2)

def items (t : Cells δ) : List (NodeId × δ) := (inorder t).map Cell.item

def Rbtt.mem (rbtt : Rbtt δ) : Mem NodeId (Color × δ) := fun i k lab =>
  rbtt.nodes i = some ⟨k.left, k.right, k.parent, lab.1, lab.2⟩

structure Holds (rbtt : Rbtt δ) (t : Cells δ) : Prop where
  top : rbtt.rbttRoot = root t
  linked : Linked rbtt.mem none t
  distinct : (ids t).Nodup

/-- The table without its nodes. -/
def Rbtt.rest (rbtt : Rbtt δ) : Rbtt δ := { rbtt with rbttRoot := none, nodes := fun _ => none }

/-- Nodes of `t` have been written to, and now the table holds `t'`, with the
same items. -/
structure Reshaped (rbtt : Rbtt δ) (t : Cells δ) (rbtt' : Rbtt δ) (t' : Cells δ) : Prop where
  holds : Holds rbtt' t'
  items : items t' = items t
  rest : rbtt'.rest = rbtt.rest
  elsewhere : ∀ i, i ∉ ids t → rbtt'.nodes i = rbtt.nodes i

variable {rbtt rbtt' : Rbtt δ} {t t' : Cells δ} {x : Cell δ} {l r : Cells δ} {fs : List (Frame (Cell δ))}
  {f : Frame (Cell δ)} {p : Option NodeId}

theorem node_of {i : NodeId} {n : RbNode δ} (h : rbtt.nodes i = some n) : rbtt.node i = .ok n := by
  simp [Rbtt.node, h]

theorem write_of {i : NodeId} {n : RbNode δ} (h : rbtt.nodes i = some n) (g : RbNode δ → RbNode δ) :
    rbtt.write i g = .ok { rbtt with nodes := Function.update rbtt.nodes i (some (g n)) } := by
  simp [Rbtt.write, node_of h]

theorem write_spec {i : NodeId} {n : RbNode δ} (h : rbtt.nodes i = some n) (g : RbNode δ → RbNode δ) :
    ∃ rbtt', rbtt.write i g = .ok rbtt' ∧ rbtt'.nodes i = some (g n) ∧
      (∀ j, j ≠ i → rbtt'.nodes j = rbtt.nodes j) ∧ rbtt'.rest = rbtt.rest ∧ rbtt'.rbttRoot = rbtt.rbttRoot :=
  ⟨_, write_of h g, Function.update_self .., fun _ other => Function.update_of_ne other .., rfl, rfl⟩

/-! ## Items -/

theorem items_perm (t : Cells δ) : ((items t).map Prod.fst).Perm (ids t) := by
  have perm := (inorder_perm t).map Prod.fst
  simpa [items, ids, Cell.item, Function.comp_def] using perm

theorem ids_perm_of_items (same : items t' = items t) : (ids t').Perm (ids t) :=
  (items_perm t').symm.trans (same ▸ items_perm t)

theorem items_plug (fs : List (Frame (Cell δ))) (t : Cells δ) :
    items (plug fs t) = (before fs).map Cell.item ++ (items t ++ (after fs).map Cell.item) := by
  simp [items, inorder_plug]

theorem items_congr (same : items t' = items t) : items (plug fs t') = items (plug fs t) := by
  rw [items_plug, items_plug, same]

theorem Reshaped.refl (h : Holds rbtt t) : Reshaped rbtt t rbtt t := ⟨h, rfl, rfl, fun _ _ => rfl⟩

theorem Reshaped.trans {rbtt'' : Rbtt δ} {t'' : Cells δ} (h : Reshaped rbtt t rbtt' t')
    (h' : Reshaped rbtt' t' rbtt'' t'') : Reshaped rbtt t rbtt'' t'' := by
  refine ⟨h'.holds, h'.items.trans h.items, h'.rest.trans h.rest, ?_⟩
  intro i out
  have out' : i ∉ ids t' := mt (ids_perm_of_items h.items).mem_iff.mp out
  exact (h'.elsewhere i out').trans (h.elsewhere i out)

/-! ## Parts of the tree -/

/-- What the table holds at a node. -/
theorem Holds.at (h : Holds rbtt (plug fs (.node x l r))) :
    rbtt.nodes x.1 = some ⟨root l, root r, up fs, x.2.1, x.2.2⟩ := (linked_plug.mp h.linked).1.1

theorem linked_only (h : Linked rbtt.mem p t) (same : ∀ i ∈ ids t, rbtt'.nodes i = rbtt.nodes i) :
    Linked rbtt'.mem p t := by
  apply h.mono
  intro y hy k held
  exact (same y.1 (mem_ids hy)).trans held

theorem linkedAbove_only {hole : Option NodeId} (h : LinkedAbove rbtt.mem hole fs)
    (same : ∀ i ∈ (nodesAbove fs).map Prod.fst, rbtt'.nodes i = rbtt.nodes i) : LinkedAbove rbtt'.mem hole fs := by
  apply h.mono
  intro y hy k held
  exact (same y.1 (List.mem_map_of_mem hy)).trans held

theorem up_ne {i : NodeId} (out : i ∉ (nodesAbove fs).map Prod.fst) : up fs ≠ some i := by
  intro here
  obtain ⟨z, hz, rfl⟩ := up_mem here
  exact out (List.mem_map_of_mem hz)

/-- The subtree gets another parent. -/
theorem setParent_spec (linked : Linked rbtt.mem p t) (distinct : (ids t).Nodup) (some_ : t ≠ .nil)
    (q : Option NodeId) :
    ∃ rbtt', rbtt.setParent (root t) q = .ok rbtt' ∧ Linked rbtt'.mem q t ∧ rbtt'.rest = rbtt.rest ∧
      rbtt'.rbttRoot = rbtt.rbttRoot ∧ ∀ i, root t ≠ some i → rbtt'.nodes i = rbtt.nodes i := by
  cases t with
  | nil => exact absurd rfl some_
  | node x l r =>
    obtain ⟨here, left, right⟩ := linked
    obtain ⟨outl, outr, _⟩ := apart_of_nodup distinct
    refine ⟨_, write_of here _, ⟨?_, linked_only left ?_, linked_only right ?_⟩, rfl, rfl, ?_⟩
    · simp [Rbtt.mem]
    · intro i hi
      exact Function.update_of_ne (ne_of_mem_of_not_mem hi outl) _ _
    · intro i hi
      exact Function.update_of_ne (ne_of_mem_of_not_mem hi outr) _ _
    · intro i other
      exact Function.update_of_ne (fun same => other (congrArg some same.symm)) _ _

/-- A subtree gets another parent, if there is one. -/
theorem adopt_spec (linked : Linked rbtt.mem p t) (distinct : (ids t).Nodup) (q : Option NodeId) :
    ∃ rbtt', rbtt.adopt (root t) q = .ok rbtt' ∧
      Linked rbtt'.mem q t ∧ rbtt'.rest = rbtt.rest ∧ rbtt'.rbttRoot = rbtt.rbttRoot ∧
      ∀ i, root t ≠ some i → rbtt'.nodes i = rbtt.nodes i := by
  by_cases none_ : t = .nil
  · subst none_
    exact ⟨rbtt, rfl, trivial, rfl, rfl, fun _ _ => rfl⟩
  · rw [Rbtt.adopt, if_neg (mt root_eq_none.mp none_)]
    exact setParent_spec linked distinct none_ q

/-- The pointer into the hole. -/
theorem relink_spec {y : Option NodeId} {i : NodeId} (side : Bool) (linked : LinkedAbove rbtt.mem (some i) fs)
    (distinct : ((nodesAbove fs).map Prod.fst).Nodup) (apart : i ∉ (nodesAbove fs).map Prod.fst) :
    ∃ rbtt', rbtt.relink side (up fs) i y = .ok rbtt' ∧ LinkedAbove rbtt'.mem y fs ∧ rbtt'.rest = rbtt.rest ∧
      (∀ t t', rbtt.rbttRoot = root (plug fs t) → root t' = y → rbtt'.rbttRoot = root (plug fs t')) ∧
      ∀ j, up fs ≠ some j → rbtt'.nodes j = rbtt.nodes j := by
  cases fs with
  | nil =>
    refine ⟨_, rfl, trivial, rfl, ?_, fun _ _ => rfl⟩
    intro t t' _ same
    exact same.symm
  | cons f fs =>
    have other : root f.other ≠ some i := by
      intro same
      apply apart
      obtain ⟨z, hz, rfl⟩ := List.mem_map.mp (root_mem_ids same)
      exact List.mem_map_of_mem (by simp [hz])
    obtain ⟨first, _⟩ := List.nodup_cons.mp distinct
    have here := linked.1
    refine ⟨_, write_of here _, linked.repoint ?_ ?_, rfl, ?_, ?_⟩
    · cases f with
      | mk b z o =>
        cases b <;> cases side <;>
          simp [Rbtt.mem, Frame.links, RbNode.child, RbNode.setChild, Function.update_self] at other ⊢ <;>
          simp [other]
    · intro z hz k held
      have ne : z.1 ≠ f.node.1 := by
        intro same
        apply first
        rw [← same]
        exact List.mem_map_of_mem hz
      exact (Function.update_of_ne ne _ _).trans held
    · intro t t' before _
      exact before.trans (root_plug_cons f fs t' t)
    · intro j other
      exact Function.update_of_ne (fun same => other (congrArg some same.symm)) _ _

/-! ## The two moves -/

def paintFrame (f : Frame (Cell δ)) (c : Color) : Frame (Cell δ) := { f with node := f.node.paint c }

theorem others_of (distinct : (ids (plug fs (.node x l r))).Nodup) :
    x.1 ∉ ids l ∧ x.1 ∉ ids r ∧ x.1 ∉ (nodesAbove fs).map Prod.fst := by
  have all := nodup_plug.mp distinct
  obtain ⟨here, _, apart⟩ := List.nodup_append.mp all
  obtain ⟨outl, outr, _⟩ := apart_of_nodup here
  refine ⟨outl, outr, ?_⟩
  intro mem
  exact apart x.1 (mem_ids (by simp)) x.1 mem rfl

theorem setColor_spec (h : Holds rbtt (plug fs (.node x l r))) (c : Color) :
    ∃ rbtt', rbtt.setColor (some x.1) c = .ok rbtt' ∧
      Reshaped rbtt (plug fs (.node x l r)) rbtt' (plug fs (.node (x.paint c) l r)) := by
  obtain ⟨⟨here, left, right⟩, above⟩ := linked_plug.mp h.linked
  obtain ⟨outl, outr, outa⟩ := others_of h.distinct
  refine ⟨_, write_of here _, ⟨?_, linked_plug.mpr ⟨⟨?_, linked_only left ?_, linked_only right ?_⟩, linkedAbove_only above ?_⟩, ?_⟩,
    items_congr (by simp [items, Cell.item, Cell.paint]), rfl, ?_⟩
  · exact h.top.trans (root_plug_congr rfl)
  · simp [Rbtt.mem, Cell.paint]
  · intro i hi
    exact Function.update_of_ne (ne_of_mem_of_not_mem hi outl) _ _
  · intro i hi
    exact Function.update_of_ne (ne_of_mem_of_not_mem hi outr) _ _
  · intro i hi
    exact Function.update_of_ne (ne_of_mem_of_not_mem hi outa) _ _
  · have same : ids (.node (x.paint c) l r) = ids (.node x l r) := rfl
    rw [nodup_plug, same, ← nodup_plug]
    exact h.distinct
  · intro i out
    apply Function.update_of_ne
    intro same
    apply out
    rw [same]
    exact mem_ids (mem_nodes_plug.mpr (.inl (by simp)))

theorem setColor_frame (h : Holds rbtt (plug (f :: fs) t)) (c : Color) :
    ∃ rbtt', rbtt.setColor (some f.node.1) c = .ok rbtt' ∧
      Reshaped rbtt (plug (f :: fs) t) rbtt' (plug (paintFrame f c :: fs) t) := by
  cases f with
  | mk side y other => cases side <;> exact setColor_spec h c

theorem plug_flip (b : Bool) (x : Cell δ) (t o : Cells δ) (fs : List (Frame (Cell δ))) :
    plug (⟨b, x, o⟩ :: fs) t = plug (⟨!b, x, t⟩ :: fs) o := congrArg (plug fs) (fill_flip b x t o)

theorem setColor_other {b : Bool} {y : Cell δ} (h : Holds rbtt (plug (⟨b, y, .node x l r⟩ :: fs) t)) (c : Color) :
    ∃ rbtt', rbtt.setColor (some x.1) c = .ok rbtt' ∧
      Reshaped rbtt (plug (⟨b, y, .node x l r⟩ :: fs) t) rbtt' (plug (⟨b, y, .node (x.paint c) l r⟩ :: fs) t) := by
  rw [plug_flip] at h ⊢
  rw [plug_flip b]
  exact setColor_spec h c

theorem map_fst_nodes (t : Cells δ) : (nodes t).map Prod.fst = ids t := rfl

/-- The addresses around a rotation. -/
structure Around (x y : Cell δ) (a t c : Cells δ) (fs : List (Frame (Cell δ))) : Prop where
  nodes : x.1 ≠ y.1
  first : x.1 ∉ ids a ∧ x.1 ∉ ids t ∧ x.1 ∉ ids c ∧ x.1 ∉ (nodesAbove fs).map Prod.fst
  second : y.1 ∉ ids a ∧ y.1 ∉ ids t ∧ y.1 ∉ ids c ∧ y.1 ∉ (nodesAbove fs).map Prod.fst
  inner : (ids t).Nodup ∧ (∀ i ∈ ids t, i ∉ ids a) ∧ (∀ i ∈ ids t, i ∉ ids c) ∧
    ∀ i ∈ ids t, i ∉ (nodesAbove fs).map Prod.fst
  outer : ((nodesAbove fs).map Prod.fst).Nodup ∧ (∀ i ∈ ids a, i ∉ (nodesAbove fs).map Prod.fst) ∧
    ∀ i ∈ ids c, i ∉ (nodesAbove fs).map Prod.fst

theorem around_of {y : Cell δ} {a c : Cells δ} {b b' : Bool}
    (distinct : (ids (plug (⟨b, y, c⟩ :: ⟨b', x, a⟩ :: fs) t)).Nodup) : Around x y a t c fs := by
  have all := nodup_plug.mp distinct
  simp only [nodesAbove_cons, List.map_cons, List.map_append, List.nodup_append, List.nodup_cons,
    List.mem_append, List.mem_cons, not_or, map_fst_nodes] at all
  constructor
  · grind
  · grind
  · grind
  · grind
  · grind

/-- `x` with the child `y` opposite the side, and then below it. -/
theorem rotate_spec {x y : Cell δ} {a t c : Cells δ} {side : Bool}
    (h : Holds rbtt (plug (⟨side, y, c⟩ :: ⟨!side, x, a⟩ :: fs) t)) :
    ∃ rbtt', rbtt.rotate side x.1 = .ok rbtt' ∧
      Reshaped rbtt (plug (⟨side, y, c⟩ :: ⟨!side, x, a⟩ :: fs) t) rbtt'
        (plug (⟨!side, x, a⟩ :: ⟨side, y, c⟩ :: fs) t) := by
  have apart := around_of h.distinct
  obtain ⟨linkedT, hereY, linkedC, hereX, linkedA, above⟩ := linked_plug.mp h.linked
  have child : rbtt.childNode x.1 (!side) = .ok y.1 := by
    cases side <;> simp [Rbtt.childNode, Rbtt.child, node_of hereX, Frame.links, RbNode.child]
  have inner : rbtt.child y.1 side = .ok (root t) := by
    cases side <;> simp [Rbtt.child, node_of hereY, Frame.links, RbNode.child]
  -- `x` and the inner subtree
  obtain ⟨r₁, run₁, x₁, keep₁, rest₁, root₁⟩ := write_spec hereX fun n => n.setChild (!side) (root t)
  obtain ⟨r₂, run₂, linkedT₂, rest₂, root₂, keep₂⟩ := adopt_spec
    (linked_only linkedT fun i hi => keep₁ i (ne_of_mem_of_not_mem hi apart.first.2.1)) apart.inner.1 (some x.1)
  have x₂ := (keep₂ x.1 fun same => apart.first.2.1 (root_mem_ids same)).trans x₁
  have y₂ := (keep₂ y.1 fun same => apart.second.2.1 (root_mem_ids same)).trans
    ((keep₁ y.1 apart.nodes.symm).trans hereY)
  have up_ : r₂.parent (some x.1) = .ok (up fs) := by
    cases side <;> simp [Rbtt.parent, node_of x₂, Frame.links, RbNode.setChild]
  -- `y` and the pointer from above
  obtain ⟨r₃, run₃, y₃, keep₃, rest₃, root₃⟩ := write_spec y₂ fun n => { n with rbtParent := up fs }
  have same₃ (i : NodeId) (nx : i ≠ x.1) (ny : i ≠ y.1) (nt : root t ≠ some i) : r₃.nodes i = rbtt.nodes i :=
    (keep₃ i ny).trans ((keep₂ i nt).trans (keep₁ i nx))
  have above₃ : LinkedAbove r₃.mem (some x.1) fs := linkedAbove_only above fun i hi => same₃ i
    (ne_of_mem_of_not_mem hi apart.first.2.2.2) (ne_of_mem_of_not_mem hi apart.second.2.2.2)
    fun same => apart.inner.2.2.2 i (root_mem_ids same) hi
  obtain ⟨r₄, run₄, above₄, rest₄, root₄, keep₄⟩ := @relink_spec _ r₃ fs (some y.1) x.1 side above₃ apart.outer.1
    apart.first.2.2.2
  obtain ⟨r₅, run₅, y₅, keep₅, rest₅, root₅⟩ := write_spec ((keep₄ y.1 (up_ne apart.second.2.2.2)).trans y₃) fun n => n.setChild side (some x.1)
  have x₅ := (keep₅ x.1 apart.nodes).trans ((keep₄ x.1 (up_ne apart.first.2.2.2)).trans ((keep₃ x.1 apart.nodes).trans x₂))
  obtain ⟨r₆, run₆, x₆, keep₆, rest₆, root₆⟩ := write_spec x₅ fun n => { n with rbtParent := some y.1 }
  have late (i : NodeId) (nx : i ≠ x.1) (ny : i ≠ y.1) : r₆.nodes i = r₄.nodes i := (keep₆ i nx).trans (keep₅ i ny)
  have same (i : NodeId) (nx : i ≠ x.1) (ny : i ≠ y.1) (nt : root t ≠ some i) (nf : up fs ≠ some i) :
      r₆.nodes i = rbtt.nodes i := (late i nx ny).trans ((keep₄ i nf).trans (same₃ i nx ny nt))
  have turned := congrArg (List.map Cell.item) (inorder_turn side x y a t c fs)
  refine ⟨r₆, ?_, ⟨?_, ?_, ?_⟩, ?_, ?_, ?_⟩
  · rw [Rbtt.rotate, child, ok_bind, inner, ok_bind, run₁, ok_bind, run₂, ok_bind, up_, ok_bind, Rbtt.setParent, run₃,
      ok_bind, run₄, ok_bind, run₅, ok_bind, Rbtt.setParent, run₆]
  · have before : r₃.rbttRoot = root (plug (⟨side, y, c⟩ :: ⟨!side, x, a⟩ :: fs) t) :=
      root₃.trans (root₂.trans (root₁.trans h.top))
    exact root₆.trans (root₅.trans (root₄ _ (Frame.fill ⟨side, y, c⟩ (Frame.fill ⟨!side, x, a⟩ t)) before (root_fill ..)))
  · apply linked_plug.mpr
    refine ⟨linked_only linkedT₂ ?_, ?_, linked_only linkedA ?_, ?_, linked_only linkedC ?_, linkedAbove_only above₄ ?_⟩
    · intro i hi
      have nx := ne_of_mem_of_not_mem hi apart.first.2.1
      have ny := ne_of_mem_of_not_mem hi apart.second.2.1
      exact (late i nx ny).trans ((keep₄ i (up_ne (apart.inner.2.2.2 i hi))).trans (keep₃ i ny))
    · refine x₆.trans ?_
      cases side <;> rfl
    · intro i hi
      exact same i (ne_of_mem_of_not_mem hi apart.first.1) (ne_of_mem_of_not_mem hi apart.second.1)
        (fun is_ => apart.inner.2.1 i (root_mem_ids is_) hi) (up_ne (apart.outer.2.1 i hi))
    · refine (keep₆ y.1 apart.nodes.symm).trans (y₅.trans ?_)
      cases side <;> rfl
    · intro i hi
      exact same i (ne_of_mem_of_not_mem hi apart.first.2.2.1) (ne_of_mem_of_not_mem hi apart.second.2.2.1)
        (fun is_ => apart.inner.2.2.1 i (root_mem_ids is_) hi) (up_ne (apart.outer.2.2 i hi))
    · intro i hi
      exact late i (ne_of_mem_of_not_mem hi apart.first.2.2.2) (ne_of_mem_of_not_mem hi apart.second.2.2.2)
  · exact (ids_perm_of_items turned).nodup_iff.mpr h.distinct
  · exact turned
  · exact rest₆.trans (rest₅.trans (rest₄.trans (rest₃.trans (rest₂.trans rest₁))))
  · intro i out
    have out' := mt (ids_plug ..).mem_iff.mpr out
    simp only [nodesAbove_cons, List.map_cons, List.map_append, List.mem_append, List.mem_cons, not_or] at out'
    obtain ⟨outT, ny, _, nx, _, outAbove⟩ := out'
    exact same i nx ny (fun is_ => outT (root_mem_ids is_)) (up_ne outAbove)

/-! ## What the code reads -/

def rootColor : Cells δ → Color
  | .nil => .black
  | .node x _ _ => x.color

theorem rootColor_of {c : Color} {n : Nat} (h : Rb Cell.color c n t) : rootColor t = c := by
  cases h with
  | nil => rfl
  | red here => exact here
  | black here => exact here

theorem rest_compare (same : rbtt'.rest = rbtt.rest) : rbtt'.rbttCompare = rbtt.rbttCompare := by
  have field := congrArg Rbtt.rbttCompare same
  exact field

theorem rest_magic (same : rbtt'.rest = rbtt.rest) : rbtt'.rbttMagic = rbtt.rbttMagic := by
  have field := congrArg Rbtt.rbttMagic same
  exact field

theorem rest_nil (same : rbtt'.rest = rbtt.rest) : rbtt'.nil = rbtt.nil := by
  have field := congrArg Rbtt.nil same
  exact field

theorem Reshaped.nil (h : Reshaped rbtt t rbtt' t') : rbtt'.nil = rbtt.nil := rest_nil h.rest

theorem Holds.frame (h : Holds rbtt (plug (f :: fs) t)) :
    rbtt.nodes f.node.1 = some ⟨(f.links (root t) (up fs)).left, (f.links (root t) (up fs)).right, up fs,
      f.node.2.1, f.node.2.2⟩ := by
  have here := (linked_plug.mp h.linked).2.1
  cases f with
  | mk side y other => cases side <;> exact here

/-- The node above the hole. -/
theorem Holds.above (h : Holds rbtt (plug (f :: fs) t)) :
    ∃ n, rbtt.nodes f.node.1 = some n ∧ n.rbtParent = up fs ∧ n.child f.side = root t ∧
      n.child (!f.side) = root f.other := by
  refine ⟨_, h.frame, rfl, ?_⟩
  cases f with
  | mk side y other => cases side <;> exact ⟨rfl, rfl⟩

theorem Holds.parent (h : Holds rbtt (plug fs (.node x l r))) : rbtt.parent (some x.1) = .ok (up fs) := by
  simp [Rbtt.parent, node_of h.at]

theorem Holds.parentNode (h : Holds rbtt (plug (f :: fs) (.node x l r))) :
    rbtt.parentNode (some x.1) = .ok f.node.1 := by
  simp [Rbtt.parentNode, h.parent]

theorem Holds.parentNode_frame {g : Frame (Cell δ)} (h : Holds rbtt (plug (f :: g :: fs) t)) :
    rbtt.parentNode (some f.node.1) = .ok g.node.1 := by
  simp [Rbtt.parentNode, Rbtt.parent, node_of h.frame]

theorem Holds.child (h : Holds rbtt (plug (f :: fs) t)) : rbtt.child f.node.1 f.side = .ok (root t) := by
  rw [Rbtt.child, node_of h.frame]
  cases f with
  | mk side y other => cases side <;> rfl

theorem Holds.sibling (h : Holds rbtt (plug (f :: fs) t)) : rbtt.child f.node.1 (!f.side) = .ok (root f.other) := by
  rw [Rbtt.child, node_of h.frame]
  cases f with
  | mk side y other => cases side <;> rfl

theorem Holds.flip {b : Bool} {o : Cells δ} (h : Holds rbtt (plug (⟨b, x, o⟩ :: fs) t)) :
    Holds rbtt (plug (⟨!b, x, t⟩ :: fs) o) := by
  rwa [plug_flip] at h

theorem Holds.color_at (h : Holds rbtt (plug fs (.node x l r))) : rbtt.color (some x.1) = .ok x.color := by
  simp [Rbtt.color, node_of h.at, Cell.color]

theorem Holds.color (h : Holds rbtt (plug fs t)) (nil : rbtt.nil.rbtColor = .black) :
    rbtt.color (root t) = .ok (rootColor t) := by
  cases t with
  | nil => simp [Rbtt.color, nil, rootColor]
  | node x l r => simp [Rbtt.color, node_of h.at, rootColor, Cell.color]

theorem Holds.color_frame (h : Holds rbtt (plug (f :: fs) t)) : rbtt.color (some f.node.1) = .ok f.node.color := by
  simp [Rbtt.color, node_of h.frame, Cell.color]

/-- The two subtrees of a node are apart. -/
theorem Holds.apart (h : Holds rbtt (plug (f :: fs) t)) (some_ : t ≠ .nil) : root f.other ≠ root t := by
  intro same
  obtain ⟨x, l, r, rfl⟩ : ∃ x l r, t = .node x l r := by
    cases t with
    | nil => exact absurd rfl some_
    | node x l r => exact ⟨x, l, r, rfl⟩
  obtain ⟨y, hy, eq⟩ := List.mem_map.mp (root_mem_ids same)
  exact others_apart h.distinct (.inr (.inr (by simp [hy]))) eq

/-- The side of a hole, as the code finds it. -/
theorem Holds.side (h : Holds rbtt (plug (f :: fs) t)) (apart : root f.other ≠ root t) :
    rbtt.sideOf f.node.1 (root t) = .ok f.side := by
  cases side : f.side with
  | false =>
    have here := h.child
    rw [side] at here
    simp [Rbtt.sideOf, here]
  | true =>
    have beside := h.sibling
    rw [side, Bool.not_true] at beside
    simp [Rbtt.sideOf, beside, Ne.symm apart]

end SonicUtils.RbTree
