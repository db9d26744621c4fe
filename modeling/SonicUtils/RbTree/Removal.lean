import SonicUtils.RbTree.Update

/-!
# Removal of a node

`_std_rbtree_remove` takes a node out that has a NIL as a child, balances the tree
without it, and lets it take the place of the node that is to go.

* `spliceOut_spec`, `rebalance_spec`, `replace_spec`: its three steps;
* `removeNode_spec`: the tree afterwards.
-/

namespace SonicUtils.RbTree

open PtrTree RedBlack Loop Compare

variable {δ : Type} {rbtt rbtt' : Rbtt δ} {x y z : Cell δ} {l r t t' : Cells δ} {fs : List (Frame (Cell δ))}
  {f : Frame (Cell δ)} {i : NodeId} {n : RbNode δ} {data : δ} {p q : Option NodeId}

/-- The table without its nodes and the parent of its sentinel. -/
def Rbtt.core (rbtt : Rbtt δ) : Rbtt δ := { rbtt.rest with nil := { rbtt.nil with rbtParent := none } }

theorem core_of_rest (same : rbtt'.rest = rbtt.rest) : rbtt'.core = rbtt.core := by
  have field := congrArg Rbtt.core same
  exact field

theorem core_nil (same : rbtt'.core = rbtt.core) : rbtt'.nil.rbtColor = rbtt.nil.rbtColor := by
  have field := congrArg (fun s : Rbtt δ => s.nil.rbtColor) same
  exact field

theorem core_magic (same : rbtt'.core = rbtt.core) : rbtt'.rbttMagic = rbtt.rbttMagic := by
  have field := congrArg Rbtt.rbttMagic same
  exact field

theorem core_compare (same : rbtt'.core = rbtt.core) : rbtt'.rbttCompare = rbtt.rbttCompare := by
  have field := congrArg Rbtt.rbttCompare same
  exact field

theorem setParent_any (linked : Linked rbtt.mem p t) (distinct : (ids t).Nodup) (q : Option NodeId) :
    ∃ rbtt', rbtt.setParent (root t) q = .ok rbtt' ∧ Linked rbtt'.mem q t ∧ rbtt'.parent (root t) = .ok q ∧
      rbtt'.core = rbtt.core ∧ rbtt'.rbttRoot = rbtt.rbttRoot ∧ ∀ i, root t ≠ some i → rbtt'.nodes i = rbtt.nodes i := by
  cases t with
  | nil => exact ⟨_, rfl, trivial, rfl, rfl, rfl, fun _ _ => rfl⟩
  | node x l r =>
    obtain ⟨rbtt', run, linked', rest, root_, keep⟩ := setParent_spec linked distinct (by simp) q
    refine ⟨rbtt', run, linked', ?_, core_of_rest rest, root_, keep⟩
    simp [Rbtt.parent, node_of linked'.1]

/-- The child `t` of `y`, whose other child is NIL, takes the place of `y`. -/
theorem spliceOut_spec (h : Holds rbtt (plug fs (.node y l r))) (nil : rbtt.nil.rbtColor = .black)
    (only : l = .nil ∧ t = r ∨ r = .nil ∧ t = l) :
    ∃ rbtt', rbtt.spliceOut (root t) y.1 (up fs) = .ok rbtt' ∧ Hangs rbtt' fs t ∧ rbtt'.core = rbtt.core ∧
      ∀ i, i ∉ ids (plug fs t) → rbtt'.nodes i = rbtt.nodes i := by
  obtain ⟨⟨_, left, right⟩, above⟩ := linked_plug.mp h.linked
  obtain ⟨outL, outR, outA⟩ := others_of h.distinct
  have all := nodup_plug.mp h.distinct
  obtain ⟨here, distinctA, apart⟩ := List.nodup_append.mp all
  obtain ⟨linked, distinct, sub⟩ : Linked rbtt.mem (some y.1) t ∧ (ids t).Nodup ∧ ∀ i ∈ ids t, i ∈ ids (.node y l r) := by
    rw [ids, nodes_node, List.map_cons, List.map_append, List.nodup_cons, List.nodup_append] at here
    cases only with
    | inl same =>
      rw [same.2]
      exact ⟨right, here.2.2.1, fun i hi => mem_ids_node.mpr (.inr (.inr hi))⟩
    | inr same =>
      rw [same.2]
      exact ⟨left, here.2.1, fun i hi => mem_ids_node.mpr (.inr (.inl hi))⟩
  obtain ⟨r₁, run₁, linked₁, parent₁, core₁, root₁, keep₁⟩ := setParent_any linked distinct (up fs)
  have above₁ : LinkedAbove r₁.mem (some y.1) fs := linkedAbove_only above fun i hi => keep₁ i fun top =>
    apart i (sub i (root_mem_ids top)) i hi rfl
  obtain ⟨r₂, run₂, above₂, rest₂, root₂, keep₂⟩ := @relink_spec _ r₁ fs (root t) y.1 false above₁ distinctA outA
  have linked₂ : Linked r₂.mem (up fs) t := linked_only linked₁ fun i hi => keep₂ i (up_ne fun mem =>
    apart i (sub i hi) i mem rfl)
  have holds₂ : Holds r₂ (plug fs t) := by
    refine ⟨root₂ (.node y l r) t (root₁.trans h.top) rfl, linked_plug.mpr ⟨linked₂, above₂⟩, ?_⟩
    rw [nodup_plug]
    exact List.nodup_append.mpr ⟨distinct, distinctA, fun i hi j hj => apart i (sub i hi) j hj⟩
  refine ⟨r₂, ?_, ⟨holds₂, ?_, ?_⟩, (core_of_rest rest₂).trans core₁, ?_⟩
  · rw [Rbtt.spliceOut, run₁, ok_bind, run₂]
  · exact rest_nil rest₂ ▸ (core_nil core₁).trans nil
  · cases t with
    | nil =>
      rw [root_nil] at parent₁ ⊢
      rw [← parent₁, Rbtt.parent, Rbtt.parent, rest_nil rest₂]
    | node x l r => exact holds₂.parent
  · intro i out
    rw [(ids_plug fs t).mem_iff, List.mem_append, not_or] at out
    exact (keep₂ i (up_ne out.2)).trans (keep₁ i fun top => out.1 (root_mem_ids top))

/-- If the node that is gone was black, the balance is restored. -/
theorem rebalance_spec {c : Color} {k : Nat} (h : Hangs rbtt fs t) (below : Rb Cell.color c k (.node y l r))
    (above : RbAbove Cell.color c k fs) (only : l = .nil ∧ t = r ∨ r = .nil ∧ t = l) :
    ∃ rbtt' t', Returns (rbtt.rebalance y.color (root t)) rbtt' ∧ Reshaped rbtt (plug fs t) rbtt' t' ∧
      ∃ m, Rb Cell.color .black m t' := by
  cases below with
  | red here left right =>
    have rb : Rb Cell.color .black k t := by
      cases only with
      | inl same => exact same.2 ▸ right
      | inr same => exact same.2 ▸ left
    refine ⟨rbtt, _, .of_ok fun _ => ?_, .refl h.holds, above.black_of_red.plug rb⟩
    rw [Rbtt.rebalance, here]
    rfl
  | @black c₁ c₂ k _ _ _ here left right =>
    obtain ⟨d, rb⟩ : ∃ d, Rb Cell.color d k t := by
      cases only with
      | inl same => exact ⟨c₂, same.2 ▸ right⟩
      | inr same => exact ⟨c₁, same.2 ▸ left⟩
    have short : Short k t := by
      cases rb with
      | nil => exact .black .nil
      | red color left' right' => exact .red rfl color left' right'
      | black color left' right' => exact .black (.black color left' right')
    obtain ⟨rbtt', t', run, moved, balanced⟩ := balanceonremove_spec h short above
    refine ⟨rbtt', t', ?_, moved, balanced⟩
    have same : rbtt.rebalance y.color (root t) = rbtt.stdRbtreeBalanceonremove (root t) := by
      funext fuel
      rw [Rbtt.rebalance, here, if_pos rfl]
    exact same ▸ run

theorem repoint_spec {j : NodeId} (linked : LinkedAbove rbtt.mem (some i) fs)
    (distinct : ((nodesAbove fs).map Prod.fst).Nodup) (apart : i ∉ (nodesAbove fs).map Prod.fst)
    (top : rbtt.rbttRoot = root (plug fs t)) (new : root t = some j) :
    ∃ rbtt', rbtt.repoint (up fs) i j = .ok rbtt' ∧ LinkedAbove rbtt'.mem (some j) fs ∧ rbtt'.rest = rbtt.rest ∧
      rbtt'.rbttRoot = root (plug fs t) ∧ ∀ k, up fs ≠ some k → rbtt'.nodes k = rbtt.nodes k := by
  cases fs with
  | nil => exact ⟨rbtt, rfl, trivial, rfl, top, fun _ _ => rfl⟩
  | cons f fs =>
    obtain ⟨rbtt', run, linked', rest, root', keep⟩ := @relink_spec _ rbtt (f :: fs) (some j) i false linked distinct apart
    exact ⟨rbtt', run, linked', rest, root' t t top new, keep⟩

/-- The addresses in a tree and around it. -/
structure Parts (x : Cell δ) (l r : Cells δ) (fs : List (Frame (Cell δ))) : Prop where
  first : x.1 ∉ ids l ∧ x.1 ∉ ids r ∧ x.1 ∉ (nodesAbove fs).map Prod.fst
  distinct : (ids l).Nodup ∧ (ids r).Nodup ∧ ((nodesAbove fs).map Prod.fst).Nodup
  apart : (∀ i ∈ ids l, i ∉ ids r) ∧ (∀ i ∈ ids l, i ∉ (nodesAbove fs).map Prod.fst) ∧
    ∀ i ∈ ids r, i ∉ (nodesAbove fs).map Prod.fst

theorem parts_iff : (ids (plug fs (.node x l r))).Nodup ↔ Parts x l r fs := by
  have cons : ids (.node x l r) = x.1 :: (ids l ++ ids r) := by simp [ids]
  rw [nodup_plug, cons, List.cons_append, List.nodup_cons]
  simp only [List.nodup_append, List.mem_append, not_or]
  constructor
  · intro h
    constructor <;> grind
  · intro h
    have first := h.first
    have distinct := h.distinct
    have apart := h.apart
    grind

/-- The node `i` takes the place of `z`. -/
theorem replace_spec (h : Holds rbtt (plug fs (.node z l r))) (live : rbtt.nodes i = some n)
    (out : i ∉ ids (plug fs (.node z l r))) :
    ∃ rbtt', rbtt.replace z.1 i = .ok rbtt' ∧ Holds rbtt' (plug fs (.node (i, (z.2.1, n.rbtData)) l r)) ∧
      rbtt'.rest = rbtt.rest ∧ (rbtt'.nodes z.1 = rbtt.nodes z.1) ∧
      ∀ j, j ∉ ids (plug fs (.node z l r)) → j ≠ i → rbtt'.nodes j = rbtt.nodes j := by
  obtain ⟨⟨here, left, right⟩, above⟩ := linked_plug.mp h.linked
  have parts := parts_iff.mp h.distinct
  obtain ⟨ne, outL, outR, outA⟩ : i ≠ z.1 ∧ i ∉ ids l ∧ i ∉ ids r ∧ i ∉ (nodesAbove fs).map Prod.fst := by
    rw [(ids_plug fs _).mem_iff, List.mem_append, mem_ids_node] at out
    tauto
  obtain ⟨r₀, run₀, nodes₀, rest₀, root₀⟩ : ∃ r₀ : Rbtt δ,
      (if rbtt.rbttRoot = some z.1 then { rbtt with rbttRoot := some i } else rbtt) = r₀ ∧ r₀.nodes = rbtt.nodes ∧
        r₀.rest = rbtt.rest ∧ r₀.rbttRoot = root (plug fs (.node (i, (z.2.1, n.rbtData)) l r)) := by
    cases fs with
    | nil => exact ⟨_, if_pos h.top, rfl, rfl, rfl⟩
    | cons f fs => exact ⟨rbtt, if_neg h.not_top, rfl, rfl, h.top.trans (root_plug_cons ..).symm⟩
  obtain ⟨r₁, run₁, here₁, keep₁, rest₁, root₁⟩ := write_spec (nodes₀ ▸ live) fun m =>
    { m with rbtParent := up fs, rbtLeft := root l, rbtRight := root r, rbtColor := z.2.1 }
  have same₁ (j : NodeId) (other : j ≠ i) : r₁.nodes j = rbtt.nodes j := (keep₁ j other).trans (congrFun nodes₀ j)
  obtain ⟨r₂, run₂, above₂, rest₂, root₂, keep₂⟩ := repoint_spec
    (linkedAbove_only above fun j hj => same₁ j (ne_of_mem_of_not_mem hj outA)) parts.distinct.2.2 parts.first.2.2
    (root₁.trans root₀) rfl
  have same₂ (j : NodeId) (other : j ≠ i) (outside : j ∉ (nodesAbove fs).map Prod.fst) : r₂.nodes j = rbtt.nodes j :=
    (keep₂ j (up_ne outside)).trans (same₁ j other)
  obtain ⟨r₃, run₃, left₃, rest₃, root₃, keep₃⟩ := adopt_spec
    (linked_only left fun j hj => same₂ j (ne_of_mem_of_not_mem hj outL) (parts.apart.2.1 j hj)) parts.distinct.1 (some i)
  have same₃ (j : NodeId) (inside : j ∉ ids l) : r₃.nodes j = r₂.nodes j := keep₃ j fun top => inside (root_mem_ids top)
  obtain ⟨r₄, run₄, right₄, rest₄, root₄, keep₄⟩ := adopt_spec
    (linked_only right fun j hj => (same₃ j fun mem => parts.apart.1 j mem hj).trans
      (same₂ j (ne_of_mem_of_not_mem hj outR) (parts.apart.2.2 j hj))) parts.distinct.2.1 (some i)
  have same₄ (j : NodeId) (inside : j ∉ ids r) : r₄.nodes j = r₃.nodes j := keep₄ j fun top => inside (root_mem_ids top)
  refine ⟨r₄, ?_, ⟨?_, linked_plug.mpr ⟨⟨?_, ?_, right₄⟩, ?_⟩, ?_⟩, ?_, ?_, ?_⟩
  · have zNode : r₀.node z.1 = .ok ⟨root l, root r, up fs, z.2.1, z.2.2⟩ := node_of ((congrFun nodes₀ z.1).trans here)
    rw [Rbtt.replace, if_neg ne, run₀]
    simp only [zNode, ok_bind, run₁, run₂, run₃, run₄]
  · exact root₄.trans (root₃.trans root₂)
  · exact (same₄ i outR).trans ((same₃ i outL).trans ((keep₂ i (up_ne outA)).trans here₁))
  · exact linked_only left₃ fun j hj => same₄ j (parts.apart.1 j hj)
  · exact linkedAbove_only above₂ fun j hj => (same₄ j fun mem => parts.apart.2.2 j mem hj).trans
      (same₃ j fun mem => parts.apart.2.1 j mem hj)
  · exact parts_iff.mpr ⟨⟨outL, outR, outA⟩, parts.distinct, parts.apart⟩
  · exact rest₄.trans (rest₃.trans (rest₂.trans (rest₁.trans rest₀)))
  · exact (same₄ _ parts.first.2.1).trans ((same₃ _ parts.first.1).trans (same₂ _ (Ne.symm ne) parts.first.2.2))
  · intro j outside other
    rw [(ids_plug fs _).mem_iff, List.mem_append, mem_ids_node] at outside
    simp only [not_or] at outside
    obtain ⟨⟨_, notL, notR⟩, notA⟩ := outside
    exact (same₄ j notR).trans ((same₃ j notL).trans (same₂ j other notA))

/-! ## The whole function -/

theorem Ordered.rb (h : Ordered rbtt (plug fs t)) : ∃ c k, Rb Cell.color c k t ∧ RbAbove Cell.color c k fs := by
  obtain ⟨m, whole⟩ := h.balanced
  exact whole.split

/-- The tree without a node that has a NIL as a child. -/
theorem unlink_spec (h : Ordered rbtt (plug fs (.node y l r))) (only : l = .nil ∧ t = r ∨ r = .nil ∧ t = l) :
    ∃ r₁ r₂ t₂, rbtt.spliceOut (root t) y.1 (up fs) = .ok r₁ ∧ Returns (r₁.rebalance y.color (root t)) r₂ ∧
      Holds r₂ t₂ ∧ (∃ m, Rb Cell.color .black m t₂) ∧ items t₂ = items (plug fs t) ∧ r₂.core = rbtt.core ∧
      ∀ i, i ∉ ids (plug fs t) → r₂.nodes i = rbtt.nodes i := by
  obtain ⟨r₁, run₁, hangs₁, core₁, keep₁⟩ := spliceOut_spec h.holds h.nil only
  obtain ⟨c, k, below, above⟩ := h.rb
  obtain ⟨r₂, t₂, run₂, h₂, balanced⟩ := rebalance_spec hangs₁ below above only
  exact ⟨r₁, r₂, t₂, run₁, run₂, h₂.holds, balanced, h₂.items, (core_of_rest h₂.rest).trans core₁,
    fun i out => (h₂.elsewhere i out).trans (keep₁ i out)⟩

/-- The node that is taken out of the tree: `z` itself or the next one. -/
inductive Removable (z : Cell δ) (l r : Cells δ) (fs : List (Frame (Cell δ))) (y : Cell δ) :
    List (Frame (Cell δ)) → Cells δ → Cells δ → Cells δ → Prop
  | self {t : Cells δ} (same : y = z) (only : l = .nil ∧ t = r ∨ r = .nil ∧ t = l) : Removable z l r fs y fs l r t
  | next {gs : List (Frame (Cell δ))} {yr : Cells δ} (split : r = plug gs (.node y .nil yr)) (first : before gs = []) :
      Removable z l r fs y (gs ++ ⟨true, z, l⟩ :: fs) .nil yr yr

theorem Removable.only {fs' : List (Frame (Cell δ))} {yl yr : Cells δ} (h : Removable z l r fs y fs' yl yr t) :
    yl = .nil ∧ t = yr ∨ yr = .nil ∧ t = yl := by
  cases h with
  | self _ only => exact only
  | next => exact .inl ⟨rfl, rfl⟩

theorem Removable.place {fs' : List (Frame (Cell δ))} {yl yr : Cells δ} (h : Removable z l r fs y fs' yl yr t) :
    plug fs' (.node y yl yr) = plug fs (.node z l r) := by
  cases h with
  | self same _ => rw [same]
  | next split _ =>
    rw [plug_append, split]
    rfl

theorem removable_spec (h : Holds rbtt (plug fs (.node z l r))) (magic : rbtt.rbttMagic = rbtMagic) :
    ∃ y fs' yl yr t, Returns (rbtt.removable z.1) y.1 ∧ Removable z l r fs y fs' yl yr t := by
  by_cases alone : l = .nil ∨ r = .nil
  · have none_ : root l = none ∨ root r = none := by simpa using alone
    have run (fuel : Nat) : rbtt.removable z.1 fuel = .ok z.1 := by
      simp only [Rbtt.removable, node_of h.at, ok_bind, if_pos none_]
      rfl
    cases alone with
    | inl left => exact ⟨z, _, _, _, r, .of_ok run, .self rfl (.inl ⟨left, rfl⟩)⟩
    | inr right => exact ⟨z, _, _, _, l, .of_ok run, .self rfl (.inr ⟨right, rfl⟩)⟩
  · rw [not_or] at alone
    obtain ⟨gs, y, yr, split, first, head⟩ := exists_first alone.2
    have two : ¬(root l = none ∨ root r = none) := by simpa using alone
    have next := getnextNode_spec h magic
    rw [List.head?_append, head] at next
    refine ⟨y, _, _, _, _, ?_, .next split first⟩
    have run : rbtt.removable z.1 = fun fuel => rbtt.getnextNode z.1 fuel >>= deref := by
      funext fuel
      simp only [Rbtt.removable, node_of h.at, ok_bind, if_neg two]
    rw [run]
    exact Returns.bind next (.of_ok fun _ => rfl)

/-- The node `z` is out of the tree, but still in memory. -/
structure Freed (rbtt : Rbtt δ) (z : Cell δ) (l r : Cells δ) (fs : List (Frame (Cell δ))) (rbtt' : Rbtt δ)
    (t' : Cells δ) : Prop where
  holds : Holds rbtt' t'
  balanced : ∃ m, Rb Cell.color .black m t'
  items : items t' = ((before fs).map Cell.item ++ items l) ++ (items r ++ (after fs).map Cell.item)
  core : rbtt'.core = rbtt.core
  live : ∃ n, rbtt'.nodes z.1 = some n ∧ n.rbtData = z.2.2
  out : z.1 ∉ ids t'
  keep : ∀ i, i ∉ ids (plug fs (.node z l r)) → rbtt'.nodes i = rbtt.nodes i

theorem mem_ids_iff {t : Cells δ} : i ∈ ids t ↔ ∃ e ∈ items t, e.1 = i := by
  rw [← (items_perm t).mem_iff, List.mem_map]

/-- The addresses in the rest of the tree. -/
theorem rest_apart (distinct : (ids (plug fs (.node z l r))).Nodup)
    (same : items t' = ((before fs).map Cell.item ++ items l) ++ (items r ++ (after fs).map Cell.item)) :
    z.1 ∉ ids t' ∧ ∀ i ∈ ids t', i ∈ ids (plug fs (.node z l r)) := by
  have all := (items_perm (plug fs (.node z l r))).nodup_iff.mpr distinct
  rw [items_at, List.map_append, List.map_cons] at all
  constructor
  · intro mem
    obtain ⟨e, he, eq⟩ := mem_ids_iff.mp mem
    rw [same, List.mem_append] at he
    rw [List.nodup_append, List.nodup_cons] at all
    cases he with
    | inl first => exact all.2.2 e.1 (List.mem_map_of_mem first) z.1 List.mem_cons_self eq
    | inr last => exact all.2.1.1 (List.mem_map.mpr ⟨e, last, eq⟩)
  · intro i mem
    obtain ⟨e, he, eq⟩ := mem_ids_iff.mp mem
    rw [same, List.mem_append] at he
    rw [mem_ids_iff, items_at]
    refine ⟨e, ?_, eq⟩
    rw [List.mem_append, List.mem_cons]
    exact he.imp_right .inr

theorem freed_self {r₂ : Rbtt δ} {t₂ : Cells δ} (h : Ordered rbtt (plug fs (.node z l r)))
    (only : l = .nil ∧ t = r ∨ r = .nil ∧ t = l) (holds : Holds r₂ t₂) (balanced : ∃ m, Rb Cell.color .black m t₂)
    (same : items t₂ = items (plug fs t)) (core : r₂.core = rbtt.core)
    (keep : ∀ i, i ∉ ids (plug fs t) → r₂.nodes i = rbtt.nodes i) :
    ∃ r₃ t₃, r₂.replace z.1 z.1 = .ok r₃ ∧ Freed rbtt z l r fs r₃ t₃ := by
  have rest : items (plug fs t) = ((before fs).map Cell.item ++ items l) ++ (items r ++ (after fs).map Cell.item) := by
    rw [items_plug]
    cases only with
    | inl parts => simp [parts.1, parts.2, items]
    | inr parts => simp [parts.1, parts.2, items]
  obtain ⟨out, inside⟩ := rest_apart h.holds.distinct rest
  have perm := ids_perm_of_items same
  refine ⟨r₂, t₂, ?_, holds, balanced, same.trans rest, core, ?_, mt perm.mem_iff.mp out, ?_⟩
  · rw [Rbtt.replace, if_pos rfl]
    rfl
  · exact ⟨_, (keep z.1 out).trans h.holds.at, rfl⟩
  · intro i outside
    exact keep i fun mem => outside (inside i mem)

theorem rb_congr {c : Color} {k : Nat} (same : y.color = z.color) (h : Rb Cell.color c k (.node z l r)) :
    Rb Cell.color c k (.node y l r) := by
  cases h with
  | red here left right => exact .red (same.trans here) left right
  | black here left right => exact .black (same.trans here) left right

/-- The next node, which has been taken out, gets the place of `z`. -/
theorem freed_next {gs : List (Frame (Cell δ))} {yr : Cells δ} {r₂ : Rbtt δ} {t₂ : Cells δ}
    (h : Ordered rbtt (plug fs (.node z l r))) (split : r = plug gs (.node y .nil yr)) (first : before gs = [])
    (holds : Holds r₂ t₂) (balanced : ∃ m, Rb Cell.color .black m t₂)
    (same : items t₂ = items (plug (gs ++ ⟨true, z, l⟩ :: fs) yr)) (core : r₂.core = rbtt.core)
    (keep : ∀ i, i ∉ ids (plug (gs ++ ⟨true, z, l⟩ :: fs) yr) → r₂.nodes i = rbtt.nodes i) :
    ∃ r₃ t₃, r₂.replace z.1 y.1 = .ok r₃ ∧ Freed rbtt z l r fs r₃ t₃ := by
  have whole : plug (gs ++ ⟨true, z, l⟩ :: fs) (.node y .nil yr) = plug fs (.node z l r) := by
    rw [plug_append, split]
    rfl
  have holdsY : Holds rbtt (plug (gs ++ ⟨true, z, l⟩ :: fs) (.node y .nil yr)) := whole ▸ h.holds
  -- the items without `y`, and those with `y` in the place of `z`
  have itemsR : items r = y.item :: (items yr ++ (after gs).map Cell.item) := by
    rw [split, items_plug, first]
    simp [items]
  have items₂ : items t₂ = ((before fs).map Cell.item ++ items l) ++
      z.item :: (items yr ++ (after (gs ++ ⟨true, z, l⟩ :: fs)).map Cell.item) := by
    rw [same, items_plug, before_append, first]
    simp [items]
  have restY : items (plug (gs ++ ⟨true, z, l⟩ :: fs) yr) =
      ((before (gs ++ ⟨true, z, l⟩ :: fs)).map Cell.item ++ items .nil) ++
        (items yr ++ (after (gs ++ ⟨true, z, l⟩ :: fs)).map Cell.item) := by
    rw [items_plug]
    simp [items]
  obtain ⟨outY, insideY⟩ := rest_apart holdsY.distinct restY
  have perm := ids_perm_of_items same
  have live := (keep y.1 outY).trans holdsY.at
  -- `z`, wherever it is after the balancing
  obtain ⟨z', mem, item⟩ : ∃ z' ∈ inorder t₂, z'.item = z.item := by
    have listed : z.item ∈ items t₂ := items₂ ▸ by simp
    exact List.mem_map.mp listed
  obtain ⟨fs₂, l₂, r₂', place⟩ := exists_plug (mem_inorder.mp mem)
  subst place
  obtain ⟨addr, datum⟩ := Prod.mk.inj item
  obtain ⟨r₃, run, holds₃, rest₃, kept, keep₃⟩ := replace_spec holds live (mt perm.mem_iff.mp outY)
  have parts := parts_iff.mp holds.distinct
  have items₃ := items_at fs₂ (y.1, (z'.2.1, y.2.2)) l₂ r₂'
  have around : (before fs₂).map Cell.item ++ items l₂ = (before fs).map Cell.item ++ items l ∧
      items r₂' ++ (after fs₂).map Cell.item = items yr ++ (after (gs ++ ⟨true, z, l⟩ :: fs)).map Cell.item := by
    have nodup : (items (plug fs₂ (.node z' l₂ r₂'))).Nodup :=
      ((items_perm _).nodup_iff.mpr holds.distinct).of_map
    rw [items_at, List.nodup_append, List.nodup_cons] at nodup
    rw [items_at, ← item] at items₂
    have inj := (List.append_cons_inj_of_notMem (fun mem => nodup.2.2 _ mem _ List.mem_cons_self rfl)
      nodup.2.1.1).mp items₂
    exact ⟨inj.1, inj.2.2⟩
  refine ⟨r₃, _, addr ▸ run, holds₃, ?_, ?_, (core_of_rest rest₃).trans core, ?_, ?_, ?_⟩
  · obtain ⟨m, balanced⟩ := balanced
    obtain ⟨c, k, below, above⟩ := balanced.split
    have colored : Cell.color (y.1, (z'.2.1, y.2.2)) = z'.color := rfl
    exact above.plug (rb_congr colored below)
  · rw [items₃, around.1, around.2, itemsR, after_append, after_right]
    simp [Cell.item]
  · exact ⟨_, (addr ▸ kept).trans (addr ▸ holds.at), datum⟩
  · rw [← addr, (ids_plug _ _).mem_iff, List.mem_append, mem_ids_node]
    have ne : z'.1 ≠ y.1 := fun eq => outY (eq ▸ perm.mem_iff.mp (mem_ids (mem_inorder.mp mem)))
    simp only [not_or]
    exact ⟨⟨ne, parts.first.1, parts.first.2.1⟩, parts.first.2.2⟩
  · intro i outside
    have outside' : i ∉ ids (plug (gs ++ ⟨true, z, l⟩ :: fs) yr) := fun mem => outside (whole ▸ insideY i mem)
    have other : i ≠ y.1 := by
      rintro rfl
      rw [← whole] at outside
      exact outside (mem_ids (mem_nodes_plug.mpr (.inl (by simp))))
    exact (keep₃ i (mt perm.mem_iff.mp outside') other).trans (keep i outside')

theorem removeNode_spec (h : Ordered rbtt (plug fs (.node z l r))) :
    ∃ rbtt' t', Returns (rbtt.removeNode z.1) rbtt' ∧ Ordered rbtt' t' ∧
      items t' = ((before fs).map Cell.item ++ items l) ++ (items r ++ (after fs).map Cell.item) ∧
      rbtt'.core = { rbtt.core with
        rbttNumremoved := rbtt.rbttNumremoved + 1
        rbttNuminodes := rbtt.rbttNuminodes - 1 } ∧
      (∃ n, rbtt'.nodes z.1 = some n ∧ n.rbtData = z.2.2) ∧
      ∀ i, i ∉ ids (plug fs (.node z l r)) → rbtt'.nodes i = rbtt.nodes i := by
  obtain ⟨y, fs', yl, yr, t, runY, removable⟩ := removable_spec h.holds h.magic
  have hY : Ordered rbtt (plug fs' (.node y yl yr)) := removable.place ▸ h
  obtain ⟨r₁, r₂, t₂, run₁, run₂, holds₂, balanced₂, items₂, core₂, keep₂⟩ := unlink_spec hY removable.only
  obtain ⟨r₃, t₃, run₃, freed⟩ : ∃ r₃ t₃, r₂.replace z.1 y.1 = .ok r₃ ∧ Freed rbtt z l r fs r₃ t₃ := by
    cases removable with
    | self same only =>
      subst same
      exact freed_self h only holds₂ balanced₂ items₂ core₂ keep₂
    | next split first => exact freed_next h split first holds₂ balanced₂ items₂ core₂ keep₂
  obtain ⟨n, live, datum⟩ := freed.live
  obtain ⟨r₄, run₄, here₄, keep₄, rest₄, root₄⟩ := write_spec live fun n =>
    { n with rbtLeft := none, rbtRight := none, rbtParent := none }
  have outside (i : NodeId) (mem : i ∈ ids t₃) : i ≠ z.1 := ne_of_mem_of_not_mem mem freed.out
  have core := (core_of_rest rest₄).trans freed.core
  have child : (if root yl ≠ none then root yl else root yr) = root t := by
    cases removable.only with
    | inl right => rw [right.1, right.2, root_nil, if_neg (by simp)]
    | inr left =>
      rw [left.1, left.2, root_nil]
      split
      · rfl
      · rename_i none_
        exact (not_not.mp none_).symm
  have spliced : rbtt.spliceOut (if root yl ≠ none then root yl else root yr) y.1 (up fs') = .ok r₁ := child ▸ run₁
  have rebalanced : Returns (r₁.rebalance y.color (if root yl ≠ none then root yl else root yr)) r₂ := child ▸ run₂
  let rbtt' := { r₄ with
    rbttNumremoved := r₄.rbttNumremoved + 1
    rbttNuminodes := r₄.rbttNuminodes - 1 }
  refine ⟨rbtt', t₃, ?_, ⟨⟨root₄.trans freed.holds.top, ?_, freed.holds.distinct⟩, ?_, ?_, freed.balanced, ?_⟩,
    freed.items, ?_, ⟨_, here₄, datum⟩, ?_⟩
  · apply Returns.bind (.of_ok fun _ => check_of h.magic)
    apply Returns.bind runY
    apply Returns.bind (.of_ok fun _ => node_of hY.holds.at)
    apply Returns.bind (.of_ok fun _ => spliced)
    apply Returns.bind rebalanced
    apply Returns.bind (.of_ok fun _ => run₃)
    apply Returns.bind (.of_ok fun _ => run₄)
    exact .of_ok fun _ => rfl
  · exact linked_only freed.holds.linked fun i mem => keep₄ i (outside i mem)
  · exact (core_magic core).trans h.magic
  · exact (core_nil core).trans h.nil
  · have part : (items t₃).Sublist (items (plug fs (.node z l r))) := by
      rw [freed.items, items_at]
      exact (List.Sublist.refl _).append (List.sublist_cons_self _ _)
    exact core_compare core ▸ h.sorted.sublist (part.map Prod.snd)
  · have counted := congrArg (fun s : Rbtt δ => { s with
      rbttNumremoved := s.rbttNumremoved + 1
      rbttNuminodes := s.rbttNuminodes - 1 }) core
    exact counted
  · intro i out
    have other : i ≠ z.1 := by
      rintro rfl
      exact out (mem_ids (mem_nodes_plug.mpr (.inl (by simp))))
    exact (keep₄ i other).trans (freed.keep i out)

end SonicUtils.RbTree
