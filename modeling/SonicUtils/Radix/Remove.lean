import SonicUtils.Radix.Attach
import SonicUtils.Radix.Footprint

/-!
# Removal

`remove_spec`: `std_radix_remove` takes the binding of the head away, and no
other one.
-/

namespace SonicUtils.Radix

open PtrTree BitTrie

variable {rtt m : Rtt} {rth : HeadId} {q : List Bool} {fs : List (Frame (Node NodeId HeadId))}
  {x : Node NodeId HeadId} {l r : RtTree}

/-! ## One-way branchers -/

/-- A table and its trie, of which nothing is known but the pointers. -/
structure Stored (m : Rtt) (t : RtTree) : Prop where
  root : m.rttRoot = PtrTree.root t
  linked : Linked m.mem none t
  distinct : (ids t).Nodup

theorem Represents.stored {t : RtTree} (h : Represents m t) : Stored m t :=
  ⟨h.root, h.linked, h.distinct⟩

/-- The child beside the hole. -/
theorem open_other {n : RtNode} {f : Frame (Node NodeId HeadId)} {p hole : Option NodeId}
    (holds : n.Holds (f.links hole p) f.node.2) :
    (if f.side then n.rtnLeft else n.rtnRight) = PtrTree.root f.other := by
  have left := holds.left
  have right := holds.right
  unfold Frame.links at left right
  cases hs : f.side with
  | false => simpa [hs] using right
  | true => simpa [hs] using left

theorem splice_eq {g : Frame (Node NodeId HeadId)} {z : Node NodeId HeadId} {zl zr : RtTree}
    {n c : RtNode} (live : m.nodes g.node.1 = some n)
    (holds : n.Holds (g.links none (up fs)) g.node.2) (calm : n.rtnLock = 0)
    (child : g.other = .node z zl zr) (below : m.nodes z.1 = some c)
    (above : LinkedAbove m.mem (some g.node.1) fs)
    (apart : ∀ y ∈ nodesAbove fs, y.1 ≠ g.node.1 ∧ y.1 ≠ z.1) :
    removeBrancher m g.node.1 = .ok (if g.side then up fs else some z.1,
      some (if g.side then .walkRight else .walkDown),
      (((m.setNode z.1 { c with rtnParent := up fs }).repoint fs (some z.1)).releaseHead
        g.node.2.val).freeNode g.node.1) := by
  let m₁ := m.setNode z.1 { c with rtnParent := up fs }
  have above' : LinkedAbove m₁.mem (some g.node.1) fs := by
    refine above.mono fun y hy k => mem_congr ⟨?_, fun _ _ => rfl⟩
    simp [m₁, nodes_setNode, apart y hy]
  have other : ∀ f ∈ fs, g.node.1 ∉ ids f.other := by
    intro f hf inside
    obtain ⟨y, hy, same⟩ := List.mem_map.mp inside
    exact (apart y (List.mem_flatMap.mpr ⟨f, hf, by simp [hy]⟩)).1 same
  have moved := replaceChild_eq (some z.1) false above' other
  have parent : n.rtnParent = up fs := by
    have at_parent := holds.parent
    unfold Frame.links at at_parent
    cases hs : g.side <;> simpa [hs] using at_parent
  have hole := open_side holds
  have full := open_other holds
  cases hs : g.side with
  | false =>
    have left : n.rtnLeft = none := by simpa [hs] using hole
    have right : n.rtnRight = some z.1 := by simpa [hs, child] using full
    simp [removeBrancher, node_of live, calm, left, right, parent, write_of _ below, m₁, moved, holds.rth]
  | true =>
    have right : n.rtnRight = none := by simpa [hs] using hole
    have left : n.rtnLeft = some z.1 := by simpa [hs, child] using full
    simp [removeBrancher, node_of live, calm, left, right, parent, write_of _ below, m₁, moved, holds.rth]

/-- A node with one child goes, and the child takes its place. -/
theorem splice_spec {g : Frame (Node NodeId HeadId)} (stored : Stored m (plug fs (g.fill .nil)))
    (free : ∀ n, m.nodes g.node.1 = some n → n.rtnLock = 0) (full : g.other ≠ .nil) :
    ∃ m', removeBrancher m g.node.1 = .ok (if g.side then up fs else root g.other,
        some (if g.side then .walkRight else .walkDown), m') ∧
      Stored m' (plug fs g.other) ∧ Still m m' := by
  obtain ⟨hroot, linked, distinct⟩ := stored
  obtain ⟨inside, above⟩ := linked_plug.mp linked
  obtain ⟨here, _, other⟩ := linked_fill.mp inside
  rw [root_fill] at above
  obtain ⟨n, live, holds⟩ := here.1
  cases child : g.other with
  | nil => exact absurd child full
  | node z zl zr =>
    rw [child] at other
    obtain ⟨⟨⟨c, below, cholds⟩, catt⟩, left, right⟩ := other
    have hz : z ∈ nodes (g.fill .nil) := by
      rw [(nodes_fill g .nil).mem_iff, child]
      simp
    have hg : g.node ∈ nodes (g.fill .nil) := by
      rw [(nodes_fill g .nil).mem_iff]
      simp
    have apart_g {y : Node NodeId HeadId} (hy : y ∈ nodes g.other ∨ y ∈ nodesAbove fs) :
        y.1 ≠ g.node.1 := others_apart_fill distinct (.inr hy)
    have small := nodup_other distinct
    rw [child] at small
    have apart_z {y : Node NodeId HeadId} (hy : y ∈ nodes zl ∨ y ∈ nodes zr ∨ y ∈ nodesAbove fs) :
        y.1 ≠ z.1 := others_apart small hy
    have clear : ∀ y ∈ nodesAbove fs, y.1 ≠ g.node.1 ∧ y.1 ≠ z.1 :=
      fun y hy => ⟨apart_g (.inr hy), apart_z (.inr (.inr hy))⟩
    have run := splice_eq live holds (free n live) child below above clear
    let m₁ := m.setNode z.1 { c with rtnParent := up fs }
    let m₂ := m₁.repoint fs (some z.1)
    let m' := (m₂.releaseHead g.node.2.val).freeNode g.node.1
    have upper {y : Node NodeId HeadId} (hy : y ∈ nodes (g.fill .nil)) : up fs ≠ some y.1 :=
      up_apart distinct hy
    have at_g : m₂.mem g.node.1 (g.links none (up fs)) g.node.2 := by
      refine mem_congr ⟨?_, fun _ _ => by rw [heads_repoint]; rfl⟩ here
      rw [nodes_repoint m₁ _ (upper hg), nodes_setNode, if_neg (apart_g (.inl ?_)).symm]
      simp [child]
    have last {y : Node NodeId HeadId} (ne : y.1 ≠ g.node.1) (k : Links NodeId)
        (hy : m₂.mem y.1 k y.2) : m'.mem y.1 k y.2 := by
      have kept := keeps_releaseHead at_g hy ne
      exact mem_congr ⟨by rw [nodes_freeNode, if_neg ne, kept.1], kept.2⟩ hy
    have keeps {y : Node NodeId HeadId} (hy : y ∈ nodes zl ∨ y ∈ nodes zr) (k : Links NodeId)
        (held : m.mem y.1 k y.2) : m'.mem y.1 k y.2 := by
      have inside : y ∈ nodes g.other := by
        rw [child]
        simp [hy]
      have inside' : y ∈ nodes (g.fill .nil) := by
        rw [(nodes_fill g .nil).mem_iff]
        simp [inside]
      have ne : y.1 ≠ z.1 := apart_z (hy.imp_right .inl)
      refine last (apart_g (.inl inside)) k (mem_congr ⟨?_, fun _ _ => by rw [heads_repoint]; rfl⟩ held)
      rw [nodes_repoint m₁ _ (upper inside'), nodes_setNode, if_neg ne]
    refine ⟨m', run, ⟨?_, linked_plug.mpr ⟨⟨?_, ?_, ?_⟩, ?_⟩, small⟩, ?_⟩
    · have top : m₁.rttRoot = root (plug fs (g.fill .nil)) := hroot
      have moved := root_repoint (BinaryTree.node z zl zr) top
      simpa [m', m₂] using moved
    · refine last (apart_g (.inl (by simp [child]))) _ ⟨⟨{ c with rtnParent := up fs }, ?_, ?_⟩, ?_⟩
      · rw [nodes_repoint m₁ _ (upper hz), nodes_setNode, if_pos rfl]
      · exact ⟨cholds.left, cholds.right, rfl, cholds.bit, cholds.tbit, cholds.rth⟩
      · exact fun h hv => (catt h hv).congr (by rw [heads_repoint]; rfl)
    · exact left.mono fun y hy => keeps (.inl hy)
    · exact right.mono fun y hy => keeps (.inr hy)
    · have above₁ : LinkedAbove m₁.mem (some g.node.1) fs := by
        refine above.mono fun y hy k => mem_congr ⟨?_, fun _ _ => rfl⟩
        rw [nodes_setNode, if_neg (clear y hy).2]
      have above₂ := linkedAbove_repoint _ (some z.1) above₁ (nodup_above distinct)
      exact above₂.mono fun y hy => last (clear y hy).1
    · have moved : Still m m₂ := by
        refine ⟨(sameSetup_setNode m _ _).trans (sameSetup_repoint fs _), fun h => ?_, ?_⟩
        · rw [heads_repoint]
          rfl
        · rw [clhead_repoint]
          rfl
      have freed : Still (m₂.releaseHead g.node.2.val) m' := ⟨sameSetup_freeNode _ _, fun _ => rfl, rfl⟩
      exact (moved.trans (still_releaseHead _)).trans freed

/-! ## Leaves -/

/-- The table when the leaf `x` and its head are gone. -/
def pruned (m : Rtt) (x : Node NodeId HeadId) : Rtt := (m.releaseHead x.2.val).freeNode x.1

theorem still_pruned (x : Node NodeId HeadId) : Still m (pruned m x) :=
  (still_releaseHead x.2.val).trans ⟨sameSetup_freeNode _ _, fun _ => rfl, rfl⟩

theorem still_repoint (new : Option NodeId) : Still m (m.repoint fs new) :=
  ⟨sameSetup_repoint fs new, fun _ => by rw [heads_repoint], clhead_repoint⟩

/-- A leaf goes, and its place is empty. -/
theorem prune_spec (stored : Stored m (plug fs (.node x .nil .nil))) :
    (pruned m x).replaceChild (up fs) x.1 none false = .ok ((pruned m x).repoint fs none) ∧
      Stored ((pruned m x).repoint fs none) (plug fs .nil) := by
  obtain ⟨hroot, linked, distinct⟩ := stored
  obtain ⟨⟨here, _⟩, above⟩ := linked_plug.mp linked
  have apart {y : Node NodeId HeadId} (hy : y ∈ nodesAbove fs) : y.1 ≠ x.1 :=
    others_apart distinct (.inr (.inr hy))
  have above' : LinkedAbove (pruned m x).mem (some x.1) fs := by
    refine above.mono fun y hy k held => ?_
    have kept := keeps_releaseHead here held (apart hy)
    exact mem_congr ⟨by rw [pruned, nodes_freeNode, if_neg (apart hy), kept.1], kept.2⟩ held
  have other : ∀ f ∈ fs, x.1 ∉ ids f.other := by
    intro f hf inside
    obtain ⟨y, hy, same⟩ := List.mem_map.mp inside
    exact apart (List.mem_flatMap.mpr ⟨f, hf, by simp [hy]⟩) same
  have top : (pruned m x).rttRoot = root (plug fs (.node x .nil .nil)) := by
    simpa [pruned] using hroot
  refine ⟨replaceChild_eq none false above' other, root_repoint .nil top, ?_, ?_⟩
  · exact linked_plug.mpr ⟨trivial, linkedAbove_repoint _ none above' (nodup_above distinct)⟩
  · rw [nodup_plug]
    exact nodup_above distinct

/-! ## The three kinds of nodes -/

/-- The binding `e₀` is gone, and no other one. The nodes that are left are where
they were. -/
structure Removed (m m' : Rtt) (t t' : RtTree) (e₀ : Entry HeadId) : Prop where
  rep : Represents m' t'
  bound : ∀ e, e ∈ entries t' ↔ e ∈ entries t ∧ e ≠ e₀
  places : ∀ y ∈ nodes t', ∃ z ∈ nodes t, z.1 = y.1 ∧ z.2.stem = y.2.stem
  still : Still m m'

theorem Removed.after {m₁ m' : Rtt} {t t' : RtTree} {e₀ : Entry HeadId} (h : Removed m₁ m' t t' e₀)
    (still : Still m m₁) : Removed m m' t t' e₀ :=
  ⟨h.rep, h.bound, h.places, still.trans h.still⟩

theorem Removed.of_stored {m' : Rtt} {t t' : RtTree} {e₀ : Entry HeadId} (rep : Represents m t)
    (stored : Stored m' t') (still : Still m m') (trie : Trie [] t') (fewer : ∀ y ∈ nodes t', y ∈ nodes t)
    (bound : ∀ e, e ∈ entries t' ↔ e ∈ entries t ∧ e ≠ e₀) : Removed m m' t t' e₀ := by
  refine ⟨⟨stored.root, stored.linked, stored.distinct, trie, ?_⟩, bound,
    fun y hy => ⟨y, fewer y hy, rfl, rfl⟩, still⟩
  intro y hy
  rw [still.setup.len]
  exact rep.bounded y (fewer y hy)

/-- A subtree may take the place of its parent. -/
theorem trie_splice {g : Frame (Node NodeId HeadId)} (above : TrieAbove (g :: fs))
    (full : g.other ≠ .nil) : Trie [] (plug fs g.other) := by
  obtain ⟨stem, _, other, above⟩ := above
  refine trie_plug.mpr ⟨other.shorten ?_, above, fun empty => absurd empty full⟩
  exact stem.trans (List.prefix_append _ _)

/-- A node with two children stays, without its head. -/
theorem remove_branching (rep : Represents m (plug fs (.node x l r))) (val : x.2.val = some rth)
    (left : l ≠ .nil) (right : r ≠ .nil) {n : RtNode} (holds : n.Holds ⟨root l, root r, up fs⟩ x.2) :
    Removed m ((m.releaseHead (some rth)).setNode x.1 { n with rtnRth := none })
      (plug fs (.node x l r)) (plug fs (.node (x.1, ⟨x.2.stem, none⟩) l r)) (x.2.stem, rth) := by
  obtain ⟨inside, above⟩ := linked_plug.mp rep.linked
  obtain ⟨⟨stem, _, subtrees⟩, trieAbove, _⟩ := trie_plug.mp rep.trie
  have here := inside.1
  let m' := (m.releaseHead (some rth)).setNode x.1 { n with rtnRth := none }
  have keeps {y : Node NodeId HeadId} (ne : y.1 ≠ x.1) (k : Links NodeId) (held : m.mem y.1 k y.2) :
      m'.mem y.1 k y.2 := by
    have kept := keeps_releaseHead here held ne
    rw [val] at kept
    exact mem_congr ⟨by rw [nodes_setNode, if_neg ne, kept.1], kept.2⟩ held
  have apart {y : Node NodeId HeadId} := others_apart rep.distinct (y := y)
  have released : Still m (m.releaseHead (some rth)) := still_releaseHead _
  have still : Still m m' :=
    ⟨released.setup.trans (sameSetup_setNode _ _ _), released.addrs, released.clhead⟩
  refine ⟨.of_parts ?_ ⟨⟨⟨{ n with rtnRth := none }, ?_, ?_⟩, ?_⟩, ?_, ?_⟩ ?_ ?_ ?_ trieAbove ?_ ?_, ?_,
    ?_, still⟩
  · have top : m'.rttRoot = root (plug fs (.node x l r)) := by simpa [m'] using rep.root
    exact top.trans (root_plug_congr rfl)
  · rw [nodes_setNode, if_pos rfl]
  · exact ⟨holds.left, holds.right, holds.parent, holds.bit, holds.tbit, rfl⟩
  · rintro h ⟨⟩
  · exact inside.2.1.mono fun y hy => keeps (apart (.inl hy))
  · exact inside.2.2.mono fun y hy => keeps (apart (.inr (.inl hy)))
  · exact above.mono fun y hy => keeps (apart (.inr (.inr hy)))
  · have distinct := nodup_plug.mp rep.distinct
    exact nodup_plug.mpr distinct
  · exact ⟨stem, fun _ => ⟨left, right⟩, subtrees⟩
  · simp
  · intro y hy
    rw [still.setup.len]
    rcases mem_nodes_plug.mp hy with within | outside
    · rcases List.mem_cons.mp within with rfl | below
      · exact rep.bounded x (mem_nodes_plug.mpr (.inl (by simp)))
      · exact rep.bounded y (mem_nodes_plug.mpr (.inl (List.mem_cons_of_mem x below)))
    · exact rep.bounded y (mem_nodes_plug.mpr (.inr outside))
  · apply bound_of_split rep.trie (entries_at fs val)
    simp [entries_plug, own]
  · intro y hy
    rcases mem_nodes_plug.mp hy with within | outside
    · rcases List.mem_cons.mp within with rfl | below
      · exact ⟨x, mem_nodes_plug.mpr (.inl (by simp)), rfl, rfl⟩
      · exact ⟨y, mem_nodes_plug.mpr (.inl (List.mem_cons_of_mem x below)), rfl, rfl⟩
    · exact ⟨y, mem_nodes_plug.mpr (.inr outside), rfl, rfl⟩

/-- A node with one child goes with its head. -/
theorem remove_oneway {g : Frame (Node NodeId HeadId)} (rep : Represents m (plug fs (g.fill .nil)))
    (free : ∀ n, m.nodes g.node.1 = some n → n.rtnLock = 0) (val : g.node.2.val = some rth) (full : g.other ≠ .nil) :
    ∃ m', removeBrancher m g.node.1 = .ok (if g.side then up fs else root g.other,
        some (if g.side then .walkRight else .walkDown), m') ∧
      Removed m m' (plug fs (g.fill .nil)) (plug fs g.other) (g.node.2.stem, rth) := by
  obtain ⟨m', run, stored, still⟩ := splice_spec rep.stored free full
  refine ⟨m', run, .of_stored rep stored still ?_ ?_ ?_⟩
  · obtain ⟨below, above, _⟩ := trie_plug.mp rep.trie
    obtain ⟨_, stem, two, other, _⟩ := trie_fill.mp below
    have above' : TrieAbove (g :: fs) := ⟨stem, two, other, above⟩
    exact trie_splice above' full
  · intro y hy
    rw [mem_nodes_plug, (nodes_fill g .nil).mem_iff]
    rcases mem_nodes_plug.mp hy with within | outside
    · exact .inl (by simp [within])
    · exact .inr outside
  · have old : entries (plug fs (g.fill .nil)) =
        entriesBefore fs ++ (g.node.2.stem, rth) :: (entries g.other ++ entriesAfter fs) := by
      cases g with
      | mk side z other => cases side <;> simp_all [Frame.fill, entries_plug, own]
    apply bound_of_split rep.trie old
    simp [entries_plug]

/-- The table when the leaf `x` below `fs` has been unlinked. -/
def unlinked (m : Rtt) (fs : List (Frame (Node NodeId HeadId))) (x : Node NodeId HeadId) : Rtt :=
  (pruned m x).repoint fs none

theorem still_unlinked : Still m (unlinked m fs x) := (still_pruned x).trans (still_repoint none)

theorem lock_unlinked {i : NodeId} {n : RtNode} (live : (unlinked m fs x).nodes i = some n) :
    ∃ n₀, m.nodes i = some n₀ ∧ n.rtnLock = n₀.rtnLock := by
  have gone {n : RtNode} (live : (pruned m x).nodes i = some n) : m.nodes i = some n := by
    rw [pruned, nodes_freeNode] at live
    split at live
    · cases live
    · simpa using live
  cases fs with
  | nil => exact ⟨n, gone live, rfl⟩
  | cons f fs =>
    simp only [Radix.unlinked, Rtt.repoint] at live
    split at live
    · rename_i same
      obtain ⟨p, hp, rfl⟩ := Option.map_eq_some_iff.mp live
      exact ⟨p, gone (same ▸ hp), lock_setSide⟩
    · exact ⟨n, gone live, rfl⟩

/-- A leaf goes with its head, and its parent has a head or there is none. -/
theorem remove_leaf (rep : Represents m (plug fs (.node x .nil .nil))) (val : x.2.val = some rth)
    (bound : MayBeEmpty fs) :
    Removed m (unlinked m fs x) (plug fs (.node x .nil .nil)) (plug fs .nil) (x.2.stem, rth) := by
  obtain ⟨_, stored⟩ := prune_spec rep.stored
  obtain ⟨_, above, _⟩ := trie_plug.mp rep.trie
  apply Removed.of_stored rep stored still_unlinked
  · exact trie_plug.mpr ⟨trivial, above, fun _ => bound⟩
  · intro y hy
    rw [mem_nodes_plug] at hy ⊢
    exact hy.imp_left fun none => absurd none List.not_mem_nil
  · apply bound_of_split rep.trie (entries_at fs val)
    simp [entries_plug]

/-- A leaf goes with its head, and its parent had none and goes too. -/
theorem remove_leaf_and_parent {f : Frame (Node NodeId HeadId)}
    (rep : Represents m (plug (f :: fs) (.node x .nil .nil))) (guarded : Guarded m)
    (val : x.2.val = some rth) (bare : f.node.2.val = none) :
    ∃ m', removeBrancher (unlinked m (f :: fs) x) f.node.1 = .ok (if f.side then up fs else root f.other,
        some (if f.side then .walkRight else .walkDown), m') ∧
      Removed m m' (plug (f :: fs) (.node x .nil .nil)) (plug fs f.other) (x.2.stem, rth) := by
  obtain ⟨_, stored⟩ := prune_spec rep.stored
  obtain ⟨_, above, _⟩ := trie_plug.mp rep.trie
  have full := above.2.1 bare
  have free : ∀ n, (unlinked m (f :: fs) x).nodes f.node.1 = some n → n.rtnLock = 0 := by
    intro n live
    obtain ⟨p, plive, pholds⟩ := holds_above rep.linked
    obtain ⟨n₀, live₀, same⟩ := lock_unlinked live
    obtain rfl := Option.some.inj (plive.symm.trans live₀)
    exact same.trans (guarded _ _ plive (pholds.rth.trans bare))
  obtain ⟨m', run, stored', still⟩ := splice_spec stored free full
  refine ⟨m', run, .of_stored rep stored' (still_unlinked.trans still) (trie_splice above full) ?_ ?_⟩
  · intro y hy
    rw [mem_nodes_plug] at hy ⊢
    right
    rcases hy with within | outside
    · simp [within]
    · simp [outside]
  · apply bound_of_split rep.trie (entries_at (f :: fs) val)
    cases f with
    | mk side z other =>
      have none : own z = [] := by simp_all [own]
      cases side <;> simp [entries_plug, entriesBefore, entriesAfter, none]

theorem removeNode_leaf {n p : RtNode} {f : Frame (Node NodeId HeadId)} (live : m.nodes x.1 = some n)
    (calm : n.rtnLock = 0) (left : n.rtnLeft = none) (right : n.rtnRight = none)
    (parent : n.rtnParent = some f.node.1) (head : n.rtnRth = x.2.val)
    (above : (pruned m.dropRoute x).nodes f.node.1 = some p)
    (run : (pruned m.dropRoute x).replaceChild (up (f :: fs)) x.1 none false =
      .ok (unlinked m.dropRoute (f :: fs) x)) :
    stdRadixRemoveNode m x.1 =
      if p.rtnRth.isSome then .ok (some f.node.1,
        some (if p.rtnLeft = some x.1 then .walkRight else .walkUp), unlinked m.dropRoute (f :: fs) x)
      else removeBrancher (unlinked m.dropRoute (f :: fs) x) f.node.1 := by
  unfold stdRadixRemoveNode
  rw [node_of live, ok_bind, check_of calm, ok_bind, if_neg (by simp [left]), if_pos ⟨left, right⟩, head,
    parent]
  show ((pruned m.dropRoute x).node f.node.1 >>= fun p =>
    (pruned m.dropRoute x).replaceChild (up (f :: fs)) x.1 none false >>= fun rtt => _) = _
  rw [node_of above, ok_bind, run, ok_bind]
  rfl

/-- The ways of `_std_radix_remove` at the node `x`: where the version walk is to go
on and in which direction, and the trie that is left. -/
inductive Departure (fs : List (Frame (Node NodeId HeadId))) (x : Node NodeId HeadId) :
    RtTree → RtTree → Option NodeId → Option WalkDir → RtTree → Prop
  | branching (l r : RtTree) : l ≠ .nil → r ≠ .nil →
      Departure fs x l r (up fs) (some .walkUp) (plug fs (.node (x.1, ⟨x.2.stem, none⟩) l r))
  | root : fs = [] → Departure fs x .nil .nil none none .nil
  | leaf (f : Frame (Node NodeId HeadId)) (fs' : List (Frame (Node NodeId HeadId))) :
      fs = f :: fs' → f.node.2.val ≠ none →
      Departure fs x .nil .nil (some f.node.1) (some (if f.side then .walkUp else .walkRight)) (plug fs .nil)
  | leafAndParent (f : Frame (Node NodeId HeadId)) (fs' : List (Frame (Node NodeId HeadId))) :
      fs = f :: fs' → f.node.2.val = none →
      Departure fs x .nil .nil (if f.side then up fs' else PtrTree.root f.other)
        (some (if f.side then .walkRight else .walkDown)) (plug fs' f.other)
  | onlyLeft (l : RtTree) : l ≠ .nil → Departure fs x l .nil (up fs) (some .walkRight) (plug fs l)
  | onlyRight (r : RtTree) : r ≠ .nil →
      Departure fs x .nil r (PtrTree.root r) (some .walkDown) (plug fs r)

/-- **Removal of a node's head**, in the ways of `_std_radix_remove`. -/
theorem removeNode_spec (rep : Represents m (plug fs (.node x l r)))
    (free : ∀ n, m.nodes x.1 = some n → n.rtnLock = 0) (guarded : Guarded m) (val : x.2.val = some rth) :
    ∃ ret dir m' t', stdRadixRemoveNode m x.1 = .ok (ret, dir, m') ∧ Departure fs x l r ret dir t' ∧
      Removed m m' (plug fs (.node x l r)) t' (x.2.stem, rth) := by
  obtain ⟨⟨n, live, holds⟩, _⟩ := holds_at rep.linked
  have dropped : Represents m.dropRoute (plug fs (.node x l r)) :=
    rep.congr rfl rfl fun y _ => ⟨rfl, fun _ _ => rfl⟩
  have calm := free n live
  have free' : ∀ n, m.dropRoute.nodes x.1 = some n → n.rtnLock = 0 := free
  have guarded' : Guarded m.dropRoute := guarded
  have live' : m.dropRoute.nodes x.1 = some n := live
  have still : Still m m.dropRoute := ⟨sameSetup_dropRoute m, fun _ => rfl, rfl⟩
  by_cases left : l = .nil
  · by_cases right : r = .nil
    · subst left right
      have childless : n.rtnLeft = none ∧ n.rtnRight = none := ⟨holds.left, holds.right⟩
      cases fs with
      | nil =>
        have removed := remove_leaf dropped val trivial
        refine ⟨none, none, _, _, ?_, .root rfl, removed.after still⟩
        have parent : n.rtnParent = none := holds.parent
        simp [stdRadixRemoveNode, node_of live, calm, childless, parent, holds.rth]
        rfl
      | cons f fs =>
        have parent : n.rtnParent = some f.node.1 := holds.parent
        obtain ⟨p, plive, pholds⟩ := holds_above dropped.linked
        obtain ⟨run, _⟩ := prune_spec dropped.stored
        have ne : f.node.1 ≠ x.1 := others_apart rep.distinct (.inr (.inr (by simp)))
        have above : (pruned m.dropRoute x).nodes f.node.1 = some p := by
          rw [pruned, nodes_freeNode, if_neg ne, nodes_releaseHead, plive]
        have leaf := removeNode_leaf live calm holds.left holds.right parent holds.rth above run
        cases head : f.node.2.val with
        | some h =>
          have removed := remove_leaf dropped val (by simp [MayBeEmpty, head])
          have side : (p.rtnLeft = some x.1) = (f.side = false) := propext (left_iff dropped pholds)
          refine ⟨_, _, _, _, leaf.trans (if_pos ?_), ?_,
            removed.after still⟩
          · rw [pholds.rth, head]
            rfl
          · have departure := Departure.leaf (x := x) f fs rfl (by simp [head])
            cases hs : f.side <;> simpa [side, hs] using departure
        | none =>
          obtain ⟨m', splice, removed⟩ := remove_leaf_and_parent dropped guarded' val head
          refine ⟨_, _, m', _, (leaf.trans (if_neg ?_)).trans splice, .leafAndParent f fs rfl head,
            removed.after still⟩
          rw [pholds.rth, head]
          decide
    · subst left
      have removed := remove_oneway (g := ⟨false, x, r⟩) dropped free' val right
      obtain ⟨m', run, removed⟩ := removed
      refine ⟨_, _, m', _, ?_, .onlyRight r right, removed.after still⟩
      have hl : n.rtnLeft = none := holds.left
      have hr : n.rtnRight ≠ none := fun none => right (root_eq_none.mp (holds.right.symm.trans none))
      have brancher : stdRadixRemoveNode m x.1 = removeBrancher m.dropRoute x.1 := by
        simp [stdRadixRemoveNode, node_of live, calm, hl, hr]
      exact brancher.trans run
  · by_cases right : r = .nil
    · subst right
      have removed := remove_oneway (g := ⟨true, x, l⟩) dropped free' val left
      obtain ⟨m', run, removed⟩ := removed
      refine ⟨_, _, m', _, ?_, .onlyLeft l left, removed.after still⟩
      have hr : n.rtnRight = none := holds.right
      have hl : n.rtnLeft ≠ none := fun none => left (root_eq_none.mp (holds.left.symm.trans none))
      have brancher : stdRadixRemoveNode m x.1 = removeBrancher m.dropRoute x.1 := by
        simp [stdRadixRemoveNode, node_of live, calm, hl, hr]
      exact brancher.trans run
    · have removed := remove_branching dropped val left right holds
      refine ⟨_, _, _, _, ?_, .branching l r left right,
        removed.after still⟩
      have hl : n.rtnLeft ≠ none := fun none => left (root_eq_none.mp (holds.left.symm.trans none))
      have hr : n.rtnRight ≠ none := fun none => right (root_eq_none.mp (holds.right.symm.trans none))
      have parent : n.rtnParent = up fs := holds.parent
      have released : (m.dropRoute.releaseHead n.rtnRth).nodes x.1 = some n := by
        rw [nodes_releaseHead, live']
      simp [stdRadixRemoveNode, node_of live, calm, Option.isSome_iff_ne_none, hl, hr, parent,
        write_of _ released]
      rw [holds.rth, val]

/-- A node without a head stays as it is. -/
theorem removeNode_headless {n : RtNode} (live : m.nodes x.1 = some n) (calm : n.rtnLock = 0)
    (holds : n.Holds ⟨root l, root r, up fs⟩ x.2) (val : x.2.val = none) (left : l ≠ .nil) (right : r ≠ .nil) :
    stdRadixRemoveNode m x.1 = .ok (up fs, some .walkUp, m.dropRoute) := by
  have hl : n.rtnLeft ≠ none := fun none => left (root_eq_none.mp (holds.left.symm.trans none))
  have hr : n.rtnRight ≠ none := fun none => right (root_eq_none.mp (holds.right.symm.trans none))
  have parent : n.rtnParent = up fs := holds.parent
  have head : n.rtnRth = none := holds.rth.trans val
  have live' : m.dropRoute.nodes x.1 = some n := live
  have same : { n with rtnRth := none } = n := by rw [← head]
  have written : m.dropRoute.write x.1 (fun n => { n with rtnRth := none }) = .ok m.dropRoute := by
    rw [write_of _ live', same, setNode_self live']
  simp [stdRadixRemoveNode, node_of live, calm, Option.isSome_iff_ne_none, hl, hr, parent, head,
    Rtt.releaseHead, written]

/-- A removal changes no lock and no flag. -/
theorem unlocked_of_footprint (unlocked : Unlocked m) {m' : Rtt}
    (same : Footprint (fun n => (n.rtnLock, n.rtnFlags)) ∅ ∅ m m') : Unlocked m' := by
  intro i n' live
  rcases same.nodes i n' live with new | ⟨n, old, eq⟩
  · cases new
  · have calm := unlocked i n old
    simp only [Prod.mk.injEq] at eq
    exact ⟨eq.1.trans calm.1, eq.2.trans calm.2⟩

/-- **Removal.** `std_radix_remove` takes the binding of the head away. -/
theorem remove_spec {t : RtTree} (rep : Represents rtt t) (settled : Settled rtt)
    (bound : (q, rth) ∈ entries t) :
    ∃ rtt' t', stdRadixRemove rtt rth = .ok rtt' ∧ Settled rtt' ∧ Removed rtt rtt' t t' (q, rth) := by
  obtain ⟨x, hx, own⟩ := mem_entries.mp bound
  obtain ⟨val, rfl⟩ := mem_own.mp own
  obtain ⟨fs, l, r, rfl⟩ := exists_plug hx
  obtain ⟨⟨n, live, _⟩, att⟩ := holds_at rep.linked
  have calm := (settled.unlocked x.1 n live).1
  have counted : Represents rtt.countRemove (plug fs (.node x l r)) :=
    rep.congr rfl rfl fun y _ => ⟨rfl, fun _ _ => rfl⟩
  have still : Still rtt rtt.countRemove := ⟨sameSetup_countRemove rtt, fun _ => rfl, rfl⟩
  have unlocked : Unlocked rtt.countRemove := settled.unlocked
  obtain ⟨ret, dir, m', t', run, _, removed⟩ := removeNode_spec counted (unlocked.lockfree x.1)
    unlocked.lockfree.guarded val
  have linkless : Linkless fun n : RtNode => (n.rtnLock, n.rtnFlags) :=
    ⟨fun _ _ => rfl, fun _ _ => rfl, fun _ _ => rfl, fun _ _ => rfl⟩
  have unlocked' := unlocked_of_footprint unlocked ((footprint_removeNode linkless).of_ok _ run)
  have all := still.trans removed.still
  have settled' := settled.of_quiet ⟨all, unlocked'⟩
  refine ⟨m', t', ?_, settled', removed.after still⟩
  have live' : rtt.countRemove.nodes x.1 = some n := live
  have place : (rtt.countRemove.heads rth).rthRtn = some x.1 := (att rth val).1
  unfold stdRadixRemove
  simp [settled.ready.validate, place, node_of live', calm, run, settled'.unlisted]

end SonicUtils.Radix
