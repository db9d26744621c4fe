import SonicUtils.Lib.TrieOrder
import SonicUtils.Radix.Memory

/-!
# New heads and nodes

What the branches of `std_radix_insert` make of the trie, once the place for
the prefix is found.

* `attach_spec`: a node that is there gets the head;
* `below_spec`: a new node below a node;
* `above_spec`: a new node above a node.
-/

namespace SonicUtils.Radix

open PtrTree BitTrie

variable {rtt : Rtt} {rth : HeadId} {ap : Addr} {q : List Bool}
  {fs : List (Frame (Node NodeId HeadId))} {x : Node NodeId HeadId} {l r : RtTree}

/-- The place that the search of `std_radix_insert` has found for the prefix `q`
of a head: the node `x` below `fs`. -/
structure Site (rtt : Rtt) (rth : HeadId) (ap : Addr) (q : List Bool)
    (fs : List (Frame (Node NodeId HeadId))) (x : Node NodeId HeadId) (l r : RtTree) : Prop where
  rep : Represents rtt (plug fs (.node x l r))
  loose : Loose rth (plug fs (.node x l r))
  addr : (rtt.heads rth).rdxRthAddr = some ap
  key : ap.bits q.length = q
  fits : q.length ≤ rtt.rttMaxaddrlen
  above : stemAbove fs <+: q

/-- Every node of `t'` is one of `t`, or no binding of `t` is below it, or it has
the version of a node of `t` that is above the same bindings. -/
def Covered (rtt rtt' : Rtt) (t t' : RtTree) : Prop :=
  ∀ y ∈ nodes t', y ∈ nodes t ∨ (∀ e ∈ entries t, ¬ y.2.stem <+: e.1) ∨
    ∃ x ∈ nodes t, (∀ e ∈ entries t, y.2.stem <+: e.1 → x.2.stem <+: e.1) ∧
      ∃ n n', rtt.nodes x.1 = some n ∧ rtt'.nodes y.1 = some n' ∧ n'.rtnVersion = n.rtnVersion

/-- The nodes of `t` are in `t'`, and so are the nodes that are new. -/
structure Tidy (rtt rtt' : Rtt) (t t' : RtTree) : Prop where
  kept : ∀ i ∈ ids t, i ∈ ids t'
  made : ∀ i, rtt.nodes i = none → rtt'.nodes i ≠ none → i ∈ ids t'

/-- The prefix `q` was free and is now bound to the head. -/
structure Inserted (rtt rtt' : Rtt) (t t' : RtTree) (q : List Bool) (rth : HeadId) : Prop where
  rep : Represents rtt' t'
  bound : ∀ e, e ∈ entries t' ↔ e = (q, rth) ∨ e ∈ entries t
  still : Still rtt rtt'
  covered : Covered rtt rtt' t t'
  tidy : Tidy rtt rtt' t t'

theorem ids_plug_subset {t t' : RtTree} (h : ∀ i ∈ ids t, i ∈ ids t') : ∀ i ∈ ids (plug fs t), i ∈ ids (plug fs t') := by
  intro i hi
  rw [(ids_plug fs _).mem_iff, List.mem_append] at hi ⊢
  exact hi.imp_left (h i)

theorem Site.parts (s : Site rtt rth ap q fs x l r) :
    Trie (stemAbove fs) (.node x l r) ∧ TrieAbove fs ∧
      Linked rtt.mem (up fs) (.node x l r) ∧ LinkedAbove rtt.mem (some x.1) fs := by
  obtain ⟨below, above, _⟩ := trie_plug.mp s.rep.trie
  obtain ⟨linked, linkedAbove⟩ := linked_plug.mp s.rep.linked
  exact ⟨below, above, linked, linkedAbove⟩

/-- Where the rest of the memory is as before, a new part may take the place of
an old one. -/
theorem entries_replace {t t' : RtTree} (h : ∀ e, e ∈ entries t' ↔ e = (q, rth) ∨ e ∈ entries t)
    (e : Entry HeadId) : e ∈ entries (plug fs t') ↔ e = (q, rth) ∨ e ∈ entries (plug fs t) := by
  simp only [entries_plug, List.mem_append, h]
  tauto

/-- A node that is new in the trie `t'` in the place of `x`: the leaf of the head,
or the top, with the version of `x`. -/
inductive NewNode (rtt rtt' : Rtt) (q : List Bool) (rth : HeadId) (x : Node NodeId HeadId) (t' : RtTree)
    (y : Node NodeId HeadId) : Prop
  | leaf (gs : List (Frame (Node NodeId HeadId))) : t' = plug gs (.node y .nil .nil) →
      y.2 = ⟨q, some rth⟩ → NewNode rtt rtt' q rth x t' y
  | top (l' r' : RtTree) (n n' : RtNode) : t' = .node y l' r' → rtt.nodes x.1 = some n →
      rtt'.nodes y.1 = some n' → n'.rtnVersion = n.rtnVersion → NewNode rtt rtt' q rth x t' y

theorem Site.covered (s : Site rtt rth ap q fs x l r) {rtt' : Rtt} {t' : RtTree} {y : Node NodeId HeadId}
    (trie : Trie [] (plug fs t')) (bound : ∀ e, e ∈ entries t' ↔ e = (q, rth) ∨ e ∈ entries (.node x l r))
    (new : NewNode rtt rtt' q rth x t' y) :
    (∀ e ∈ entries (plug fs (.node x l r)), ¬ y.2.stem <+: e.1) ∨
      ∃ z ∈ nodes (plug fs (.node x l r)),
        (∀ e ∈ entries (plug fs (.node x l r)), y.2.stem <+: e.1 → z.2.stem <+: e.1) ∧
        ∃ n n', rtt.nodes z.1 = some n ∧ rtt'.nodes y.1 = some n' ∧ n'.rtnVersion = n.rtnVersion := by
  have old : ∀ e ∈ entries (plug fs (.node x l r)), e ≠ (q, rth) := by
    rintro e he rfl
    exact loose_iff.mp s.loose _ he
  have all (e : Entry HeadId) : e ∈ entries (plug fs t') ↔
      e = (q, rth) ∨ e ∈ entries (plug fs (.node x l r)) := entries_replace bound e
  cases new with
  | leaf gs place val =>
    left
    intro e he below
    subst place
    rw [← plug_append] at trie
    have listed : e ∈ entries (plug (gs ++ fs) (.node y .nil .nil)) := by
      rw [plug_append]
      exact (all e).mpr (.inr he)
    have here := mem_of_extends trie below listed
    apply old e he
    simpa [own, val] using here
  | top l' r' n n' place live live' same =>
    right
    subst place
    refine ⟨x, mem_nodes_plug.mpr (.inl (by simp)), fun e he below => ?_, n, n', live, live', same⟩
    have here := mem_of_extends trie below ((all e).mpr (.inr he))
    rcases (bound e).mp here with mine | inside
    · exact absurd mine (old e he)
    · exact s.parts.1.root_extends_key inside

/-- A trie `t'` that takes the place of `x` and what is below it. -/
theorem Site.inserted (s : Site rtt rth ap q fs x l r) {rtt' : Rtt} {t' : RtTree}
    (hroot : rtt'.rttRoot = root (plug fs t')) (linked : Linked rtt'.mem (up fs) t')
    (linkedAbove : LinkedAbove rtt'.mem (root t') fs)
    (distinct : (ids t' ++ (nodesAbove fs).map Prod.fst).Nodup) (trie : Trie (stemAbove fs) t')
    (bound : ∀ e, e ∈ entries t' ↔ e = (q, rth) ∨ e ∈ entries (.node x l r))
    (new : ∀ y ∈ nodes t', y ∈ nodes (.node x l r) ∨
      y.2.stem.length ≤ q.length ∧ NewNode rtt rtt' q rth x t' y)
    (tidy : Tidy rtt rtt' (.node x l r) t') (setup : SameSetup rtt rtt')
    (addrs : ∀ h, (rtt'.heads h).rthAddr = (rtt.heads h).rthAddr)
    (clhead : rtt'.rttClhead = rtt.rttClhead) :
    Inserted rtt rtt' (plug fs (.node x l r)) (plug fs t') q rth := by
  obtain ⟨_, trieAbove, _⟩ := trie_plug.mp s.rep.trie
  have full : t' ≠ .nil := by
    rintro rfl
    simpa using (bound (q, rth)).mpr (.inl rfl)
  have whole : Trie [] (plug fs t') := trie_plug.mpr ⟨trie, trieAbove, (absurd · full)⟩
  refine ⟨?_, entries_replace bound, ⟨setup, addrs, clhead⟩, ?_, ids_plug_subset tidy.kept, fun i free live => ?_⟩
  · refine .of_parts hroot linked linkedAbove (nodup_plug.mpr distinct) trie trieAbove (absurd · full) ?_
    intro y hy
    rw [setup.len]
    rcases mem_nodes_plug.mp hy with inside | above
    · rcases new y inside with old | ⟨short, _⟩
      · exact s.rep.bounded y (mem_nodes_plug.mpr (.inl old))
      · exact short.trans s.fits
    · exact s.rep.bounded y (mem_nodes_plug.mpr (.inr above))
  · intro y hy
    rcases mem_nodes_plug.mp hy with inside | above
    · rcases new y inside with old | ⟨_, new⟩
      · exact .inl (mem_nodes_plug.mpr (.inl old))
      · exact .inr (s.covered whole bound new)
    · exact .inl (mem_nodes_plug.mpr (.inr above))
  · rw [(ids_plug fs _).mem_iff, List.mem_append]
    exact .inl (tidy.made i free live)

/-- The node of the prefix is there, and its head, if it has one, is marked. -/
theorem attach_rep (s : Site rtt rth ap q fs x l r) (here : x.2.stem = q) {n : RtNode}
    (live : rtt.nodes x.1 = some n) (holds : n.Holds ⟨root l, root r, up fs⟩ x.2)
    (free : n.marked = true ∨ x.2.val = none) :
    ∃ rtt' n', insertAttach rtt rth x.1 n = .ok (some rth, rtt') ∧ rtt'.nodes x.1 = some n' ∧
      n'.rtnVersion = n.rtnVersion ∧ Still rtt rtt' ∧
      Represents rtt' (plug fs (.node (x.1, ⟨q, some rth⟩) l r)) ∧
      Tidy rtt rtt' (plug fs (.node x l r)) (plug fs (.node (x.1, ⟨q, some rth⟩) l r)) := by
  obtain ⟨trie, trieAbove, linked, linkedAbove⟩ := s.parts
  let n' := { n with rtnRth := some rth, rtnFlags := n.rtnFlags &&& ~~~ deleBit }
  let m₁ := rtt.releaseHead x.2.val
  let rtt' := ((m₁.setNode x.1 n').writeHead rth fun h => { h with rthRtn := some x.1 }).addRoute
  have run : insertAttach rtt rth x.1 n = .ok (some rth, rtt') := by
    rw [insertAttach_eq rth live (by rwa [holds.rth]), holds.rth]
  have own : x.2.val ≠ some rth := s.loose x (mem_nodes_plug.mpr (.inl (by simp)))
  have addr : (rtt'.heads rth).rdxRthAddr = some ap := by
    simp [rtt', m₁, heads_writeHead, heads_releaseHead own, s.addr]
  have mine := linked.1
  have keeps {y : Node NodeId HeadId} (hy : y ∈ nodes (plug fs (.node x l r))) (ne : y.1 ≠ x.1)
      (k : Links NodeId) (held : rtt.mem y.1 k y.2) : rtt'.mem y.1 k y.2 := by
    have kept := keeps_releaseHead mine held ne
    refine mem_congr ⟨by simp [rtt', m₁, nodes_setNode, ne], fun h hv => ?_⟩ held
    have other : h ≠ rth := fun same => s.loose y hy (same ▸ hv)
    simpa [rtt', heads_writeHead, other] using kept.2 h hv
  have apart {y : Node NodeId HeadId} := others_apart s.rep.distinct (y := y)
  have still : Still rtt rtt' := by
    have setup : SameSetup m₁ rtt' :=
      ((sameSetup_setNode m₁ x.1 n').trans (sameSetup_writeHead _ rth _)).trans (sameSetup_addRoute _)
    refine (still_releaseHead x.2.val).trans ⟨setup, fun h => ?_, rfl⟩
    simp only [rtt', heads_addRoute, heads_setNode, heads_writeHead]
    split <;> simp [*, m₁]
  have here' : rtt'.mem x.1 ⟨root l, root r, up fs⟩ ⟨q, some rth⟩ := by
    obtain ⟨left, right, parent, bit, tbit, _⟩ := holds
    rw [here] at bit tbit
    refine ⟨⟨n', by simp [rtt', nodes_setNode], ⟨left, right, parent, bit, tbit, rfl⟩⟩, ?_⟩
    rintro h ⟨⟩
    exact ⟨by simp [rtt', heads_writeHead], ap, addr, s.key⟩
  have tidy : Tidy rtt rtt' (plug fs (.node x l r)) (plug fs (.node (x.1, ⟨q, some rth⟩) l r)) := by
    refine ⟨ids_plug_subset fun i hi => hi, fun i free live' => ?_⟩
    by_cases here : i = x.1
    · rw [here, live] at free
      cases free
    · simp [rtt', m₁, nodes_setNode, here, free] at live'
  refine ⟨rtt', n', run, by simp [rtt', nodes_setNode], rfl, still, ?_, tidy⟩
  apply Represents.of_parts
  · have same : rtt'.rttRoot = rtt.rttRoot := by simp [rtt', m₁]
    exact (same.trans s.rep.root).trans (root_plug_congr rfl)
  · refine ⟨here', linked.2.1.mono fun y hy => ?_, linked.2.2.mono fun y hy => ?_⟩
    · exact keeps (mem_nodes_plug.mpr (.inl (by simp [hy]))) (apart (.inl hy))
    · exact keeps (mem_nodes_plug.mpr (.inl (by simp [hy]))) (apart (.inr (.inl hy)))
  · refine linkedAbove.mono fun y hy => ?_
    exact keeps (mem_nodes_plug.mpr (.inr hy)) (apart (.inr (.inr hy)))
  · have distinct := nodup_plug.mp s.rep.distinct
    exact nodup_plug.mpr distinct
  · obtain ⟨stem, _, left, right⟩ := trie
    rw [here] at stem left right
    exact ⟨stem, by simp, left, right⟩
  · exact trieAbove
  · simp
  · intro y hy
    rw [still.setup.len]
    rcases mem_nodes_plug.mp hy with inside | above
    · rcases List.mem_cons.mp inside with rfl | below
      · exact s.fits
      · exact s.rep.bounded y (mem_nodes_plug.mpr (.inl (List.mem_cons_of_mem _ below)))
    · exact s.rep.bounded y (mem_nodes_plug.mpr (.inr above))

/-- The node of the prefix is there and has no head. -/
theorem attach_spec (s : Site rtt rth ap q fs x l r) (here : x.2.stem = q) (free : x.2.val = none)
    {n : RtNode} (live : rtt.nodes x.1 = some n) (holds : n.Holds ⟨root l, root r, up fs⟩ x.2) :
    ∃ rtt', insertAttach rtt rth x.1 n = .ok (some rth, rtt') ∧
      Inserted rtt rtt' (plug fs (.node x l r)) (plug fs (.node (x.1, ⟨q, some rth⟩) l r)) q rth := by
  obtain ⟨rtt', n', run, live', version, still, rep', tidy⟩ := attach_rep s here live holds (.inr free)
  refine ⟨rtt', run, rep', entries_replace fun e => by simp [own, free], still, fun y hy => ?_, tidy⟩
  have old {y : Node NodeId HeadId} (place : y ∈ nodes l ∨ y ∈ nodes r ∨ y ∈ nodesAbove fs) :
      y ∈ nodes (plug fs (.node x l r)) := by
    rw [mem_nodes_plug]
    simp only [nodes_node, List.mem_cons, List.mem_append]
    tauto
  rcases mem_nodes_plug.mp hy with inside | above
  · simp only [nodes_node, List.mem_cons, List.mem_append] at inside
    rcases inside with rfl | inl | inr
    · have hx : x ∈ nodes (plug fs (.node x l r)) := mem_nodes_plug.mpr (.inl (by simp))
      exact .inr (.inr ⟨x, hx, fun e _ ext => here ▸ ext, n, n', live, live', version⟩)
    · exact .inl (old (.inl inl))
    · exact .inl (old (.inr (.inl inr)))
  · exact .inl (old (.inr (.inr above)))

/-- The prefix `q` was bound to the marked head `h` and is now bound to `rth`. -/
structure Replaced (rtt rtt' : Rtt) (t t' : RtTree) (q : List Bool) (h rth : HeadId) : Prop where
  rep : Represents rtt' t'
  bound : ∀ e, e ∈ entries t' ↔ e = (q, rth) ∨ e ∈ entries t ∧ e ≠ (q, h)
  still : Still rtt rtt'
  tidy : Tidy rtt rtt' t t'

/-- The node of the prefix is there, with a head that is marked. -/
theorem reattach_spec (s : Site rtt rth ap q fs x l r) (here : x.2.stem = q) {h : HeadId}
    (val : x.2.val = some h) {n : RtNode} (live : rtt.nodes x.1 = some n)
    (holds : n.Holds ⟨root l, root r, up fs⟩ x.2) (marked : n.marked = true) :
    ∃ rtt', insertAttach rtt rth x.1 n = .ok (some rth, rtt') ∧
      Replaced rtt rtt' (plug fs (.node x l r)) (plug fs (.node (x.1, ⟨q, some rth⟩) l r)) q h rth := by
  obtain ⟨rtt', n', run, _, _, still, rep', tidy⟩ := attach_rep s here live holds (.inl marked)
  refine ⟨rtt', run, rep', fun e => ?_, still, tidy⟩
  have after : entries (plug fs (.node (x.1, ⟨q, some rth⟩) l r)) = _ := entries_at fs rfl
  have before : entries (plug fs (.node x l r)) = _ := entries_at fs val
  rw [here] at before
  rw [after, ← bound_of_split s.rep.trie before rfl e]
  simp only [List.mem_append, List.mem_cons]
  tauto

/-! ## A new node -/

theorem tidy_of_perm {rtt' : Rtt} {t t' : RtTree} {new : List (Node NodeId HeadId)}
    (perm : (nodes t').Perm (new ++ nodes t))
    (made : ∀ i, rtt.nodes i = none → rtt'.nodes i ≠ none → i ∈ new.map Prod.fst) : Tidy rtt rtt' t t' := by
  have all : (ids t').Perm (new.map Prod.fst ++ ids t) := by
    simpa [ids] using perm.map Prod.fst
  constructor
  · intro i hi
    exact all.mem_iff.mpr (List.mem_append_right _ hi)
  · intro i free live
    exact all.mem_iff.mpr (List.mem_append_left _ (made i free live))

/-- New nodes at free addresses keep the addresses apart. -/
theorem Site.distinct_new (s : Site rtt rth ap q fs x l r) {t' : RtTree}
    {new : List (Node NodeId HeadId)} (perm : (nodes t').Perm (new ++ nodes (.node x l r)))
    (apart : (new.map Prod.fst).Nodup) (fresh : ∀ y ∈ new, rtt.nodes y.1 = none) :
    (ids t' ++ (nodesAbove fs).map Prod.fst).Nodup := by
  have moved : (ids t' ++ (nodesAbove fs).map Prod.fst).Perm
      (new.map Prod.fst ++ (ids (.node x l r) ++ (nodesAbove fs).map Prod.fst)) := by
    simpa [ids] using (perm.map Prod.fst).append_right ((nodesAbove fs).map Prod.fst)
  refine moved.nodup_iff.mpr (List.nodup_append.mpr ⟨apart, nodup_plug.mp s.rep.distinct, ?_⟩)
  intro i hi j hj same
  obtain ⟨y, hy, rfl⟩ := List.mem_map.mp hi
  apply s.rep.fresh (fresh y hy)
  rw [(ids_plug fs _).mem_iff, same]
  exact hj

/-- The table after the node of the head is allocated. -/
def allocated (rtt : Rtt) (rth : HeadId) (bitlen : Nat) (add : NodeId) : Rtt :=
  (rtt.addNode add (.ofBit bitlen (some rth))).writeHead rth fun h => { h with rthRtn := some add }

theorem sameSetup_allocated {bitlen : Nat} {add : NodeId} : SameSetup rtt (allocated rtt rth bitlen add) :=
  (sameSetup_addNode rtt add _).trans (sameSetup_writeHead _ rth _)

theorem addr_allocated {bitlen : Nat} {add : NodeId} (h : HeadId) :
    ((allocated rtt rth bitlen add).heads h).rthAddr = (rtt.heads h).rthAddr := by
  simp only [allocated, heads_writeHead]
  split <;> simp [*]

/-- The new node of a head, without children. -/
def leaf (add : NodeId) (q : List Bool) (rth : HeadId) : RtTree :=
  .node (add, ⟨q, some rth⟩) .nil .nil

theorem entries_leaf (add : NodeId) (e : Entry HeadId) : e ∈ entries (leaf add q rth) ↔ e = (q, rth) := by
  simp [leaf, own]

theorem Site.keeps_allocated (s : Site rtt rth ap q fs x l r) {add : NodeId}
    (fresh : rtt.nodes add = none) {y : Node NodeId HeadId}
    (hy : y ∈ nodes (plug fs (.node x l r))) : Keeps rtt (allocated rtt rth q.length add) y := by
  have ne : y.1 ≠ add := fun same => s.rep.fresh fresh (same ▸ mem_ids hy)
  refine ⟨by simp [allocated, nodes_addNode, ne], fun h hv => ?_⟩
  have other : h ≠ rth := fun same => s.loose y hy (same ▸ hv)
  simp [allocated, heads_writeHead, other]

theorem insertBelow_eq (rth : HeadId) {m : Rtt} {a n : RtNode} {i add : NodeId} {bitlen dbit : Nat} {b : Bool}
    (new : m.nodes add = some a) (live : m.nodes i = some n) (ne : i ≠ add) (longer : dbit < bitlen)
    (side : bitTest (ap (rnByte n.rtnBit)) n.rtnTbit = b)
    (empty : (if b then n.rtnRight else n.rtnLeft) = none) :
    insertBelow m rth ap bitlen dbit i add = .ok (some rth,
      ((m.setNode add { a with rtnParent := some i }).setNode i (n.setSide b (some add))).addRoute) := by
  have still : (m.setNode add { a with rtnParent := some i }).nodes i = some n := by
    rw [nodes_setNode, if_neg ne, live]
  unfold insertBelow
  rw [check_of longer, ok_bind, write_of _ new, ok_bind, node_of still, ok_bind, side]
  cases b with
  | false =>
    have none : n.rtnLeft = none := by simpa using empty
    simp [none, write_of _ still, RtNode.setSide]
  | true =>
    have none : n.rtnRight = none := by simpa using empty
    simp [none, write_of _ still, RtNode.setSide]

/-- The child that a frame leaves open. -/
theorem open_side {n : RtNode} {f : Frame (Node NodeId HeadId)} {p hole : Option NodeId}
    (holds : n.Holds (f.links hole p) f.node.2) : (if f.side then n.rtnRight else n.rtnLeft) = hole := by
  have left := holds.left
  have right := holds.right
  unfold Frame.links at left right
  cases hs : f.side with
  | false => simpa [hs] using left
  | true => simpa [hs] using right

theorem RtNode.Holds.setSide {n : RtNode} {f : Frame (Node NodeId HeadId)} {p hole : Option NodeId}
    (holds : n.Holds (f.links hole p) f.node.2) (new : Option NodeId) :
    (n.setSide f.side new).Holds (f.links new p) f.node.2 := by
  obtain ⟨left, right, parent, bit, tbit, rth⟩ := holds
  unfold Frame.links at left right parent ⊢
  unfold RtNode.setSide
  cases hs : f.side with
  | false =>
    simp only [hs] at left right parent ⊢
    exact ⟨rfl, right, parent, bit, tbit, rth⟩
  | true =>
    simp only [hs] at left right parent ⊢
    exact ⟨left, rfl, parent, bit, tbit, rth⟩

/-- The new node becomes a child of the node of `f`, whose stem the prefix extends. -/
theorem below_spec {f : Frame (Node NodeId HeadId)} (s : Site rtt rth ap q fs f.node l r)
    (hole : f.fill .nil = .node f.node l r) (side : ap.bit f.node.2.stem.length = f.side)
    (stem : f.node.2.stem ++ [f.side] <+: q) {add : NodeId} (fresh : rtt.nodes add = none) :
    ∃ rtt', insertBelow (allocated rtt rth q.length add) rth ap q.length f.node.2.stem.length
        f.node.1 add = .ok (some rth, rtt') ∧
      Inserted rtt rtt' (plug fs (.node f.node l r)) (plug fs (f.fill (leaf add q rth))) q rth := by
  obtain ⟨trie, trieAbove, linked, linkedAbove⟩ := s.parts
  rw [← hole] at linked trie
  obtain ⟨⟨⟨n, live, holds⟩, att⟩, _, other⟩ := linked_fill.mp linked
  have ne : f.node.1 ≠ add := fun same => by simp [← same, live] at fresh
  have longer : f.node.2.stem.length < q.length := by
    have le := stem.length_le
    simp only [List.length_append, List.length_singleton] at le
    omega
  have new : (allocated rtt rth q.length add).nodes add = some (.ofBit q.length (some rth)) := by
    simp [allocated, nodes_addNode]
  have old : (allocated rtt rth q.length add).nodes f.node.1 = some n := by
    simp [allocated, nodes_addNode, ne, live]
  have run := insertBelow_eq rth new old ne longer ((bit_of_holds holds ap).trans side)
    (open_side holds)
  let a : RtNode := { RtNode.ofBit q.length (some rth) with rtnParent := some f.node.1 }
  let rtt' := (((allocated rtt rth q.length add).setNode add a).setNode f.node.1
    (n.setSide f.side (some add))).addRoute
  refine ⟨rtt', run, ?_⟩
  have here : rtt'.nodes f.node.1 = some (n.setSide f.side (some add)) := by
    simp [rtt', nodes_setNode]
  have there : rtt'.nodes add = some a := by simp [rtt', nodes_setNode, ne.symm]
  have head : rtt'.Attached rth add q := by
    refine ⟨?_, ap, ?_, s.key⟩ <;> simp [rtt', allocated, heads_writeHead, s.addr]
  have keeps {y : Node NodeId HeadId} (hy : y ∈ nodes (plug fs (.node f.node l r)))
      (other : y.1 ≠ f.node.1) : ∀ k, rtt.mem y.1 k y.2 → rtt'.mem y.1 k y.2 := by
    have kept := s.keeps_allocated fresh hy
    have new : y.1 ≠ add := fun same => s.rep.fresh fresh (same ▸ mem_ids hy)
    exact fun k => mem_congr ⟨by simp [rtt', nodes_setNode, other, new, kept.1], kept.2⟩
  have heads : ∀ h, f.node.2.val = some h → rtt'.heads h = rtt.heads h :=
    (s.keeps_allocated fresh (mem_nodes_plug.mpr (.inl (by simp)))).2
  have whole := nodes_fill_nil f (leaf add q rth)
  rw [hole] at whole
  have distinct : (ids (plug fs (f.fill .nil))).Nodup := by rw [hole]; exact s.rep.distinct
  apply s.inserted
  · exact s.rep.root.trans (root_plug_congr (by rw [root_fill]; rfl))
  · refine linked_fill.mpr ⟨⟨⟨_, here, holds.setSide _⟩, ?_⟩, ⟨?_, trivial, trivial⟩, ?_⟩
    · intro h hv
      rw [Rtt.Attached, heads h hv]
      exact att h hv
    · refine ⟨⟨a, there, ⟨rfl, rfl, rfl, rfl, rfl, rfl⟩⟩, ?_⟩
      rintro h ⟨⟩
      exact head
    · refine other.mono fun y hy => keeps ?_ (others_apart_fill distinct (.inr (.inl hy)))
      rw [← hole, mem_nodes_plug, (nodes_fill f .nil).mem_iff]
      simp [hy]
  · rw [root_fill]
    refine linkedAbove.mono fun y hy => ?_
    exact keeps (mem_nodes_plug.mpr (.inr hy)) (others_apart s.rep.distinct (.inr (.inr hy)))
  · exact s.distinct_new whole (by simp [leaf]) (by simp [leaf, fresh])
  · obtain ⟨_, above, two, sibling, _⟩ := trie_fill.mp trie
    exact trie_fill.mpr ⟨⟨stem, by simp, trivial, trivial⟩, above, two, sibling, by simp [leaf]⟩
  · intro e
    rw [mem_entries_fill, ← hole, mem_entries_fill, entries_leaf]
    simp
  · intro y hy
    rcases List.mem_cons.mp (whole.mem_iff.mp hy) with rfl | old
    · exact .inr ⟨Nat.le_refl _, .leaf [f] rfl rfl⟩
    · exact .inl old
  · apply tidy_of_perm whole
    intro i free live'
    by_cases here : i = f.node.1
    · rw [here, live] at free
      cases free
    · by_cases mine : i = add
      · simp [leaf, mine]
      · simp [rtt', allocated, nodes_setNode, nodes_addNode, here, mine, free] at live'
  · have linked := sameSetup_allocated.trans (sameSetup_setNode (allocated rtt rth q.length add) add a)
    exact (linked.trans (sameSetup_setNode _ f.node.1 (n.setSide f.side (some add)))).trans (sameSetup_addRoute _)
  · exact addr_allocated
  · rfl

/-! ## A new node above -/

/-- The table after the node `top` has taken the place of `x` below `fs`. -/
def hoisted (m : Rtt) (fs : List (Frame (Node NodeId HeadId))) (n w : RtNode) (x top : NodeId) : Rtt :=
  (((m.setNode x { n with rtnParent := some top }).setNode top
    { w with rtnVersion := n.rtnVersion, rtnParent := up fs }).repoint fs (some top)).addRoute

section

variable {m : Rtt} {n w : RtNode} {i j top : NodeId}

@[simp] theorem heads_hoisted : (hoisted m fs n w i top).heads = m.heads := by
  simp [hoisted]

theorem nodes_hoisted (below : j ≠ i) (other : j ≠ top) (above : up fs ≠ some j) :
    (hoisted m fs n w i top).nodes j = m.nodes j := by
  have same := nodes_repoint ((m.setNode i { n with rtnParent := some top }).setNode top
    { w with rtnVersion := n.rtnVersion, rtnParent := up fs }) (some top) above
  simpa [hoisted, nodes_setNode, below, other] using same

theorem nodes_hoisted_top (above : up fs ≠ some top) :
    (hoisted m fs n w i top).nodes top = some { w with rtnVersion := n.rtnVersion, rtnParent := up fs } := by
  have same := nodes_repoint ((m.setNode i { n with rtnParent := some top }).setNode top
    { w with rtnVersion := n.rtnVersion, rtnParent := up fs }) (some top) above
  simpa [hoisted, nodes_setNode] using same

theorem nodes_hoisted_below (ne : i ≠ top) (above : up fs ≠ some i) :
    (hoisted m fs n w i top).nodes i = some { n with rtnParent := some top } := by
  have same := nodes_repoint ((m.setNode i { n with rtnParent := some top }).setNode top
    { w with rtnVersion := n.rtnVersion, rtnParent := up fs }) (some top) above
  simpa [hoisted, nodes_setNode, ne] using same

theorem sameSetup_hoisted : SameSetup m (hoisted m fs n w i top) :=
  ((sameSetup_setNode m _ _).trans (sameSetup_setNode _ _ _)).trans
    ((sameSetup_repoint fs _).trans (sameSetup_addRoute _))

theorem clhead_hoisted : (hoisted m fs n w i top).rttClhead = m.rttClhead := by
  simp [hoisted, Rtt.addRoute]
  rfl

end

theorem insertAbove_eq (rth : HeadId) {m : Rtt} {n w : RtNode} {i j : NodeId}
    (live : m.nodes i = some n) (new : m.nodes j = some w) (ne : i ≠ j)
    (above : LinkedAbove m.mem (some i) fs) (apart : ∀ y ∈ nodesAbove fs, y.1 ≠ i ∧ y.1 ≠ j) :
    insertAbove m rth i j (up fs) = .ok (some rth, hoisted m fs n w i j) := by
  have node₁ : (m.setNode i { n with rtnParent := some j }).nodes i =
      some { n with rtnParent := some j } := by simp [nodes_setNode]
  have node₂ : (m.setNode i { n with rtnParent := some j }).nodes j = some w := by
    simp [nodes_setNode, ne.symm, new]
  have node₃ : ((m.setNode i { n with rtnParent := some j }).setNode j
      { w with rtnVersion := n.rtnVersion }).nodes j = some { w with rtnVersion := n.rtnVersion } := by
    simp [nodes_setNode]
  have above' : LinkedAbove ((m.setNode i { n with rtnParent := some j }).setNode j
      { w with rtnVersion := n.rtnVersion, rtnParent := up fs }).mem (some i) fs := by
    refine above.mono fun y hy k => mem_congr ⟨?_, fun _ _ => rfl⟩
    simp [nodes_setNode, apart y hy]
  have other : ∀ f ∈ fs, i ∉ ids f.other := by
    intro f hf inside
    obtain ⟨y, hy, same⟩ := List.mem_map.mp inside
    exact (apart y (List.mem_flatMap.mpr ⟨f, hf, by simp [hy]⟩)).1 same
  unfold insertAbove
  rw [write_of _ live, ok_bind, node_of node₁, ok_bind, write_of _ node₂, ok_bind,
    write_of _ node₃, ok_bind, setNode_setNode, replaceChild_eq _ _ above' other]
  rfl

theorem RtNode.Holds.setParent {w : RtNode} {g : Frame (Node NodeId HeadId)} {hole p : Option NodeId}
    (holds : w.Holds (g.links hole p) g.node.2) (p' : Option NodeId) (v : Version) :
    RtNode.Holds { w with rtnVersion := v, rtnParent := p' } (g.links hole p') g.node.2 := by
  obtain ⟨left, right, _, bit, tbit, rth⟩ := holds
  cases g with
  | mk side z other => cases side <;> exact ⟨left, right, rfl, bit, tbit, rth⟩

/-- What the table `m` holds when the node of the frame `g` is about to take the
place of `x`, which goes into the hole of `g`. -/
structure Prepared (rtt m : Rtt) (fs : List (Frame (Node NodeId HeadId))) (x : Node NodeId HeadId)
    (l r : RtTree) (g : Frame (Node NodeId HeadId)) : Prop where
  keeps : ∀ y ∈ nodes (plug fs (.node x l r)), Keeps rtt m y
  holds : ∃ w, m.nodes g.node.1 = some w ∧ w.Holds (g.links (some x.1) w.rtnParent) g.node.2
  attached : ∀ h, g.node.2.val = some h → m.Attached h g.node.1 g.node.2.stem
  other : Linked m.mem (some g.node.1) g.other
  fresh : ∀ y ∈ g.node :: nodes g.other, rtt.nodes y.1 = none
  apart : ((g.node :: nodes g.other).map Prod.fst).Nodup
  only : ∀ i, rtt.nodes i = none → m.nodes i ≠ none → i ∈ (g.node :: nodes g.other).map Prod.fst
  setup : SameSetup rtt m
  root : m.rttRoot = rtt.rttRoot
  addrs : ∀ h, (m.heads h).rthAddr = (rtt.heads h).rthAddr
  clhead : m.rttClhead = rtt.rttClhead

/-- Above `x` there are the node of the frame and, next to `x`, the leaf of the head. -/
theorem Prepared.newNode {m rtt' : Rtt} {g : Frame (Node NodeId HeadId)} {n n' : RtNode}
    (prep : Prepared rtt m fs x l r g) (short : ∀ y ∈ g.node :: nodes g.other, y.2.stem.length ≤ q.length)
    (other : g.other = .nil ∨ ∃ add, g.other = leaf add q rth) (live : m.nodes x.1 = some n)
    (live' : rtt'.nodes g.node.1 = some n') (version : n'.rtnVersion = n.rtnVersion) :
    ∀ y ∈ g.node :: nodes g.other,
      y.2.stem.length ≤ q.length ∧ NewNode rtt rtt' q rth x (g.fill (.node x l r)) y := by
  intro y new
  refine ⟨short y new, ?_⟩
  rcases List.mem_cons.mp new with rfl | beside
  · have hx : x ∈ nodes (plug fs (.node x l r)) := mem_nodes_plug.mpr (.inl (by simp))
    obtain ⟨l', r', top⟩ : ∃ l' r', g.fill (.node x l r) = .node g.node l' r' := by
      cases g with
      | mk side z other => cases side <;> exact ⟨_, _, rfl⟩
    exact .top l' r' n n' top ((prep.keeps x hx).1 ▸ live) live' version
  · obtain ⟨add, single⟩ : ∃ add, g.other = leaf add q rth := by
      rcases other with empty | single
      · rw [empty] at beside
        cases beside
      · exact single
    obtain rfl : y = (add, ⟨q, some rth⟩) := by simpa [single, leaf] using beside
    refine .leaf [⟨!g.side, g.node, .node x l r⟩] ?_ rfl
    cases g with
    | mk side z sibling =>
      obtain rfl : sibling = leaf add q rth := single
      cases side <;> rfl

theorem above_spec (s : Site rtt rth ap q fs x l r) {m : Rtt} {g : Frame (Node NodeId HeadId)}
    (prep : Prepared rtt m fs x l r g) (trie : Trie (stemAbove fs) (g.fill (.node x l r)))
    (bound : ∀ e, e ∈ own g.node ∨ e ∈ entries g.other ↔ e = (q, rth))
    (short : ∀ y ∈ g.node :: nodes g.other, y.2.stem.length ≤ q.length)
    (other : g.other = .nil ∨ ∃ add, g.other = leaf add q rth) :
    ∃ rtt', insertAbove m rth x.1 g.node.1 (up fs) = .ok (some rth, rtt') ∧
      Inserted rtt rtt' (plug fs (.node x l r)) (plug fs (g.fill (.node x l r))) q rth := by
  obtain ⟨_, _, linked, linkedAbove⟩ := s.parts
  obtain ⟨w, new, wholds⟩ := prep.holds
  have inTree {y : Node NodeId HeadId} (hy : y ∈ nodes (plug fs (.node x l r))) : y.1 ≠ g.node.1 :=
    fun same => s.rep.fresh (prep.fresh g.node (by simp)) (same ▸ mem_ids hy)
  have apart {y : Node NodeId HeadId} := others_apart s.rep.distinct (y := y)
  have linked' := linked.mono fun y hy k => mem_congr (prep.keeps y (mem_nodes_plug.mpr (.inl hy)))
  have above' := linkedAbove.mono fun y hy k => mem_congr (prep.keeps y (mem_nodes_plug.mpr (.inr hy)))
  obtain ⟨⟨⟨n, live, holds⟩, att⟩, left, right⟩ := linked'
  have hx : x ∈ nodes (plug fs (.node x l r)) := mem_nodes_plug.mpr (.inl (by simp))
  have clear : ∀ y ∈ nodesAbove fs, y.1 ≠ x.1 ∧ y.1 ≠ g.node.1 := fun y hy =>
    ⟨apart (.inr (.inr hy)), inTree (mem_nodes_plug.mpr (.inr hy))⟩
  have run := insertAbove_eq rth live new (inTree hx) above' clear
  let rtt' := hoisted m fs n w x.1 g.node.1
  refine ⟨rtt', run, ?_⟩
  have upper : up fs ≠ some g.node.1 := by
    intro h
    obtain ⟨y, hy, same⟩ := up_mem h
    exact (clear y hy).2 same
  have heads : rtt'.heads = m.heads := heads_hoisted
  have keeps {y : Node NodeId HeadId} (hx : y.1 ≠ x.1) (hg : y.1 ≠ g.node.1) (hu : up fs ≠ some y.1) :
      ∀ k, m.mem y.1 k y.2 → rtt'.mem y.1 k y.2 :=
    fun k => mem_congr ⟨nodes_hoisted hx hg hu, fun _ _ => by rw [heads]⟩
  have within {y : Node NodeId HeadId} (hy : y ∈ nodes l ∨ y ∈ nodes r) :
      ∀ k, m.mem y.1 k y.2 → rtt'.mem y.1 k y.2 := by
    have inside : y ∈ nodes (.node x l r) := by simp [hy]
    refine keeps (apart ?_) (inTree (mem_nodes_plug.mpr (.inl inside))) (up_apart s.rep.distinct inside)
    exact hy.imp_right .inl
  have beside {y : Node NodeId HeadId} (hy : y ∈ nodes g.other) :
      ∀ k, m.mem y.1 k y.2 → rtt'.mem y.1 k y.2 := by
    have free := prep.fresh y (by simp [hy])
    have outside {z : Node NodeId HeadId} (hz : z ∈ nodes (plug fs (.node x l r))) : z.1 ≠ y.1 :=
      fun same => s.rep.fresh free (same ▸ mem_ids hz)
    refine keeps (outside hx).symm ?_ ?_
    · intro same
      exact (List.nodup_cons.mp prep.apart).1 (same ▸ List.mem_map_of_mem hy)
    · intro h
      obtain ⟨z, hz, same⟩ := up_mem h
      exact outside (mem_nodes_plug.mpr (.inr hz)) same
  have at_g : rtt'.nodes g.node.1 = some { w with rtnVersion := n.rtnVersion, rtnParent := up fs } :=
    nodes_hoisted_top upper
  have at_x : rtt'.nodes x.1 = some { n with rtnParent := some g.node.1 } :=
    nodes_hoisted_below (inTree hx) (up_apart s.rep.distinct (by simp))
  have perm : (nodes (g.fill (.node x l r))).Perm ((g.node :: nodes g.other) ++ nodes (.node x l r)) :=
    (nodes_fill g _).trans List.perm_append_comm
  apply s.inserted
  · have top : ((m.setNode x.1 { n with rtnParent := some g.node.1 }).setNode g.node.1
        { w with rtnVersion := n.rtnVersion, rtnParent := up fs }).rttRoot = root (plug fs (.node x l r)) :=
      prep.root.trans s.rep.root
    simpa [rtt', hoisted] using root_repoint (g.fill (.node x l r)) top
  · refine linked_fill.mpr ⟨⟨⟨_, at_g, wholds.setParent _ _⟩, ?_⟩, ⟨⟨⟨_, at_x, ?_⟩, ?_⟩, ?_, ?_⟩, ?_⟩
    · exact fun h hv => (prep.attached h hv).congr (by rw [heads])
    · exact ⟨holds.left, holds.right, rfl, holds.bit, holds.tbit, holds.rth⟩
    · exact fun h hv => (att h hv).congr (by rw [heads])
    · exact left.mono fun y hy => within (.inl hy)
    · exact right.mono fun y hy => within (.inr hy)
    · exact prep.other.mono fun y hy => beside hy
  · rw [root_fill]
    apply linkedAbove_repoint (some x.1) _ _ (nodup_above s.rep.distinct)
    refine above'.mono fun y hy k => mem_congr ⟨?_, fun _ _ => rfl⟩
    simp [nodes_setNode, clear y hy]
  · exact s.distinct_new perm prep.apart prep.fresh
  · exact trie
  · intro e
    rw [mem_entries_fill, or_comm, bound]
  · intro y hy
    rcases List.mem_append.mp (perm.mem_iff.mp hy) with new | old
    · exact .inr (prep.newNode short other live at_g rfl y new)
    · exact .inl old
  · apply tidy_of_perm perm
    intro i free live'
    by_cases old : m.nodes i = none
    · have there : i ≠ x.1 := by
        rintro rfl
        cases old.symm.trans live
      have here : i ≠ g.node.1 := by
        rintro rfl
        cases old.symm.trans new
      have top : up fs ≠ some i := by
        intro same
        obtain ⟨y, hy, rfl⟩ := up_mem same
        exact s.rep.fresh free (mem_ids (mem_nodes_plug.mpr (.inr hy)))
      exact absurd ((nodes_hoisted there here top).trans old) live'
    · exact prep.only i free old
  · exact prep.setup.trans sameSetup_hoisted
  · intro h
    rw [heads]
    exact prep.addrs h
  · exact clhead_hoisted.trans prep.clhead

end SonicUtils.Radix
