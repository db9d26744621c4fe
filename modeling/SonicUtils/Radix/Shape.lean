import SonicUtils.Radix.Next
import SonicUtils.Radix.Runs

/-!
# The shape of a radix tree

`WellFormed` is about the nodes and pointers of a table and names no trie.

* `represents_wellFormed`: a table that represents a trie is well formed;
* `tree_stays_wellFormed`: so are the tables of all runs, and no assertion fails.
-/

namespace SonicUtils.Radix

open PtrTree BitTrie

/-- `j` is reached from `i` over child pointers. -/
inductive Below (rtt : Rtt) (i : NodeId) : NodeId → Prop
  | self : Below rtt i i
  | left {j k n} : Below rtt i j → rtt.nodes j = some n → n.rtnLeft = some k → Below rtt i k
  | right {j k n} : Below rtt i j → rtt.nodes j = some n → n.rtnRight = some k → Below rtt i k

def InTree (rtt : Rtt) (i : NodeId) : Prop := ∃ r, rtt.rttRoot = some r ∧ Below rtt r i

/-- The key of some head at or below `i`. -/
def KeyBelow (rtt : Rtt) (i : NodeId) (ap : Addr) : Prop :=
  ∃ j n h, Below rtt i j ∧ rtt.nodes j = some n ∧ n.rtnRth = some h ∧
    (rtt.heads h).rdxRthAddr = some ap

/-- A compressed binary trie of the bindings of `m`. -/
structure WellFormed (rtt : Rtt) (m : PrefixMap HeadId) : Prop where
  live : ∀ i, InTree rtt i → rtt.nodes i ≠ none
  root : ∀ i n, rtt.rttRoot = some i → rtt.nodes i = some n → n.rtnParent = none
  child : ∀ i n j, InTree rtt i → rtt.nodes i = some n → n.rtnLeft = some j ∨ n.rtnRight = some j →
    ∃ c, rtt.nodes j = some c ∧ c.rtnParent = some i ∧ n.rtnBit < c.rtnBit
  parent : ∀ i n j, InTree rtt i → rtt.nodes i = some n → n.rtnParent = some j →
    InTree rtt j ∧ ∃ p, rtt.nodes j = some p ∧ (p.rtnLeft = some i ∨ p.rtnRight = some i)
  apart : ∀ i n j, InTree rtt i → rtt.nodes i = some n → n.rtnLeft = some j → n.rtnRight ≠ some j
  bare : ∀ i n, InTree rtt i → rtt.nodes i = some n → n.rtnRth = none →
    n.rtnLeft ≠ none ∧ n.rtnRight ≠ none
  head : ∀ i n h, InTree rtt i → rtt.nodes i = some n → n.rtnRth = some h →
    (rtt.heads h).rthRtn = some i ∧ ∃ k ap, m k = some h ∧ n.rtnBit = k.length ∧
      (rtt.heads h).rdxRthAddr = some ap ∧ ap.bits k.length = k
  agree : ∀ i n a b, InTree rtt i → rtt.nodes i = some n → KeyBelow rtt i a → KeyBelow rtt i b →
    a.bits n.rtnBit = b.bits n.rtnBit
  clear : ∀ i n j a, InTree rtt i → rtt.nodes i = some n → n.rtnLeft = some j → KeyBelow rtt j a →
    a.bit n.rtnBit = false
  set : ∀ i n j a, InTree rtt i → rtt.nodes i = some n → n.rtnRight = some j → KeyBelow rtt j a →
    a.bit n.rtnBit = true

/-! ## Places in the trie -/

variable {rtt : Rtt} {t : RtTree} {m : PrefixMap HeadId} {fs : List (Frame (Node NodeId HeadId))}
  {x : Node NodeId HeadId} {l r : RtTree}

theorem Below.place (linked : Linked rtt.mem none (plug fs (.node x l r))) {j : NodeId}
    (h : Below rtt x.1 j) : ∃ gs z zl zr, plug gs (.node z zl zr) = .node x l r ∧ z.1 = j := by
  induction h with
  | self => exact ⟨[], x, l, r, rfl, rfl⟩
  | left _ live child ih =>
    obtain ⟨gs, z, zl, zr, same, rfl⟩ := ih
    rw [← same, ← plug_append] at linked
    obtain ⟨⟨n, live', holds⟩, _⟩ := holds_at linked
    rw [live'] at live
    cases live
    cases zl with
    | nil =>
      rw [holds.left] at child
      cases child
    | node w wl wr =>
      rw [holds.left] at child
      cases child
      exact ⟨⟨false, z, zr⟩ :: gs, w, wl, wr, same, rfl⟩
  | right _ live child ih =>
    obtain ⟨gs, z, zl, zr, same, rfl⟩ := ih
    rw [← same, ← plug_append] at linked
    obtain ⟨⟨n, live', holds⟩, _⟩ := holds_at linked
    rw [live'] at live
    cases live
    cases zr with
    | nil =>
      rw [holds.right] at child
      cases child
    | node w wl wr =>
      rw [holds.right] at child
      cases child
      exact ⟨⟨true, z, zl⟩ :: gs, w, wl, wr, same, rfl⟩

theorem InTree.place (rep : Represents rtt t) {i : NodeId} (h : InTree rtt i) :
    ∃ fs x l r, plug fs (.node x l r) = t ∧ x.1 = i := by
  obtain ⟨top, root, below⟩ := h
  cases t with
  | nil =>
    rw [rep.root] at root
    cases root
  | node x l r =>
    rw [rep.root_node] at root
    cases root
    have top : Linked rtt.mem none (plug [] (.node x l r)) := rep.linked
    exact below.place top

theorem inTree_of_place (root : rtt.rttRoot = PtrTree.root (plug fs (.node x l r)))
    (linked : Linked rtt.mem none (plug fs (.node x l r))) : InTree rtt x.1 := by
  induction fs generalizing x l r with
  | nil => exact ⟨x.1, root, .self⟩
  | cons f fs ih =>
    obtain ⟨n, live, holds⟩ := holds_above linked
    cases f with
    | mk side z other =>
      cases side with
      | false =>
        obtain ⟨top, root, below⟩ := ih root linked
        exact ⟨top, root, below.left live holds.left⟩
      | true =>
        obtain ⟨top, root, below⟩ := ih root linked
        exact ⟨top, root, below.right live holds.right⟩

/-- A key at or below a node starts with its stem. -/
theorem KeyBelow.stem (rep : Represents rtt (plug fs (.node x l r))) {ap : Addr}
    (h : KeyBelow rtt x.1 ap) : ap.bits x.2.stem.length = x.2.stem := by
  obtain ⟨j, n, h, below, live, head, addr⟩ := h
  obtain ⟨gs, z, zl, zr, same, rfl⟩ := below.place rep.linked
  have linked := rep.linked
  rw [← same, ← plug_append] at linked
  obtain ⟨⟨n', live', holds⟩, att⟩ := holds_at linked
  rw [live'] at live
  cases live
  obtain ⟨_, ap', addr', key⟩ := att h (holds.rth.symm.trans head)
  rw [addr'] at addr
  cases addr
  have hz : z ∈ nodes (.node x l r) := by
    rw [← same]
    exact mem_nodes_plug.mpr (.inl (by simp))
  have stem := (trie_plug.mp rep.trie).1.root_extends hz
  exact (covers_iff ap _).mp (((covers_iff ap _).mpr key).shorten stem)

/-- The node at a place of the trie. -/
theorem node_at (rep : Represents rtt (plug fs (.node x l r))) {n : RtNode}
    (live : rtt.nodes x.1 = some n) : n.Holds ⟨root l, root r, up fs⟩ x.2 := by
  obtain ⟨⟨n', live', holds⟩, _⟩ := holds_at rep.linked
  rw [live'] at live
  cases live
  exact holds

/-- The keys below a child have the bit that their way took. -/
theorem KeyBelow.side {f : Frame (Node NodeId HeadId)} (rep : Represents rtt (plug (f :: fs) (.node x l r)))
    {ap : Addr} (h : KeyBelow rtt x.1 ap) : ap.bit f.node.2.stem.length = f.side := by
  have stem := h.stem rep
  have step : f.node.2.stem ++ [f.side] <+: x.2.stem := (trie_plug.mp rep.trie).1.1
  exact ((covers_iff ap _).mpr stem).next_bit step

/-- **Trees are well formed.** -/
theorem represents_wellFormed (rep : Represents rtt t) (stored : m.StoredIn t) : WellFormed rtt m where
  live i inside := by
    obtain ⟨fs, x, l, r, rfl, rfl⟩ := inside.place rep
    obtain ⟨⟨n, live, _⟩, _⟩ := holds_at rep.linked
    simp [live]
  root i n top live := by
    cases t with
    | nil =>
      rw [rep.root] at top
      cases top
    | node x l r =>
      rw [rep.root_node] at top
      cases top
      have top : Represents rtt (plug [] (.node x l r)) := rep
      exact (node_at top live).parent
  child i n j inside live child := by
    obtain ⟨fs, x, l, r, rfl, rfl⟩ := inside.place rep
    have holds := node_at rep live
    have step {f : Frame (Node NodeId HeadId)} {w : Node NodeId HeadId} {wl wr : RtTree}
        (rep' : Represents rtt (plug (f :: fs) (.node w wl wr))) (same : f.node = x) :
        ∃ c, rtt.nodes w.1 = some c ∧ c.rtnParent = some x.1 ∧ n.rtnBit < c.rtnBit := by
      obtain ⟨⟨c, live', holds'⟩, _⟩ := holds_at rep'.linked
      have longer : f.node.2.stem ++ [f.side] <+: w.2.stem := (trie_plug.mp rep'.trie).1.1
      have grows := longer.length_le
      simp only [List.length_append, List.length_singleton] at grows
      refine ⟨c, live', same ▸ holds'.parent, ?_⟩
      rw [holds.bit, holds'.bit, ← same]
      omega
    rcases child with left | right
    · cases l with
      | nil =>
        rw [holds.left] at left
        cases left
      | node w wl wr =>
        rw [holds.left] at left
        cases left
        exact step (f := ⟨false, x, r⟩) rep rfl
    · cases r with
      | nil =>
        rw [holds.right] at right
        cases right
      | node w wl wr =>
        rw [holds.right] at right
        cases right
        exact step (f := ⟨true, x, l⟩) rep rfl
  parent i n j inside live above := by
    obtain ⟨fs, x, l, r, rfl, rfl⟩ := inside.place rep
    have holds := node_at rep live
    rw [holds.parent] at above
    cases fs with
    | nil => cases above
    | cons f fs =>
      cases above
      obtain ⟨p, plive, pholds⟩ := holds_above rep.linked
      cases f with
      | mk side z other =>
        cases side with
        | false => exact ⟨inTree_of_place rep.root rep.linked, p, plive, .inl pholds.left⟩
        | true => exact ⟨inTree_of_place rep.root rep.linked, p, plive, .inr pholds.right⟩
  apart i n j inside live left right := by
    obtain ⟨fs, x, l, r, rfl, rfl⟩ := inside.place rep
    have holds := node_at rep live
    rw [holds.left] at left
    rw [holds.right] at right
    have distinct := (List.nodup_append.mp (nodup_plug.mp rep.distinct)).1
    simp only [ids, nodes_node, List.map_cons, List.map_append, List.nodup_cons,
      List.nodup_append] at distinct
    exact distinct.2.2.2 j (root_mem_ids left) j (root_mem_ids right) rfl
  bare i n inside live none := by
    obtain ⟨fs, x, l, r, rfl, rfl⟩ := inside.place rep
    have holds := node_at rep live
    obtain ⟨⟨_, two, _⟩, _⟩ := trie_plug.mp rep.trie
    obtain ⟨left, right⟩ := two (holds.rth ▸ none)
    rw [holds.left, holds.right]
    exact ⟨mt root_eq_none.mp left, mt root_eq_none.mp right⟩
  head i n h inside live head := by
    obtain ⟨fs, x, l, r, rfl, rfl⟩ := inside.place rep
    have holds := node_at rep live
    have val := holds.rth.symm.trans head
    obtain ⟨back, ap, addr, key⟩ := (holds_at rep.linked).2 h val
    refine ⟨back, x.2.stem, ap, (stored _ _).mpr ?_, holds.bit, addr, key⟩
    exact mem_entries.mpr ⟨x, mem_nodes_plug.mpr (.inl (by simp)), mem_own.mpr ⟨val, rfl⟩⟩
  agree i n a b inside live ha hb := by
    obtain ⟨fs, x, l, r, rfl, rfl⟩ := inside.place rep
    have holds := node_at rep live
    rw [holds.bit]
    exact (ha.stem rep).trans (hb.stem rep).symm
  clear i n j a inside live left ha := by
    obtain ⟨fs, x, l, r, rfl, rfl⟩ := inside.place rep
    have holds := node_at rep live
    rw [holds.left] at left
    cases l with
    | nil => cases left
    | node w wl wr =>
      cases left
      rw [holds.bit]
      have place : Represents rtt (plug (⟨false, x, r⟩ :: fs) (.node w wl wr)) := rep
      exact ha.side place
  set i n j a inside live right ha := by
    obtain ⟨fs, x, l, r, rfl, rfl⟩ := inside.place rep
    have holds := node_at rep live
    rw [holds.right] at right
    cases r with
    | nil => cases right
    | node w wl wr =>
      cases right
      rw [holds.bit]
      have place : Represents rtt (plug (⟨true, x, l⟩ :: fs) (.node w wl wr)) := rep
      exact ha.side place

/-- **The invariant of radix trees.** The tables of all runs are well formed, and
insertions, removals and walks to the next head come to their end: no assertion
fails, no pointer is followed that is NULL or freed, and no loop goes on. -/
theorem tree_stays_wellFormed (h : Reachable rtt m) :
    WellFormed rtt m ∧
    (∀ rth ap bitlen mem, m.Unused rth → (rtt.heads rth).rthAddr = some ap →
      bitlen ≤ rtt.rttMaxaddrlen → mem.Succeed rtt →
      ∃ res rtt', stdRadixInsert rtt rth bitlen mem = .ok (some res, rtt')) ∧
    (∀ rth k, m k = some rth → ∃ rtt', stdRadixRemove rtt rth = .ok rtt') ∧
    (∀ dest bitlen, bitlen ≤ rtt.rttMaxaddrlen →
      ∃ found, stdRadixGetnext rtt dest bitlen = .ok (found, rtt)) := by
  obtain ⟨settled, t, rep, stored⟩ := h.stores
  refine ⟨represents_wellFormed rep stored, ?_, ?_, ?_⟩
  · intro rth ap bitlen mem unused addr valid alloc
    obtain ⟨rtt', run, _⟩ := h.stores.insert unused addr valid alloc
    exact ⟨_, rtt', run⟩
  · intro rth k bound
    obtain ⟨rtt', run, _⟩ := h.stores.remove bound
    exact ⟨rtt', run⟩
  · intro dest bitlen valid
    cases dest with
    | some ap =>
      obtain ⟨found, run, _⟩ := getnext_spec rep stored settled.ready settled.convert ap valid
      exact ⟨found, run⟩
    | none => exact ⟨_, getnext_first rep settled.ready valid⟩

theorem tree_stays_wellFormed_ten :
    WellFormed tenTable tenMap ∧ ∃ rtt', stdRadixRemove tenTable 0 = .ok rtt' :=
  have spec := tree_stays_wellFormed reachable_ten
  ⟨spec.1, spec.2.2.1 0 (ten.bits 8) rfl⟩

end SonicUtils.Radix
