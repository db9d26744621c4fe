import SonicUtils.Radix.Attach
import SonicUtils.Radix.Footprint
import SonicUtils.Radix.Search

/-!
# Insertion

`insert_spec`: `std_radix_insert` binds the prefix to the head if the prefix is
free, and else returns the head that it is bound to.
-/

namespace SonicUtils.Radix

open PtrTree BitTrie LinkedList

variable {rtt : Rtt} {rth : HeadId} {ap his : Addr} {bitlen d : Nat}
  {fs : List (Frame (Node NodeId HeadId))} {x : Node NodeId HeadId} {l r : RtTree}

/-! ## The place for a prefix -/

/-- Where the two loops of `std_radix_insert` lead: `x` below `fs`, on the way
to a node with a key `his` that parts from `ap` at `d`. -/
structure Found (ap his : Addr) (bitlen d : Nat) (fs : List (Frame (Node NodeId HeadId)))
    (x : Node NodeId HeadId) (l r : RtTree) : Prop where
  covers : Covers x.2.stem his.bit
  short : d ≤ bitlen
  long : d ≤ x.2.stem.length
  agree : ap.bits d = his.bits d
  differ : d < bitlen → d < x.2.stem.length → ap.bit d ≠ his.bit d
  above : stemAbove fs <+: ap.bits d
  room : d = x.2.stem.length → d < bitlen → (if ap.bit d then r else l) = .nil

theorem Found.prefix_stem (f : Found ap his bitlen d fs x l r) : ap.bits d <+: x.2.stem :=
  f.agree ▸ bits_prefix_of_covers f.covers f.long

/-- The two loops lead to the place for the prefix: down to `y`, and up again to
the first node above which the stems are shorter than `d`. -/
theorem found_of_search {gs : List (Frame (Node NodeId HeadId))} {y : Node NodeId HeadId}
    {yl yr : RtTree} (trie : Trie [] (plug fs (.node x l r)))
    (place : plug gs (.node y yl yr) = .node x l r) (follows : Follows ap.bit (gs ++ fs))
    (stopped : bitlen ≤ y.2.stem.length ∨ (if ap.bit y.2.stem.length then yr else yl) = .nil)
    (passed : ∀ g ∈ gs, d ≤ g.node.2.stem.length) (stop : ∀ f ∈ fs.head?, f.node.2.stem.length < d)
    (key : Covers y.2.stem his.bit) (short : d ≤ bitlen) (long : d ≤ y.2.stem.length)
    (agree : ∀ i < d, ap.bit i = his.bit i)
    (differ : d < bitlen → d < y.2.stem.length → ap.bit d ≠ his.bit d) :
    Found ap his bitlen d fs x l r := by
  obtain ⟨below, above, _⟩ := trie_plug.mp trie
  have same : ap.bits d = his.bits d := (bits_eq_iff ap his d).mpr agree
  have hy : y ∈ nodes (.node x l r) := by
    rw [← place]
    exact mem_nodes_plug.mpr (.inl (by simp))
  have stem : x.2.stem <+: y.2.stem := below.root_extends hy
  have covers := key.shorten stem
  refine ⟨covers, short, ?_, same, ?_, ?_, ?_⟩
  · rcases climb_top place with ⟨_, start⟩ | ⟨g, hg, rfl, _⟩
    · obtain ⟨rfl, rfl, rfl⟩ := BinaryTree.node.inj start
      exact long
    · exact passed g hg
  · intro inside room
    exact differ inside (room.trans_le stem.length_le)
  · rw [same, bits_prefix_iff]
    have up : stemAbove fs <+: x.2.stem := below.1
    refine ⟨?_, covers.shorten up⟩
    cases fs with
    | nil => simp [stemAbove]
    | cons f fs =>
      have lt := stop f (by simp)
      simp only [stemAbove, List.length_append, List.length_singleton]
      omega
  · intro top inside
    rcases climb_top place with ⟨rfl, start⟩ | ⟨g, hg, rfl, under⟩
    · obtain ⟨rfl, rfl, rfl⟩ := BinaryTree.node.inj start
      rw [top]
      exact stopped.resolve_left (by omega)
    · exfalso
      obtain ⟨_, _, left, right⟩ := below
      have next : g.node.2.stem ++ [g.side] <+: y.2.stem := by
        have hy := under y (by simp)
        cases hs : g.side with
        | false => exact left.stem_extends (by simpa [hs] using hy)
        | true => exact right.stem_extends (by simpa [hs] using hy)
      have longer := next.length_le
      simp only [List.length_append, List.length_singleton] at longer
      apply differ inside (by omega)
      rw [top, key.next_bit next, follows g (by simp [hg])]

/-! ## The four places -/

/-- What an insertion of `rth` for the prefix `q` gives: the head that `q` is
bound to, with nothing changed, or `rth`, with `q` bound to it. -/
inductive Outcome (rtt : Rtt) (t : RtTree) (q : List Bool) (rth : HeadId) : HeadId × Rtt → Prop
  | present (h : HeadId) : (q, h) ∈ entries t → rtt.pending h = false → Outcome rtt t q rth (h, rtt)
  | added (t' : RtTree) (rtt' : Rtt) : Inserted rtt rtt' t t' q rth → Outcome rtt t q rth (rth, rtt')
  | replaced (h : HeadId) (t' : RtTree) (rtt' : Rtt) : (q, h) ∈ entries t → rtt.pending h = true →
      Replaced rtt rtt' t t' q h rth → Outcome rtt t q rth (rth, rtt')

theorem insertAt_here (s : Site rtt rth ap (ap.bits bitlen) fs x l r) (here : x.2.stem = ap.bits bitlen)
    (add new : Option NodeId) :
    ∃ res rtt', insertAt rtt rth ap his bitlen bitlen x.1 (up fs) add new = .ok (some res, rtt') ∧
      Outcome rtt (plug fs (.node x l r)) (ap.bits bitlen) rth (res, rtt') := by
  obtain ⟨⟨n, live, holds⟩, att⟩ := holds_at s.rep.linked
  have bit : n.rtnBit = bitlen := by rw [holds.bit, here, length_bits]
  have attach : insertAt rtt rth ap his bitlen bitlen x.1 (up fs) add new =
      insertAttach rtt rth x.1 n := by
    simp [insertAt, node_of live, bit]
  rw [attach]
  cases val : x.2.val with
  | none =>
    obtain ⟨rtt', run, inserted⟩ := attach_spec s here val live holds
    exact ⟨rth, rtt', run, .added _ _ inserted⟩
  | some h =>
    have bound : (ap.bits bitlen, h) ∈ entries (plug fs (.node x l r)) :=
      mem_entries.mpr ⟨x, mem_nodes_plug.mpr (.inl (by simp)), mem_own.mpr ⟨val, here⟩⟩
    have mark := pending_of (att h val).1 live
    cases marked : n.marked with
    | false =>
      refine ⟨h, rtt, ?_, .present h bound (mark.trans marked)⟩
      simp [insertAttach, marked, holds.rth, val]
    | true =>
      obtain ⟨rtt', run, replaced⟩ := reattach_spec s here val live holds marked
      exact ⟨rth, rtt', run, .replaced h _ rtt' bound (mark.trans marked) replaced⟩

theorem insertAt_below (s : Site rtt rth ap (ap.bits bitlen) fs x l r)
    (found : Found ap his bitlen d fs x l r) (end_ : x.2.stem.length = d) (more : d < bitlen)
    {add : NodeId} (fresh : rtt.nodes add = none) (new : Option NodeId) :
    ∃ rtt', insertAt rtt rth ap his bitlen d x.1 (up fs) (some add) new = .ok (some rth, rtt') ∧
      ∃ t', Inserted rtt rtt' (plug fs (.node x l r)) t' (ap.bits bitlen) rth := by
  obtain ⟨⟨n, live, holds⟩, _⟩ := holds_at s.rep.linked
  have ne : x.1 ≠ add := fun same => by simp [← same, live] at fresh
  have stem : ap.bits d = x.2.stem := found.prefix_stem.eq_of_length (by rw [length_bits, end_])
  let f : Frame (Node NodeId HeadId) := ⟨ap.bit d, x, if ap.bit d then l else r⟩
  have hole : f.fill .nil = .node x l r := by
    have empty := found.room end_.symm more
    cases hb : ap.bit d with
    | false => simp_all [f, Frame.fill]
    | true => simp_all [f, Frame.fill]
  have next : f.node.2.stem ++ [f.side] <+: ap.bits bitlen := by
    show x.2.stem ++ [ap.bit d] <+: _
    rw [← stem, ← bits_succ]
    exact bits_prefix_bits ap more
  have site : Site rtt rth ap (ap.bits bitlen) fs f.node l r := s
  obtain ⟨rtt', run, inserted⟩ := below_spec site hole (by rw [end_]) next fresh
  refine ⟨rtt', ?_, _, inserted⟩
  have bit : n.rtnBit = d := holds.bit.trans end_
  have branch : insertAt rtt rth ap his bitlen d x.1 (up fs) (some add) new =
      insertBelow (allocated rtt rth bitlen add) rth ap bitlen d x.1 add := by
    simp [insertAt, node_of live, bit, more.ne, allocated]
  rw [branch, ← run, length_bits]
  show _ = insertBelow _ _ _ _ x.2.stem.length _ _
  rw [end_]

/-- The new node, with the root of the subtree beside the hole and `p` as its
children. -/
def newNode (g : Frame (Node NodeId HeadId)) (bitlen : Nat) (rth : Option HeadId)
    (p : Option NodeId) : RtNode :=
  ((RtNode.ofBit bitlen rth).setSide (!g.side) (root g.other)).setSide g.side p

theorem newNode_holds (g : Frame (Node NodeId HeadId)) (bit : g.node.2.stem.length = d)
    {v : Option HeadId} (val : v = g.node.2.val) (p : Option NodeId) :
    (newNode g d v p).Holds (g.links p (newNode g d v p).rtnParent) g.node.2 := by
  subst bit val
  cases g with
  | mk side z other => cases side <;> exact ⟨rfl, rfl, rfl, rfl, rfl, rfl⟩

theorem insertAt_above (s : Site rtt rth ap (ap.bits bitlen) fs x l r)
    (found : Found ap his bitlen bitlen fs x l r) (more : bitlen < x.2.stem.length)
    {add : NodeId} (fresh : rtt.nodes add = none) (spare : Option NodeId) :
    ∃ rtt', insertAt rtt rth ap his bitlen bitlen x.1 (up fs) (some add) spare = .ok (some rth, rtt') ∧
      ∃ t', Inserted rtt rtt' (plug fs (.node x l r)) t' (ap.bits bitlen) rth := by
  obtain ⟨⟨n, live, holds⟩, _⟩ := holds_at s.rep.linked
  let side := his.bit bitlen
  let g : Frame (Node NodeId HeadId) := ⟨side, (add, ⟨ap.bits bitlen, some rth⟩), .nil⟩
  let a : RtNode := newNode g bitlen (some rth) (some x.1)
  let m := (allocated rtt rth bitlen add).setNode add a
  have keeps : ∀ y ∈ nodes (plug fs (.node x l r)), Keeps rtt m y := by
    intro y hy
    have kept := s.keeps_allocated fresh hy
    have ne : y.1 ≠ add := fun same => s.rep.fresh fresh (same ▸ mem_ids hy)
    rw [length_bits] at kept
    exact ⟨by simp [m, nodes_setNode, ne, kept.1], kept.2⟩
  have head : m.Attached rth add (ap.bits bitlen) := by
    refine ⟨?_, ap, ?_, by rw [length_bits]⟩ <;> simp [m, allocated, heads_writeHead, s.addr]
  have prep : Prepared rtt m fs x l r g := by
    refine ⟨keeps, ⟨a, by simp [m, g, nodes_setNode], ?_⟩, ?_, trivial, ?_, ?_, ?_, ?_, rfl, ?_, rfl⟩
    · exact newNode_holds g (length_bits ap _) rfl (some x.1)
    · rintro h ⟨⟩
      exact head
    · simp [g, fresh]
    · simp [g]
    · intro i free live'
      by_cases mine : i = add
      · simp [g, mine]
      · simp [m, allocated, nodes_setNode, nodes_addNode, mine, free] at live'
    · exact sameSetup_allocated.trans (sameSetup_setNode _ _ _)
    · exact addr_allocated
  have trie : Trie (stemAbove fs) (g.fill (.node x l r)) := by
    obtain ⟨below, _⟩ := s.parts
    refine trie_fill.mpr ⟨⟨?_, below.2⟩, s.above, by simp [g], trivial, by simp⟩
    show ap.bits bitlen ++ [his.bit bitlen] <+: x.2.stem
    rw [found.agree, ← bits_succ]
    exact bits_prefix_of_covers found.covers more
  obtain ⟨rtt', run, inserted⟩ := above_spec s prep trie (fun e => by simp [g, own]) (by simp [g])
    (.inl rfl)
  refine ⟨rtt', ?_, _, inserted⟩
  have bit : n.rtnBit ≠ bitlen := fun same => more.ne' (holds.bit ▸ same)
  have new : (allocated rtt rth bitlen add).nodes add = some (.ofBit bitlen (some rth)) := by
    simp [allocated, nodes_addNode]
  have branch : insertAt rtt rth ap his bitlen bitlen x.1 (up fs) (some add) spare =
      insertAbove m rth x.1 add (up fs) := by
    unfold insertAt
    rw [node_of live, ok_bind, if_neg (by simp [bit])]
    show (if n.rtnBit = bitlen then _ else if bitlen = bitlen then _ else _) = _
    rw [if_neg bit, if_pos rfl]
    show (if his.bit bitlen then
      (allocated rtt rth bitlen add).write add _ >>= fun m => insertAbove m rth x.1 add (up fs)
      else (allocated rtt rth bitlen add).write add _ >>= fun m => insertAbove m rth x.1 add (up fs)) = _
    rw [write_of _ new, write_of _ new]
    cases hb : his.bit bitlen <;>
      simp [m, a, g, side, hb, newNode, RtNode.setSide, RtNode.ofBit, RtNode.zero]
  rw [branch, run]

theorem insertAt_split (s : Site rtt rth ap (ap.bits bitlen) fs x l r)
    (found : Found ap his bitlen d fs x l r) (inside : d < bitlen) (more : d < x.2.stem.length)
    {add new : NodeId} (fresh : rtt.nodes add = none) (fresh' : rtt.nodes new = none) (ne : add ≠ new) :
    ∃ rtt', insertAt rtt rth ap his bitlen d x.1 (up fs) (some add) (some new) = .ok (some rth, rtt') ∧
      ∃ t', Inserted rtt rtt' (plug fs (.node x l r)) t' (ap.bits bitlen) rth := by
  obtain ⟨⟨n, live, holds⟩, _⟩ := holds_at s.rep.linked
  have parts : ap.bit d = !his.bit d := Bool.eq_not_of_ne (found.differ inside more)
  let side := his.bit d
  let g : Frame (Node NodeId HeadId) := ⟨side, (new, ⟨ap.bits d, none⟩), leaf add (ap.bits bitlen) rth⟩
  let w := newNode g d none (some x.1)
  let a : RtNode := { RtNode.ofBit bitlen (some rth) with rtnParent := some new }
  let m₁ := (allocated rtt rth bitlen add).addNode new (.ofBit d none)
  let m := (m₁.setNode add a).setNode new w
  have keeps : ∀ y ∈ nodes (plug fs (.node x l r)), Keeps rtt m y := by
    intro y hy
    have kept := s.keeps_allocated fresh hy
    rw [length_bits] at kept
    have ne₁ : y.1 ≠ add := fun same => s.rep.fresh fresh (same ▸ mem_ids hy)
    have ne₂ : y.1 ≠ new := fun same => s.rep.fresh fresh' (same ▸ mem_ids hy)
    exact ⟨by simp [m, m₁, nodes_setNode, nodes_addNode, ne₁, ne₂, kept.1], kept.2⟩
  have head : m.Attached rth add (ap.bits bitlen) := by
    refine ⟨?_, ap, ?_, by rw [length_bits]⟩ <;> simp [m, m₁, allocated, heads_writeHead, s.addr]
  have prep : Prepared rtt m fs x l r g := by
    refine ⟨keeps, ⟨w, by simp [m, g, nodes_setNode], ?_⟩, ?_, ⟨⟨⟨a, ?_, ?_⟩, ?_⟩, trivial, trivial⟩,
      ?_, ?_, ?_, ?_, rfl, ?_, rfl⟩
    · exact newNode_holds g (length_bits ap _) rfl (some x.1)
    · simp [g]
    · simp [m, nodes_setNode, ne]
    · exact ⟨rfl, rfl, rfl, (length_bits ap bitlen).symm, by rw [length_bits]; rfl, rfl⟩
    · rintro h ⟨⟩
      exact head
    · simp [g, leaf, fresh, fresh']
    · simp [g, leaf, ne.symm]
    · intro i free live'
      by_cases mine : i = add
      · simp [g, leaf, mine]
      · by_cases top : i = new
        · simp [g, top]
        · simp [m, m₁, allocated, nodes_setNode, nodes_addNode, mine, top, free] at live'
    · have linked := (sameSetup_setNode m₁ add a).trans (sameSetup_setNode _ new w)
      exact (sameSetup_allocated.trans (sameSetup_addNode _ new _)).trans linked
    · exact addr_allocated
  have trie : Trie (stemAbove fs) (g.fill (.node x l r)) := by
    obtain ⟨below, _⟩ := s.parts
    refine trie_fill.mpr ⟨⟨?_, below.2⟩, found.above, by simp [g, leaf], ⟨?_, by simp, trivial, trivial⟩,
      by simp⟩
    · show ap.bits d ++ [his.bit d] <+: x.2.stem
      rw [found.agree, ← bits_succ]
      exact bits_prefix_of_covers found.covers more
    · show ap.bits d ++ [!his.bit d] <+: ap.bits bitlen
      rw [← parts, ← bits_succ]
      exact bits_prefix_bits ap inside
  obtain ⟨rtt', run, inserted⟩ := above_spec s prep trie (fun e => by simp [g, own, entries_leaf])
    (by simp [g, leaf, inside.le]) (.inr ⟨add, rfl⟩)
  refine ⟨rtt', ?_, _, inserted⟩
  have bit : n.rtnBit ≠ d := fun same => more.ne' (holds.bit ▸ same)
  have at_add : m₁.nodes add = some (.ofBit bitlen (some rth)) := by
    simp [m₁, allocated, nodes_addNode, ne]
  have at_new : (m₁.setNode add a).nodes new = some (.ofBit d none) := by
    simp [m₁, nodes_setNode, nodes_addNode, ne.symm]
  have branch : insertAt rtt rth ap his bitlen d x.1 (up fs) (some add) (some new) =
      insertAbove m rth x.1 new (up fs) := by
    unfold insertAt
    rw [node_of live, ok_bind, if_neg (by simp [inside.ne])]
    show (if n.rtnBit = d then _ else if d = bitlen then _ else _) = _
    rw [if_neg bit, if_neg inside.ne]
    show (m₁.write add _ >>= fun m => if ap.bit d then
      m.write new _ >>= fun m => insertAbove m rth x.1 new (up fs)
      else m.write new _ >>= fun m => insertAbove m rth x.1 new (up fs)) = _
    rw [write_of _ at_add, ok_bind, write_of _ at_new, write_of _ at_new, parts]
    cases hb : his.bit d <;>
      simp [m, w, a, g, side, hb, newNode, leaf, RtNode.setSide]
  rw [branch, run]

/-- Memory for the nodes that an insertion may need. -/
structure Fresh (rtt : Rtt) (add new : NodeId) : Prop where
  freeAdd : rtt.nodes add = none
  freeNew : rtt.nodes new = none
  apart : add ≠ new

theorem insertAt_spec (s : Site rtt rth ap (ap.bits bitlen) fs x l r)
    (found : Found ap his bitlen d fs x l r) {add new : NodeId} (fresh : Fresh rtt add new) :
    ∃ res rtt', insertAt rtt rth ap his bitlen d x.1 (up fs) (some add) (some new) =
        .ok (some res, rtt') ∧
      Outcome rtt (plug fs (.node x l r)) (ap.bits bitlen) rth (res, rtt') := by
  rcases found.short.eq_or_lt with rfl | inside
  · rcases found.long.eq_or_lt with here | more
    · have stem := found.prefix_stem.eq_of_length (by rw [length_bits, here])
      exact insertAt_here s stem.symm _ _
    · obtain ⟨rtt', run, t', inserted⟩ := insertAt_above s found more fresh.freeAdd _
      exact ⟨rth, rtt', run, .added t' rtt' inserted⟩
  · rcases found.long.eq_or_lt with here | more
    · obtain ⟨rtt', run, t', inserted⟩ := insertAt_below s found here.symm inside fresh.freeAdd _
      exact ⟨rth, rtt', run, .added t' rtt' inserted⟩
    · obtain ⟨rtt', run, t', inserted⟩ :=
        insertAt_split s found inside more fresh.freeAdd fresh.freeNew fresh.apart
      exact ⟨rth, rtt', run, .added t' rtt' inserted⟩

/-! ## The whole insertion -/

/-- The search and the climb find the place for the prefix. -/
theorem insertInto_site (rep : Represents rtt (.node x l r)) (ready : Ready rtt)
    (loose : Loose rth (.node x l r)) (addr : (rtt.heads rth).rdxRthAddr = some ap)
    (valid : bitlen ≤ rtt.rttMaxaddrlen) :
    ∃ fs x' l' r' his d, plug fs (.node x' l' r') = .node x l r ∧
      Site rtt rth ap (ap.bits bitlen) fs x' l' r' ∧ Found ap his bitlen d fs x' l' r' ∧
      ∀ add new, insertInto rtt rth ap bitlen x.1 add new = insertAt rtt rth ap his bitlen d x'.1 (up fs) add new := by
  obtain ⟨fs, y, yl, yr, n, h, his, d, run, live, holds, val, headAddr, diff, search⟩ :=
    search_spec ap rep ready valid
  have whole := search.same
  have deep := rep.depth ready
  let dbit := if d > min n.rtnBit bitlen then min n.rtnBit bitlen else d
  have at_dbit : dbit = min d (min n.rtnBit bitlen) := by
    simp only [dbit]
    split <;> omega
  have short := length_add_height fs (.node y yl yr)
  rw [whole] at short
  obtain ⟨gs, fs', x', l', r', rfl, place, climb, passed, stop⟩ :=
    climbWhile_spec (fun p => p.rtnBit ≥ dbit) (fun lab => lab.stem.length ≥ dbit)
      (fun n k lab h => by simp [h.bit]) Rtt.pathFuel fs y yl yr (whole ▸ rep.linked) (by omega)
  have same : plug fs' (.node x' l' r') = .node x l r := by
    rw [← place, ← plug_append, whole]
  have bit := holds.bit
  simp only [decide_eq_true_eq, decide_eq_false_iff_not, not_le] at passed stop
  have found : Found ap his bitlen dbit fs' x' l' r' := by
    apply found_of_search (same ▸ rep.trie) place search.follows search.stopped passed stop search.key
    · omega
    · omega
    · intro i hi
      exact search.agree i (by omega)
    · intro inside more
      have now : dbit = d := by omega
      rw [now]
      exact search.differ (by omega)
  have site : Site rtt rth ap (ap.bits bitlen) fs' x' l' r' := by
    refine ⟨same ▸ rep, same ▸ loose, addr, by rw [length_bits], ?_, ?_⟩
    · rwa [length_bits]
    · exact found.above.trans (bits_prefix_bits ap found.short)
  refine ⟨fs', x', l', r', his, dbit, same, site, found, fun add new => ?_⟩
  simp only [insertInto, run, ok_bind, node_of live, holds.rth, val, deref_some, headAddr, diff]
  show (rtt.climbWhile (fun p => p.rtnBit ≥ dbit) Rtt.pathFuel y.1 >>= _) = _
  rw [climb, ok_bind]

theorem insertInto_spec (rep : Represents rtt (.node x l r)) (ready : Ready rtt)
    (loose : Loose rth (.node x l r)) (addr : (rtt.heads rth).rdxRthAddr = some ap)
    (valid : bitlen ≤ rtt.rttMaxaddrlen) {add new : NodeId} (fresh : Fresh rtt add new) :
    ∃ res rtt', insertInto rtt rth ap bitlen x.1 (some add) (some new) = .ok (some res, rtt') ∧
      Outcome rtt (.node x l r) (ap.bits bitlen) rth (res, rtt') := by
  obtain ⟨fs, x', l', r', his, d, same, site, found, run⟩ := insertInto_site rep ready loose addr valid
  obtain ⟨res, rtt', done, outcome⟩ := insertAt_spec site found fresh
  exact ⟨res, rtt', (run _ _).trans done, same ▸ outcome⟩

/-- The list without the links of the head. -/
def unlinkHead (cl : Dll HeadId) (rth : HeadId) : Dll HeadId :=
  (cl.setNext (.item rth) none).setBack (.item rth) none

/-- The table when the key of the head has been set and its fields cleared. -/
structure Cleared (rtt rtt' : Rtt) (rth : HeadId) (ap : Addr) : Prop where
  ready : Ready rtt'
  nodes : rtt'.nodes = rtt.nodes
  root : rtt'.rttRoot = rtt.rttRoot
  heads : ∀ h, h ≠ rth → rtt'.heads h = rtt.heads h
  addr : (rtt'.heads rth).rdxRthAddr = some ap
  addrs : ∀ h, (rtt'.heads h).rthAddr = (rtt.heads h).rthAddr
  setup : SameSetup rtt rtt'
  clhead : rtt'.rttClhead = rtt.rttClhead ∨ rtt'.rttClhead = unlinkHead rtt.rttClhead rth

/-- A write to fields of the head that no trie depends on. -/
theorem Cleared.writeHead {rtt' : Rtt} (c : Cleared rtt rtt' rth ap) (f : RtHead → RtHead)
    (key : ∀ h, (f h).rdxRthAddr = h.rdxRthAddr) (addr : ∀ h, (f h).rthAddr = h.rthAddr) :
    Cleared rtt (rtt'.writeHead rth f) rth ap where
  ready := ⟨c.ready.magic, c.ready.fits⟩
  nodes := c.nodes
  root := c.root
  heads h ne := by rw [heads_writeHead, if_neg ne, c.heads h ne]
  addr := by rw [heads_writeHead, if_pos rfl, key, c.addr]
  addrs h := by
    rw [heads_writeHead]
    split
    · subst h
      rw [addr, c.addrs]
    · exact c.addrs h
  setup := c.setup.trans (sameSetup_writeHead _ _ _)
  clhead := c.clhead

theorem unlinkHead_unlinkHead (cl : Dll HeadId) (rth : HeadId) :
    unlinkHead (unlinkHead cl rth) rth = unlinkHead cl rth := by
  simp [unlinkHead, Dll.setNext, Dll.setBack]

theorem islinked_unlinkHead {cl : Dll HeadId} {rth h : HeadId}
    (linked : (unlinkHead cl rth).islinked (.item h) = true) : cl.islinked (.item h) = true := by
  by_cases same : h = rth
  · simp [unlinkHead, Dll.islinked, Dll.setNext, Dll.setBack, same] at linked
  · simpa [unlinkHead, Dll.islinked, Dll.setNext, Dll.setBack, same] using linked

theorem Cleared.clearLinks {rtt' : Rtt} (c : Cleared rtt rtt' rth ap) :
    Cleared rtt (clearLinks rtt' rth) rth ap := by
  unfold Radix.clearLinks
  split
  · have flags := c.writeHead (fun h => { h with rdclFlags := 0 }) (fun _ => rfl) fun _ => rfl
    refine ⟨⟨flags.ready.magic, flags.ready.fits⟩, flags.nodes, flags.root, flags.heads, flags.addr,
      flags.addrs, flags.setup.trans ⟨rfl, rfl, rfl, rfl, rfl, rfl, rfl⟩, .inr ?_⟩
    have links : unlinkHead (rtt'.writeHead rth fun h => { h with rdclFlags := 0 }).rttClhead rth =
        unlinkHead rtt.rttClhead rth := by
      rcases flags.clhead with same | same
      · rw [same]
      · rw [same, unlinkHead_unlinkHead]
    exact links
  · exact c

theorem insertDebug_cleared {rtt' : Rtt} (c : Cleared rtt rtt' rth ap)
    (valid : bitlen ≤ rtt.rttMaxaddrlen) :
    ∃ rtt'', insertDebug rtt' rth bitlen = (false, rtt'') ∧ Cleared rtt rtt'' rth ap := by
  unfold insertDebug
  split
  · have heads := c.writeHead (fun h => { h with rthRtn := none, rthVersion := 0 }) (fun _ => rfl)
      fun _ => rfl
    have done := heads.clearLinks
    refine ⟨_, ?_, done⟩
    have fits := done.setup.len ▸ valid
    simpa using fits
  · exact ⟨rtt', rfl, c⟩

theorem insert_cleared (ready : Ready rtt) (raw : rtt.rttConvert = none) (addr : (rtt.heads rth).rthAddr = some ap)
    (valid : bitlen ≤ rtt.rttMaxaddrlen) (mem : Allocs) :
    ∃ rtt', Cleared rtt rtt' rth ap ∧
      stdRadixInsert rtt rth bitlen mem = insertTree rtt' rth bitlen mem := by
  let rtt₁ := rtt.writeHead rth fun h => { h with rdxRthAddr := some ap }
  have keyed : insertKey rtt rth mem.key = .ok (true, rtt₁) := by
    simp [insertKey, raw, addr, rtt₁]
  have cleared : Cleared rtt rtt₁ rth ap := by
    refine ⟨?_, rfl, rfl, ?_, ?_, ?_, sameSetup_writeHead _ _ _, .inl rfl⟩
    · exact ⟨ready.magic, ready.fits⟩
    · intro h ne
      simp [rtt₁, heads_writeHead, ne]
    · simp [rtt₁, heads_writeHead]
    · intro h
      simp only [rtt₁, heads_writeHead]
      split <;> simp [*]
  obtain ⟨rtt', debug, cleared'⟩ := insertDebug_cleared cleared valid
  refine ⟨rtt', cleared', ?_⟩
  have magic : rtt₁.validateHandle = .ok () := cleared.ready.validate
  simp [stdRadixInsert, keyed, magic, debug]

/-- What `std_radix_insert` promises of a table with the trie `t`, given a head
for the prefix `q`. -/
inductive InsertResult (rtt rtt' : Rtt) (t : RtTree) (q : List Bool) (rth : HeadId) : HeadId → Prop
  | present (h : HeadId) : (q, h) ∈ entries t → Represents rtt' t → InsertResult rtt rtt' t q rth h
  | added (t' : RtTree) : (∀ h, (q, h) ∉ entries t) → Represents rtt' t' →
      (∀ e, e ∈ entries t' ↔ e = (q, rth) ∨ e ∈ entries t) → Covered rtt rtt' t t' →
      InsertResult rtt rtt' t q rth rth

theorem Cleared.represents {rtt' : Rtt} {t : RtTree} (c : Cleared rtt rtt' rth ap)
    (rep : Represents rtt t) (loose : Loose rth t) : Represents rtt' t := by
  apply rep.congr c.root c.setup.len
  intro y hy
  exact ⟨by rw [c.nodes], fun h hv => c.heads h fun same => loose y hy (same ▸ hv)⟩

theorem Cleared.count {rtt' : Rtt} (c : Cleared rtt rtt' rth ap) :
    Cleared rtt rtt'.countInsert rth ap := by
  obtain ⟨calm, nodes, root, heads, addr, addrs, setup, clhead⟩ := c
  exact ⟨⟨calm.magic, calm.fits⟩, nodes, root, heads, addr,
    addrs, setup.trans (sameSetup_countInsert _), clhead⟩

/-- The allocations of an insertion succeed. -/
def Allocs.Succeed (mem : Allocs) (rtt : Rtt) : Prop :=
  ∃ add new, mem.add = some add ∧ mem.new = some new ∧ Fresh rtt add new

/-- The first head of a table. -/
theorem insert_first (addr : (rtt.heads rth).rdxRthAddr = some ap) (valid : bitlen ≤ rtt.rttMaxaddrlen) (add : NodeId) :
    Inserted rtt (((allocated rtt rth bitlen add).setRoot (some add)).addRoute) .nil
      (leaf add (ap.bits bitlen) rth) (ap.bits bitlen) rth := by
  have head : (((allocated rtt rth bitlen add).setRoot (some add)).addRoute).Attached rth add
      (ap.bits bitlen) := by
    refine ⟨?_, ap, ?_, by rw [length_bits]⟩ <;> simp [allocated, heads_writeHead, addr]
  let a : RtNode := .ofBit bitlen (some rth)
  refine ⟨⟨rfl, ⟨⟨⟨a, ?_, ?_⟩, ?_⟩, trivial, trivial⟩, ?_, ?_, ?_⟩, ?_, ⟨?_, addr_allocated, rfl⟩,
    fun _ _ => .inr (.inl (by simp)), ?_⟩
  · simp [allocated, nodes_addNode, a]
  · exact ⟨rfl, rfl, rfl, (length_bits ap bitlen).symm, by rw [length_bits]; rfl, rfl⟩
  · rintro h ⟨⟩
    exact head
  · simp [ids, leaf]
  · exact ⟨List.nil_prefix, by simp, trivial, trivial⟩
  · intro y hy
    obtain rfl : y = (add, ⟨ap.bits bitlen, some rth⟩) := by simpa [leaf] using hy
    exact (length_bits ap bitlen).trans_le valid
  · simp [entries_leaf]
  · exact sameSetup_allocated.trans ((sameSetup_setRoot _ _).trans (sameSetup_addRoute _))
  · constructor
    · intro i hi
      simp [ids] at hi
    · intro i free live
      by_cases mine : i = add
      · simp [leaf, ids, mine]
      · simp [allocated, nodes_addNode, mine, free] at live

/-- An insertion into a table that may be in use: the head is cleared, and then
`Outcome` says what the insertion gives. -/
theorem insert_ready {t : RtTree} (rep : Represents rtt t) (ready : Ready rtt)
    (raw : rtt.rttConvert = none) (loose : Loose rth t)
    (addr : (rtt.heads rth).rthAddr = some ap) (valid : bitlen ≤ rtt.rttMaxaddrlen) {mem : Allocs}
    (alloc : mem.Succeed rtt) :
    ∃ res rtt' m, stdRadixInsert rtt rth bitlen mem = .ok (some res, rtt') ∧ Cleared rtt m rth ap ∧
      Represents m t ∧ Outcome m t (ap.bits bitlen) rth (res, rtt') := by
  obtain ⟨rtt₁, cleared, start⟩ := insert_cleared ready raw addr valid mem
  obtain ⟨add, new, hadd, hnew, fresh⟩ := alloc
  have counted := cleared.count
  have rep₂ := counted.represents rep loose
  have fresh₂ : Fresh rtt₁.countInsert add new :=
    ⟨counted.nodes ▸ fresh.freeAdd, counted.nodes ▸ fresh.freeNew, fresh.apart⟩
  have valid₂ : bitlen ≤ rtt₁.countInsert.rttMaxaddrlen := by rwa [counted.setup.len]
  obtain ⟨res, rtt', run, outcome⟩ : ∃ res rtt', insertTree rtt₁ rth bitlen mem = .ok (some res, rtt') ∧
      Outcome rtt₁.countInsert t (ap.bits bitlen) rth (res, rtt') := by
    cases t with
    | nil =>
      have empty : rtt₁.countInsert.rttRoot = none := rep₂.root
      have first := insert_first counted.addr valid₂ add
      refine ⟨rth, _, ?_, .added _ _ first⟩
      simp only [insertTree, empty, hadd]
      rfl
    | node x l r =>
      have root : rtt₁.countInsert.rttRoot = some x.1 := rep₂.root
      obtain ⟨res, rtt', run, outcome⟩ :=
        insertInto_spec rep₂ counted.ready loose counted.addr valid₂ fresh₂
      refine ⟨res, rtt', ?_, outcome⟩
      have headAddr : rtt₁.countInsert.headAddr rth = .ok ap := by simp [Rtt.headAddr, counted.addr]
      simp only [insertTree, root, hadd, hnew, headAddr, ok_bind]
      exact run
  exact ⟨res, rtt', rtt₁.countInsert, start.trans run, counted, rep₂, outcome⟩

/-- An insertion locks no node and marks none. -/
theorem unlocked_insert (unlocked : Unlocked rtt) {mem : Allocs} :
    Ensures (stdRadixInsert rtt rth bitlen mem) fun r => Unlocked r.2 := by
  let R (n n' : RtNode) : Prop := n.rtnLock = 0 ∧ n.rtnFlags = 0 → n'.rtnLock = 0 ∧ n'.rtnFlags = 0
  let N (_ : NodeId) (n : RtNode) : Prop := n.rtnLock = 0 ∧ n.rtnFlags = 0
  have attaching : Attaching R N Set.univ rth := by
    refine ⟨⟨fun n => id, fun h h' calm => h' (h calm), fun new h => h new, fun _ _ => id, fun _ _ => id,
      fun _ _ => id⟩, fun _ _ _ _ _ => ⟨rfl, rfl⟩, fun _ _ _ => .inr fun _ => id, fun n _ calm => ?_⟩
    exact ⟨calm.1, by simp [calm.2]⟩
  have change : Ensures (stdRadixInsert rtt rth bitlen mem) fun r => Change R N Set.univ rtt r.2 :=
    change_insert attaching (Set.mem_univ rth) fun i _ => Set.mem_univ i
  refine change.mono fun r changed i n' live => ?_
  rcases changed.nodes i n' live with new | ⟨n, old, keep⟩
  · exact new
  · exact keep (unlocked i n old)

theorem Settled.not_pending (s : Settled rtt) (h : HeadId) : rtt.pending h = false := by
  unfold Rtt.pending
  cases (rtt.heads h).rthRtn with
  | none => rfl
  | some i =>
    cases live : rtt.nodes i with
    | none => simp [live]
    | some n => simp [live, s.not_marked live]

/-- **Insertion.** `std_radix_insert` binds a free prefix to the head, or returns
the head that the prefix is bound to and leaves the bindings alone. -/
theorem insert_spec {t : RtTree} (rep : Represents rtt t) (settled : Settled rtt) (loose : Loose rth t)
    (addr : (rtt.heads rth).rthAddr = some ap) (valid : bitlen ≤ rtt.rttMaxaddrlen) {mem : Allocs}
    (alloc : mem.Succeed rtt) :
    ∃ res rtt', stdRadixInsert rtt rth bitlen mem = .ok (some res, rtt') ∧ Settled rtt' ∧
      SameSetup rtt rtt' ∧ (∀ h, (rtt'.heads h).rthAddr = (rtt.heads h).rthAddr) ∧
      InsertResult rtt rtt' t (ap.bits bitlen) rth res := by
  obtain ⟨res, rtt', m, run, cleared, rep₁, outcome⟩ :=
    insert_ready rep settled.ready settled.convert loose addr valid alloc
  have unlocked' : Unlocked rtt' := (unlocked_insert settled.unlocked).of_ok _ run
  have calm := cleared.ready
  have unlocked : Unlocked m := by
    unfold Unlocked
    rw [cleared.nodes]
    exact settled.unlocked
  have unlisted (h : HeadId) : m.rttClhead.islinked (.item h) = false := by
    have off := settled.unlisted h
    rcases cleared.clhead with same | same
    · rwa [same]
    · rw [same]
      exact Bool.eq_false_iff.mpr fun linked => Bool.eq_false_iff.mp off (islinked_unlinkHead linked)
  have raw : m.rttConvert = none := cleared.setup.convert.trans settled.convert
  have settled₁ : Settled m := ⟨calm.magic, raw, calm.fits, unlocked, unlisted⟩
  refine ⟨res, rtt', run, ?_⟩
  cases outcome with
  | present h bound => exact ⟨settled₁, cleared.setup, cleared.addrs, .present res bound rep₁⟩
  | added t' rtt' inserted =>
    obtain ⟨rep', bound, still, covered, _⟩ := inserted
    have covered' : Covered rtt rtt' t t' := by
      unfold Covered at covered ⊢
      rwa [cleared.nodes] at covered
    refine ⟨settled₁.of_quiet ⟨still, unlocked'⟩, cleared.setup.trans still.setup, ?_,
      .added t' ?_ rep' bound covered'⟩
    · exact fun h => (still.addrs h).trans (cleared.addrs h)
    · intro h old
      have same := entries_functional rep'.trie ((bound _).mpr (.inr old)) ((bound _).mpr (.inl rfl))
      exact loose_iff.mp loose _ (same ▸ old)
  | replaced h t' rtt' bound pending =>
    rw [settled₁.not_pending] at pending
    cases pending

end SonicUtils.Radix
