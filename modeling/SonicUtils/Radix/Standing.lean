import SonicUtils.Radix.Remove
import SonicUtils.Radix.Starved

/-!
# Tables in use

Memory may be short, keys may be converted, nodes may be locked and marked. The
table stores a trie all the same, whose nodes are all the nodes there are.

* `SameTree`: what a table in use depends on;
* `Standing.touch`: writes to a node;
* `Standing.insert`, `Standing.removeNode`: insertions and removals.
-/

namespace SonicUtils.Radix

open PtrTree BitTrie

variable {rtt rtt' m : Rtt} {rth h : HeadId} {i : NodeId} {n : RtNode} {q : List Bool} {t t' : RtTree}
  {fs : List (Frame (Node NodeId HeadId))} {x : Node NodeId HeadId} {l r : RtTree}

/-- The nodes are those of the trie, and only nodes with a head are locked. -/
structure Standing (rtt : Rtt) (t : RtTree) : Prop where
  rep : Represents rtt t
  ready : Ready rtt
  guarded : Guarded rtt
  full : ∀ i, rtt.nodes i ≠ none → i ∈ ids t

theorem Standing.live_iff (s : Standing rtt t) : i ∈ ids t ↔ rtt.nodes i ≠ none :=
  ⟨fun inside => Linked.live s.rep.linked inside, s.full i⟩

/-- The place of a node. -/
theorem Standing.place (s : Standing rtt t) (live : rtt.nodes i = some n) :
    ∃ fs x l r, t = plug fs (.node x l r) ∧ x.1 = i ∧ n.Holds ⟨root l, root r, up fs⟩ x.2 := by
  obtain ⟨x, hx, rfl⟩ := List.mem_map.mp (s.full i (by simp [live]))
  obtain ⟨fs, l, r, rfl⟩ := exists_plug hx
  obtain ⟨⟨n', live', holds⟩, _⟩ := holds_at s.rep.linked
  obtain rfl := Option.some.inj (live.symm.trans live')
  exact ⟨fs, x, l, r, rfl, rfl, holds⟩

/-- The heads of nodes are those of the trie. -/
theorem Standing.stored_iff (s : Standing rtt t) : h ∈ rtt.stored ↔ ∃ q, (q, h) ∈ entries t := by
  constructor
  · rintro ⟨i, n, live, head⟩
    obtain ⟨fs, x, l, r, rfl, _, holds⟩ := s.place live
    refine ⟨x.2.stem, mem_entries.mpr ⟨x, mem_nodes_plug.mpr (.inl (by simp)), mem_own.mpr ⟨?_, rfl⟩⟩⟩
    rw [← holds.rth, head]
  · rintro ⟨q, bound⟩
    obtain ⟨x, hx, own⟩ := mem_entries.mp bound
    obtain ⟨k, ⟨n, live, holds⟩, _⟩ := PtrTree.Linked.holds s.rep.linked hx
    exact ⟨x.1, n, live, holds.rth.trans (mem_own.mp own).1⟩

/-- A stored head knows its node. -/
theorem Standing.attached (s : Standing rtt t) (live : rtt.nodes i = some n) (head : n.rtnRth = some h) :
    (rtt.heads h).rthRtn = some i ∧ ∃ ap, (rtt.heads h).rdxRthAddr = some ap ∧ (ap.bits n.rtnBit, h) ∈ entries t := by
  obtain ⟨fs, x, l, r, rfl, rfl, holds⟩ := s.place live
  obtain ⟨_, att⟩ := holds_at s.rep.linked
  have val : x.2.val = some h := holds.rth.symm.trans head
  obtain ⟨place, ap, key, stem⟩ := att h val
  refine ⟨place, ap, key, mem_entries.mpr ⟨x, mem_nodes_plug.mpr (.inl (by simp)), mem_own.mpr ⟨val, ?_⟩⟩⟩
  rw [holds.bit, stem]

theorem Standing.head_of (s : Standing rtt t) (stored : h ∈ rtt.stored) (place : (rtt.heads h).rthRtn = some i)
    (live : rtt.nodes i = some n) : n.rtnRth = some h := by
  obtain ⟨j, a, here, head⟩ := stored
  obtain rfl := Option.some.inj (place.symm.trans (s.attached here head).1)
  obtain rfl := Option.some.inj (live.symm.trans here)
  exact head

theorem Standing.loose (s : Standing rtt t) (unused : h ∉ rtt.stored) : Loose h t :=
  loose_iff.mpr fun q bound => unused (s.stored_iff.mpr ⟨q, bound⟩)

/-- Nodes and counters are the same, and so are the places and keys of stored heads. -/
structure SameTree (rtt m : Rtt) : Prop where
  nodes : m.nodes = rtt.nodes
  root : m.rttRoot = rtt.rttRoot
  magic : m.rttMagic = rtt.rttMagic
  len : m.rttMaxaddrlen = rtt.rttMaxaddrlen
  inodes : m.rttInodes = rtt.rttInodes
  nmalloc : m.rttNmalloc = rtt.rttNmalloc
  nfree : m.rttNfree = rtt.rttNfree
  routes : m.rttRoutes = rtt.rttRoutes
  places : ∀ h ∈ rtt.stored, (m.heads h).rthRtn = (rtt.heads h).rthRtn
  keys : ∀ h ∈ rtt.stored, (m.heads h).rdxRthAddr = (rtt.heads h).rdxRthAddr

theorem SameTree.stored (same : SameTree rtt m) : m.stored = rtt.stored := by
  unfold Rtt.stored
  rw [same.nodes]

theorem SameTree.trans (a : SameTree rtt m) (b : SameTree m rtt') : SameTree rtt rtt' where
  nodes := b.nodes.trans a.nodes
  root := b.root.trans a.root
  magic := b.magic.trans a.magic
  len := b.len.trans a.len
  inodes := b.inodes.trans a.inodes
  nmalloc := b.nmalloc.trans a.nmalloc
  nfree := b.nfree.trans a.nfree
  routes := b.routes.trans a.routes
  places h stored := (b.places h (a.stored ▸ stored)).trans (a.places h stored)
  keys h stored := (b.keys h (a.stored ▸ stored)).trans (a.keys h stored)

/-- Other heads, and what else no trie depends on. -/
theorem SameTree.of_heads (heads : ∀ h ∈ rtt.stored, m.heads h = rtt.heads h)
    (rest : m = { m with
      nodes := rtt.nodes, rttRoot := rtt.rttRoot, rttMagic := rtt.rttMagic, rttMaxaddrlen := rtt.rttMaxaddrlen,
      rttInodes := rtt.rttInodes, rttNmalloc := rtt.rttNmalloc, rttNfree := rtt.rttNfree,
      rttRoutes := rtt.rttRoutes }) : SameTree rtt m := by
  refine ⟨?_, ?_, ?_, ?_, ?_, ?_, ?_, ?_, fun h stored => by rw [heads h stored], fun h stored => by rw [heads h stored]⟩
  all_goals rw [rest]

theorem SameTree.booked {routes : UInt64} (same : SameTree rtt m) (booked : Booked routes rtt) : Booked routes m :=
  booked.of_same (fun i => by rw [same.nodes]) same.inodes same.nmalloc same.nfree same.routes

/-- A write to a head that is in no node, or to fields that no trie depends on. -/
theorem sameTree_writeHead {f : RtHead → RtHead}
    (free : h ∉ rtt.stored ∨ ∀ a, (f a).rthRtn = a.rthRtn ∧ (f a).rdxRthAddr = a.rdxRthAddr) :
    SameTree rtt (rtt.writeHead h f) := by
  have kept (g : HeadId) (stored : g ∈ rtt.stored) : ((rtt.writeHead h f).heads g).rthRtn = (rtt.heads g).rthRtn ∧
      ((rtt.writeHead h f).heads g).rdxRthAddr = (rtt.heads g).rdxRthAddr := by
    rw [heads_writeHead]
    split
    · rename_i mine
      subst mine
      rcases free with off | same
      · exact absurd stored off
      · exact same (rtt.heads g)
    · exact ⟨rfl, rfl⟩
  exact ⟨rfl, rfl, rfl, rfl, rfl, rfl, rfl, rfl, fun g stored => (kept g stored).1, fun g stored => (kept g stored).2⟩

theorem Standing.congr (s : Standing rtt t) (same : SameTree rtt m) : Standing m t := by
  refine ⟨⟨same.root.trans s.rep.root, s.rep.linked.mono fun y hy k held => ?_, s.rep.distinct, s.rep.trie, ?_⟩,
    ⟨same.magic.trans s.ready.magic, same.len.trans_le s.ready.fits⟩, ?_, fun i live => s.full i (same.nodes ▸ live)⟩
  · obtain ⟨⟨n, live, holds⟩, att⟩ := held
    refine ⟨⟨n, same.nodes ▸ live, holds⟩, fun h val => ?_⟩
    have stored : h ∈ rtt.stored := ⟨y.1, n, live, holds.rth.trans val⟩
    obtain ⟨place, ap, key, stem⟩ := att h val
    exact ⟨(same.places h stored).trans place, ap, (same.keys h stored).trans key, stem⟩
  · rw [same.len]
    exact s.rep.bounded
  · unfold Guarded
    rw [same.nodes]
    exact s.guarded

/-- A write to a node that leaves its links, its head and its prefix alone. -/
theorem Standing.touch (s : Standing rtt t) (live : rtt.nodes i = some n) (f : RtNode → RtNode)
    (keeps : ∀ a k lab, RtNode.Holds a k lab → (f a).Holds k lab)
    (calm : n.rtnRth = none → n.rtnLock = 0 → (f n).rtnLock = 0) : Standing (rtt.setNode i (f n)) t := by
  have rep : Represents (rtt.setNode i (f n)) t := by
    rw [setNode_eq_mapNodes f live]
    apply s.rep.mapNodes
    intro j a k lab holds
    split
    · exact keeps a k lab holds
    · exact holds
  refine ⟨rep, ⟨s.ready.magic, s.ready.fits⟩, fun j a here bare => ?_, fun j here => s.full j ?_⟩
  · rw [nodes_setNode] at here
    split at here
    · obtain rfl := Option.some.inj here
      obtain ⟨k, lab, holds⟩ : ∃ k lab, RtNode.Holds n k lab := by
        obtain ⟨fs, x, l, r, _, _, holds⟩ := s.place live
        exact ⟨_, _, holds⟩
      have head : n.rtnRth = none := by rw [holds.rth, ← (keeps n k lab holds).rth, bare]
      exact calm head (s.guarded i n live head)
    · exact s.guarded j a here bare
  · rw [nodes_setNode] at here
    split at here
    · rename_i mine
      rw [mine, live]
      simp
    · exact here

/-! ## Nodes that are locked -/

theorem guarded_setNode {n' : RtNode} (g : Guarded m) (keep : n'.rtnRth = none → n'.rtnLock = 0) :
    Guarded (m.setNode i n') := by
  intro j a live bare
  rw [nodes_setNode] at live
  split at live
  · obtain rfl := Option.some.inj live
    exact keep bare
  · exact g j a live bare

theorem guarded_freeNode (g : Guarded m) : Guarded (m.freeNode i) := by
  intro j a live bare
  rw [nodes_freeNode] at live
  split at live
  · cases live
  · exact g j a live bare

theorem closed_guarded : Closed Guarded where
  link {m i n} g live _ _ _ := guarded_setNode g fun bare => g i n live bare
  root g _ := g
  release g v := by
    intro j a live
    rw [nodes_releaseHead] at live
    exact g j a live
  free g _ _ := guarded_freeNode g

theorem guarded_remove (g : Guarded m) : Ensures (stdRadixRemoveNode m i) fun r => Guarded r.2.2 := by
  have closed : ClosedRemove Guarded := ⟨closed_guarded, fun g _ calm _ _ => guarded_setNode g fun _ => calm⟩
  have dropped : Guarded m.dropRoute := g
  exact closed.removeNode dropped

theorem guarded_insert (g : Guarded m) {bitlen : Nat} {mem : Allocs} (fair : mem.Fair m) :
    Ensures (insertTree m rth bitlen mem) fun r => Guarded r.2 := by
  have closed : ClosedInsert Guarded Set.univ rth := by
    refine ⟨closed_guarded, fun {m i} g _ _ bit v _ => ?_, fun {m i n} g _ live _ => ?_, fun g live _ => ?_, fun g _ => g⟩
    · intro j a live bare
      rw [nodes_addNode] at live
      split at live
      · obtain rfl := Option.some.inj live
        rfl
      · exact g j a live bare
    · exact guarded_setNode g fun bare => g i n live bare
    · exact guarded_setNode g nofun
  have counted : Guarded m.countInsert := g
  have attempt := closed.insertTree counted bitlen (fun i hi => ⟨Set.mem_univ i, fair.unused i hi⟩) fair.apart
  refine attempt.mono fun r result => ?_
  rcases result with ⟨m', kept, rfl⟩ | ⟨kept, _⟩
  · exact kept
  · exact kept

/-! ## Insertion -/

/-- What an insertion of `rth` with `bitlen` bits returns, and the trie that it leaves. -/
inductive Entered (rtt : Rtt) (t : RtTree) (rth : HeadId) (bitlen : Nat) : Option HeadId → RtTree → Prop
  | failed : Entered rtt t rth bitlen none t
  | present (q : List Bool) (h : HeadId) : q.length = bitlen → HasKey rtt rth q → (q, h) ∈ entries t →
      rtt.pending h = false → Entered rtt t rth bitlen (some h) t
  | added (q : List Bool) (t' : RtTree) : q.length = bitlen → HasKey rtt rth q → (∀ h, (q, h) ∉ entries t) →
      (∀ e, e ∈ entries t' ↔ e = (q, rth) ∨ e ∈ entries t) → Entered rtt t rth bitlen (some rth) t'
  | replaced (q : List Bool) (h : HeadId) (t' : RtTree) : q.length = bitlen → HasKey rtt rth q →
      (q, h) ∈ entries t → rtt.pending h = true →
      (∀ e, e ∈ entries t' ↔ e = (q, rth) ∨ e ∈ entries t ∧ e ≠ (q, h)) → Entered rtt t rth bitlen (some rth) t'

theorem Standing.tidy (s : Standing rtt t) (tidy : Tidy rtt rtt' t t') (live : rtt'.nodes i ≠ none) : i ∈ ids t' := by
  by_cases old : rtt.nodes i = none
  · exact tidy.made i old live
  · exact tidy.kept i (s.full i old)

theorem Primed.sameTree {ap : Addr} (primed : Primed rtt m rth ap) (unused : rth ∉ rtt.stored) : SameTree rtt m := by
  have heads (h : HeadId) (stored : h ∈ rtt.stored) : m.heads h = rtt.heads h :=
    primed.heads h fun same => unused (same ▸ stored)
  exact ⟨primed.nodes, primed.root, primed.setup.magic, primed.setup.len, primed.inodes, primed.nmalloc, primed.nfree,
    primed.routes, fun h stored => by rw [heads h stored], fun h stored => by rw [heads h stored]⟩

/-- **An insertion** of a head that is in no node. -/
theorem Standing.insert (s : Standing rtt t) (unused : rth ∉ rtt.stored) {bitlen : Nat} {mem : Allocs}
    (valid : bitlen ≤ rtt.rttMaxaddrlen) (fair : mem.Fair rtt) :
    Ensures (stdRadixInsert rtt rth bitlen mem) fun r => ∃ t', Standing r.2 t' ∧ Entered rtt t rth bitlen r.1 t' := by
  constructor
  rintro ⟨res, rtt'⟩ run
  have loose := s.loose unused
  rcases insert_start s.ready valid run with ⟨rfl, temp, rfl⟩ | ⟨m, ap, primed, key, run'⟩
  · exact ⟨t, s.congr (.of_heads (fun _ _ => rfl) rfl), .failed⟩
  · have standing : Standing m t := s.congr (primed.sameTree unused)
    have fair' : mem.Fair m := ⟨primed.nodes ▸ fair.unused, fair.apart⟩
    have guarded := (guarded_insert standing.guarded fair').of_ok _ run'
    have counted : Standing m.countInsert t := standing.congr (.of_heads (fun _ _ => rfl) rfl)
    obtain ⟨res', rtt'', run'', given⟩ :=
      insertTree_given standing.rep standing.ready loose primed.addr (primed.setup.len ▸ valid) fair'
    cases run'.symm.trans run''
    have len : (ap.bits bitlen).length = bitlen := length_bits ap bitlen
    have pending (h : HeadId) (bound : (ap.bits bitlen, h) ∈ entries t) : m.countInsert.pending h = rtt.pending h := by
      have same : m.heads h = rtt.heads h := primed.heads h fun same => loose_iff.mp loose _ (same ▸ bound)
      have heads : m.countInsert.heads h = rtt.heads h := same
      have nodes : m.countInsert.nodes = rtt.nodes := primed.nodes
      simp only [Rtt.pending, heads, nodes]
    cases given with
    | failed _ rep still nodes =>
      have ready := counted.ready.of_still still
      exact ⟨t, ⟨rep, ready, guarded, fun i live => counted.full i (nodes ▸ live)⟩, .failed⟩
    | done _ _ outcome =>
      cases outcome with
      | present h bound calm =>
        exact ⟨t, counted, .present _ _ len key bound ((pending _ bound).symm.trans calm)⟩
      | added t' _ inserted =>
        have ready := counted.ready.of_still inserted.still
        refine ⟨t', ⟨inserted.rep, ready, guarded, fun i live => counted.tidy inserted.tidy live⟩,
          .added _ t' len key (fun h old => ?_) inserted.bound⟩
        have same := entries_functional inserted.rep.trie ((inserted.bound _).mpr (.inr old))
          ((inserted.bound _).mpr (.inl rfl))
        exact loose_iff.mp loose _ (same ▸ old)
      | replaced h t' _ bound marked replaced =>
        have ready := counted.ready.of_still replaced.still
        exact ⟨t', ⟨replaced.rep, ready, guarded, fun i live => counted.tidy replaced.tidy live⟩,
          .replaced _ h t' len key bound ((pending h bound).symm.trans marked) replaced.bound⟩

/-- What an insertion does to the counters. -/
theorem booked_insertion {routes : UInt64} (s : Standing rtt t) (unused : rth ∉ rtt.stored) {bitlen : Nat}
    {mem : Allocs} (valid : bitlen ≤ rtt.rttMaxaddrlen) (fair : mem.Fair rtt) (booked : Booked routes rtt) :
    Ensures (stdRadixInsert rtt rth bitlen mem) fun r =>
      r.1 = some rth ∧ Booked (routes + 1) r.2 ∨ r.1 ≠ some rth ∧ Booked routes r.2 := by
  constructor
  rintro ⟨res, rtt'⟩ run
  rcases insert_start s.ready valid run with ⟨rfl, temp, rfl⟩ | ⟨m, ap, primed, _, run'⟩
  · exact .inr ⟨nofun, booked.of_same (fun _ => Iff.rfl) rfl rfl rfl rfl⟩
  · have same := primed.sameTree unused
    have unused' : ∀ i, mem.add = some i ∨ mem.new = some i → m.nodes i = none := by
      rw [same.nodes]
      exact fair.unused
    rcases (booked_insert (same.booked booked) unused' fair.apart).of_ok _ run' with done | ⟨kept, failed⟩
    · exact .inl done
    · refine .inr ⟨fun own => ?_, kept⟩
      rcases failed with bad | ⟨i, n, live, head⟩
      · cases own.symm.trans bad
      · rw [same.nodes] at live
        exact unused ⟨i, n, live, head.trans own⟩

/-! ## Removal -/

theorem mem_ids_plug : i ∈ ids (plug fs t) ↔ i ∈ ids t ∨ i ∈ (nodesAbove fs).map Prod.fst := by
  rw [(ids_plug fs t).mem_iff, List.mem_append]

/-- The nodes that are left after a removal are those of the trie. -/
theorem Departure.full {m' : Rtt} {ret : Option NodeId} {dir : Option WalkDir}
    (departure : Departure fs x l r ret dir t') (s : Standing m (plug fs (.node x l r)))
    (run : stdRadixRemoveNode m x.1 = .ok (ret, dir, m')) (live : m'.nodes i ≠ none) : i ∈ ids t' := by
  have old : i ∈ ids (plug fs (.node x l r)) := by
    by_contra off
    have free : m.nodes i = none := by_contra fun alive => off (s.full i alive)
    exact live ((freed_removeNode free).of_ok _ run)
  obtain ⟨⟨n, here, holds⟩, _⟩ := holds_at s.rep.linked
  have freed (p : RtNode) (prev : NodeId) := (@freed_remove m x.1 n p prev here).of_ok _ run
  have gone (nil : l = .nil ∨ r = .nil) : i ≠ x.1 := by
    rintro rfl
    rcases freed n x.1 with ⟨left, right⟩ | ⟨none, _⟩
    · rw [holds.left] at left
      rw [holds.right] at right
      rcases nil with rfl | rfl
      · exact left rfl
      · exact right rfl
    · exact live none
  rw [mem_ids_plug, mem_ids_node] at old
  cases departure with
  | branching l r _ _ => exact mem_ids_plug.mpr (old.imp_left mem_ids_node.mpr)
  | root top =>
    subst top
    have other := gone (.inl rfl)
    simp [ids, nodesAbove, other] at old
  | leaf f fs' top _ =>
    have other := gone (.inl rfl)
    exact mem_ids_plug.mpr (.inr (by simpa [ids, other] using old))
  | leafAndParent f fs' top bare =>
    subst top
    have other := gone (.inl rfl)
    obtain ⟨p, above, pholds⟩ := holds_above s.rep.linked
    have apart : f.node.1 ≠ x.1 := others_apart s.rep.distinct (.inr (.inr (by simp)))
    have parted : i ≠ f.node.1 := by
      rintro rfl
      rcases freed p f.node.1 with ⟨left, _⟩ | ⟨_, parent⟩
      · exact left holds.left
      · exact live (parent holds.left holds.right holds.parent above (pholds.rth.trans bare) apart)
    have place : i ∈ ids f.other ∨ i ∈ (nodesAbove fs').map Prod.fst := by
      simp only [ids, nodes_nil, List.map_nil, List.not_mem_nil, or_false, other, false_or, nodesAbove_cons,
        List.map_cons, List.map_append, List.mem_cons, List.mem_append, parted] at old
      exact old
    exact mem_ids_plug.mpr place
  | onlyLeft l _ =>
    have other := gone (.inr rfl)
    refine mem_ids_plug.mpr (old.imp_left fun inside => ?_)
    simpa [ids, other] using inside
  | onlyRight r _ =>
    have other := gone (.inl rfl)
    refine mem_ids_plug.mpr (old.imp_left fun inside => ?_)
    simpa [ids, other] using inside

/-- **A removal** at a node, which takes its head out of the trie, or leaves the trie as
it is if the node has none. -/
theorem Standing.removeNode (s : Standing rtt t) (live : rtt.nodes i = some n) :
    Ensures (stdRadixRemoveNode rtt i) fun r =>
      (n.rtnRth = none ∧ r.2.2 = rtt.dropRoute) ∨
        ∃ q h t', n.rtnRth = some h ∧ (q, h) ∈ entries t ∧ Standing r.2.2 t' ∧
          ∀ e, e ∈ entries t' ↔ e ∈ entries t ∧ e ≠ (q, h) := by
  constructor
  intro r run
  have calm : n.rtnLock = 0 := by
    by_contra locked
    rw [stdRadixRemoveNode, node_of live, ok_bind, check, if_neg locked] at run
    cases run
  obtain ⟨fs, x, l, r', rfl, rfl, holds⟩ := s.place live
  have calm' : ∀ n', rtt.nodes x.1 = some n' → n'.rtnLock = 0 := by
    intro n' live'
    rwa [← Option.some.inj (live.symm.trans live')]
  cases val : x.2.val with
  | none =>
    obtain ⟨_, branching, _, _⟩ := (trie_plug.mp s.rep.trie).1
    obtain ⟨left, right⟩ := branching val
    rw [removeNode_headless live calm holds val left right] at run
    cases run
    exact .inl ⟨holds.rth.trans val, rfl⟩
  | some h =>
    obtain ⟨ret, dir, m', t', run', departure, removed⟩ := removeNode_spec s.rep calm' s.guarded val
    cases run.symm.trans run'
    have bound : (x.2.stem, h) ∈ entries (plug fs (.node x l r')) :=
      mem_entries.mpr ⟨x, mem_nodes_plug.mpr (.inl (by simp)), mem_own.mpr ⟨val, rfl⟩⟩
    have guarded := (guarded_remove s.guarded).of_ok _ run
    have standing : Standing m' t' :=
      ⟨removed.rep, s.ready.of_still removed.still, guarded, fun i live => departure.full s run live⟩
    exact .inr ⟨x.2.stem, h, t', holds.rth.trans val, bound, standing, removed.bound⟩

end SonicUtils.Radix
