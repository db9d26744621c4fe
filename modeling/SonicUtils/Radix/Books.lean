import Mathlib.Data.Finset.Card
import SonicUtils.Radix.Rule

/-!
# The counters of a table

What insertions and removals do to `rtt_inodes`, `rtt_nmalloc`, `rtt_nfree` and
`rtt_routes`, and that they leave the change list alone.

* `booked_remove`, `booked_insert`: the counters follow the allocated nodes;
* `aside_remove`, `aside_insert`: the change list.
-/

namespace SonicUtils.Radix

open LinkedList

variable {rtt m m' : Rtt} {i rn : NodeId} {n : RtNode} {rth : HeadId} {routes : UInt64} {S : Set NodeId}

/-- The counters of nodes are right, and `rtt_routes` is what is said. -/
structure Booked (routes : UInt64) (m : Rtt) : Prop where
  count : ∃ s : Finset NodeId, (∀ i, i ∈ s ↔ m.nodes i ≠ none) ∧ m.rttInodes = .ofNat s.card
  balance : m.rttNmalloc - m.rttNfree = m.rttInodes
  routes : m.rttRoutes = routes

theorem Booked.of_same (h : Booked routes m) (nodes : ∀ i, m'.nodes i ≠ none ↔ m.nodes i ≠ none)
    (inodes : m'.rttInodes = m.rttInodes) (nmalloc : m'.rttNmalloc = m.rttNmalloc) (nfree : m'.rttNfree = m.rttNfree)
    (same : m'.rttRoutes = m.rttRoutes) : Booked routes m' := by
  obtain ⟨⟨s, live, card⟩, balance, out⟩ := h
  refine ⟨⟨s, fun i => (live i).trans (nodes i).symm, inodes.trans card⟩, ?_, same.trans out⟩
  rw [nmalloc, nfree, inodes, balance]

theorem Booked.setNode {n' : RtNode} (h : Booked routes m) (live : m.nodes i = some n) : Booked routes (m.setNode i n') := by
  refine h.of_same (fun j => ?_) rfl rfl rfl rfl
  rw [nodes_setNode]
  split
  · simp [*]
  · rfl

theorem Booked.writeHead (h : Booked routes m) (f : RtHead → RtHead) : Booked routes (m.writeHead rth f) :=
  h.of_same (fun _ => Iff.rfl) rfl rfl rfl rfl

theorem Booked.releaseHead (h : Booked routes m) (v : Option HeadId) : Booked routes (m.releaseHead v) := by
  cases v with
  | none => exact h
  | some rth =>
    unfold Rtt.releaseHead Rtt.usrFree
    dsimp only
    split
    · exact h.of_same (fun _ => Iff.rfl) rfl rfl rfl rfl
    · exact h.writeHead _

theorem Booked.addNode (h : Booked routes m) (free : m.nodes i = none) (n : RtNode) : Booked routes (m.addNode i n) := by
  obtain ⟨⟨s, live, card⟩, balance, out⟩ := h
  have new : i ∉ s := fun inside => (live i).mp inside free
  refine ⟨⟨insert i s, fun j => ?_, ?_⟩, ?_, out⟩
  · rw [Finset.mem_insert, nodes_addNode, live]
    split
    · simp [*]
    · simp [*]
  · rw [Finset.card_insert_of_notMem new]
    change m.rttInodes + 1 = _
    rw [card, UInt64.ofNat_add]
    rfl
  · change m.rttNmalloc + 1 - m.rttNfree = m.rttInodes + 1
    grind

theorem Booked.freeNode (h : Booked routes m) (alive : m.nodes i = some n) : Booked routes (m.freeNode i) := by
  obtain ⟨⟨s, live, card⟩, balance, out⟩ := h
  have old : i ∈ s := (live i).mpr (by simp [alive])
  refine ⟨⟨s.erase i, fun j => ?_, ?_⟩, ?_, out⟩
  · rw [Finset.mem_erase, nodes_freeNode, live]
    split
    · simp [*]
    · simp [*]
  · have pred := Finset.card_erase_add_one old
    change m.rttInodes - 1 = _
    rw [card, ← pred, UInt64.ofNat_add]
    grind
  · change m.rttNmalloc - (m.rttNfree + 1) = m.rttInodes - 1
    grind

theorem closed_booked : Closed (Booked routes) where
  link h live _ _ _ := h.setNode live
  root h _ := h.of_same (fun _ => Iff.rfl) rfl rfl rfl rfl
  release h v := h.releaseHead v
  free h live _ := h.freeNode live

/-- **A removal** counts one route less. -/
theorem booked_remove (h : Booked routes m) :
    Ensures (stdRadixRemoveNode m rn) fun r => Booked (routes - 1) r.2.2 := by
  have closed : ClosedRemove (Booked (routes - 1)) := ⟨closed_booked, fun h live _ _ _ => h.setNode live⟩
  obtain ⟨count, balance, out⟩ := h
  have dropped : Booked (routes - 1) m.dropRoute := ⟨count, balance, congrArg (· - 1) out⟩
  exact closed.removeNode dropped

/-- **An insertion** counts one route more, if the head is then in the tree. -/
theorem booked_insert (h : Booked routes m) {bitlen : Nat} {mem : Allocs}
    (mine : ∀ i, mem.add = some i ∨ mem.new = some i → m.nodes i = none)
    (apart : ∀ i, mem.add = some i → mem.new ≠ some i) :
    Ensures (insertTree m rth bitlen mem) fun r =>
      r.1 = some rth ∧ Booked (routes + 1) r.2 ∨
        Booked routes r.2 ∧ (r.1 = none ∨ ∃ i n, m.nodes i = some n ∧ n.rtnRth = r.1) := by
  have closed : ClosedInsert (Booked routes) Set.univ rth :=
    ⟨closed_booked, fun h _ free _ _ _ => h.addNode free _, fun h _ live _ => h.setNode live,
      fun h live _ => h.setNode live, fun h _ => h.writeHead _⟩
  have counted : Booked routes m.countInsert := h.of_same (fun _ => Iff.rfl) rfl rfl rfl rfl
  have attempt := closed.insertTree counted bitlen (fun i hi => ⟨Set.mem_univ i, mine i hi⟩) apart
  refine attempt.mono fun r result => ?_
  rcases result with ⟨m', ⟨count, balance, out⟩, rfl⟩ | kept
  · exact .inl ⟨rfl, count, balance, congrArg (· + 1) out⟩
  · exact .inr kept

/-! ## The change list -/

/-- The change list, its flags and the versions are the same. -/
structure Aside (rtt m : Rtt) : Prop where
  flags : ∀ h, (m.heads h).rdclFlags = (rtt.heads h).rdclFlags
  versions : ∀ h, (m.heads h).rthVersion = (rtt.heads h).rthVersion
  clhead : m.rttClhead = rtt.rttClhead
  version : m.rttVersion = rtt.rttVersion

theorem Aside.refl (rtt : Rtt) : Aside rtt rtt := ⟨fun _ => rfl, fun _ => rfl, rfl, rfl⟩

theorem Aside.trans (h : Aside rtt m) (h' : Aside m m') : Aside rtt m' where
  flags i := (h'.flags i).trans (h.flags i)
  versions i := (h'.versions i).trans (h.versions i)
  clhead := h'.clhead.trans h.clhead
  version := h'.version.trans h.version

theorem aside_writeHead {f : RtHead → RtHead} (flags : ∀ h, (f h).rdclFlags = h.rdclFlags)
    (version : ∀ h, (f h).rthVersion = h.rthVersion) : Aside m (m.writeHead rth f) := by
  refine ⟨fun h => ?_, fun h => ?_, rfl, rfl⟩
  · rw [heads_writeHead]
    split
    · rename_i same
      rw [flags, same]
    · rfl
  · rw [heads_writeHead]
    split
    · rename_i same
      rw [version, same]
    · rfl

theorem aside_releaseHead (v : Option HeadId) : Aside m (m.releaseHead v) := by
  cases v with
  | none => exact .refl m
  | some rth =>
    have parted : Aside m (m.writeHead rth fun h => { h with rdxRthAddr := none }) :=
      aside_writeHead (fun _ => rfl) fun _ => rfl
    unfold Rtt.releaseHead Rtt.usrFree
    dsimp only
    split
    · exact parted.trans ⟨fun _ => rfl, fun _ => rfl, rfl, rfl⟩
    · exact parted

theorem closed_aside : Closed (Aside rtt) where
  link h _ _ _ _ := h.trans ⟨fun _ => rfl, fun _ => rfl, rfl, rfl⟩
  root h _ := h.trans ⟨fun _ => rfl, fun _ => rfl, rfl, rfl⟩
  release h v := h.trans (aside_releaseHead v)
  free h _ _ := h.trans ⟨fun _ => rfl, fun _ => rfl, rfl, rfl⟩

theorem aside_remove : Ensures (stdRadixRemoveNode m rn) fun r => Aside m r.2.2 := by
  have closed : ClosedRemove (Aside m) :=
    ⟨closed_aside, fun h _ _ _ _ => h.trans ⟨fun _ => rfl, fun _ => rfl, rfl, rfl⟩⟩
  exact closed.removeNode ⟨fun _ => rfl, fun _ => rfl, rfl, rfl⟩

theorem aside_insert {bitlen : Nat} {mem : Allocs}
    (mine : ∀ i, mem.add = some i ∨ mem.new = some i → m.nodes i = none)
    (apart : ∀ i, mem.add = some i → mem.new ≠ some i) :
    Ensures (insertTree m rth bitlen mem) fun r => Aside m r.2 := by
  have same {m₁ m₂ : Rtt} (h : Aside m m₁) (heads : m₂.heads = m₁.heads) (clhead : m₂.rttClhead = m₁.rttClhead)
      (version : m₂.rttVersion = m₁.rttVersion) : Aside m m₂ :=
    h.trans ⟨fun _ => by rw [heads], fun _ => by rw [heads], clhead, version⟩
  have closed : ClosedInsert (Aside m) Set.univ rth :=
    ⟨closed_aside, fun h _ _ _ _ _ => same h rfl rfl rfl, fun h _ _ _ => same h rfl rfl rfl,
      fun h _ _ => same h rfl rfl rfl, fun h _ => h.trans (aside_writeHead (fun _ => rfl) fun _ => rfl)⟩
  have attempt := closed.insertTree (same (.refl m) rfl rfl rfl) bitlen
    (fun i hi => ⟨Set.mem_univ i, mine i hi⟩) apart
  refine attempt.mono fun r result => ?_
  rcases result with ⟨m', kept, rfl⟩ | ⟨kept, _⟩
  · exact same kept rfl rfl rfl
  · exact kept

/-! ## Freed and locked nodes -/

theorem closed_freed : Closed fun m => m.nodes i = none := by
  refine ⟨fun {m j n} free live l r p => ?_, fun free _ => free, fun free v => ?_, fun {m j n} free _ _ => ?_⟩
  · have other : i ≠ j := fun same => by simp [← same, free] at live
    rw [nodes_setNode, if_neg other, free]
  · rwa [nodes_releaseHead]
  · rw [nodes_freeNode]
    split
    · rfl
    · exact free

/-- What has been freed before a removal stays so. -/
theorem freed_removeNode (free : m.nodes i = none) : Ensures (stdRadixRemoveNode m rn) fun r => r.2.2.nodes i = none := by
  have closed : ClosedRemove fun m => m.nodes i = none := by
    refine ⟨closed_freed, fun {m j n} free live _ _ _ => ?_⟩
    have other : i ≠ j := fun same => by simp [← same, free] at live
    rw [nodes_setNode, if_neg other, free]
  have dropped : m.dropRoute.nodes i = none := free
  exact closed.removeNode dropped

theorem freed_brancher : Ensures (removeBrancher m rn) fun r => r.2.2.nodes rn = none := by
  have closed : Closed fun _ => True :=
    ⟨fun _ _ _ _ _ => trivial, fun _ _ => trivial, fun _ _ => trivial, fun _ _ _ => trivial⟩
  exact (closed.removeBrancher trivial).mono fun _ both => both.2

/-- The nodes that a removal frees: the one without its head, unless it has two
children, and its parent, if that was left without any use. -/
theorem freed_remove {p : RtNode} {prev : NodeId} (live : m.nodes rn = some n) :
    Ensures (stdRadixRemoveNode m rn) fun r =>
      n.rtnLeft ≠ none ∧ n.rtnRight ≠ none ∨ r.2.2.nodes rn = none ∧
        (n.rtnLeft = none → n.rtnRight = none → n.rtnParent = some prev → m.nodes prev = some p →
          p.rtnRth = none → prev ≠ rn → r.2.2.nodes prev = none) := by
  unfold stdRadixRemoveNode
  rw [node_of live, ok_bind]
  apply Ensures.check
  intro _
  have here : (m.dropRoute.releaseHead n.rtnRth).nodes rn = some n := by rwa [nodes_releaseHead]
  dsimp only
  split
  · rename_i both
    apply Ensures.any
    intro m₁
    exact .pure (.inl ⟨Option.isSome_iff_ne_none.mp both.1, Option.isSome_iff_ne_none.mp both.2⟩)
  · split
    · have gone : ((m.dropRoute.releaseHead n.rtnRth).freeNode rn).nodes rn = none := by
        rw [nodes_freeNode, if_pos rfl]
      split
      · rename_i top
        refine .pure (.inr ⟨gone, fun _ _ parent => ?_⟩)
        cases top.symm.trans parent
      · rename_i up parent
        apply ensures_node
        intro p' live'
        apply Ensures.bind (closed_freed.replaceChild gone)
        rintro m₁ ⟨gone₁, _⟩
        split
        · rename_i head
          refine .pure (.inr ⟨gone₁, fun _ _ parent' above bare ne => ?_⟩)
          obtain rfl := Option.some.inj (parent.symm.trans parent')
          rw [nodes_freeNode, if_neg ne, nodes_releaseHead] at live'
          obtain rfl := Option.some.inj (above.symm.trans live')
          rw [bare] at head
          cases head
        · refine ((closed_freed.removeBrancher gone₁).and freed_brancher).mono fun r both => .inr ⟨both.1.1, ?_⟩
          intro _ _ parent' _ _ _
          obtain rfl := Option.some.inj (parent.symm.trans parent')
          exact both.2
    · rename_i leaf
      exact freed_brancher.mono fun r gone => .inr ⟨gone, fun left right => absurd ⟨left, right⟩ leaf⟩

/-- A removal frees no node that is locked. -/
theorem locked_remove (live : m.nodes i = some n) (locked : n.rtnLock ≠ 0) :
    Ensures (stdRadixRemoveNode m rn) fun r => ∃ n', r.2.2.nodes i = some n' ∧ n'.rtnLock = n.rtnLock := by
  have moved {m : Rtt} {j : NodeId} {a b : RtNode} (h : ∃ n', m.nodes i = some n' ∧ n'.rtnLock = n.rtnLock)
      (live : m.nodes j = some a) (lock : b.rtnLock = a.rtnLock) :
      ∃ n', (m.setNode j b).nodes i = some n' ∧ n'.rtnLock = n.rtnLock := by
    obtain ⟨n', here, same⟩ := h
    obtain ⟨n'', here', same'⟩ := lasting_setNode live lock i n' here
    exact ⟨n'', here', same'.trans same⟩
  have closed : ClosedRemove fun m => ∃ n', m.nodes i = some n' ∧ n'.rtnLock = n.rtnLock := by
    refine ⟨⟨fun h live _ _ _ => moved h live rfl, fun h _ => h, fun h v => ?_, fun {m j a} h live calm => ?_⟩,
      fun h live _ _ _ => moved h live rfl⟩
    · simpa using h
    · obtain ⟨n', here, same⟩ := h
      have other : i ≠ j := by
        rintro rfl
        obtain rfl := Option.some.inj (here.symm.trans live)
        exact locked (same.symm.trans calm)
      exact ⟨n', by rw [nodes_freeNode, if_neg other, here], same⟩
  exact closed.removeNode ⟨n, live, rfl⟩

end SonicUtils.Radix
