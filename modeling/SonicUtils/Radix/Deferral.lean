import SonicUtils.Radix.Versions
import SonicUtils.Radix.Sweep

/-!
# Removal from a version walk

The callback of `std_radix_versionwalk` may remove the head that it is called
with. Its node is locked then and only marked, and the walk removes it when it
comes up from there. `_std_radix_remove` then says where to go on.

* `visit_spec`, `turn_up_spec`, ..: the turns of the walk;
* `Left`: the places from which the walk goes on as if nothing had been removed.
-/

namespace SonicUtils.Radix

open PtrTree BitTrie Loop

/-- A callback that returns 0, and removes its head if `R` says so. -/
def removing (R : HeadId → Bool) : WalkFn := fun rth rtt =>
  if R rth then do
    let rtt ← stdRadixRemove rtt rth
    return (0, rtt)
  else return (0, rtt)

variable {rtt m m' : Rtt} {R : HeadId → Bool} {minVer maxVer : Version} {rth : HeadId}
  {fs : List (Frame (Node NodeId HeadId))} {x : Node NodeId HeadId} {l r t : RtTree}

/-- The node has a head that the callback removes. -/
def doomed (rtt : Rtt) (minVer maxVer : Version) (R : HeadId → Bool) (x : Node NodeId HeadId) : Bool :=
  x.2.val.any fun h => inRange rtt minVer maxVer h && R h

/-- A table during a walk that began with `rtt`, and its trie. -/
structure Walking (rtt m : Rtt) (t : RtTree) : Prop where
  rep : Represents m t
  free : Lockfree m
  magic : m.rttMagic = rdxMagic
  rmfree : m.rttRmfree = true
  versions : Footprint RtNode.rtnVersion ∅ ∅ rtt m

/-- Whether the node at `i` is marked. -/
def Marked (m : Rtt) (i : NodeId) (b : Bool) : Prop := ∀ n, m.nodes i = some n → n.marked = b

/-- The walk gets from `p` to `q`, changes the table from `m` to `m'` and hands out `hs`,
if `lcnt` is more than that. -/
def Passes (turn : Walk → Except Fault (Walk ⊕ Walk)) (m : Rtt) (p : Place) (m' : Rtt) (q : Place)
    (hs : List HeadId) : Prop :=
  ∀ lcnt calls, hs.length < lcnt.toNat → ∃ lcnt', lcnt'.toNat = lcnt.toNat - hs.length ∧
    Leads turn ⟨lcnt, p.1, p.2, m, calls⟩ ⟨lcnt', q.1, q.2, m', calls ++ hs⟩

variable {turn : Walk → Except Fault (Walk ⊕ Walk)} {p q : Place} {hs hs' : List HeadId}

theorem Passes.trans {m'' : Rtt} {q' : Place} (h : Passes turn m p m' q hs)
    (h' : Passes turn m' q m'' q' hs') : Passes turn m p m'' q' (hs ++ hs') := by
  intro lcnt calls more
  rw [List.length_append] at more
  obtain ⟨lcnt', left, run⟩ := h lcnt calls (by omega)
  obtain ⟨lcnt'', left', run'⟩ := h' lcnt' (calls ++ hs) (by omega)
  refine ⟨lcnt'', by rw [List.length_append]; omega, ?_⟩
  rw [← List.append_assoc]
  exact run.trans run'

theorem ne_zero_of_lt {lcnt : UInt64} {k : Nat} (h : k < lcnt.toNat) : lcnt ≠ 0 := by
  rintro rfl
  simp at h

/-- A turn that hands out nothing. -/
theorem Passes.move (h : ∀ lcnt calls, lcnt ≠ 0 →
    turn ⟨lcnt, p.1, p.2, m, calls⟩ = .ok (.inl ⟨lcnt, q.1, q.2, m', calls⟩)) :
    Passes turn m p m' q [] := by
  intro lcnt calls more
  exact ⟨lcnt, rfl, by simpa using Leads.single (h lcnt calls (ne_zero_of_lt more))⟩

/-- A turn that hands out a head. -/
theorem Passes.visit (h : ∀ lcnt calls, lcnt ≠ 0 →
    turn ⟨lcnt, p.1, p.2, m, calls⟩ = .ok (.inl ⟨lcnt - 1, q.1, q.2, m', calls ++ [rth]⟩)) :
    Passes turn m p m' q [rth] := by
  intro lcnt calls more
  have positive := ne_zero_of_lt more
  exact ⟨lcnt - 1, toNat_pred positive, .single (h lcnt calls positive)⟩

/-! ## Turns -/

theorem Walking.older {y : Node NodeId HeadId} {n : RtNode} (w : Walking rtt m t) (live : m.nodes y.1 = some n) :
    older rtt minVer y = decide (n.rtnVersion < minVer) := by
  rcases w.versions.nodes y.1 n live with none | ⟨n₀, old, same⟩
  · exact none.elim
  · simp [Radix.older, old, same]

theorem Walking.inRange (w : Walking rtt m t) (h : HeadId) :
    inRange m minVer maxVer h = inRange rtt minVer maxVer h := by
  rcases w.versions.heads h with same | ⟨none, _⟩
  · simp [Radix.inRange, same]
  · exact none.elim

theorem bitTest_or_deleBit (f : UInt8) : bitTest (f ||| deleBit) deleBit = true := by
  have bytes : ∀ b : Fin 256, bitTest (UInt8.ofNat b ||| deleBit) deleBit = true := by decide +kernel
  simpa using bytes ⟨f.toNat, f.toNat_lt⟩

/-- The marked table: the callback has removed the head of `x`. -/
def markedBy (m : Rtt) (x : Node NodeId HeadId) (n : RtNode) : Rtt :=
  m.countRemove.setNode x.1 { n with rtnFlags := n.rtnFlags ||| deleBit }

/-- A lock that is taken and given back is not seen. -/
theorem unlock_lock {n : RtNode} (f : UInt8) :
    rnUnlock { rnLock n with rtnFlags := f } = { n with rtnFlags := f } := by simp [rnUnlock, rnLock]

theorem markedBy_locked {n : RtNode} :
    (markedBy (m.setNode x.1 (rnLock n)) x (rnLock n)).setNode x.1 { n with rtnFlags := n.rtnFlags ||| deleBit } =
      markedBy m x n := by
  have swap : (m.setNode x.1 (rnLock n)).countRemove = m.countRemove.setNode x.1 (rnLock n) := rfl
  simp only [markedBy, swap, setNode_setNode]

theorem Walking.mark {n : RtNode} (w : Walking rtt m t) (live : m.nodes x.1 = some n) :
    Walking rtt (markedBy m x n) t ∧ Footprint RtNode.rtnFlags {x.1} ∅ m (markedBy m x n) ∧
      Marked (markedBy m x n) x.1 true := by
  have counted : Walking rtt m.countRemove t :=
    ⟨w.rep.congr rfl rfl fun _ _ => ⟨rfl, fun _ _ => rfl⟩, w.free, w.magic, w.rmfree,
      w.versions.trans (.of_same rfl rfl rfl)⟩
  have live' : m.countRemove.nodes x.1 = some n := live
  have map := setNode_eq_mapNodes (fun n => { n with rtnFlags := n.rtnFlags ||| deleBit }) live'
  refine ⟨⟨?_, ?_, w.magic, w.rmfree, ?_⟩, ?_, ?_⟩
  · rw [markedBy, map]
    apply counted.rep.mapNodes
    intro i n k lab holds
    split
    · exact holds.marks _ _ _
    · exact holds
  · intro i n' here
    rw [markedBy, nodes_setNode] at here
    split at here
    · obtain rfl := Option.some.inj here
      exact w.free x.1 n live
    · exact w.free i n' here
  · exact counted.versions.trans (footprint_setNode live' (.inr rfl))
  · have same : Footprint RtNode.rtnFlags {x.1} ∅ m m.countRemove := .of_same rfl rfl rfl
    exact same.trans (footprint_setNode live' (.inl rfl))
  · intro n' here
    rw [markedBy, nodes_setNode, if_pos rfl] at here
    obtain rfl := Option.some.inj here
    exact bitTest_or_deleBit n.rtnFlags

/-- `std_radix_remove` of a head whose node is locked. -/
theorem remove_locked {n : RtNode} (magic : m.rttMagic = rdxMagic) (rmfree : m.rttRmfree = true)
    (place : (m.heads rth).rthRtn = some x.1) (live : m.nodes x.1 = some n) (held : n.rtnLock ≠ 0) :
    stdRadixRemove m rth = .ok (markedBy m x n) := by
  have valid : m.validateHandle = .ok () := check_of magic
  have place' : (m.countRemove.heads rth).rthRtn = some x.1 := place
  have live' : m.countRemove.nodes x.1 = some n := live
  simp only [stdRadixRemove, valid, ok_bind, place', deref_some, node_of live', ne_eq, held, not_false_eq_true,
    if_true, write_of _ live']
  rw [check_of]
  · rfl
  · exact rmfree

theorem versionVisit_doomed {n : RtNode} (w : Walking rtt m (plug fs (.node x l r)))
    (live : m.nodes x.1 = some n) (head : n.rtnRth = some rth) (val : x.2.val = some rth)
    (wanted : inRange m minVer maxVer rth = true) (chosen : R rth = true) (lcnt : UInt64) (dir : WalkDir)
    (calls : List HeadId) :
    versionVisit (some (removing R)) minVer maxVer ⟨lcnt, dir, some x.1, m, calls⟩ x.1 n =
      .ok ⟨lcnt - 1, dir, some x.1, markedBy m x n, calls ++ [rth]⟩ := by
  have locked (m : Rtt) (n : RtNode) : (m.setNode x.1 n).nodes x.1 = some n := by
    rw [nodes_setNode, if_pos rfl]
  have place : ((m.setNode x.1 (rnLock n)).heads rth).rthRtn = some x.1 :=
    ((holds_at w.rep.linked).2 rth val).1
  have held : (rnLock n).rtnLock ≠ 0 := by simp [rnLock, w.free x.1 n live]
  have run := remove_locked (m := m.setNode x.1 (rnLock n)) w.magic w.rmfree place (locked _ _) held
  have marked : (markedBy (m.setNode x.1 (rnLock n)) x (rnLock n)).nodes x.1 =
      some { rnLock n with rtnFlags := n.rtnFlags ||| deleBit } := locked _ _
  rw [versionVisit_inRange head wanted]
  simp only [write_of _ live, ok_bind, Walk.call, removing, chosen, if_true, run, pure_eq_ok,
    write_of _ marked, unlock_lock, markedBy_locked]
  rfl

/-- The nodes elsewhere are marked as before. -/
theorem Marked.keep {S : Set NodeId} {i : NodeId} {b : Bool} (h : Marked m i b)
    (flags : Footprint RtNode.rtnFlags S ∅ m m') (apart : i ∉ S) : Marked m' i b := by
  intro n' live
  rcases flags.nodes i n' live with inside | ⟨n, old, same⟩
  · exact absurd inside apart
  · rw [RtNode.marked, same]
    exact h n old

/-- A node that is too old: its subtrees are left out. -/
theorem turn_cut (w : Walking rtt m (plug fs (.node x l r))) (old : older rtt minVer x = true) :
    Passes (versionTurn (some (removing R)) minVer maxVer) m (.walkDown, some x.1) m (.walkUp, some x.1) [] := by
  obtain ⟨⟨n, live, _⟩, _⟩ := holds_at w.rep.linked
  have less : n.rtnVersion < minVer := of_decide_eq_true ((w.older live).symm.trans old)
  apply Passes.move
  intro lcnt calls more
  simp [versionTurn, node_of live, more, less]

/-- The visit of a node: it is marked if it is doomed. -/
theorem turn_visit (w : Walking rtt m (plug fs (.node x l r))) (young : older rtt minVer x = false) {b : Bool}
    (mark : Marked m x.1 b) :
    ∃ m', Walking rtt m' (plug fs (.node x l r)) ∧ Footprint RtNode.rtnFlags {x.1} ∅ m m' ∧
      Marked m' x.1 (doomed rtt minVer maxVer R x || b) ∧
      Passes (versionTurn (some (removing R)) minVer maxVer) m (.walkDown, some x.1)
        m' (enter l (.walkRight, some x.1)) (x.2.val.toList.filter (inRange rtt minVer maxVer)) := by
  obtain ⟨⟨n, live, holds⟩, _⟩ := holds_at w.rep.linked
  have enough : ¬ n.rtnVersion < minVer := of_decide_eq_false ((w.older live).symm.trans young)
  have range : inRange m minVer maxVer = inRange rtt minVer maxVer := funext w.inRange
  have unmarked (unchosen : doomed rtt minVer maxVer R x = false) :
      Walking rtt m (plug fs (.node x l r)) ∧ Footprint RtNode.rtnFlags {x.1} ∅ m m ∧
        Marked m x.1 (doomed rtt minVer maxVer R x || b) := by
    rw [unchosen, Bool.false_or]
    exact ⟨w, .refl m, mark⟩
  cases mine : x.2.val.toList.filter (inRange rtt minVer maxVer) with
  | nil =>
    have unchosen : doomed rtt minVer maxVer R x = false := by
      cases val : x.2.val with
      | none => simp [doomed, val]
      | some h =>
        have out : ¬ inRange rtt minVer maxVer h = true := by simpa [val] using mine
        simp [doomed, val, out]
    obtain ⟨w', flags, mark'⟩ := unmarked unchosen
    refine ⟨m, w', flags, mark', Passes.move fun lcnt calls more => ?_⟩
    rw [← range] at mine
    simp [versionTurn, node_of live, more, enough, versionVisit_unwanted holds.rth mine, goDown_eq holds rfl]
  | cons h rest =>
    obtain ⟨val, wanted, rfl⟩ : x.2.val = some h ∧ inRange m minVer maxVer h = true ∧ rest = [] := by
      rw [range]
      cases val : x.2.val with
      | none => simp [val] at mine
      | some h' =>
        have wanted : inRange rtt minVer maxVer h' = true := by
          by_contra out
          simp [val, out] at mine
        obtain ⟨rfl, rfl⟩ : h' = h ∧ [] = rest := by simpa [val, wanted] using mine
        exact ⟨rfl, wanted, rfl⟩
    have head := holds.rth.trans val
    cases chosen : R h with
    | false =>
      obtain ⟨w', flags, mark'⟩ := unmarked (by simp [doomed, val, chosen])
      refine ⟨m, w', flags, mark', Passes.visit fun lcnt calls more => ?_⟩
      have passes : ∀ m, removing R h m = .ok (0, m) := fun m => by simp [removing, chosen]
      simp [versionTurn, node_of live, more, enough, versionVisit_passed live head wanted passes,
        goDown_eq holds rfl]
    | true =>
      obtain ⟨w', flags, mark'⟩ := w.mark live
      have sentenced : doomed rtt minVer maxVer R x = true := by
        simp [doomed, val, chosen, ← range, wanted]
      rw [sentenced, Bool.true_or]
      refine ⟨_, w', flags, mark', Passes.visit fun lcnt calls more => ?_⟩
      have live' : (markedBy m x n).nodes x.1 = some { n with rtnFlags := n.rtnFlags ||| deleBit } := by
        rw [markedBy, nodes_setNode, if_pos rfl]
      have holds' : RtNode.Holds { n with rtnFlags := n.rtnFlags ||| deleBit } ⟨root l, root r, up fs⟩ x.2 :=
        holds.marks _ _ _
      simp [versionTurn, node_of live, more, enough, versionVisit_doomed w live head val wanted chosen,
        node_of live', goDown_eq holds' rfl]

/-- `RDX_WALKRIGHT`. -/
theorem turn_right (w : Walking rtt m (plug fs (.node x l r))) :
    Passes (versionTurn (some (removing R)) minVer maxVer) m (.walkRight, some x.1)
      m (enter r (.walkUp, some x.1)) [] := by
  obtain ⟨⟨n, live, holds⟩, _⟩ := holds_at w.rep.linked
  apply Passes.move
  intro lcnt calls more
  simp [versionTurn, node_of live, more, goRight_eq holds rfl]

/-- The place from which the walk goes on once it is done with a subtree of which `s`
is left, and the trie: a parent with no head and no second child is gone. -/
inductive Left (fs : List (Frame (Node NodeId HeadId))) (s : RtTree) : WalkDir → Option NodeId → RtTree → Prop
  | root (dir : WalkDir) : fs = [] → Left fs s dir none s
  | kept (f : Frame (Node NodeId HeadId)) (fs' : List (Frame (Node NodeId HeadId))) :
      fs = f :: fs' → (s = .nil → f.node.2.val ≠ none) →
      Left fs s (if f.side then .walkUp else .walkRight) (some f.node.1) (plug fs s)
  | spliced (f : Frame (Node NodeId HeadId)) (fs' : List (Frame (Node NodeId HeadId))) :
      fs = f :: fs' → s = .nil → f.node.2.val = none →
      Left fs s (if f.side then .walkRight else .walkDown) (if f.side then up fs' else PtrTree.root f.other)
        (plug fs' f.other)

/-- A node that is not marked is left. -/
theorem turn_up (w : Walking rtt m (plug fs (.node x l r))) (mark : Marked m x.1 false) :
    ∃ dir rtn, Left fs (.node x l r) dir rtn (plug fs (.node x l r)) ∧
      Passes (versionTurn (some (removing R)) minVer maxVer) m (.walkUp, some x.1) m (dir, rtn) [] := by
  obtain ⟨⟨n, live, holds⟩, _⟩ := holds_at w.rep.linked
  have stays : n.removable = false := by simp [RtNode.removable, mark n live]
  cases fs with
  | nil =>
    have parent : n.rtnParent = none := holds.parent
    refine ⟨.walkUp, none, .root _ rfl, Passes.move fun lcnt calls more => ?_⟩
    simp [versionTurn, node_of live, more, stays, parent]
  | cons f fs =>
    obtain ⟨p, plive, pholds⟩ := holds_above w.rep.linked
    have parent : n.rtnParent = some f.node.1 := holds.parent
    have side := left_iff w.rep pholds
    refine ⟨_, _, .kept f fs rfl (by simp), Passes.move fun lcnt calls more => ?_⟩
    cases hs : f.side <;> simp [versionTurn, node_of live, more, stays, parent, node_of plive, side, hs]

theorem Walking.after {t' : RtTree} (w : Walking rtt m t) (rep : Represents m' t')
    (setup : SameSetup m m') (locks : Footprint RtNode.rtnLock ∅ ∅ m m')
    (versions : Footprint RtNode.rtnVersion ∅ ∅ m m') : Walking rtt m' t' := by
  refine ⟨rep, fun i n' live => ?_, setup.magic.trans w.magic, setup.rmfree.trans w.rmfree,
    w.versions.trans versions⟩
  rcases locks.nodes i n' live with none | ⟨n, old, same⟩
  · exact none.elim
  · exact same.trans (w.free i n old)

/-- A marked node with a head is removed. -/
theorem turn_remove (w : Walking rtt m (plug fs (.node x l r))) (val : x.2.val = some rth)
    (mark : Marked m x.1 true) :
    ∃ ret dir m' t', Departure fs x l r ret dir t' ∧ Walking rtt m' t' ∧
      Footprint RtNode.rtnFlags ∅ ∅ m m' ∧
      Passes (versionTurn (some (removing R)) minVer maxVer) m (.walkUp, some x.1)
        m' (dir.getD .walkUp, ret) [] := by
  obtain ⟨⟨n, live, _⟩, _⟩ := holds_at w.rep.linked
  obtain ⟨ret, dir, m', t', run, departure, removed⟩ := removeNode_spec w.rep (w.free x.1) w.free.guarded val
  have goes : n.removable = true := by simp [RtNode.removable, mark n live, w.free x.1 n live]
  have same {γ : Type} {f : RtNode → γ} (linkless : Linkless f) : Footprint f ∅ ∅ m m' :=
    (footprint_removeNode linkless).of_ok _ run
  refine ⟨ret, dir, m', t', departure, ?_, same linkless_flags, Passes.move fun lcnt calls more => ?_⟩
  · exact w.after removed.rep removed.still.setup (same linkless_lock) (same linkless_version)
  · simp [versionTurn, node_of live, more, goes, run]

/-- A marked node without a head, from an earlier walk. -/
theorem turn_stale (w : Walking rtt m (plug fs (.node x l r))) (val : x.2.val = none)
    (mark : Marked m x.1 true) :
    ∃ m', Walking rtt m' (plug fs (.node x l r)) ∧ Footprint RtNode.rtnFlags ∅ ∅ m m' ∧
      Passes (versionTurn (some (removing R)) minVer maxVer) m (.walkUp, some x.1) m' (.walkUp, up fs) [] := by
  obtain ⟨⟨n, live, holds⟩, _⟩ := holds_at w.rep.linked
  have both := (trie_plug.mp w.rep.trie).1.2.1 val
  have run := removeNode_headless live (w.free x.1 n live) holds val both.1 both.2
  have goes : n.removable = true := by simp [RtNode.removable, mark n live, w.free x.1 n live]
  refine ⟨m.dropRoute, w.after ?_ (sameSetup_dropRoute m) (.of_same rfl rfl rfl)
    (.of_same rfl rfl rfl), .of_same rfl rfl rfl, Passes.move fun lcnt calls more => ?_⟩
  · exact w.rep.congr rfl rfl fun _ _ => ⟨rfl, fun _ _ => rfl⟩
  · simp [versionTurn, node_of live, more, goes, run]

end SonicUtils.Radix
