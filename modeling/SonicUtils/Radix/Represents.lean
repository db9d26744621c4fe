import SonicUtils.Lib.BitTrie
import SonicUtils.Radix.Update

/-!
# The trie that a radix table stores

`Represents rtt t`: the nodes of the table are linked as the trie `t`, whose
stems are the prefixes that the nodes stand for. The loops of the table are
then moves in `t`.

* `descend_spec`, `climbWhile_spec`, `climbRight_spec`: the loops;
* `Represents.depth`: none of them runs out of fuel.
-/

namespace SonicUtils.Radix

open PtrTree BitTrie

abbrev RtTree := BinaryTree (Node NodeId HeadId)

/-- The head is attached to the node, with a key that starts with `stem`. -/
def Rtt.Attached (rtt : Rtt) (rth : HeadId) (rtn : NodeId) (stem : List Bool) : Prop :=
  (rtt.heads rth).rthRtn = some rtn ∧
    ∃ ap, (rtt.heads rth).rdxRthAddr = some ap ∧ ap.bits stem.length = stem

/-- The fields of a node, but for its flags, lock and version. -/
structure RtNode.Holds (n : RtNode) (k : Links NodeId) (lab : Label HeadId) : Prop where
  left : n.rtnLeft = k.left
  right : n.rtnRight = k.right
  parent : n.rtnParent = k.parent
  bit : n.rtnBit = lab.stem.length
  tbit : n.rtnTbit = rnBit lab.stem.length
  rth : n.rtnRth = lab.val

/-- Locks, flags and versions say nothing about the trie. -/
theorem RtNode.Holds.marks {n : RtNode} {k : Links NodeId} {lab : Label HeadId} (holds : n.Holds k lab)
    (flags lock : UInt8) (version : Version) :
    RtNode.Holds { n with rtnFlags := flags, rtnLock := lock, rtnVersion := version } k lab :=
  ⟨holds.left, holds.right, holds.parent, holds.bit, holds.tbit, holds.rth⟩

def Rtt.mem (rtt : Rtt) : Mem NodeId (Label HeadId) := fun rtn k lab =>
  (∃ n, rtt.nodes rtn = some n ∧ n.Holds k lab) ∧
    ∀ rth, lab.val = some rth → rtt.Attached rth rtn lab.stem

structure Represents (rtt : Rtt) (t : RtTree) : Prop where
  root : rtt.rttRoot = root t
  linked : Linked rtt.mem none t
  distinct : (ids t).Nodup
  trie : Trie [] t
  bounded : ∀ x ∈ nodes t, x.2.stem.length ≤ rtt.rttMaxaddrlen

/-- No walk is in progress and no removal pending. -/
def Unlocked (rtt : Rtt) : Prop :=
  ∀ i n, rtt.nodes i = some n → n.rtnLock = 0 ∧ n.rtnFlags = 0

/-- A table at rest, with no head on the change list. Its keys are used as they
are, and they are not so long that `dbit` wraps. -/
structure Settled (rtt : Rtt) : Prop where
  magic : rtt.rttMagic = rdxMagic
  convert : rtt.rttConvert = none
  fits : rtt.rttMaxaddrlen ≤ 65528
  unlocked : Unlocked rtt
  unlisted : ∀ rth, rtt.rttClhead.islinked (.item rth) = false

/-- A table whose nodes may be locked and marked, and its heads on the change list. -/
structure Ready (rtt : Rtt) : Prop where
  magic : rtt.rttMagic = rdxMagic
  fits : rtt.rttMaxaddrlen ≤ 65528

theorem Settled.ready {rtt : Rtt} (s : Settled rtt) : Ready rtt :=
  ⟨s.magic, s.fits⟩

theorem node_of {rtt : Rtt} {rtn : NodeId} {n : RtNode} (h : rtt.nodes rtn = some n) :
    rtt.node rtn = .ok n := by
  simp [Rtt.node, h]

theorem bit_of_holds {n : RtNode} {k : Links NodeId} {lab : Label HeadId} (h : n.Holds k lab)
    (ap : Addr) : bitTest (ap (rnByte n.rtnBit)) n.rtnTbit = ap.bit lab.stem.length := by
  rw [h.bit, h.tbit, Addr.bit]

/-- What the table holds at a node of its trie. -/
theorem holds_at {rtt : Rtt} {fs : List (Frame (Node NodeId HeadId))} {x : Node NodeId HeadId}
    {l r : RtTree} (linked : Linked rtt.mem none (plug fs (.node x l r))) :
    (∃ n, rtt.nodes x.1 = some n ∧ n.Holds ⟨root l, root r, up fs⟩ x.2) ∧
      ∀ rth, x.2.val = some rth → rtt.Attached rth x.1 x.2.stem :=
  (linked_plug.mp linked).1.1

/-- The node of the head is marked. -/
def Rtt.pending (rtt : Rtt) (rth : HeadId) : Bool :=
  match (rtt.heads rth).rthRtn with
  | none => false
  | some rtn => (rtt.nodes rtn).any RtNode.marked

theorem pending_of {rtt : Rtt} {rth : HeadId} {rtn : NodeId} {n : RtNode}
    (place : (rtt.heads rth).rthRtn = some rtn) (live : rtt.nodes rtn = some n) :
    rtt.pending rth = n.marked := by
  simp [Rtt.pending, place, live]

/-- A head is bound to one prefix. -/
theorem Represents.one_key {rtt : Rtt} {t : RtTree} (h : Represents rtt t) {k k' : List Bool}
    {rth : HeadId} (hk : (k, rth) ∈ entries t) (hk' : (k', rth) ∈ entries t) : k = k' := by
  obtain ⟨x, hx, own⟩ := mem_entries.mp hk
  obtain ⟨x', hx', own'⟩ := mem_entries.mp hk'
  obtain ⟨val, rfl⟩ := mem_own.mp own
  obtain ⟨val', rfl⟩ := mem_own.mp own'
  obtain ⟨_, _, att⟩ := h.linked.holds hx
  obtain ⟨_, _, att'⟩ := h.linked.holds hx'
  have place := (att rth val).1
  rw [(att' rth val').1] at place
  rw [List.inj_on_of_nodup_map h.distinct hx' hx (Option.some.inj place)]

/-! ## Depth -/

theorem Represents.depth {rtt : Rtt} {t : RtTree} (h : Represents rtt t) (ready : Ready rtt) :
    t.height < Rtt.pathFuel := by
  have short := h.trie.height_le h.bounded (by simp)
  have fits := ready.fits
  simp only [List.length_nil] at short
  unfold Rtt.pathFuel
  omega

/-! ## Searches down -/

/-- Where a search from `t` below `fs` ends: at the root of `.node x l r`. -/
structure Descent (ap : Addr) (go : Label HeadId → Bool) (fs : List (Frame (Node NodeId HeadId)))
    (t : RtTree) (fs' : List (Frame (Node NodeId HeadId))) (x : Node NodeId HeadId)
    (l r : RtTree) : Prop where
  same : plug fs' (.node x l r) = plug fs t
  follows : Follows ap.bit fs → Follows ap.bit fs'
  passed : ∀ f ∈ fs', f ∈ fs ∨ go f.node.2 = true
  stopped : go x.2 = false ∨ (if ap.bit x.2.stem.length then r else l) = .nil

/-- One turn of a search: it stops, or goes on below the side that the key takes. -/
theorem descend_turn {rtt : Rtt} (ap : Addr) {more : RtNode → Bool} {go : Label HeadId → Bool}
    (reads : ∀ n k lab, RtNode.Holds n k lab → more n = go lab) (fuel : Nat)
    {fs : List (Frame (Node NodeId HeadId))} {x : Node NodeId HeadId} {l r : RtTree}
    (linked : Linked rtt.mem none (plug fs (.node x l r))) :
    rtt.descend ap more (fuel + 1) x.1 =
      if go x.2 then
        match root (if ap.bit x.2.stem.length then r else l) with
        | none => .ok x.1
        | some child => rtt.descend ap more fuel child
      else .ok x.1 := by
  obtain ⟨⟨n, live, holds⟩, _⟩ := holds_at linked
  simp only [Rtt.descend, node_of live, reads _ _ _ holds, ok_bind, bit_of_holds holds, holds.left,
    holds.right, pure_eq_ok]
  cases go x.2 with
  | false => rfl
  | true =>
    cases ap.bit x.2.stem.length with
    | false => cases l <;> rfl
    | true => cases r <;> rfl

theorem descend_spec {rtt : Rtt} (ap : Addr) (more : RtNode → Bool) (go : Label HeadId → Bool)
    (reads : ∀ n k lab, RtNode.Holds n k lab → more n = go lab) (fuel : Nat)
    (fs : List (Frame (Node NodeId HeadId))) (x : Node NodeId HeadId) (l r : RtTree)
    (linked : Linked rtt.mem none (plug fs (.node x l r)))
    (enough : (BinaryTree.node x l r).height ≤ fuel) :
    ∃ fs' x' l' r', rtt.descend ap more fuel x.1 = .ok x'.1 ∧
      Descent ap go fs (.node x l r) fs' x' l' r' := by
  induction fuel generalizing fs x l r with
  | zero => simp at enough
  | succ fuel ih =>
    have turn := descend_turn ap reads fuel linked
    have here (stop : go x.2 = false ∨ (if ap.bit x.2.stem.length then r else l) = .nil) :
        Descent ap go fs (.node x l r) fs x l r :=
      ⟨rfl, id, fun f hf => .inl hf, stop⟩
    cases hgo : go x.2 with
    | false => exact ⟨fs, x, l, r, by simpa [hgo] using turn, here (.inl hgo)⟩
    | true =>
      let f : Frame (Node NodeId HeadId) :=
        ⟨ap.bit x.2.stem.length, x, if ap.bit x.2.stem.length then l else r⟩
      cases child : (if ap.bit x.2.stem.length then r else l) with
      | nil => exact ⟨fs, x, l, r, by simpa [hgo, child] using turn, here (.inr child)⟩
      | node y yl yr =>
        have fill : f.fill (.node y yl yr) = .node x l r := by
          rw [← child]
          simp only [f, Frame.fill]
          cases ap.bit x.2.stem.length <;> rfl
        have room : (BinaryTree.node y yl yr).height ≤ fuel := by
          rw [← child]
          simp only [BinaryTree.height] at enough
          split <;> omega
        obtain ⟨fs', x', l', r', run, same, follows, passed, stopped⟩ :=
          ih (f :: fs) y yl yr (by rwa [plug_cons, fill]) room
        refine ⟨fs', x', l', r', ?_, same.trans (by rw [plug_cons, fill]), ?_, ?_, stopped⟩
        · simpa [hgo, child, run] using turn
        · intro way
          exact follows (List.forall_mem_cons.mpr ⟨rfl, way⟩)
        · intro g hg
          rcases passed g hg with old | went
          · rcases List.mem_cons.mp old with rfl | old
            · exact .inr hgo
            · exact .inl old
          · exact .inr went

/-! ## Climbs -/

/-- The node of a frame, with its parent pointer. -/
theorem holds_above {rtt : Rtt} {f : Frame (Node NodeId HeadId)}
    {fs : List (Frame (Node NodeId HeadId))} {t : RtTree}
    (linked : Linked rtt.mem none (plug (f :: fs) t)) :
    ∃ n, rtt.nodes f.node.1 = some n ∧ n.Holds (f.links (root t) (up fs)) f.node.2 :=
  (linked_plug.mp linked).2.1.1

/-- Whether a node is the left child of its parent says on which side of it we are. -/
theorem left_iff {rtt : Rtt} {f : Frame (Node NodeId HeadId)}
    {fs : List (Frame (Node NodeId HeadId))} {x : Node NodeId HeadId} {l r : RtTree}
    (rep : Represents rtt (plug (f :: fs) (.node x l r))) {p : RtNode}
    (holds : p.Holds (f.links (some x.1) (up fs)) f.node.2) :
    p.rtnLeft = some x.1 ↔ f.side = false := by
  have left := holds.left
  cases side : f.side with
  | false => simpa [Frame.links, side] using left
  | true =>
    simp only [Frame.links, side] at left
    simp only [left, Bool.true_eq_false, iff_false]
    intro same
    obtain ⟨y, hy, here⟩ := List.mem_map.mp (root_mem_ids same)
    exact others_apart rep.distinct (.inr (.inr (by simp [hy]))) here

theorem climbWhile_spec {rtt : Rtt} (above : RtNode → Bool) (past : Label HeadId → Bool)
    (reads : ∀ n k lab, RtNode.Holds n k lab → above n = past lab) (fuel : Nat)
    (fs : List (Frame (Node NodeId HeadId))) (x : Node NodeId HeadId) (l r : RtTree)
    (linked : Linked rtt.mem none (plug fs (.node x l r))) (enough : fs.length < fuel) :
    ∃ gs fs' x' l' r', fs = gs ++ fs' ∧ plug gs (.node x l r) = .node x' l' r' ∧
      rtt.climbWhile above fuel x.1 = .ok (x'.1, up fs') ∧
      (∀ g ∈ gs, past g.node.2 = true) ∧ (∀ f ∈ fs'.head?, past f.node.2 = false) := by
  induction fuel generalizing fs x l r with
  | zero => omega
  | succ fuel ih =>
    obtain ⟨⟨n, live, holds⟩, _⟩ := holds_at linked
    cases fs with
    | nil =>
      refine ⟨[], [], x, l, r, rfl, rfl, ?_, by simp, by simp⟩
      simp [Rtt.climbWhile, node_of live, holds.parent]
    | cons f fs =>
      obtain ⟨p, plive, pholds⟩ := holds_above linked
      cases hover : past f.node.2 with
      | false =>
        refine ⟨[], f :: fs, x, l, r, rfl, rfl, ?_, by simp, by simp [hover]⟩
        simp [Rtt.climbWhile, node_of live, holds.parent, node_of plive, reads _ _ _ pholds, hover]
      | true =>
        obtain ⟨y, l₁, r₁, fill⟩ : ∃ y l₁ r₁, f.fill (.node x l r) = .node y l₁ r₁ ∧ y = f.node := by
          cases f with
          | mk side z other => cases side <;> exact ⟨z, _, _, rfl, rfl⟩
        obtain ⟨fill, rfl⟩ := fill
        have linked' : Linked rtt.mem none (plug fs (.node f.node l₁ r₁)) := by
          rw [← fill]
          exact linked
        obtain ⟨gs, fs', x', l', r', split, place, run, passed, stop⟩ :=
          ih fs f.node l₁ r₁ linked' (by simpa using enough)
        refine ⟨f :: gs, fs', x', l', r', by rw [split]; rfl, ?_, ?_, ?_, stop⟩
        · rw [plug_cons, fill]
          exact place
        · simp [Rtt.climbWhile, node_of live, holds.parent, node_of plive, reads _ _ _ pholds,
            hover, run]
        · exact List.forall_mem_cons.mpr ⟨hover, passed⟩

end SonicUtils.Radix
