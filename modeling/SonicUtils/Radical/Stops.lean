import SonicUtils.Radical.Counters
import SonicUtils.Radix.Landing

/-!
# Where a version walk stops

A version walk that its callback or its count ends stops at the node of the last head,
or at its left child, and looks at that node once more when it has removed what is
marked from there up.

* `turn_spec`: a turn of the walk;
* `versionwalk_safe_iff`: when the walk reads no freed node.
-/

namespace SonicUtils.Radical.Acts

open Radix PtrTree BitTrie Loop Runs

variable {rtt m : Rtt} {t : RtTree} {walkFn : WalkFn} {minVer maxVer : Version} {w w' : Walk} {rth : HeadId}
  {i : NodeId} {n : RtNode} {fs : List (Frame (Node NodeId HeadId))} {x : Node NodeId HeadId} {l r : RtTree}
  {lcnt : UInt64} {calls : List HeadId}

/-- A callback that may remove the head that it is called with, and returns what it likes. -/
def OnlyRemoves (walkFn : WalkFn) : Prop :=
  ∀ rth m, ∃ stop, walkFn rth m = .ok (stop, m) ∨ walkFn rth m = (do return (stop, ← stdRadixRemove m rth))

/-- The next turn calls `walk_fn` for the head `rth` of the node `i`. -/
structure Calls (minVer maxVer : Version) (w : Walk) (i : NodeId) (n : RtNode) (rth : HeadId) : Prop where
  dir : w.dir = .walkDown
  rtn : w.rtn = some i
  live : w.rtt.nodes i = some n
  more : w.lcnt ≠ 0
  young : ¬ n.rtnVersion < minVer
  head : n.rtnRth = some rth
  range : inRange w.rtt minVer maxVer rth = true

/-- A call that ends the walk at a node without a left child leaves the node unmarked. -/
def Careful (walkFn : WalkFn) (minVer maxVer : Version) (w : Walk) : Prop :=
  ∀ i n rth stop m n', Calls minVer maxVer w i n rth → walkFn rth (w.rtt.setNode i (rnLock n)) = .ok (stop, m) →
    stop ≠ 0 ∨ w.lcnt = 1 → n.rtnLeft = none → m.nodes i = some n' → n'.marked = false

/-- No freed node is read, and the head that is returned is in a node of the table. -/
def Safe (c : Nat → Except Fault (Option HeadId × List HeadId × Rtt)) : Prop :=
  ∀ fuel, c fuel ≠ .error .freed ∧ ∀ h hs rtt', c fuel = .ok (some h, hs, rtt') → h ∈ rtt'.stored

/-! ## The call -/

/-- What a call leaves. The node of the head has been locked before it and is unlocked
after it. -/
structure Called (m m' : Rtt) (t : RtTree) (x : Node NodeId HeadId) (n a : RtNode) : Prop where
  underway : Underway m' t
  node : ∃ f, a = { rnLock n with rtnFlags := f } ∧ m'.nodes x.1 = some { n with rtnFlags := f }
  others : ∀ j, j ≠ x.1 → m'.nodes j = m.nodes j

theorem call_spec (u : Underway m t) (hx : x ∈ nodes t) (obeys : OnlyRemoves walkFn)
    (called : Calls minVer maxVer ⟨lcnt, .walkDown, some x.1, m, calls⟩ x.1 n rth) :
    ∃ stop m₁ a m', walkFn rth (m.setNode x.1 (rnLock n)) = .ok (stop, m₁) ∧ m₁.nodes x.1 = some a ∧
      Called m m' t x n a ∧
      versionVisit (some walkFn) minVer maxVer ⟨lcnt, .walkDown, some x.1, m, calls⟩ x.1 n =
        .ok ⟨if stop ≠ 0 then 0 else lcnt - 1, .walkDown, some x.1, m', calls ++ [rth]⟩ := by
  have live : m.nodes x.1 = some n := called.live
  have locked (m : Rtt) (n : RtNode) : (m.setNode x.1 n).nodes x.1 = some n := by
    rw [nodes_setNode, if_pos rfl]
  obtain ⟨stop, stays | goes⟩ := obeys rth (m.setNode x.1 (rnLock n))
  · have back : rnUnlock (rnLock n) = n := unlock_lock n.rtnFlags
    refine ⟨stop, _, _, m, stays, locked _ _, ⟨u, ⟨n.rtnFlags, rfl, live⟩, fun j _ => rfl⟩, ?_⟩
    rw [versionVisit_inRange called.head called.range]
    simp only [write_of _ live, ok_bind, Walk.call, stays, pure_eq_ok, write_of _ (locked m _), setNode_setNode, back,
      setNode_self live]
  · obtain ⟨_, ⟨n', live', holds⟩, att⟩ := u.rep.linked.holds hx
    obtain rfl := Option.some.inj (live.symm.trans live')
    have val : x.2.val = some rth := holds.rth.symm.trans called.head
    have place : ((m.setNode x.1 (rnLock n)).heads rth).rthRtn = some x.1 := (att rth val).1
    have held : (rnLock n).rtnLock ≠ 0 := by simp [rnLock, u.free x.1 n live]
    have run := remove_locked (m := m.setNode x.1 (rnLock n)) u.ready.magic u.rmfree place (locked _ _) held
    have there : (markedBy (m.setNode x.1 (rnLock n)) x (rnLock n)).nodes x.1 =
        some { rnLock n with rtnFlags := n.rtnFlags ||| deleBit } := locked _ _
    rw [run, ok_bind, pure_eq_ok] at goes
    refine ⟨stop, _, _, markedBy m x n, goes, there, ⟨u.mark live, ⟨_, rfl, locked _ _⟩, fun j other => ?_⟩, ?_⟩
    · rw [markedBy, nodes_setNode, if_neg other]
      rfl
    · rw [versionVisit_inRange called.head called.range]
      simp only [write_of _ live, ok_bind, Walk.call, goes, pure_eq_ok, write_of _ there, unlock_lock, markedBy_locked]

/-! ## The turn -/

/-- The walk stands at a node, and what is pending is above it, or is there unless the
walk goes down from there. -/
def Stands (m : Rtt) (t : RtTree) (p : Place) : Prop :=
  ∀ i, p.2 = some i → ∃ x ∈ nodes t, x.1 = i ∧
    ∀ y ∈ nodes t, Pends m y → y.2.stem <+: x.2.stem ∧ (p.1 = .walkDown → y ≠ x)

structure Proceeds (w : Walk) (t : RtTree) : Prop where
  underway : Underway w.rtt t
  stands : Stands w.rtt t (w.dir, w.rtn)

/-- The walk does not stand at a node whose removal is pending. -/
def Clear (w : Walk) (t : RtTree) : Prop := ∀ x ∈ nodes t, w.rtn = some x.1 → ¬ Pends w.rtt x

theorem stands_at {dir : WalkDir} (hx : x ∈ nodes t) (above : ∀ y ∈ nodes t, Pends m y → y.2.stem <+: x.2.stem)
    (ne : dir ≠ .walkDown) : Stands m t (dir, some x.1) := by
  intro i here
  exact ⟨x, hx, Option.some.inj here, fun y hy pending => ⟨above y hy pending, fun down => absurd down ne⟩⟩

/-- To a child, or else to where `dir` says. -/
theorem stands_enter {dir : WalkDir} {b : Bool} {s : RtTree} (trie : Trie (x.2.stem ++ [b]) s)
    (sub : ∀ z ∈ nodes s, z ∈ nodes t) (hx : x ∈ nodes t)
    (above : ∀ y ∈ nodes t, Pends m y → y.2.stem <+: x.2.stem) (ne : dir ≠ .walkDown) :
    Stands m t (enter s (dir, some x.1)) := by
  cases s with
  | nil => exact stands_at hx above ne
  | node z zl zr =>
    intro i here
    refine ⟨z, sub z (by simp), Option.some.inj here, fun y hy pending => ?_⟩
    have ext := above y hy pending
    refine ⟨ext.trans ((List.prefix_append _ _).trans trie.1), fun _ same => ?_⟩
    rw [same] at ext
    exact not_beyond b (trie.1.trans ext)

/-- A walk that goes down stands at a clear node. -/
theorem Proceeds.clear (h : Proceeds w t) (down : w.dir = .walkDown) : Clear w t := by
  intro x hx here pending
  obtain ⟨z, hz, same, apart⟩ := h.stands x.1 here
  have one : z = x := List.inj_on_of_nodup_map h.underway.rep.distinct hz hx same
  exact (apart x hx pending).2 down one.symm

theorem Proceeds.above (h : Proceeds w t) (hx : x ∈ nodes t) (here : w.rtn = some x.1) :
    ∀ y ∈ nodes t, Pends w.rtt y → y.2.stem <+: x.2.stem := by
  intro y hy pending
  obtain ⟨z, hz, same, up_⟩ := h.stands x.1 here
  obtain rfl : z = x := List.inj_on_of_nodup_map h.underway.rep.distinct hz hx same
  exact (up_ y hy pending).1

theorem Called.pends {m' : Rtt} {a : RtNode} (h : Called m m' t x n a) {y : Node NodeId HeadId} (hx : x ∈ nodes t)
    (hy : y ∈ nodes t) (pending : Pends m' y) : y = x ∨ Pends m y := by
  by_cases same : y.1 = x.1
  · exact .inl (List.inj_on_of_nodup_map h.underway.rep.distinct hy hx same)
  · obtain ⟨head, b, live, marked⟩ := pending
    exact .inr ⟨head, b, h.others y.1 same ▸ live, marked⟩

/-- What a turn leads to. -/
inductive Turned (walkFn : WalkFn) (minVer maxVer : Version) (w : Walk) (t : RtTree) : Walk ⊕ Walk → Prop
  | on {w' : Walk} {t' : RtTree} : Proceeds w' t' → (w'.lcnt = 0 → Careful walkFn minVer maxVer w → Clear w' t') →
      Turned walkFn minVer maxVer w t (.inl w')
  | finished : w.rtn = none ∨ w.lcnt = 0 → Turned walkFn minVer maxVer w t (.inr w)

theorem turn_down (obeys : OnlyRemoves walkFn)
    (h : Proceeds ⟨lcnt, .walkDown, some x.1, m, calls⟩ (plug fs (.node x l r))) (more : lcnt ≠ 0) :
    ∃ next, versionTurn (some walkFn) minVer maxVer ⟨lcnt, .walkDown, some x.1, m, calls⟩ = .ok next ∧
      Turned walkFn minVer maxVer ⟨lcnt, .walkDown, some x.1, m, calls⟩ (plug fs (.node x l r)) next := by
  have u : Underway m (plug fs (.node x l r)) := h.underway
  have hx : x ∈ nodes (plug fs (.node x l r)) := mem_nodes_plug.mpr (.inl (by simp))
  obtain ⟨⟨n, live, holds⟩, _⟩ := holds_at u.rep.linked
  obtain ⟨⟨_, _, left, _⟩, _⟩ := trie_plug.mp u.rep.trie
  have inside : ∀ z ∈ nodes l, z ∈ nodes (plug fs (.node x l r)) :=
    fun z hz => mem_nodes_plug.mpr (.inl (by simp [hz]))
  have above := h.above hx rfl
  by_cases old : n.rtnVersion < minVer
  · have on : Proceeds ⟨lcnt, .walkUp, some x.1, m, calls⟩ (plug fs (.node x l r)) :=
      ⟨u, stands_at hx above (by simp)⟩
    refine ⟨_, ?_, .on on fun zero => absurd zero more⟩
    simp [versionTurn, node_of live, more, old]
  · by_cases called : ∃ rth, n.rtnRth = some rth ∧ inRange m minVer maxVer rth = true
    · obtain ⟨rth, head, range⟩ := called
      have calls_ : Calls minVer maxVer ⟨lcnt, .walkDown, some x.1, m, calls⟩ x.1 n rth :=
        ⟨rfl, rfl, live, more, old, head, range⟩
      obtain ⟨stop, m₁, a, m', answer, there, after, visit⟩ := call_spec u hx obeys calls_
      obtain ⟨f, rfl, live'⟩ := after.node
      have holds' : RtNode.Holds { n with rtnFlags := f } ⟨root l, root r, up fs⟩ x.2 :=
        holds.marks _ _ _
      have above' : ∀ y ∈ nodes (plug fs (.node x l r)), Pends m' y → y.2.stem <+: x.2.stem := by
        intro y hy pending
        rcases after.pends hx hy pending with rfl | before
        · exact List.prefix_refl _
        · exact above y hy before
      have on : Proceeds ⟨if stop ≠ 0 then 0 else lcnt - 1, (enter l (.walkRight, some x.1)).1,
          (enter l (.walkRight, some x.1)).2, m', calls ++ [rth]⟩ (plug fs (.node x l r)) :=
        ⟨after.underway, stands_enter left inside hx above' (by simp)⟩
      refine ⟨_, ?_, .on on fun zero careful => ?_⟩
      · simp only [versionTurn, node_of live, ok_bind, if_neg more, if_neg old, visit, node_of live',
          goDown_eq holds' rfl, pure_eq_ok]
      · cases l with
        | node z zl zr => exact on.clear rfl
        | nil =>
          rintro y hy here ⟨_, b, live'', marked⟩
          obtain rfl : x = y :=
            List.inj_on_of_nodup_map u.rep.distinct hx hy (Option.some.inj here)
          have last : stop ≠ 0 ∨ lcnt = 1 := by
            by_cases ended : stop ≠ 0
            · exact .inl ended
            · right
              have zero : lcnt - 1 = 0 := by simpa [ended] using zero
              exact sub_eq_zero.mp zero
          have unmarked := careful x.1 n rth stop m₁ _ calls_ answer last holds.left there
          obtain rfl := Option.some.inj (live'.symm.trans live'')
          exact Bool.false_ne_true (unmarked.symm.trans marked)
    · have unseen : versionVisit (some walkFn) minVer maxVer ⟨lcnt, .walkDown, some x.1, m, calls⟩ x.1 n =
          .ok ⟨lcnt, .walkDown, some x.1, m, calls⟩ := by
        apply versionVisit_unwanted holds.rth
        cases val : x.2.val with
        | none => rfl
        | some h =>
          have out : ¬ inRange m minVer maxVer h = true := fun range => called ⟨h, holds.rth.trans val, range⟩
          simp [out]
      have on : Proceeds ⟨lcnt, (enter l (.walkRight, some x.1)).1, (enter l (.walkRight, some x.1)).2, m, calls⟩
          (plug fs (.node x l r)) := ⟨u, stands_enter left inside hx above (by simp)⟩
      refine ⟨_, ?_, .on on fun zero => absurd zero more⟩
      simp only [versionTurn, node_of live, ok_bind, if_neg more, if_neg old, unseen, goDown_eq holds rfl, pure_eq_ok]

theorem turn_right (h : Proceeds ⟨lcnt, .walkRight, some x.1, m, calls⟩ (plug fs (.node x l r)))
    (more : lcnt ≠ 0) :
    ∃ next, versionTurn (some walkFn) minVer maxVer ⟨lcnt, .walkRight, some x.1, m, calls⟩ = .ok next ∧
      Turned walkFn minVer maxVer ⟨lcnt, .walkRight, some x.1, m, calls⟩ (plug fs (.node x l r)) next := by
  have u : Underway m (plug fs (.node x l r)) := h.underway
  have hx : x ∈ nodes (plug fs (.node x l r)) := mem_nodes_plug.mpr (.inl (by simp))
  obtain ⟨⟨n, live, holds⟩, _⟩ := holds_at u.rep.linked
  obtain ⟨⟨_, _, _, right⟩, _⟩ := trie_plug.mp u.rep.trie
  have inside : ∀ z ∈ nodes r, z ∈ nodes (plug fs (.node x l r)) :=
    fun z hz => mem_nodes_plug.mpr (.inl (by simp [hz]))
  have on : Proceeds ⟨lcnt, (enter r (.walkUp, some x.1)).1, (enter r (.walkUp, some x.1)).2, m, calls⟩
      (plug fs (.node x l r)) := ⟨u, stands_enter right inside hx (h.above hx rfl) (by simp)⟩
  refine ⟨_, ?_, .on on fun zero => absurd zero more⟩
  simp only [versionTurn, node_of live, ok_bind, if_neg more, goRight_eq holds rfl, pure_eq_ok]

theorem turn_up (h : Proceeds ⟨lcnt, .walkUp, some x.1, m, calls⟩ (plug fs (.node x l r)))
    (more : lcnt ≠ 0) :
    ∃ next, versionTurn (some walkFn) minVer maxVer ⟨lcnt, .walkUp, some x.1, m, calls⟩ = .ok next ∧
      Turned walkFn minVer maxVer ⟨lcnt, .walkUp, some x.1, m, calls⟩ (plug fs (.node x l r)) next := by
  have u : Underway m (plug fs (.node x l r)) := h.underway
  have hx : x ∈ nodes (plug fs (.node x l r)) := mem_nodes_plug.mpr (.inl (by simp))
  have trie := u.rep.trie
  obtain ⟨⟨n, live, holds⟩, _⟩ := holds_at u.rep.linked
  have above := h.above hx rfl
  cases goes : n.removable with
  | true =>
    obtain ⟨ret, dir, m', t', run, reaped⟩ := u.reap
    have stands : Stands m' t' (dir.getD .walkUp, ret) := by
      intro i here
      obtain ⟨gs, z, zl, zr, rfl, at_, _, passed⟩ := reaped.lands i here
      refine ⟨z, mem_nodes_plug.mpr (.inl (by simp)), at_, fun y hy pending => ?_⟩
      obtain ⟨old, apart, pending'⟩ := reaped.pends y hy pending
      obtain ⟨f, hf, rfl⟩ := (on_way trie old (above y old pending')).resolve_left apart
      obtain ⟨ext, lower⟩ := passed f hf pending.1
      refine ⟨ext, fun down => lower ?_⟩
      cases dir with
      | none => cases down
      | some d => exact congrArg some down
    have on : Proceeds ⟨lcnt, dir.getD .walkUp, ret, m', calls⟩ t' := ⟨reaped.underway, stands⟩
    refine ⟨_, ?_, .on on fun zero => absurd zero more⟩
    simp [versionTurn, node_of live, more, goes, run]
  | false =>
    have unmarked : ¬ n.marked = true := by
      intro marked
      simp [RtNode.removable, marked, u.free x.1 n live] at goes
    cases fs with
    | nil =>
      have parent : n.rtnParent = none := holds.parent
      have on : Proceeds ⟨lcnt, .walkUp, none, m, calls⟩ (plug [] (.node x l r)) := by
        refine ⟨u, fun i here => ?_⟩
        cases here
      refine ⟨_, ?_, .on on fun zero => absurd zero more⟩
      simp [versionTurn, node_of live, more, goes, parent]
    | cons f fs =>
      obtain ⟨p, plive, pholds⟩ := holds_above u.rep.linked
      have parent : n.rtnParent = some f.node.1 := holds.parent
      have hf : f.node ∈ nodes (plug (f :: fs) (.node x l r)) := mem_nodes_plug.mpr (.inr (by simp))
      have above' : ∀ y ∈ nodes (plug (f :: fs) (.node x l r)), Pends m y → y.2.stem <+: f.node.2.stem := by
        intro y hy pending
        have apart : y ≠ x := by
          rintro rfl
          obtain ⟨_, b, live', marked⟩ := pending
          obtain rfl := Option.some.inj (live.symm.trans live')
          exact unmarked marked
        obtain ⟨g, hg, rfl⟩ := (on_way trie hy (above y hy pending)).resolve_left apart
        exact nearest_above (trie_plug.mp trie).2.1 hg
      refine ⟨.inl ⟨lcnt, if p.rtnLeft = some x.1 then .walkRight else .walkUp, some f.node.1, m, calls⟩, ?_,
        .on ⟨u, stands_at hf above' ?_⟩ fun zero => absurd zero more⟩
      · simp [versionTurn, node_of live, more, goes, parent, node_of plive]
      · split <;> simp

/-- **A turn** of the walk. It reads no freed node. -/
theorem turn_spec (obeys : OnlyRemoves walkFn) (h : Proceeds w t) :
    ∃ next, versionTurn (some walkFn) minVer maxVer w = .ok next ∧ Turned walkFn minVer maxVer w t next := by
  obtain ⟨lcnt, dir, rtn, m, calls⟩ := w
  cases rtn with
  | none => exact ⟨_, rfl, .finished (.inl rfl)⟩
  | some i =>
    obtain ⟨x, hx, rfl, _⟩ := h.stands i rfl
    obtain ⟨fs, l, r, rfl⟩ := exists_plug hx
    have u : Underway m (plug fs (.node x l r)) := h.underway
    obtain ⟨⟨n, live, _⟩, _⟩ := holds_at u.rep.linked
    by_cases zero : lcnt = 0
    · refine ⟨_, ?_, .finished (.inr zero)⟩
      simp [versionTurn, node_of live, zero]
    · cases dir with
      | walkDown => exact turn_down obeys h zero
      | walkRight => exact turn_right h zero
      | walkUp => exact turn_up h zero

/-! ## The walk -/

theorem Proceeds.leads (obeys : OnlyRemoves walkFn) (run : Leads (versionTurn (some walkFn) minVer maxVer) w w')
    (h : Proceeds w t) : ∃ t', Proceeds w' t' := by
  induction run generalizing t with
  | refl => exact ⟨t, h⟩
  | head first _ ih =>
    obtain ⟨next, turn, turned⟩ := turn_spec obeys h
    rw [first] at turn
    cases turn
    cases turned with
    | on h' _ => exact ih h'

/-- A loop of careful turns comes, if it comes to an end, to a clear one. -/
theorem loop_spec (obeys : OnlyRemoves walkFn) (fuel : Nat) (h : Proceeds w t) (clear : w.lcnt = 0 → Clear w t)
    (careful : ∀ w', Leads (versionTurn (some walkFn) minVer maxVer) w w' → Careful walkFn minVer maxVer w') :
    Loop.loop .noReturn (versionTurn (some walkFn) minVer maxVer) fuel w = .error .noReturn ∨
      ∃ w' t', Loop.loop .noReturn (versionTurn (some walkFn) minVer maxVer) fuel w = .ok w' ∧ Proceeds w' t' ∧
        (w'.rtn = none ∨ Clear w' t') := by
  induction fuel generalizing w t with
  | zero => exact .inl rfl
  | succ fuel ih =>
    obtain ⟨next, turn, turned⟩ := turn_spec obeys h
    cases turned with
    | on h' clear' =>
      rw [loop_inl fuel turn]
      exact ih h' (fun zero => clear' zero (careful w (.refl w))) fun w' run => careful w' (.head turn run)
    | finished done =>
      rw [loop_inr fuel turn]
      exact .inr ⟨w, t, rfl, h, done.imp_right clear⟩

/-- No removal is pending. -/
def Calm (m : Rtt) : Prop := ∀ h ∈ m.stored, m.pending h = false

theorem Calm.not_pends (calm : Calm m) (u : Underway m t) {y : Node NodeId HeadId} (hy : y ∈ nodes t) :
    ¬ Pends m y := by
  rintro ⟨head, n, live, marked⟩
  obtain ⟨h, val⟩ := Option.ne_none_iff_exists'.mp head
  obtain ⟨_, ⟨n', live', holds⟩, att⟩ := u.rep.linked.holds hy
  obtain rfl := Option.some.inj (live.symm.trans live')
  have unmarked := calm h ⟨y.1, n, live, holds.rth.trans val⟩
  rw [pending_of (att h val).1 live] at unmarked
  exact Bool.false_ne_true (unmarked.symm.trans marked)

theorem start_proceeds (u : Underway rtt t) (calm : Calm rtt) {start : Option HeadId}
    (inTree : ∀ h, start = some h → h ∈ rtt.stored) {cnt : Int32} (begin_ : walkStart rtt start cnt = some w) :
    Proceeds w t ∧ w.lcnt ≠ 0 := by
  have clear (p : Place) (inside : ∀ i, p.2 = some i → i ∈ ids t) : Stands rtt t p := by
    intro i here
    obtain ⟨x, hx, at_⟩ := List.mem_map.mp (inside i here)
    exact ⟨x, hx, at_, fun y hy pending => absurd pending (calm.not_pends u hy)⟩
  unfold walkStart at begin_
  split at begin_
  · cases begin_
    refine ⟨⟨u, clear _ fun i here => ?_⟩, walkCount_ne_zero cnt⟩
    exact root_mem_ids (u.rep.root.symm.trans here)
  · rename_i h
    split at begin_
    · cases begin_
    · rename_i i place
      cases begin_
      refine ⟨⟨u, clear _ fun j here => ?_⟩, walkCount_ne_zero cnt⟩
      obtain ⟨k, n, live, head⟩ := inTree h rfl
      have same := (u.attached live head).1
      rw [place] at same
      cases same
      cases here
      exact u.full i (by simp [live])

/-- A walk that is careful all along. -/
theorem safe_of_careful (obeys : OnlyRemoves walkFn) (u : Underway rtt t) (calm : Calm rtt) {start : Option HeadId}
    (inTree : ∀ h, start = some h → h ∈ rtt.stored) {cnt : Int32}
    (careful : ∀ w₀ w, walkStart rtt start cnt = some w₀ →
      Leads (versionTurn (some walkFn) minVer maxVer) w₀ w → Careful walkFn minVer maxVer w) :
    Safe (stdRadixVersionwalk rtt start (some walkFn) cnt minVer maxVer) := by
  intro fuel
  unfold stdRadixVersionwalk
  rw [u.ready.validate, ok_bind]
  cases begin_ : walkStart rtt start cnt with
  | none => exact ⟨nofun, nofun⟩
  | some w₀ =>
    obtain ⟨h, more⟩ := start_proceeds u calm inTree begin_
    rcases loop_spec obeys fuel h (fun zero => absurd zero more) (fun w run => careful w₀ w begin_ run) with
      out | ⟨w, t', run, h', done⟩
    · simp only [out]
      exact ⟨nofun, nofun⟩
    · simp only [run, ok_bind]
      cases rtn : w.rtn with
      | none => exact ⟨nofun, nofun⟩
      | some i =>
        obtain ⟨x, hx, rfl, _⟩ := h'.stands i rtn
        have above := h'.above hx rtn
        have clear := done.resolve_left (by simp [rtn]) x hx rtn
        have shield : Shielded w.rtt t' x := by
          refine fun y hy pending => ⟨above y hy pending, ?_⟩
          rintro rfl
          exact clear pending
        obtain ⟨fs, l, r, rfl⟩ := exists_plug hx
        obtain ⟨m', t'', ends, u', keeps, _⟩ := climb_spec h'.underway
        rcases ends.cases fuel with back | out
        · obtain ⟨_, ⟨n, live, _⟩, _⟩ := u'.rep.linked.holds (keeps x hx shield)
          simp only [back, ok_bind, node_of live]
          refine ⟨nofun, fun h hs rtt' done => ?_⟩
          simp only [pure_eq_ok, Except.ok.injEq, Prod.mk.injEq] at done
          obtain ⟨head, _, rfl⟩ := done
          exact ⟨x.1, n, live, head⟩
        · simp only [out]
          exact ⟨nofun, nofun⟩

/-- A walk with a careless call frees the node that it stops at. -/
theorem freed_of_careless (obeys : OnlyRemoves walkFn) (u : Underway rtt t) (calm : Calm rtt) {start : Option HeadId}
    (inTree : ∀ h, start = some h → h ∈ rtt.stored) {cnt : Int32} {w₀ : Walk}
    (begin_ : walkStart rtt start cnt = some w₀) (run : Leads (versionTurn (some walkFn) minVer maxVer) w₀ w)
    (careless : ¬ Careful walkFn minVer maxVer w) :
    ∃ fuel, stdRadixVersionwalk rtt start (some walkFn) cnt minVer maxVer fuel = .error .freed := by
  simp only [Careful, not_forall] at careless
  obtain ⟨i, n, rth, stop, m₁, a, calls, answer, last, left, there, marked⟩ := careless
  obtain ⟨t', h⟩ := Proceeds.leads obeys run (start_proceeds u calm inTree begin_).1
  obtain ⟨lcnt, dir, rtn, m, seen⟩ := w
  obtain rfl : dir = .walkDown := calls.dir
  obtain rfl : rtn = some i := calls.rtn
  obtain ⟨x, hx, rfl, _⟩ := h.stands i rfl
  obtain ⟨stop', m₁', a', m', answer', there', after, visit⟩ := call_spec h.underway hx obeys calls
  cases answer.symm.trans answer'
  cases there.symm.trans there'
  obtain ⟨fs, l, r, rfl⟩ := exists_plug hx
  obtain ⟨⟨n', live, holds⟩, _⟩ := holds_at h.underway.rep.linked
  obtain rfl := Option.some.inj (calls.live.symm.trans live)
  obtain rfl : l = .nil := root_eq_none.mp (holds.left.symm.trans left)
  obtain ⟨f, rfl, live'⟩ := after.node
  have zero : (if stop ≠ 0 then 0 else lcnt - 1) = 0 := by
    by_cases ended : stop ≠ 0
    · rw [if_pos ended]
    · have one : lcnt = 1 := last.resolve_left ended
      rw [if_neg ended, one]
      rfl
  have turn : versionTurn (some walkFn) minVer maxVer ⟨lcnt, .walkDown, some x.1, m, seen⟩ =
      .ok (.inl ⟨0, .walkRight, some x.1, m', seen ++ [rth]⟩) := by
    have goes : Walk.goDown ⟨0, .walkDown, some x.1, m', seen ++ [rth]⟩ { n with rtnFlags := f } =
        ⟨0, .walkRight, some x.1, m', seen ++ [rth]⟩ := by simp [Walk.goDown, left]
    rw [zero] at visit
    simp only [versionTurn, node_of live, ok_bind, if_neg calls.more, if_neg calls.young, visit, node_of live', goes,
      pure_eq_ok]
  have stops : versionTurn (some walkFn) minVer maxVer ⟨0, .walkRight, some x.1, m', seen ++ [rth]⟩ =
      .ok (.inr ⟨0, .walkRight, some x.1, m', seen ++ [rth]⟩) := by simp [versionTurn, node_of live']
  obtain ⟨enough, main⟩ := run.ends (.head turn (.done stops))
  have head : x.2.val ≠ none := by
    rw [← holds.rth, calls.head]
    simp
  have marked' : RtNode.marked { n with rtnFlags := f } = true := by simpa [RtNode.marked] using marked
  obtain ⟨m'', ⟨enough', climb⟩, freed⟩ := climb_frees after.underway live' marked' head
  refine ⟨max enough enough', ?_⟩
  have done : Loop.loop .noReturn (versionTurn (some walkFn) minVer maxVer) (max enough enough') w₀ =
      .ok ⟨0, .walkRight, some x.1, m', seen ++ [rth]⟩ := main _ (Nat.le_max_left ..)
  have up_ : Loop.loop .noReturn versionClimbTurn (max enough enough') (some x.1, m') = .ok m'' :=
    climb _ (Nat.le_max_right ..)
  unfold stdRadixVersionwalk
  simp only [u.ready.validate, ok_bind, begin_, done, up_, Rtt.node, freed]
  rfl

/-- **A version walk reads no freed node** if and only if none of its calls that end it,
at a node without a left child, leaves the node marked. -/
theorem versionwalk_safe_iff {rtt₀ : Rtt} (made : Start rtt₀) {acts : List Act} (run : Run Step rtt₀ acts rtt)
    (free : Lockfree rtt) (calm : Calm rtt) (rmfree : rtt.rttRmfree = true) (obeys : OnlyRemoves walkFn)
    {start : Option HeadId} (inTree : ∀ h, start = some h → h ∈ rtt.stored) (cnt : Int32) (minVer maxVer : Version) :
    Safe (stdRadixVersionwalk rtt start (some walkFn) cnt minVer maxVer) ↔
      ∀ w₀ w, walkStart rtt start cnt = some w₀ →
        Leads (versionTurn (some walkFn) minVer maxVer) w₀ w → Careful walkFn minVer maxVer w := by
  obtain ⟨t, used⟩ := made.inUse.run run
  have u : Underway rtt t := ⟨used.toStanding, free, rmfree⟩
  constructor
  · intro safe w₀ w begin_ lead
    by_contra careless
    obtain ⟨fuel, freed⟩ := freed_of_careless obeys u calm inTree begin_ lead careless
    exact (safe fuel).1 freed
  · exact safe_of_careful obeys u calm inTree

theorem calm_default : Calm defaultTable := by
  have none_marked (i : NodeId) (n : RtNode) (live : defaultTable.nodes i = some n) : n.marked = false := by
    have flags := (versioned_default.stores.1.unlocked i n live).2
    rw [RtNode.marked, flags]
    rfl
  intro h _
  unfold Rtt.pending
  split
  · rfl
  · rename_i i _
    cases live : defaultTable.nodes i with
    | none => rfl
    | some n => exact none_marked i n live

theorem onlyRemoves_removing (R : HeadId → Bool) : OnlyRemoves (removing R) := by
  intro rth m
  refine ⟨0, ?_⟩
  unfold removing
  split
  · exact .inr rfl
  · exact .inl rfl

theorem versionwalk_safe_iff_default :
    Safe (stdRadixVersionwalk defaultTable none (some (removing fun _ => true)) 0 0 0) ↔
      ∀ w₀ w, walkStart defaultTable none 0 = some w₀ →
        Leads (versionTurn (some (removing fun _ => true)) 0 0) w₀ w → Careful (removing fun _ => true) 0 0 w :=
  have inTree : ∀ h, (none : Option HeadId) = some h → h ∈ defaultTable.stored := nofun
  versionwalk_safe_iff start_default (.snoc .nil step_default) resting_default.free calm_default rfl
    (onlyRemoves_removing _) inTree 0 0 0

/-! ## A walk that reads a freed node -/

/-- A callback that removes its head and ends the walk. -/
def removeAndStop : WalkFn := fun rth rtt => do return (1, ← stdRadixRemove rtt rth)

/-- The callback removes the default route, the only head, and ends the walk. -/
theorem walk_reads_freed :
    ¬ ∀ (rtt₀ rtt : Rtt) (acts : List Act) (walkFn : WalkFn) (start : Option HeadId) (cnt : Int32)
        (minVer maxVer : Version), Start rtt₀ → Run Step rtt₀ acts rtt → Lockfree rtt → Calm rtt →
      rtt.rttRmfree = true → OnlyRemoves walkFn → (∀ h, start = some h → h ∈ rtt.stored) →
      Safe (stdRadixVersionwalk rtt start (some walkFn) cnt minVer maxVer) := by
  intro claim
  have obeys : OnlyRemoves removeAndStop := fun rth m => ⟨1, .inr rfl⟩
  have safe := claim freshTable defaultTable _ removeAndStop none 0 0 0 start_default (.snoc .nil step_default)
    resting_default.free calm_default rfl obeys nofun
  have freed : stdRadixVersionwalk defaultTable none (some removeAndStop) 0 0 0 5 = .error .freed := rfl
  exact (safe 5).1 freed

end SonicUtils.Radical.Acts
