import SonicUtils.Radix.Deferral
import SonicUtils.Radix.Standing

/-!
# Where a removal leaves a version walk

A walk that removes the marked nodes on its way up goes on from a node that is still
there. What is marked above the removed node is above the place where it goes on.

* `Underway.reap`: one removal;
* `climb_spec`: the loop at the end of `std_radix_versionwalk`.
-/

namespace SonicUtils.Radix

open PtrTree BitTrie Loop

variable {m m' : Rtt} {rth : HeadId} {n : RtNode} {i : NodeId} {fs : List (Frame (Node NodeId HeadId))}
  {x y z : Node NodeId HeadId} {l r s t t' : RtTree} {ret : Option NodeId} {dir : Option WalkDir}

/-- A table between two calls of the callback of the only walk in progress. -/
structure Underway (m : Rtt) (t : RtTree) : Prop extends Standing m t where
  free : Lockfree m
  rmfree : m.rttRmfree = true

/-- The removal of the head of `y` is pending. -/
def Pends (m : Rtt) (y : Node NodeId HeadId) : Prop :=
  y.2.val ≠ none ∧ ∃ n, m.nodes y.1 = some n ∧ n.marked = true

/-! ## The place -/

/-- From below `fs` in `t` the walk goes to the node `i` of `t'`. What is left of the
nodes of `fs` is above `i`, or is `i` unless the walk goes down from there. -/
def Lands (fs : List (Frame (Node NodeId HeadId))) (t t' : RtTree) (dir : Option WalkDir) (i : NodeId) : Prop :=
  ∃ gs z l r, t' = plug gs (.node z l r) ∧ z.1 = i ∧
    gs.length + (nodes t').length < fs.length + (nodes t).length ∧
    ∀ f ∈ fs, f.node.2.val ≠ none → f.node.2.stem <+: z.2.stem ∧ (dir = some .walkDown → f.node ≠ z)

theorem nearest_above {f g : Frame (Node NodeId HeadId)} (above : TrieAbove (f :: fs)) (hg : g ∈ f :: fs) :
    g.node.2.stem <+: f.node.2.stem := by
  rcases List.mem_cons.mp hg with rfl | hg
  · exact List.prefix_refl _
  · obtain ⟨stem, _, _, rest⟩ := above
    exact ((List.prefix_append _ _).trans (rest.frame hg).1).trans stem

theorem length_nodes_plug : (nodes (plug fs t)).length = (nodes t).length + (nodesAbove fs).length := by
  rw [(nodes_plug fs t).length_eq, List.length_append]

/-- To the node above. -/
theorem lands_up (above : TrieAbove fs) (up_ : up fs = some i) (fewer : (nodes s).length ≤ (nodes t).length)
    (ne : dir ≠ some .walkDown) : Lands fs (plug fs t) (plug fs s) dir i := by
  cases fs with
  | nil => cases up_
  | cons f fs =>
    obtain ⟨l, r, fill⟩ := exists_fill f s
    obtain rfl : f.node.1 = i := Option.some.inj up_
    refine ⟨fs, f.node, l, r, by rw [plug_cons, fill], rfl, ?_, fun g hg _ => ?_⟩
    · rw [length_nodes_plug, length_nodes_plug, List.length_cons]
      omega
    · exact ⟨nearest_above above hg, fun down => absurd down ne⟩

/-- To the root of what has come up to the place. -/
theorem lands_down {q : List Bool} (above : TrieAbove fs) (trie : Trie q s) (root_ : root s = some i)
    (stem : stemAbove fs <+: q) (fewer : (nodes s).length < (nodes t).length) :
    Lands fs (plug fs t) (plug fs s) dir i := by
  cases s with
  | nil => cases root_
  | node z l r =>
    obtain rfl : z.1 = i := Option.some.inj root_
    refine ⟨fs, z, l, r, rfl, rfl, ?_, fun f hf _ => ?_⟩
    · rw [length_nodes_plug, length_nodes_plug]
      omega
    · have way := ((above.frame hf).1.trans stem).trans trie.1
      refine ⟨(List.prefix_append _ _).trans way, fun _ same => ?_⟩
      rw [same] at way
      exact not_beyond _ way

theorem Departure.lands (departure : Departure fs x l r ret dir t') (trie : Trie [] (plug fs (.node x l r)))
    (here : ret = some i) : Lands fs (plug fs (.node x l r)) t' dir i := by
  obtain ⟨⟨stem, _, left, right⟩, above, _⟩ := trie_plug.mp trie
  cases departure with
  | branching => exact lands_up above here (by simp) (by simp)
  | root top => cases here
  | leaf f fs' top head =>
    subst top
    exact lands_up above here (by simp) (by cases f.side <;> simp)
  | leafAndParent f fs' top bare =>
    subst top
    obtain ⟨way, _, other, above'⟩ := above
    have part : Lands fs' (plug fs' (f.fill (.node x .nil .nil))) (plug fs' f.other)
        (some (if f.side then .walkRight else .walkDown)) i := by
      have fewer : (nodes f.other).length < (nodes (f.fill (.node x .nil .nil))).length := by
        rw [(nodes_fill f _).length_eq]
        simp
      cases side : f.side with
      | true =>
        rw [side, if_pos rfl] at here
        exact lands_up above' here fewer.le (by simp)
      | false =>
        rw [side, if_neg (by simp)] at here
        exact lands_down above' other here (way.trans (List.prefix_append _ _)) fewer
    obtain ⟨gs, z, zl, zr, place, at_, less, up_⟩ := part
    refine ⟨gs, z, zl, zr, place, at_, ?_, fun g hg head => ?_⟩
    · rw [plug_cons, List.length_cons]
      omega
    · rcases List.mem_cons.mp hg with rfl | hg
      · exact absurd bare head
      · exact up_ g hg head
  | onlyLeft l full =>
    exact lands_up above here (by simp) (by simp)
  | onlyRight r full =>
    exact lands_down above right here (stem.trans (List.prefix_append _ _)) (by simp)

/-! ## The removal -/

/-- A removal at `x`: where the walk goes on, and what is left of the nodes, of the
removals that are pending and of the memory. -/
structure Reaped (m m' : Rtt) (fs : List (Frame (Node NodeId HeadId))) (x : Node NodeId HeadId) (l r t' : RtTree)
    (ret : Option NodeId) (dir : Option WalkDir) : Prop where
  underway : Underway m' t'
  lands : ∀ i, ret = some i → Lands fs (plug fs (.node x l r)) t' dir i
  pends : ∀ y ∈ nodes t', Pends m' y → y ∈ nodes (plug fs (.node x l r)) ∧ y ≠ x ∧ Pends m y
  below : ∀ z ∈ nodes (plug fs (.node x l r)), (x.2.val ≠ none → z ∈ nodes l ∨ z ∈ nodes r) → z ∈ nodes t'
  freed : ∀ i, m.nodes i = none → m'.nodes i = none
  gone : x.2.val ≠ none → l = .nil → m'.nodes x.1 = none

theorem Departure.below (departure : Departure fs x l r ret dir t') (hz : z ∈ nodes l ∨ z ∈ nodes r) :
    z ∈ nodes t' := by
  cases departure with
  | branching => exact mem_nodes_plug.mpr (.inl (by simp [hz]))
  | root => simp at hz
  | leaf => simp at hz
  | leafAndParent => simp at hz
  | onlyLeft => exact mem_nodes_plug.mpr (.inl (by simpa using hz))
  | onlyRight => exact mem_nodes_plug.mpr (.inl (by simpa using hz))

/-- The nodes with a head that are left have been there before. -/
theorem Departure.fewer (departure : Departure fs x l r ret dir t') (hy : y ∈ nodes t') (head : y.2.val ≠ none) :
    y ∈ nodes l ∨ y ∈ nodes r ∨ y ∈ nodesAbove fs := by
  cases departure with
  | branching =>
    rcases mem_nodes_plug.mp hy with inside | above
    · simp only [nodes_node, List.mem_cons, List.mem_append] at inside
      rcases inside with rfl | inl | inr
      · exact absurd rfl head
      · exact .inl inl
      · exact .inr (.inl inr)
    · exact .inr (.inr above)
  | root => simp at hy
  | leaf => exact .inr (.inr (by simpa [mem_nodes_plug] using hy))
  | leafAndParent f fs' top =>
    subst top
    have place := mem_nodes_plug.mp hy
    refine .inr (.inr ?_)
    rw [nodesAbove_cons, List.mem_cons, List.mem_append]
    exact .inr place
  | onlyLeft => exact (mem_nodes_plug.mp hy).imp_right .inr
  | onlyRight => exact .inr (mem_nodes_plug.mp hy)

theorem mem_around (h : y ∈ nodes l ∨ y ∈ nodes r ∨ y ∈ nodesAbove fs) : y ∈ nodes (plug fs (.node x l r)) := by
  rw [mem_nodes_plug, nodes_node, List.mem_cons, List.mem_append]
  tauto

theorem Underway.dropRoute (u : Underway m t) : Underway m.dropRoute t :=
  ⟨⟨u.rep.congr rfl rfl fun _ _ => ⟨rfl, fun _ _ => rfl⟩, ⟨u.ready.magic, u.ready.fits⟩, u.guarded, u.full⟩,
    u.free, u.rmfree⟩

theorem Underway.mark (u : Underway m t) (live : m.nodes x.1 = some n) : Underway (markedBy m x n) t := by
  have counted : Standing m.countRemove t := u.toStanding.congr (.of_heads (fun _ _ => rfl) rfl)
  have live' : m.countRemove.nodes x.1 = some n := live
  refine ⟨counted.touch live' (fun n => { n with rtnFlags := n.rtnFlags ||| deleBit }) ?_ fun _ calm => calm, ?_,
    u.rmfree⟩
  · exact fun a k lab holds => holds.marks _ _ _
  · intro j a here
    rw [markedBy, nodes_setNode] at here
    split at here
    · obtain rfl := Option.some.inj here
      exact u.free x.1 n live
    · exact u.free j a here

/-- **A removal** of a marked node. -/
theorem Underway.reap (u : Underway m (plug fs (.node x l r))) :
    ∃ ret dir m' t', stdRadixRemoveNode m x.1 = .ok (ret, dir, m') ∧ Reaped m m' fs x l r t' ret dir := by
  obtain ⟨⟨n, live, holds⟩, _⟩ := holds_at u.rep.linked
  have trie := u.rep.trie
  obtain ⟨⟨_, two, _⟩, above, _⟩ := trie_plug.mp trie
  cases val : x.2.val with
  | none =>
    obtain ⟨left, right⟩ := two val
    have run := removeNode_headless live (u.free x.1 n live) holds val left right
    refine ⟨_, _, _, _, run, u.dropRoute, fun i here => lands_up above here (by simp) (by simp), ?_, ?_, ?_, ?_⟩
    · rintro y hy ⟨head, marked⟩
      refine ⟨hy, ?_, head, marked⟩
      rintro rfl
      exact head val
    · exact fun z hz _ => hz
    · exact fun i free => free
    · exact fun head => absurd val head
  | some h =>
    obtain ⟨ret, dir, m', t', run, departure, removed⟩ := removeNode_spec u.rep (u.free x.1) u.guarded val
    have locks : Footprint RtNode.rtnLock ∅ ∅ m m' := (footprint_removeNode linkless_lock).of_ok _ run
    have flags : Footprint RtNode.rtnFlags ∅ ∅ m m' := (footprint_removeNode linkless_flags).of_ok _ run
    have standing : Standing m' t' := ⟨removed.rep, u.ready.of_still removed.still,
      (guarded_remove u.guarded).of_ok _ run, fun i live => departure.full u.toStanding run live⟩
    have calm : Lockfree m' := by
      intro j a here
      rcases locks.nodes j a here with none | ⟨b, old, same⟩
      · exact none.elim
      · exact same.trans (u.free j b old)
    refine ⟨ret, dir, m', t', run, ⟨standing, calm, removed.still.setup.rmfree.trans u.rmfree⟩,
      fun i here => departure.lands trie here, ?_, ?_, ?_, ?_⟩
    · rintro y hy ⟨head, a, here, marked⟩
      have around := departure.fewer hy head
      refine ⟨mem_around around, fun same => ?_, head, ?_⟩
      · exact others_apart u.rep.distinct around (congrArg Prod.fst same)
      · rcases flags.nodes y.1 a here with none | ⟨b, old, same⟩
        · exact none.elim
        · exact ⟨b, old, by rw [RtNode.marked, ← same]; exact marked⟩
    · exact fun z _ inside => departure.below (inside (by simp [val]))
    · exact fun i free => (freed_removeNode free).of_ok _ run
    · rintro _ rfl
      have left : n.rtnLeft = none := holds.left
      have freed := (@freed_remove m x.1 n n x.1 live).of_ok _ run
      rcases freed with ⟨full, _⟩ | ⟨none, _⟩
      · exact absurd left full
      · exact none

/-! ## The loop at the end -/

/-- What is pending is above `z`. -/
def Shielded (m : Rtt) (t : RtTree) (z : Node NodeId HeadId) : Prop :=
  ∀ y ∈ nodes t, Pends m y → y.2.stem <+: z.2.stem ∧ y ≠ z

theorem Reaped.shielded (h : Reaped m m' fs x l r t' ret dir) (live : m.nodes x.1 = some n) (marked : n.marked = true)
    (trie : Trie [] (plug fs (.node x l r))) (hz : z ∈ nodes (plug fs (.node x l r)))
    (shield : Shielded m (plug fs (.node x l r)) z) : z ∈ nodes t' ∧ Shielded m' t' z := by
  refine ⟨h.below z hz fun head => ?_, fun y hy pending => ?_⟩
  · obtain ⟨ext, apart⟩ := shield x (mem_nodes_plug.mpr (.inl (by simp))) ⟨head, n, live, marked⟩
    have inside := below_of_extends trie hz ext
    simpa [apart.symm] using inside
  · obtain ⟨old, _, pending'⟩ := h.pends y hy pending
    exact shield y old pending'

/-- **The loop at the end** comes to its end. It keeps what is below all that is pending. -/
theorem climb_spec (u : Underway m (plug fs (.node x l r))) :
    ∃ m' t', Ends .noReturn versionClimbTurn (some x.1, m) m' ∧ Underway m' t' ∧
      (∀ z ∈ nodes (plug fs (.node x l r)), Shielded m (plug fs (.node x l r)) z → z ∈ nodes t') ∧
      ∀ i, m.nodes i = none → m'.nodes i = none := by
  -- a turn goes up, or leaves fewer nodes
  obtain ⟨k, size⟩ : ∃ k, fs.length + (nodes (plug fs (.node x l r))).length < k := ⟨_, Nat.lt_succ_self _⟩
  induction k generalizing m fs x l r with
  | zero => omega
  | succ k ih =>
    obtain ⟨⟨n, live, holds⟩, _⟩ := holds_at u.rep.linked
    cases goes : n.removable with
    | false =>
      have turn : versionClimbTurn (some x.1, m) = .ok (.inl (up fs, m)) := by
        simp [versionClimbTurn, node_of live, goes, holds.parent]
      cases fs with
      | nil => exact ⟨m, _, .head turn (.done rfl), u, fun z hz _ => hz, fun i free => free⟩
      | cons f fs =>
        obtain ⟨l', r', fill⟩ := exists_fill f (.node x l r)
        rw [plug_cons, fill] at u size ⊢
        rw [List.length_cons] at size
        obtain ⟨m', t', ends, rest⟩ := ih u (by omega)
        exact ⟨m', t', .head turn ends, rest⟩
    | true =>
      have marked : n.marked = true := (Bool.and_eq_true_iff.mp goes).2
      obtain ⟨ret, dir, m₁, t₁, run, reaped⟩ := u.reap
      have turn : versionClimbTurn (some x.1, m) = .ok (.inl (ret, m₁)) := by
        simp [versionClimbTurn, node_of live, goes, run]
      have shields {z : Node NodeId HeadId} (hz : z ∈ nodes (plug fs (.node x l r)))
          (shield : Shielded m (plug fs (.node x l r)) z) : z ∈ nodes t₁ ∧ Shielded m₁ t₁ z :=
        reaped.shielded live marked u.rep.trie hz shield
      cases ret with
      | none =>
        exact ⟨m₁, t₁, .head turn (.done rfl), reaped.underway, fun z hz shield => (shields hz shield).1,
          reaped.freed⟩
      | some i =>
        obtain ⟨gs, y, yl, yr, rfl, rfl, less, _⟩ := reaped.lands i rfl
        obtain ⟨m', t', ends, u', keeps, freed⟩ := ih reaped.underway (by omega)
        refine ⟨m', t', .head turn ends, u', fun z hz shield => ?_, fun j free => freed j (reaped.freed j free)⟩
        obtain ⟨hz', shield'⟩ := shields hz shield
        exact keeps z hz' shield'

/-- From a node that is marked and has no left child, the loop frees the node. -/
theorem climb_frees (u : Underway m (plug fs (.node x .nil r))) (live : m.nodes x.1 = some n)
    (marked : n.marked = true) (head : x.2.val ≠ none) :
    ∃ m', Ends .noReturn versionClimbTurn (some x.1, m) m' ∧ m'.nodes x.1 = none := by
  have goes : n.removable = true := by simp [RtNode.removable, marked, u.free x.1 n live]
  obtain ⟨ret, dir, m₁, t₁, run, reaped⟩ := u.reap
  have turn : versionClimbTurn (some x.1, m) = .ok (.inl (ret, m₁)) := by
    simp [versionClimbTurn, node_of live, goes, run]
  have gone := reaped.gone head rfl
  cases ret with
  | none => exact ⟨m₁, .head turn (.done rfl), gone⟩
  | some i =>
    obtain ⟨gs, y, yl, yr, rfl, rfl, _⟩ := reaped.lands i rfl
    obtain ⟨m', _, ends, _, _, freed⟩ := climb_spec reaped.underway
    exact ⟨m', .head turn ends, freed x.1 gone⟩

end SonicUtils.Radix
