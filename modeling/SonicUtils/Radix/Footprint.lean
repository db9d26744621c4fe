import Mathlib.Data.Set.Operations
import SonicUtils.Radix.Memory

/-!
# What changes leave alone

An insertion adds at most the nodes that it is given, and of the other nodes it
keeps what is not a link, a head or a mark. A removal adds none. Neither gives a
head a version, but for an insertion that clears that of its own head.

* `change_insert`, `change_removeNode`: how each node changes;
* `footprint_insert`, `footprint_removeNode`: what of a node stays.
-/

namespace SonicUtils.Radix

variable {R : RtNode → RtNode → Prop} {N : NodeId → RtNode → Prop} {H : Set HeadId} {rtt m m' : Rtt}
  {i : NodeId}

/-- From `m` to `m'` nodes are added as `N` says, and the other ones change as `R` says.
Only heads in `H` may get another node, or lose their version. -/
structure Change (R : RtNode → RtNode → Prop) (N : NodeId → RtNode → Prop) (H : Set HeadId) (m m' : Rtt) :
    Prop where
  nodes : ∀ i n', m'.nodes i = some n' → N i n' ∨ ∃ n, m.nodes i = some n ∧ R n n'
  heads : ∀ h, (m'.heads h).rthVersion = (m.heads h).rthVersion ∨ h ∈ H ∧ (m'.heads h).rthVersion = 0
  places : ∀ h, h ∉ H → (m'.heads h).rthRtn = (m.heads h).rthRtn
  version : m'.rttVersion = m.rttVersion

/-- `R` and `N` allow for what the changes of a tree do to links. -/
structure Moves (R : RtNode → RtNode → Prop) (N : NodeId → RtNode → Prop) : Prop where
  refl : ∀ n, R n n
  trans : ∀ {a b c}, R a b → R b c → R a c
  keep : ∀ {i a b}, N i a → R a b → N i b
  left : ∀ n p, R n { n with rtnLeft := p }
  right : ∀ n p, R n { n with rtnRight := p }
  parent : ∀ n p, R n { n with rtnParent := p }

theorem Change.of_nodes (moves : Moves R N) (nodes : m'.nodes = m.nodes)
    (heads : ∀ h, (m'.heads h).rthVersion = (m.heads h).rthVersion ∨ h ∈ H ∧ (m'.heads h).rthVersion = 0)
    (places : ∀ h, h ∉ H → (m'.heads h).rthRtn = (m.heads h).rthRtn)
    (version : m'.rttVersion = m.rttVersion) : Change R N H m m' :=
  ⟨fun _ n live => .inr ⟨n, nodes ▸ live, moves.refl n⟩, heads, places, version⟩

/-- A change of counters and the like. -/
theorem Change.of_same (moves : Moves R N) (nodes : m'.nodes = m.nodes) (heads : m'.heads = m.heads)
    (version : m'.rttVersion = m.rttVersion) : Change R N H m m' :=
  .of_nodes moves nodes (fun _ => .inl (by rw [heads])) (fun _ _ => by rw [heads]) version

theorem Change.refl (moves : Moves R N) (m : Rtt) : Change R N H m m := .of_same moves rfl rfl rfl

theorem Change.trans {m'' : Rtt} (moves : Moves R N) (h : Change R N H m m') (h' : Change R N H m' m'') :
    Change R N H m m'' where
  nodes i n'' live := by
    rcases h'.nodes i n'' live with new | ⟨n', live', same⟩
    · exact .inl new
    · rcases h.nodes i n' live' with new | ⟨n, old, same'⟩
      · exact .inl (moves.keep new same)
      · exact .inr ⟨n, old, moves.trans same' same⟩
  heads i := by
    rcases h'.heads i with same | cleared
    · rcases h.heads i with same' | ⟨mine, cleared⟩
      · exact .inl (same.trans same')
      · exact .inr ⟨mine, same.trans cleared⟩
    · exact .inr cleared
  places i other := (h'.places i other).trans (h.places i other)
  version := h'.version.trans h.version

theorem change_freeNode (moves : Moves R N) : Change R N H m (m.freeNode i) := by
  refine ⟨fun j n' live => ?_, fun _ => .inl rfl, fun _ _ => rfl, rfl⟩
  rw [nodes_freeNode] at live
  split at live
  · cases live
  · exact .inr ⟨n', live, moves.refl n'⟩

theorem change_addNode (moves : Moves R N) {n : RtNode} (new : N i n) : Change R N H m (m.addNode i n) := by
  refine ⟨fun j n' live => ?_, fun _ => .inl rfl, fun _ _ => rfl, rfl⟩
  rw [nodes_addNode] at live
  split at live
  · subst j
    obtain rfl := Option.some.inj live
    exact .inl new
  · exact .inr ⟨n', live, moves.refl n'⟩

theorem change_setNode (moves : Moves R N) {n n' : RtNode} (live : m.nodes i = some n)
    (keep : N i n' ∨ R n n') : Change R N H m (m.setNode i n') := by
  refine ⟨fun j n'' live' => ?_, fun _ => .inl rfl, fun _ _ => rfl, rfl⟩
  rw [nodes_setNode] at live'
  split at live'
  · obtain rfl := Option.some.inj live'
    subst j
    exact keep.imp_right fun same => ⟨n, live, same⟩
  · exact .inr ⟨n'', live', moves.refl n''⟩

theorem change_write (moves : Moves R N) {g : RtNode → RtNode} (keep : (∀ n, N i (g n)) ∨ ∀ n, R n (g n)) :
    Ensures (m.write i g) (Change R N H m) := by
  apply ensures_write
  intro n live
  exact change_setNode moves live (keep.imp (fun new => new n) fun same => same n)

/-- A write to a head that keeps its node and its version. -/
theorem change_writeHead (moves : Moves R N) {rth : HeadId} {g : RtHead → RtHead}
    (keep : ∀ h, (g h).rthVersion = h.rthVersion ∧ (rth ∈ H ∨ (g h).rthRtn = h.rthRtn)) :
    Change R N H m (m.writeHead rth g) := by
  refine .of_nodes moves rfl (fun h => ?_) (fun h other => ?_) rfl
  · rw [heads_writeHead]
    split
    · subst h
      exact .inl (keep _).1
    · exact .inl rfl
  · rw [heads_writeHead]
    split
    · subst h
      exact (keep _).2.resolve_left other
    · rfl

theorem change_usrFree (moves : Moves R N) : Change R N H m m.usrFree := by
  unfold Rtt.usrFree
  split
  · exact .of_same moves rfl rfl rfl
  · exact .refl moves m

theorem change_releaseHead (moves : Moves R N) (v : Option HeadId) : Change R N H m (m.releaseHead v) := by
  cases v with
  | none => exact .refl moves m
  | some h =>
    have parted : Change R N H m (m.writeHead h fun h => { h with rdxRthAddr := none }) :=
      change_writeHead moves fun _ => ⟨rfl, .inr rfl⟩
    exact parted.trans moves (change_usrFree moves)

section Removal

variable (moves : Moves R N)

include moves

theorem change_replaceChild {prev new : Option NodeId} {old : NodeId} {rightFirst : Bool} :
    Ensures (m.replaceChild prev old new rightFirst) (Change R N H m) := by
  cases prev with
  | none => exact .pure (.of_same moves rfl rfl rfl)
  | some prev =>
    have left : Ensures (m.write prev fun p => { p with rtnLeft := new }) (Change R N H m) :=
      change_write moves (.inr fun n => moves.left n new)
    have right : Ensures (m.write prev fun p => { p with rtnRight := new }) (Change R N H m) :=
      change_write moves (.inr fun n => moves.right n new)
    apply Ensures.any
    intro p
    split
    · split
      · exact right
      · exact .any fun _ => left
    · split
      · exact left
      · exact .any fun _ => right

theorem change_removeBrancher {rn : NodeId} :
    Ensures (removeBrancher m rn) fun r => Change R N H m r.2.2 := by
  unfold removeBrancher
  apply Ensures.any
  intro n
  apply Ensures.any
  intro _
  apply Ensures.any
  intro _
  have promote (child : NodeId) (next : Option NodeId) (ret : Option NodeId) (dir : WalkDir) :
      Ensures (do
        let rtt ← m.write child fun m => { m with rtnParent := n.rtnParent }
        let rtt ← rtt.replaceChild n.rtnParent rn next false
        return (ret, some dir, (rtt.releaseHead n.rtnRth).freeNode rn))
        fun r => Change R N H m r.2.2 := by
    apply Ensures.bind (change_write moves (.inr fun n => moves.parent n _))
    intro m₁ h₁
    apply Ensures.bind (change_replaceChild moves)
    intro m₂ h₂
    have linked : Change R N H m m₂ := h₁.trans moves h₂
    exact .pure ((linked.trans moves (change_releaseHead moves _)).trans moves (change_freeNode moves))
  split
  · exact .any fun child => promote child _ _ _
  · exact .any fun child => promote child _ _ _

/-- **A removal**: only the node that is removed may lose its head. -/
theorem change_removeNode {rn : NodeId}
    (unbind : ∀ n : RtNode, n.rtnLock = 0 → R n { n with rtnRth := none }) :
    Ensures (stdRadixRemoveNode m rn) fun r => Change R N H m r.2.2 := by
  have dropped : Change R N H m m.dropRoute := .of_same moves rfl rfl rfl
  unfold stdRadixRemoveNode
  apply ensures_node
  intro n live
  apply Ensures.check
  intro unlocked
  have released := dropped.trans moves (change_releaseHead moves n.rtnRth)
  split
  · apply Ensures.bind (P := Change R N H m)
    · apply ensures_write
      intro n' live'
      have here : (m.dropRoute.releaseHead n.rtnRth).nodes rn = some n := by rwa [nodes_releaseHead]
      obtain rfl := Option.some.inj (here.symm.trans live')
      exact released.trans moves (change_setNode moves live' (.inr (unbind n unlocked)))
    · intro m₁ h₁
      exact .pure h₁
  · split
    · have pruned : Change R N H m ((m.dropRoute.releaseHead n.rtnRth).freeNode rn) :=
        released.trans moves (change_freeNode moves)
      split
      · exact .pure (pruned.trans moves (.of_same moves rfl rfl rfl))
      · apply Ensures.any
        intro p
        apply Ensures.bind (change_replaceChild moves)
        intro m₁ h₁
        have linked : Change R N H m m₁ := pruned.trans moves h₁
        split
        · exact .pure linked
        · exact (change_removeBrancher moves).mono fun _ h₂ => linked.trans moves h₂
    · exact (change_removeBrancher moves).mono fun _ h => dropped.trans moves h

/-- `std_radix_remove` also marks the node, if it is locked. -/
theorem change_remove {rth : HeadId}
    (unbind : ∀ n : RtNode, n.rtnLock = 0 → R n { n with rtnRth := none })
    (marked : ∀ n : RtNode, R n { n with rtnFlags := n.rtnFlags ||| deleBit }) :
    Ensures (stdRadixRemove m rth) (Change R N H m) := by
  have counted : Change R N H m m.countRemove := .of_same moves rfl rfl rfl
  apply Ensures.any
  intro _
  apply Ensures.any
  intro rn
  apply Ensures.any
  intro n
  split
  · apply Ensures.bind (change_write moves (.inr marked))
    intro m₁ h₁
    exact .any fun _ => .pure (counted.trans moves h₁)
  · apply Ensures.bind (change_removeNode moves unbind)
    rintro ⟨_, _, m₁⟩ h₁
    have removed : Change R N H m m₁ := counted.trans moves h₁
    dsimp only
    split
    · apply Ensures.any
      intro cl
      have unlisted : Change R N H m₁ { m₁ with rttClhead := cl } := .of_same moves rfl rfl rfl
      have cleared : Change R N H { m₁ with rttClhead := cl } ({ m₁ with rttClhead := cl }.writeHead rth
          fun h => { h with rdclFlags := h.rdclFlags &&& ~~~ rdclIncl }) :=
        change_writeHead moves fun _ => ⟨rfl, .inr rfl⟩
      exact .pure ((removed.trans moves unlisted).trans moves cleared)
    · exact .pure removed

end Removal

/-! ## Insertions -/

/-- What an insertion of `rth` with the nodes `S` may do to nodes, but for links. -/
structure Attaching (R : RtNode → RtNode → Prop) (N : NodeId → RtNode → Prop) (S : Set NodeId)
    (rth : HeadId) : Prop extends Moves R N where
  fresh : ∀ i ∈ S, ∀ bit v, v = none ∨ v = some rth → N i (.ofBit bit v)
  dated : ∀ i ∈ S, ∀ ver, (∀ n : RtNode, N i { n with rtnVersion := ver }) ∨
    ∀ n : RtNode, R n { n with rtnVersion := ver }
  attach : ∀ n : RtNode, (n.marked = true ∨ n.rtnRth = none) →
    R n { n with rtnRth := some rth, rtnFlags := n.rtnFlags &&& ~~~ deleBit }

section Insertion

variable {S : Set NodeId} {rth : HeadId} (attaching : Attaching R N S rth) (head : rth ∈ H)

include attaching head

theorem change_insertAttach {rtn : NodeId} {n : RtNode} (live : m.nodes rtn = some n) :
    Ensures (insertAttach m rth rtn n) fun r => Change R N H m r.2 := by
  have moves := attaching.toMoves
  by_cases taken : (!n.marked && n.rtnRth.isSome) = true
  · unfold insertAttach
    rw [if_pos taken]
    exact .pure (.refl moves m)
  · have spot : n.marked = true ∨ n.rtnRth = none := by
      cases hm : n.marked with
      | true => exact .inl rfl
      | false => simpa [hm] using taken
    let m₁ := (m.releaseHead n.rtnRth).setNode rtn
      { n with rtnRth := some rth, rtnFlags := n.rtnFlags &&& ~~~ deleBit }
    rw [insertAttach_eq rth live spot]
    apply Ensures.pure
    have released : Change R N H m (m.releaseHead n.rtnRth) := change_releaseHead moves _
    have attached : Change R N H (m.releaseHead n.rtnRth) m₁ :=
      change_setNode moves (by simpa using live) (.inr (attaching.attach n spot))
    have place : Change R N H m₁ (m₁.writeHead rth fun h => { h with rthRtn := some rtn }) :=
      change_writeHead moves fun _ => ⟨rfl, .inl head⟩
    have all : Change R N H m _ := (released.trans moves attached).trans moves place
    exact all.trans moves (.of_same moves rfl rfl rfl)

omit head in
theorem change_insertBelow {addr : Addr} {bitlen dbit : Nat} {rtn add : NodeId} :
    Ensures (insertBelow m rth addr bitlen dbit rtn add) fun r => Change R N H m r.2 := by
  have moves := attaching.toMoves
  apply Ensures.any
  intro _
  apply Ensures.bind (change_write moves (.inr fun n => moves.parent n _))
  intro m₁ h₁
  apply Ensures.any
  intro n
  have finish (m₂ : Rtt) (h₂ : Change R N H m₁ m₂) :
      Ensures (pure (some rth, m₂.addRoute) : Except Fault _) fun r => Change R N H m r.2 :=
    .pure ((h₁.trans moves h₂).trans moves (.of_same moves rfl rfl rfl))
  dsimp only
  split
  · exact .any fun _ => .bind (change_write moves (.inr fun n => moves.right n _)) finish
  · exact .any fun _ => .bind (change_write moves (.inr fun n => moves.left n _)) finish

omit head in
theorem change_insertAbove {rtn new : NodeId} {prev : Option NodeId} (mine : new ∈ S) :
    Ensures (insertAbove m rth rtn new prev) fun r => Change R N H m r.2 := by
  have moves := attaching.toMoves
  apply Ensures.bind (change_write moves (.inr fun n => moves.parent n _))
  intro m₁ h₁
  apply Ensures.any
  intro n
  apply Ensures.bind (change_write moves (attaching.dated new mine _))
  intro m₂ h₂
  apply Ensures.bind (change_write moves (.inr fun n => moves.parent n _))
  intro m₃ h₃
  apply Ensures.bind (change_replaceChild moves)
  intro m₄ h₄
  have linked : Change R N H m m₄ := ((h₁.trans moves h₂).trans moves h₃).trans moves h₄
  exact .pure (linked.trans moves (.of_same moves rfl rfl rfl))

theorem change_insertAt {addr his : Addr} {bitlen dbit : Nat} {rtn : NodeId}
    {prev add new : Option NodeId} (mine : ∀ i, add = some i ∨ new = some i → i ∈ S) :
    Ensures (insertAt m rth addr his bitlen dbit rtn prev add new) fun r => Change R N H m r.2 := by
  have moves := attaching.toMoves
  unfold insertAt
  apply ensures_node
  intro n live
  split
  · exact change_insertAttach attaching head live
  · cases add with
    | none => exact .pure (.refl moves m)
    | some add =>
      have here : add ∈ S := mine add (.inl rfl)
      have added : Change R N H m ((m.addNode add (.ofBit bitlen (some rth))).writeHead rth
          fun h => { h with rthRtn := some add }) :=
        (change_addNode moves (attaching.fresh add here bitlen _ (.inr rfl))).trans moves
          (change_writeHead moves fun _ => ⟨rfl, .inl head⟩)
      have toward (side : Bool) : Ensures (((m.addNode add (.ofBit bitlen (some rth))).writeHead rth
          fun h => { h with rthRtn := some add }).write add fun a => a.setSide side (some rtn))
          (Change R N H m) := by
        apply (change_write moves (.inr fun n => ?_)).mono fun _ h => added.trans moves h
        cases side
        · exact moves.left n _
        · exact moves.right n _
      dsimp only
      split
      · exact (change_insertBelow attaching).mono fun _ h => added.trans moves h
      · split
        · have finish (m₂ : Rtt) (h₂ : Change R N H m m₂) :
              Ensures (insertAbove m₂ rth rtn add prev) fun r => Change R N H m r.2 :=
            (change_insertAbove attaching here).mono fun _ h => h₂.trans moves h
          split
          · exact .bind (toward true) finish
          · exact .bind (toward false) finish
        · cases new with
          | none => exact .pure (added.trans moves (change_freeNode moves))
          | some new =>
            have there : new ∈ S := mine new (.inr rfl)
            apply Ensures.bind (change_write moves (.inr fun n => moves.parent n _))
            intro m₂ h₂
            have both : Change R N H m m₂ := (added.trans moves (change_addNode moves (attaching.fresh new there dbit none (.inl rfl)))).trans
              moves h₂
            have finish (m₃ : Rtt) (h₃ : Change R N H m₂ m₃) :
                Ensures (insertAbove m₃ rth rtn new prev) fun r => Change R N H m r.2 :=
              (change_insertAbove attaching there).mono fun _ h => (both.trans moves h₃).trans moves h
            split
            · apply Ensures.bind (change_write moves (.inr fun n => ?_)) finish
              exact moves.trans (moves.right n _) (moves.left _ _)
            · apply Ensures.bind (change_write moves (.inr fun n => ?_)) finish
              exact moves.trans (moves.left n _) (moves.right _ _)

theorem change_insertTree {bitlen : Nat} {mem : Allocs}
    (mine : ∀ i, mem.add = some i ∨ mem.new = some i → i ∈ S) :
    Ensures (insertTree m rth bitlen mem) fun r => Change R N H m r.2 := by
  have moves := attaching.toMoves
  have counted : Change R N H m m.countInsert := .of_same moves rfl rfl rfl
  unfold insertTree
  dsimp only
  split
  · split
    · exact .pure counted
    · rename_i add hadd
      have here := attaching.fresh add (mine add (.inl hadd)) bitlen (some rth) (.inr rfl)
      have added : Change R N H m (m.countInsert.addNode add (.ofBit bitlen (some rth))) :=
        counted.trans moves (change_addNode moves here)
      have attached : Change R N H m ((m.countInsert.addNode add (.ofBit bitlen (some rth))).writeHead rth
          fun h => { h with rthRtn := some add }) :=
        added.trans moves (change_writeHead moves fun _ => ⟨rfl, .inl head⟩)
      exact .pure (attached.trans moves (.of_same moves rfl rfl rfl))
  · apply Ensures.any
    intro addr
    unfold insertInto
    apply Ensures.any
    intro rtn
    apply Ensures.any
    intro n
    apply Ensures.any
    intro his
    apply Ensures.any
    intro hisAddr
    apply Ensures.any
    intro dbit
    apply Ensures.any
    intro climb
    exact (change_insertAt attaching head mine).mono fun _ h => counted.trans moves h

omit attaching head in
theorem change_convertKey (moves : Moves R N) (ap : Addr) : Change R N H m (m.convertKey ap).2 := by
  unfold Rtt.convertKey
  split <;> exact .of_same moves rfl rfl rfl

omit attaching head in
theorem change_insertKey (moves : Moves R N) {key : Option Addr} :
    Ensures (insertKey m rth key) fun r => Change R N H m r.2 := by
  unfold insertKey
  split
  · rename_i addr _ _
    have converted : Change R N H m (m.convertKey addr).2 := change_convertKey moves addr
    dsimp only
    split
    · split
      · exact .pure converted
      · refine .pure (converted.trans moves ?_)
        dsimp only
        apply change_writeHead moves
        exact fun _ => ⟨rfl, .inr rfl⟩
    · exact .any fun _ => .any fun _ => .pure converted
  · apply Ensures.any
    intro _
    apply Ensures.pure
    dsimp only
    apply change_writeHead moves
    exact fun _ => ⟨rfl, .inr rfl⟩

omit attaching head in
theorem change_clearLinks (moves : Moves R N) : Change R N H m (clearLinks m rth) := by
  unfold clearLinks
  split
  · have flags : Change R N H m (m.writeHead rth fun h => { h with rdclFlags := 0 }) :=
      change_writeHead moves fun _ => ⟨rfl, .inr rfl⟩
    exact flags.trans moves (.of_same moves rfl rfl rfl)
  · exact .refl moves m

omit attaching in
theorem change_insertDebug (moves : Moves R N) {bitlen : Nat} :
    Change R N H m (insertDebug m rth bitlen).2 := by
  unfold insertDebug
  split
  · have cleared : Change R N H m (m.writeHead rth fun h => { h with rthRtn := none, rthVersion := 0 }) := by
      refine .of_nodes moves rfl (fun h => ?_) (fun h other => ?_) rfl
      · rw [heads_writeHead]
        split
        · subst h
          exact .inr ⟨head, rfl⟩
        · exact .inl rfl
      · rw [heads_writeHead, if_neg]
        rintro rfl
        exact other head
    exact cleared.trans moves (change_clearLinks moves)
  · exact .refl moves m

/-- **An insertion** adds at most the nodes that it is given. -/
theorem change_insert {bitlen : Nat} {mem : Allocs}
    (mine : ∀ i, mem.add = some i ∨ mem.new = some i → i ∈ S) :
    Ensures (stdRadixInsert m rth bitlen mem) fun r => Change R N H m r.2 := by
  have moves := attaching.toMoves
  apply Ensures.bind (change_insertKey moves)
  rintro ⟨keyed, m₁⟩ keep
  dsimp only
  split
  · exact .pure keep
  · apply Ensures.any
    intro _
    have start : Change R N H m (insertDebug m₁ rth bitlen).2 :=
      keep.trans moves (change_insertDebug head moves)
    split
    · exact .pure start
    · exact (change_insertTree attaching head mine).mono fun _ h => start.trans moves h

end Insertion

/-! ## What stays -/

variable {γ : Type} {f : RtNode → γ} {S : Set NodeId}

/-- From `m` to `m'` nodes are added in `S` only, and versions cleared in `H` only;
on the other nodes `f` is the same. -/
abbrev Footprint (f : RtNode → γ) (S : Set NodeId) (H : Set HeadId) (m m' : Rtt) : Prop :=
  Change (fun n n' => f n' = f n) (fun i _ => i ∈ S) H m m'

/-- `f` does not depend on the links and the head of a node. -/
structure Linkless (f : RtNode → γ) : Prop where
  left : ∀ n p, f { n with rtnLeft := p } = f n
  right : ∀ n p, f { n with rtnRight := p } = f n
  parent : ∀ n p, f { n with rtnParent := p } = f n
  rth : ∀ n v, f { n with rtnRth := v } = f n

theorem linkless_version : Linkless RtNode.rtnVersion :=
  ⟨fun _ _ => rfl, fun _ _ => rfl, fun _ _ => rfl, fun _ _ => rfl⟩

theorem linkless_lock : Linkless RtNode.rtnLock :=
  ⟨fun _ _ => rfl, fun _ _ => rfl, fun _ _ => rfl, fun _ _ => rfl⟩

theorem linkless_flags : Linkless RtNode.rtnFlags :=
  ⟨fun _ _ => rfl, fun _ _ => rfl, fun _ _ => rfl, fun _ _ => rfl⟩

theorem Linkless.moves (linkless : Linkless f) :
    Moves (fun n n' => f n' = f n) (fun i (_ : RtNode) => i ∈ S) where
  refl _ := rfl
  trans first rest := rest.trans first
  keep new _ := new
  left := linkless.left
  right := linkless.right
  parent := linkless.parent

theorem Footprint.of_same (nodes : m'.nodes = m.nodes) (heads : m'.heads = m.heads)
    (version : m'.rttVersion = m.rttVersion) : Footprint f S H m m' :=
  ⟨fun _ n live => .inr ⟨n, nodes ▸ live, rfl⟩, fun _ => .inl (by rw [heads]), fun _ _ => by rw [heads], version⟩

theorem Footprint.refl (m : Rtt) : Footprint f S H m m := .of_same rfl rfl rfl

theorem Footprint.trans {m'' : Rtt} (h : Footprint f S H m m') (h' : Footprint f S H m' m'') :
    Footprint f S H m m'' where
  nodes i n'' live := by
    rcases h'.nodes i n'' live with new | ⟨n', live', same⟩
    · exact .inl new
    · exact (h.nodes i n' live').imp_right fun ⟨n, old, same'⟩ => ⟨n, old, same.trans same'⟩
  heads i := by
    rcases h'.heads i with same | cleared
    · rcases h.heads i with same' | ⟨mine, cleared⟩
      · exact .inl (same.trans same')
      · exact .inr ⟨mine, same.trans cleared⟩
    · exact .inr cleared
  places i other := (h'.places i other).trans (h.places i other)
  version := h'.version.trans h.version

theorem Footprint.widen {S' : Set NodeId} (h : Footprint f S H m m') (sub : S ⊆ S') : Footprint f S' H m m' :=
  ⟨fun i n live => (h.nodes i n live).imp_left fun inside => sub inside, h.heads, h.places, h.version⟩

theorem footprint_setNode {n n' : RtNode} (live : m.nodes i = some n) (keep : i ∈ S ∨ f n' = f n) :
    Footprint f S H m (m.setNode i n') := by
  refine ⟨fun j n'' live' => ?_, fun _ => .inl rfl, fun _ _ => rfl, rfl⟩
  rw [nodes_setNode] at live'
  split at live'
  · obtain rfl := Option.some.inj live'
    subst j
    exact keep.imp_right fun same => ⟨n, live, same⟩
  · exact .inr ⟨n'', live', rfl⟩

/-- A removal leaves the other nodes alone, but for their links. -/
theorem footprint_removeNode (linkless : Linkless f) {rn : NodeId} :
    Ensures (stdRadixRemoveNode m rn) fun r => Footprint f S H m r.2.2 :=
  change_removeNode linkless.moves fun n _ => linkless.rth n none

theorem footprint_remove (linkless : Linkless f) {rth : HeadId}
    (marked : ∀ n : RtNode, f { n with rtnFlags := n.rtnFlags ||| deleBit } = f n) :
    Ensures (stdRadixRemove m rth) (Footprint f S H m) :=
  change_remove linkless.moves (fun n _ => linkless.rth n none) marked

theorem footprint_insert (linkless : Linkless f)
    (unmarked : ∀ n : RtNode, f { n with rtnFlags := n.rtnFlags &&& ~~~ deleBit } = f n) {rth : HeadId}
    {bitlen : Nat} {mem : Allocs} (mine : ∀ i, mem.add = some i ∨ mem.new = some i → i ∈ S) (head : rth ∈ H) :
    Ensures (stdRadixInsert m rth bitlen mem) fun r => Footprint f S H m r.2 := by
  have attaching : Attaching (fun n n' => f n' = f n) (fun i (_ : RtNode) => i ∈ S) S rth := by
    refine ⟨linkless.moves, fun _ inside _ _ _ => inside, fun _ inside _ => .inl fun _ => inside, fun n _ => ?_⟩
    exact (unmarked { n with rtnRth := some rth }).trans (linkless.rth n (some rth))
  exact change_insert attaching head mine

end SonicUtils.Radix
