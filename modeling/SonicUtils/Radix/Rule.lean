import Mathlib.Data.Set.Operations
import SonicUtils.Radix.Memory

/-!
# Properties that the writes keep

A property of tables that every single write of a removal keeps is kept by the
removal, and likewise for insertions.

* `Closed.removeNode`: the rule for `_std_radix_remove`;
* `ClosedInsert.insertTree`: the rule for `std_radix_insert`, from where it has the
  key of its head.
-/

namespace SonicUtils.Radix

variable {I : Rtt → Prop} {rtt m m' : Rtt} {i rn rtn : NodeId} {n : RtNode}

/-- A node with other links. -/
def RtNode.relink (n : RtNode) (left right parent : Option NodeId) : RtNode :=
  { n with rtnLeft := left, rtnRight := right, rtnParent := parent }

/-- Kept by writes to links, by the release of heads and by the freeing of nodes
that are not locked. -/
structure Closed (I : Rtt → Prop) : Prop where
  link : ∀ {m i n}, I m → m.nodes i = some n → ∀ l r p, I (m.setNode i (n.relink l r p))
  root : ∀ {m}, I m → ∀ p, I (m.setRoot p)
  release : ∀ {m}, I m → ∀ v, I (m.releaseHead v)
  free : ∀ {m i n}, I m → m.nodes i = some n → n.rtnLock = 0 → I (m.freeNode i)

/-- Kept by removals: a node with two children may lose its head. -/
structure ClosedRemove (I : Rtt → Prop) : Prop extends Closed I where
  unbind : ∀ {m i n}, I m → m.nodes i = some n → n.rtnLock = 0 → n.rtnLeft ≠ none → n.rtnRight ≠ none →
    I (m.setNode i { n with rtnRth := none })

/-- No node has been freed or locked. -/
def Lasting (m m' : Rtt) : Prop :=
  ∀ i n, m.nodes i = some n → ∃ n', m'.nodes i = some n' ∧ n'.rtnLock = n.rtnLock

theorem Lasting.of_nodes (same : m'.nodes = m.nodes) : Lasting m m' := fun _ n live => ⟨n, same ▸ live, rfl⟩

theorem Lasting.trans {m'' : Rtt} (h : Lasting m m') (h' : Lasting m' m'') : Lasting m m'' := by
  intro i n live
  obtain ⟨n', live', lock'⟩ := h i n live
  obtain ⟨n'', live'', lock''⟩ := h' i n' live'
  exact ⟨n'', live'', lock''.trans lock'⟩

theorem lasting_setNode {n' : RtNode} (live : m.nodes i = some n) (lock : n'.rtnLock = n.rtnLock) :
    Lasting m (m.setNode i n') := by
  intro j a here
  by_cases same : j = i
  · subst same
    obtain rfl := Option.some.inj (live.symm.trans here)
    exact ⟨n', by rw [nodes_setNode, if_pos rfl], lock⟩
  · exact ⟨a, by rw [nodes_setNode, if_neg same, here], rfl⟩

namespace Closed

variable (c : Closed I)

include c

/-- A write to links of a live node. -/
theorem write {g : RtNode → RtNode} (h : I m) (links : ∀ n, ∃ l r p, g n = n.relink l r p) :
    Ensures (m.write i g) fun m' => I m' ∧ Lasting m m' := by
  apply ensures_write
  intro n live
  obtain ⟨l, r, p, same⟩ := links n
  rw [same]
  exact ⟨c.link h live l r p, lasting_setNode live rfl⟩

theorem replaceChild {prev new : Option NodeId} {old : NodeId} {rightFirst : Bool} (h : I m) :
    Ensures (m.replaceChild prev old new rightFirst) fun m' => I m' ∧ Lasting m m' := by
  cases prev with
  | none => exact .pure ⟨c.root h new, .of_nodes rfl⟩
  | some prev =>
    have left : Ensures (m.write prev fun p => { p with rtnLeft := new }) fun m' => I m' ∧ Lasting m m' :=
      c.write h fun n => ⟨new, n.rtnRight, n.rtnParent, rfl⟩
    have right : Ensures (m.write prev fun p => { p with rtnRight := new }) fun m' => I m' ∧ Lasting m m' :=
      c.write h fun n => ⟨n.rtnLeft, new, n.rtnParent, rfl⟩
    apply Ensures.any
    intro p
    split
    · split
      · exact right
      · exact .any fun _ => left
    · split
      · exact left
      · exact .any fun _ => right

/-- The node is freed at the end. -/
theorem removeBrancher (h : I m) : Ensures (removeBrancher m rn) fun r => I r.2.2 ∧ r.2.2.nodes rn = none := by
  unfold SonicUtils.Radix.removeBrancher
  apply ensures_node
  intro n live
  apply Ensures.check
  intro calm
  apply Ensures.any
  intro _
  have promote (child : NodeId) (next ret : Option NodeId) (dir : WalkDir) :
      Ensures (do
        let rtt ← m.write child fun m => { m with rtnParent := n.rtnParent }
        let rtt ← rtt.replaceChild n.rtnParent rn next false
        return (ret, some dir, (rtt.releaseHead n.rtnRth).freeNode rn))
        fun r => I r.2.2 ∧ r.2.2.nodes rn = none := by
    apply Ensures.bind (c.write h fun a => ⟨a.rtnLeft, a.rtnRight, n.rtnParent, rfl⟩)
    rintro m₁ ⟨h₁, last₁⟩
    apply Ensures.bind (c.replaceChild h₁)
    rintro m₂ ⟨h₂, last₂⟩
    obtain ⟨n₂, live₂, lock₂⟩ := (last₁.trans last₂) rn n live
    have here : (m₂.releaseHead n.rtnRth).nodes rn = some n₂ := by rwa [nodes_releaseHead]
    refine .pure ⟨c.free (c.release h₂ n.rtnRth) here (lock₂.trans calm), ?_⟩
    rw [nodes_freeNode, if_pos rfl]
  split
  · exact .any fun child => promote child _ _ _
  · exact .any fun child => promote child _ _ _

end Closed

/-- **Removals.** The property holds when the route has been counted. -/
theorem ClosedRemove.removeNode (c : ClosedRemove I) (h : I m.dropRoute) :
    Ensures (stdRadixRemoveNode m rn) fun r => I r.2.2 := by
  unfold stdRadixRemoveNode
  apply ensures_node
  intro n live
  apply Ensures.check
  intro calm
  have released := c.release h n.rtnRth
  have here : (m.dropRoute.releaseHead n.rtnRth).nodes rn = some n := by rwa [nodes_releaseHead]
  dsimp only
  split
  · rename_i both
    apply Ensures.bind (P := I)
    · apply ensures_write
      intro n' live'
      obtain rfl := Option.some.inj (here.symm.trans live')
      exact c.unbind released here calm (Option.isSome_iff_ne_none.mp both.1) (Option.isSome_iff_ne_none.mp both.2)
    · exact fun m₁ h₁ => .pure h₁
  · split
    · have pruned := c.free released here calm
      split
      · exact .pure (c.root pruned none)
      · apply Ensures.any
        intro p
        apply Ensures.bind (c.replaceChild pruned)
        rintro m₁ ⟨h₁, _⟩
        split
        · exact .pure h₁
        · exact (c.removeBrancher h₁).mono fun _ both => both.1
    · exact (c.removeBrancher h).mono fun _ both => both.1

/-- Kept by insertions of `rth` that get the nodes of `S` from the allocator. -/
structure ClosedInsert (I : Rtt → Prop) (S : Set NodeId) (rth : HeadId) : Prop extends Closed I where
  add : ∀ {m i}, I m → i ∈ S → m.nodes i = none → ∀ bit v, v = none ∨ v = some rth → I (m.addNode i (.ofBit bit v))
  date : ∀ {m i n}, I m → i ∈ S → m.nodes i = some n → ∀ ver, I (m.setNode i { n with rtnVersion := ver })
  attach : ∀ {m i n}, I m → m.nodes i = some n → n.marked = true ∨ n.rtnRth = none →
    I (m.setNode i { n with rtnRth := some rth, rtnFlags := n.rtnFlags &&& ~~~ deleBit })
  place : ∀ {m}, I m → ∀ i, I (m.writeHead rth fun h => { h with rthRtn := some i })

/-- What an insertion leaves: the head is in the tree and its route is counted, or
it is not, and what is returned is NULL or the head of a node. -/
def Attempt (I : Rtt → Prop) (rtt : Rtt) (rth : HeadId) (r : Option HeadId × Rtt) : Prop :=
  (∃ m, I m ∧ r = (some rth, m.addRoute)) ∨
    I r.2 ∧ (r.1 = none ∨ ∃ i n, rtt.nodes i = some n ∧ n.rtnRth = r.1)

namespace ClosedInsert

variable {S : Set NodeId} {rth : HeadId} (c : ClosedInsert I S rth)

include c

theorem insertAttach (h : I m) (live : m.nodes i = some n) :
    Ensures (insertAttach m rth i n) (Attempt I m rth) := by
  by_cases taken : (!n.marked && n.rtnRth.isSome) = true
  · unfold SonicUtils.Radix.insertAttach
    rw [if_pos taken]
    exact .pure (.inr ⟨h, .inr ⟨i, n, live, rfl⟩⟩)
  · have spot : n.marked = true ∨ n.rtnRth = none := by
      cases hm : n.marked with
      | true => exact .inl rfl
      | false => simpa [hm] using taken
    rw [insertAttach_eq rth live spot]
    have here : (m.releaseHead n.rtnRth).nodes i = some n := by rwa [nodes_releaseHead]
    exact .pure (.inl ⟨_, c.place (c.attach (c.release h _) here spot) i, rfl⟩)

theorem insertBelow (h : I m) {addr : Addr} {bitlen dbit : Nat} {add : NodeId} :
    Ensures (insertBelow m rth addr bitlen dbit rtn add) (Attempt I rtt rth) := by
  apply Ensures.any
  intro _
  apply Ensures.bind (c.write h fun n => ⟨n.rtnLeft, n.rtnRight, some rtn, rfl⟩)
  rintro m₁ ⟨h₁, _⟩
  apply Ensures.any
  intro n
  have finish (m₂ : Rtt) (h₂ : I m₂ ∧ Lasting m₁ m₂) :
      Ensures (pure (some rth, m₂.addRoute) : Except Fault _) (Attempt I rtt rth) := .pure (.inl ⟨m₂, h₂.1, rfl⟩)
  dsimp only
  split
  · exact .any fun _ => .bind (c.write h₁ fun n => ⟨n.rtnLeft, some add, n.rtnParent, rfl⟩) finish
  · exact .any fun _ => .bind (c.write h₁ fun n => ⟨some add, n.rtnRight, n.rtnParent, rfl⟩) finish

theorem insertAbove (h : I m) {new : NodeId} {prev : Option NodeId} (mine : new ∈ S) :
    Ensures (insertAbove m rth rtn new prev) (Attempt I rtt rth) := by
  apply Ensures.bind (c.write h fun n => ⟨n.rtnLeft, n.rtnRight, some new, rfl⟩)
  rintro m₁ ⟨h₁, _⟩
  apply Ensures.any
  intro n
  have dated : Ensures (m₁.write new fun a => { a with rtnVersion := n.rtnVersion }) I := by
    apply ensures_write
    intro a live
    exact c.date h₁ mine live _
  apply Ensures.bind dated
  intro m₂ h₂
  apply Ensures.bind (c.write h₂ fun n => ⟨n.rtnLeft, n.rtnRight, prev, rfl⟩)
  rintro m₃ ⟨h₃, _⟩
  apply Ensures.bind (c.replaceChild h₃)
  rintro m₄ ⟨h₄, _⟩
  exact .pure (.inl ⟨m₄, h₄, rfl⟩)

theorem insertAt (h : I m) {addr his : Addr} {bitlen dbit : Nat} {prev add new : Option NodeId}
    (mine : ∀ i, add = some i ∨ new = some i → i ∈ S ∧ m.nodes i = none)
    (apart : ∀ i, add = some i → new ≠ some i) :
    Ensures (insertAt m rth addr his bitlen dbit rtn prev add new) (Attempt I m rth) := by
  unfold SonicUtils.Radix.insertAt
  apply ensures_node
  intro n live
  split
  · exact c.insertAttach h live
  · cases add with
    | none => exact .pure (.inr ⟨h, .inl rfl⟩)
    | some add =>
      obtain ⟨here, unused⟩ := mine add (.inl rfl)
      let m₁ := (m.addNode add (.ofBit bitlen (some rth))).writeHead rth fun h => { h with rthRtn := some add }
      have h₁ : I m₁ := c.place (c.add h here unused bitlen (some rth) (.inr rfl)) add
      have own : m₁.nodes add = some (.ofBit bitlen (some rth)) := by simp [m₁, nodes_addNode]
      dsimp only
      split
      · exact c.insertBelow h₁
      · have above (new : NodeId) (inS : new ∈ S) (m₂ m₃ : Rtt) (h₃ : I m₃ ∧ Lasting m₂ m₃) :
            Ensures (SonicUtils.Radix.insertAbove m₃ rth rtn new prev) (Attempt I m rth) :=
          c.insertAbove h₃.1 inS
        split
        · split
          · exact .bind (c.write h₁ fun a => ⟨a.rtnLeft, some rtn, a.rtnParent, rfl⟩) (above add here m₁)
          · exact .bind (c.write h₁ fun a => ⟨some rtn, a.rtnRight, a.rtnParent, rfl⟩) (above add here m₁)
        · cases new with
          | none => exact .pure (.inr ⟨c.free h₁ own rfl, .inl rfl⟩)
          | some new =>
            obtain ⟨there, unused'⟩ := mine new (.inr rfl)
            have ne : new ≠ add := fun same => apart add rfl (by rw [same])
            have spare : m₁.nodes new = none := by simp [m₁, nodes_addNode, ne, unused']
            have h₂ := c.add h₁ there spare dbit none (.inl rfl)
            apply Ensures.bind (c.write h₂ fun a => ⟨a.rtnLeft, a.rtnRight, some new, rfl⟩)
            rintro m₃ ⟨h₃, _⟩
            split
            · exact .bind (c.write h₃ fun a => ⟨some rtn, some add, a.rtnParent, rfl⟩) (above new there m₃)
            · exact .bind (c.write h₃ fun a => ⟨some add, some rtn, a.rtnParent, rfl⟩) (above new there m₃)

/-- **Insertions**, when the call has been counted. -/
theorem insertTree (h : I m.countInsert) (bitlen : Nat) {mem : Allocs}
    (mine : ∀ i, mem.add = some i ∨ mem.new = some i → i ∈ S ∧ m.nodes i = none)
    (apart : ∀ i, mem.add = some i → mem.new ≠ some i) :
    Ensures (insertTree m rth bitlen mem) (Attempt I m rth) := by
  unfold SonicUtils.Radix.insertTree
  dsimp only
  split
  · split
    · exact .pure (.inr ⟨h, .inl rfl⟩)
    · rename_i add hadd
      obtain ⟨here, unused⟩ := mine add (.inl hadd)
      have added := c.place (c.add h here unused bitlen (some rth) (.inr rfl)) add
      exact .pure (.inl ⟨_, c.root added (some add), rfl⟩)
  · apply Ensures.any
    intro addr
    unfold insertInto
    apply Ensures.any
    intro rtn
    apply Ensures.any
    intro n
    apply Ensures.any
    intro his
    apply Ensures.any
    intro hisAddr
    apply Ensures.any
    intro dbit
    apply Ensures.any
    intro climb
    exact c.insertAt h mine apart

end ClosedInsert

end SonicUtils.Radix
