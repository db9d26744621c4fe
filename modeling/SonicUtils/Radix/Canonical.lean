import SonicUtils.Lib.TrieOrder
import SonicUtils.Radix.Runs

/-!
# The shape of a radix tree

The tree of bit numbers and heads that a table holds depends on its bindings
only, whatever operations have led to it.
-/

namespace SonicUtils.Radix

open PtrTree BitTrie

/-- The tree at a pointer, with the bit number and the head of every node. -/
def Rtt.shape (rtt : Rtt) : Nat → Option NodeId → Except Fault (BinaryTree (Nat × Option HeadId))
  | _, none => return .nil
  | 0, some _ => throw .noReturn
  | fuel + 1, some rtn => do
    let n ← rtt.node rtn
    let left ← shape rtt fuel n.rtnLeft
    let right ← shape rtt fuel n.rtnRight
    return .node (n.rtnBit, n.rtnRth) left right

/-- The whole tree of the table. -/
def Rtt.wholeShape (rtt : Rtt) : Except Fault (BinaryTree (Nat × Option HeadId)) :=
  rtt.shape Rtt.pathFuel rtt.rttRoot

variable {rtt rtt' : Rtt} {m : PrefixMap HeadId}

def Label.shape (lab : Label HeadId) : Nat × Option HeadId := (lab.stem.length, lab.val)

theorem shape_spec {p : Option NodeId} {t : RtTree} (linked : Linked rtt.mem p t) {fuel : Nat}
    (enough : t.height ≤ fuel) : rtt.shape fuel (root t) = .ok ((t.map Prod.snd).map Label.shape) := by
  induction t generalizing p fuel with
  | nil => cases fuel <;> rfl
  | node x l r ihl ihr =>
    obtain ⟨⟨⟨n, live, holds⟩, _⟩, left, right⟩ := linked
    simp only [BinaryTree.height] at enough
    cases fuel with
    | zero => omega
    | succ fuel =>
      have lower : rtt.shape fuel (root l) = _ := ihl left (by omega)
      have upper : rtt.shape fuel (root r) = _ := ihr right (by omega)
      simp [Rtt.shape, node_of live, holds.left, holds.right, lower, upper, holds.bit, holds.rth,
        BinaryTree.map, Label.shape]

theorem Represents.wholeShape {t : RtTree} (h : Represents rtt t) (ready : Ready rtt) :
    rtt.wholeShape = .ok ((t.map Prod.snd).map Label.shape) := by
  rw [Rtt.wholeShape, h.root]
  exact shape_spec h.linked (Nat.le_of_lt (h.depth ready))

theorem Stores.shape_eq (h : Stores rtt m) (h' : Stores rtt' m) :
    ∃ shape, rtt.wholeShape = .ok shape ∧ rtt'.wholeShape = .ok shape := by
  obtain ⟨s, t, rep, stored⟩ := h
  obtain ⟨s', t', rep', stored'⟩ := h'
  have labels := labels_unique rep.trie rep'.trie fun e => (stored e.1 e.2).symm.trans (stored' e.1 e.2)
  refine ⟨_, rep.wholeShape s.ready, ?_⟩
  rw [rep'.wholeShape s'.ready, labels]

/-- **The shape is canonical.** Tables with the same bindings hold the same tree,
and a binding that is added and taken away again leaves the tree as it was. -/
theorem shape_canonical (h : Reachable rtt m) (h' : Reachable rtt' m) :
    ∃ shape, rtt.wholeShape = .ok shape ∧ rtt'.wholeShape = .ok shape ∧
      ∀ rth ap bitlen mem, m.Unused rth → (rtt.heads rth).rthAddr = some ap →
        bitlen ≤ rtt.rttMaxaddrlen → mem.Succeed rtt → m (ap.bits bitlen) = none →
        ∃ rtt₁ rtt₂, stdRadixInsert rtt rth bitlen mem = .ok (some rth, rtt₁) ∧
          stdRadixRemove rtt₁ rth = .ok rtt₂ ∧ rtt₂.wholeShape = .ok shape := by
  obtain ⟨shape, here, there⟩ := h.stores.shape_eq h'.stores
  refine ⟨shape, here, there, fun rth ap bitlen mem unused addr valid alloc absent => ?_⟩
  obtain ⟨rtt₁, inserted, stores⟩ := h.stores.insert unused addr valid alloc
  rw [absent] at inserted
  have bound : m.insert (ap.bits bitlen) rth (ap.bits bitlen) = some rth := by
    simp [PrefixMap.insert_apply, absent]
  obtain ⟨rtt₂, removed, stores⟩ := stores.remove bound
  rw [PrefixMap.unbind_insert absent] at stores
  obtain ⟨_, before, after⟩ := h.stores.shape_eq stores
  cases here.symm.trans before
  exact ⟨rtt₁, rtt₂, inserted, removed, after⟩

/-- A table of one head, with and without its debug checks. -/
theorem shape_canonical_ten : tenTable.wholeShape = .ok (.node (8, some 0) .nil .nil) ∧
    (tenTable.configure true false false).wholeShape = .ok (.node (8, some 0) .nil .nil) := by
  have one : tenTable.wholeShape = .ok (.node (8, some 0) .nil .nil) := by rfl
  refine ⟨one, ?_⟩
  obtain ⟨shape, here, there, _⟩ := shape_canonical reachable_ten (reachable_ten.configure true false false)
  cases one.symm.trans here
  exact there

end SonicUtils.Radix
