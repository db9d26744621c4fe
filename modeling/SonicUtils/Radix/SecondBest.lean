import SonicUtils.Radix.Best
import SonicUtils.Radix.Starved

/-!
# The second best prefix

`std_radix_getbestandprev` and `std_radix_getnextbest`, in tables with removals
pending or without.

* `getbestandprev_eq`: the combined lookup is the two single ones;
* `backtrack_parent`: the way back goes on from the parent;
* `getbest_matches`: the nodes that match are all that counts.
-/

namespace SonicUtils.Radix

open PtrTree BitTrie

variable {rtt s : Rtt} {t : RtTree} {ap addr : Addr} {bitlen fuel : Nat} {x z : Node NodeId HeadId}
  {fs : List (Frame (Node NodeId HeadId))} {l r : RtTree}

/-! ## The combined lookup -/

/-- What `std_radix_getbestandprev` writes to `*lessbest` if `std_radix_getnextbest`
returns `second`. -/
def lessbest (rtt : Rtt) (second : Option HeadId) : Option (Option HeadId) := rtt.rttRoot.map fun _ => second

/-- The combined lookup does what the two single ones do, one after the other; it fails
as they do. -/
theorem getbestandprev_eq (valid : bitlen ≤ rtt.rttMaxaddrlen) :
    stdRadixGetbestandprev rtt (some addr) bitlen = (do
      let (best, _) ← stdRadixGetbest rtt (some addr) bitlen
      let (second, s) ← stdRadixGetnextbest rtt (some addr) bitlen
      return ((best, lessbest rtt second), s)) := by
  obtain ⟨temp, after⟩ := convertKey_temp rtt addr
  obtain ⟨ap, m, key⟩ : ∃ ap m, rtt.convertKey addr = (ap, m) := ⟨_, _, rfl⟩
  rw [key] at after
  dsimp only at after
  have root_ : m.rttRoot = rtt.rttRoot := by rw [after]
  have len : m.rttMaxaddrlen = rtt.rttMaxaddrlen := by rw [after]
  have checked : ¬(m.rttDebug = true ∧ bitlen > m.rttMaxaddrlen) := by omega
  unfold stdRadixGetbestandprev stdRadixGetbest stdRadixGetnextbest lessbest
  simp only [key, if_neg checked, ← root_]
  cases m.validateHandle with
  | error e => rfl
  | ok _ =>
    cases m.rttRoot with
    | none => rfl
    | some rtn =>
      simp only [ok_bind]
      cases m.descend ap (fun n => n.rtnBit < bitlen) Rtt.pathFuel rtn with
      | error e => rfl
      | ok rtn =>
        simp only [ok_bind]
        cases m.backtrack ap bitlen Rtt.pathFuel (some rtn) with
        | error e => rfl
        | ok best =>
          cases best with
          | none => rfl
          | some rtn =>
            simp only [ok_bind]
            cases m.node rtn with
            | error e => rfl
            | ok n =>
              simp only [ok_bind]
              cases n.marked with
              | true => rfl
              | false =>
                cases secondBest m ap bitlen n.rtnParent with
                | error e => rfl
                | ok second => rfl

/-! ## The way back -/

/-- From the parent of a node on the way back, the first node that matches behind it. -/
theorem backtrack_parent (ap : Addr) (bitlen : Nat) {before after : List (Node NodeId HeadId)}
    (linked : Linked rtt.mem none (plug fs (.node x l r))) (split : x :: fs.map Frame.node = before ++ z :: after)
    (enough : fs.length < fuel) :
    ∃ n k, rtt.nodes z.1 = some n ∧ n.Holds k z.2 ∧
      rtt.backtrack ap bitlen fuel n.rtnParent = .ok ((after.find? (Matches ap bitlen)).map Prod.fst) := by
  induction before generalizing fs x l r with
  | nil =>
    obtain ⟨rfl, rfl⟩ := List.cons.inj split
    obtain ⟨⟨n, live, holds⟩, _⟩ := holds_at linked
    refine ⟨n, _, live, holds, ?_⟩
    rw [holds.parent]
    cases fs with
    | nil => cases fuel <;> rfl
    | cons f fs =>
      rw [List.length_cons] at enough
      obtain ⟨l', r', fill⟩ := exists_fill f (.node x l r)
      rw [plug_cons, fill] at linked
      exact backtrack_spec ap bitlen fuel fs f.node l' r' linked (by omega)
  | cons b before ih =>
    obtain ⟨rfl, above⟩ := List.cons.inj split
    cases fs with
    | nil => simp at above
    | cons f fs =>
      rw [List.length_cons] at enough
      obtain ⟨l', r', fill⟩ := exists_fill f (.node x l r)
      rw [plug_cons, fill] at linked
      exact ih linked above (by omega)

/-- The nodes from where a search for the key ends up to the root. -/
inductive WayBack (ap : Addr) (bitlen : Nat) : RtTree → List (Node NodeId HeadId) → Prop
  | nil : WayBack ap bitlen .nil []
  | node {t : RtTree} {fs : List (Frame (Node NodeId HeadId))} {y : Node NodeId HeadId} {l r : RtTree} :
      Descent ap (fun lab => lab.stem.length < bitlen) [] t fs y l r → WayBack ap bitlen t (y :: fs.map Frame.node)

theorem WayBack.of_nil {path : List (Node NodeId HeadId)} (way : WayBack ap bitlen .nil path) : path = [] := by
  generalize empty : (BinaryTree.nil : RtTree) = t at way
  cases way with
  | nil => rfl
  | @node t fs y l r d =>
    have whole : plug fs (.node y l r) = t := d.same
    have short := length_add_height fs (.node y l r)
    rw [whole, ← empty] at short
    simp at short

/-- The head of a node that is not marked. -/
def alive (rtt : Rtt) (z : Node NodeId HeadId) : Option HeadId :=
  (rtt.nodes z.1).bind fun n => if n.marked then none else n.rtnRth

/-- What is found when the nodes that match are these: nothing if the first is marked. -/
def found (rtt : Rtt) : List (Node NodeId HeadId) → Option HeadId
  | [] => none
  | z :: _ => alive rtt z

/-- What is found next: nothing if one of the first two is marked. -/
def foundNext (rtt : Rtt) : List (Node NodeId HeadId) → Option HeadId
  | [] => none
  | z :: zs => if (rtt.nodes z.1).any RtNode.marked then none else found rtt zs

theorem find?_eq_head? (p : Node NodeId HeadId → Bool) (zs : List (Node NodeId HeadId)) :
    zs.find? p = (zs.filter p).head? := List.head?_filter.symm

/-- **Both lookups.** The nodes that match, on one way back, are all that counts. -/
theorem getbest_matches (rep : Represents rtt t) (ready : Ready rtt) (addr : Addr) (valid : bitlen ≤ rtt.rttMaxaddrlen) :
    ∃ ap s path, rtt.convertKey addr = (ap, s) ∧ WayBack ap bitlen t path ∧
      stdRadixGetbest rtt (some addr) bitlen = .ok (found rtt (path.filter (Matches ap bitlen)), s) ∧
      stdRadixGetnextbest rtt (some addr) bitlen = .ok (foundNext rtt (path.filter (Matches ap bitlen)), s) := by
  obtain ⟨temp, after⟩ := convertKey_temp rtt addr
  obtain ⟨ap, m, key⟩ : ∃ ap m, rtt.convertKey addr = (ap, m) := ⟨_, _, rfl⟩
  rw [key] at after
  dsimp only at after
  have nodes : m.nodes = rtt.nodes := by rw [after]
  have rep' : Represents m t := by
    rw [after]
    exact rep.congr rfl rfl fun _ _ => ⟨rfl, fun _ _ => rfl⟩
  have ready' : Ready m := by
    rw [after]
    exact ⟨ready.magic, ready.fits⟩
  have len : m.rttMaxaddrlen = rtt.rttMaxaddrlen := by rw [after]
  have checked : ¬(m.rttDebug = true ∧ bitlen > m.rttMaxaddrlen) := by omega
  unfold stdRadixGetbest stdRadixGetnextbest
  simp only [key, ready'.validate, ok_bind, if_neg checked]
  cases t with
  | nil =>
    have empty : m.rttRoot = none := rep'.root
    exact ⟨ap, m, [], rfl, .nil, by rw [empty]; rfl, by rw [empty]; rfl⟩
  | node x l r =>
    have deep := rep'.depth ready'
    obtain ⟨fs, y, yl, yr, run, d⟩ :=
      descend_spec ap (fun n => n.rtnBit < bitlen) (fun lab => lab.stem.length < bitlen)
        (fun n k lab h => by simp [h.bit]) Rtt.pathFuel [] x l r rep'.linked (by omega)
    have whole : plug fs (.node y yl yr) = .node x l r := d.same
    have linked := whole ▸ rep'.linked
    have short := length_add_height fs (.node y yl yr)
    rw [whole] at short
    have back := backtrack_spec ap bitlen Rtt.pathFuel fs y yl yr linked (by omega)
    refine ⟨ap, m, _, rfl, .node d, ?_⟩
    simp only [rep'.root_node, ok_bind, run, back, find?_eq_head?]
    cases ms : (y :: fs.map Frame.node).filter (Matches ap bitlen) with
    | nil => exact ⟨rfl, rfl⟩
    | cons z zs =>
      obtain ⟨before, after', split, _, _, rest⟩ := List.filter_eq_cons_iff.mp ms
      have enough : fs.length < Rtt.pathFuel := by omega
      obtain ⟨n, k, live, holds, parent⟩ := backtrack_parent ap bitlen linked split enough
      have live' : rtt.nodes z.1 = some n := nodes ▸ live
      simp only [List.head?_cons, Option.map_some, node_of live, ok_bind, found, foundNext, alive, live', Option.bind_some,
        Option.any_some]
      refine ⟨rfl, ?_⟩
      cases n.marked with
      | true => rfl
      | false =>
        rw [find?_eq_head?, rest] at parent
        simp only [Bool.false_eq_true, if_false, secondBest, parent, ok_bind]
        cases zs with
        | nil => rfl
        | cons z' zs =>
          have inside : z' ∈ y :: fs.map Frame.node :=
            (List.mem_filter.mp (ms ▸ List.mem_cons_of_mem z List.mem_cons_self)).1
          obtain ⟨k', ⟨n', live', _⟩, _⟩ := rep'.linked.holds (mem_nodes_of_path d inside)
          have here : alive rtt z' = if n'.marked then none else n'.rtnRth := by
            rw [alive, ← nodes, live']
            rfl
          simp only [List.head?_cons, Option.map_some, node_of live', ok_bind]
          change _ = Except.ok (alive rtt z', m)
          rw [here]
          rfl

end SonicUtils.Radix
