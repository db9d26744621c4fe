import SonicUtils.Radix.Exact
import SonicUtils.Radix.Memory

/-!
# Tables with the same tree

What the searches of the lookups read is the nodes and the keys of the heads in them. In
tables that have these in common each search does the same, and fails in the same way.
-/

namespace SonicUtils.Radix

/-- The nodes are the same, and so are the keys of their heads. -/
structure Alike (d p : Rtt) : Prop where
  nodes : p.nodes = d.nodes
  keys : ∀ h ∈ d.stored, (p.heads h).rdxRthAddr = (d.heads h).rdxRthAddr

variable {d p : Rtt} {i : NodeId} {n : RtNode} {rth : HeadId} {addr : Addr} {bitlen : Nat}

theorem node_freed (gone : d.nodes i = none) : d.node i = .error .freed := by
  rw [Rtt.node, gone]
  rfl

section Searches

variable (a : Alike d p)

include a

theorem Alike.node_eq (i : NodeId) : p.node i = d.node i := by rw [Rtt.node, Rtt.node, a.nodes]

theorem Alike.headAddr_eq (live : d.nodes i = some n) (head : n.rtnRth = some rth) : p.headAddr rth = d.headAddr rth := by
  rw [Rtt.headAddr, Rtt.headAddr, a.keys rth ⟨i, n, live, head⟩]

theorem Alike.descend_eq (ap : Addr) (more : RtNode → Bool) (fuel : Nat) (rtn : NodeId) :
    p.descend ap more fuel rtn = d.descend ap more fuel rtn := by
  induction fuel generalizing rtn with
  | zero => rfl
  | succ fuel ih => simp only [Rtt.descend, a.node_eq, ih]

theorem Alike.backtrack_eq (ap : Addr) (bitlen fuel : Nat) (rtn : Option NodeId) :
    p.backtrack ap bitlen fuel rtn = d.backtrack ap bitlen fuel rtn := by
  induction fuel generalizing rtn with
  | zero => cases rtn <;> rfl
  | succ fuel ih =>
    cases rtn with
    | none => rfl
    | some rtn =>
      cases live : d.nodes rtn with
      | none =>
        simp only [Rtt.backtrack, a.node_eq, node_freed live]
        rfl
      | some n =>
        simp only [Rtt.backtrack, a.node_eq, node_of live, ok_bind, ih]
        cases head : n.rtnRth with
        | none => rfl
        | some rth => simp only [a.headAddr_eq live head]

theorem Alike.climbWhile_eq (above : RtNode → Bool) (fuel : Nat) (rtn : NodeId) :
    p.climbWhile above fuel rtn = d.climbWhile above fuel rtn := by
  induction fuel generalizing rtn with
  | zero => rfl
  | succ fuel ih => simp only [Rtt.climbWhile, a.node_eq, ih]

theorem Alike.climbRight_eq (valid above : RtNode → Bool) (fuel : Nat) (rtn : NodeId) :
    p.climbRight valid above fuel rtn = d.climbRight valid above fuel rtn := by
  induction fuel generalizing rtn with
  | zero => rfl
  | succ fuel ih => simp only [Rtt.climbRight, a.node_eq, ih]

theorem Alike.preorderNext_eq (rtn : NodeId) : p.preorderNext rtn = d.preorderNext rtn := by
  simp only [Rtt.preorderNext, a.node_eq, a.climbRight_eq]

theorem Alike.firstRth_eq (fuel : Nat) (rtn : NodeId) : p.firstRth fuel rtn = d.firstRth fuel rtn := by
  induction fuel generalizing rtn with
  | zero => rfl
  | succ fuel ih => simp only [Rtt.firstRth, a.node_eq, a.preorderNext_eq, ih]

theorem Alike.nextStart_eq (ap : Addr) (bitlen : Nat) (rtn : NodeId) :
    nextStart p ap bitlen rtn = nextStart d ap bitlen rtn := by
  simp only [nextStart, a.node_eq, a.descend_eq, a.preorderNext_eq, a.climbRight_eq, a.climbWhile_eq]
  cases d.descend ap (fun n => n.rtnBit < bitlen || n.rtnRth = none) Rtt.pathFuel rtn with
  | error e => rfl
  | ok rtn =>
    cases live : d.nodes rtn with
    | none =>
      simp only [ok_bind, node_freed live]
      rfl
    | some n =>
      simp only [ok_bind, node_of live]
      cases head : n.rtnRth with
      | none => rfl
      | some rth => simp only [deref_some, ok_bind, a.headAddr_eq live head]

theorem Alike.rthFrom_eq (rtn : Option NodeId) : rthFrom p rtn = rthFrom d rtn := by
  cases rtn <;> simp only [rthFrom, a.firstRth_eq]

theorem Alike.secondBest_eq (ap : Addr) (bitlen : Nat) (rtn : Option NodeId) :
    secondBest p ap bitlen rtn = secondBest d ap bitlen rtn := by
  simp only [secondBest, a.node_eq, a.backtrack_eq]

/-- The searches for the best head, with what is done at its node. -/
theorem Alike.atBest {α : Type} {Q : α → α → Prop} (root : NodeId) {x y : α} (same : Q x y)
    {f g : RtNode → Except Fault α} (ending : ∀ n, Agree Q (f n) (g n)) :
    Agree Q
      (do
        let rtn ← d.descend addr (fun n => n.rtnBit < bitlen) Rtt.pathFuel root
        match ← d.backtrack addr bitlen Rtt.pathFuel (some rtn) with
        | none => return x
        | some rtn => f (← d.node rtn))
      (do
        let rtn ← p.descend addr (fun n => n.rtnBit < bitlen) Rtt.pathFuel root
        match ← p.backtrack addr bitlen Rtt.pathFuel (some rtn) with
        | none => return y
        | some rtn => g (← p.node rtn)) := by
  simp only [a.descend_eq, a.backtrack_eq, a.node_eq]
  apply Agree.same
  intro rtn
  apply Agree.same
  intro best
  cases best with
  | none => exact .pure same
  | some rtn => exact .same ending

end Searches

end SonicUtils.Radix
