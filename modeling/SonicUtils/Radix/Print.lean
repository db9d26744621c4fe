import SonicUtils.Lib.TreeDrawing
import SonicUtils.Radix.Represents

/-!
# Printing a radix table

`std_radix_print`. `number`, which is written to and not printed, is left out. An
index beyond one of the arrays is a fault, of the kind of a null pointer.

* `printaddr_returns`: a key of at most 256 bits fits in its buffer;
* `print_iff`: when the arrays are large enough.
-/

namespace SonicUtils.Radix

open PtrTree BitTrie Loop TreeDrawing

/-- What is in `tmpstr`, and `offset`. -/
structure Printed where
  tmpstr : List Char
  offset : Nat

/-- `snprintf` at the offset, with the rest of the 256 bytes as the size. -/
def Printed.snprintf (p : Printed) (text : List Char) : Except Fault Printed :=
  if p.offset ≤ 256 then return ⟨p.tmpstr ++ text.take (256 - p.offset - 1), p.offset + text.length⟩
  else throw .nullPointer

/-- The loop of `std_radix_printaddr`. -/
def printBytes (addr : Addr) (n : Nat) : Except Fault Printed :=
  (List.range n).foldlM (fun p i => p.snprintf (Nat.toDigits 10 (addr i).toNat ++ ['.'])) ⟨[], 0⟩

def stdRadixPrintaddr (addr : Option Addr) (bitlen : Nat) : Except Fault (List Char) :=
  match addr with
  | none => return []
  | some addr => do
    let i := bitlen / 8 - if bitlen % 8 = 0 then 1 else 0
    let p ← printBytes addr i
    return (← p.snprintf (Nat.toDigits 10 (addr i).toNat)).tmpstr

/-- A line, with the key if the node has a head, and the address of the head or the node. -/
structure Line where
  indent : List Char
  rtnBit : Nat
  addr : Option (List Char)
  version : Version
  rtnLock : UInt8
  rtnFlags : UInt8
  ptr : Nat
  deriving DecidableEq, Repr

namespace Rtt

variable (rtt : Rtt)

def shownLine (rn : NodeId) (indent : List Char) : Except Fault Line := do
  let n ← rtt.node rn
  match n.rtnRth with
  | some rth =>
    let addr ← stdRadixPrintaddr (rtt.heads rth).rdxRthAddr rtt.rttMaxaddrlen
    return ⟨indent, n.rtnBit, some addr, (rtt.heads rth).rthVersion, n.rtnLock, n.rtnFlags, rth⟩
  | none => return ⟨indent, n.rtnBit, none, n.rtnVersion, n.rtnLock, n.rtnFlags, rn⟩

/-- `MAXDEPTH`. -/
def maxdepth : Nat := 255

def drawing : Drawing Fault NodeId Line where
  size := maxdepth
  outside := .nullPointer
  left rn := do return (← rtt.node rn).rtnLeft
  right rn := do return (← rtt.node rn).rtnRight
  line := rtt.shownLine

/-- `std_radix_print`, where `maxprint` is `std_radix_maxprint`. -/
def stdRadixPrint (maxprint : UInt64) (fuel : Nat) : Except Fault (List Line) := do
  rtt.validateHandle
  if maxprint < rtt.rttInodes then return []
  else
    match rtt.rttRoot with
    | none => return []
    | some root => rtt.drawing.draw .noReturn root fuel

end Rtt

variable {rtt : Rtt} {t : RtTree} {p : Option NodeId} {bitlen : Nat} {maxprint : UInt64}

/-! ## Keys -/

theorem length_decimal (b : UInt8) : (Nat.toDigits 10 b.toNat).length ≤ 3 := by
  have less := b.toNat_lt
  exact (Nat.length_toDigits_le_iff (by decide) (by decide)).mpr (by omega)

theorem snprintf_inside {p : Printed} (room : p.offset ≤ 256) (text : List Char) :
    p.snprintf text = .ok ⟨p.tmpstr ++ text.take (256 - p.offset - 1), p.offset + text.length⟩ := if_pos room

theorem printBytes_succ (addr : Addr) (n : Nat) : printBytes addr (n + 1) =
    (do (← printBytes addr n).snprintf (Nat.toDigits 10 (addr n).toNat ++ ['.'])) := by
  rw [printBytes, List.range_succ, List.foldlM_append]
  simp only [List.foldlM_cons, List.foldlM_nil, bind_pure]
  rfl

theorem printBytes_returns (addr : Addr) {n : Nat} (few : n ≤ 64) :
    ∃ p, printBytes addr n = .ok p ∧ p.offset ≤ 4 * n := by
  induction n with
  | zero => exact ⟨⟨[], 0⟩, rfl, Nat.le_refl 0⟩
  | succ n ih =>
    obtain ⟨p, run, short⟩ := ih (by omega)
    have digits := length_decimal (addr n)
    have room : p.offset ≤ 256 := by omega
    rw [printBytes_succ, run]
    refine ⟨_, snprintf_inside room _, ?_⟩
    simp only [List.length_append, List.length_singleton]
    omega

theorem printaddr_returns (addr : Option Addr) (fits : bitlen ≤ 256) :
    ∃ text, stdRadixPrintaddr addr bitlen = .ok text := by
  cases addr with
  | none => exact ⟨[], rfl⟩
  | some addr =>
    have few : (bitlen / 8 - if bitlen % 8 = 0 then 1 else 0) ≤ 32 := by omega
    obtain ⟨p, run, short⟩ := printBytes_returns addr (few.trans (by decide : 32 ≤ 64))
    have room : p.offset ≤ 256 := by omega
    simp only [stdRadixPrintaddr, run, ok_bind, snprintf_inside room]
    exact ⟨_, rfl⟩

/-! ## Lines -/

/-- The nodes that are drawn. -/
def shown (t : RtTree) : BinaryTree NodeId := t.map Prod.fst

theorem top_shown (t : RtTree) : top (shown t) = root t := by
  cases t <;> rfl

theorem draws_shown (fits : rtt.rttMaxaddrlen ≤ 256) (linked : Linked rtt.mem p t) :
    Draws rtt.drawing (fun _ => True) (shown t) := by
  induction t generalizing p with
  | nil => trivial
  | node x l r ihl ihr =>
    obtain ⟨⟨⟨n, live, holds⟩, _⟩, left, right⟩ := linked
    refine ⟨?_, ?_, fun columns => ?_, ihl left, ihr right⟩
    · change (do return (← rtt.node x.1).rtnLeft) = Except.ok (top (shown l))
      rw [node_of live, top_shown]
      exact congrArg Except.ok holds.left
    · change (do return (← rtt.node x.1).rtnRight) = Except.ok (top (shown r))
      rw [node_of live, top_shown]
      exact congrArg Except.ok holds.right
    · change ∃ line, rtt.shownLine x.1 columns = .ok line ∧ True
      rw [Rtt.shownLine, node_of live, ok_bind]
      cases n.rtnRth with
      | none => exact ⟨_, rfl, trivial⟩
      | some rth =>
        obtain ⟨text, run⟩ := printaddr_returns (rtt.heads rth).rdxRthAddr fits
        simp only [run, ok_bind]
        exact ⟨_, rfl, trivial⟩

/-- The arrays are large enough. -/
def PrintsInside (rtt : Rtt) (maxprint : UInt64) : Prop := ∃ lines, Returns (rtt.stdRadixPrint maxprint) lines

/-- **When a table is printed inside.** -/
theorem print_iff (rep : Represents rtt t) (ready : Ready rtt) (fits : rtt.rttMaxaddrlen ≤ 256) (maxprint : UInt64) :
    PrintsInside rtt maxprint ↔ maxprint < rtt.rttInodes ∨ t.height ≤ 85 := by
  have valid : rtt.validateHandle = .ok () := check_of ready.magic
  unfold PrintsInside Rtt.stdRadixPrint
  simp only [valid, ok_bind, rep.root]
  by_cases large : maxprint < rtt.rttInodes
  · simp only [if_pos large]
    exact iff_of_true ⟨[], .of_ok fun _ => rfl⟩ (.inl large)
  · simp only [if_neg large]
    rw [or_iff_right large]
    cases t with
    | nil => exact iff_of_true ⟨[], .of_ok fun _ => rfl⟩ (Nat.zero_le _)
    | node x l r =>
      have drawn := draw_iff .noReturn (draws_shown fits rep.linked) (x := x.1) rfl
      rw [shown, height_map] at drawn
      simp only [implies_true, and_true] at drawn
      refine drawn.trans ?_
      change _ < 255 + 3 ↔ _
      omega

end SonicUtils.Radix
