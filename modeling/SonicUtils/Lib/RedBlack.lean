import Mathlib.Algebra.Group.Nat.Defs
import Mathlib.Data.Nat.Log
import SonicUtils.Lib.Inorder

/-!
# Red-black trees

The colours of a tree whose nodes have one, and of a tree with a hole.

* `Rb`: no red node has a red child, and all ways down pass equally many black
  nodes;
* `RbAbove`: what may fill the hole;
* `Rb.split`, `RbAbove.plug`: a filled tree and its two parts;
* `Rb.height_le`: how deep such a tree is.
-/

namespace SonicUtils.RedBlack

open PtrTree

inductive Color
  | black
  | red
  deriving DecidableEq, Repr

variable {α : Type} {color : α → Color} {c : Color} {n : Nat} {t : BinaryTree α} {f : Frame α} {fs : List (Frame α)}

/-- A red-black tree with a root of the given colour and the given number of
black nodes on each way down. -/
inductive Rb (color : α → Color) : Color → Nat → BinaryTree α → Prop
  | nil : Rb color .black 0 .nil
  | red {n : Nat} {x : α} {l r : BinaryTree α} (here : color x = .red) (left : Rb color .black n l)
      (right : Rb color .black n r) : Rb color .red n (.node x l r)
  | black {c c' : Color} {n : Nat} {x : α} {l r : BinaryTree α} (here : color x = .black) (left : Rb color c n l)
      (right : Rb color c' n r) : Rb color .black (n + 1) (.node x l r)

/-- Frames with a black root on top, whose hole may be filled by a tree with a
root of the given colour and so many black nodes on each way down. -/
inductive RbAbove (color : α → Color) : Color → Nat → List (Frame α) → Prop
  | top {n : Nat} : RbAbove color .black n []
  | red {n : Nat} {f : Frame α} {fs : List (Frame α)} (here : color f.node = .red) (beside : Rb color .black n f.other)
      (above : RbAbove color .red n fs) : RbAbove color .black n (f :: fs)
  | black {c c' : Color} {n : Nat} {f : Frame α} {fs : List (Frame α)} (here : color f.node = .black)
      (beside : Rb color c' n f.other) (above : RbAbove color .black (n + 1) fs) : RbAbove color c n (f :: fs)

/-- Above a red node there is a black one. -/
theorem RbAbove.of_red (h : RbAbove color .red n fs) :
    ∃ f fs' c, fs = f :: fs' ∧ color f.node = .black ∧ Rb color c n f.other ∧ RbAbove color .black (n + 1) fs' := by
  cases h with
  | black here beside above => exact ⟨_, _, _, rfl, here, beside, above⟩

theorem RbAbove.black_of_red (h : RbAbove color .red n fs) : RbAbove color .black n fs := by
  obtain ⟨f, fs', c, rfl, here, beside, above⟩ := h.of_red
  exact .black here beside above

theorem Rb.fill_red (h : Rb color .black n t) (here : color f.node = .red) (beside : Rb color .black n f.other) :
    Rb color .red n (f.fill t) := by
  cases f with
  | mk side x other =>
    cases side with
    | false => exact .red here h beside
    | true => exact .red here beside h

theorem Rb.fill_black {c' : Color} (h : Rb color c n t) (here : color f.node = .black) (beside : Rb color c' n f.other) :
    Rb color .black (n + 1) (f.fill t) := by
  cases f with
  | mk side x other =>
    cases side with
    | false => exact .black here h beside
    | true => exact .black here beside h

theorem RbAbove.plug (h : RbAbove color c n fs) (fits : Rb color c n t) : ∃ m, Rb color .black m (plug fs t) := by
  induction h generalizing t with
  | top => exact ⟨_, fits⟩
  | red here beside _ ih => exact ih (fits.fill_red here beside)
  | black here beside _ ih => exact ih (fits.fill_black here beside)

theorem Rb.of_fill {m : Nat} (h : Rb color c m (f.fill t)) :
    (c = .red ∧ color f.node = .red ∧ Rb color .black m t ∧ Rb color .black m f.other) ∨
      (c = .black ∧ color f.node = .black ∧ ∃ n d d', m = n + 1 ∧ Rb color d n t ∧ Rb color d' n f.other) := by
  cases f with
  | mk side x other =>
    cases side with
    | false =>
      cases h with
      | red here left right => exact .inl ⟨rfl, here, left, right⟩
      | black here left right => exact .inr ⟨rfl, here, _, _, _, rfl, left, right⟩
    | true =>
      cases h with
      | red here left right => exact .inl ⟨rfl, here, right, left⟩
      | black here left right => exact .inr ⟨rfl, here, _, _, _, rfl, right, left⟩

theorem Rb.split {m : Nat} (h : Rb color .black m (PtrTree.plug fs t)) : ∃ c n, Rb color c n t ∧ RbAbove color c n fs := by
  induction fs generalizing t with
  | nil => exact ⟨_, _, h, .top⟩
  | cons f fs ih =>
    obtain ⟨c, n, filled, above⟩ := ih h
    cases filled.of_fill with
    | inl parts =>
      obtain ⟨rfl, here, below, beside⟩ := parts
      exact ⟨_, _, below, .red here beside above⟩
    | inr parts =>
      obtain ⟨rfl, here, n, d, d', rfl, below, beside⟩ := parts
      exact ⟨_, _, below, .black here beside above⟩

/-- Below black nodes there are nodes. -/
theorem Rb.ne_nil (h : Rb color c (n + 1) t) : ∃ x l r, t = .node x l r := by
  cases h with
  | red => exact ⟨_, _, _, rfl⟩
  | black => exact ⟨_, _, _, rfl⟩

theorem Rb.node_black {x : α} {l r : BinaryTree α} (h : Rb color .black (n + 1) (.node x l r)) :
    color x = .black ∧ ∃ c c', Rb color c n l ∧ Rb color c' n r := by
  cases h with
  | black here left right => exact ⟨here, _, _, left, right⟩

theorem Rb.node_red {x : α} {l r : BinaryTree α} (h : Rb color .red n (.node x l r)) :
    color x = .red ∧ Rb color .black n l ∧ Rb color .black n r := by
  cases h with
  | red here left right => exact ⟨here, left, right⟩

/-! ## Height -/

theorem Rb.height_le_black (h : Rb color c n t) : t.height ≤ 2 * n + if c = .red then 1 else 0 := by
  induction h with
  | nil => simp
  | red _ _ _ ihl ihr =>
    simp only [reduceCtorEq, ↓reduceIte, BinaryTree.height] at ihl ihr ⊢
    omega
  | @black c c' n x l r _ _ _ ihl ihr =>
    simp only [reduceCtorEq, ↓reduceIte, BinaryTree.height]
    split at ihl <;> split at ihr <;> omega

theorem Rb.pow_le (h : Rb color c n t) : 2 ^ n ≤ t.numNodes + 1 := by
  induction h with
  | nil => simp
  | red _ _ _ ihl ihr =>
    simp only [BinaryTree.numNodes]
    omega
  | black _ _ _ ihl ihr =>
    simp only [BinaryTree.numNodes, Nat.pow_succ]
    omega

/-- The height of the tree is at most twice the logarithm of its size. -/
theorem Rb.height_le (h : Rb color .black n t) : t.height ≤ 2 * Nat.log 2 (t.numNodes + 1) := by
  have short := h.height_le_black
  have wide := Nat.le_log_of_pow_le (by omega) h.pow_le
  simp only [reduceCtorEq, ↓reduceIte] at short
  omega

end SonicUtils.RedBlack
