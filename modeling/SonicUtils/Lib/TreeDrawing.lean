import Mathlib.Data.Tree.Basic
import SonicUtils.Lib.Loop

/-!
# Drawing a tree

A binary tree is drawn on its side, a line for each node, with a stack of nodes
and, for what is in front of a node, a line of characters, three for each level.
Both have the same size, and an index beyond it is a fault.

* `Drawing.draw`: the loop, whose state is the stack, the characters and the lines;
* `draw_iff`: which trees fit.
-/

namespace SonicUtils.TreeDrawing

open Loop

/-- How far a node on the stack is: nothing is drawn, or its right subtree, or all but its
left subtree. -/
inductive Stage
  | unseen
  | rightDone
  | drawn
  deriving DecidableEq, Repr

structure Slot (ν : Type) where
  node : ν
  stage : Stage
  right : Bool

/-- The stack has its top in front. -/
structure State (ν ℓ : Type) where
  stack : List (Slot ν)
  columns : List Char
  lines : List ℓ

/-- What there is to draw, and where an index beyond the size leads. -/
structure Drawing (ε ν ℓ : Type) where
  size : Nat
  outside : ε
  left : ν → Except ε (Option ν)
  right : ν → Except ε (Option ν)
  line : ν → List Char → Except ε ℓ

variable {ε ν ℓ : Type}

namespace Drawing

/-- An index of the stack or of the characters. -/
def index (d : Drawing ε ν ℓ) (i : Nat) : Except ε Unit := if i < d.size then pure () else throw d.outside

def push (d : Drawing ε ν ℓ) (s : State ν ℓ) (node : ν) (right : Bool) : Except ε (State ν ℓ) := do
  d.index s.stack.length
  return { s with stack := ⟨node, .unseen, right⟩ :: s.stack }

/-- The first of the characters. -/
def indent (d : Drawing ε ν ℓ) (columns : List Char) (n : Nat) : Except ε (List Char) :=
  if n ≤ d.size then pure (columns.take n) else throw d.outside

/-- The line of the node on the top, and its left subtree. -/
def drawTurn (d : Drawing ε ν ℓ) (s : State ν ℓ) (top : Slot ν) (below : List (Slot ν)) : Except ε (State ν ℓ) := do
  let column := below.length * 3
  let line ← d.line top.node (← d.indent s.columns column)
  d.index column
  let s := { s with columns := s.columns.set column (if top.right then '|' else ' '), lines := s.lines ++ [line] }
  match ← d.left top.node with
  | some l => d.push { s with stack := { top with stage := .drawn } :: below } l false
  | none => return { s with stack := below }

def turn (d : Drawing ε ν ℓ) (s : State ν ℓ) : Except ε (State ν ℓ ⊕ List ℓ) :=
  match s.stack with
  | [] => return .inr s.lines
  | top :: below =>
    match top.stage with
    | .unseen => do
      match ← d.right top.node with
      | some r => return .inl (← d.push { s with stack := { top with stage := .rightDone } :: below } r true)
      | none => return .inl (← d.drawTurn s top below)
    | .rightDone => return .inl (← d.drawTurn s top below)
    | .drawn => return .inl { s with stack := below }

/-- The root is on the stack, as a right subtree, and the characters are blank. -/
def draw (d : Drawing ε ν ℓ) (out : ε) (root : ν) (fuel : Nat) : Except ε (List ℓ) :=
  loop out d.turn fuel ⟨[⟨root, .unseen, true⟩], List.replicate d.size ' ', []⟩

end Drawing

def top : BinaryTree ν → Option ν
  | .nil => none
  | .node x _ _ => some x

/-- The tree is what there is to draw, and all its lines have the property. -/
def Draws (d : Drawing ε ν ℓ) (P : ℓ → Prop) : BinaryTree ν → Prop
  | .nil => True
  | .node x l r => d.left x = .ok (top l) ∧ d.right x = .ok (top r) ∧
      (∀ columns, ∃ line, d.line x columns = .ok line ∧ P line) ∧ Draws d P l ∧ Draws d P r

variable {d : Drawing ε ν ℓ} {P : ℓ → Prop} {t l r : BinaryTree ν} {x : ν} {stage : Stage} {below stack : List (Slot ν)}
  {columns : List Char} {lines : List ℓ} {right : Bool} {out : ε}

theorem top_map {α : Type} (f : α → ν) (t : BinaryTree α) : top (t.map f) = (top t).map f := by
  cases t <;> rfl

theorem height_map {α : Type} (f : α → ν) (t : BinaryTree α) : (t.map f).height = t.height := by
  induction t with
  | nil => rfl
  | node x l r ihl ihr => rw [BinaryTree.map, BinaryTree.height, BinaryTree.height, ihl, ihr]

theorem ok_bind_eq {α β : Type} (a : α) (f : α → Except ε β) : (Except.ok a >>= f) = f a := rfl

theorem push_inside (room : stack.length < d.size) :
    d.push ⟨stack, columns, lines⟩ x right = .ok ⟨⟨x, .unseen, right⟩ :: stack, columns, lines⟩ := by
  rw [Drawing.push, Drawing.index, if_pos room]
  rfl

theorem push_outside (full : d.size ≤ stack.length) : d.push ⟨stack, columns, lines⟩ x right = .error d.outside := by
  rw [Drawing.push, Drawing.index, if_neg (Nat.not_lt.mpr full)]
  rfl

/-- The line of a node whose column is inside. -/
theorem drawTurn_inside (draws : Draws d P (.node x l r)) (fits : below.length * 3 < d.size) :
    ∃ columns' line, P line ∧ d.drawTurn ⟨stack, columns, lines⟩ ⟨x, stage, right⟩ below =
      match top l with
      | some y => d.push ⟨⟨x, .drawn, right⟩ :: below, columns', lines ++ [line]⟩ y false
      | none => .ok ⟨below, columns', lines ++ [line]⟩ := by
  obtain ⟨left, _, line, _⟩ := draws
  obtain ⟨line, run, good⟩ := line (columns.take (below.length * 3))
  refine ⟨columns.set (below.length * 3) (if right then '|' else ' '), line, good, ?_⟩
  have room : d.indent columns (below.length * 3) = .ok (columns.take (below.length * 3)) := if_pos (by omega)
  have inside : d.index (below.length * 3) = .ok () := if_pos fits
  rw [Drawing.drawTurn]
  dsimp only
  rw [room, ok_bind_eq, run, ok_bind_eq, inside, ok_bind_eq, left, ok_bind_eq]
  cases top l <;> rfl

theorem drawTurn_outside (draws : Draws d P (.node x l r)) (far : d.size ≤ below.length * 3) :
    d.drawTurn ⟨stack, columns, lines⟩ ⟨x, stage, right⟩ below = .error d.outside := by
  obtain ⟨_, _, line, _⟩ := draws
  obtain ⟨line, run, _⟩ := line (columns.take (below.length * 3))
  have beyond : d.index (below.length * 3) = .error d.outside := if_neg (by omega)
  rw [Drawing.drawTurn]
  dsimp only
  by_cases room : below.length * 3 ≤ d.size
  · have taken : d.indent columns (below.length * 3) = .ok (columns.take (below.length * 3)) := if_pos room
    rw [taken, ok_bind_eq, run, ok_bind_eq, beyond]
    rfl
  · have taken : d.indent columns (below.length * 3) = .error d.outside := if_neg room
    rw [taken]
    rfl

/-- Once what is right of a node is drawn, its line is drawn. -/
theorem right_done (draws : Draws d P (.node x l r)) (right : Bool) (below : List (Slot ν)) (columns : List Char)
    (lines : List ℓ) :
    r = .nil ∧ d.turn ⟨⟨x, .unseen, right⟩ :: below, columns, lines⟩ =
        (do return .inl (← d.drawTurn ⟨⟨x, .unseen, right⟩ :: below, columns, lines⟩ ⟨x, .unseen, right⟩ below)) ∨
      ∃ y, top r = some y ∧ d.turn ⟨⟨x, .unseen, right⟩ :: below, columns, lines⟩ =
        (do return .inl (← d.push ⟨⟨x, .rightDone, right⟩ :: below, columns, lines⟩ y true)) := by
  obtain ⟨_, next, _⟩ := draws
  cases r with
  | nil =>
    left
    refine ⟨rfl, ?_⟩
    simp only [Drawing.turn, next]
    rfl
  | node y rl rr =>
    right
    refine ⟨y, rfl, ?_⟩
    simp only [Drawing.turn, next]
    rfl

/-- The node comes to be drawn if what is right of it is. -/
theorem ready_to_draw (draws : Draws d P (.node x l r)) (right : Bool) (below : List (Slot ν)) (columns : List Char)
    (good : ∀ line ∈ lines, P line) (rest : ∀ y, top r = some y → below.length + 1 < d.size ∧ ∃ columns' lines', (∀ line ∈ lines', P line) ∧
      Leads d.turn ⟨⟨y, .unseen, true⟩ :: ⟨x, .rightDone, right⟩ :: below, columns, lines⟩
        ⟨⟨x, .rightDone, right⟩ :: below, columns', lines'⟩) :
    ∃ stage columns' lines', (∀ line ∈ lines', P line) ∧
      Leads d.turn ⟨⟨x, .unseen, right⟩ :: below, columns, lines⟩ ⟨⟨x, stage, right⟩ :: below, columns', lines'⟩ ∧
      d.turn ⟨⟨x, stage, right⟩ :: below, columns', lines'⟩ =
        (do return .inl (← d.drawTurn ⟨⟨x, stage, right⟩ :: below, columns', lines'⟩ ⟨x, stage, right⟩ below)) := by
  obtain ⟨_, turn⟩ | ⟨y, root, turn⟩ := right_done draws right below columns lines
  · exact ⟨.unseen, columns, lines, good, .refl _, turn⟩
  · obtain ⟨room, columns', lines', good', leads⟩ := rest y root
    have pushed : d.push ⟨⟨x, .rightDone, right⟩ :: below, columns, lines⟩ y true = .ok _ := push_inside room
    rw [pushed] at turn
    exact ⟨.rightDone, columns', lines', good', .head turn leads, rfl⟩

theorem height_pos (root : top t = some x) : 0 < t.height := by
  cases t with
  | nil => cases root
  | node => exact Nat.succ_pos _

/-- A tree that fits is drawn. -/
theorem draw_inside (draws : Draws d P t) (root : top t = some x) (fits : (below.length + t.height) * 3 < d.size + 3)
    (good : ∀ line ∈ lines, P line) : ∃ columns' lines', (∀ line ∈ lines', P line) ∧
      Leads d.turn ⟨⟨x, .unseen, right⟩ :: below, columns, lines⟩ ⟨below, columns', lines'⟩ := by
  induction t generalizing x right below columns lines with
  | nil => cases root
  | node y l r ihl ihr =>
    cases root
    have height : (BinaryTree.node y l r).height = max l.height r.height + 1 := rfl
    rw [height] at fits
    obtain ⟨stage, columns₁, lines₁, good₁, leads₁, turn₁⟩ := ready_to_draw draws right below columns good fun z root => by
      have some_ := height_pos root
      refine ⟨by omega, ihr draws.2.2.2.2 root ?_ good⟩
      rw [List.length_cons]
      omega
    have inside : below.length * 3 < d.size := by omega
    obtain ⟨columns₂, line, here, drawn⟩ := drawTurn_inside draws inside
    rw [drawn] at turn₁
    have good₂ : ∀ l ∈ lines₁ ++ [line], P l := List.forall_mem_append.mpr ⟨good₁, List.forall_mem_singleton.mpr here⟩
    cases left : top l with
    | none =>
      rw [left] at turn₁
      exact ⟨columns₂, lines₁ ++ [line], good₂, leads₁.trans (.single turn₁)⟩
    | some z =>
      have some_ := height_pos left
      rw [left] at turn₁
      dsimp only at turn₁
      have room : (⟨y, .drawn, right⟩ :: below : List (Slot ν)).length < d.size := by
        rw [List.length_cons]
        omega
      rw [push_inside room] at turn₁
      have shallow : ((⟨y, .drawn, right⟩ :: below : List (Slot ν)).length + l.height) * 3 < d.size + 3 := by
        rw [List.length_cons]
        omega
      obtain ⟨columns₃, lines₃, good₃, leads₃⟩ := ihl draws.2.2.2.1 left shallow good₂
      exact ⟨columns₃, lines₃, good₃, leads₁.trans (.head turn₁ (leads₃.trans (.single rfl)))⟩

/-- What is pushed leads outside, if it is not outside itself. -/
theorem push_raises {out : ε} {s : State ν ℓ} (turn : d.turn s = (do return .inl (← d.push ⟨stack, columns, lines⟩ x right)))
    (rest : Raises (fun fuel => loop out d.turn fuel ⟨⟨x, .unseen, right⟩ :: stack, columns, lines⟩) d.outside) :
    Raises (fun fuel => loop out d.turn fuel s) d.outside := by
  by_cases room : stack.length < d.size
  · rw [push_inside room] at turn
    exact (Leads.single turn).raises rest
  · rw [push_outside (Nat.le_of_not_lt room)] at turn
    exact .of_turn turn

/-- A tree that does not fit is not drawn. -/
theorem draw_outside (out : ε) (draws : Draws d P t) (root : top t = some x)
    (far : d.size + 3 ≤ (below.length + t.height) * 3) (good : ∀ line ∈ lines, P line) :
    Raises (fun fuel => loop out d.turn fuel ⟨⟨x, .unseen, right⟩ :: below, columns, lines⟩) d.outside := by
  induction t generalizing x right below columns lines with
  | nil => cases root
  | node y l r ihl ihr =>
    cases root
    have height : (BinaryTree.node y l r).height = max l.height r.height + 1 := rfl
    rw [height] at far
    by_cases rightFits : r = .nil ∨ (below.length + 1 + r.height) * 3 < d.size + 3
    · obtain ⟨stage, columns₁, lines₁, good₁, leads₁, turn₁⟩ := ready_to_draw draws right below columns good fun z root => by
        have some_ := height_pos root
        have shallow := rightFits.resolve_left fun none_ => by
          rw [none_] at root
          cases root
        refine ⟨by omega, draw_inside draws.2.2.2.2 root ?_ good⟩
        rw [List.length_cons]
        omega
      apply leads₁.raises
      by_cases fits : below.length * 3 < d.size
      · obtain ⟨columns₂, line, here, drawn⟩ := drawTurn_inside draws fits
        have good₂ : ∀ l ∈ lines₁ ++ [line], P l := List.forall_mem_append.mpr ⟨good₁, List.forall_mem_singleton.mpr here⟩
        rw [drawn] at turn₁
        have deep : d.size + 3 ≤ (below.length + 1 + l.height) * 3 := by
          obtain rfl | shallow := rightFits
          · rw [BinaryTree.height, Nat.max_zero] at far
            omega
          · omega
        cases left : top l with
        | none =>
          have none_ : l.height = 0 := by
            cases l with
            | nil => rfl
            | node => cases left
          omega
        | some z =>
          rw [left] at turn₁
          apply push_raises turn₁
          apply ihl draws.2.2.2.1 left ?_ good₂
          rw [List.length_cons]
          exact deep
      · rw [drawTurn_outside draws (Nat.le_of_not_lt fits)] at turn₁
        exact .of_turn turn₁
    · obtain ⟨some_, deep⟩ := not_or.mp rightFits
      obtain ⟨none_, _⟩ | ⟨z, root, turn⟩ := right_done draws right below columns lines
      · exact absurd none_ some_
      · apply push_raises turn
        apply ihr draws.2.2.2.2 root ?_ good
        rw [List.length_cons]
        omega

/-- **Which trees fit.** -/
theorem draw_iff (out : ε) (draws : Draws d P t) (root : top t = some x) :
    (∃ lines, Returns (d.draw out x) lines ∧ ∀ line ∈ lines, P line) ↔ t.height * 3 < d.size + 3 := by
  have none_ : ∀ line ∈ ([] : List ℓ), P line := List.forall_mem_nil _
  constructor
  · rintro ⟨lines, returns, _⟩
    by_contra far
    have fails : Raises (d.draw out x) d.outside := draw_outside out draws root (by simpa using far) none_
    exact fails.not_returns lines returns
  · intro fits
    have inside : (([] : List (Slot ν)).length + t.height) * 3 < d.size + 3 := by simpa using fits
    obtain ⟨columns, lines, good, leads⟩ := draw_inside draws root inside none_
    exact ⟨lines, leads.ends (.done rfl), good⟩

end SonicUtils.TreeDrawing
