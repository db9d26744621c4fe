import Mathlib.Algebra.Group.Int.Defs
import Mathlib.Algebra.Group.Nat.Defs
import SonicUtils.Lib.Loop

/-!
# Merge sort

`std_merge_sort` with the array and the scratch array as lists. Every `int`
expression is computed exactly and then checked; the indices that are given to the
compare and the copy function are checked before the call.
-/

namespace SonicUtils.MergeSort

open Loop

/-- An `int` expression overflows, an index is not one of the array, or a loop does
not end. -/
inductive Trap
  | overflow
  | outOfRange
  | noReturn
  deriving DecidableEq, Repr

/-- The value of an `int` expression. -/
def int (z : Int) : Except Trap Int :=
  if -2 ^ 31 ≤ z ∧ z < 2 ^ 31 then pure z else throw .overflow

variable {γ α : Type}

def inside (l : List α) (i : Int) : Except Trap Unit :=
  if 0 ≤ i ∧ i < l.length then pure () else throw .outOfRange

/-- `cmp_func` and `copy_func`. Each gives the context that it leaves, and
`copy_func` the destination array. -/
structure User (γ α : Type) where
  cmpFunc : γ → List α → Int → List α → Int → Int × γ
  copyFunc : γ → List α → Int → List α → Int → List α × γ

structure Buffers (γ α : Type) where
  context : γ
  array : List α
  tmpArray : List α

namespace User

variable (u : User γ α)

/-- `cmp_func (context, array, i, array, j)`. -/
def cmp (s : Buffers γ α) (i j : Int) : Except Trap (Int × Buffers γ α) := do
  inside s.array i
  inside s.array j
  let (c, context) := u.cmpFunc s.context s.array i s.array j
  return (c, { s with context := context })

/-- `copy_func (context, tmp_array, i, array, j)`. -/
def copyOut (s : Buffers γ α) (i j : Int) : Except Trap (Buffers γ α) := do
  inside s.tmpArray i
  inside s.array j
  let (tmpArray, context) := u.copyFunc s.context s.tmpArray i s.array j
  return { s with context := context, tmpArray := tmpArray }

/-- `copy_func (context, array, i, tmp_array, j)`. -/
def copyBack (s : Buffers γ α) (i j : Int) : Except Trap (Buffers γ α) := do
  inside s.array i
  inside s.tmpArray j
  let (array, context) := u.copyFunc s.context s.array i s.tmpArray j
  return { s with context := context, array := array }

/-- The variables of the merging loops. -/
structure Merging (γ α : Type) where
  s : Buffers γ α
  left : Int
  mid : Int
  currPos : Int

/-- `while ((left <= left_end) && (mid <= right))`. -/
def mergeTurn (leftEnd right : Int) (m : Merging γ α) : Except Trap (Merging γ α ⊕ Merging γ α) := do
  if m.left ≤ leftEnd ∧ m.mid ≤ right then
    let (c, s) ← u.cmp m.s m.left m.mid
    if c ≤ 0 then
      let s ← u.copyOut s m.currPos m.left
      return .inl ⟨s, ← int (m.left + 1), m.mid, ← int (m.currPos + 1)⟩
    else
      let s ← u.copyOut s m.currPos m.mid
      return .inl ⟨s, m.left, ← int (m.mid + 1), ← int (m.currPos + 1)⟩
  else return .inr m

/-- `while (left <= left_end)` and `while (mid <= right)`, on the arrays, the index and
`curr_pos`. -/
def restTurn (last : Int) (m : Buffers γ α × Int × Int) :
    Except Trap ((Buffers γ α × Int × Int) ⊕ (Buffers γ α × Int)) := do
  let (s, i, currPos) := m
  if i ≤ last then
    let s ← u.copyOut s currPos i
    return .inl (s, ← int (i + 1), ← int (currPos + 1))
  else return .inr (s, currPos)

/-- `for (index = 0; index < num_elements; index++)`, on the arrays, `index` and
`right`. -/
def backTurn (numElements : Int) (m : Buffers γ α × Int × Int) :
    Except Trap ((Buffers γ α × Int × Int) ⊕ Buffers γ α) := do
  let (s, index, right) := m
  if index < numElements then
    let s ← u.copyBack s right right
    let right ← int (right - 1)
    return .inl (s, ← int (index + 1), right)
  else return .inr s

/-- `std_merge_sort_merge_arrays`. -/
def stdMergeSortMergeArrays (left mid right : Int) (s : Buffers γ α) (fuel : Nat) : Except Trap (Buffers γ α) := do
  let leftEnd ← int (mid - 1)
  let numElements ← int ((← int (right - left)) + 1)
  let m ← loop .noReturn (u.mergeTurn leftEnd right) fuel ⟨s, left, mid, left⟩
  let (s, currPos) ← loop .noReturn (u.restTurn leftEnd) fuel (m.s, m.left, m.currPos)
  let (s, _) ← loop .noReturn (u.restTurn right) fuel (s, m.mid, currPos)
  loop .noReturn (u.backTurn numElements) fuel (s, 0, right)

/-- `std_merge_sort_divide_n_sort`. -/
def stdMergeSortDivideNSort (left right : Int) (s : Buffers γ α) : Nat → Except Trap (Buffers γ α)
  | 0 => throw .noReturn
  | fuel + 1 =>
    if left < right then do
      let mid := (← int (right + left)).tdiv 2
      let s ← stdMergeSortDivideNSort left mid s fuel
      let s ← stdMergeSortDivideNSort (← int (mid + 1)) right s fuel
      u.stdMergeSortMergeArrays left (← int (mid + 1)) right s fuel
    else return s

/-- `std_merge_sort`. -/
def stdMergeSort (numElements : Int) (s : Buffers γ α) (fuel : Nat) : Except Trap (Buffers γ α) := do
  u.stdMergeSortDivideNSort 0 (← int (numElements - 1)) s fuel

end User

end SonicUtils.MergeSort
