import Mathlib.Data.List.Perm.Basic
import SonicUtils.Lib.Compare

/-!
# Merging and sorting

`choose x y left` says that a merge may take `x` before `y`, if `left`, or else `y`
before `x`.

* `Merges`, `Sorts`: what comes out of a merge, and of a sort by merges;
* `Sorts.perm`: a permutation, whatever is chosen;
* `Sorts.ascending`, `Sorts.stable`: in ascending order, and equal elements in their
  old order, if the smaller element is chosen and of equal ones the left one;
* `StablySorted.unique`: there is one way to sort stably.
-/

namespace SonicUtils.Merge

open Compare

variable {α : Type} {choose : α → α → Bool → Prop} {compare : α → α → Int} {a b c l l' : List α}

inductive Merges (choose : α → α → Bool → Prop) : List α → List α → List α → Prop
  | left {x y : α} {a b c : List α} : choose x y true → Merges choose a (y :: b) c →
      Merges choose (x :: a) (y :: b) (x :: c)
  | right {x y : α} {a b c : List α} : choose x y false → Merges choose (x :: a) b c →
      Merges choose (x :: a) (y :: b) (y :: c)
  | restLeft (a : List α) : Merges choose a [] a
  | restRight (b : List α) : Merges choose [] b b

inductive Sorts (choose : α → α → Bool → Prop) : List α → List α → Prop
  | short {l : List α} : l.length ≤ 1 → Sorts choose l l
  | halves {a a' b b' c : List α} : Sorts choose a a' → Sorts choose b b' → Merges choose a' b' c →
      Sorts choose (a ++ b) c

/-- The choice of a stable sort. -/
def Stably (compare : α → α → Int) (x y : α) (left : Bool) : Prop := left = true ↔ compare x y ≤ 0

theorem Merges.perm (h : Merges choose a b c) : c.Perm (a ++ b) := by
  induction h with
  | left _ _ ih => exact ih.cons _
  | right _ _ ih => exact (ih.cons _).trans List.perm_middle.symm
  | restLeft a => rw [List.append_nil]
  | restRight b => exact .refl _

theorem Sorts.perm (h : Sorts choose l l') : l'.Perm l := by
  induction h with
  | short => exact .refl _
  | halves _ _ merges ihA ihB => exact merges.perm.trans (ihA.append ihB)

theorem Merges.ascending (order : TotalPreorder compare) (h : Merges (Stably compare) a b c)
    (first : Ascending compare a) (second : Ascending compare b) : Ascending compare c := by
  induction h with
  | @left x y a b c chosen merges ih =>
    obtain ⟨least, tail⟩ := List.pairwise_cons.mp first
    refine List.pairwise_cons.mpr ⟨?_, ih tail second⟩
    intro z hz
    have le : compare x y ≤ 0 := chosen.mp rfl
    rw [merges.perm.mem_iff, List.mem_append, List.mem_cons] at hz
    cases hz with
    | inl inA => exact least z inA
    | inr inB =>
      cases inB with
      | inl same => exact same ▸ le
      | inr inB => exact order.trans _ _ _ le ((List.pairwise_cons.mp second).1 z inB)
  | @right x y a b c chosen merges ih =>
    obtain ⟨least, tail⟩ := List.pairwise_cons.mp second
    refine List.pairwise_cons.mpr ⟨?_, ih first tail⟩
    intro z hz
    have more : ¬compare x y ≤ 0 := fun le => Bool.noConfusion (chosen.mpr le)
    have less : compare y x ≤ 0 := by
      have flip := order.flip y x
      omega
    rw [merges.perm.mem_iff, List.mem_append, List.mem_cons] at hz
    cases hz with
    | inl inA =>
      cases inA with
      | inl same => exact same ▸ less
      | inr inA => exact order.trans _ _ _ less ((List.pairwise_cons.mp first).1 z inA)
    | inr inB => exact least z inB
  | restLeft => exact first
  | restRight => exact second

theorem Sorts.ascending (order : TotalPreorder compare) (h : Sorts (Stably compare) l l') : Ascending compare l' := by
  induction h with
  | @short l few =>
    cases l with
    | nil => exact List.Pairwise.nil
    | cons x l =>
      have none_ : l = [] := List.length_eq_zero_iff.mp (by simpa using few)
      subst none_
      exact List.pairwise_singleton _ _
  | halves _ _ merges ihA ihB => exact merges.ascending order ihA ihB

/-- The elements that are equal to `e`, in their order. -/
def equals (compare : α → α → Int) (e : α) (l : List α) : List α := l.filter fun x => compare e x = 0

theorem equals_cons {e x : α} (l : List α) (same : compare e x = 0) :
    equals compare e (x :: l) = x :: equals compare e l := List.filter_cons_of_pos (by simpa using same)

theorem equals_skip {e x : α} (l : List α) (other : compare e x ≠ 0) :
    equals compare e (x :: l) = equals compare e l := List.filter_cons_of_neg (by simpa using other)

theorem Merges.stable (order : TotalPreorder compare) (h : Merges (Stably compare) a b c)
    (first : Ascending compare a) (e : α) : equals compare e c = equals compare e a ++ equals compare e b := by
  induction h with
  | @left x y a b c chosen merges ih =>
    have tail := ih (List.pairwise_cons.mp first).2
    by_cases here : compare e x = 0
    · rw [equals_cons _ here, equals_cons _ here, tail, List.cons_append]
    · rw [equals_skip _ here, equals_skip _ here, tail]
  | @right x y a b c chosen merges ih =>
    have tail := ih first
    have more : ¬compare x y ≤ 0 := fun le => Bool.noConfusion (chosen.mpr le)
    by_cases here : compare e y = 0
    · -- all that is left on the left side is greater
      have none_ : equals compare e (x :: a) = [] := by
        rw [equals, List.filter_eq_nil_iff]
        intro z hz same
        have equal : compare e z = 0 := by simpa using same
        have least : compare x z ≤ 0 := by
          cases hz with
          | head => exact Int.le_of_eq (order.refl x)
          | tail _ mem => exact (List.pairwise_cons.mp first).1 z mem
        have back : compare z e ≤ 0 := Int.le_of_eq (order.eq_comm.mp equal)
        exact more (order.trans _ _ _ (order.trans _ _ _ least back) (Int.le_of_eq here))
      rw [none_, List.nil_append] at tail ⊢
      rw [equals_cons _ here, equals_cons _ here, tail]
    · rw [equals_skip _ here, equals_skip b here, tail]
  | restLeft => simp [equals]
  | restRight => simp [equals]

/-- Equal elements keep their order. -/
theorem Sorts.stable (order : TotalPreorder compare) (h : Sorts (Stably compare) l l') (e : α) :
    equals compare e l' = equals compare e l := by
  induction h with
  | short => rfl
  | halves sortsA _ merges ihA ihB =>
    rw [merges.stable order (sortsA.ascending order), ihA, ihB]
    rw [equals, equals, equals, List.filter_append]

/-! ## Stable sorts -/

/-- `l'` is `l` in ascending order, with equal elements in their old order. -/
structure StablySorted (compare : α → α → Int) (l l' : List α) : Prop where
  ascending : Ascending compare l'
  stable : ∀ e, equals compare e l' = equals compare e l

theorem head_le {x : α} (order : TotalPreorder compare) (h : Ascending compare (x :: l)) {y : α}
    (mem : y ∈ x :: l) : compare x y ≤ 0 := by
  cases mem with
  | head => exact Int.le_of_eq (order.refl x)
  | tail _ mem => exact (List.pairwise_cons.mp h).1 y mem

theorem mem_of_equals {x : α} (order : TotalPreorder compare) (same : equals compare x (x :: a) = equals compare x b) :
    x ∈ b := by
  rw [equals_cons a (order.refl x)] at same
  have mem : x ∈ equals compare x b := same ▸ List.mem_cons_self
  exact List.mem_of_mem_filter mem

/-- A sorted list is known by its classes of equal elements. -/
theorem eq_of_equals (order : TotalPreorder compare) (ha : Ascending compare a) (hb : Ascending compare b)
    (same : ∀ e, equals compare e a = equals compare e b) : a = b := by
  induction a generalizing b with
  | nil =>
    cases b with
    | nil => rfl
    | cons y b => cases mem_of_equals order (same y).symm
  | cons x a ih =>
    cases b with
    | nil => cases mem_of_equals order (same x)
    | cons y b =>
      have le : compare x y ≤ 0 := head_le order ha (mem_of_equals order (same y).symm)
      have ge : compare y x ≤ 0 := head_le order hb (mem_of_equals order (same x))
      have flip := order.flip x y
      have back := order.flip y x
      have equal : compare x y = 0 := by omega
      have heads := same x
      rw [equals_cons a (order.refl x), equals_cons b equal] at heads
      obtain ⟨rfl, _⟩ := List.cons.inj heads
      refine congrArg (x :: ·) (ih (List.pairwise_cons.mp ha).2 (List.pairwise_cons.mp hb).2 fun e => ?_)
      have classes := same e
      by_cases here : compare e x = 0
      · rw [equals_cons a here, equals_cons b here] at classes
        exact (List.cons.inj classes).2
      · rwa [equals_skip a here, equals_skip b here] at classes

/-- **There is one way to sort stably.** -/
theorem StablySorted.unique (order : TotalPreorder compare) (ha : StablySorted compare l a)
    (hb : StablySorted compare l b) : a = b :=
  eq_of_equals order ha.ascending hb.ascending fun e => (ha.stable e).trans (hb.stable e).symm

end SonicUtils.Merge
