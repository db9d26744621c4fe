import Mathlib.Data.List.Induction
import Mathlib.Data.List.TakeWhile

/-!
# Numerals

Numbers from their digits, the highest first.

* `value_le`: in a greater base the same digits give no smaller number;
* `value_eq_iff`: and the same number only where the last digit is all there is;
* `read_eq_iff`: the same for a reader that stops at the first digit that its
  base does not have.
-/

namespace SonicUtils.Numeral

def value (base : Nat) (ds : List Nat) : Nat := ds.foldl (fun n d => base * n + d) 0

variable {b b' : Nat} {ds : List Nat}

@[simp] theorem value_nil (b : Nat) : value b [] = 0 := rfl

@[simp] theorem value_concat (b : Nat) (ds : List Nat) (d : Nat) : value b (ds ++ [d]) = b * value b ds + d := by
  rw [value, List.foldl_append]
  rfl

theorem value_eq_zero_iff (some_ : 0 < b) : value b ds = 0 ↔ ∀ d ∈ ds, d = 0 := by
  induction ds using List.reverseRecOn with
  | nil => simp
  | append_singleton ds d ih =>
    rw [value_concat, Nat.add_eq_zero_iff, Nat.mul_eq_zero, ih, List.forall_mem_append, List.forall_mem_singleton]
    constructor
    · rintro ⟨none_ | zeros, zero⟩
      · omega
      · exact ⟨zeros, zero⟩
    · rintro ⟨zeros, zero⟩
      exact ⟨.inr zeros, zero⟩

theorem value_le (less : b ≤ b') (ds : List Nat) : value b ds ≤ value b' ds := by
  induction ds using List.reverseRecOn with
  | nil => exact Nat.le_refl 0
  | append_singleton ds d ih =>
    rw [value_concat, value_concat]
    exact Nat.add_le_add_right (Nat.mul_le_mul less ih) d

theorem value_eq_iff (less : b < b') (d : Nat) :
    value b (ds ++ [d]) = value b' (ds ++ [d]) ↔ ∀ x ∈ ds, x = 0 := by
  rw [value_concat, value_concat, Nat.add_right_cancel_iff, ← value_eq_zero_iff (b := b') (by omega)]
  have low := value_le (Nat.le_of_lt less) ds
  constructor
  · intro same
    by_contra some_
    have first : b * value b ds ≤ b * value b' ds := Nat.mul_le_mul_left b low
    have second : b * value b' ds < b' * value b' ds := Nat.mul_lt_mul_of_pos_right less (Nat.pos_of_ne_zero some_)
    omega
  · intro zero
    rw [zero] at low ⊢
    rw [Nat.le_zero.mp low, Nat.mul_zero, Nat.mul_zero]

/-- What is read up to the first digit that the base does not have. -/
def read (base : Nat) (ds : List Nat) : Nat := value base (ds.takeWhile (· < base))

theorem read_all (digits : ∀ d ∈ ds, d < b) : read b ds = value b ds := by
  rw [read, List.takeWhile_eq_self_iff.mpr fun d at_ => decide_eq_true (digits d at_)]

theorem value_prefix (some_ : 0 < b) (ds es : List Nat) : value b ds ≤ value b (ds ++ es) := by
  induction es using List.reverseRecOn with
  | nil => rw [List.append_nil]
  | append_singleton es e ih =>
    rw [← List.append_assoc, value_concat]
    calc value b ds ≤ 1 * value b (ds ++ es) := by rw [Nat.one_mul]; exact ih
      _ ≤ b * value b (ds ++ es) := Nat.mul_le_mul_right _ some_
      _ ≤ _ := Nat.le_add_right _ _

theorem read_le (less : b < b') (ds : List Nat) : read b ds ≤ value b' ds := by
  calc read b ds ≤ value b' (ds.takeWhile (· < b)) := value_le (Nat.le_of_lt less) _
    _ ≤ value b' (ds.takeWhile (· < b) ++ ds.dropWhile (· < b)) := value_prefix (by omega) _ _
    _ = value b' ds := by rw [List.takeWhile_append_dropWhile]

/-- A reader in a smaller base reads the number only if it is a single digit that its base
has, with zeros in front. -/
theorem read_eq_iff (some_ : 0 < b) (less : b < b') (d : Nat) :
    read b (ds ++ [d]) = value b' (ds ++ [d]) ↔ (∀ x ∈ ds, x = 0) ∧ d < b := by
  by_cases digits : ∀ x ∈ ds ++ [d], x < b
  · rw [read_all digits, value_eq_iff less]
    exact (and_iff_left (digits d (by simp))).symm
  · constructor
    · intro same
      -- Something is left over, and begins with a digit that the smaller base does not have.
      obtain ⟨e, es, rest⟩ : ∃ e es, (ds ++ [d]).dropWhile (· < b) = e :: es :=
        List.exists_cons_of_ne_nil fun none_ => digits fun x at_ =>
          of_decide_eq_true (List.dropWhile_eq_nil_iff.mp none_ x at_)
      have high : b ≤ e := by
        have stopped := List.head?_dropWhile_not (fun x => decide (x < b)) (ds ++ [d])
        rw [rest] at stopped
        simpa using stopped
      have whole := List.takeWhile_append_dropWhile (p := fun x => decide (x < b)) (l := ds ++ [d])
      rw [rest, List.append_cons] at whole
      have low := value_le (Nat.le_of_lt less) ((ds ++ [d]).takeWhile (· < b))
      have longer := value_prefix (b := b') (by omega) ((ds ++ [d]).takeWhile (· < b) ++ [e]) es
      rw [whole, value_concat, ← same, read] at longer
      have grows := Nat.mul_le_mul_right (value b' ((ds ++ [d]).takeWhile (· < b))) (show 1 ≤ b' by omega)
      omega
    · rintro ⟨zeros, last⟩
      refine absurd (fun x at_ => ?_) digits
      obtain inner | rfl := by simpa using at_
      · rw [zeros x inner]
        exact some_
      · exact last

end SonicUtils.Numeral
