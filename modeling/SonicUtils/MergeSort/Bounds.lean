import SonicUtils.MergeSort.Sorting

/-!
# The `int` expressions of `std_merge_sort`

* `divideNSort_persists`: more fuel only changes that there was too little;
* `divideNSort_overflows`: a part of the array that reaches too far up;
* `int_arithmetic_iff`: for how many elements no expression overflows.
-/

namespace SonicUtils.MergeSort

open Loop Merge

variable {γ α : Type} {u : User γ α} {s : Buffers γ α}

theorem int_overflows {z : Int} (high : 2 ^ 31 ≤ z) : int z = .error .overflow :=
  if_neg fun fits => by omega

theorem mergeArrays_persists (u : User γ α) (left mid right : Int) (s : Buffers γ α) (fuel : Nat) :
    Persists .noReturn (fun fuel => u.stdMergeSortMergeArrays left mid right s fuel) fuel := by
  unfold User.stdMergeSortMergeArrays
  apply Persists.bind (.const _ _) fun leftEnd => ?_
  apply Persists.bind (.const _ _) fun distance => ?_
  apply Persists.bind (.const _ _) fun numElements => ?_
  apply Persists.bind (.loop _ _ _ _) fun m => ?_
  apply Persists.bind (.loop _ _ _ _) fun m => ?_
  apply Persists.bind (.loop _ _ _ _) fun m => ?_
  exact .loop _ _ _ _

theorem divideNSort_persists (u : User γ α) (left right : Int) (s : Buffers γ α) (fuel : Nat) :
    Persists .noReturn (fun fuel => u.stdMergeSortDivideNSort left right s fuel) fuel := by
  induction fuel generalizing left right s with
  | zero => exact fun enough => absurd rfl enough
  | succ fuel ih =>
    by_cases more : left < right
    · have turn (fuel : Nat) : u.stdMergeSortDivideNSort left right s (fuel + 1) = int (right + left) >>= fun sum =>
          u.stdMergeSortDivideNSort left (sum.tdiv 2) s fuel >>= fun s =>
            int (sum.tdiv 2 + 1) >>= fun next =>
              u.stdMergeSortDivideNSort next right s fuel >>= fun s =>
                int (sum.tdiv 2 + 1) >>= fun mid => u.stdMergeSortMergeArrays left mid right s fuel := by
        rw [User.stdMergeSortDivideNSort, if_pos more]
      apply Persists.of_succ turn
      apply Persists.bind (.const _ _) fun sum => ?_
      apply Persists.bind (ih _ _ _) fun s => ?_
      apply Persists.bind (.const _ _) fun next => ?_
      apply Persists.bind (ih _ _ _) fun s => ?_
      apply Persists.bind (.const _ _) fun mid => ?_
      exact mergeArrays_persists _ _ _ _ _ _
    · intro _
      dsimp only
      rw [User.stdMergeSortDivideNSort, User.stdMergeSortDivideNSort, if_neg more, if_neg more]

/-- The sum of the indices of a part that reaches so far up overflows, in it or in its
second half. -/
theorem divideNSort_overflows (copies : Copies u) {P d S : List α} {left right : Int} (array : s.array = P ++ (d ++ S))
    (hl : left = P.length) (hr : right = P.length + d.length - 1) (far : 2 ^ 30 < right) (two : 2 ≤ d.length)
    (small : s.array.length ≤ 2 ^ 31 - 1) (same : s.tmpArray.length = s.array.length) :
    Raises (u.stdMergeSortDivideNSort left right s) .overflow := by
  induction count : d.length using Nat.strongRecOn generalizing s P d S left with
  | ind n ih =>
    by_cases large : 2 ^ 31 ≤ right + left
    · refine .of_succ ⟨0, fun fuel _ => ?_⟩
      dsimp only
      rw [User.stdMergeSortDivideNSort, if_pos (by omega), int_overflows large]
      rfl
    · obtain ⟨xs, ys, rfl, hxs⟩ := exists_halves two
      rw [count] at hxs
      rw [List.length_append] at count hr
      have middle : (right + left).tdiv 2 = P.length + xs.length - 1 := by
        rw [Int.tdiv_eq_ediv_of_nonneg (by omega), hxs]
        omega
      rw [List.append_assoc] at array
      have any : Chooses u fun _ _ _ => True := fun _ _ _ _ _ _ _ _ => trivial
      obtain ⟨xs', context, tmp, first, sorts, same'⟩ :=
        divideNSort_spec copies any array hl rfl (by omega) small same
      have countX : xs'.length = xs.length := sorts.perm.length_eq
      have length : (P ++ (xs' ++ (ys ++ S))).length = s.array.length := by
        simp only [array, List.length_append, countX]
      have second : Raises (u.stdMergeSortDivideNSort (P.length + xs.length - 1 + 1) right
          ⟨context, P ++ (xs' ++ (ys ++ S)), tmp⟩) .overflow := by
        apply ih ys.length (by omega) (P := P ++ xs') (S := S) (List.append_assoc ..).symm
        · rw [List.length_append, countX]
          omega
        · rw [hr, List.length_append, countX]
          omega
        · omega
        · exact length ▸ small
        · exact same'.trans (same.trans length.symm)
        · rfl
      apply Raises.of_succ
      rw [divideNSort_halves (by omega) (by omega) (by omega) middle (by omega)]
      exact first.raises (second.bind _)

/-- The run on `n` elements overflows when the last index is so large. -/
theorem mergeSort_overflows (copies : Copies u) {n : Nat} (range : n < 2 ^ 31) (far : 2 ^ 30 + 1 < n)
    (array : s.array.length = n) (tmp : s.tmpArray.length = n) : Raises (u.stdMergeSort n s) .overflow := by
  have last : ((n : Int) - 1) = ([] : List α).length + (s.array.length : Int) - 1 := by
    rw [array, List.length_nil]
    omega
  have run : u.stdMergeSort n s = fun fuel => u.stdMergeSortDivideNSort 0 (n - 1) s fuel := by
    funext fuel
    rw [User.stdMergeSort, int_of (by omega) (by omega), trap_bind]
  rw [run]
  exact divideNSort_overflows copies (P := []) (d := s.array) (S := []) (List.append_nil _).symm rfl last (by omega)
    (by omega) (by omega) (tmp.trans array.symm)

/-- **When no `int` expression overflows.** The sum of two indices is formed before it is
halved: the last two elements that are looked at together decide. -/
theorem int_arithmetic_iff (u : User γ α) (copies : Copies u) (s : Buffers γ α) (n : Nat) (range : n < 2 ^ 31)
    (array : s.array.length = n) (tmp : s.tmpArray.length = n) :
    (∀ fuel, u.stdMergeSort n s fuel ≠ .error .overflow) ↔ n ≤ 2 ^ 30 + 1 := by
  constructor
  · intro fits
    by_contra far
    obtain ⟨enough, run⟩ := mergeSort_overflows copies range (by omega) array tmp
    exact fits enough (run enough (Nat.le_refl _))
  · intro few fuel overflows
    have any : Chooses u fun _ _ _ => True := fun _ _ _ _ _ _ _ _ => trivial
    obtain ⟨s', returns, _⟩ := mergeSort_spec copies any few array tmp
    have persists (fuel : Nat) : Persists .noReturn (u.stdMergeSort n s) fuel :=
      Persists.bind (.const _ _) fun last => divideNSort_persists u 0 last s fuel
    obtain run | run := returns.cases persists fuel
    · cases overflows.symm.trans run
    · cases overflows.symm.trans run

theorem int_arithmetic_iff_counted :
    (∀ fuel, (counted id).stdMergeSort (3 : Nat) ⟨0, [2, 1, 2], [0, 0, 0]⟩ fuel ≠ .error .overflow) ↔ 3 ≤ 2 ^ 30 + 1 :=
  int_arithmetic_iff (counted id) (copies_counted id) ⟨0, [2, 1, 2], [0, 0, 0]⟩ 3 (by decide) rfl rfl

/-- With two elements more than `2 ^ 30` the run overflows. -/
theorem many_elements_overflow : ∃ s : Buffers Nat Nat, s.array.length = 2 ^ 30 + 2 ∧ s.tmpArray.length = 2 ^ 30 + 2 ∧
    ∃ fuel, (counted id).stdMergeSort (2 ^ 30 + 2 : Nat) s fuel = .error .overflow := by
  let zeros : List Nat := List.replicate (2 ^ 30 + 2) 0
  have length : zeros.length = 2 ^ 30 + 2 := List.length_replicate
  obtain ⟨enough, run⟩ := mergeSort_overflows (s := ⟨0, zeros, zeros⟩) (copies_counted id) (by omega) (by omega) length length
  exact ⟨⟨0, zeros, zeros⟩, length, length, enough, run enough (Nat.le_refl _)⟩

end SonicUtils.MergeSort
