import Mathlib.Data.List.Infix

/-!
# Splitting at a separator

A list cut at the occurrences of another one, each looked for from the end of
the one before it.

* `firstIn`: the first occurrence;
* `Splits sep s parts`: `parts` are what is between the occurrences. Nothing
  comes after one at the end of `s`;
* `Splits.joined`, `Splits.free`: the parts with `sep` between them, and that no
  part has `sep` in it;
* `splits_pair_iff`: when there are two parts.
-/

namespace SonicUtils.Splitting

variable {α : Type} {sep s : List α} {parts : List (List α)} {n : Nat}

/-- Where `sep` starts in the list, for the first time. -/
def firstIn [DecidableEq α] (sep : List α) : List α → Option Nat
  | [] => if sep = [] then some 0 else none
  | a :: s => if sep <+: a :: s then some 0 else (firstIn sep s).map (· + 1)

/-- `sep` starts at `n`, and nowhere before. -/
structure FirstAt (sep s : List α) (n : Nat) : Prop where
  here : sep <+: s.drop n
  first : ∀ m < n, ¬ sep <+: s.drop m

theorem firstIn_some [DecidableEq α] (found : firstIn sep s = some n) : FirstAt sep s n := by
  induction s generalizing n with
  | nil =>
    rw [firstIn] at found
    split at found
    · rename_i empty
      cases found
      exact ⟨empty ▸ List.nil_prefix, fun m early => absurd early (Nat.not_lt_zero m)⟩
    · cases found
  | cons a s ih =>
    rw [firstIn] at found
    split at found
    · rename_i starts
      cases found
      exact ⟨starts, fun m early => absurd early (Nat.not_lt_zero m)⟩
    · rename_i later
      obtain ⟨k, inner, rfl⟩ := Option.map_eq_some_iff.mp found
      obtain ⟨here, first⟩ := ih inner
      refine ⟨here, fun m early => ?_⟩
      cases m with
      | zero => exact later
      | succ m => exact first m (by omega)

theorem firstIn_none [DecidableEq α] (found : firstIn sep s = none) : ¬ sep <:+: s := by
  induction s with
  | nil =>
    rw [firstIn] at found
    split at found
    · cases found
    · rename_i nonempty
      exact fun inside => nonempty (List.infix_nil.mp inside)
  | cons a s ih =>
    rw [firstIn] at found
    split at found
    · cases found
    · rename_i later
      have none := ih (Option.map_eq_none_iff.mp found)
      intro inside
      obtain starts | inside := List.infix_cons_iff.mp inside
      · exact later starts
      · exact none inside

/-- The list at an occurrence. -/
theorem FirstAt.cut (h : FirstAt sep s n) : s.take n ++ sep ++ s.drop (n + sep.length) = s := by
  obtain ⟨rest, split⟩ := h.here
  have behind : s.drop (n + sep.length) = rest := by
    rw [← List.drop_drop, ← split, List.drop_left]
  rw [behind, List.append_assoc, split, List.take_append_drop]

/-- Before the first occurrence there is none. -/
theorem FirstAt.free (h : FirstAt sep s n) (nonempty : sep ≠ []) : ¬ sep <:+: s.take n := by
  rintro ⟨before, after, split⟩
  have length := congrArg List.length split
  have positive := List.length_pos_iff.mpr nonempty
  simp only [List.length_append, List.length_take] at length
  apply h.first before.length (by omega)
  have whole : before ++ (sep ++ (after ++ s.drop n)) = s := by
    rw [← List.append_assoc sep, ← List.append_assoc before, ← List.append_assoc before, split, List.take_append_drop]
  rw [← whole, List.drop_left]
  exact List.prefix_append _ _

inductive Splits (sep : List α) : List α → List (List α) → Prop
  | nil : Splits sep [] []
  | last {s : List α} : s ≠ [] → ¬ sep <:+: s → Splits sep s [s]
  | cons {s : List α} {n : Nat} {parts : List (List α)} :
      FirstAt sep s n → Splits sep (s.drop (n + sep.length)) parts → Splits sep s (s.take n :: parts)

theorem Splits.free (h : Splits sep s parts) (nonempty : sep ≠ []) : ∀ part ∈ parts, ¬ sep <:+: part := by
  induction h with
  | nil =>
    intro part mem
    cases mem
  | last _ none => simpa using none
  | cons first _ ih => exact List.forall_mem_cons.mpr ⟨first.free nonempty, ih⟩

theorem Splits.parts_nil (h : Splits sep [] parts) (nonempty : sep ≠ []) : parts = [] := by
  cases h with
  | nil => rfl
  | last some => exact absurd rfl some
  | cons first =>
    have empty := first.here
    rw [List.drop_nil] at empty
    exact absurd (List.prefix_nil.mp empty) nonempty

theorem Splits.eq_nil (h : Splits sep s []) : s = [] := by
  cases h
  rfl

/-- The list, or the list without a separator at its end. -/
theorem Splits.joined (h : Splits sep s parts) : sep.intercalate parts = s ∨ sep.intercalate parts ++ sep = s := by
  induction h with
  | nil => exact .inl rfl
  | last _ _ => exact .inl List.intercalate_singleton
  | @cons s n parts first splits ih =>
    have cut := first.cut
    cases parts with
    | nil =>
      rw [splits.eq_nil, List.append_nil] at cut
      rw [List.intercalate_singleton]
      exact .inr cut
    | cons part parts =>
      rw [List.intercalate_cons_cons]
      apply ih.imp
      · intro whole
        rw [whole, cut]
      · intro whole
        rw [List.append_assoc, whole, cut]

theorem FirstAt.unique {m : Nat} (h : FirstAt sep s n) (h' : FirstAt sep s m) : n = m := by
  apply Nat.le_antisymm
  · exact Nat.le_of_not_lt fun before => h.first m before h'.here
  · exact Nat.le_of_not_lt fun before => h'.first n before h.here

theorem FirstAt.infix (h : FirstAt sep s n) : sep <:+: s :=
  h.here.isInfix.trans (List.drop_suffix n s).isInfix

theorem Splits.unique (nonempty : sep ≠ []) {parts' : List (List α)} (h : Splits sep s parts)
    (h' : Splits sep s parts') : parts = parts' := by
  induction h generalizing parts' with
  | nil => exact (h'.parts_nil nonempty).symm
  | last some_ none_ =>
    cases h' with
    | nil => exact absurd rfl some_
    | last => rfl
    | cons first => exact absurd first.infix none_
  | cons first _ ih =>
    cases h' with
    | nil => exact absurd (List.infix_nil.mp first.infix) nonempty
    | last _ none_ => exact absurd first.infix none_
    | cons first' rest =>
      cases first.unique first'
      rw [ih rest]

variable {c : α} {a l : List α}

theorem firstAt_separator (free : c ∉ a) : FirstAt [c] (a ++ c :: l) a.length := by
  constructor
  · rw [List.drop_left]
    exact ⟨l, rfl⟩
  · intro m before starts
    rw [List.drop_append_of_le_length (Nat.le_of_lt before), List.drop_eq_getElem_cons before, List.cons_append,
      List.cons_prefix_cons] at starts
    exact free (starts.1 ▸ List.getElem_mem before)

theorem Splits.separator (free : c ∉ a) (rest : Splits [c] s parts) : Splits [c] (a ++ c :: s) (a :: parts) := by
  have behind : (a ++ c :: s).drop (a.length + [c].length) = s := by
    rw [List.append_cons, ← List.length_append, List.drop_left]
  have split := Splits.cons (firstAt_separator free) (behind.symm ▸ rest)
  rwa [List.take_left] at split

/-- Nothing comes after a separator at the end, unless there is another one in front of it. -/
theorem splits_pair_iff : Splits [c] s [a, l] ↔
    c ∉ a ∧ c ∉ l ∧ (s = a ++ c :: l ∧ l ≠ [] ∨ s = a ++ c :: (l ++ [c])) := by
  constructor
  · intro splits
    have free := splits.free (List.cons_ne_nil c [])
    simp only [List.forall_mem_cons, List.singleton_infix_iff] at free
    refine ⟨free.1, free.2.1, ?_⟩
    cases splits with
    | cons first rest =>
      have cut := first.cut
      generalize s.drop (_ + [c].length) = behind at cut rest
      cases rest with
      | last some_ _ =>
        left
        exact ⟨by rw [List.append_cons]; exact cut.symm, some_⟩
      | cons second rest =>
        right
        have cut' := second.cut
        rw [rest.eq_nil, List.append_nil] at cut'
        rw [List.append_cons, cut']
        exact cut.symm
  · rintro ⟨before, after, ⟨rfl, some_⟩ | rfl⟩
    · exact .separator before (.last some_ (by rwa [List.singleton_infix_iff]))
    · exact .separator before (.separator after .nil)

end SonicUtils.Splitting
