import Mathlib.Data.List.Nodup

/-!
# What comes before what

Two elements of a list in their order. The lists have no duplicates where this
matters.

* `before_filter`: elements that are left out do not matter;
* `before_left`, `before_right`: what is before and behind an element.
-/

namespace SonicUtils.Precedence

variable {α : Type} {xs ys as bs : List α} {a b m : α}

/-- `a` comes before `b`. -/
def Before (xs : List α) (a b : α) : Prop := [a, b].Sublist xs

theorem Before.mem_left (h : Before xs a b) : a ∈ xs := h.subset (by simp)

theorem Before.mem_right (h : Before xs a b) : b ∈ xs := h.subset (by simp)

theorem before_filter {p : α → Bool} (ha : p a = true) (hb : p b = true) :
    Before (xs.filter p) a b ↔ Before xs a b := by
  constructor
  · exact fun h => h.trans List.filter_sublist
  · intro h
    have kept := h.filter p
    simpa [Before, ha, hb] using kept

theorem before_of_same {p : α → Bool} (same : xs.filter p = ys.filter p) (ha : p a = true) (hb : p b = true) :
    Before xs a b ↔ Before ys a b := by
  rw [← before_filter ha hb, same, before_filter ha hb]

theorem before_append : Before (as ++ bs) a b ↔ Before as a b ∨ Before bs a b ∨ a ∈ as ∧ b ∈ bs := by
  constructor
  · intro h
    obtain ⟨l₁, l₂, split, left, right⟩ := List.sublist_append_iff.mp h
    cases l₁ with
    | nil =>
      subst split
      exact .inr (.inl right)
    | cons x l₁ =>
      cases l₁ with
      | nil =>
        cases split
        exact .inr (.inr ⟨left.subset (by simp), right.subset (by simp)⟩)
      | cons y l₁ =>
        obtain ⟨rfl, rfl, rest⟩ : a = x ∧ b = y ∧ [] = l₁ ++ l₂ := by simpa using split
        obtain ⟨rfl, rfl⟩ := List.append_eq_nil_iff.mp rest.symm
        exact .inl left
  · rintro (h | h | ⟨ha, hb⟩)
    · exact h.trans (List.sublist_append_left as bs)
    · exact h.trans (List.sublist_append_right as bs)
    · exact (List.singleton_sublist.mpr ha).append (List.singleton_sublist.mpr hb)

theorem before_cons : Before (m :: bs) a b ↔ a = m ∧ b ∈ bs ∨ Before bs a b := by
  have one : ¬ Before [m] a b := fun h => by simpa using List.Sublist.length_le h
  have apart : m :: bs = [m] ++ bs := rfl
  rw [apart, before_append]
  simp [one, or_comm]

/-- What is behind `m`. -/
theorem before_right (distinct : (as ++ m :: bs).Nodup) : Before (as ++ m :: bs) m b ↔ b ∈ bs := by
  obtain ⟨_, right, apart⟩ := List.nodup_append.mp distinct
  have out : m ∉ as := fun h => apart m h m (by simp) rfl
  have off : m ∉ bs := (List.nodup_cons.mp right).1
  have none : ¬ Before as m b := fun h => out h.mem_left
  have later : ¬ Before bs m b := fun h => off h.mem_left
  simp [before_append, before_cons, none, later, out]

/-- What is before `m`. -/
theorem before_left (distinct : (as ++ m :: bs).Nodup) : Before (as ++ m :: bs) a m ↔ a ∈ as := by
  obtain ⟨_, right, apart⟩ := List.nodup_append.mp distinct
  have out : m ∉ as := fun h => apart m h m (by simp) rfl
  have off : m ∉ bs := (List.nodup_cons.mp right).1
  have none : ¬ Before as a m := fun h => out h.mem_right
  have later : ¬ Before bs a m := fun h => off h.mem_right
  simp [before_append, before_cons, none, later, off]

theorem Before.asymm (h : Before xs a b) (distinct : xs.Nodup) : ¬ Before xs b a := by
  intro back
  obtain ⟨as, bs, rfl⟩ := List.append_of_mem h.mem_left
  have behind := (before_right distinct).mp h
  have ahead := (before_left distinct).mp back
  obtain ⟨_, _, apart⟩ := List.nodup_append.mp distinct
  exact apart b ahead b (by simp [behind]) rfl

/-- Where an element of the first part stands in the whole. -/
theorem left_of_mem {cs es : List α} (whole : as ++ cs = bs ++ a :: es) (distinct : (as ++ cs).Nodup) (ha : a ∈ as) :
    ∃ ds, as = bs ++ a :: ds ∧ es = ds ++ cs := by
  obtain ⟨_, _, apart⟩ := List.nodup_append.mp distinct
  rcases List.append_eq_append_iff.mp whole with ⟨ds, _, right⟩ | ⟨ds, left, right⟩
  · exact absurd rfl (apart a ha a (by simp [right]))
  · cases ds with
    | nil =>
      rw [List.nil_append] at right
      exact absurd rfl (apart a ha a (by simp [← right]))
    | cons d ds =>
      obtain ⟨rfl, rfl⟩ := List.cons.inj right
      exact ⟨ds, left, rfl⟩

end SonicUtils.Precedence
