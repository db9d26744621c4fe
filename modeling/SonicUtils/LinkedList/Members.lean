import SonicUtils.LinkedList.Sequence

/-!
# The items of a list

On the list are `xs`, and all other items have null pointers, so that
`std_dll_islinked` tells which ones they are. Every operation leads from such
a list to another.
-/

namespace SonicUtils.LinkedList.Dll

variable {ι : Type} {d d' : Dll ι} {xs as bs : List ι} {a i new : ι}

/-- On the list are `xs` and no other items. -/
structure Just (d : Dll ι) (xs : List ι) : Prop where
  stands : StandsFor d xs
  off : ∀ i ∉ xs, d.dllNext (.item i) = none ∧ d.dllBack (.item i) = none

theorem Just.distinct (h : Just d xs) : xs.Nodup := h.stands.distinct

theorem Just.inserted (h : Just d (as ++ bs)) (ins : Inserted d d' as bs new) : Just d' (as ++ new :: bs) := by
  refine ⟨ins.stands, fun j out => ?_⟩
  simp only [List.mem_append, List.mem_cons, not_or] at out
  have other : j ∉ as ++ bs := by simp [out]
  obtain ⟨next, back⟩ := ins.keeps j out.2.1 other
  rw [next, back]
  exact h.off j other

theorem Just.removed (h : Just d (as ++ i :: bs)) (gone : Removed d d' as bs i) : Just d' (as ++ bs) := by
  refine ⟨gone.stands, fun j out => ?_⟩
  by_cases same : j = i
  · exact same ▸ gone.off
  · have other : j ∉ as ++ i :: bs := by simpa [same] using out
    obtain ⟨next, back⟩ := gone.keeps j other
    rw [next, back]
    exact h.off j other

theorem just_init [DecidableEq ι] : Just (init : Dll ι) [] := by
  refine ⟨⟨?_, List.nodup_nil⟩, fun i _ => ⟨by simp [init], by simp [init]⟩⟩
  simp [full, Chain.Linked, init]

theorem Just.islinked_iff (h : Just d xs) (i : ι) : d.islinked (.item i) = true ↔ i ∈ xs := by
  constructor
  · intro linked
    by_contra out
    simp [islinked, h.off i out] at linked
  · intro inside
    obtain ⟨as, bs, rfl⟩ := List.append_of_mem inside
    simp [islinked, h.stands.next_item, h.stands.back_item]

variable [DecidableEq ι]

/-- A list stands for one sequence. -/
theorem StandsFor.unique {ys : List ι} (h : StandsFor d xs) (h' : StandsFor d ys) : xs = ys := by
  have same := (forward_spec h).unique (forward_spec h')
  exact List.map_injective_iff.mpr (fun _ _ => DllRef.item.inj) same

theorem Just.remove (h : Just d (as ++ i :: bs)) : ∃ d', d.remove (.item i) = .ok d' ∧ Just d' (as ++ bs) := by
  obtain ⟨d', run, gone⟩ := h.stands.remove
  exact ⟨d', run, h.removed gone⟩

theorem Just.insertatfront (h : Just d xs) (fresh : new ∉ xs) :
    ∃ d', d.insertatfront (.item new) = .ok d' ∧ Just d' (new :: xs) := by
  have place : Just d ([] ++ xs) := h
  have fresh' : new ∉ [] ++ xs := fresh
  obtain ⟨d', run, ins⟩ := place.stands.insertafter fresh'
  exact ⟨d', run, place.inserted ins⟩

theorem Just.insertatback (h : Just d xs) (fresh : new ∉ xs) :
    ∃ d', d.insertatback (.item new) = .ok d' ∧ Just d' (xs ++ [new]) := by
  have place : Just d (xs ++ []) := by rwa [List.append_nil]
  have fresh' : new ∉ xs ++ [] := by rwa [List.append_nil]
  obtain ⟨d', run, ins⟩ := place.stands.insertbefore fresh'
  exact ⟨d', run, place.inserted ins⟩

theorem Just.insertafter (h : Just d (as ++ a :: bs)) (fresh : new ∉ as ++ a :: bs) :
    ∃ d', d.insertafter (.item a) (.item new) = .ok d' ∧ Just d' (as ++ a :: new :: bs) := by
  rw [List.append_cons] at h fresh
  obtain ⟨d', run, ins⟩ := h.stands.insertafter fresh
  simp only [rear, List.getLast?_concat, Option.map_some, Option.getD_some] at run
  have done := h.inserted ins
  rw [List.append_assoc] at done
  exact ⟨d', run, done⟩

theorem Just.insertbefore (h : Just d (as ++ a :: bs)) (fresh : new ∉ as ++ a :: bs) :
    ∃ d', d.insertbefore (.item a) (.item new) = .ok d' ∧ Just d' (as ++ new :: a :: bs) := by
  obtain ⟨d', run, ins⟩ := h.stands.insertbefore fresh
  exact ⟨d', run, h.inserted ins⟩

omit [DecidableEq ι] in
theorem Just.getnext [DecidableEq ι] (h : Just d (as ++ a :: bs)) :
    d.getnext (.item a) = bs.head?.map .item := getnext_of h.stands.next_item

end SonicUtils.LinkedList.Dll
