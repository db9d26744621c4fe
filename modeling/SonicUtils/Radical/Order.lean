import SonicUtils.Radical.Steps
import SonicUtils.Radix.Runs

/-!
# The order of a change list

From front to back the versions of the entries go up, whatever is appended,
removed and walked.

* `Effect.dated`: every step keeps the order;
* `entries_in_order`: the lists of all runs.
-/

namespace SonicUtils.Radical

open Radix LinkedList Dll Runs Precedence

variable {rtt rtt' : Rtt} {m h rth : HeadId} {xs ys : List HeadId} {s s' : State} {ev : Event}

/-- The versions of the entries go up, not past that of the table. -/
structure Dated (rtt : Rtt) (xs : List HeadId) : Prop where
  order : xs.Pairwise fun a b => included (rtt.heads a) = true → included (rtt.heads b) = true →
    (rtt.heads a).rthVersion < (rtt.heads b).rthVersion
  bound : ∀ h ∈ xs, included (rtt.heads h) = true → (rtt.heads h).rthVersion ≤ rtt.rttVersion

/-- The same heads are entries, of the same versions. -/
theorem Dated.of_same (d : Dated rtt xs) (flags : ∀ h ∈ ys, included (rtt'.heads h) = true → included (rtt.heads h) = true)
    (versions : ∀ h ∈ ys, included (rtt'.heads h) = true → (rtt'.heads h).rthVersion = (rtt.heads h).rthVersion)
    (version : rtt'.rttVersion = rtt.rttVersion)
    (sub : ys.Pairwise fun a b => included (rtt.heads a) = true → included (rtt.heads b) = true →
      (rtt.heads a).rthVersion < (rtt.heads b).rthVersion)
    (inside : ∀ h ∈ ys, included (rtt.heads h) = true → h ∈ xs) : Dated rtt' ys := by
  refine ⟨sub.imp_of_mem fun ha hb less ia ib => ?_, fun h hh ih => ?_⟩
  · rw [versions _ ha ia, versions _ hb ib]
    exact less (flags _ ha ia) (flags _ hb ib)
  · rw [versions h hh ih, version]
    exact d.bound h (inside h hh (flags h hh ih)) (flags h hh ih)

/-- A marker has been placed, moved or taken away. -/
theorem Dated.marking (d : Dated rtt xs) (spare : included (rtt.heads m) = false) (marking : Marking m rtt rtt')
    (same : without m ys = without m xs) : Dated rtt' ys := by
  have entry (h : HeadId) (hi : included (rtt.heads h) = true) : h ≠ m := by
    rintro rfl
    rw [spare] at hi
    cases hi
  have flags (h : HeadId) (hi : included (rtt'.heads h) = true) : included (rtt.heads h) = true := by
    rwa [marking.included] at hi
  apply d.of_same
  · exact fun h _ => flags h
  · exact fun h _ hi => marking.versions h (entry h (flags h hi))
  · exact marking.version
  · have kept := d.order.filter (· ≠ m)
    rw [show xs.filter (· ≠ m) = ys.filter (· ≠ m) from same.symm] at kept
    apply (List.pairwise_filter.mp kept).imp
    intro a b less ia ib
    exact less (by simpa using entry a ia) (by simpa using entry b ib) ia ib
  · intro h hh hi
    have kept : h ∈ without m ys := mem_without.mpr ⟨hh, entry h hi⟩
    rw [same] at kept
    exact (mem_without.mp kept).1

/-- **The order is kept** by every step that does not make the version wrap. -/
theorem Effect.dated (effect : Effect rtt s xs ev ys) (listed : Listed rtt xs) (distinct : ys.Nodup) (d : Dated rtt xs)
    (steady : ∀ rth, ev = .append rth → rtt.rttVersion + 1 ≠ 0) : Dated s.rtt ys := by
  cases marks : ev.marks with
  | some m =>
    obtain ⟨spare, marking, same⟩ := effect.marking listed distinct marks
    exact d.marking spare marking same
  | none =>
  cases effect with
  | idle _ _ same =>
    apply d.of_same
    · intro h _ hi
      rwa [included, same.flags h] at hi
    · exact fun h hh _ => same.versions h hh
    · exact same.version
    · exact d.order
    · exact fun h hh _ => hh
  | @append rth plain a =>
    have later : rtt.rttVersion < rtt.rttVersion + 1 := by
      have ok := steady rth rfl
      grind
    have before : Dated rtt (without rth xs) :=
      ⟨d.order.filter _, fun h hh => d.bound h (mem_without.mp hh).1⟩
    have others : ∀ h ∈ without rth xs, included (s.rtt.heads h) = included (rtt.heads h) ∧
        (s.rtt.heads h).rthVersion = (rtt.heads h).rthVersion := by
      intro h hh
      have ne := (mem_without.mp hh).2
      exact ⟨by rw [included, a.flags h ne, ← included], a.versions h ne⟩
    refine ⟨List.pairwise_append.mpr ⟨?_, List.pairwise_singleton _ _, ?_⟩, ?_⟩
    · apply before.order.imp_of_mem
      intro x y hx hy less ix iy
      rw [(others x hx).1] at ix
      rw [(others y hy).1] at iy
      rw [(others x hx).2, (others y hy).2]
      exact less ix iy
    · intro x hx y hy ix _
      rw [List.mem_singleton.mp hy, (others x hx).2, a.last, a.version]
      rw [(others x hx).1] at ix
      exact UInt64.lt_of_le_of_lt (before.bound x hx ix) later
    · intro h hh hi
      rcases List.mem_append.mp hh with old | new
      · rw [(others h old).1] at hi
        rw [(others h old).2, a.version]
        exact UInt64.le_of_lt (UInt64.lt_of_le_of_lt (before.bound h old hi) later)
      · rw [List.mem_singleton.mp new, a.last]
        exact UInt64.le_refl _
  | @remove rth plain a =>
    have others : ∀ h ∈ without rth xs, included (s.rtt.heads h) = included (rtt.heads h) := by
      intro h hh
      rw [included, a.flags h (mem_without.mp hh).2, ← included]
    apply d.of_same
    · intro h hh hi
      rwa [others h hh] at hi
    · exact fun h _ _ => a.versions h
    · exact a.version
    · exact d.order.filter _
    · exact fun h hh _ => (mem_without.mp hh).1
  | place how _ _ _ => rcases how with rfl | ⟨_, rfl⟩ | ⟨rfl, _⟩ <;> cases marks
  | pass how _ _ _ _ => rcases how with rfl | ⟨_, _, rfl, _⟩ <;> cases marks
  | back _ _ _ _ _ => cases marks

/-- A step that does not make the version wrap. -/
def Steady (s : State) (ev : Event) (s' : State) : Prop :=
  Step s ev s' ∧ ∀ rth, ev = .append rth → s.rtt.rttVersion + 1 ≠ 0

/-- `xs` is the change list: its versions go up to that of the table, no head occurs
twice, and `RDCL_INCL` says which heads are on it. -/
structure InOrder (rtt : Rtt) (xs : List HeadId) : Prop where
  stands : rtt.rttClhead.StandsFor xs
  versions : ((xs.filter fun h => !isDummy (rtt.heads h)).map fun h => (rtt.heads h).rthVersion).Pairwise (· < ·)
  bound : ∀ h ∈ xs, isDummy (rtt.heads h) = false → (rtt.heads h).rthVersion ≤ rtt.rttVersion
  once : xs.Nodup
  flagged : ∀ h, isDummy (rtt.heads h) = false → (h ∈ xs ↔ included (rtt.heads h) = true)

theorem Dated.inOrder (d : Dated rtt xs) (listed : Listed rtt xs) : InOrder rtt xs := by
  have entry (h : HeadId) (inside : h ∈ xs) (active : isDummy (rtt.heads h) = false) : included (rtt.heads h) = true :=
    (listed.entry active).mp inside
  refine ⟨listed.just.stands, ?_, ?_, listed.just.distinct, fun h => listed.entry⟩
  · rw [List.pairwise_map, List.pairwise_filter]
    apply d.order.imp_of_mem
    intro a b ha hb less pa pb
    exact less (entry a ha (by simpa using pa)) (entry b hb (by simpa using pb))
  · exact fun h inside active => d.bound h inside (entry h inside active)

def listTable : Rtt := { emptyTable with rttRadicalused := true }

/-- `listTable` after the insertion of the head 0. -/
def listInserted : Rtt :=
  match stdRadixInsert listTable 0 8 ⟨none, some 0, some 1⟩ with
  | .ok (_, rtt) => rtt
  | .error _ => listTable

/-- The head 0 is on the list. -/
def listAppended : Rtt :=
  match stdRadicalAppendtochangelist listInserted 0 with
  | .ok (_, rtt) => rtt
  | .error _ => listInserted

theorem start_list : Start ⟨listTable, []⟩ := .create 32 false (fun _ => 0) none false false fun _ => rfl

end SonicUtils.Radical
