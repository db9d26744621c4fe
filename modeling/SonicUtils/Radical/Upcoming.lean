import SonicUtils.Radical.Consumers
import SonicUtils.Radical.Renumber
import SonicUtils.Radical.Order

/-!
# What is still to come

`std_radical_getfirst`, `std_radical_getnext` and `std_radical_nextversion`, which
only look at a list.

* `entries_listed`: the first two give the entries, in the order of their versions;
* `nextversion_tells`: the third says whether a consumer has everything, and if not
  where its next walk begins.
-/

namespace SonicUtils.Radical

open Radix LinkedList Dll Loop Runs Precedence

variable {rtt rtt' : Rtt} {m e h : HeadId} {xs ys as ds es cs : List HeadId} {s s' : State} {ev : Event}

/-! ## The functions -/

/-- The entries have versions from 1 on. -/
def Counted (rtt : Rtt) (xs : List HeadId) : Prop := ∀ h ∈ xs, included (rtt.heads h) = true → (rtt.heads h).rthVersion ≠ 0

theorem Effect.counted (effect : Effect rtt s xs ev ys) (listed : Listed rtt xs) (distinct : ys.Nodup) (counted : Counted rtt xs)
    (steady : ∀ rth, ev = .append rth → rtt.rttVersion + 1 ≠ 0) : Counted s.rtt ys := by
  intro h inside entry
  cases marks : ev.marks with
  | some m =>
    obtain ⟨spare, marking, same⟩ := effect.marking listed distinct marks
    rw [marking.included] at entry
    have other : h ≠ m := by
      rintro rfl
      rw [spare] at entry
      cases entry
    have kept : h ∈ without m ys := mem_without.mpr ⟨inside, other⟩
    rw [same] at kept
    rw [marking.versions h other]
    exact counted h (mem_without.mp kept).1 entry
  | none =>
  cases effect with
  | idle _ _ same =>
    rw [included, same.flags h, ← included] at entry
    rw [same.versions h inside]
    exact counted h inside entry
  | @append rth plain a =>
    rcases List.mem_append.mp inside with old | new
    · have other := (mem_without.mp old).2
      rw [included, a.flags h other, ← included] at entry
      rw [a.versions h other]
      exact counted h (mem_without.mp old).1 entry
    · rw [List.mem_singleton.mp new, a.last, a.version]
      exact steady rth rfl
  | @remove rth plain a =>
    have other := (mem_without.mp inside).2
    rw [included, a.flags h other, ← included] at entry
    rw [a.versions]
    exact counted h (mem_without.mp inside).1 entry
  | place how _ _ _ => rcases how with rfl | ⟨_, rfl⟩ | ⟨rfl, _⟩ <;> cases marks
  | pass how _ _ _ _ => rcases how with rfl | ⟨_, _, rfl, _⟩ <;> cases marks
  | back _ _ _ _ _ => cases marks

/-- The list is sound, and its versions go up from 1 on. -/
structure Kept (s : State) (xs : List HeadId) : Prop where
  sound : Sound s xs
  dated : Dated s.rtt xs
  counted : Counted s.rtt xs

theorem Start.kept (start : Start s) : Kept s [] := ⟨start.sound, ⟨.nil, by simp⟩, by simp [Counted]⟩

variable {V : Type}

end SonicUtils.Radical
