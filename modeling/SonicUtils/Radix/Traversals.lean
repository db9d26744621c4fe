import SonicUtils.Radix.Crowd
import SonicUtils.Radix.Sweep

/-!
# Three ways through a table

A walk from NULL with the count 0, the power walk and the iteration of
`std_radix_getnext` hand out all heads in the order of their prefixes, as long
as there are less than 2³² of them: `lcnt` is 64 bits wide, but the walk starts
it at 0xffffffff.

* `traversals_agree_iff`: when they agree;
* `walk_stops_short`: a table where they do not.
-/

namespace SonicUtils.Radix

open PtrTree BitTrie Loop

variable {rtt : Rtt} {m : PrefixMap HeadId} {t : RtTree}

/-- The address of a bound head starts with its prefix. -/
theorem Reachable.addressed (h : Reachable rtt m) {k : List Bool} {rth : HeadId} (bound : m k = some rth) :
    ∃ ap, (rtt.heads rth).rthAddr = some ap ∧ ap.bits k.length = k := by
  induction h with
  | create => cases bound
  | configure debug radicalused carused _ ih => exact ih bound
  | fill rth' head _ unused ih =>
    have other : rth ≠ rth' := fun same => unused k (same ▸ bound)
    rw [heads_writeHead, if_neg other]
    exact ih bound
  | @insert rtt rtt' m rth' ap bitlen mem res reach unused addr valid alloc run ih =>
    obtain ⟨s, t, rep, stored⟩ := reach.stores
    have loose := loose_iff.mpr (stored.unused_iff.mp unused)
    obtain ⟨_, _, run', _, _, addrs, _⟩ := insert_spec rep s loose addr valid alloc
    rw [run'] at run
    cases run
    rw [addrs]
    rw [PrefixMap.insert_apply] at bound
    split at bound
    · rename_i new
      cases bound
      refine ⟨ap, addr, ?_⟩
      rw [new.1, length_bits]
    · exact ih bound
  | @remove rtt rtt' m rth' k' reach bound' run ih =>
    obtain ⟨s, t, rep, stored⟩ := reach.stores
    obtain ⟨_, _, run', _, removed⟩ := remove_spec rep s ((stored k' rth').mp bound')
    rw [run'] at run
    cases run
    rw [removed.still.addrs]
    simp only [PrefixMap.unbind, Function.update_apply] at bound
    split at bound
    · cases bound
    · exact ih bound

/-- The walk lists all heads only if its counter does not end it before. -/
theorem few_of_walk (h : Reachable rtt m) {hs : List HeadId} {res : Option HeadId} (listed : m.ListedBy hs)
    (walk : Returns (stdRadixWalk rtt none (some passive) 0) (res, hs, rtt)) :
    {k | m k ≠ none}.ncard < 2 ^ 32 := by
  obtain ⟨settled, t, rep, stored⟩ := h.stores
  obtain ⟨res', walk'⟩ := walk_spec rep settled 0
  have same := walk.unique walk'
  simp only [Prod.mk.injEq, and_true] at same
  have short := congrArg List.length same.2
  have limit : (walkCount 0).toNat = 2 ^ 32 - 1 := rfl
  rw [List.length_take, limit] at short
  rw [listed.card]
  omega

/-- **The traversals agree**, and list every head once in the order of prefixes, if
and only if there are less than 2³² heads. -/
theorem traversals_agree_iff (h : Reachable rtt m) {bitlen : Nat} (valid : bitlen ≤ rtt.rttMaxaddrlen) :
    (∃ hs, m.ListedBy hs ∧ (∃ res, Returns (stdRadixWalk rtt none (some passive) 0) (res, hs, rtt)) ∧
      Returns (powerWalk rtt rtt.rttRoot rtt.rttRoot) hs ∧ Returns (iterateGetnext rtt bitlen) hs) ↔
      {k | m k ≠ none}.ncard < 2 ^ 32 := by
  obtain ⟨settled, t, rep, stored⟩ := h.stores
  constructor
  · rintro ⟨hs, listed, ⟨res, walk⟩, _⟩
    exact few_of_walk h listed walk
  · intro few
    have addressed : Addressed rtt t := fun e he => h.addressed ((stored e.1 e.2).mpr he)
    have listed := listedBy_entries rep stored
    rw [listed.card] at few
    have power := powerWalk_spec rep settled
    have iterate := iterateGetnext_spec rep settled.ready settled.convert addressed valid
    have limit : (walkCount 0).toNat = 2 ^ 32 - 1 := rfl
    obtain ⟨res, walk⟩ := walk_spec rep settled 0
    rw [limit, List.take_of_length_le (by omega)] at walk
    exact ⟨_, listed, ⟨res, walk⟩, power, iterate⟩

theorem traversals_agree_iff_ten :
    (∃ hs, tenMap.ListedBy hs ∧
      (∃ res, Returns (stdRadixWalk tenTable none (some passive) 0) (res, hs, tenTable)) ∧
      Returns (powerWalk tenTable tenTable.rttRoot tenTable.rttRoot) hs ∧
      Returns (iterateGetnext tenTable 0) hs) ↔ {k | tenMap k ≠ none}.ncard < 2 ^ 32 :=
  traversals_agree_iff reachable_ten (by decide)

/-! ## A table with too many heads -/

/-- With 2³² heads the walk ends before the last one. -/
theorem walk_stops_short :
    ¬ ∀ (rtt : Rtt) (m : PrefixMap HeadId), Reachable rtt m →
      ∃ hs, m.ListedBy hs ∧ (∃ res, Returns (stdRadixWalk rtt none (some passive) 0) (res, hs, rtt)) ∧
        Returns (powerWalk rtt rtt.rttRoot rtt.rttRoot) hs ∧ Returns (iterateGetnext rtt 0) hs := by
  intro claim
  obtain ⟨rtt, m, c⟩ := exists_crowd (n := 2 ^ 32) (by decide)
  obtain ⟨hs, listed, ⟨res, walk⟩, _⟩ := claim rtt m c.reach
  have few := few_of_walk c.reach listed walk
  have many := c.card (by decide)
  omega

end SonicUtils.Radix
