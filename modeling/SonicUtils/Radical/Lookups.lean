import SonicUtils.Radical.Counters
import SonicUtils.Radix.KeyReads
import SonicUtils.Radix.SecondBest

/-!
# Lookups in every run

Lookups in tables whose nodes may be locked and marked, and whose keys may be
converted.

* `combined_lookup`: `std_radix_getbestandprev` against `std_radix_getbest` and
  `std_radix_getnextbest`;
* `key_reads_iff`: which bytes of a key lookups and insertions read.
-/

namespace SonicUtils.Radical.Acts

open Radix PtrTree BitTrie Runs

variable {rtt : Rtt} {t : RtTree} {bitlen : Nat}

/-- **The combined lookup.** It returns what `std_radix_getbest` returns. What it leaves in
`*lessbest`, which was `prev` before, is what `std_radix_getnextbest` returns iff the table
is not empty or `prev` was NULL. -/
theorem combined_lookup {s₀ : Rtt} {as : List Act} (start : Start s₀) (run : Run Step s₀ as rtt) (addr : Addr)
    (valid : bitlen ≤ rtt.rttMaxaddrlen) (prev : Option HeadId) :
    ∃ best second written s, stdRadixGetbest rtt (some addr) bitlen = .ok (best, s) ∧
      stdRadixGetnextbest rtt (some addr) bitlen = .ok (second, s) ∧
      stdRadixGetbestandprev rtt (some addr) bitlen = .ok ((best, written), s) ∧
      (written.getD prev = second ↔ rtt.rttRoot ≠ none ∨ prev = none) := by
  obtain ⟨t, used⟩ := start.inUse.run run
  obtain ⟨ap, s, path, _, way, best, next⟩ := getbest_matches used.rep used.ready addr valid
  refine ⟨_, _, lessbest rtt (foundNext rtt (path.filter (Matches ap bitlen))), s, best, next, ?_, ?_⟩
  · rw [getbestandprev_eq valid, best, next]
    rfl
  · unfold lessbest
    cases root : rtt.rttRoot with
    | none =>
      have empty : t = .nil := by
        rw [← root_eq_none, ← used.rep.root, root]
      cases empty
      rw [way.of_nil]
      simp [foundNext]
    | some rtn => simp

theorem combined_lookup_default : ∃ best second written s,
    stdRadixGetbest defaultTable (some fun _ => 0) 8 = .ok (best, s) ∧
      stdRadixGetnextbest defaultTable (some fun _ => 0) 8 = .ok (second, s) ∧
      stdRadixGetbestandprev defaultTable (some fun _ => 0) 8 = .ok ((best, written), s) ∧
      (written.getD (some 7) = second ↔ defaultTable.rttRoot ≠ none ∨ some 7 = none) :=
  combined_lookup start_default (.snoc .nil step_default) (fun _ => 0) (by decide) (some 7)

/-- In an empty table the head 7 stays where `std_radix_getnextbest` would give NULL. -/
theorem lessbest_stays : ∃ s second written, stdRadixGetnextbest freshTable (some fun _ => 0) 8 = .ok (second, s) ∧
    stdRadixGetbestandprev freshTable (some fun _ => 0) 8 = .ok ((none, written), s) ∧
    written.getD (some 7) ≠ second :=
  ⟨freshTable, none, none, rfl, rfl, nofun⟩

/-! ## Reads of keys -/

/-- **What is read of keys.** `std_radix_getnext` and `std_radix_insert` read inside a key.
The four lookups that compare keys do so iff the way of the key does not end at a node of
as many bits as they are asked for, which are all bits of a key and whole bytes. -/
theorem key_reads_iff {s₀ : Rtt} {as : List Act} (start : Start s₀) (run : Run Step s₀ as rtt)
    (valid : bitlen ≤ rtt.rttMaxaddrlen) :
    (∀ addr, InBytes rtt.keyBytes (getexactReads rtt addr bitlen) ↔ ¬Overruns rtt (getexactKey rtt addr) bitlen) ∧
    (∀ addr, InBytes rtt.keyBytes (getbestReads rtt addr bitlen) ↔ ¬Overruns rtt (rtt.convertKey addr).1 bitlen) ∧
    (∀ addr, InBytes rtt.keyBytes (getbestandprevReads rtt addr bitlen) ↔ ¬Overruns rtt (rtt.convertKey addr).1 bitlen) ∧
    (∀ addr, InBytes rtt.keyBytes (getnextbestReads rtt addr bitlen) ↔ ¬Overruns rtt (rtt.convertKey addr).1 bitlen) ∧
    (∀ dest, InBytes rtt.keyBytes (getnextReads rtt dest bitlen)) ∧
    ∀ rth mem, InBytes rtt.keyBytes (insertReads rtt rth bitlen mem) := by
  obtain ⟨t, used⟩ := start.inUse.run run
  have standing := used.toStanding
  exact ⟨getexactReads_iff standing valid, getbestReads_iff standing valid, getbestandprevReads_iff standing valid,
    getnextbestReads_iff standing valid, getnextReads_inside standing valid, insertReads_inside standing valid⟩

theorem key_reads_iff_default : InBytes defaultTable.keyBytes (getbestReads defaultTable (fun _ => 0) 8) ↔
    ¬Overruns defaultTable (defaultTable.convertKey fun _ => 0).1 8 :=
  (key_reads_iff start_default (.snoc .nil step_default) (by decide)).2.1 _

/-- `freshTable` with the host route 0.0.0.0/32, the head 0. -/
def hostTable : Rtt :=
  match stdRadixInsert freshTable 0 32 ⟨none, some 0, some 1⟩ with
  | .ok (_, rtt) => rtt
  | .error _ => freshTable

theorem step_host : Step freshTable (.insert 0 32) hostTable := by
  have fair : Allocs.Fair ⟨none, some 0, some 1⟩ freshTable := ⟨fun _ _ => rfl, by decide⟩
  exact .insert (not_stored_fresh 0) (by decide) fair rfl

/-- A lookup of the host 0.0.0.0 reads a fifth byte of its address. -/
theorem host_lookup_reads_on : ¬ ∀ s₀ as rtt, Start s₀ → Run Step s₀ as rtt → ∀ bitlen ≤ rtt.rttMaxaddrlen, ∀ addr,
    InBytes rtt.keyBytes (getbestReads rtt addr bitlen) := by
  intro claim
  have reads : getbestReads hostTable (fun _ => 0) 32 = [4, 0, 1, 2, 3] := rfl
  have inside := claim freshTable _ hostTable start_default (.snoc .nil step_host) 32 (by decide) fun _ => 0
  have four : 4 < hostTable.keyBytes := inside 4 (by simp [reads])
  exact absurd four (by decide)

end SonicUtils.Radical.Acts
