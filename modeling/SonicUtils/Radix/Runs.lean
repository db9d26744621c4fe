import SonicUtils.Radix.Best
import SonicUtils.Radix.Insert
import SonicUtils.Radix.Remove

/-!
# Runs of a radix table

A table is created and then used by insertions and removals, with no walk in
progress. The second argument of `Reachable` is the map that these stand for.

* `finite_map`: the table is that map;
* `longest_prefix_match`: `std_radix_getbest` finds the longest prefix.
-/

namespace SonicUtils.Radix

open PtrTree BitTrie

/-- The fields of a table that its user sets. -/
def Rtt.configure (rtt : Rtt) (debug radicalused carused : Bool) : Rtt :=
  { rtt with rttDebug := debug, rttRadicalused := radicalused, rttCarused := carused }

/-- A user may fill in a head that is in no tree. The keys of a table have at
most 256 bits, says its header; up to 65528 bits `dbit` does not wrap. -/
inductive Reachable : Rtt → PrefixMap HeadId → Prop
  | create (maxaddrlen : Nat) (rmfree : Bool) (heads : HeadId → RtHead) (junk : Addr) :
      maxaddrlen ≤ 65528 → Reachable (stdRadixCreate maxaddrlen rmfree heads junk) .empty
  | configure {rtt m} (debug radicalused carused : Bool) :
      Reachable rtt m → Reachable (rtt.configure debug radicalused carused) m
  | fill {rtt m} (rth : HeadId) (h : RtHead) :
      Reachable rtt m → m.Unused rth → Reachable (rtt.writeHead rth fun _ => h) m
  | insert {rtt rtt' m rth ap bitlen mem res} :
      Reachable rtt m → m.Unused rth → (rtt.heads rth).rthAddr = some ap →
      bitlen ≤ rtt.rttMaxaddrlen → mem.Succeed rtt →
      stdRadixInsert rtt rth bitlen mem = .ok (res, rtt') →
      Reachable rtt' (m.insert (ap.bits bitlen) rth)
  | remove {rtt rtt' m rth k} :
      Reachable rtt m → m k = some rth → stdRadixRemove rtt rth = .ok rtt' →
      Reachable rtt' (m.unbind k)

/-- The table stores the map in a trie. -/
def Stores (rtt : Rtt) (m : PrefixMap HeadId) : Prop :=
  Settled rtt ∧ ∃ t, Represents rtt t ∧ m.StoredIn t

theorem stores_create {maxaddrlen : Nat} (rmfree : Bool) (heads : HeadId → RtHead) (junk : Addr)
    (fits : maxaddrlen ≤ 65528) : Stores (stdRadixCreate maxaddrlen rmfree heads junk) .empty := by
  refine ⟨⟨rfl, rfl, fits, ?_, fun _ => rfl⟩, .nil, ⟨rfl, trivial, ?_, trivial, ?_⟩, .empty⟩
  · intro i n live
    cases live
  · exact List.nodup_nil
  · simp

theorem Settled.configure {rtt : Rtt} (s : Settled rtt) (debug radicalused carused : Bool) :
    Settled (rtt.configure debug radicalused carused) :=
  ⟨s.magic, s.convert, s.fits, s.unlocked, s.unlisted⟩

theorem represents_configure {rtt : Rtt} {t : RtTree} (rep : Represents rtt t)
    (debug radicalused carused : Bool) : Represents (rtt.configure debug radicalused carused) t :=
  rep.congr rfl rfl fun _ _ => ⟨rfl, fun _ _ => rfl⟩

theorem Stores.configure {rtt : Rtt} {m : PrefixMap HeadId} (h : Stores rtt m)
    (debug radicalused carused : Bool) : Stores (rtt.configure debug radicalused carused) m := by
  obtain ⟨s, t, rep, stored⟩ := h
  exact ⟨s.configure debug radicalused carused, t, represents_configure rep debug radicalused carused, stored⟩

theorem represents_fill {rtt : Rtt} {t : RtTree} (rep : Represents rtt t) {rth : HeadId} (loose : Loose rth t)
    (f : RtHead → RtHead) : Represents (rtt.writeHead rth f) t := by
  refine rep.congr rfl rfl fun x hx => ⟨rfl, fun h val => ?_⟩
  have other : h ≠ rth := fun same => loose x hx (same ▸ val)
  rw [heads_writeHead, if_neg other]

theorem Settled.fill {rtt : Rtt} (s : Settled rtt) (rth : HeadId) (f : RtHead → RtHead) :
    Settled (rtt.writeHead rth f) :=
  ⟨s.magic, s.convert, s.fits, s.unlocked, s.unlisted⟩

theorem Stores.fill {rtt : Rtt} {m : PrefixMap HeadId} (h : Stores rtt m) {rth : HeadId}
    (unused : m.Unused rth) (f : RtHead → RtHead) : Stores (rtt.writeHead rth f) m := by
  obtain ⟨s, t, rep, stored⟩ := h
  exact ⟨s.fill rth f, t, represents_fill rep (loose_iff.mpr (stored.unused_iff.mp unused)) f, stored⟩

theorem Stores.insert {rtt : Rtt} {m : PrefixMap HeadId} (h : Stores rtt m) {rth : HeadId} {ap : Addr}
    {bitlen : Nat} {mem : Allocs} (unused : m.Unused rth) (addr : (rtt.heads rth).rthAddr = some ap)
    (valid : bitlen ≤ rtt.rttMaxaddrlen) (alloc : mem.Succeed rtt) :
    ∃ rtt', stdRadixInsert rtt rth bitlen mem = .ok (some ((m (ap.bits bitlen)).getD rth), rtt') ∧
      Stores rtt' (m.insert (ap.bits bitlen) rth) := by
  obtain ⟨s, t, rep, stored⟩ := h
  have loose := loose_iff.mpr (stored.unused_iff.mp unused)
  obtain ⟨res, rtt', run, s', _, _, result⟩ := insert_spec rep s loose addr valid alloc
  refine ⟨rtt', ?_, s', ?_⟩
  · cases result with
    | present _ bound => simp [run, (stored _ res).mpr bound]
    | added t' free =>
      have none : m (ap.bits bitlen) = none :=
        Option.eq_none_iff_forall_ne_some.mpr fun h hv => free h ((stored _ h).mp hv)
      simp [run, none]
  · cases result with
    | present _ bound rep' => exact ⟨t, rep', stored.keep bound⟩
    | added t' free rep' bound _ => exact ⟨t', rep', stored.insert free bound⟩

theorem Stores.remove {rtt : Rtt} {m : PrefixMap HeadId} (h : Stores rtt m) {rth : HeadId}
    {k : List Bool} (bound : m k = some rth) :
    ∃ rtt', stdRadixRemove rtt rth = .ok rtt' ∧ Stores rtt' (m.unbind k) := by
  obtain ⟨s, t, rep, stored⟩ := h
  have here := (stored k rth).mp bound
  obtain ⟨rtt', t', run, s', removed⟩ := remove_spec rep s here
  exact ⟨rtt', run, s', t', removed.rep, stored.unbind rep.trie here removed.bound⟩

/-- Every table that a run leads to stores the map of the run. -/
theorem Reachable.stores {rtt : Rtt} {m : PrefixMap HeadId} (h : Reachable rtt m) : Stores rtt m := by
  induction h with
  | create maxaddrlen rmfree heads junk fits => exact stores_create rmfree heads junk fits
  | configure debug radicalused carused _ ih => exact ih.configure debug radicalused carused
  | fill rth h _ unused ih => exact ih.fill unused fun _ => h
  | insert _ unused addr valid alloc run ih =>
    obtain ⟨rtt', run', after⟩ := ih.insert unused addr valid alloc
    rw [run'] at run
    cases run
    exact after
  | remove _ bound run ih =>
    obtain ⟨rtt', run', after⟩ := ih.remove bound
    rw [run'] at run
    cases run
    exact after

/-- The heads of the trie are those of the map. -/
theorem listedBy_entries {rtt : Rtt} {m : PrefixMap HeadId} {t : RtTree} (rep : Represents rtt t)
    (stored : m.StoredIn t) :
    m.ListedBy ((entries t).map Prod.snd) := by
  have order := sorted_entries rep.trie
  refine ⟨?_, entries t, rfl, order, stored⟩
  rw [List.Nodup, List.pairwise_map]
  apply order.imp_of_mem
  intro a b ha hb less same
  have again : (b.1, a.2) ∈ entries t := by rwa [same]
  have key := rep.one_key ha again
  rw [key] at less
  exact lt_irrefl _ less

/-! ## A table with one head -/

/-- 10.0.0.0 -/
def ten : Addr := fun i => if i = 0 then 10 else 0

def emptyTable : Rtt := stdRadixCreate 32 false (fun _ => ⟨none, some ten, 0, none, 0, 0⟩) fun _ => 0

/-- `emptyTable` after the insertion of the head 0 for 10.0.0.0/8. -/
def tenTable : Rtt :=
  match stdRadixInsert emptyTable 0 8 ⟨none, some 0, some 1⟩ with
  | .ok (_, rtt) => rtt
  | .error _ => emptyTable

def tenMap : PrefixMap HeadId := .insert .empty (ten.bits 8) 0

theorem reachable_ten : Reachable tenTable tenMap := by
  have alloc : Allocs.Succeed ⟨none, some 0, some 1⟩ emptyTable := ⟨0, 1, rfl, rfl, rfl, rfl, by decide⟩
  have run : stdRadixInsert emptyTable 0 8 ⟨none, some 0, some 1⟩ = .ok (some 0, tenTable) := rfl
  exact .insert (.create 32 false _ _ (by decide)) PrefixMap.unused_empty rfl (by decide) alloc run

/-! ## What runs keep -/

/-- **The table is a finite map.** An insertion returns the head that the prefix
is then bound to, a removal ends the binding of its head and no other, and an
exact lookup gives the binding of a prefix. -/
theorem finite_map {rtt : Rtt} {m : PrefixMap HeadId} (h : Reachable rtt m) :
    {k | m k ≠ none}.Finite ∧
    (∀ rth ap bitlen mem, m.Unused rth → (rtt.heads rth).rthAddr = some ap →
      bitlen ≤ rtt.rttMaxaddrlen → mem.Succeed rtt →
      ∃ rtt', stdRadixInsert rtt rth bitlen mem = .ok (some ((m (ap.bits bitlen)).getD rth), rtt') ∧
        Reachable rtt' (m.insert (ap.bits bitlen) rth)) ∧
    (∀ rth k, m k = some rth →
      ∃ rtt', stdRadixRemove rtt rth = .ok rtt' ∧ Reachable rtt' (m.unbind k)) ∧
    (∀ ap bitlen, bitlen ≤ rtt.rttMaxaddrlen →
      stdRadixGetexact rtt (some ap) bitlen = .ok (m (ap.bits bitlen), rtt)) := by
  obtain ⟨s, t, rep, stored⟩ := h.stores
  refine ⟨?_, ?_, ?_, ?_⟩
  · apply ((entries t).map Prod.fst).finite_toSet.subset
    intro k bound
    obtain ⟨rth, hv⟩ := Option.ne_none_iff_exists'.mp bound
    exact List.mem_map_of_mem (f := Prod.fst) ((stored k rth).mp hv)
  · intro rth ap bitlen mem unused addr valid alloc
    obtain ⟨rtt', run, _⟩ := h.stores.insert unused addr valid alloc
    exact ⟨rtt', run, h.insert unused addr valid alloc run⟩
  · intro rth k bound
    obtain ⟨rtt', run, _⟩ := h.stores.remove bound
    exact ⟨rtt', run, h.remove bound run⟩
  · intro ap bitlen valid
    obtain ⟨found, run, spec⟩ := getexact_spec rep s ap valid
    have same : found = m (ap.bits bitlen) := by
      apply Option.ext
      intro rth
      exact (spec rth).trans (stored _ rth).symm
    rw [run, same]

theorem finite_map_ten : stdRadixGetexact tenTable (some ten) 8 = .ok (some 0, tenTable) ∧
    ∃ rtt', stdRadixRemove tenTable 0 = .ok rtt' ∧ Reachable rtt' (tenMap.unbind (ten.bits 8)) :=
  have spec := (finite_map reachable_ten).2.2
  ⟨spec.2 ten 8 (by decide), spec.1 0 (ten.bits 8) rfl⟩

/-- **Longest prefix match.** `std_radix_getbest` returns the head of the longest
bound prefix of the address that has at most `bitlen` bits, and NULL if there
is none. -/
theorem longest_prefix_match {rtt : Rtt} {m : PrefixMap HeadId} (h : Reachable rtt m) (ap : Addr)
    {bitlen : Nat} (valid : bitlen ≤ rtt.rttMaxaddrlen) :
    ∃ found, stdRadixGetbest rtt (some ap) bitlen = .ok (found, rtt) ∧ m.IsBest ap.bit bitlen found := by
  obtain ⟨s, t, rep, stored⟩ := h.stores
  exact getbest_spec rep stored s ap valid

theorem longest_prefix_match_ten :
    ∃ found, stdRadixGetbest tenTable (some ten) 32 = .ok (found, tenTable) ∧
      tenMap.IsBest ten.bit 32 found :=
  longest_prefix_match reachable_ten ten (by decide)

end SonicUtils.Radix
