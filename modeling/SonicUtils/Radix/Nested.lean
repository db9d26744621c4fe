import SonicUtils.Radix.Covering
import SonicUtils.Radix.Standing

/-!
# Tables of nested prefixes

A run may bind all lengths of one address, each in a node below the last.

* `Reachable.storedIn`: whatever trie the table has stores the map;
* `exists_nest`: the run;
* `Nest.height`, `Nest.inodes`: the trie is as high as there are lengths, with few nodes.
-/

namespace SonicUtils.Radix

open PtrTree BitTrie

variable {rtt : Rtt} {m : PrefixMap HeadId} {t t' : RtTree} {k : List Bool} {rth : HeadId} {n : Nat}

/-! ## The trie of a table -/

theorem Represents.entries_mono (rep : Represents rtt t) (rep' : Represents rtt t') (s : Settled rtt)
    (here : (k, rth) ∈ entries t) : (k, rth) ∈ entries t' := by
  obtain ⟨x, hx, own⟩ := mem_entries.mp here
  obtain ⟨val, rfl⟩ := mem_own.mp own
  obtain ⟨_, _, att⟩ := rep.linked.holds hx
  obtain ⟨_, ap, _, stem⟩ := att rth val
  obtain ⟨found, run, spec⟩ := getexact_spec rep s ap (rep.bounded x hx)
  obtain ⟨found', run', spec'⟩ := getexact_spec rep' s ap (rep.bounded x hx)
  rw [stem] at spec spec'
  cases run.symm.trans run'
  exact (spec' rth).mp ((spec rth).mpr here)

/-- Whatever trie the table has stores the map. -/
theorem Reachable.storedIn (h : Reachable rtt m) (rep : Represents rtt t) : m.StoredIn t := by
  obtain ⟨s, t', rep', stored⟩ := h.stores
  intro k rth
  rw [stored]
  exact ⟨rep'.entries_mono rep s, rep.entries_mono rep' s⟩

/-! ## Lengths of one address -/

/-- `::` -/
def unspecified : Addr := fun _ => 0

/-- The heads below `n` are bound, each to as many bits as its number. -/
structure Nest (n : Nat) (rtt : Rtt) (m : PrefixMap HeadId) (t : RtTree) : Prop where
  reach : Reachable rtt m
  standing : Standing rtt t
  booked : ∃ routes, Booked routes rtt
  len : rtt.rttMaxaddrlen = 128
  addrs : ∀ j, (rtt.heads j).rthAddr = some unspecified
  bound : ∀ j < n, m (unspecified.bits j) = some j
  only : ∀ (k : List Bool) (v : Nat), m k = some v → v < n ∧ k = unspecified.bits v
  free : ∀ i : Nat, 2 * n ≤ i → rtt.nodes i = none

theorem nest_create : ∃ rtt m t, Nest 0 rtt m t := by
  let rtt := stdRadixCreate 128 false (fun _ => ⟨none, some unspecified, 0, none, 0, 0⟩) fun _ => 0
  have reach : Reachable rtt .empty := .create _ _ _ _ (by decide)
  obtain ⟨settled, t, rep, stored⟩ := reach.stores
  refine ⟨rtt, .empty, t, reach, ⟨rep, settled.ready, settled.unlocked.lockfree.guarded, ?_⟩, ⟨0, ⟨∅, ?_, rfl⟩, ?_, rfl⟩,
    rfl, fun _ => rfl, ?_, ?_, fun _ _ => rfl⟩
  · intro i live
    exact absurd rfl live
  · intro i
    simp [rtt, stdRadixCreate]
  · simp [rtt, stdRadixCreate]
  · intro j hj
    cases hj
  · intro k v bound
    cases bound

theorem Nest.unused (nest : Nest n rtt m t) : m.Unused n := fun k bound => Nat.lt_irrefl n (nest.only k n bound).1

theorem Nest.not_stored (nest : Nest n rtt m t) : n ∉ rtt.stored := by
  intro stored
  obtain ⟨q, entry⟩ := nest.standing.stored_iff.mp stored
  exact nest.unused q ((nest.reach.storedIn nest.standing.rep q n).mpr entry)

/-- One more length. -/
theorem Nest.insert (nest : Nest n rtt m t) (room : n ≤ 128) : ∃ rtt' m' t', Nest (n + 1) rtt' m' t' := by
  obtain ⟨settled, _⟩ := nest.reach.stores
  have loose := nest.standing.loose nest.not_stored
  have valid : n ≤ rtt.rttMaxaddrlen := nest.len.ge.trans' room
  let mem : Allocs := ⟨none, some (2 * n), some (2 * n + 1)⟩
  have alloc : mem.Succeed rtt := ⟨2 * n, 2 * n + 1, rfl, rfl, nest.free (2 * n) (Nat.le_refl _),
    nest.free (2 * n + 1) (Nat.le_succ _), Nat.ne_of_lt (Nat.lt_succ_self _)⟩
  obtain ⟨res, rtt', run, _, setup, addrs, _⟩ := insert_spec nest.standing.rep settled loose (nest.addrs n) valid alloc
  obtain ⟨t', standing, _⟩ := (nest.standing.insert nest.not_stored valid alloc.fair).of_ok _ run
  obtain ⟨routes, booked⟩ := nest.booked
  have mine : ∀ i, mem.add = some i ∨ mem.new = some i → i ∈ {i : NodeId | i < 2 * (n + 1)} := by
    rintro i (new | new)
    · cases new
      exact Nat.lt_add_of_pos_right (by decide)
    · cases new
      exact Nat.lt_succ_self _
  have few := (footprint_insert linkless_version (fun _ => rfl) mine (Set.mem_univ n)).of_ok _ run
  have absent : m (unspecified.bits n) = none := by
    apply Option.eq_none_iff_forall_ne_some.mpr
    intro v bound
    obtain ⟨less, key⟩ := nest.only _ v bound
    have same := congrArg List.length key
    rw [length_bits, length_bits] at same
    exact Nat.ne_of_gt less same
  refine ⟨rtt', m.insert (unspecified.bits n) n, t', nest.reach.insert nest.unused (nest.addrs n) valid alloc run, standing,
    ?_, setup.len.trans nest.len, fun j => (addrs j).trans (nest.addrs j), ?_, ?_, ?_⟩
  · rcases (booked_insertion nest.standing nest.not_stored valid alloc.fair booked).of_ok _ run with ⟨_, counted⟩ | ⟨_, counted⟩
    · exact ⟨_, counted⟩
    · exact ⟨_, counted⟩
  · intro j hj
    rw [PrefixMap.insert_apply]
    rcases (Nat.le_of_lt_succ hj).eq_or_lt with rfl | less
    · exact if_pos ⟨rfl, absent⟩
    · have old := nest.bound j less
      rw [if_neg, old]
      rintro ⟨same, _⟩
      rw [same, absent] at old
      cases old
  · intro k v bound
    rw [PrefixMap.insert_apply] at bound
    split at bound
    · rename_i new
      cases bound
      exact ⟨Nat.lt_succ_self _, new.1⟩
    · obtain ⟨less, key⟩ := nest.only k v bound
      exact ⟨less.trans (Nat.lt_succ_self _), key⟩
  · intro i high
    apply Option.eq_none_iff_forall_ne_some.mpr
    intro n' live
    rcases few.nodes i n' live with new | ⟨_, old, _⟩
    · exact absurd new (Nat.not_lt.mpr high)
    · rw [nest.free i (by omega)] at old
      cases old

theorem exists_nest (room : n ≤ 129) : ∃ rtt m t, Nest n rtt m t := by
  induction n with
  | zero => exact nest_create
  | succ n ih =>
    obtain ⟨rtt, m, t, nest⟩ := ih (by omega)
    exact nest.insert (by omega)

theorem Nest.height (nest : Nest n rtt m t) : n ≤ t.height := by
  have distinct : ((List.range n).map unspecified.bits).Nodup := by
    refine List.nodup_range.map fun i j same => ?_
    have length := congrArg List.length same
    rwa [length_bits, length_bits] at length
  have chain := nest.standing.rep.trie.keys_le_height (p := unspecified.bits n) distinct fun k hk => by
    obtain ⟨j, hj, rfl⟩ := List.mem_map.mp hk
    have less : j < n := List.mem_range.mp hj
    exact ⟨bits_prefix_bits unspecified less.le, j, (nest.reach.storedIn nest.standing.rep _ j).mp (nest.bound j less)⟩
  rwa [List.length_map, List.length_range] at chain

theorem Nest.inodes (nest : Nest n rtt m t) : rtt.rttInodes.toNat ≤ 2 * n := by
  obtain ⟨_, ⟨s, live, count⟩, _, _⟩ := nest.booked
  have few : s ⊆ Finset.range (2 * n) := by
    intro i hi
    by_contra high
    rw [Finset.mem_range, Nat.not_lt] at high
    exact (live i).mp hi (nest.free i high)
  have card := Finset.card_le_card few
  rw [Finset.card_range] at card
  rw [count, UInt64.toNat_ofNat']
  exact (Nat.mod_le _ _).trans card

end SonicUtils.Radix
