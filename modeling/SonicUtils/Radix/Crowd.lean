import SonicUtils.Lib.Bytes
import SonicUtils.Radix.Versions

/-!
# Tables with many heads

`exists_crowd`: a run may bind any number of heads up to 2⁶⁴.
-/

namespace SonicUtils.Radix

open PtrTree BitTrie

variable {rtt : Rtt} {m : PrefixMap HeadId}

/-- The address of 64 bits with the bytes of a number. -/
def numberAddr (j : Nat) : Addr := fun i => (Bytes.toLe 8 j).getD i 0

theorem numberAddr_inj {i j : Nat} (hi : i < 2 ^ 64) (hj : j < 2 ^ 64)
    (h : (numberAddr i).bits 64 = (numberAddr j).bits 64) : i = j := by
  have bits := (bits_eq_iff (numberAddr i) (numberAddr j) 64).mp h
  have bytes : Bytes.toLe 8 i = Bytes.toLe 8 j := by
    apply List.ext_getElem (by simp)
    intro b hb hb'
    have same := (byte_eq_iff (numberAddr i) (numberAddr j) b).mpr fun k hk => bits _ (by
      simp only [Bytes.length_toLe] at hb
      omega)
    simpa only [numberAddr, List.getD_eq_getElem _ _ hb, List.getD_eq_getElem _ _ hb'] using same
  have values := congrArg Bytes.ofLe bytes
  rw [Bytes.ofLe_toLe, Bytes.ofLe_toLe] at values
  omega

/-- The heads below `n` are bound, each to its number. -/
structure Crowd (n : Nat) (rtt : Rtt) (m : PrefixMap HeadId) : Prop where
  reach : Reachable rtt m
  versioned : Versioned rtt m
  old : ∀ j, (rtt.heads j).rthVersion = 0
  len : rtt.rttMaxaddrlen = 64
  addrs : ∀ j, (rtt.heads j).rthAddr = some (numberAddr j)
  bound : ∀ j < n, m ((numberAddr j).bits 64) = some j
  only : ∀ (k : List Bool) (v : Nat), m k = some v → v < n ∧ k = (numberAddr v).bits 64
  free : ∃ b : Nat, ∀ i : Nat, b ≤ i → rtt.nodes i = none

theorem crowd_create : ∃ rtt m, Crowd 0 rtt m := by
  refine ⟨stdRadixCreate 64 false (fun j => .zeroFilled (numberAddr j)) fun _ => 0, .empty,
    .create _ _ _ _ (by decide), .create _ _ _ _ (by decide), fun _ => rfl, rfl, fun _ => rfl, ?_, ?_, 0,
    fun _ _ => rfl⟩
  · intro j hj
    cases hj
  · intro k v bound
    cases bound

theorem Crowd.unused {n : Nat} (c : Crowd n rtt m) : m.Unused n :=
  fun k bound => Nat.lt_irrefl n (c.only k n bound).1

/-- The next head is zero-filled. -/
theorem Crowd.fill {n : Nat} (c : Crowd n rtt m) :
    Crowd n (rtt.writeHead n fun _ => .zeroFilled (numberAddr n)) m := by
  have heads (j : Nat) : (rtt.writeHead n fun _ => .zeroFilled (numberAddr n)).heads j =
      if j = n then .zeroFilled (numberAddr n) else rtt.heads j := heads_writeHead
  refine ⟨c.reach.fill n _ c.unused, c.versioned.fill n _ c.unused, fun j => ?_, c.len, fun j => ?_, c.bound,
    c.only, c.free⟩
  · rw [heads]
    split
    · rfl
    · exact c.old j
  · rw [heads]
    split
    · subst j
      rfl
    · exact c.addrs j

/-- One more head. -/
theorem Crowd.insert {n : Nat} (c : Crowd n rtt m) (zero : rtt.heads n = .zeroFilled (numberAddr n))
    (room : n < 2 ^ 64) : ∃ rtt' m', Crowd (n + 1) rtt' m' := by
  obtain ⟨settled, t, rep, stored⟩ := c.reach.stores
  obtain ⟨b, free⟩ := c.free
  have loose := loose_iff.mpr (stored.unused_iff.mp c.unused)
  have valid : 64 ≤ rtt.rttMaxaddrlen := c.len.ge
  let mem : Allocs := ⟨none, some b, some (b + 1)⟩
  have alloc : mem.Succeed rtt :=
    ⟨b, b + 1, rfl, rfl, free b (Nat.le_refl b), free (b + 1) (Nat.le_succ b), Nat.ne_of_lt (Nat.lt_succ_self b)⟩
  obtain ⟨res, rtt', run, _, setup, addrs, _⟩ := insert_spec rep settled loose (c.addrs n) valid alloc
  have mine : ∀ i, mem.add = some i ∨ mem.new = some i → i ∈ {i : NodeId | i < b + 2} := by
    rintro i (new | new)
    · cases new
      exact Nat.lt_add_of_pos_right (by decide)
    · cases new
      exact Nat.lt_succ_self (b + 1)
  have few := (footprint_insert linkless_version (fun _ => rfl) mine (Set.mem_univ n)).of_ok _ run
  have absent : m ((numberAddr n).bits 64) = none := by
    apply Option.eq_none_iff_forall_ne_some.mpr
    intro v bound
    obtain ⟨less, key⟩ := c.only _ v bound
    have same := numberAddr_inj room (less.trans room) key
    omega
  refine ⟨rtt', m.insert ((numberAddr n).bits 64) n, c.reach.insert c.unused (c.addrs n) valid alloc run,
    c.versioned.insert c.unused zero valid alloc run, fun j => ?_, setup.len.trans c.len,
    fun j => (addrs j).trans (c.addrs j), ?_, ?_, b + 2, ?_⟩
  · rcases few.heads j with same | ⟨_, cleared⟩
    · exact same.trans (c.old j)
    · exact cleared
  · intro j hj
    rw [PrefixMap.insert_apply]
    split
    · rename_i new
      rw [numberAddr_inj (by omega) room new.1]
    · rename_i old
      rcases (Nat.le_of_lt_succ hj).eq_or_lt with rfl | less
      · exact absurd ⟨rfl, absent⟩ old
      · exact c.bound j less
  · intro k v bound
    rw [PrefixMap.insert_apply] at bound
    split at bound
    · rename_i new
      cases bound
      exact ⟨by omega, new.1⟩
    · obtain ⟨less, key⟩ := c.only k v bound
      exact ⟨by omega, key⟩
  · intro i high
    apply Option.eq_none_iff_forall_ne_some.mpr
    intro n' live
    rcases few.nodes i n' live with new | ⟨n, old, _⟩
    · exact absurd new (Nat.not_lt.mpr high)
    · rw [free i (by omega)] at old
      cases old

theorem exists_crowd {n : Nat} (room : n ≤ 2 ^ 64) : ∃ rtt m, Crowd n rtt m := by
  induction n with
  | zero => exact crowd_create
  | succ n ih =>
    obtain ⟨rtt, m, c⟩ := ih (by omega)
    have zero : (rtt.writeHead n fun _ => .zeroFilled (numberAddr n)).heads n = .zeroFilled (numberAddr n) :=
      heads_writeHead.trans (if_pos rfl)
    exact c.fill.insert zero (by omega)

theorem Crowd.card {n : Nat} (c : Crowd n rtt m) (room : n ≤ 2 ^ 64) : n ≤ {k | m k ≠ none}.ncard := by
  have keys : Set.InjOn (fun j => (numberAddr j).bits 64) (Finset.range n) := by
    intro i hi j hj same
    have less : i < n := Finset.mem_range.mp hi
    have less' : j < n := Finset.mem_range.mp hj
    exact numberAddr_inj (by omega) (by omega) same
  have finite := (finite_map c.reach).1
  have inside : (fun j => (numberAddr j).bits 64) '' Finset.range n ⊆ {k | m k ≠ none} := by
    rintro _ ⟨j, hj, rfl⟩
    simp [c.bound j (Finset.mem_range.mp hj)]
  have count := Set.ncard_le_ncard inside finite
  rwa [keys.ncard_image, Set.ncard_coe_finset, Finset.card_range] at count

end SonicUtils.Radix
