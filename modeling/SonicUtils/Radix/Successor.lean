import SonicUtils.Radix.Next
import SonicUtils.Radix.Runs

/-!
# Lexicographic successors

Over the tables of all runs, `std_radix_getnext` returns the head of the next
bound prefix if and only if the prefix is not one of those that
`PrefixMap.Misses` describes.
-/

namespace SonicUtils.Radix

open PtrTree BitTrie

/-- **Successors.** The address is zero past the first `bitlen` bits. -/
theorem getnext_next_iff {rtt : Rtt} {m : PrefixMap HeadId} (h : Reachable rtt m) (ap : Addr)
    {bitlen : Nat} (valid : bitlen ≤ rtt.rttMaxaddrlen) (zero : ∀ i, bitlen ≤ i → ap.bit i = false) :
    (∃ found, stdRadixGetnext rtt (some ap) bitlen = .ok (found, rtt) ∧
      m.IsNext (ap.bits bitlen) found) ↔ ¬ m.Misses (ap.bits bitlen) := by
  obtain ⟨settled, t, rep, stored⟩ := h.stores
  obtain ⟨found, run, spec⟩ := getnext_spec rep stored settled.ready settled.convert ap valid
  rw [← spec zero, run]
  constructor
  · rintro ⟨found', same, next⟩
    cases same
    exact next
  · exact fun next => ⟨found, rfl, next⟩

theorem bit_ten (i : Nat) (h : 8 ≤ i) : ten.bit i = false := by
  have byte : rnByte i ≠ 0 := by
    rw [rnByte_eq]
    omega
  simp [Addr.bit, ten, byte, bitTest]

theorem getnext_next_iff_ten :
    (∃ found, stdRadixGetnext tenTable (some ten) 8 = .ok (found, tenTable) ∧
      tenMap.IsNext (ten.bits 8) found) ↔ ¬ tenMap.Misses (ten.bits 8) :=
  getnext_next_iff reachable_ten ten (by decide) bit_ten

/-! ## A prefix that is missed -/

/-- 0.0.0.0 -/
def zeros : Addr := fun _ => 0

/-- 128.0.0.0 -/
def high : Addr := fun i => if i = 0 then 128 else 0

/-- The table after an insertion. -/
def inserted (rtt : Rtt) (rth : HeadId) (bitlen : Nat) (mem : Allocs) : Rtt :=
  match stdRadixInsert rtt rth bitlen mem with
  | .ok (_, rtt) => rtt
  | .error _ => rtt

/-- The head 0 for 0.0.0.0/0 and the head 1 for 0.0.0.0/8. -/
def zeroTable : Rtt :=
  let rtt := stdRadixCreate 32 false (fun _ => ⟨none, some zeros, 0, none, 0, 0⟩) fun _ => 0
  inserted (inserted rtt 0 0 ⟨none, some 0, some 1⟩) 1 8 ⟨none, some 1, some 2⟩

def zeroMap : PrefixMap HeadId := .insert (.insert .empty (zeros.bits 0) 0) (zeros.bits 8) 1

theorem reachable_zero : Reachable zeroTable zeroMap := by
  let rtt₀ := stdRadixCreate 32 false (fun _ => ⟨none, some zeros, 0, none, 0, 0⟩) fun _ => 0
  let rtt₁ := inserted rtt₀ 0 0 ⟨none, some 0, some 1⟩
  have start : Reachable rtt₀ .empty := .create 32 false _ _ (by decide)
  have first : stdRadixInsert rtt₀ 0 0 ⟨none, some 0, some 1⟩ = .ok (some 0, rtt₁) := rfl
  have second : stdRadixInsert rtt₁ 1 8 ⟨none, some 1, some 2⟩ = .ok (some 1, zeroTable) := rfl
  have one : Reachable rtt₁ (.insert .empty (zeros.bits 0) 0) :=
    start.insert PrefixMap.unused_empty rfl (by decide) ⟨0, 1, rfl, rfl, rfl, rfl, by decide⟩ first
  exact one.insert (PrefixMap.unused_empty.insert (by decide)) rfl (by decide)
    ⟨1, 2, rfl, rfl, rfl, rfl, by decide⟩ second

/-- The next head after 128.0.0.0/8 would be NULL, and is that of 0.0.0.0/8. -/
theorem getnext_goes_back :
    ¬ ∀ (rtt : Rtt) (m : PrefixMap HeadId) (ap : Addr) (bitlen : Nat), Reachable rtt m →
      bitlen ≤ rtt.rttMaxaddrlen → (∀ i, bitlen ≤ i → ap.bit i = false) →
      ∃ found, stdRadixGetnext rtt (some ap) bitlen = .ok (found, rtt) ∧
        m.IsNext (ap.bits bitlen) found := by
  intro claim
  have zero : ∀ i, 8 ≤ i → high.bit i = false := by
    intro i hi
    have byte : rnByte i ≠ 0 := by
      rw [rnByte_eq]
      omega
    simp [Addr.bit, high, byte, bitTest]
  obtain ⟨found, run, next⟩ := claim zeroTable zeroMap high 8 reachable_zero (by decide) zero
  have back : stdRadixGetnext zeroTable (some high) 8 = .ok (some 1, zeroTable) := rfl
  rw [back] at run
  cases run
  obtain ⟨k, bound, greater, _⟩ := next
  have unused : PrefixMap.Unused (.insert .empty (zeros.bits 0) 0) 1 :=
    PrefixMap.unused_empty.insert (by decide)
  obtain rfl := unused.key bound
  revert greater
  decide

end SonicUtils.Radix
