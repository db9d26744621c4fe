import Mathlib.Algebra.Group.Nat.Defs
import Mathlib.Data.List.Range
import SonicUtils.Lib.Bytes
import SonicUtils.Radix.Table

/-!
# Bits of keys

The bit tests of `std_radix.c`, and what they say of a key as a bit string.

* `compareAddress_eq_false`: `rdx_compare_address` compares the first bits;
* `firstDiff_spec`: the loops over `dbit` find the first difference.
-/

namespace SonicUtils.Radix

open Bytes (getD_of_rows)

/-- `RNBYTE`. -/
def rnByte (x : Nat) : Nat := x >>> 3

/-- `RNBIT`. -/
def rnBit (x : Nat) : UInt8 := 0x80 >>> UInt8.ofNat (x &&& 7)

/-- `BIT_TEST`. -/
def bitTest (f b : UInt8) : Bool := f &&& b != 0

/-- Bit `i` of a key, the first one being the highest of the first byte. -/
def Addr.bit (ap : Addr) (i : Nat) : Bool := bitTest (ap (rnByte i)) (rnBit i)

/-- The first `n` bits of a key. -/
def Addr.bits (ap : Addr) (n : Nat) : List Bool := (List.range n).map ap.bit

/-- `rdx_compare_address`, true where it returns 1. -/
def rdxCompareAddress (ap1 ap2 : Addr) (tbyte : Nat) (tbit : UInt8) : Bool :=
  let mask := ~~~ (tbit ||| (tbit - 1))
  if (ap1 tbyte ^^^ ap2 tbyte) &&& mask != 0 then true
  else tbyte != 0 && (List.range tbyte).any fun i => ap1 i != ap2 i

/-- The table `first_bit_set`, of 256 entries. -/
def firstBitSetTable : List Nat :=
  [8, 7, 6, 6] ++ List.replicate 4 5 ++ List.replicate 8 4 ++ List.replicate 16 3 ++
    List.replicate 32 2 ++ List.replicate 64 1 ++ List.replicate 128 0

def firstBitSet (x : UInt8) : Nat := firstBitSetTable.getD x.toNat 0

/-- The loop over `dbit`, a `u_short`. -/
def firstDiff (ap ap2 : Addr) (bits2chk : Nat) : Nat → Nat → Except Fault Nat
  | 0, _ => throw .noReturn
  | fuel + 1, dbit =>
    if dbit < bits2chk then
      let i := rnByte dbit
      if ap i != ap2 i then return (dbit + firstBitSet (ap i ^^^ ap2 i)) % 2 ^ 16
      else firstDiff ap ap2 bits2chk fuel ((dbit + 8) % 2 ^ 16)
    else return dbit

/-- As many turns as `dbit` has values. -/
def diffFuel : Nat := 2 ^ 13 + 1

/-! ## One byte -/

theorem rnByte_eq (i : Nat) : rnByte i = i / 8 := Nat.shiftRight_eq_div_pow i 3

theorem rnBit_eq (i : Nat) : rnBit i = rnBit (i % 8) := by
  have low (x : Nat) : x &&& 7 = x % 8 := Nat.and_two_pow_sub_one_eq_mod x 3
  rw [rnBit, rnBit, low, low, Nat.mod_mod]

/-- What the mask of `rdx_compare_address` leaves of a byte is the bits before
the one tested. -/
theorem and_mask_eq_zero (z : UInt8) {k : Nat} (hk : k < 8) :
    z &&& ~~~ (rnBit k ||| (rnBit k - 1)) = 0 ↔ ∀ j < k, bitTest z (rnBit j) = false := by
  have bits : ∀ k < 8, (~~~ (rnBit k ||| (rnBit k - 1))).toNat = 256 - 2 ^ (8 - k) ∧ (rnBit k).toNat = 2 ^ (7 - k) := by decide +kernel
  have numbers : ∀ n < 256, ∀ k < 8, n &&& (256 - 2 ^ (8 - k)) = 0 ↔ ∀ j < k, n &&& 2 ^ (7 - j) = 0 := by
    decide +kernel
  rw [← UInt8.toNat_inj, UInt8.toNat_and, (bits k hk).1, UInt8.toNat_zero, numbers _ z.toNat_lt k hk]
  apply forall_congr'
  intro j
  apply imp_congr_right
  intro hj
  rw [bitTest, bne_eq_false_iff_eq, ← UInt8.toNat_inj, UInt8.toNat_and, (bits j (by omega)).2, UInt8.toNat_zero]

theorem firstBitSet_spec {z : UInt8} (h : z ≠ 0) :
    firstBitSet z < 8 ∧ bitTest z (rnBit (firstBitSet z)) = true ∧
    ∀ j < firstBitSet z, bitTest z (rnBit j) = false := by
  have length : firstBitSetTable.length = 256 := by decide +kernel
  have rows : ∀ x ∈ firstBitSetTable.zipIdx, UInt8.ofNat x.2 ≠ 0 → x.1 < 8 ∧
      bitTest (UInt8.ofNat x.2) (rnBit x.1) = true ∧ ∀ j < x.1, bitTest (UInt8.ofNat x.2) (rnBit j) = false := by
    decide +kernel
  have byte : UInt8.ofNat z.toNat = z := UInt8.ofNat_toNat
  have row := getD_of_rows (P := fun r n => UInt8.ofNat n ≠ 0 → r < 8 ∧
    bitTest (UInt8.ofNat n) (rnBit r) = true ∧ ∀ j < r, bitTest (UInt8.ofNat n) (rnBit j) = false) rows (n := z.toNat)
    (by rw [length]; exact z.toNat_lt)
  rw [byte] at row
  exact row h

theorem bitTest_xor (x y : UInt8) (i : Nat) :
    bitTest (x ^^^ y) (rnBit i) = (bitTest x (rnBit i) != bitTest y (rnBit i)) := by
  have single (z : UInt8) : z &&& rnBit i = 0 ∨ z &&& rnBit i = rnBit i ∧ rnBit i ≠ 0 := by
    have bytes : ∀ b : Fin 256, ∀ k < 8, UInt8.ofNat b &&& rnBit k = 0 ∨
        UInt8.ofNat b &&& rnBit k = rnBit k ∧ rnBit k ≠ 0 := by
      decide +kernel
    rw [rnBit_eq]
    simpa using bytes ⟨z.toNat, z.toNat_lt⟩ (i % 8) (Nat.mod_lt _ (by decide))
  have split : (x ^^^ y) &&& rnBit i = (x &&& rnBit i) ^^^ (y &&& rnBit i) := by
    apply UInt8.toBitVec_inj.mp
    ext j hj
    simp [Bool.and_xor_distrib_right]
  simp only [bitTest, split]
  rcases single x with hx | ⟨hx, hn⟩ <;> rcases single y with hy | ⟨hy, hm⟩ <;> simp [*]

/-! ## Keys -/

theorem bit_at (ap : Addr) (i : Nat) {j : Nat} (hj : j < 8) :
    ap.bit (8 * i + j) = bitTest (ap i) (rnBit j) := by
  have byte : rnByte (8 * i + j) = i := by rw [rnByte_eq]; omega
  have index : (8 * i + j) % 8 = j := by omega
  rw [Addr.bit, byte, rnBit_eq, index]

theorem bits_of_byte (a b : Addr) (i : Nat) {k : Nat} (hk : k ≤ 8) :
    (∀ j < k, bitTest (a i ^^^ b i) (rnBit j) = false) ↔
      ∀ j < k, a.bit (8 * i + j) = b.bit (8 * i + j) := by
  apply forall_congr'
  intro j
  apply imp_congr_right
  intro hj
  rw [bitTest_xor, bne_eq_false_iff_eq, bit_at a i (by omega), bit_at b i (by omega)]

theorem byte_eq_iff (a b : Addr) (i : Nat) :
    a i = b i ↔ ∀ j < 8, a.bit (8 * i + j) = b.bit (8 * i + j) := by
  rw [← bits_of_byte a b i (Nat.le_refl 8), ← UInt8.xor_eq_zero_iff]
  constructor
  · intro same j _
    simp [same, bitTest]
  · intro clear
    by_contra differ
    obtain ⟨small, set, _⟩ := firstBitSet_spec differ
    rw [clear _ small] at set
    exact Bool.false_ne_true set

theorem rdxCompareAddress_eq_false (a b : Addr) (n : Nat) :
    rdxCompareAddress a b (rnByte n) (rnBit n) = false ↔ ∀ i < n, a.bit i = b.bit i := by
  have last : (a (n / 8) ^^^ b (n / 8)) &&& ~~~ (rnBit n ||| (rnBit n - 1)) = 0 ↔
      ∀ j < n % 8, a.bit (8 * (n / 8) + j) = b.bit (8 * (n / 8) + j) := by
    rw [rnBit_eq, and_mask_eq_zero _ (Nat.mod_lt _ (by decide)),
      bits_of_byte a b _ (by omega)]
  have before : (rnByte n != 0 && (List.range (rnByte n)).any fun i => a i != b i) = false ↔
      ∀ i < n / 8, a i = b i := by
    rw [rnByte_eq]
    simp only [Bool.and_eq_false_iff, bne_eq_false_iff_eq, List.any_eq_false, List.mem_range,
      bne_iff_ne, not_not]
    constructor
    · rintro (none | all) i hi
      · omega
      · exact all i hi
    · exact Or.inr
  unfold rdxCompareAddress
  simp only [rnByte_eq n] at before ⊢
  by_cases differ : (a (n / 8) ^^^ b (n / 8)) &&& ~~~ (rnBit n ||| (rnBit n - 1)) = 0
  · simp only [differ, bne_self_eq_false, Bool.false_eq_true, if_false, before]
    constructor
    · intro bytes i hi
      have split : i = 8 * (i / 8) + i % 8 := by omega
      by_cases inside : i / 8 < n / 8
      · rw [split]
        exact (byte_eq_iff a b _).mp (bytes _ inside) _ (Nat.mod_lt _ (by decide))
      · have same : i / 8 = n / 8 := by omega
        rw [split, same]
        exact last.mp differ _ (by omega)
    · intro bits i hi
      apply (byte_eq_iff a b i).mpr
      intro j hj
      exact bits _ (by omega)
  · simp only [bne_iff_ne, ne_eq, differ, not_false_eq_true, if_true, Bool.true_eq_false, false_iff]
    intro bits
    apply differ
    apply last.mpr
    intro j hj
    exact bits _ (by omega)

/-- The loop over `dbit` stops at the first bit that differs, or at or past the
end of the bits to check. -/
theorem firstDiff_spec (a b : Addr) {n : Nat} (fits : n ≤ 65528) :
    ∃ d, firstDiff a b n diffFuel 0 = .ok d ∧ (∀ i < min d n, a.bit i = b.bit i) ∧
      (d < n → a.bit d ≠ b.bit d) := by
  have loop (fuel k : Nat) (near : 8 * k < n + 8) (room : n + 8 ≤ 8 * (fuel + k))
      (agree : ∀ i < 8 * k, a.bit i = b.bit i) :
      ∃ d, firstDiff a b n fuel (8 * k) = .ok d ∧ (∀ i < min d n, a.bit i = b.bit i) ∧
        (d < n → a.bit d ≠ b.bit d) := by
    induction fuel generalizing k with
    | zero => omega
    | succ fuel ih =>
      have byte : rnByte (8 * k) = k := by rw [rnByte_eq]; omega
      by_cases inside : 8 * k < n
      · by_cases same : a k = b k
        · have next : (8 * k + 8) % 2 ^ 16 = 8 * (k + 1) := by omega
          have more : ∀ i < 8 * (k + 1), a.bit i = b.bit i := by
            intro i hi
            by_cases old : i < 8 * k
            · exact agree i old
            · have at_k := (byte_eq_iff a b k).mp same (i - 8 * k) (by omega)
              rwa [Nat.add_sub_of_le (by omega)] at at_k
          obtain ⟨d, run, rest⟩ := ih (k + 1) (by omega) (by omega) more
          refine ⟨d, ?_, rest⟩
          simp only [firstDiff, if_pos inside, byte, same, bne_self_eq_false, Bool.false_eq_true, if_false, next]
          exact run
        · have differ : a k ^^^ b k ≠ 0 := by simpa using same
          obtain ⟨small, set, clear⟩ := firstBitSet_spec differ
          have fits : (8 * k + firstBitSet (a k ^^^ b k)) % 2 ^ 16 =
              8 * k + firstBitSet (a k ^^^ b k) := by omega
          refine ⟨8 * k + firstBitSet (a k ^^^ b k), ?_, ?_, ?_⟩
          · have parts : (a k != b k) = true := bne_iff_ne.mpr same
            simp only [firstDiff, if_pos inside, byte, parts, if_true, fits, pure_eq_ok]
          · intro i hi
            by_cases old : i < 8 * k
            · exact agree i old
            · have at_k := (bits_of_byte a b k small.le).mp clear (i - 8 * k) (by omega)
              rwa [Nat.add_sub_of_le (by omega)] at at_k
          · intro _
            rw [bit_at a k small, bit_at b k small]
            rw [bitTest_xor] at set
            simpa using set
      · refine ⟨8 * k, by simp [firstDiff, inside], ?_, by omega⟩
        intro i hi
        exact agree i (by omega)
  exact loop diffFuel 0 (by omega) (by unfold diffFuel; omega) (by simp)

/-! ## Prefixes -/

@[simp] theorem length_bits (ap : Addr) (n : Nat) : (ap.bits n).length = n := by
  simp [Addr.bits]

theorem bits_succ (ap : Addr) (n : Nat) : ap.bits (n + 1) = ap.bits n ++ [ap.bit n] := by
  simp [Addr.bits, List.range_succ]

theorem bits_eq_iff (a b : Addr) (n : Nat) :
    a.bits n = b.bits n ↔ ∀ i < n, a.bit i = b.bit i := by
  simp [Addr.bits, List.map_inj_left]

theorem take_bits (ap : Addr) {m n : Nat} (h : m ≤ n) : (ap.bits n).take m = ap.bits m := by
  rw [Addr.bits, ← List.map_take, List.take_range, Nat.min_eq_left h, Addr.bits]

theorem bits_prefix_bits (ap : Addr) {m n : Nat} (h : m ≤ n) : ap.bits m <+: ap.bits n :=
  take_bits ap h ▸ List.take_prefix m _

theorem getElem_bits (ap : Addr) {i n : Nat} (h : i < (ap.bits n).length) :
    (ap.bits n)[i] = ap.bit i := by
  simp [Addr.bits]

end SonicUtils.Radix
