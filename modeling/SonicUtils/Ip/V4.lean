import SonicUtils.Ip.Masks
import SonicUtils.Lib.Compare

/-!
# IPv4 masks and the order of addresses

The masks of four bytes that `std_ip_utils.c` keeps in a number, beside those of an
array of bytes.

* `v4_agrees`: the two kinds of masks agree, and when a mask comes back from its
  prefix length;
* `totalPreorder_cmp`, `cmp_eq_zero`: the order of addresses.
-/

namespace SonicUtils.Ip

open SonicUtils.Bytes Compare

/-- The bytes of a number in network order, which `htonl` brings it into. -/
def htonl (m : UInt32) : List UInt8 := (toLe 4 m.toNat).reverse

/-- `std_ip_v4_mask_to_prefix_len`. -/
def stdIpV4MaskToPrefixLen (inMask : UInt32) : Except Fault Int :=
  if inMask = 0 then return 0 else (List.range 4).foldlM (addBitPos (htonl inMask)) 0

theorem length_htonl (m : UInt32) : (htonl m).length = 4 := by rw [htonl, List.length_reverse, length_toLe]

theorem htonl_inj {m m' : UInt32} (same : htonl m = htonl m') : m = m' := by
  have bytes : toLe 4 m.toNat = toLe 4 m'.toNat := List.reverse_inj.mp same
  have numbers := congrArg ofLe bytes
  rw [ofLe_toLe, ofLe_toLe] at numbers
  have small := m.toNat_lt
  have small' := m'.toNat_lt
  exact UInt32.toNat_inj.mp (by omega)

theorem bitPos_le (i : Nat) : bitPos.getD i 0 ≤ 8 := by
  have all : ∀ n ∈ bitPos, n ≤ 8 := by decide +kernel
  rw [List.getD_eq_getElem?_getD]
  cases found : bitPos[i]? with
  | none => exact Nat.zero_le 8
  | some n => exact all n (List.mem_of_getElem? found)

theorem ones_le (mask : List UInt8) : ones mask ≤ 8 * mask.length := by
  induction mask with
  | nil => exact Nat.le_refl 0
  | cons c mask ih =>
    have here := bitPos_le c.toNat
    rw [ones] at ih
    rw [ones, List.map_cons, List.sum_cons, List.length_cons]
    omega

/-- The number is read as its bytes are. -/
theorem v4MaskToPrefixLen_eq (m : UInt32) :
    stdIpV4MaskToPrefixLen m = .ok (ones (htonl m) : Int) ∧
      stdIpV6MaskToPrefixLen (some (htonl m)) 4 = .ok (ones (htonl m) : Int) := by
  have few := ones_le (htonl m)
  rw [length_htonl] at few
  have bytes : stdIpV6MaskToPrefixLen (some (htonl m)) 4 = .ok (ones (htonl m) : Int) := by
    rw [maskToPrefixLen_eq (length_htonl m), if_pos (by omega)]
  refine ⟨?_, bytes⟩
  rw [stdIpV4MaskToPrefixLen]
  split
  · rename_i zero
    subst zero
    rfl
  · exact bytes

/-- `1 << 31` is no `int`. -/
theorem v4PrefixLenToMask_one : stdIpV4PrefixLenToMask 1 = .error .overflow := by
  decide

/-- The masks that are written, but for the one whose power of two no `int` holds. -/
theorem v4PrefixLenToMask_some : ∀ n ≤ 32, n ≠ 1 →
    ∃ m, stdIpV4PrefixLenToMask (.ofNat n) = .ok m ∧ htonl m = prefixMask 4 n := by
  have each : ∀ n ≤ 32, n ≠ 1 → (stdIpV4PrefixLenToMask (.ofNat n)).toOption.map htonl = some (prefixMask 4 n) := by
    decide +kernel
  intro n fits other
  obtain ⟨m, found, same⟩ := Option.map_eq_some_iff.mp (each n fits other)
  cases run : stdIpV4PrefixLenToMask (.ofNat n) with
  | error e =>
    rw [run] at found
    cases found
  | ok m' =>
    rw [run] at found
    obtain rfl := Option.some.inj found
    exact ⟨m', rfl, same⟩

/-- A mask that holds ones and then zeros is the one that is written for them. -/
theorem v4PrefixLenToMask_of_holds {m : UInt32} {n : Nat} (fits : n ≤ 32) (other : n ≠ 1) (holds : HoldsOnes (htonl m) n) :
    ones (htonl m) = n ∧ stdIpV4PrefixLenToMask (.ofNat n) = .ok m := by
  have same : htonl m = prefixMask 4 n := by
    rw [holds.eq_prefixMask, length_htonl]
  obtain ⟨m', run, same'⟩ := v4PrefixLenToMask_some n fits other
  obtain rfl := htonl_inj (same'.trans same.symm)
  exact ⟨by rw [same, ones_prefixMask fits], run⟩

/-- **The two kinds of masks agree.** For every prefix length but 1, whose power of two
no `int` holds, the number is the mask that the array of bytes gets, or 0 where the length
is too long; and for every number the prefix length is that of its bytes, and the number
comes back from it exactly if it is such a mask. -/
theorem v4_agrees :
    (∀ prefixLen : UInt32,
      if prefixLen = 1 then stdIpV4PrefixLenToMask prefixLen = .error .overflow
      else if 32 < prefixLen.toNat then stdIpV4PrefixLenToMask prefixLen = .ok 0
      else ∃ m, stdIpV4PrefixLenToMask prefixLen = .ok m ∧
        stdIpV6PrefixLenToMask (some [0, 0, 0, 0]) 4 prefixLen = .ok (some (htonl m)) ∧
        stdIpV4MaskToPrefixLen m = .ok (prefixLen.toNat : Int)) ∧
    ∀ m : UInt32, ∃ n : Nat, stdIpV4MaskToPrefixLen m = .ok (n : Int) ∧
      stdIpV6MaskToPrefixLen (some (htonl m)) 4 = .ok (n : Int) ∧
      (stdIpV4PrefixLenToMask (.ofNat n) = .ok m ↔ ∃ k ≤ 32, k ≠ 1 ∧ HoldsOnes (htonl m) k) := by
  constructor
  · intro prefixLen
    have number : UInt32.ofNat prefixLen.toNat = prefixLen := UInt32.ofNat_toNat
    split
    · rename_i one
      exact one ▸ v4PrefixLenToMask_one
    · rename_i other
      split
      · rename_i long
        have beyond : prefixLen.toNat > nbby * 4 := long
        rw [stdIpV4PrefixLenToMask, if_pos beyond]
        rfl
      · rename_i fits
        have other' : prefixLen.toNat ≠ 1 := fun one => other (UInt32.toNat_inj.mp one)
        obtain ⟨m, run, same⟩ := v4PrefixLenToMask_some prefixLen.toNat (by omega) other'
        rw [number] at run
        refine ⟨m, run, ?_, ?_⟩
        · rw [same]
          by_cases none_ : prefixLen = 0
          · subst none_
            rfl
          · exact @prefixLenToMask_inside [0, 0, 0, 0] 4 prefixLen rfl none_ (by rw [show (4 : UInt64).toNat = 4 from rfl]; omega)
        · rw [(v4MaskToPrefixLen_eq m).1, same, ones_prefixMask (by omega)]
  · intro m
    obtain ⟨number, bytes⟩ := v4MaskToPrefixLen_eq m
    have few := ones_le (htonl m)
    rw [length_htonl] at few
    refine ⟨ones (htonl m), number, bytes, ?_, ?_⟩
    · intro run
      have other : ones (htonl m) ≠ 1 := by
        intro one
        rw [one] at run
        cases v4PrefixLenToMask_one.symm.trans run
      obtain ⟨m', run', same⟩ := v4PrefixLenToMask_some _ few other
      cases run'.symm.trans run
      refine ⟨ones (htonl m), few, other, ?_⟩
      have holds := prefixMask_holds 4 (ones (htonl m))
      rw [← same] at holds
      exact holds
    · rintro ⟨k, fits, other, holds⟩
      obtain ⟨count, run⟩ := v4PrefixLenToMask_of_holds fits other holds
      rw [count]
      exact run

/-! ## The order of addresses -/

/-- `STD_IP_AFINDEX_TO_ADDR_LEN`. -/
def addrLen (afIndex : UInt32) : Nat := if afIndex = halInet4Family then 4 else 16

/-- `std_ip_cmp_ip_addr`; of what `memcmp` returns only the sign counts. -/
def stdIpCmpIpAddr (a b : HalIpAddr) : Int :=
  if a.afIndex ≠ b.afIndex then (a.afIndex - b.afIndex).toInt32.toInt
  else threeWay (a.u.take (addrLen a.afIndex)) (b.u.take (addrLen a.afIndex))

/-- The family is one for which the difference of two is an `int`. -/
abbrev Addr := { a : HalIpAddr // a.afIndex.toNat < 2 ^ 31 }

theorem cmp_family {a b : HalIpAddr} (ha : a.afIndex.toNat < 2 ^ 31) (hb : b.afIndex.toNat < 2 ^ 31)
    (other : a.afIndex ≠ b.afIndex) : stdIpCmpIpAddr a b = (a.afIndex.toNat : Int) - b.afIndex.toNat := by
  rw [stdIpCmpIpAddr, if_pos other]
  change (a.afIndex.toBitVec - b.afIndex.toBitVec).toInt = (a.afIndex.toBitVec.toNat : Int) - b.afIndex.toBitVec.toNat
  have ha' : a.afIndex.toBitVec.toNat < 2 ^ 31 := ha
  have hb' : b.afIndex.toBitVec.toNat < 2 ^ 31 := hb
  rw [BitVec.toInt_eq_toNat_cond, BitVec.toNat_sub]
  omega

theorem cmp_bytes {a b : HalIpAddr} (same : a.afIndex = b.afIndex) :
    stdIpCmpIpAddr a b = threeWay (a.u.take (addrLen b.afIndex)) (b.u.take (addrLen b.afIndex)) := by
  rw [stdIpCmpIpAddr, if_neg (not_not_intro same), same]

/-- The addresses can be sorted by it: by family, and then by their bytes. -/
theorem totalPreorder_cmp : TotalPreorder fun a b : Addr => stdIpCmpIpAddr a.1 b.1 := by
  have bytes (n : Nat) : TotalPreorder fun a b : HalIpAddr => threeWay (a.u.take n) (b.u.take n) :=
    totalPreorder_threeWay fun a : HalIpAddr => a.u.take n
  have apart {a b : Addr} (other : a.1.afIndex ≠ b.1.afIndex) :
      stdIpCmpIpAddr a.1 b.1 ≠ 0 ∧ stdIpCmpIpAddr a.1 b.1 = (a.1.afIndex.toNat : Int) - b.1.afIndex.toNat := by
    have difference := cmp_family a.2 b.2 other
    have numbers : a.1.afIndex.toNat ≠ b.1.afIndex.toNat := fun same => other (UInt32.toNat_inj.mp same)
    exact ⟨by omega, difference⟩
  constructor
  · intro a b
    by_cases same : a.1.afIndex = b.1.afIndex
    · rw [cmp_bytes same, cmp_bytes same.symm, same]
      exact (bytes (addrLen b.1.afIndex)).flip a.1 b.1
    · rw [(apart same).2, (apart (Ne.symm same)).2]
      omega
  · intro a b c first next
    by_cases one : a.1.afIndex = b.1.afIndex
    · by_cases two : b.1.afIndex = c.1.afIndex
      · rw [cmp_bytes one, two] at first
        rw [cmp_bytes two] at next
        rw [cmp_bytes (one.trans two)]
        exact (bytes (addrLen c.1.afIndex)).trans a.1 b.1 c.1 first next
      · rw [(apart two).2] at next
        have other : a.1.afIndex ≠ c.1.afIndex := fun same => two (one.symm.trans same)
        rw [(apart other).2, one]
        exact next
    · have below := (apart one).2 ▸ first
      by_cases two : b.1.afIndex = c.1.afIndex
      · have other : a.1.afIndex ≠ c.1.afIndex := fun same => one (same.trans two.symm)
        rw [(apart other).2, ← two]
        exact below
      · have strictly := (apart one).1
        rw [(apart two).2] at next
        rw [(apart one).2] at strictly
        have other : a.1.afIndex ≠ c.1.afIndex := by
          intro same
          rw [same] at below strictly
          omega
        rw [(apart other).2]
        omega

theorem cmp_eq_zero (a b : Addr) : stdIpCmpIpAddr a.1 b.1 = 0 ↔
    a.1.afIndex = b.1.afIndex ∧ a.1.u.take (addrLen b.1.afIndex) = b.1.u.take (addrLen b.1.afIndex) := by
  by_cases same : a.1.afIndex = b.1.afIndex
  · rw [cmp_bytes same, threeWay]
    by_cases equal : a.1.u.take (addrLen b.1.afIndex) = b.1.u.take (addrLen b.1.afIndex)
    · simp [same, equal]
    · rw [if_neg equal]
      split <;> simp [equal]
  · have difference := cmp_family a.2 b.2 same
    have numbers : a.1.afIndex.toNat ≠ b.1.afIndex.toNat := fun equal => same (UInt32.toNat_inj.mp equal)
    constructor
    · omega
    · exact fun both => absurd both.1 same

end SonicUtils.Ip
