import SonicUtils.Lib.Bytes
import Mathlib.Data.Nat.Bitwise

/-!
# Masks and prefix lengths

The masks of `std_ip_utils.c`. A mask is the list of its bytes; a write beyond
them is a fault, and so is an `int` that overflows.

* `HoldsOnes`: what a mask of a prefix length is, and `prefixMask` is the only one;
* `prefixLenToMask_inside`, `prefixLenToMask_outside`: what is written where;
* `round_trip_iff`: when a prefix length comes back from its mask;
* `get_mask_round_trip`: in an address that is cleared first it does.
-/

namespace SonicUtils.Ip

open SonicUtils.Bytes

inductive Fault
  | outside
  | overflow
  deriving DecidableEq, Repr

@[simp] theorem ok_bind {α β : Type} (a : α) (f : α → Except Fault β) : (Except.ok a >>= f) = f a := rfl

def nbby : Nat := 8

/-- The value of an expression of type `int`. -/
def int (z : Int) : Except Fault Int :=
  if -2 ^ 31 ≤ z ∧ z < 2 ^ 31 then pure z else throw .overflow

def memset (bytes : List UInt8) (start : Nat) (c : UInt8) (n : Nat) : Except Fault (List UInt8) :=
  if start + n ≤ bytes.length then
    return bytes.take start ++ List.replicate n c ++ bytes.drop (start + n)
  else throw .outside

def store (bytes : List UInt8) (i : Nat) (c : UInt8) : Except Fault (List UInt8) :=
  if i < bytes.length then return bytes.set i c else throw .outside

def load (bytes : List UInt8) (i : Nat) : Except Fault UInt8 :=
  match bytes[i]? with
  | some c => return c
  | none => throw .outside

/-- `std_ip_v4_prefix_len_to_mask`. -/
def stdIpV4PrefixLenToMask (prefixLen : UInt32) : Except Fault UInt32 := do
  if prefixLen.toNat > nbby * 4 then return 0
  let maskVal ← if prefixLen ≠ 0 then
      let power ← int (1 <<< (nbby * 4 - prefixLen.toNat))
      let low ← int (power - 1)
      pure (UInt32.ofInt low)
    else pure 0xffffffff
  return ~~~maskVal

def maskVal : List UInt8 := [0x00, 0x80, 0xc0, 0xe0, 0xf0, 0xf8, 0xfc, 0xfe]

/-- `std_ip_v6_prefix_len_to_mask`; the result is what `mask_ptr` points to afterwards. -/
def stdIpV6PrefixLenToMask (maskPtr : Option (List UInt8)) (maskLen : UInt64) (prefixLen : UInt32) :
    Except Fault (Option (List UInt8)) := do
  match maskPtr with
  | none => return none
  | some mask =>
    if prefixLen = 0 then return mask
    let nbytes := prefixLen.toNat / nbby
    let mask ← memset mask 0 0xff nbytes
    let maskLen := maskLen - .ofNat nbytes
    if maskLen = 0 then return mask
    let mask ← store mask nbytes (maskVal.getD (prefixLen.toNat % nbby) 0)
    let maskLen := maskLen - 1
    let mask ← memset mask (nbytes + 1) 0 maskLen.toNat
    return mask

def bitPos : List Nat := [
  0, 0, 0, 0, 0, 0, 0, 0, 0, 0, 0, 0, 0, 0, 0, 0,
  0, 0, 0, 0, 0, 0, 0, 0, 0, 0, 0, 0, 0, 0, 0, 0,
  0, 0, 0, 0, 0, 0, 0, 0, 0, 0, 0, 0, 0, 0, 0, 0,
  0, 0, 0, 0, 0, 0, 0, 0, 0, 0, 0, 0, 0, 0, 0, 0,
  0, 0, 0, 0, 0, 0, 0, 0, 0, 0, 0, 0, 0, 0, 0, 0,
  0, 0, 0, 0, 0, 0, 0, 0, 0, 0, 0, 0, 0, 0, 0, 0,
  0, 0, 0, 0, 0, 0, 0, 0, 0, 0, 0, 0, 0, 0, 0, 0,
  0, 0, 0, 0, 0, 0, 0, 0, 0, 0, 0, 0, 0, 0, 0, 0,
  1, 0, 0, 0, 0, 0, 0, 0, 0, 0, 0, 0, 0, 0, 0, 0,
  0, 0, 0, 0, 0, 0, 0, 0, 0, 0, 0, 0, 0, 0, 0, 0,
  0, 0, 0, 0, 0, 0, 0, 0, 0, 0, 0, 0, 0, 0, 0, 0,
  0, 0, 0, 0, 0, 0, 0, 0, 0, 0, 0, 0, 0, 0, 0, 0,
  2, 0, 0, 0, 0, 0, 0, 0, 0, 0, 0, 0, 0, 0, 0, 0,
  0, 0, 0, 0, 0, 0, 0, 0, 0, 0, 0, 0, 0, 0, 0, 0,
  3, 0, 0, 0, 0, 0, 0, 0, 0, 0, 0, 0, 0, 0, 0, 0,
  4, 0, 0, 0, 0, 0, 0, 0, 5, 0, 0, 0, 6, 0, 7, 8]

/-- `prefix_len += bit_pos[(int)mask_ptr[ix]]`. -/
def addBitPos (mask : List UInt8) (prefixLen : Int) (ix : Nat) : Except Fault Int := do
  let c ← load mask ix
  int (prefixLen + bitPos.getD c.toNat 0)

/-- `std_ip_v6_mask_to_prefix_len`. -/
def stdIpV6MaskToPrefixLen (maskPtr : Option (List UInt8)) (addrLen : UInt64) : Except Fault Int :=
  match maskPtr with
  | none => return 0
  | some mask => (List.range addrLen.toNat).foldlM (addBitPos mask) 0

/-- `AF_INET`. -/
def halInet4Family : UInt32 := 2

/-- `hal_ip_addr_t`; the bytes of the union, which an IPv6 address fills. -/
structure HalIpAddr where
  afIndex : UInt32
  u : List UInt8
  deriving DecidableEq, Repr

def halInet6Len : UInt64 := 16

/-- `std_ip_get_mask_from_prefix_len`, where it is given a place for the mask. -/
def stdIpGetMaskFromPrefixLen (afIndex prefixLen : UInt32) : Except Fault HalIpAddr := do
  let mask : HalIpAddr := ⟨afIndex, List.replicate halInet6Len.toNat 0⟩
  if afIndex = halInet4Family then
    let v4Addr ← stdIpV4PrefixLenToMask prefixLen
    return { mask with u := toLe 4 v4Addr.toNat ++ mask.u.drop 4 }
  else
    let v6Addr ← stdIpV6PrefixLenToMask (some mask.u) halInet6Len prefixLen
    return { mask with u := v6Addr.getD mask.u }

/-! ## What a mask is -/

/-- The bits of a mask, the first one the highest of the first byte. -/
def bit (mask : List UInt8) (k : Nat) : Bool := (mask.getD (k / 8) 0).toNat.testBit (7 - k % 8)

/-- So many ones and then zeros. -/
def HoldsOnes (mask : List UInt8) (n : Nat) : Prop := ∀ k < 8 * mask.length, bit mask k = decide (k < n)

/-- The mask of so many bytes, with so many ones. -/
def prefixMask : Nat → Nat → List UInt8
  | 0, _ => []
  | len + 1, n => (if 8 ≤ n then 0xff else maskVal.getD n 0) :: prefixMask len (n - 8)

@[simp] theorem length_prefixMask (len n : Nat) : (prefixMask len n).length = len := by
  induction len generalizing n with
  | zero => rfl
  | succ len ih => rw [prefixMask, List.length_cons, ih]

theorem bit_zero (b : UInt8) (mask : List UInt8) {k : Nat} (first : k < 8) :
    bit (b :: mask) k = b.toNat.testBit (7 - k) := by
  rw [bit, Nat.div_eq_of_lt first, Nat.mod_eq_of_lt first]
  rfl

theorem bit_succ (b : UInt8) (mask : List UInt8) (k : Nat) : bit (b :: mask) (k + 8) = bit mask k := by
  rw [bit, bit, Nat.add_div_right k (by decide), Nat.add_mod_right]
  rfl

theorem maskVal_bits : ∀ n < 8, ∀ k < 8, (maskVal.getD n 0).toNat.testBit (7 - k) = decide (k < n) := by
  decide

theorem full_bits : ∀ k < 8, (0xff : UInt8).toNat.testBit (7 - k) = true := by
  decide

theorem prefixMask_holds (len n : Nat) : HoldsOnes (prefixMask len n) n := by
  induction len generalizing n with
  | zero =>
    intro k inside
    simp [prefixMask] at inside
  | succ len ih =>
    intro k inside
    rw [length_prefixMask] at inside
    rw [prefixMask]
    by_cases first : k < 8
    · rw [bit_zero _ _ first]
      by_cases full : 8 ≤ n
      · rw [if_pos full, full_bits k first]
        exact (decide_eq_true (by omega)).symm
      · rw [if_neg full]
        exact maskVal_bits n (by omega) k first
    · obtain ⟨k, rfl⟩ : ∃ j, k = j + 8 := ⟨k - 8, by omega⟩
      rw [bit_succ, ih (n - 8) k (by rw [length_prefixMask]; omega)]
      exact decide_eq_decide.mpr (by omega)

/-- A byte is known from its bits. -/
theorem byte_ext {b c : UInt8} (same : ∀ k < 8, b.toNat.testBit (7 - k) = c.toNat.testBit (7 - k)) : b = c := by
  apply UInt8.toNat_inj.mp
  apply Nat.eq_of_testBit_eq
  intro j
  by_cases low : j < 8
  · have at_ := same (7 - j) (by omega)
    rwa [Nat.sub_sub_self (by omega)] at at_
  · have high : 2 ^ 8 ≤ 2 ^ j := Nat.pow_le_pow_right (by decide) (by omega)
    rw [Nat.testBit_lt_two_pow (Nat.lt_of_lt_of_le b.toNat_lt high),
      Nat.testBit_lt_two_pow (Nat.lt_of_lt_of_le c.toNat_lt high)]

/-- There is one mask of each length and number of ones. -/
theorem HoldsOnes.eq_prefixMask {mask : List UInt8} {n : Nat} (holds : HoldsOnes mask n) :
    mask = prefixMask mask.length n := by
  induction mask generalizing n with
  | nil => rfl
  | cons b mask ih =>
    have model := prefixMask_holds (mask.length + 1) n
    have first : b = if 8 ≤ n then 0xff else maskVal.getD n 0 := by
      apply byte_ext
      intro k inside
      have here := holds k (by rw [List.length_cons]; omega)
      have there := model k (by rw [length_prefixMask]; omega)
      rw [bit_zero _ _ inside] at here
      rw [prefixMask, bit_zero _ _ inside] at there
      rw [here, there]
    have rest : HoldsOnes mask (n - 8) := by
      intro k inside
      have here := holds (k + 8) (by rw [List.length_cons]; omega)
      rw [bit_succ] at here
      rw [here]
      exact decide_eq_decide.mpr (by omega)
    rw [List.length_cons, prefixMask, ← first, ← ih rest]

/-! ## What is written -/

theorem memset_front {xs ys : List UInt8} {n : Nat} (c : UInt8) (front : xs.length = n) :
    memset (xs ++ ys) 0 c n = .ok (List.replicate n c ++ ys) := by
  subst front
  have inside : 0 + xs.length ≤ (xs ++ ys).length := by simp
  rw [memset, if_pos inside]
  simp [pure, Except.pure]

theorem memset_back {xs ys : List UInt8} {start n : Nat} (c : UInt8) (front : xs.length = start)
    (back : ys.length = n) : memset (xs ++ ys) start c n = .ok (xs ++ List.replicate n c) := by
  subst front back
  have inside : xs.length + ys.length ≤ (xs ++ ys).length := by simp
  rw [memset, if_pos inside]
  simp [pure, Except.pure]

theorem store_at {xs ys : List UInt8} {i : Nat} (b c : UInt8) (front : xs.length = i) :
    store (xs ++ b :: ys) i c = .ok (xs ++ c :: ys) := by
  subst front
  have inside : xs.length < (xs ++ b :: ys).length := by simp
  rw [store, if_pos inside, List.set_append_right _ _ (Nat.le_refl _), Nat.sub_self]
  rfl

theorem prefixMask_zero (len : Nat) : prefixMask len 0 = List.replicate len 0 := by
  induction len with
  | zero => rfl
  | succ len ih =>
    rw [prefixMask, ih]
    rfl

/-- The mask in three parts: whole bytes, one byte of some ones, zeros. -/
theorem prefixMask_append (n k : Nat) :
    prefixMask (n / 8 + (k + 1)) n =
      List.replicate (n / 8) 0xff ++ maskVal.getD (n % 8) 0 :: List.replicate k 0 := by
  induction whole : n / 8 generalizing n with
  | zero =>
    have small : n < 8 := by omega
    rw [Nat.zero_add, prefixMask, if_neg (by omega), Nat.sub_eq_zero_of_le (Nat.le_of_lt small), prefixMask_zero,
      Nat.mod_eq_of_lt small]
    rfl
  | succ w ih =>
    have more : 8 ≤ n := by omega
    rw [show w + 1 + (k + 1) = w + (k + 1) + 1 by omega, prefixMask, if_pos more, ih (n - 8) (by omega),
      List.replicate_succ, List.cons_append, Nat.mod_eq_sub_mod more]

theorem prefixMask_full {len n : Nat} (full : 8 * len ≤ n) : prefixMask len n = List.replicate len 0xff := by
  induction len generalizing n with
  | zero => rfl
  | succ len ih =>
    rw [prefixMask, if_pos (by omega), ih (by omega)]
    rfl

variable {mask : List UInt8} {maskLen : UInt64} {prefixLen : UInt32}

theorem prefixLenToMask_outside (size : mask.length = maskLen.toNat) (some_ : prefixLen ≠ 0)
    (long : maskLen.toNat < prefixLen.toNat / 8) :
    stdIpV6PrefixLenToMask (some mask) maskLen prefixLen = .error .outside := by
  have refused : memset mask 0 0xff (prefixLen.toNat / 8) = .error .outside := if_neg (by omega)
  simp only [stdIpV6PrefixLenToMask, if_neg some_, nbby, refused]
  rfl

theorem prefixLenToMask_inside (size : mask.length = maskLen.toNat) (some_ : prefixLen ≠ 0)
    (fits : prefixLen.toNat / 8 ≤ maskLen.toNat) :
    stdIpV6PrefixLenToMask (some mask) maskLen prefixLen =
      .ok (some (prefixMask maskLen.toNat prefixLen.toNat)) := by
  generalize whole : prefixLen.toNat / 8 = nbytes at fits
  have left : (maskLen - .ofNat nbytes).toNat = maskLen.toNat - nbytes := by
    have := maskLen.toNat_lt
    rw [UInt64.toNat_sub, UInt64.toNat_ofNat']
    omega
  obtain ⟨xs, ys, rfl, front⟩ : ∃ xs ys, mask = xs ++ ys ∧ xs.length = nbytes :=
    ⟨_, _, (List.take_append_drop nbytes mask).symm, by rw [List.length_take]; omega⟩
  rw [List.length_append, front] at size
  simp only [stdIpV6PrefixLenToMask, if_neg some_, nbby, whole, memset_front _ front, ok_bind]
  cases ys with
  | nil =>
    have full : maskLen.toNat = nbytes := size.symm
    have none_ : maskLen - .ofNat nbytes = 0 := UInt64.toNat_inj.mp (by rw [left, full, Nat.sub_self]; rfl)
    rw [if_pos none_, prefixMask_full (by omega), full, List.append_nil]
    rfl
  | cons b ys =>
    rw [List.length_cons] at size
    have more : maskLen - .ofNat nbytes ≠ 0 := fun none_ => by
      rw [none_] at left
      exact absurd left (by rw [← size, Nat.add_sub_cancel_left]; exact Nat.noConfusion)
    have last : (maskLen - .ofNat nbytes - 1).toNat = ys.length := by
      have := maskLen.toNat_lt
      rw [UInt64.toNat_sub, left, UInt64.toNat_one]
      omega
    simp only [if_neg more, store_at _ _ List.length_replicate, ok_bind, last]
    rw [List.append_cons, memset_back _ (by simp) rfl, ← size, ← whole, prefixMask_append, List.append_assoc]
    rfl

/-! ## What is read back -/

/-- The ones that the table counts in a mask. -/
def ones (mask : List UInt8) : Nat := (mask.map fun c => bitPos.getD c.toNat 0).sum

theorem bitPos_maskVal : ∀ n < 8, bitPos.getD (maskVal.getD n 0).toNat 0 = n := by
  decide

theorem ones_prefixMask {len n : Nat} (fits : n ≤ 8 * len) : ones (prefixMask len n) = n := by
  induction len generalizing n with
  | zero =>
    rw [Nat.le_zero.mp fits]
    rfl
  | succ len ih =>
    have rest : ones (prefixMask len (n - 8)) = n - 8 := ih (by omega)
    rw [ones] at rest
    rw [ones, prefixMask, List.map_cons, List.sum_cons, rest]
    by_cases full : 8 ≤ n
    · rw [if_pos full]
      exact Nat.add_sub_cancel' full
    · rw [if_neg full, bitPos_maskVal n (by omega)]
      omega

theorem int_of_nat (n : Nat) : int n = if n < 2 ^ 31 then .ok (n : Int) else .error .overflow := by
  by_cases small : n < 2 ^ 31
  · rw [if_pos small]
    exact if_pos (by omega)
  · rw [if_neg small]
    exact if_neg (by omega)

theorem addBitPos_eq {i : Nat} (n : Nat) (inside : i < mask.length) :
    addBitPos mask n i = int ((n + bitPos.getD mask[i].toNat 0 : Nat) : Int) := by
  have here : load mask i = .ok mask[i] := by
    rw [load, List.getElem?_eq_getElem inside]
    rfl
  rw [addBitPos, here, ok_bind, Int.natCast_add]

theorem ones_take {i : Nat} (inside : i < mask.length) :
    ones (mask.take (i + 1)) = ones (mask.take i) + bitPos.getD mask[i].toNat 0 := by
  rw [ones, ones, List.take_succ_eq_append_getElem inside, List.map_append, List.sum_append, List.map_singleton,
    List.sum_singleton]

theorem maskToPrefixLen_eq (size : mask.length = maskLen.toNat) :
    stdIpV6MaskToPrefixLen (some mask) maskLen =
      if ones mask < 2 ^ 31 then .ok (ones mask : Int) else .error .overflow := by
  have upto (i : Nat) (inside : i ≤ mask.length) :
      (List.range i).foldlM (addBitPos mask) 0 = int (ones (mask.take i)) := by
    induction i with
    | zero =>
      rw [List.take_zero, int_of_nat, if_pos (by decide)]
      rfl
    | succ i ih =>
      rw [List.range_succ, List.foldlM_append, ih (by omega), ones_take inside, int_of_nat]
      by_cases small : ones (mask.take i) < 2 ^ 31
      · rw [if_pos small, ok_bind, List.foldlM_cons, addBitPos_eq _ inside]
        exact bind_pure _
      · rw [if_neg small, int_of_nat, if_neg (by omega)]
        rfl
  have whole := upto mask.length (Nat.le_refl _)
  rw [List.take_length, size, int_of_nat] at whole
  exact whole

theorem maskToPrefixLen_of_holds {n : Nat} (size : mask.length = maskLen.toNat) (holds : HoldsOnes mask n)
    (fits : n ≤ 8 * maskLen.toNat) :
    stdIpV6MaskToPrefixLen (some mask) maskLen = if n < 2 ^ 31 then .ok (n : Int) else .error .overflow := by
  have count : ones mask = n := by
    rw [holds.eq_prefixMask]
    exact ones_prefixMask (by omega)
  rw [maskToPrefixLen_eq size, count]

theorem holdsOnes_zero : HoldsOnes mask 0 ↔ ∀ c ∈ mask, c = 0 := by
  constructor
  · intro holds
    have same := holds.eq_prefixMask
    rw [prefixMask_zero] at same
    exact (List.eq_replicate_iff.mp same).2
  · intro all
    rw [List.eq_replicate_iff.mpr ⟨rfl, all⟩, ← prefixMask_zero]
    exact prefixMask_holds mask.length 0

/-- All writes are to the mask, and where so many ones fit in it, it then holds them and
they are read back. -/
def RoundTrips (mask : List UInt8) (maskLen : UInt64) (prefixLen : UInt32) : Prop :=
  ∃ mask', stdIpV6PrefixLenToMask (some mask) maskLen prefixLen = .ok (some mask') ∧
    (prefixLen.toNat ≤ 8 * maskLen.toNat → HoldsOnes mask' prefixLen.toNat ∧
      stdIpV6MaskToPrefixLen (some mask') maskLen = .ok (prefixLen.toNat : Int))

/-- A prefix length of zero leaves the mask as it is, and one that is too long is written
beyond it. -/
theorem round_trip_iff (size : mask.length = maskLen.toNat) :
    RoundTrips mask maskLen prefixLen ↔
      if prefixLen = 0 then ∀ c ∈ mask, c = 0
      else prefixLen.toNat / 8 ≤ maskLen.toNat ∧ (prefixLen.toNat ≤ 8 * maskLen.toNat → prefixLen.toNat < 2 ^ 31) := by
  by_cases none_ : prefixLen = 0
  · subst none_
    rw [if_pos rfl, ← holdsOnes_zero]
    have kept : stdIpV6PrefixLenToMask (some mask) maskLen 0 = .ok (some mask) := rfl
    constructor
    · rintro ⟨mask', run, agree⟩
      cases kept.symm.trans run
      exact (agree (Nat.zero_le _)).1
    · intro holds
      refine ⟨mask, kept, fun fits => ⟨holds, ?_⟩⟩
      rw [maskToPrefixLen_of_holds size holds (Nat.zero_le _)]
      exact if_pos (Nat.two_pow_pos 31)
  · rw [if_neg none_]
    by_cases fits : prefixLen.toNat / 8 ≤ maskLen.toNat
    · have run := prefixLenToMask_inside size none_ fits
      have holds := prefixMask_holds maskLen.toNat prefixLen.toNat
      have back := maskToPrefixLen_of_holds (length_prefixMask ..) holds
      constructor
      · rintro ⟨mask', run', agree⟩
        cases run.symm.trans run'
        refine ⟨fits, fun short => ?_⟩
        have read := (agree short).2
        rw [back short] at read
        by_contra long
        rw [if_neg long] at read
        cases read
      · rintro ⟨_, small⟩
        refine ⟨_, run, fun short => ⟨holds, ?_⟩⟩
        rw [back short, if_pos (small short)]
    · have run := prefixLenToMask_outside size none_ (Nat.lt_of_not_le fits)
      constructor
      · rintro ⟨mask', run', _⟩
        cases run.symm.trans run'
      · exact fun both => absurd both.1 fits

theorem round_trip_two_bytes :
    [(0xff : UInt8), 0xff].length = (2 : UInt64).toNat ∧
      (RoundTrips [0xff, 0xff] 2 9 ↔
        if (9 : UInt32) = 0 then ∀ c ∈ [(0xff : UInt8), 0xff], c = 0
        else (9 : UInt32).toNat / 8 ≤ (2 : UInt64).toNat ∧
          ((9 : UInt32).toNat ≤ 8 * (2 : UInt64).toNat → (9 : UInt32).toNat < 2 ^ 31)) :=
  ⟨rfl, round_trip_iff rfl⟩

/-- The mask of no ones keeps its eight, and 17 ones do not stay within one byte. -/
theorem stale_mask : ¬ RoundTrips [0xff] 1 0 ∧ stdIpV6MaskToPrefixLen (some [0xff]) 1 = .ok 8 ∧
    ¬ RoundTrips [0xff] 1 17 := by
  refine ⟨?_, by decide, ?_⟩
  · rintro ⟨mask', run, agree⟩
    cases (rfl : stdIpV6PrefixLenToMask (some [0xff]) 1 0 = .ok (some [0xff])).symm.trans run
    exact absurd ((agree (Nat.zero_le _)).1 0 (by decide)) (by decide)
  · rintro ⟨mask', run, _⟩
    cases (rfl : stdIpV6PrefixLenToMask (some [0xff]) 1 17 = .error .outside).symm.trans run

theorem get_mask_round_trip {afIndex : UInt32} (v6 : afIndex ≠ halInet4Family) (fits : prefixLen.toNat ≤ 128) :
    ∃ mask, stdIpGetMaskFromPrefixLen afIndex prefixLen = .ok mask ∧ HoldsOnes mask.u prefixLen.toNat ∧
      stdIpV6MaskToPrefixLen (some mask.u) halInet6Len = .ok (prefixLen.toNat : Int) := by
  have size : (List.replicate halInet6Len.toNat (0 : UInt8)).length = halInet6Len.toNat := List.length_replicate
  have written : stdIpV6PrefixLenToMask (some (.replicate halInet6Len.toNat 0)) halInet6Len prefixLen =
      .ok (some (prefixMask halInet6Len.toNat prefixLen.toNat)) := by
    by_cases none_ : prefixLen = 0
    · subst none_
      rw [UInt32.toNat_zero, prefixMask_zero]
      rfl
    · apply prefixLenToMask_inside size none_
      rw [show halInet6Len.toNat = 16 from rfl]
      omega
  have holds := prefixMask_holds halInet6Len.toNat prefixLen.toNat
  refine ⟨⟨afIndex, prefixMask halInet6Len.toNat prefixLen.toNat⟩, ?_, holds, ?_⟩
  · simp only [stdIpGetMaskFromPrefixLen, if_neg v6, written, ok_bind]
    rfl
  · rw [maskToPrefixLen_of_holds (length_prefixMask ..) holds (by rw [show halInet6Len.toNat = 16 from rfl]; omega)]
    exact if_pos (by omega)

end SonicUtils.Ip
