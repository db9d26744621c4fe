import SonicUtils.Fault
import SonicUtils.Lib.Bytes
import SonicUtils.Transfer.Syscall
import Mathlib.Data.Nat.Bitwise
import Mathlib.Order.Bounds.Basic

/-!
# Bit arrays

`std_bit_masks.c` and the macros of `std_bit_masks.h`. An array is the list of
its bytes; a byte beyond its end is a fault.

* `Tests`, `marks`: the positions whose bit is set;
* `lowestBit_table`, `highestBit_table`: what the two tables hold;
* `first_of_byte`, `last_of_byte`: the first and the last set bit of a byte,
  the first one from a bit on. No bit is kept out of the last one.
-/

namespace SonicUtils.Bits

open SonicUtils.Bytes (getD_of_rows)
open SonicUtils.Transfer (asInt asInt_of_small)

/-- `STD_BIT_ARRAY_BYTE_OFFSET`. -/
def byteOffset (numbits : Nat) : Nat := numbits / 8

/-- `STD_BIT_ARRAY_BIT_OFFSET`. -/
def bitOffset (numbits : Nat) : Nat := numbits % 8

/-- `1<<STD_BIT_ARRAY_BIT_OFFSET(bitoffset)`. -/
def bitMask (bitoffset : Nat) : UInt8 := 1 <<< UInt8.ofNat (bitOffset bitoffset)

/-- `STD_BIT_ARRAY_SET`. -/
def arraySet (name : List UInt8) (bitoffset : Nat) : Except Fault (List UInt8) := do
  let byte ← deref name[byteOffset bitoffset]?
  return name.set (byteOffset bitoffset) (byte ||| bitMask bitoffset)

/-- `STD_BIT_ARRAY_CLR`. -/
def arrayClr (name : List UInt8) (bitoffset : Nat) : Except Fault (List UInt8) := do
  let byte ← deref name[byteOffset bitoffset]?
  return name.set (byteOffset bitoffset) (byte &&& ~~~bitMask bitoffset)

/-- `STD_BIT_ARRAY_TEST`. -/
def arrayTest (name : List UInt8) (bitoffset : Nat) : Except Fault Bool := do
  let byte ← deref name[byteOffset bitoffset]?
  return (byte &&& bitMask bitoffset) != 0

/-- `bittobytelen`, with the conversion of its argument to `unsigned int`. -/
def bittobytelen (len : Nat) : Nat :=
  let len := len % 2 ^ 32
  len / 8 + if len % 8 = 0 then 0 else 1

def highestBit : List Nat := [
  0, 1, 2, 2, 3, 3, 3, 3, 4, 4, 4, 4, 4, 4, 4, 4,
  5, 5, 5, 5, 5, 5, 5, 5, 5, 5, 5, 5, 5, 5, 5, 5,
  6, 6, 6, 6, 6, 6, 6, 6, 6, 6, 6, 6, 6, 6, 6, 6,
  6, 6, 6, 6, 6, 6, 6, 6, 6, 6, 6, 6, 6, 6, 6, 6,
  7, 7, 7, 7, 7, 7, 7, 7, 7, 7, 7, 7, 7, 7, 7, 7,
  7, 7, 7, 7, 7, 7, 7, 7, 7, 7, 7, 7, 7, 7, 7, 7,
  7, 7, 7, 7, 7, 7, 7, 7, 7, 7, 7, 7, 7, 7, 7, 7,
  7, 7, 7, 7, 7, 7, 7, 7, 7, 7, 7, 7, 7, 7, 7, 7,
  8, 8, 8, 8, 8, 8, 8, 8, 8, 8, 8, 8, 8, 8, 8, 8,
  8, 8, 8, 8, 8, 8, 8, 8, 8, 8, 8, 8, 8, 8, 8, 8,
  8, 8, 8, 8, 8, 8, 8, 8, 8, 8, 8, 8, 8, 8, 8, 8,
  8, 8, 8, 8, 8, 8, 8, 8, 8, 8, 8, 8, 8, 8, 8, 8,
  8, 8, 8, 8, 8, 8, 8, 8, 8, 8, 8, 8, 8, 8, 8, 8,
  8, 8, 8, 8, 8, 8, 8, 8, 8, 8, 8, 8, 8, 8, 8, 8,
  8, 8, 8, 8, 8, 8, 8, 8, 8, 8, 8, 8, 8, 8, 8, 8,
  8, 8, 8, 8, 8, 8, 8, 8, 8, 8, 8, 8, 8, 8, 8, 8]

def lowestBit : List Nat := [
  0, 1, 2, 1, 3, 1, 2, 1, 4, 1, 2, 1, 3, 1, 2, 1,
  5, 1, 2, 1, 3, 1, 2, 1, 4, 1, 2, 1, 3, 1, 2, 1,
  6, 1, 2, 1, 3, 1, 2, 1, 4, 1, 2, 1, 3, 1, 2, 1,
  5, 1, 2, 1, 3, 1, 2, 1, 4, 1, 2, 1, 3, 1, 2, 1,
  7, 1, 2, 1, 3, 1, 2, 1, 4, 1, 2, 1, 3, 1, 2, 1,
  5, 1, 2, 1, 3, 1, 2, 1, 4, 1, 2, 1, 3, 1, 2, 1,
  6, 1, 2, 1, 3, 1, 2, 1, 4, 1, 2, 1, 3, 1, 2, 1,
  5, 1, 2, 1, 3, 1, 2, 1, 4, 1, 2, 1, 3, 1, 2, 1,
  8, 1, 2, 1, 3, 1, 2, 1, 4, 1, 2, 1, 3, 1, 2, 1,
  5, 1, 2, 1, 3, 1, 2, 1, 4, 1, 2, 1, 3, 1, 2, 1,
  6, 1, 2, 1, 3, 1, 2, 1, 4, 1, 2, 1, 3, 1, 2, 1,
  5, 1, 2, 1, 3, 1, 2, 1, 4, 1, 2, 1, 3, 1, 2, 1,
  7, 1, 2, 1, 3, 1, 2, 1, 4, 1, 2, 1, 3, 1, 2, 1,
  5, 1, 2, 1, 3, 1, 2, 1, 4, 1, 2, 1, 3, 1, 2, 1,
  6, 1, 2, 1, 3, 1, 2, 1, 4, 1, 2, 1, 3, 1, 2, 1,
  5, 1, 2, 1, 3, 1, 2, 1, 4, 1, 2, 1, 3, 1, 2, 1]

def stdFindLastBit8 (byte from' : UInt32) : UInt32 :=
  let mask : UInt32 := ~~~0 >>> from'
  .ofNat (highestBit.getD (byte &&& mask).toNat 0)

def stdFindFirstBit8 (byte from' : UInt32) : UInt32 :=
  let mask : UInt32 := ~~~0 <<< from'
  .ofNat (lowestBit.getD (byte &&& mask).toNat 0)

/-- The loop of `std_find_first_bit`, with `left` bytes to go from `ix` on. -/
def scanUp (array : List UInt8) : Nat → Nat → Except Fault Int
  | 0, _ => return -1
  | left + 1, ix => do
    let byte ← deref array[ix]?
    if byte = 0 then scanUp array left (ix + 1)
    else return asInt ((stdFindFirstBit8 byte.toUInt32 0 - 1).toNat + ix * 8)

def stdFindFirstBit (array : List UInt8) (len from' : Nat) : Except Fault Int :=
  if from' ≥ len then return -1
  else
    let ix := from' / 8
    let mx := len / 8 + if len % 8 ≠ 0 then 1 else 0
    let bit := from' % 8
    if bit ≠ 0 then do
      let byte ← deref array[ix]?
      let pos := (stdFindFirstBit8 byte.toUInt32 (.ofNat bit)).toNat
      if pos ≠ 0 then return asInt (pos - 1 + ix * 8)
      else scanUp array (mx - (ix + 1)) (ix + 1)
    else scanUp array (mx - ix) ix

/-- Arithmetic on `int`, where an overflow is undefined. -/
def inInt (x : Int) : Except Fault Int := do
  check (-2 ^ 31 ≤ x ∧ x < 2 ^ 31)
  return x

/-- `array[mx]` for an `int`. -/
def byteAt (array : List UInt8) (mx : Int) : Option UInt8 :=
  if mx < 0 then none else array[mx.toNat]?

/-- The loop of `std_find_last_bit`; the argument is `mx + 1`. -/
def scanDown (array : List UInt8) : Nat → Except Fault Int
  | 0 => return -1
  | mx + 1 => do
    let byte ← deref array[mx]?
    if byte ≠ 0 then
      let base ← inInt (mx * 8)
      return asInt ((stdFindLastBit8 byte.toUInt32 0 - 1).toNat + base)
    else scanDown array mx

def stdFindLastBit (array : List UInt8) (len from' : Nat) : Except Fault Int :=
  if from' ≥ len then return -1
  else
    let from' := len - from'
    let mx := asInt (from' / 8 + if from' % 8 ≠ 0 then 1 else 0 : Nat)
    if mx = 0 then return -1
    else do
      let mx ← inInt (mx - 1)
      let bit := from' % 8
      if bit ≠ 0 then
        let byte ← deref (byteAt array mx)
        let pos := (stdFindLastBit8 byte.toUInt32 (.ofNat bit)).toNat
        if pos ≠ 0 then
          let base ← inInt (mx * 8)
          return asInt (pos - 1 + base)
        else if mx = 0 then return -1
        else scanDown array mx.toNat
      else scanDown array (mx + 1).toNat

/-! ## Positions -/

/-- The position's bit is set. -/
def Tests (array : List UInt8) (p : Nat) : Prop := arrayTest array p = .ok true

instance (array : List UInt8) (p : Nat) : Decidable (Tests array p) :=
  inferInstanceAs (Decidable (arrayTest array p = .ok true))

/-- The set bits from `lo` on and before `hi`. -/
def marks (array : List UInt8) (lo hi : Nat) : Set Nat := {p | lo ≤ p ∧ p < hi ∧ Tests array p}

/-- `-1`, or the least element of the set as an `int`. -/
def FirstOf (S : Set Nat) (r : Int) : Prop := (r = -1 ∧ S = ∅) ∨ ∃ p : Nat, r = asInt p ∧ IsLeast S p

def LastOf (S : Set Nat) (r : Int) : Prop := (r = -1 ∧ S = ∅) ∨ ∃ p : Nat, r = asInt p ∧ IsGreatest S p

variable {array : List UInt8} {byte : UInt8} {p i k ix lo mid hi len from' : Nat}

theorem marks_split (lower : lo ≤ mid) (upper : mid ≤ hi) : marks array lo hi = marks array lo mid ∪ marks array mid hi := by
  ext p
  simp only [marks, Set.mem_union, Set.mem_ofPred_eq]
  by_cases side : p < mid
  · have : ¬ mid ≤ p := by omega
    have : p < hi := by omega
    tauto
  · have : mid ≤ p := by omega
    have : lo ≤ p := by omega
    tauto

theorem least_of_lower (lower : lo ≤ mid) (upper : mid ≤ hi) (least : IsLeast (marks array lo mid) p) :
    IsLeast (marks array lo hi) p := by
  rw [marks_split lower upper]
  constructor
  · exact .inl least.1
  · rintro q (below | above)
    · exact least.2 below
    · exact (least.1.2.1.trans_le above.1).le

theorem greatest_of_upper (lower : lo ≤ mid) (upper : mid ≤ hi) (greatest : IsGreatest (marks array mid hi) p) :
    IsGreatest (marks array lo hi) p := by
  rw [marks_split lower upper]
  constructor
  · exact .inr greatest.1
  · rintro q (below | above)
    · exact (below.2.1.trans_le greatest.1.1).le
    · exact greatest.2 above

/-! ## Bits of a byte -/

theorem testBit_bitMask (p : Nat) (hi : i < 8) : (bitMask p).toNat.testBit i = decide (i = p % 8) := by
  have cases : ∀ k < 8, ∀ i < 8, ((1 : UInt8) <<< UInt8.ofNat k).toNat.testBit i = decide (i = k) := by decide
  exact cases (p % 8) (by omega) i hi

theorem byte_high (hi : 8 ≤ i) : byte.toNat.testBit i = false := by
  apply Nat.testBit_lt_two_pow
  have bound := byte.toNat_lt
  have grows : 2 ^ 8 ≤ 2 ^ i := Nat.pow_le_pow_right (by decide) hi
  omega

theorem and_bitMask (p : Nat) : (byte &&& bitMask p ≠ 0) ↔ byte.toNat.testBit (p % 8) = true := by
  rw [Ne, ← UInt8.toNat_inj, UInt8.toNat_and]
  constructor
  · intro some
    by_contra none
    apply some
    apply Nat.eq_of_testBit_eq
    intro i
    rw [Nat.testBit_and, UInt8.toNat_zero, Nat.zero_testBit]
    by_cases hi : i < 8
    · rw [testBit_bitMask p hi]
      by_cases here : i = p % 8
      · rw [here, Bool.eq_false_iff.mpr none, Bool.false_and]
      · simp [here]
    · rw [byte_high (by omega), Bool.false_and]
  · intro set zero
    have bit := congrArg (fun n => n.testBit (p % 8)) zero
    simp [Nat.testBit_and, testBit_bitMask p (Nat.mod_lt p (by decide : 0 < 8)), set] at bit

theorem tests_of_byte (here : array[p / 8]? = some byte) : Tests array p ↔ byte.toNat.testBit (p % 8) = true := by
  rw [← and_bitMask]
  simp [Tests, arrayTest, byteOffset, here]

theorem tests_inside (set : Tests array p) : p / 8 < array.length := by
  by_contra outside
  have none : array[p / 8]? = none := List.getElem?_eq_none (by omega)
  simp [Tests, arrayTest, byteOffset, none, deref] at set
  cases set

/-- The entries count bits from one, and 0 stands for none. -/
theorem lowestBit_table : ∀ n < 256, let r := lowestBit.getD n 0
    r ≤ 8 ∧ if r = 0 then n = 0 else n.testBit (r - 1) ∧ ∀ i < r - 1, ¬ n.testBit i := by
  have length : lowestBit.length = 256 := by decide +kernel
  have rows : ∀ x ∈ lowestBit.zipIdx, x.1 ≤ 8 ∧
      if x.1 = 0 then x.2 = 0 else x.2.testBit (x.1 - 1) ∧ ∀ i < x.1 - 1, ¬ x.2.testBit i := by
    decide +kernel
  intro n less
  rw [← length] at less
  exact getD_of_rows (P := fun r n => r ≤ 8 ∧ if r = 0 then n = 0 else n.testBit (r - 1) ∧ ∀ i < r - 1, ¬ n.testBit i) rows less

theorem highestBit_table : ∀ n < 256, let r := highestBit.getD n 0
    r ≤ 8 ∧ if r = 0 then n = 0 else n.testBit (r - 1) ∧ ∀ i < 8, n.testBit i → i ≤ r - 1 := by
  have length : highestBit.length = 256 := by decide +kernel
  have rows : ∀ x ∈ highestBit.zipIdx, x.1 ≤ 8 ∧
      if x.1 = 0 then x.2 = 0 else x.2.testBit (x.1 - 1) ∧ ∀ i < 8, x.2.testBit i → i ≤ x.1 - 1 := by
    decide +kernel
  intro n less
  rw [← length] at less
  exact getD_of_rows (P := fun r n => r ≤ 8 ∧ if r = 0 then n = 0 else n.testBit (r - 1) ∧ ∀ i < 8, n.testBit i → i ≤ r - 1) rows less

/-- The mask of `std_find_first_bit8` leaves the bits from `k` on. -/
theorem mask_up (hk : k < 8) (hi : i < 8) :
    (byte.toUInt32 &&& (~~~0 <<< UInt32.ofNat k)).toNat.testBit i = (byte.toNat.testBit i && decide (k ≤ i)) := by
  have cases : ∀ k < 8, ∀ i < 8, ((~~~0 : UInt32) <<< UInt32.ofNat k).toNat.testBit i = decide (k ≤ i) := by decide
  rw [UInt32.toNat_and, Nat.testBit_and, cases k hk i hi, UInt8.toNat_toUInt32]

/-- The mask of `std_find_last_bit8` leaves every bit of a byte. -/
theorem mask_down (hk : k < 8) : (byte.toUInt32 &&& (~~~0 >>> UInt32.ofNat k)).toNat = byte.toNat := by
  have cases : ∀ k < 8, ∀ i < 8, ((~~~0 : UInt32) >>> UInt32.ofNat k).toNat.testBit i = true := by decide
  apply Nat.eq_of_testBit_eq
  intro i
  rw [UInt32.toNat_and, Nat.testBit_and, UInt8.toNat_toUInt32]
  by_cases hi : i < 8
  · rw [cases k hk i hi, Bool.and_true]
  · rw [byte_high (by omega), Bool.false_and]

/-- The set bits in one byte. -/
theorem mem_marks_byte (here : array[ix]? = some byte) :
    p ∈ marks array (8 * ix + k) (8 * ix + 8) ↔ ∃ i, p = 8 * ix + i ∧ k ≤ i ∧ i < 8 ∧ byte.toNat.testBit i = true := by
  constructor
  · rintro ⟨lower, upper, set⟩
    have same : p / 8 = ix := by omega
    refine ⟨p % 8, by omega, by omega, by omega, ?_⟩
    exact (tests_of_byte (same ▸ here)).mp set
  · rintro ⟨i, rfl, lower, upper, set⟩
    have same : (8 * ix + i) / 8 = ix := by omega
    have offset : (8 * ix + i) % 8 = i := by omega
    refine ⟨by omega, by omega, ?_⟩
    rw [tests_of_byte (same.symm ▸ here), offset]
    exact set

theorem marks_byte_empty_iff (here : array[ix]? = some byte) : marks array (8 * ix) (8 * ix + 8) = ∅ ↔ byte = 0 := by
  have mem_window {p : Nat} := mem_marks_byte (k := 0) (p := p) here
  constructor
  · intro empty
    by_contra nonzero
    have positive : byte.toNat ≠ 0 := by simpa [← UInt8.toNat_inj] using nonzero
    obtain ⟨i, set⟩ := Nat.exists_testBit_of_ne_zero positive
    have hi : i < 8 := by
      by_contra high
      rw [byte_high (by omega)] at set
      cases set
    exact Set.eq_empty_iff_forall_notMem.mp empty _ (mem_window.mpr ⟨i, rfl, by omega, hi, set⟩)
  · rintro rfl
    apply Set.eq_empty_of_forall_notMem
    intro p mem
    obtain ⟨i, _, _, _, set⟩ := mem_window.mp mem
    simp at set

/-- The tables count from one. -/
theorem zero_based {pos : UInt32} (one : pos.toNat = k + 1) : (pos - 1).toNat = k := by
  rw [UInt32.toNat_sub_of_le _ _ (UInt32.le_iff_toNat_le.mpr (by rw [one, UInt32.toNat_one]; omega)), one, UInt32.toNat_one]
  omega

theorem first_of_byte (here : array[ix]? = some byte) (hk : k < 8) :
    let pos := (stdFindFirstBit8 byte.toUInt32 (.ofNat k)).toNat
    let window := marks array (8 * ix + k) (8 * ix + 8)
    (pos = 0 ∧ window = ∅) ∨ ∃ i, pos = i + 1 ∧ IsLeast window (8 * ix + i) := by
  intro pos window
  have masked (i : Nat) (hi : i < 8) : (byte.toUInt32 &&& (~~~0 <<< UInt32.ofNat k)).toNat.testBit i =
      (byte.toNat.testBit i && decide (k ≤ i)) := mask_up hk hi
  have small : (byte.toUInt32 &&& (~~~0 <<< UInt32.ofNat k)).toNat < 256 := by
    rw [UInt32.toNat_and, UInt8.toNat_toUInt32]
    exact Nat.and_le_left.trans_lt byte.toNat_lt
  obtain ⟨bound, row⟩ := lowestBit_table _ small
  have value : pos = lowestBit.getD (byte.toUInt32 &&& (~~~0 <<< UInt32.ofNat k)).toNat 0 := by
    apply UInt32.toNat_ofNat_of_lt'
    exact bound.trans_lt (by decide)
  rw [← value] at bound row
  by_cases none : pos = 0
  · rw [if_pos none] at row
    refine .inl ⟨none, Set.eq_empty_of_forall_notMem ?_⟩
    intro p mem
    obtain ⟨i, _, above, hi, set⟩ := (mem_marks_byte here).mp mem
    have bit := masked i hi
    rw [row, Nat.zero_testBit, set, decide_eq_true above] at bit
    cases bit
  · rw [if_neg none] at row
    obtain ⟨set, least⟩ := row
    have bit := masked (pos - 1) (by omega)
    rw [set, eq_comm, Bool.and_eq_true, decide_eq_true_eq] at bit
    refine .inr ⟨pos - 1, by omega, (mem_marks_byte here).mpr ⟨pos - 1, rfl, bit.2, by omega, bit.1⟩, ?_⟩
    intro p mem
    obtain ⟨i, rfl, above, hi, there⟩ := (mem_marks_byte here).mp mem
    by_contra before
    apply least i (by omega)
    rw [masked i hi, there, decide_eq_true above]
    rfl

theorem last_of_byte (here : array[ix]? = some byte) (hk : k < 8) :
    let pos := (stdFindLastBit8 byte.toUInt32 (.ofNat k)).toNat
    let window := marks array (8 * ix) (8 * ix + 8)
    (pos = 0 ∧ window = ∅) ∨ ∃ i, pos = i + 1 ∧ i < 8 ∧ IsGreatest window (8 * ix + i) := by
  intro pos window
  obtain ⟨bound, row⟩ := highestBit_table byte.toNat byte.toNat_lt
  have value : pos = highestBit.getD byte.toNat 0 := by
    rw [← mask_down hk] at bound ⊢
    apply UInt32.toNat_ofNat_of_lt'
    exact bound.trans_lt (by decide)
  rw [← value] at bound row
  have mem_window {p : Nat} := mem_marks_byte (k := 0) (p := p) here
  by_cases none : pos = 0
  · rw [if_pos none] at row
    refine .inl ⟨none, Set.eq_empty_of_forall_notMem ?_⟩
    intro p mem
    obtain ⟨i, _, _, hi, set⟩ := mem_window.mp mem
    rw [row, Nat.zero_testBit] at set
    cases set
  · rw [if_neg none] at row
    obtain ⟨set, greatest⟩ := row
    refine .inr ⟨pos - 1, by omega, by omega, mem_window.mpr ⟨pos - 1, rfl, by omega, by omega, set⟩, ?_⟩
    intro p mem
    obtain ⟨i, rfl, _, hi, there⟩ := mem_window.mp mem
    have := greatest i hi there
    omega

end SonicUtils.Bits
