import Mathlib

/-!
# Cyclic redundancy checks

A shift register that takes its lowest bit out first, and the polynomial over
the field of two elements that its bits stand for, the lowest bit for the
highest power. Fed with a message, it holds the remainder of the message.

* `val_feed`: what a register stands for after a message;
* `val_injective`: it stands for its remainder only;
* `val_power`: high powers, computed in the register.
-/

namespace SonicUtils.Crc

open Polynomial

/-- The polynomial of `n` bits, the first one the highest. -/
noncomputable def poly (n : Nat) (bit : Nat → Bool) : (ZMod 2)[X] :=
  ∑ i ∈ Finset.range n, ((bit i).toNat : (ZMod 2)[X]) * X ^ (n - 1 - i)

theorem poly_succ (n : Nat) (bit : Nat → Bool) :
    poly (n + 1) bit = X * poly n bit + ((bit n).toNat : (ZMod 2)[X]) := by
  rw [poly, Finset.sum_range_succ, poly, Finset.mul_sum]
  congr 1
  · apply Finset.sum_congr rfl
    intro i hi
    have less := Finset.mem_range.mp hi
    rw [show n + 1 - 1 - i = (n - 1 - i) + 1 by omega, pow_succ]
    ring
  · simp

theorem poly_succ' (n : Nat) (bit : Nat → Bool) :
    poly (n + 1) bit = ((bit 0).toNat : (ZMod 2)[X]) * X ^ n + poly n fun i => bit (i + 1) := by
  rw [poly, Finset.sum_range_succ', add_comm, poly]
  congr 1
  apply Finset.sum_congr rfl
  intro i _
  rw [show n + 1 - 1 - (i + 1) = n - 1 - i by omega]

theorem poly_append (n m : Nat) (bit : Nat → Bool) :
    poly (n + m) bit = X ^ m * poly n bit + poly m fun i => bit (n + i) := by
  induction m with
  | zero => simp [poly]
  | succ m ih =>
    rw [← Nat.add_assoc, poly_succ, ih, poly_succ]
    ring

theorem poly_congr {n : Nat} {bit bit' : Nat → Bool} (same : ∀ i < n, bit i = bit' i) : poly n bit = poly n bit' := by
  apply Finset.sum_congr rfl
  intro i hi
  rw [same i (Finset.mem_range.mp hi)]

theorem cast_xor (a b : Bool) : ((a ^^ b).toNat : (ZMod 2)[X]) = (a.toNat : (ZMod 2)[X]) + (b.toNat : (ZMod 2)[X]) := by
  cases a with
  | false => cases b <;> simp
  | true =>
    cases b with
    | false => simp
    | true => simp [ZModModule.add_self]

theorem poly_xor (n : Nat) (a b : Nat → Bool) : (poly n fun i => a i ^^ b i) = poly n a + poly n b := by
  simp only [poly, cast_xor, add_mul, Finset.sum_add_distrib]

theorem poly_none {n : Nat} {bit : Nat → Bool} (none : ∀ i < n, bit i = false) : poly n bit = 0 := by
  rw [poly_congr none]
  simp [poly]

theorem coeff_poly {n i : Nat} (less : i < n) (bit : Nat → Bool) :
    (poly n bit).coeff (n - 1 - i) = ((bit i).toNat : ZMod 2) := by
  rw [poly, finsetSum_coeff, Finset.sum_eq_single i]
  · rw [← C_eq_natCast, coeff_C_mul, coeff_X_pow_self, mul_one]
  · intro j hj ne
    have less' := Finset.mem_range.mp hj
    rw [← C_eq_natCast, coeff_C_mul, coeff_X_pow, if_neg (by omega), mul_zero]
  · intro not_mem
    exact absurd (Finset.mem_range.mpr less) not_mem

theorem degree_poly (n : Nat) (bit : Nat → Bool) : (poly n bit).degree < n := by
  rw [degree_lt_iff_coeff_zero]
  intro m big
  rw [poly, finsetSum_coeff]
  apply Finset.sum_eq_zero
  intro i hi
  have less := Finset.mem_range.mp hi
  rw [← C_eq_natCast, coeff_C_mul, coeff_X_pow, if_neg (by omega), mul_zero]

/-! ## The register -/

variable {w : Nat}

/-- One step of a register with the feedback `g`. -/
def step (g r : BitVec w) : BitVec w := if r.getLsbD 0 then r >>> 1 ^^^ g else r >>> 1

def steps (g : BitVec w) : Nat → BitVec w → BitVec w
  | 0, r => r
  | n + 1, r => steps g n (step g r)

/-- A message of `n` bits shifted in. -/
def feed (g : BitVec w) (bit : Nat → Bool) : Nat → BitVec w → BitVec w
  | 0, r => r
  | n + 1, r =>
    let r := feed g bit n r
    step g (if bit n then r ^^^ 1#w else r)

/-- The polynomial that the register divides by. -/
noncomputable def generator (g : BitVec w) : (ZMod 2)[X] := X ^ w + poly w g.getLsbD

/-- What the register stands for. -/
noncomputable def val (g r : BitVec w) : AdjoinRoot (generator g) := AdjoinRoot.mk _ (poly w r.getLsbD)

variable {g : BitVec w}

theorem monic_generator (g : BitVec w) : (generator g).Monic := monic_X_pow_add (degree_poly w _)

theorem degree_generator (g : BitVec w) : (generator g).degree = w := by
  rw [generator, add_comm]
  exact (degree_add_eq_right_of_degree_lt (by rw [degree_X_pow]; exact degree_poly w _)).trans (degree_X_pow w)

theorem val_xor (r s : BitVec w) : val g (r ^^^ s) = val g r + val g s := by
  rw [val, val, val, ← map_add, ← poly_xor]
  congr 1
  apply poly_congr
  intro i _
  rw [BitVec.getLsbD_xor]

@[simp] theorem val_zero : val g 0#w = 0 := by
  rw [val, poly_none, map_zero]
  intro i _
  exact BitVec.getLsbD_zero

theorem bits_of_divides {bit : Nat → Bool} (divides : generator g ∣ poly w bit) : ∀ i < w, bit i = false := by
  have none : poly w bit = 0 := by
    by_contra some_
    exact (monic_generator g).not_dvd_of_degree_lt some_ (by rw [degree_generator]; exact degree_poly w _) divides
  intro i less
  have coeff := coeff_poly less bit
  rw [none, coeff_zero] at coeff
  cases h : bit i with
  | false => rfl
  | true => simp [h] at coeff

theorem val_injective : Function.Injective (val g) := by
  intro r s same
  have zero : val g (r ^^^ s) = 0 := by rw [val_xor, same, ZModModule.add_self]
  have clear := bits_of_divides (AdjoinRoot.mk_eq_zero.mp zero)
  exact BitVec.xor_eq_zero_iff.mp (BitVec.eq_of_getLsbD_eq fun i less => (clear i less).trans BitVec.getLsbD_zero.symm)

theorem root_pow : AdjoinRoot.root (generator g) ^ w = val g g := by
  have zero : AdjoinRoot.mk (generator g) (X ^ w + poly w g.getLsbD) = 0 := AdjoinRoot.mk_self
  rw [map_add, map_pow, AdjoinRoot.mk_X] at zero
  have opposite := add_eq_zero_iff_eq_neg.mp zero
  rwa [ZModModule.neg_eq_self] at opposite

/-- A step is a multiplication by `X`. -/
theorem val_step (r : BitVec w) : val g (step g r) = AdjoinRoot.root _ * val g r := by
  have shifted : poly w (r >>> 1).getLsbD + ((r.getLsbD 0).toNat : (ZMod 2)[X]) * X ^ w = X * poly w r.getLsbD := by
    have next : poly w (r >>> 1).getLsbD = poly w fun i => r.getLsbD (i + 1) := by
      apply poly_congr
      intro i _
      rw [BitVec.getLsbD_ushiftRight, Nat.add_comm]
    rw [next, add_comm, ← poly_succ', poly_succ, BitVec.getLsbD_of_ge r w (Nat.le_refl w)]
    simp
  have product : val g (r >>> 1) + ((r.getLsbD 0).toNat : AdjoinRoot (generator g)) * val g g = AdjoinRoot.root _ * val g r := by
    rw [← root_pow, ← AdjoinRoot.mk_X, ← map_pow, ← map_natCast (AdjoinRoot.mk (generator g)), ← map_mul, val, ← map_add, shifted, map_mul,
      AdjoinRoot.mk_X, val]
  rw [← product, step]
  cases r.getLsbD 0 with
  | false => simp
  | true => simp [val_xor]

theorem val_steps (n : Nat) (r : BitVec w) : val g (steps g n r) = AdjoinRoot.root _ ^ n * val g r := by
  induction n generalizing r with
  | zero => simp [steps]
  | succ n ih =>
    rw [steps, ih, val_step, pow_succ]
    ring

/-- The lowest bit is the highest power. -/
theorem val_one : AdjoinRoot.root (generator g) * val g 1#w = AdjoinRoot.root _ ^ w := by
  cases w with
  | zero => rw [root_pow, val, val, poly_none (by simp), poly_none (by simp), map_zero, mul_zero]
  | succ n =>
    have high : poly (n + 1) (1#(n + 1)).getLsbD = X ^ n := by
      rw [poly_succ', poly_none (by simp)]
      simp
    rw [val, high, map_pow, AdjoinRoot.mk_X, pow_succ']

/-- **What a register stands for after a message.** -/
theorem val_feed (bit : Nat → Bool) (n : Nat) (r : BitVec w) : val g (feed g bit n r) =
    AdjoinRoot.root _ ^ n * val g r + AdjoinRoot.root _ ^ w * AdjoinRoot.mk _ (poly n bit) := by
  induction n with
  | zero => simp [feed, poly]
  | succ n ih =>
    have added : val g (if bit n then feed g bit n r ^^^ 1#w else feed g bit n r) =
        val g (feed g bit n r) + ((bit n).toNat : AdjoinRoot (generator g)) * val g 1#w := by
      cases bit n with
      | false => simp
      | true => simp [val_xor]
    rw [feed, val_step, added, ih, poly_succ, map_add, map_mul, AdjoinRoot.mk_X, map_natCast, pow_succ]
    linear_combination ((bit n).toNat : AdjoinRoot (generator g)) * val_one (g := g)

/-- After a message a register holds the remainder of the message. -/
theorem poly_feed (bit : Nat → Bool) (n : Nat) (r : BitVec w) :
    poly w (feed g bit n r).getLsbD = (X ^ n * poly w r.getLsbD + X ^ w * poly n bit) %ₘ generator g := by
  have same : val g (feed g bit n r) = AdjoinRoot.mk _ (X ^ n * poly w r.getLsbD + X ^ w * poly n bit) := by
    rw [val_feed, map_add, map_mul, map_mul, map_pow, map_pow, AdjoinRoot.mk_X, val]
  have less : (poly w (feed g bit n r).getLsbD).degree < (generator g).degree := by
    rw [degree_generator]
    exact degree_poly w _
  rw [← modByMonic_eq_of_dvd_sub (monic_generator g) (AdjoinRoot.mk_eq_mk.mp same),
    (modByMonic_eq_self_iff (monic_generator g)).mpr less]

/-! ## Registers as numbers -/

/-- A step on the number in a register. -/
def stepNat (g r : Nat) : Nat := if r % 2 = 1 then r / 2 ^^^ g else r / 2

def stepsNat (g : Nat) : Nat → Nat → Nat
  | 0, r => r
  | n + 1, r => stepsNat g n (stepNat g r)

theorem toNat_step (g r : BitVec w) : (step g r).toNat = stepNat g.toNat r.toNat := by
  have low : r.getLsbD 0 = decide (r.toNat % 2 = 1) := by rw [← BitVec.testBit_toNat, Nat.testBit_zero]
  have half : (r >>> 1).toNat = r.toNat / 2 := by rw [BitVec.toNat_ushiftRight, Nat.shiftRight_one]
  rw [step, stepNat, low]
  by_cases odd : r.toNat % 2 = 1
  · rw [if_pos odd, if_pos (decide_eq_true odd), BitVec.toNat_xor, half]
  · rw [if_neg odd, if_neg (by simp [odd]), half]

theorem toNat_steps (n : Nat) (g r : BitVec w) : (steps g n r).toNat = stepsNat g.toNat n r.toNat := by
  induction n generalizing r with
  | zero => rfl
  | succ n ih => rw [steps, stepsNat, ih, toNat_step]

/-! ## Powers -/

/-- The product of what `a` and `b` stand for, from the highest power of `a` on. -/
def mulUpTo (g a b : BitVec w) : Nat → BitVec w
  | 0 => 0#w
  | n + 1 =>
    let r := step g (mulUpTo g a b n)
    if a.getLsbD n then r ^^^ b else r

def mul (g a b : BitVec w) : BitVec w := mulUpTo g a b w

/-- The power of `X` by the `k` low bits of `n`. -/
def power (g : BitVec w) : Nat → Nat → BitVec w
  | 0, _ => .twoPow w (w - 1)
  | k + 1, n =>
    let r := power g k (n / 2)
    let r := mul g r r
    if n % 2 = 1 then step g r else r

theorem val_mul (a b : BitVec w) : val g (mul g a b) = val g a * val g b := by
  have upTo (n : Nat) : val g (mulUpTo g a b n) = AdjoinRoot.mk _ (poly n a.getLsbD) * val g b := by
    induction n with
    | zero => simp [mulUpTo, poly]
    | succ n ih =>
      have added : val g (mulUpTo g a b (n + 1)) =
          val g (step g (mulUpTo g a b n)) + ((a.getLsbD n).toNat : AdjoinRoot (generator g)) * val g b := by
        rw [mulUpTo]
        cases a.getLsbD n with
        | false => simp
        | true => simp [val_xor]
      rw [added, val_step, ih, poly_succ, map_add, map_mul, AdjoinRoot.mk_X, map_natCast]
      ring
  exact upTo w

theorem val_power (some_ : 0 < w) {k n : Nat} (fits : n < 2 ^ k) : val g (power g k n) = AdjoinRoot.root _ ^ n := by
  induction k generalizing n with
  | zero =>
    obtain rfl : n = 0 := by omega
    obtain ⟨m, rfl⟩ := Nat.exists_eq_add_of_lt some_
    have unit : poly (0 + m + 1) (BitVec.twoPow (0 + m + 1) (0 + m + 1 - 1)).getLsbD = 1 := by
      rw [poly_succ, poly_none, mul_zero, zero_add]
      · simp
      · intro i less
        rw [BitVec.getLsbD_twoPow]
        simp
        omega
    rw [power, val, unit, map_one, pow_zero]
  | succ k ih =>
    have half := ih (n := n / 2) (by omega)
    have twice : n = n / 2 + n / 2 + n % 2 := by omega
    rw [power]
    split
    · rename_i odd
      rw [val_step, val_mul, half, ← pow_add, ← pow_succ']
      congr 1
      omega
    · rw [val_mul, half, ← pow_add]
      congr 1
      omega

/-! ## Several bits at a time -/

theorem poly_setWidth {n : Nat} (short : n ≤ w) (b : BitVec n) :
    poly w (b.setWidth w).getLsbD = X ^ (w - n) * poly n b.getLsbD := by
  obtain ⟨m, rfl⟩ := Nat.exists_eq_add_of_le short
  rw [poly_append, Nat.add_sub_cancel_left, poly_none (n := m), add_zero]
  · congr 1
    apply poly_congr
    intro i less
    rw [BitVec.getLsbD_setWidth]
    simp
    omega
  · intro i _
    rw [BitVec.getLsbD_setWidth, BitVec.getLsbD_of_ge b _ (by omega), Bool.and_false]

/-- A message of up to `w` bits may be added before the steps. -/
theorem feed_eq_steps {n : Nat} (short : n ≤ w) (b : BitVec n) (r : BitVec w) :
    feed g b.getLsbD n r = steps g n (r ^^^ b.setWidth w) := by
  apply val_injective (g := g)
  have parts : w = n + (w - n) := by omega
  have power : AdjoinRoot.root (generator g) ^ w = AdjoinRoot.root _ ^ n * AdjoinRoot.root _ ^ (w - n) := by
    rw [← pow_add, ← parts]
  rw [val_feed, val_steps, val_xor, val.eq_def g (b.setWidth w), poly_setWidth short, map_mul, map_pow, AdjoinRoot.mk_X, power]
  ring

theorem feed_add (bit : Nat → Bool) (n m : Nat) (r : BitVec w) :
    feed g bit (n + m) r = feed g (fun i => bit (n + i)) m (feed g bit n r) := by
  induction m with
  | zero => rfl
  | succ m ih =>
    rw [← Nat.add_assoc, feed, ih]
    rfl

theorem feed_congr {bit bit' : Nat → Bool} {n : Nat} (same : ∀ i < n, bit i = bit' i) (r : BitVec w) :
    feed g bit n r = feed g bit' n r := by
  induction n with
  | zero => rfl
  | succ n ih => rw [feed, feed, ih fun i less => same i (by omega), same n (by omega)]

theorem steps_xor (n : Nat) (r s : BitVec w) : steps g n (r ^^^ s) = steps g n r ^^^ steps g n s := by
  apply val_injective (g := g)
  rw [val_xor, val_steps, val_steps, val_steps, val_xor, mul_add]

/-- Low bits that are clear are only shifted out. -/
theorem steps_clear {n : Nat} {r : BitVec w} (clear : ∀ i < n, r.getLsbD i = false) : steps g n r = r >>> n := by
  induction n generalizing r with
  | zero => rw [steps, BitVec.ushiftRight_zero]
  | succ n ih =>
    have low : step g r = r >>> 1 := by
      rw [step, clear 0 (by omega)]
      rfl
    rw [steps, low, ih, Nat.add_comm n 1, BitVec.shiftRight_add]
    intro i less
    rw [BitVec.getLsbD_ushiftRight]
    exact clear _ (by omega)

/-- The steps of the low bits and of the rest. -/
theorem steps_split (n : Nat) (r : BitVec w) :
    steps g n r = steps g n ((r.setWidth n).setWidth w) ^^^ r >>> n := by
  have high : ∀ i < n, (r ^^^ (r.setWidth n).setWidth w).getLsbD i = false := by
    intro i less
    rw [BitVec.getLsbD_xor, BitVec.getLsbD_setWidth, BitVec.getLsbD_setWidth]
    by_cases inside : i < w
    · simp [less, inside]
    · rw [BitVec.getLsbD_of_ge r i (by omega)]
      simp
  have rest : (r ^^^ (r.setWidth n).setWidth w) >>> n = r >>> n := by
    apply BitVec.eq_of_getLsbD_eq
    intro i _
    rw [BitVec.getLsbD_ushiftRight, BitVec.getLsbD_ushiftRight, BitVec.getLsbD_xor, BitVec.getLsbD_setWidth,
      BitVec.getLsbD_of_ge (r.setWidth n) (n + i) (by omega)]
    simp
  have both : r = (r.setWidth n).setWidth w ^^^ (r ^^^ (r.setWidth n).setWidth w) := by
    rw [BitVec.xor_comm r, ← BitVec.xor_assoc, BitVec.xor_self, BitVec.zero_xor]
  calc
    steps g n r = steps g n ((r.setWidth n).setWidth w ^^^ (r ^^^ (r.setWidth n).setWidth w)) := by rw [← both]
    _ = steps g n ((r.setWidth n).setWidth w) ^^^ r >>> n := by rw [steps_xor, steps_clear high, rest]

/-! ## Errors -/

/-- With its highest bit in the feedback, a register loses nothing. -/
theorem isUnit_root (top : g.msb = true) : IsUnit (AdjoinRoot.root (generator g)) := by
  cases w with
  | zero => exact absurd top (by rw [BitVec.msb_eq_getLsbD_last, BitVec.getLsbD_of_ge g _ (by omega)]; decide)
  | succ n =>
    have last : g.getLsbD n = true := by
      rw [BitVec.msb_eq_getLsbD_last] at top
      exact top
    have zero : AdjoinRoot.root (generator g) * (AdjoinRoot.root _ ^ n + AdjoinRoot.mk _ (poly n g.getLsbD)) + 1 = 0 := by
      have self : AdjoinRoot.mk (generator g) (X ^ (n + 1) + poly (n + 1) g.getLsbD) = 0 := AdjoinRoot.mk_self
      rw [poly_succ, last] at self
      simp only [map_add, map_pow, map_mul, AdjoinRoot.mk_X, Bool.toNat_true, Nat.cast_one, map_one] at self
      rw [← self]
      ring
    have opposite := add_eq_zero_iff_eq_neg.mp zero
    rw [ZModModule.neg_eq_self] at opposite
    exact IsUnit.of_mul_eq_one _ opposite

theorem steps_injective (top : g.msb = true) (n : Nat) : Function.Injective (steps g n) := by
  intro r s same
  apply val_injective (g := g)
  have values : val g (steps g n r) = val g (steps g n s) := by rw [same]
  rwa [val_steps, val_steps, ((isUnit_root top).pow n).mul_right_inj] at values

/-- **When a difference goes unseen**: the generator divides it. -/
theorem feed_eq_iff (top : g.msb = true) (a b : Nat → Bool) (n : Nat) (r : BitVec w) :
    feed g a n r = feed g b n r ↔ generator g ∣ poly n fun i => a i ^^ b i := by
  have unit := (isUnit_root top).pow w
  rw [← val_injective.eq_iff (f := val g), val_feed, val_feed, add_right_inj, unit.mul_right_inj, poly_xor,
    ← AdjoinRoot.mk_eq_zero, map_add, add_eq_zero_iff_eq_neg, ZModModule.neg_eq_self]

/-- **A burst is seen.** Messages that differ, but only within `w` bits in a row, leave different registers. -/
theorem burst (top : g.msb = true) {a b : Nat → Bool} {n k : Nat} (outside : ∀ i < n, i < k ∨ k + w ≤ i → a i = b i)
    (r : BitVec w) (same : feed g a n r = feed g b n r) : ∀ i < n, a i = b i := by
  let d (i : Nat) : Bool := decide (i < n) && (a i ^^ b i)
  let m := max n (k + w)
  have clear (i : Nat) (far : i < k ∨ k + w ≤ i) : d i = false := by
    by_cases less : i < n
    · simp [d, outside i less far]
    · simp [d, less]
  have inside : poly n (fun i => a i ^^ b i) = poly n d := poly_congr fun i less => by simp [d, less]
  have longer : poly m d = X ^ (m - n) * poly n d := by
    obtain ⟨l, eq⟩ := Nat.exists_eq_add_of_le (Nat.le_max_left n (k + w))
    rw [show m = n + l from eq, poly_append, Nat.add_sub_cancel_left, poly_none (n := l), add_zero]
    intro i _
    simp [d]
  have window : poly m d = X ^ (m - (k + w)) * poly w fun i => d (k + i) := by
    obtain ⟨l, eq⟩ := Nat.exists_eq_add_of_le (Nat.le_max_right n (k + w))
    rw [show m = k + w + l from eq, poly_append, Nat.add_sub_cancel_left, poly_none (n := l), add_zero, poly_append,
      poly_none (n := k), mul_zero, zero_add]
    · exact fun i less => clear i (.inl less)
    · exact fun i _ => clear _ (.inr (by omega))
  have divides := (feed_eq_iff top a b n r).mp same
  rw [inside] at divides
  have divides' : generator g ∣ X ^ (m - (k + w)) * poly w fun i => d (k + i) := by
    rw [← window, longer]
    exact divides.mul_left _
  rw [← AdjoinRoot.mk_eq_zero, map_mul, map_pow, AdjoinRoot.mk_X, ((isUnit_root top).pow _).mul_right_eq_zero,
    AdjoinRoot.mk_eq_zero] at divides'
  have none := bits_of_divides divides'
  intro i less
  by_cases far : i < k ∨ k + w ≤ i
  · exact outside i less far
  · have same' := none (i - k) (by omega)
    rw [Nat.add_sub_cancel' (by omega)] at same'
    simpa [d, less] using same'

theorem poly_single {n i : Nat} (less : i < n) : (poly n fun k => decide (k = i)) = X ^ (n - 1 - i) := by
  rw [poly, Finset.sum_eq_single i]
  · simp
  · intro j _ ne
    simp [ne]
  · intro not_mem
    exact absurd (Finset.mem_range.mpr less) not_mem

/-- **When two flipped bits go unseen**: their distance is a multiple of the order of `X`. -/
theorem two_flips (top : g.msb = true) {a : Nat → Bool} {i j n : Nat} (order : i < j) (less : j < n) (r : BitVec w) :
    feed g (fun k => a k ^^ (decide (k = i) ^^ decide (k = j))) n r = feed g a n r ↔
      orderOf (AdjoinRoot.root (generator g)) ∣ j - i := by
  have flips : (poly n fun k => (a k ^^ (decide (k = i) ^^ decide (k = j))) ^^ a k) = X ^ (n - 1 - j) * (X ^ (j - i) + 1) := by
    have power : n - 1 - i = n - 1 - j + (j - i) := by omega
    have only : ∀ k < n, ((a k ^^ (decide (k = i) ^^ decide (k = j))) ^^ a k) = (decide (k = i) ^^ decide (k = j)) := by
      intro k _
      cases a k <;> simp
    rw [poly_congr only, poly_xor, poly_single (by omega), poly_single less, mul_add, mul_one, ← pow_add, power]
  rw [feed_eq_iff top, flips, ← AdjoinRoot.mk_eq_zero, map_mul, map_pow, AdjoinRoot.mk_X,
    ((isUnit_root top).pow _).mul_right_eq_zero, map_add, map_pow, AdjoinRoot.mk_X, map_one, add_eq_zero_iff_eq_neg,
    ZModModule.neg_eq_self, orderOf_dvd_iff_pow_eq_one]

end SonicUtils.Crc
