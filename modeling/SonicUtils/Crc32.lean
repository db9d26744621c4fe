import SonicUtils.Lib.Bytes
import SonicUtils.Lib.Crc
import Mathlib.Tactic.NormNum.Prime

/-!
# The checksum

`std_crc32.c`. The table holds eight steps of a shift register for every byte,
so that the function takes the remainder of the message by the polynomial its
comment gives.

* `stdCrc32_remainder`: what it computes;
* `stdCrc32_burst`, `stdCrc32_two_flips`: the errors it sees;
* `stdCrc32_residue`: a message with its checksum behind it.
-/

namespace SonicUtils.Crc32

open SonicUtils.Crc SonicUtils.Bytes Polynomial

def crc32Tab : List UInt32 := [
  0x00000000, 0x77073096, 0xee0e612c, 0x990951ba, 0x076dc419, 0x706af48f, 0xe963a535, 0x9e6495a3,
  0x0edb8832, 0x79dcb8a4, 0xe0d5e91e, 0x97d2d988, 0x09b64c2b, 0x7eb17cbd, 0xe7b82d07, 0x90bf1d91,
  0x1db71064, 0x6ab020f2, 0xf3b97148, 0x84be41de, 0x1adad47d, 0x6ddde4eb, 0xf4d4b551, 0x83d385c7,
  0x136c9856, 0x646ba8c0, 0xfd62f97a, 0x8a65c9ec, 0x14015c4f, 0x63066cd9, 0xfa0f3d63, 0x8d080df5,
  0x3b6e20c8, 0x4c69105e, 0xd56041e4, 0xa2677172, 0x3c03e4d1, 0x4b04d447, 0xd20d85fd, 0xa50ab56b,
  0x35b5a8fa, 0x42b2986c, 0xdbbbc9d6, 0xacbcf940, 0x32d86ce3, 0x45df5c75, 0xdcd60dcf, 0xabd13d59,
  0x26d930ac, 0x51de003a, 0xc8d75180, 0xbfd06116, 0x21b4f4b5, 0x56b3c423, 0xcfba9599, 0xb8bda50f,
  0x2802b89e, 0x5f058808, 0xc60cd9b2, 0xb10be924, 0x2f6f7c87, 0x58684c11, 0xc1611dab, 0xb6662d3d,
  0x76dc4190, 0x01db7106, 0x98d220bc, 0xefd5102a, 0x71b18589, 0x06b6b51f, 0x9fbfe4a5, 0xe8b8d433,
  0x7807c9a2, 0x0f00f934, 0x9609a88e, 0xe10e9818, 0x7f6a0dbb, 0x086d3d2d, 0x91646c97, 0xe6635c01,
  0x6b6b51f4, 0x1c6c6162, 0x856530d8, 0xf262004e, 0x6c0695ed, 0x1b01a57b, 0x8208f4c1, 0xf50fc457,
  0x65b0d9c6, 0x12b7e950, 0x8bbeb8ea, 0xfcb9887c, 0x62dd1ddf, 0x15da2d49, 0x8cd37cf3, 0xfbd44c65,
  0x4db26158, 0x3ab551ce, 0xa3bc0074, 0xd4bb30e2, 0x4adfa541, 0x3dd895d7, 0xa4d1c46d, 0xd3d6f4fb,
  0x4369e96a, 0x346ed9fc, 0xad678846, 0xda60b8d0, 0x44042d73, 0x33031de5, 0xaa0a4c5f, 0xdd0d7cc9,
  0x5005713c, 0x270241aa, 0xbe0b1010, 0xc90c2086, 0x5768b525, 0x206f85b3, 0xb966d409, 0xce61e49f,
  0x5edef90e, 0x29d9c998, 0xb0d09822, 0xc7d7a8b4, 0x59b33d17, 0x2eb40d81, 0xb7bd5c3b, 0xc0ba6cad,
  0xedb88320, 0x9abfb3b6, 0x03b6e20c, 0x74b1d29a, 0xead54739, 0x9dd277af, 0x04db2615, 0x73dc1683,
  0xe3630b12, 0x94643b84, 0x0d6d6a3e, 0x7a6a5aa8, 0xe40ecf0b, 0x9309ff9d, 0x0a00ae27, 0x7d079eb1,
  0xf00f9344, 0x8708a3d2, 0x1e01f268, 0x6906c2fe, 0xf762575d, 0x806567cb, 0x196c3671, 0x6e6b06e7,
  0xfed41b76, 0x89d32be0, 0x10da7a5a, 0x67dd4acc, 0xf9b9df6f, 0x8ebeeff9, 0x17b7be43, 0x60b08ed5,
  0xd6d6a3e8, 0xa1d1937e, 0x38d8c2c4, 0x4fdff252, 0xd1bb67f1, 0xa6bc5767, 0x3fb506dd, 0x48b2364b,
  0xd80d2bda, 0xaf0a1b4c, 0x36034af6, 0x41047a60, 0xdf60efc3, 0xa867df55, 0x316e8eef, 0x4669be79,
  0xcb61b38c, 0xbc66831a, 0x256fd2a0, 0x5268e236, 0xcc0c7795, 0xbb0b4703, 0x220216b9, 0x5505262f,
  0xc5ba3bbe, 0xb2bd0b28, 0x2bb45a92, 0x5cb36a04, 0xc2d7ffa7, 0xb5d0cf31, 0x2cd99e8b, 0x5bdeae1d,
  0x9b64c2b0, 0xec63f226, 0x756aa39c, 0x026d930a, 0x9c0906a9, 0xeb0e363f, 0x72076785, 0x05005713,
  0x95bf4a82, 0xe2b87a14, 0x7bb12bae, 0x0cb61b38, 0x92d28e9b, 0xe5d5be0d, 0x7cdcefb7, 0x0bdbdf21,
  0x86d3d2d4, 0xf1d4e242, 0x68ddb3f8, 0x1fda836e, 0x81be16cd, 0xf6b9265b, 0x6fb077e1, 0x18b74777,
  0x88085ae6, 0xff0f6a70, 0x66063bca, 0x11010b5c, 0x8f659eff, 0xf862ae69, 0x616bffd3, 0x166ccf45,
  0xa00ae278, 0xd70dd2ee, 0x4e048354, 0x3903b3c2, 0xa7672661, 0xd06016f7, 0x4969474d, 0x3e6e77db,
  0xaed16a4a, 0xd9d65adc, 0x40df0b66, 0x37d83bf0, 0xa9bcae53, 0xdebb9ec5, 0x47b2cf7f, 0x30b5ffe9,
  0xbdbdf21c, 0xcabac28a, 0x53b39330, 0x24b4a3a6, 0xbad03605, 0xcdd70693, 0x54de5729, 0x23d967bf,
  0xb3667a2e, 0xc4614ab8, 0x5d681b02, 0x2a6f2b94, 0xb40bbe37, 0xc30c8ea1, 0x5a05df1b, 0x2d02ef8d]

/-- The loop body, the "updcrc" of the comment. -/
def updcrc (crc : UInt32) (p : UInt8) : UInt32 := crc32Tab.getD ((crc ^^^ p.toUInt32) &&& 0xFF).toNat 0 ^^^ crc >>> 8

/-- `std_crc32`; `buf` are the `size` bytes at the pointer. -/
def stdCrc32 (crc : UInt32) (buf : List UInt8) : UInt32 :=
  let crc := crc ^^^ ~~~(0 : UInt32)
  let crc := buf.foldl updcrc crc
  crc ^^^ ~~~(0 : UInt32)

/-- The polynomial of the comment, "backwards" and without its highest term. -/
def edb88320 : BitVec 32 := 0xedb88320

/-- The bits of a buffer, in the order in which they are sent. -/
def bitOf (buf : List UInt8) (k : Nat) : Bool := (buf.getD (k / 8) 0).toBitVec.getLsbD (k % 8)

/-- "The feedback terms simply represent the results of eight shift/xor
operations". -/
theorem crc32Tab_steps : ∀ i < 256, (crc32Tab.getD i 0).toBitVec = steps edb88320 8 (.ofNat 32 i) := by
  have table : crc32Tab.map UInt32.toNat = (List.range 256).map (stepsNat 0xedb88320 8) := by decide +kernel
  intro i less
  have entry := congrArg (·.getD i 0) table
  simp only [List.getD_eq_getElem?_getD, List.getElem?_map, List.getElem?_range less, Option.map_some, Option.getD_some] at entry
  apply BitVec.eq_of_toNat_eq
  rw [toNat_steps, BitVec.toNat_ofNat, Nat.mod_eq_of_lt (by omega), UInt32.toNat_toBitVec, List.getD_eq_getElem?_getD]
  refine Eq.trans ?_ entry
  cases crc32Tab[i]? <;> rfl

/-- A round takes a byte in. -/
theorem updcrc_feed (crc : UInt32) (p : UInt8) :
    (updcrc crc p).toBitVec = feed edb88320 p.toBitVec.getLsbD 8 crc.toBitVec := by
  have byte : (crc ^^^ p.toUInt32).toBitVec = crc.toBitVec ^^^ p.toBitVec.setWidth 32 := rfl
  have low (x : UInt32) : (x &&& 0xFF).toNat = x.toNat % 256 := by
    rw [UInt32.toNat_and]
    exact Nat.and_two_pow_sub_one_eq_mod _ 8
  have index : ((crc ^^^ p.toUInt32).toBitVec.setWidth 8).setWidth 32 = BitVec.ofNat 32 ((crc ^^^ p.toUInt32) &&& 0xFF).toNat := by
    apply BitVec.eq_of_toNat_eq
    rw [low, BitVec.toNat_setWidth, BitVec.toNat_setWidth, BitVec.toNat_ofNat]
    rfl
  have gone : (p.toBitVec.setWidth 32) >>> 8 = 0#32 := by
    apply BitVec.eq_of_getLsbD_eq
    intro i _
    rw [BitVec.getLsbD_ushiftRight, BitVec.getLsbD_setWidth, BitVec.getLsbD_of_ge p.toBitVec _ (by omega)]
    simp
  have shifted : (crc ^^^ p.toUInt32).toBitVec >>> 8 = crc.toBitVec >>> 8 := by
    rw [byte, BitVec.ushiftRight_xor_distrib, gone, BitVec.xor_zero]
  have entry := crc32Tab_steps ((crc ^^^ p.toUInt32) &&& 0xFF).toNat (by rw [low]; omega)
  rw [feed_eq_steps (by decide), ← byte, steps_split, index, ← entry, shifted]
  rfl

/-- The checksum is the register turned over, from one turned over. -/
theorem stdCrc32_feed (crc : UInt32) (buf : List UInt8) :
    ~~~(stdCrc32 crc buf).toBitVec = feed edb88320 (bitOf buf) (8 * buf.length) (~~~crc.toBitVec) := by
  have rounds (r : UInt32) : (buf.foldl updcrc r).toBitVec =
      feed edb88320 (bitOf buf) (8 * buf.length) r.toBitVec := by
    induction buf generalizing r with
    | nil => rfl
    | cons p buf ih =>
      have first : ∀ i < 8, bitOf (p :: buf) i = p.toBitVec.getLsbD i := by
        intro i less
        simp [bitOf, Nat.div_eq_of_lt less, Nat.mod_eq_of_lt less]
      have rest : (fun i => bitOf (p :: buf) (8 + i)) = bitOf buf := by
        funext i
        have next : (8 + i) / 8 = i / 8 + 1 := by omega
        have same : (8 + i) % 8 = i % 8 := by omega
        simp [bitOf, next, same]
      rw [List.foldl_cons, ih, updcrc_feed, List.length_cons, Nat.mul_succ, Nat.add_comm, feed_add, rest, feed_congr first]
  have turn (x : UInt32) : (x ^^^ ~~~(0 : UInt32)).toBitVec = ~~~x.toBitVec := by
    rw [UInt32.toBitVec_xor, UInt32.toBitVec_not]
    exact BitVec.xor_allOnes
  rw [stdCrc32, turn, BitVec.not_not, rounds, turn]

/-- The polynomial of the comment. -/
theorem generator_edb88320 : generator edb88320 =
    X ^ 32 + X ^ 26 + X ^ 23 + X ^ 22 + X ^ 16 + X ^ 12 + X ^ 11 + X ^ 10 + X ^ 8 + X ^ 7 + X ^ 5 + X ^ 4 + X ^ 2 + X ^ 1 +
      X ^ 0 := by
  have bits : ∀ i < 32, edb88320.getLsbD i =
      ([0, 1, 2, 4, 5, 7, 8, 10, 11, 12, 16, 22, 23, 26].map (31 - ·)).elem i := by decide
  rw [generator, poly_congr bits]
  simp [poly, Finset.sum_range_succ]
  ring

/-- The checksum, turned over, is the remainder of the message, which goes on
from the one given, turned over. -/
theorem stdCrc32_remainder (crc : UInt32) (buf : List UInt8) :
    poly 32 (~~~(stdCrc32 crc buf).toBitVec).getLsbD =
      (X ^ (8 * buf.length) * poly 32 (~~~crc.toBitVec).getLsbD + X ^ 32 * poly (8 * buf.length) (bitOf buf)) %ₘ
        (X ^ 32 + X ^ 26 + X ^ 23 + X ^ 22 + X ^ 16 + X ^ 12 + X ^ 11 + X ^ 10 + X ^ 8 + X ^ 7 + X ^ 5 + X ^ 4 + X ^ 2 + X ^ 1 +
          X ^ 0) := by
  rw [stdCrc32_feed, poly_feed, generator_edb88320]

theorem bits_injective {buf buf' : List UInt8} (length : buf.length = buf'.length)
    (same : ∀ k < 8 * buf.length, bitOf buf k = bitOf buf' k) : buf = buf' := by
  apply List.ext_getElem length
  intro i less less'
  apply UInt8.toBitVec_inj.mp
  apply BitVec.eq_of_getLsbD_eq
  intro j inside
  have at_ := same (8 * i + j) (by omega)
  have byte : (8 * i + j) / 8 = i := by omega
  have bit : (8 * i + j) % 8 = j := by omega
  simpa [bitOf, byte, bit, less, less'] using at_

theorem top : edb88320.msb = true := by decide

/-- **Errors within 32 bits in a row are seen.** -/
theorem stdCrc32_burst (crc : UInt32) {buf buf' : List UInt8} (k : Nat) (length : buf.length = buf'.length)
    (outside : ∀ i < 8 * buf.length, i < k ∨ k + 32 ≤ i → bitOf buf i = bitOf buf' i) (ne : buf ≠ buf') :
    stdCrc32 crc buf ≠ stdCrc32 crc buf' := by
  intro same
  have registers : feed edb88320 (bitOf buf) (8 * buf.length) (~~~crc.toBitVec) =
      feed edb88320 (bitOf buf') (8 * buf.length) (~~~crc.toBitVec) := by
    rw [← stdCrc32_feed, length, ← stdCrc32_feed, same]
  exact ne (bits_injective length (burst top outside _ registers))

/-- The middle three of five bytes. -/
theorem stdCrc32_burst_middle : stdCrc32 7 [0, 1, 2, 3, 4] ≠ stdCrc32 7 [0, 8, 9, 10, 4] :=
  stdCrc32_burst 7 8 rfl (by decide) (by decide)

/-! ## Two flipped bits -/

/-- The bit at a position turned over. -/
def flip (buf : List UInt8) (k : Nat) : List UInt8 := buf.modify (k / 8) fun p => ⟨p.toBitVec ^^^ .twoPow 8 (k % 8)⟩

theorem bitOf_flip {buf : List UInt8} {k : Nat} (inside : k < 8 * buf.length) (i : Nat) :
    bitOf (flip buf k) i = (bitOf buf i ^^ decide (i = k)) := by
  have split : i = k ↔ i / 8 = k / 8 ∧ i % 8 = k % 8 := by omega
  rw [bitOf, flip, List.getD_eq_getElem?_getD, List.getElem?_modify, bitOf, List.getD_eq_getElem?_getD]
  by_cases byte : k / 8 = i / 8
  · have there : i / 8 < buf.length := by omega
    simp only [if_pos byte, List.getElem?_eq_getElem there, Option.map_eq_map, Option.map_some, Option.getD_some,
      BitVec.getLsbD_xor, BitVec.getLsbD_twoPow]
    congr 1
    have here : (k % 8 = i % 8) ↔ i = k := by omega
    simp [here]
    omega
  · simp only [if_neg byte, Option.map_eq_map, Option.map_id', decide_eq_false (fun eq => byte (split.mp eq).1.symm),
      Bool.xor_false]

/-- The powers of `X` run through everything but zero. -/
theorem orderOf_root : orderOf (AdjoinRoot.root (generator edb88320)) = 2 ^ 32 - 1 := by
  have one : AdjoinRoot.root (generator edb88320) ^ 0 = val edb88320 (power edb88320 32 0) := (val_power (by decide) (by decide)).symm
  have different {n : Nat} (less : n < 2 ^ 32) (ne : power edb88320 32 n ≠ power edb88320 32 0) :
      AdjoinRoot.root (generator edb88320) ^ n ≠ 1 := by
    rw [← pow_zero (AdjoinRoot.root (generator edb88320)), one, ← val_power (by decide) less]
    exact val_injective.ne ne
  apply orderOf_eq_of_pow_and_pow_div_prime (by decide)
  · rw [← pow_zero (AdjoinRoot.root (generator edb88320)), one, ← val_power (k := 32) (by decide) (by decide)]
    exact congrArg (val edb88320) (by decide +kernel)
  · intro p prime divides
    have factors : 2 ^ 32 - 1 = 3 * 5 * 17 * 257 * 65537 := by decide
    rw [factors, prime.dvd_mul, prime.dvd_mul, prime.dvd_mul, prime.dvd_mul] at divides
    have small {q : Nat} (is_prime : Nat.Prime q) (h : p ∣ q) : p = q := (Nat.prime_dvd_prime_iff_eq prime is_prime).mp h
    rcases divides with (((d | d) | d) | d) | d
    · obtain rfl := small (by norm_num) d
      exact different (by decide) (by decide +kernel)
    · obtain rfl := small (by norm_num) d
      exact different (by decide) (by decide +kernel)
    · obtain rfl := small (by norm_num) d
      exact different (by decide) (by decide +kernel)
    · obtain rfl := small (by norm_num) d
      exact different (by decide) (by decide +kernel)
    · obtain rfl := small (by norm_num) d
      exact different (by decide) (by decide +kernel)

/-- **Two flipped bits are seen** unless they are a multiple of 2^32 - 1 apart. -/
theorem stdCrc32_two_flips (crc : UInt32) (buf : List UInt8) {i j : Nat} (order : i < j) (inside : j < 8 * buf.length) :
    stdCrc32 crc (flip (flip buf i) j) = stdCrc32 crc buf ↔ 2 ^ 32 - 1 ∣ j - i := by
  have length : (flip (flip buf i) j).length = buf.length := by simp [flip]
  have bits : ∀ k < 8 * buf.length, bitOf (flip (flip buf i) j) k = (bitOf buf k ^^ (decide (k = i) ^^ decide (k = j))) := by
    intro k _
    rw [bitOf_flip (by simpa [flip] using inside), bitOf_flip (by omega), Bool.xor_assoc]
  rw [← UInt32.toBitVec_inj, ← BitVec.not_inj, stdCrc32_feed, stdCrc32_feed, length, feed_congr bits, two_flips top order inside,
    orderOf_root]

theorem stdCrc32_two_flips_apart : stdCrc32 0 (flip (flip [1, 2, 3] 3) 17) ≠ stdCrc32 0 [1, 2, 3] := by
  intro same
  exact absurd ((stdCrc32_two_flips 0 [1, 2, 3] (i := 3) (j := 17) (by decide) (by decide)).mp same) (by decide)

/-! ## A message with its checksum -/

theorem stdCrc32_append (crc : UInt32) (a b : List UInt8) : stdCrc32 crc (a ++ b) = stdCrc32 (stdCrc32 crc a) b := by
  rw [stdCrc32, stdCrc32, stdCrc32, List.foldl_append, UInt32.xor_assoc _ (~~~0) (~~~0), UInt32.xor_self, UInt32.xor_zero]

/-- The bits of a number's bytes are its bits. -/
theorem bitOf_ofLe (buf : List UInt8) (k : Nat) : bitOf buf k = (ofLe buf).testBit k := by
  induction buf generalizing k with
  | nil => simp [bitOf, ofLe]
  | cons p buf ih =>
    rw [ofLe, Nat.add_comm, show 256 = 2 ^ 8 by rfl, Nat.testBit_two_pow_mul_add _ p.toNat_lt]
    by_cases first : k < 8
    · rw [if_pos first]
      simp [bitOf, Nat.div_eq_of_lt first, Nat.mod_eq_of_lt first, BitVec.getLsbD]
    · have next : k / 8 = (k - 8) / 8 + 1 := by omega
      have same : k % 8 = (k - 8) % 8 := by omega
      rw [if_neg first, ← ih, bitOf, bitOf, next, same]
      rfl

/-- **Four bytes are the checksum of what is before them**, the lowest first, when
the checksum of it all is this constant. -/
theorem stdCrc32_residue (crc : UInt32) (buf trailer : List UInt8) (four : trailer.length = 4) :
    stdCrc32 crc (buf ++ trailer) = 0x2144df1c ↔ trailer = toLe 4 (stdCrc32 crc buf).toNat := by
  have fits : ofLe trailer < 2 ^ 32 := by
    have := ofLe_lt trailer
    rwa [four] at this
  have bits : ∀ i < 32, bitOf trailer i = (BitVec.ofNat 32 (ofLe trailer)).getLsbD i := by
    intro i less
    rw [bitOf_ofLe, BitVec.getLsbD_ofNat]
    simp [less]
  have register : ~~~(stdCrc32 crc (buf ++ trailer)).toBitVec =
      steps edb88320 32 (~~~(stdCrc32 crc buf).toBitVec ^^^ BitVec.ofNat 32 (ofLe trailer)) := by
    rw [stdCrc32_append, stdCrc32_feed, four, feed_congr bits, feed_eq_steps (Nat.le_refl _), BitVec.setWidth_eq]
  have ones : ~~~(0x2144df1c : UInt32).toBitVec = steps edb88320 32 (.allOnes 32) := by
    apply BitVec.eq_of_toNat_eq
    rw [toNat_steps]
    decide
  have cancel (a b : BitVec 32) : ~~~a ^^^ b = .allOnes 32 ↔ b = a := by
    rw [← BitVec.not_xor_left, ← BitVec.not_zero, BitVec.not_inj, BitVec.xor_eq_zero_iff, eq_comm]
  rw [← UInt32.toBitVec_inj, ← BitVec.not_inj, register, ones, (steps_injective top 32).eq_iff, cancel]
  constructor
  · intro same
    have number := congrArg BitVec.toNat same
    rw [BitVec.toNat_ofNat, Nat.mod_eq_of_lt fits] at number
    rw [← four, ← UInt32.toNat_toBitVec, ← number, toLe_ofLe]
  · intro same
    rw [same, ofLe_toLe, Nat.mod_eq_of_lt (b := 256 ^ 4) (stdCrc32 crc buf).toNat_lt, ← UInt32.toNat_toBitVec, BitVec.ofNat_toNat,
      BitVec.setWidth_eq]

set_option maxRecDepth 8000 in
/-- The digits from 1 to 9. -/
theorem stdCrc32_residue_digits : stdCrc32 0 ([49, 50, 51, 52, 53, 54, 55, 56, 57] ++ [0x26, 0x39, 0xf4, 0xcb]) = 0x2144df1c :=
  (stdCrc32_residue 0 _ _ rfl).mpr (by decide)

end SonicUtils.Crc32
