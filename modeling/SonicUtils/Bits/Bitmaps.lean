import SonicUtils.Bits.Searches
import Mathlib.Data.List.Infix

/-!
# Bitmaps

Bitmaps as `std_bitmap_create_array` and `std_bitmap_create_array_clear_bits`
give them, changed bit by bit and complemented.

* `inside_iff`: when no search reports a position outside of a bitmap;
* `act_inside`: what one change makes of this;
* `always_inside_iff`: the bitmaps of which this holds from the first state on.
-/

namespace SonicUtils.Bits

open SonicUtils.Transfer (asInt asInt_of_small)

/-- `malloc` says whether there is memory. -/
def stdBitmapCreateArrayWithPattern (malloc : Bool) (len : Nat) (pattern : UInt8) : Option (List UInt8) :=
  let len := bittobytelen len
  if malloc then some (List.replicate len pattern) else none

def stdBitmapCreateArrayClearBits (malloc : Bool) (len : Nat) : Option (List UInt8) :=
  stdBitmapCreateArrayWithPattern malloc len 0

def stdBitmapCreateArray (malloc : Bool) (len : Nat) : Option (List UInt8) :=
  stdBitmapCreateArrayWithPattern malloc len 0xff

/-- The loop of `std_complement_bitmaparray`, with `left` bytes to go from `ix` on. -/
def complementFrom : Nat → Nat → List UInt8 → Except Fault (List UInt8)
  | 0, _, bits => return bits
  | left + 1, ix, bits => do
    let byte ← deref bits[ix]?
    complementFrom left (ix + 1) (bits.set ix (~~~byte))

def stdComplementBitmaparray (bits : List UInt8) (mx : Nat) : Except Fault (List UInt8) :=
  complementFrom (bittobytelen mx) 0 bits

/-- Which of the two functions a bitmap comes from. -/
inductive Origin
  | createArray
  | createArrayClearBits
  deriving DecidableEq, Repr

def Origin.bitmap (malloc : Bool) (len : Nat) : Origin → Option (List UInt8)
  | createArray => stdBitmapCreateArray malloc len
  | createArrayClearBits => stdBitmapCreateArrayClearBits malloc len

inductive Act
  | set (bitoffset : Nat)
  | clr (bitoffset : Nat)
  | complement (mx : Nat)
  deriving DecidableEq, Repr

def Act.apply (bits : List UInt8) : Act → Except Fault (List UInt8)
  | set bitoffset => arraySet bits bitoffset
  | clr bitoffset => arrayClr bits bitoffset
  | complement mx => stdComplementBitmaparray bits mx

/-- The act is about positions of a bitmap of `len` bits. -/
def Act.Within (len : Nat) : Act → Prop
  | set bitoffset => bitoffset < len
  | clr bitoffset => bitoffset < len
  | complement mx => mx ≤ len

/-- The searches return `-1` or a position below `len`, wherever they start. -/
def Inside (bits : List UInt8) (len : Nat) : Prop :=
  ∀ from',
    (∃ r, stdFindFirstBit bits len from' = .ok r ∧ (r = -1 ∨ 0 ≤ r ∧ r < len)) ∧
    ∃ r, stdFindLastBit bits len from' = .ok r ∧ (r = -1 ∨ 0 ≤ r ∧ r < len)

variable {bits t : List UInt8} {byte v : UInt8} {p q i ix len mx from' : Nat}

/-! ## What the acts do to the bits -/

theorem tests_set_byte (inside : ix < bits.length) :
    Tests (bits.set ix v) q ↔ if q / 8 = ix then v.toNat.testBit (q % 8) = true else Tests bits q := by
  by_cases here : q / 8 = ix
  · rw [if_pos here]
    apply tests_of_byte
    rw [here, List.getElem?_set_self inside]
  · rw [if_neg here]
    simp [Tests, arrayTest, byteOffset, List.getElem?_set_ne (Ne.symm here)]

theorem testBit_not (hi : i < 8) : (~~~byte).toNat.testBit i = !byte.toNat.testBit i := by
  have bit := BitVec.getLsbD_not (x := byte.toBitVec) (i := i)
  rw [decide_eq_true hi, Bool.true_and] at bit
  exact bit

theorem arraySet_spec (inside : p / 8 < bits.length) :
    ∃ t, arraySet bits p = .ok t ∧ t.length = bits.length ∧ ∀ q, Tests t q ↔ q = p ∨ Tests bits q := by
  obtain ⟨byte, here⟩ : ∃ byte, bits[p / 8]? = some byte := ⟨_, List.getElem?_eq_getElem inside⟩
  refine ⟨bits.set (p / 8) (byte ||| bitMask p), ?_, List.length_set, fun q => ?_⟩
  · simp [arraySet, byteOffset, here]
  · rw [tests_set_byte inside]
    by_cases same : q / 8 = p / 8
    · have position : q % 8 = p % 8 ↔ q = p := by omega
      rw [if_pos same, UInt8.toNat_or, Nat.testBit_or, testBit_bitMask p (by omega), Bool.or_eq_true,
        tests_of_byte (same ▸ here), decide_eq_true_iff, position, or_comm]
    · have apart : q ≠ p := by
        rintro rfl
        exact same rfl
      rw [if_neg same]
      simp [apart]

theorem arrayClr_spec (inside : p / 8 < bits.length) :
    ∃ t, arrayClr bits p = .ok t ∧ t.length = bits.length ∧ ∀ q, Tests t q ↔ q ≠ p ∧ Tests bits q := by
  obtain ⟨byte, here⟩ : ∃ byte, bits[p / 8]? = some byte := ⟨_, List.getElem?_eq_getElem inside⟩
  refine ⟨bits.set (p / 8) (byte &&& ~~~bitMask p), ?_, List.length_set, fun q => ?_⟩
  · simp [arrayClr, byteOffset, here]
  · rw [tests_set_byte inside]
    by_cases same : q / 8 = p / 8
    · have position : q % 8 = p % 8 ↔ q = p := by omega
      rw [if_pos same, UInt8.toNat_and, Nat.testBit_and, testBit_not (by omega), testBit_bitMask p (by omega),
        Bool.and_eq_true, tests_of_byte (same ▸ here), Bool.not_eq_true', decide_eq_false_iff_not, position, and_comm]
    · have apart : q ≠ p := by
        rintro rfl
        exact same rfl
      rw [if_neg same]
      simp [apart]

theorem complementFrom_spec (left ix : Nat) (bits : List UInt8) (inside : ix + left ≤ bits.length) :
    ∃ t, complementFrom left ix bits = .ok t ∧ t.length = bits.length ∧
      ∀ q, Tests t q ↔ if 8 * ix ≤ q ∧ q < 8 * (ix + left) then ¬ Tests bits q else Tests bits q := by
  induction left generalizing ix bits with
  | zero =>
    refine ⟨bits, rfl, rfl, fun q => ?_⟩
    rw [if_neg (by omega)]
  | succ left ih =>
    obtain ⟨byte, here⟩ : ∃ byte, bits[ix]? = some byte := ⟨_, List.getElem?_eq_getElem (by omega)⟩
    obtain ⟨t, run, length, tests⟩ := ih (ix + 1) (bits.set ix (~~~byte)) (by rw [List.length_set]; omega)
    refine ⟨t, ?_, length.trans List.length_set, fun q => ?_⟩
    · rw [complementFrom, here, deref_some, ok_bind]
      exact run
    · rw [tests, tests_set_byte (by omega)]
      by_cases first : q / 8 = ix
      · rw [if_neg (by omega), if_pos first, if_pos (by omega), tests_of_byte (first ▸ here), testBit_not (by omega)]
        simp
      · simp only [if_neg first]
        by_cases later : 8 * (ix + 1) ≤ q ∧ q < 8 * (ix + 1 + left)
        · rw [if_pos later, if_pos (by omega)]
        · rw [if_neg later, if_neg (by omega)]

/-! ## When the searches stay inside -/

theorem bittobytelen_of_small (small : len < 2 ^ 32) : bittobytelen len = (len + 7) / 8 := by
  unfold bittobytelen
  dsimp only
  rw [Nat.mod_eq_of_lt small]
  split <;> omega

/-- An `unsigned int` does not hold the length: there are fewer bytes than the
searches take there to be. -/
theorem bittobytelen_short (large : 2 ^ 32 ≤ len) : 8 * bittobytelen len < len := by
  unfold bittobytelen
  dsimp only
  split <;> omega

/-- The first search runs off the end. -/
theorem first_runs_off (short : 8 * bits.length < len) (r : Int) : stdFindFirstBit bits len (8 * bits.length) ≠ .ok r := by
  intro run
  have bytes : bits.length < len / 8 + if len % 8 ≠ 0 then 1 else 0 := by
    split <;> omega
  obtain ⟨left, more⟩ : ∃ left, (len / 8 + if len % 8 ≠ 0 then 1 else 0) - bits.length = left + 1 :=
    ⟨(len / 8 + if len % 8 ≠ 0 then 1 else 0) - bits.length - 1, by omega⟩
  have aligned : ¬ 8 * bits.length % 8 ≠ 0 := by omega
  have last : 8 * bits.length / 8 = bits.length := by omega
  unfold stdFindFirstBit at run
  rw [if_neg (by omega)] at run
  dsimp only at run
  rw [if_neg aligned, last, more, scanUp, List.getElem?_eq_none (Nat.le_refl _)] at run
  cases run

/-- The last search cannot count up to the last byte in an `int`. -/
theorem last_overflows (size : bits.length = (len + 7) / 8) (small : len < 2 ^ 32) (set : Tests bits p)
    (padding : len ≤ p) (high : 2 ^ 31 ≤ p) (r : Int) : stdFindLastBit bits len 0 ≠ .ok r := by
  intro run
  have within := tests_inside set
  obtain ⟨mx, last⟩ : ∃ mx, p / 8 = mx := ⟨_, rfl⟩
  obtain ⟨byte, here⟩ : ∃ byte, bits[mx]? = some byte := ⟨_, List.getElem?_eq_getElem (by omega)⟩
  have at_mx : byteAt bits mx = some byte := here
  have bytes : (len / 8 + if len % 8 ≠ 0 then 1 else 0) = mx + 1 := by
    split <;> omega
  have window := last_of_byte (k := len % 8) here (by omega)
  have mem : p ∈ marks bits (8 * mx) (8 * mx + 8) := ⟨by omega, by omega, set⟩
  obtain ⟨i, pos, _⟩ := window.resolve_left fun none => by simp [none.2] at mem
  have large : inInt ((mx : Int) * 8) = .error .assertion := by
    rw [inInt, check, if_neg (by omega)]
    rfl
  unfold stdFindLastBit at run
  rw [if_neg (by omega)] at run
  dsimp only at run
  rw [Nat.sub_zero, bytes, asInt_of_small (by omega) (by omega), if_neg (by omega), inInt_of_small (by omega) (by omega),
    ok_bind, Int.natCast_add, Int.natCast_one, Int.add_sub_cancel, if_pos (by omega), at_mx, deref_some, ok_bind,
    if_pos (by omega), large] at run
  cases run

theorem asInt_of_large {x : Nat} (lo : 2 ^ 31 ≤ x) (hi : x < 2 ^ 32) : asInt x = x - 2 ^ 32 := by
  simp only [asInt, Int.bmod]
  split <;> omega

theorem inside_iff (size : bits.length = bittobytelen len) :
    Inside bits len ↔ len < 2 ^ 32 ∧ ∀ p, Tests bits p → p < min len (2 ^ 31) := by
  constructor
  · intro inside
    have small : len < 2 ^ 32 := by
      by_contra large
      obtain ⟨⟨r, run, _⟩, _⟩ := inside (8 * bits.length)
      exact first_runs_off (size ▸ bittobytelen_short (by omega)) r run
    refine ⟨small, fun p set => ?_⟩
    by_contra outside
    have within := tests_inside set
    rw [bittobytelen_of_small small] at size
    by_cases high : ∃ q, Tests bits q ∧ 2 ^ 31 ≤ q
    · obtain ⟨q, set', high⟩ := high
      by_cases below : q < len
      · obtain ⟨⟨r, run, found⟩, _⟩ := inside q
        obtain ⟨r', run', first⟩ := stdFindFirstBit_spec size.ge below
        cases run.symm.trans run'
        have mem : q ∈ marks bits q (8 * ((len + 7) / 8)) := ⟨by omega, by omega, set'⟩
        obtain ⟨_, none⟩ | ⟨q', value, least⟩ := first
        · simp [none] at mem
        · have same : q' = q := le_antisymm (least.2 mem) least.1.1
          rw [same, asInt_of_large high (by omega)] at value
          omega
      · obtain ⟨_, r, run, _⟩ := inside 0
        exact last_overflows size small set' (by omega) high r run
    · obtain ⟨_, r, run, found⟩ := inside 0
      obtain ⟨r', run', last⟩ := stdFindLastBit_spec size.ge small (show 0 < len by omega) fun q _ set => by
        by_contra large
        exact high ⟨q, set, by omega⟩
      cases run.symm.trans run'
      have mem : p ∈ marks bits 0 (8 * ((len - 0 + 7) / 8)) := ⟨by omega, by omega, set⟩
      obtain ⟨_, none⟩ | ⟨q, value, greatest⟩ := last
      · exact absurd mem (Set.eq_empty_iff_forall_notMem.mp none p)
      · have above := greatest.2 mem
        have low : q < 2 ^ 31 := by
          by_contra large
          exact high ⟨q, greatest.1.2.2, by omega⟩
        rw [asInt_of_small (by omega) (by omega)] at value
        have : p < 2 ^ 31 := by omega
        omega
  · rintro ⟨small, low⟩ from'
    rw [bittobytelen_of_small small] at size
    by_cases started : from' < len
    · obtain ⟨r, run, first⟩ := stdFindFirstBit_spec size.ge started
      obtain ⟨r', run', last⟩ := stdFindLastBit_spec size.ge small started fun p _ set => by
        have := low p set
        omega
      refine ⟨⟨r, run, ?_⟩, r', run', ?_⟩
      · obtain ⟨none, _⟩ | ⟨p, value, least⟩ := first
        · exact .inl none
        · have := low p least.1.2.2
          rw [asInt_of_small (by omega) (by omega)] at value
          omega
      · obtain ⟨none, _⟩ | ⟨p, value, greatest⟩ := last
        · exact .inl none
        · have := low p greatest.1.2.2
          rw [asInt_of_small (by omega) (by omega)] at value
          omega
    · exact ⟨⟨-1, if_pos (by omega), .inl rfl⟩, -1, if_pos (by omega), .inl rfl⟩

/-! ## Runs -/

/-- The origin of a bitmap whose bits from `len` on, and from `2 ^ 31` on, are clear. -/
def Origin.Safe (len : Nat) : Origin → Prop
  | createArray => 8 ∣ len ∧ len ≤ 2 ^ 31
  | createArrayClearBits => len < 2 ^ 32

/-- The act leaves the bits from `len` on, and from `2 ^ 31` on, as they are. -/
def Act.Safe (len : Nat) : Act → Prop
  | set bitoffset => bitoffset < 2 ^ 31
  | clr _ => True
  | complement mx => 8 * bittobytelen mx ≤ min len (2 ^ 31)

theorem tests_replicate {n : Nat} : Tests (List.replicate n v) p ↔ p / 8 < n ∧ v.toNat.testBit (p % 8) = true := by
  by_cases inside : p / 8 < n
  · rw [tests_of_byte (by rw [List.getElem?_replicate_of_lt inside])]
    simp [inside]
  · constructor
    · intro set
      have := tests_inside set
      rw [List.length_replicate] at this
      omega
    · rintro ⟨within, _⟩
      exact absurd within inside

theorem origin_inside {malloc : Bool} {o : Origin} (got : o.bitmap malloc len = some bits) :
    bits.length = bittobytelen len ∧ (Inside bits len ↔ o.Safe len) := by
  have memory : malloc = true := by
    cases malloc with
    | false => cases o <;> cases got
    | true => rfl
  subst memory
  cases o with
  | createArray =>
    cases got
    refine ⟨List.length_replicate, ?_⟩
    have set (p : Nat) (hp : p < 8) : (0xff : UInt8).toNat.testBit p = true := by
      have cases : ∀ p < 8, (0xff : UInt8).toNat.testBit p = true := by decide
      exact cases p hp
    rw [inside_iff List.length_replicate]
    constructor
    · rintro ⟨small, low⟩
      rw [bittobytelen_of_small small] at low
      by_cases empty : len = 0
      · simp [Origin.Safe, empty]
      · have last := low (8 * ((len + 7) / 8) - 1) (tests_replicate.mpr ⟨by omega, set _ (by omega)⟩)
        exact ⟨by omega, by omega⟩
    · rintro ⟨whole, small⟩
      refine ⟨by omega, fun p tests => ?_⟩
      have within := (tests_replicate.mp tests).1
      rw [bittobytelen_of_small (by omega)] at within
      omega
  | createArrayClearBits =>
    cases got
    refine ⟨List.length_replicate, ?_⟩
    rw [inside_iff List.length_replicate]
    constructor
    · exact fun inside => inside.1
    · intro small
      refine ⟨small, fun p tests => ?_⟩
      simp [tests_replicate] at tests

theorem act_inside {a : Act} (within : a.Within len) (size : bits.length = bittobytelen len) (inside : Inside bits len) :
    ∃ t, a.apply bits = .ok t ∧ t.length = bittobytelen len ∧ (Inside t len ↔ a.Safe len) := by
  obtain ⟨small, low⟩ := (inside_iff size).mp inside
  have bytes := bittobytelen_of_small small
  cases a with
  | set p =>
    have within : p < len := within
    obtain ⟨t, run, length, tests⟩ := arraySet_spec (show p / 8 < bits.length by omega)
    refine ⟨t, run, length.trans size, ?_⟩
    rw [inside_iff (length.trans size)]
    constructor
    · rintro ⟨_, low'⟩
      have := low' p ((tests p).mpr (.inl rfl))
      exact this.trans_le (Nat.min_le_right ..)
    · intro safe
      refine ⟨small, fun q set => ?_⟩
      obtain rfl | old := (tests q).mp set
      · exact Nat.lt_min.mpr ⟨within, safe⟩
      · exact low q old
  | clr p =>
    have within : p < len := within
    obtain ⟨t, run, length, tests⟩ := arrayClr_spec (show p / 8 < bits.length by omega)
    refine ⟨t, run, length.trans size, ?_⟩
    rw [inside_iff (length.trans size)]
    constructor
    · exact fun _ => trivial
    · exact fun _ => ⟨small, fun q set => low q ((tests q).mp set).2⟩
  | complement mx =>
    have within : mx ≤ len := within
    have fewer := bittobytelen_of_small (show mx < 2 ^ 32 by omega)
    obtain ⟨t, run, length, tests⟩ := complementFrom_spec (bittobytelen mx) 0 bits (by omega)
    refine ⟨t, run, length.trans size, ?_⟩
    rw [inside_iff (length.trans size)]
    constructor
    · rintro ⟨_, low'⟩
      -- The first position outside is one of those that are flipped.
      by_contra flipped
      have flipped : min len (2 ^ 31) < 8 * bittobytelen mx := Nat.lt_of_not_le flipped
      have clear : ¬ Tests bits (min len (2 ^ 31)) := fun set => Nat.lt_irrefl _ (low _ set)
      have set := (tests (min len (2 ^ 31))).mpr (by rwa [if_pos ⟨by omega, by omega⟩])
      exact Nat.lt_irrefl _ (low' _ set)
    · intro safe
      have safe : 8 * bittobytelen mx ≤ min len (2 ^ 31) := safe
      refine ⟨small, fun q set => ?_⟩
      have value := (tests q).mp set
      by_cases flipped : 8 * 0 ≤ q ∧ q < 8 * (0 + bittobytelen mx)
      · omega
      · rw [if_neg flipped] at value
        exact low q value

/-- In every state of a run, the last one included, the searches stay inside. -/
def AlwaysInside (bits : List UInt8) (len : Nat) (acts : List Act) : Prop :=
  ∀ done, done <+: acts → ∃ t, done.foldlM Act.apply bits = .ok t ∧ Inside t len

theorem AlwaysInside.start {acts : List Act} (always : AlwaysInside bits len acts) : Inside bits len := by
  obtain ⟨t, run, inside⟩ := always [] List.nil_prefix
  cases run
  exact inside

theorem alwaysInside_cons {a : Act} {acts : List Act} (run : a.apply bits = .ok t) (inside : Inside bits len) :
    AlwaysInside bits len (a :: acts) ↔ AlwaysInside t len acts := by
  have step (done : List Act) : (a :: done).foldlM Act.apply bits = done.foldlM Act.apply t := by
    rw [List.foldlM_cons, run, ok_bind]
  constructor
  · intro always done early
    rw [← step]
    exact always (a :: done) (List.cons_prefix_cons.mpr ⟨rfl, early⟩)
  · intro always done early
    cases done with
    | nil => exact ⟨bits, rfl, inside⟩
    | cons b done =>
      obtain ⟨same, rest⟩ := List.cons_prefix_cons.mp early
      rw [same, step]
      exact always done rest

theorem acts_inside_iff {acts : List Act} (within : ∀ a ∈ acts, a.Within len) (size : bits.length = bittobytelen len)
    (inside : Inside bits len) : AlwaysInside bits len acts ↔ ∀ a ∈ acts, a.Safe len := by
  induction acts generalizing bits with
  | nil =>
    constructor
    · intro _ a mem
      cases mem
    · intro _ done early
      rw [List.prefix_nil.mp early]
      exact ⟨bits, rfl, inside⟩
  | cons a acts ih =>
    obtain ⟨here, later⟩ := List.forall_mem_cons.mp within
    obtain ⟨t, run, length, safe⟩ := act_inside here size inside
    rw [alwaysInside_cons run inside, List.forall_mem_cons, ← safe]
    constructor
    · intro always
      exact ⟨always.start, (ih later length always.start).mp always⟩
    · rintro ⟨inside', rest⟩
      exact (ih later length inside').mpr rest

/-- **When no search ever reports a position outside of a bitmap.** -/
theorem always_inside_iff (malloc : Bool) (o : Origin) (len : Nat) (acts : List Act) (bits : List UInt8)
    (got : o.bitmap malloc len = some bits) (within : ∀ a ∈ acts, a.Within len) :
    AlwaysInside bits len acts ↔ o.Safe len ∧ ∀ a ∈ acts, a.Safe len := by
  obtain ⟨size, start⟩ := origin_inside got
  rw [← start]
  constructor
  · intro always
    exact ⟨always.start, (acts_inside_iff within size always.start).mp always⟩
  · rintro ⟨inside, safe⟩
    exact (acts_inside_iff within size inside).mpr safe

theorem always_inside_iff_mixed :
    AlwaysInside [0, 0] 12 [.set 11, .complement 8, .clr 3] ↔
      Origin.createArrayClearBits.Safe 12 ∧ ∀ a ∈ [Act.set 11, .complement 8, .clr 3], a.Safe 12 :=
  always_inside_iff true .createArrayClearBits 12 [.set 11, .complement 8, .clr 3] [0, 0] rfl (by simp [Act.Within])

/-- A bitmap of four bits, all set: the last one is found at position 7. -/
theorem created_outside : stdBitmapCreateArray true 4 = some [0xff] ∧ stdFindLastBit [0xff] 4 0 = .ok 7 ∧
    ¬ Inside [0xff] 4 := by
  have seven : stdFindLastBit [0xff] 4 0 = .ok 7 := by decide
  refine ⟨rfl, seven, ?_⟩
  intro inside
  obtain ⟨_, r, run, found⟩ := inside 0
  cases run.symm.trans seven
  omega

end SonicUtils.Bits
