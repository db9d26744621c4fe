import SonicUtils.Bits.Masks

/-!
# The first and the last set bit

* `stdFindFirstBit_spec`, `stdFindLastBit_spec`: what the searches return, up
  to the end of the last byte they look at;
* `first_bit_found`: the first set bit from a position on;
* `last_bit_found_iff`: when the last set bit before a position is found.
-/

namespace SonicUtils.Bits

open SonicUtils.Transfer (asInt asInt_of_small)

variable {array : List UInt8} {p ix lo mid hi len from' : Nat} {r : Int}

theorem FirstOf.skip (none : marks array lo mid = ∅) (lower : lo ≤ mid) (upper : mid ≤ hi)
    (first : FirstOf (marks array mid hi) r) : FirstOf (marks array lo hi) r := by
  rwa [marks_split lower upper, none, Set.empty_union]

theorem LastOf.skip (none : marks array mid hi = ∅) (lower : lo ≤ mid) (upper : mid ≤ hi)
    (last : LastOf (marks array lo mid) r) : LastOf (marks array lo hi) r := by
  rwa [marks_split lower upper, none, Set.union_empty]

theorem marks_empty (h : hi ≤ lo) : marks array lo hi = ∅ := by
  apply Set.eq_empty_of_forall_notMem
  rintro p ⟨lower, upper, _⟩
  omega

theorem scanUp_spec (array : List UInt8) (left ix : Nat) (covers : ix + left ≤ array.length) :
    ∃ r, scanUp array left ix = .ok r ∧ FirstOf (marks array (8 * ix) (8 * (ix + left))) r := by
  induction left generalizing ix with
  | zero => exact ⟨-1, rfl, .inl ⟨rfl, marks_empty (by omega)⟩⟩
  | succ left ih =>
    obtain ⟨byte, here⟩ : ∃ byte, array[ix]? = some byte := ⟨_, List.getElem?_eq_getElem (by omega)⟩
    have window := first_of_byte (k := 0) here (by decide)
    rw [scanUp, here, deref_some, ok_bind]
    by_cases zero : byte = 0
    · obtain ⟨r, run, first⟩ := ih (ix + 1) (by omega)
      have none := (marks_byte_empty_iff here).mpr zero
      refine ⟨r, (if_pos zero).trans run, ?_⟩
      apply FirstOf.skip none (by omega) (by omega)
      rwa [show ix + (left + 1) = ix + 1 + left by omega]
    · have some := mt (marks_byte_empty_iff here).mp zero
      rw [if_neg zero]
      obtain ⟨i, pos, least⟩ := window.resolve_left fun none => some none.2
      refine ⟨asInt (i + ix * 8 : Nat), ?_, .inr ⟨8 * ix + i, ?_, ?_⟩⟩
      · rw [← zero_based pos]
        simp
      · rw [Nat.mul_comm, Nat.add_comm]
      · exact least_of_lower (by omega) (by omega) least

/-- What `std_find_first_bit` returns, with the bits behind `len` in the last
byte as good as any. -/
theorem stdFindFirstBit_spec (covers : (len + 7) / 8 ≤ array.length) (inside : from' < len) :
    ∃ r, stdFindFirstBit array len from' = .ok r ∧ FirstOf (marks array from' (8 * ((len + 7) / 8))) r := by
  have bytes : (len / 8 + if len % 8 ≠ 0 then 1 else 0) = (len + 7) / 8 := by
    split <;> omega
  unfold stdFindFirstBit
  rw [if_neg (by omega)]
  dsimp only
  rw [bytes]
  by_cases aligned : from' % 8 = 0
  · obtain ⟨r, run, first⟩ := scanUp_spec array ((len + 7) / 8 - from' / 8) (from' / 8) (by omega)
    refine ⟨r, (if_neg (not_not.mpr aligned)).trans run, ?_⟩
    rwa [show 8 * (from' / 8) = from' by omega, show from' / 8 + ((len + 7) / 8 - from' / 8) = (len + 7) / 8 by omega] at first
  · obtain ⟨byte, here⟩ : ∃ byte, array[from' / 8]? = some byte := ⟨_, List.getElem?_eq_getElem (by omega)⟩
    rw [if_pos aligned, here, deref_some, ok_bind]
    have window := first_of_byte (k := from' % 8) here (by omega)
    rw [show 8 * (from' / 8) + from' % 8 = from' by omega] at window
    obtain ⟨pos, none⟩ | ⟨i, pos, least⟩ := window
    · obtain ⟨r, run, first⟩ := scanUp_spec array ((len + 7) / 8 - (from' / 8 + 1)) (from' / 8 + 1) (by omega)
      refine ⟨r, (if_neg (not_not.mpr pos)).trans run, ?_⟩
      apply FirstOf.skip none (by omega) (by omega)
      rwa [show 8 * (from' / 8 + 1) = 8 * (from' / 8) + 8 by omega, show from' / 8 + 1 + ((len + 7) / 8 - (from' / 8 + 1)) = (len + 7) / 8 by omega] at first
    · refine ⟨asInt (i + from' / 8 * 8 : Nat), ?_, .inr ⟨8 * (from' / 8) + i, ?_, ?_⟩⟩
      · rw [if_pos (by omega), pos]
        simp
      · rw [Nat.mul_comm, Nat.add_comm]
      · exact least_of_lower (by omega) (by omega) least


/-- No set bit of so many bytes is at a position that an `int` cannot hold. -/
def Holdable (array : List UInt8) (mx : Nat) : Prop := ∀ p < 8 * mx, Tests array p → p < 2 ^ 31

theorem Holdable.mono {mx mx' : Nat} (h : Holdable array mx) (fewer : mx' ≤ mx) : Holdable array mx' :=
  fun p inside => h p (by omega)

theorem inInt_of_small {x : Int} (lo : -2 ^ 31 ≤ x) (hi : x < 2 ^ 31) : inInt x = .ok x := by
  rw [inInt, check_of ⟨lo, hi⟩, ok_bind, pure_eq_ok]

theorem inInt_base (holdable : Holdable array (ix + 1)) (window : IsGreatest (marks array (8 * ix) (8 * ix + 8)) p) :
    inInt ((ix : Int) * 8) = .ok (ix * 8) := by
  obtain ⟨⟨lower, upper, set⟩, _⟩ := window
  have small := holdable p (by omega) set
  exact inInt_of_small (by omega) (by omega)

theorem place_of_bit (ix i : Nat) : (i : Int) + ix * 8 = (8 * ix + i : Nat) := by omega

theorem scanDown_spec (mx : Nat) (covers : mx ≤ array.length) (holdable : Holdable array mx) :
    ∃ r, scanDown array mx = .ok r ∧ LastOf (marks array 0 (8 * mx)) r := by
  induction mx with
  | zero => exact ⟨-1, rfl, .inl ⟨rfl, marks_empty (by omega)⟩⟩
  | succ mx ih =>
    obtain ⟨byte, here⟩ : ∃ byte, array[mx]? = some byte := ⟨_, List.getElem?_eq_getElem (by omega)⟩
    have window := last_of_byte (k := 0) here (by decide)
    rw [scanDown, here, deref_some, ok_bind]
    by_cases zero : byte = 0
    · obtain ⟨r, run, last⟩ := ih (by omega) (holdable.mono (by omega))
      have none := (marks_byte_empty_iff here).mpr zero
      refine ⟨r, (if_neg (not_not.mpr zero)).trans run, ?_⟩
      exact LastOf.skip none (by omega) (by omega) last
    · have some := mt (marks_byte_empty_iff here).mp zero
      obtain ⟨i, pos, _, greatest⟩ := window.resolve_left fun none => some none.2
      rw [if_pos zero, inInt_base holdable greatest, ok_bind]
      refine ⟨asInt (i + mx * 8 : Int), ?_, .inr ⟨8 * mx + i, ?_, ?_⟩⟩
      · rw [← zero_based pos]
        rfl
      · rw [place_of_bit]
      · exact greatest_of_upper (by omega) (by omega) greatest

/-- What `std_find_last_bit` returns, with the bits from `len - from'` on in the
same byte as good as any. -/
theorem stdFindLastBit_spec (covers : (len + 7) / 8 ≤ array.length) (small : len < 2 ^ 32) (inside : from' < len)
    (holdable : Holdable array ((len + 7) / 8)) :
    ∃ r, stdFindLastBit array len from' = .ok r ∧ LastOf (marks array 0 (8 * ((len - from' + 7) / 8))) r := by
  unfold stdFindLastBit
  rw [if_neg (by omega)]
  dsimp only
  obtain ⟨q, left⟩ : ∃ q, len - from' = q := ⟨_, rfl⟩
  obtain ⟨mx, last⟩ : ∃ mx, (q + 7) / 8 = mx + 1 := ⟨(q + 7) / 8 - 1, by omega⟩
  have holdable := holdable.mono (show mx + 1 ≤ (len + 7) / 8 by omega)
  have bytes : (q / 8 + if q % 8 ≠ 0 then 1 else 0) = mx + 1 := by
    split <;> omega
  rw [left, bytes, asInt_of_small (by omega) (by omega), if_neg (by omega), inInt_of_small (by omega) (by omega),
    ok_bind, Int.natCast_add, Int.natCast_one, Int.add_sub_cancel, last]
  by_cases aligned : q % 8 = 0
  · rw [if_neg (not_not.mpr aligned)]
    exact scanDown_spec (mx + 1) (by omega) holdable
  · obtain ⟨byte, here⟩ : ∃ byte, array[mx]? = some byte := ⟨_, List.getElem?_eq_getElem (by omega)⟩
    have at_mx : byteAt array mx = some byte := here
    have window := last_of_byte (k := q % 8) here (by omega)
    rw [if_pos aligned, at_mx, deref_some, ok_bind]
    obtain ⟨pos, none⟩ | ⟨i, pos, _, greatest⟩ := window
    · rw [if_neg (not_not.mpr pos)]
      by_cases first : (mx : Int) = 0
      · rw [if_pos first]
        refine ⟨-1, rfl, .inl ⟨rfl, ?_⟩⟩
        rwa [show 8 * mx = 0 by omega, show 0 + 8 = 8 * (mx + 1) by omega] at none
      · rw [if_neg first]
        obtain ⟨r, run, below⟩ := scanDown_spec mx (by omega) (holdable.mono (by omega))
        exact ⟨r, run, LastOf.skip none (by omega) (by omega) below⟩
    · have offset : ((i + 1 : Nat) : Int) - 1 = i := by omega
      rw [if_pos (by omega), inInt_base holdable greatest, ok_bind, pos, offset, pure_eq_ok]
      refine ⟨asInt (i + mx * 8 : Int), ?_, .inr ⟨8 * mx + i, ?_, ?_⟩⟩
      · rfl
      · rw [place_of_bit]
      · exact greatest_of_upper (by omega) (by omega) greatest

/-! ## The two searches -/

/-- `-1` where there is no set bit from `from'` on and before `len`, and the
first one where there is one. -/
def IsFirstBit (array : List UInt8) (len from' : Nat) (r : Int) : Prop :=
  (r = -1 ∧ marks array from' len = ∅) ∨ ∃ p : Nat, r = p ∧ IsLeast (marks array from' len) p

/-- `-1` where there is no set bit before `len`, and the last one where there is one. -/
def IsLastBit (array : List UInt8) (len : Nat) (r : Int) : Prop :=
  (r = -1 ∧ marks array 0 len = ∅) ∨ ∃ p : Nat, r = p ∧ IsGreatest (marks array 0 len) p

/-- The bits behind `len` in the last byte are clear. -/
def PaddingClear (array : List UInt8) (len : Nat) : Prop := ∀ p, len ≤ p → p < 8 * ((len + 7) / 8) → ¬ Tests array p

instance (array : List UInt8) (len : Nat) : Decidable (PaddingClear array len) :=
  inferInstanceAs (Decidable (∀ p, len ≤ p → p < 8 * ((len + 7) / 8) → ¬ Tests array p))

theorem PaddingClear.marks_eq (clear : PaddingClear array len) : marks array lo (8 * ((len + 7) / 8)) = marks array lo len := by
  ext p
  constructor
  · rintro ⟨lower, upper, set⟩
    refine ⟨lower, ?_, set⟩
    by_contra behind
    exact clear p (by omega) upper set
  · rintro ⟨lower, upper, set⟩
    exact ⟨lower, by omega, set⟩

/-- **The first set bit is found**, for every alignment of `from'` and `len`. -/
theorem first_bit_found (array : List UInt8) (len from' : Nat) (covers : (len + 7) / 8 ≤ array.length)
    (small : len < 2 ^ 31) (clear : PaddingClear array len) :
    ∃ r, stdFindFirstBit array len from' = .ok r ∧ IsFirstBit array len from' r := by
  by_cases inside : from' < len
  · obtain ⟨r, run, first⟩ := stdFindFirstBit_spec covers inside
    rw [clear.marks_eq] at first
    refine ⟨r, run, ?_⟩
    obtain none | ⟨p, value, least⟩ := first
    · exact .inl none
    · have upper := least.1.2.1
      have same : asInt p = p := asInt_of_small (by omega) (by omega)
      exact .inr ⟨p, value.trans same, least⟩
  · exact ⟨-1, if_pos (by omega), .inl ⟨rfl, marks_empty (by omega)⟩⟩

theorem first_bit_found_tail :
    ∃ r, stdFindFirstBit [0xff, 0, 4] 19 8 = .ok r ∧ IsFirstBit [0xff, 0, 4] 19 8 r :=
  first_bit_found [0xff, 0, 4] 19 8 (by decide) (by decide) (by decide)

/-- **When the last set bit is found.** The byte with position `len - from'` is
not cut off at that position: the search is right where no bit of that byte is
set from there on. -/
theorem last_bit_found_iff (array : List UInt8) (len from' : Nat) (covers : (len + 7) / 8 ≤ array.length)
    (small : len < 2 ^ 31) (inside : from' < len) :
    (∃ r, stdFindLastBit array len from' = .ok r ∧ IsLastBit array (len - from') r) ↔
      PaddingClear array (len - from') := by
  obtain ⟨r, run, last⟩ := stdFindLastBit_spec covers (by omega) inside fun p inside _ => by omega
  constructor
  · rintro ⟨r', run', right⟩ p behind upper set
    cases run.symm.trans run'
    have mem : p ∈ marks array 0 (8 * ((len - from' + 7) / 8)) := ⟨by omega, upper, set⟩
    obtain ⟨_, none⟩ | ⟨q, value, greatest⟩ := last
    · rw [none] at mem
      exact mem
    · have above := greatest.2 mem
      have bound := greatest.1.2.1
      have same : asInt q = q := asInt_of_small (by omega) (by omega)
      rw [value, same] at right
      obtain ⟨negative, _⟩ | ⟨q', same, greatest'⟩ := right
      · omega
      · have := greatest'.1.2.1
        omega
  · intro clear
    rw [clear.marks_eq] at last
    refine ⟨r, run, ?_⟩
    obtain none | ⟨p, value, greatest⟩ := last
    · exact .inl none
    · have upper := greatest.1.2.1
      have same : asInt p = p := asInt_of_small (by omega) (by omega)
      exact .inr ⟨p, value.trans same, greatest⟩

theorem last_bit_found_iff_aligned :
    (∃ r, stdFindLastBit [1, 0xff, 2] 19 3 = .ok r ∧ IsLastBit [1, 0xff, 2] (19 - 3) r) ↔
      PaddingClear [1, 0xff, 2] (19 - 3) :=
  last_bit_found_iff [1, 0xff, 2] 19 3 (by decide) (by decide) (by decide)

/-- Bit 2 is found from position 1 back, of an array of three bits. -/
theorem last_bit_behind : PaddingClear [4] 3 ∧
    ¬ ∃ r, stdFindLastBit [4] 3 1 = .ok r ∧ IsLastBit [4] (3 - 1) r := by
  refine ⟨by decide, ?_⟩
  rintro ⟨r, run, right⟩
  have two : stdFindLastBit [4] 3 1 = .ok 2 := by decide
  cases run.symm.trans two
  obtain ⟨none, _⟩ | ⟨p, same, greatest⟩ := right
  · cases none
  · have := greatest.1.2.1
    omega

end SonicUtils.Bits
