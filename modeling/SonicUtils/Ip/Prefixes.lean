import SonicUtils.Ip.Masks
import SonicUtils.Lib.Numeral
import SonicUtils.Strings.Tokens

/-!
# Prefix strings

`std_str_to_ip_prefix` of `std_ip_utils.c`, where it is given a string and places for
the address and the length. What the C library knows about addresses is a
`Resolver`; memory does not run out.

* `strToIpPrefix_eq`: what is accepted, and what length is taken for it;
* `strtoul_eq_iff`: when a numeral is read as the number it is;
* `prefix_string_iff`: for which strings the function does what it is for.
-/

namespace SonicUtils.IpPrefix

open SonicUtils.Config (Bytes CString isspace)
open SonicUtils.Ip (HalIpAddr)
open SonicUtils.Strings (stdParseString stdParseStringNumTokens stdParseStringNext)
open Loop Numeral Splitting

inductive Family
  | inet
  | inet6
  deriving DecidableEq, Repr

def Family.afIndex : Family → UInt32
  | inet => 2
  | inet6 => 10

/-- `getaddrinfo` for a numeric host, with the family of the first result, and `inet_pton`
with the bytes it stores. -/
structure Resolver where
  getaddrinfo : Bytes → Option Family
  inetPton : Family → Bytes → Option Bytes
  /-- Colons, dots and digits are all that an address is made of. -/
  unslashed : ∀ family s, (inetPton family s).isSome = true → '/'.toUInt8 ∉ s

/-- `std_get_ip_type`, where `none` is `false`. -/
def Resolver.stdGetIpType (r : Resolver) (ipStr : Bytes) : Option Family := r.getaddrinfo ipStr

/-- `std_str_to_ip`. -/
def Resolver.stdStrToIp (r : Resolver) (ipStr : Bytes) (ipAddrHolder : HalIpAddr) : Bool × HalIpAddr :=
  match r.stdGetIpType ipStr with
  | none => (false, ipAddrHolder)
  | some ipType =>
    let ipAddrHolder := { ipAddrHolder with afIndex := ipType.afIndex }
    match r.inetPton ipType ipStr with
    | some u => (true, { ipAddrHolder with u := u ++ ipAddrHolder.u.drop u.length })
    | none => (false, ipAddrHolder)

def slash : CString := ⟨['/'.toUInt8], by decide⟩

/-- `std_splice_prefix_string`, where `none` is `false`. -/
def stdSplicePrefixString (ipPrefixStr : CString) (fuel : Nat) : Except Fault (Option (Bytes × Bytes)) := do
  match ← stdParseString (fun _ => true) ipPrefixStr slash fuel with
  | none => return none
  | some handle =>
    if stdParseStringNumTokens handle ≠ 2 then return none
    let (ipPart, index) := stdParseStringNext handle 0
    let (lenPart, _) := stdParseStringNext handle index
    match ipPart, lenPart with
    | some ipPart, some lenPart => return some (ipPart, lenPart)
    | _, _ => return none

/-! ## `strtoul` -/

/-- The digit that a byte is, in the largest base, or more than any base has. -/
def digit (c : UInt8) : Nat :=
  if '0'.toUInt8 ≤ c ∧ c ≤ '9'.toUInt8 then (c - '0'.toUInt8).toNat
  else if 'a'.toUInt8 ≤ c ∧ c ≤ 'z'.toUInt8 then (c - 'a'.toUInt8).toNat + 10
  else if 'A'.toUInt8 ≤ c ∧ c ≤ 'Z'.toUInt8 then (c - 'A'.toUInt8).toNat + 10
  else 36

/-- A sign that is a minus, and what is behind the sign. -/
def signed (s : Bytes) : Bool × Bytes :=
  if s.head? = some '-'.toUInt8 then (true, s.tail)
  else if s.head? = some '+'.toUInt8 then (false, s.tail)
  else (false, s)

/-- The base that is meant where none is given, and what is behind its mark. -/
def based (s : Bytes) : Nat × Bytes :=
  if s.head? = some '0'.toUInt8 then
    if s[1]? = some 'x'.toUInt8 ∨ s[1]? = some 'X'.toUInt8 then (16, s.drop 2) else (8, s)
  else (10, s)

def ulongMax : Nat := 2 ^ 64 - 1

/-- `strtoul(s, NULL, 0)`. -/
def strtoul (s : Bytes) : UInt64 :=
  let (negative, s) := signed (s.dropWhile isspace)
  let (base, s) := based s
  let n := read base (s.map digit)
  if ulongMax < n then .ofNat ulongMax else if negative then -.ofNat n else .ofNat n

/-- `std_str_to_ip_prefix`: its result, and what it leaves in `ip_addr_holder` and `mask_len`. -/
def Resolver.stdStrToIpPrefix (r : Resolver) (ipPrefixStr : CString) (ipAddrHolder : HalIpAddr) (maskLen : UInt8)
    (fuel : Nat) : Except Fault (Bool × HalIpAddr × UInt8) := do
  match ← stdSplicePrefixString ipPrefixStr fuel with
  | none => return (false, ipAddrHolder, maskLen)
  | some (ipPart, lenPart) =>
    let (taken, ipAddrHolder) := r.stdStrToIp ipPart ipAddrHolder
    if taken then return (true, ipAddrHolder, (strtoul lenPart).toUInt8)
    else return (false, ipAddrHolder, maskLen)

/-! ## Numerals -/

/-- A non-empty decimal numeral. -/
structure Decimal (l : Bytes) : Prop where
  some_ : l ≠ []
  digits : ∀ c ∈ l, digit c < 10

def decimal (l : Bytes) : Nat := value 10 (l.map digit)

/-- No zero that does not change the base: none in front, or nothing but zeros before the
last digit, which base 8 has. -/
def Unmarked (l : Bytes) : Prop :=
  l.head? = some '0'.toUInt8 → ∃ zeros c, l = zeros ++ [c] ∧ (∀ d ∈ zeros, digit d = 0) ∧ digit c < 8

variable {l : Bytes}

theorem decimal_digit {c : UInt8} (small : digit c < 10) : c ∈ (List.range 10).map fun d => '0'.toUInt8 + .ofNat d := by
  unfold digit at small
  split at small
  · rename_i between
    refine List.mem_map.mpr ⟨(c - '0'.toUInt8).toNat, List.mem_range.mpr small, ?_⟩
    rw [UInt8.ofNat_toNat, UInt8.add_comm, UInt8.sub_add_cancel]
  · split at small
    · omega
    · split at small <;> omega

theorem digit_apart {c : UInt8} (small : digit c < 10) : isspace c = false ∧ c ≠ '-'.toUInt8 ∧ c ≠ '+'.toUInt8 ∧
    c ≠ '/'.toUInt8 ∧ c ≠ 'x'.toUInt8 ∧ c ≠ 'X'.toUInt8 := by
  have all : ((List.range 10).map fun d => '0'.toUInt8 + .ofNat d).all (fun c => decide (isspace c = false ∧
      c ≠ '-'.toUInt8 ∧ c ≠ '+'.toUInt8 ∧ c ≠ '/'.toUInt8 ∧ c ≠ 'x'.toUInt8 ∧ c ≠ 'X'.toUInt8)) = true := rfl
  exact of_decide_eq_true (List.all_eq_true.mp all c (decimal_digit small))

theorem Decimal.unslashed (h : Decimal l) : '/'.toUInt8 ∉ l :=
  fun at_ => (digit_apart (h.digits _ at_)).2.2.2.1 rfl

theorem based_decimal (h : Decimal l) : based l = (if l.head? = some '0'.toUInt8 then 8 else 10, l) := by
  have unmarked : ¬ (l[1]? = some 'x'.toUInt8 ∨ l[1]? = some 'X'.toUInt8) := by
    rintro (second | second)
    · exact (digit_apart (h.digits _ (List.mem_of_getElem? second))).2.2.2.2.1 rfl
    · exact (digit_apart (h.digits _ (List.mem_of_getElem? second))).2.2.2.2.2 rfl
  unfold based
  rw [if_neg unmarked]
  split <;> rfl

/-- A numeral has no space and no sign in front, and no mark but that of base 8. -/
theorem strtoul_decimal (h : Decimal l) :
    strtoul l = .ofNat (min ulongMax (if l.head? = some '0'.toUInt8 then read 8 (l.map digit) else decimal l)) := by
  obtain ⟨c, cs, rfl⟩ := List.exists_cons_of_ne_nil h.some_
  obtain ⟨space, minus, plus, _⟩ := digit_apart (h.digits c List.mem_cons_self)
  have trimmed : (c :: cs).dropWhile isspace = c :: cs := List.dropWhile_cons_of_neg (by simp [space])
  have unsigned : signed (c :: cs) = (false, c :: cs) := by
    rw [signed, List.head?_cons, if_neg (fun same => minus (Option.some.inj same)), if_neg (fun same => plus (Option.some.inj same))]
  have all : read 10 ((c :: cs).map digit) = decimal (c :: cs) := read_all (by simpa using h.digits)
  have saturates (n : Nat) : (if ulongMax < n then UInt64.ofNat ulongMax
      else if false = true then -UInt64.ofNat n else UInt64.ofNat n) = .ofNat (min ulongMax n) := by
    by_cases large : ulongMax < n
    · rw [if_pos large, Nat.min_eq_left large.le]
    · rw [if_neg large, if_neg Bool.false_ne_true, Nat.min_eq_right (Nat.le_of_not_lt large)]
  rw [strtoul, trimmed, unsigned]
  dsimp only
  rw [based_decimal h]
  dsimp only
  rw [saturates, apply_ite (read · _), all]

/-- A numeral that a byte can hold is read as the number it is only if no zero in front
makes another one of it. -/
theorem strtoul_eq_iff (h : Decimal l) (small : decimal l < 256) :
    (strtoul l).toUInt8.toNat = decimal l ↔ Unmarked l := by
  have cast {n : Nat} (le : n ≤ decimal l) : (UInt64.ofNat (min ulongMax n)).toUInt8.toNat = n := by
    have below : n ≤ ulongMax := by
      unfold ulongMax
      omega
    rw [Nat.min_eq_right below, UInt64.toNat_toUInt8, UInt64.toNat_ofNat']
    omega
  rw [strtoul_decimal h]
  by_cases marked : l.head? = some '0'.toUInt8
  · rw [if_pos marked, cast (read_le (by decide) _)]
    obtain ⟨zeros, c, rfl⟩ := List.eq_nil_or_concat'  l |>.resolve_left h.some_
    rw [decimal, List.map_append, List.map_singleton, read_eq_iff (by decide) (by decide), List.forall_mem_map]
    constructor
    · exact fun ⟨zeros_, last⟩ _ => ⟨zeros, c, rfl, zeros_, last⟩
    · intro unmarked
      obtain ⟨zeros', c', same, zeros_, last⟩ := unmarked marked
      obtain ⟨rfl, last_⟩ := List.append_inj' same rfl
      cases last_
      exact ⟨zeros_, last⟩
  · rw [if_neg marked, cast (Nat.le_refl _)]
    exact ⟨fun _ head => absurd head marked, fun _ => rfl⟩

/-! ## What is accepted -/

variable {r : Resolver} {s a : Bytes} {family : Family}

/-- The address test. -/
def Resolver.Address (r : Resolver) (family : Family) (a : Bytes) : Prop :=
  r.getaddrinfo a = some family ∧ (r.inetPton family a).isSome = true

instance (r : Resolver) (family : Family) (a : Bytes) : Decidable (r.Address family a) :=
  inferInstanceAs (Decidable (_ ∧ _))

theorem strToIp_iff (r : Resolver) (a : Bytes) (ipAddrHolder : HalIpAddr) :
    (r.stdStrToIp a ipAddrHolder).1 = true ↔ ∃ family, r.Address family a := by
  unfold Resolver.stdStrToIp Resolver.stdGetIpType Resolver.Address
  cases r.getaddrinfo a with
  | none => simp
  | some ipType =>
    cases found : r.inetPton ipType a with
    | none => simp [found]
    | some u => simp [found]

/-- The parts of the string: an address and a length where there are two of them. -/
def pair : List Bytes → Option (Bytes × Bytes)
  | [a, l] => some (a, l)
  | _ => none

theorem splice_returns (string : CString) : ∃ tokens, Splits slash.1 string.1 tokens ∧
    Returns (stdSplicePrefixString string) (pair tokens) := by
  have some_ : slash.1 ≠ [] := by decide
  obtain ⟨tokens, splits, ends⟩ := Strings.parse_splits string.2 some_ ⟨[], 0⟩
  refine ⟨tokens, splits, Returns.bind ends (.of_ok fun _ => ?_)⟩
  match tokens with
  | [] => rfl
  | [_] => rfl
  | [_, _] => rfl
  | _ :: _ :: _ :: _ => exact if_pos (by simp [stdParseStringNumTokens])

/-- What the whole function returns, from the parts. -/
theorem strToIpPrefix_returns (r : Resolver) (string : CString) (ipAddrHolder : HalIpAddr) (maskLen : UInt8) :
    ∃ tokens, Splits slash.1 string.1 tokens ∧
      Returns (r.stdStrToIpPrefix string ipAddrHolder maskLen)
        (match pair tokens with
        | none => (false, ipAddrHolder, maskLen)
        | some (a, l) =>
          let (taken, ipAddrHolder) := r.stdStrToIp a ipAddrHolder
          (taken, ipAddrHolder, if taken then (strtoul l).toUInt8 else maskLen)) := by
  obtain ⟨tokens, splits, returns⟩ := splice_returns string
  refine ⟨tokens, splits, Returns.bind returns (.of_ok fun _ => ?_)⟩
  cases pair tokens with
  | none => rfl
  | some parts =>
    obtain ⟨a, l⟩ := parts
    dsimp only
    obtain ⟨taken, ipAddrHolder⟩ := r.stdStrToIp a ipAddrHolder
    cases taken <;> rfl

/-! ## What is meant -/

def Family.maxLen : Family → Nat
  | inet => 32
  | inet6 => 128

/-- An address, a slash, and the length in decimal. -/
def PrefixString (r : Resolver) (s : Bytes) (n : Nat) : Prop :=
  ∃ a l family, s = a ++ '/'.toUInt8 :: l ∧ r.Address family a ∧ Decimal l ∧ decimal l ≤ family.maxLen ∧ decimal l = n

theorem Resolver.Address.unslashed (h : r.Address family a) : '/'.toUInt8 ∉ a := r.unslashed family a h.2

/-- The function takes the strings that are meant and no others, and their lengths. -/
def Parses (r : Resolver) (string : CString) : Prop :=
  ∀ ipAddrHolder maskLen, ∃ taken ipAddrHolder' maskLen',
    Returns (r.stdStrToIpPrefix string ipAddrHolder maskLen) (taken, ipAddrHolder', maskLen') ∧
      (taken = true ↔ ∃ n, PrefixString r string.1 n) ∧
      (taken = true → PrefixString r string.1 maskLen'.toNat)

/-- Wherever the string is an address and one thing more behind a slash, this is all there
is, and a numeral in its range that no zero in front makes another number of. -/
def Unambiguous (r : Resolver) (s : Bytes) : Prop :=
  ∀ a l family, r.Address family a → '/'.toUInt8 ∉ l →
    (s = a ++ '/'.toUInt8 :: l ∧ l ≠ [] ∨ s = a ++ '/'.toUInt8 :: (l ++ ['/'.toUInt8])) →
    s = a ++ '/'.toUInt8 :: l ∧ Decimal l ∧ decimal l ≤ family.maxLen ∧ Unmarked l

theorem pair_eq_some {tokens : List Bytes} : pair tokens = some (a, l) ↔ tokens = [a, l] := by
  constructor
  · intro two
    match tokens, two with
    | [_, _], rfl => rfl
  · rintro rfl
    rfl

/-- The parts of a string that is meant are its address and its length. -/
theorem splits_meant {family : Family} (address : r.Address family a) (numeral : Decimal l)
    (whole : s = a ++ '/'.toUInt8 :: l) : Splits slash.1 s [a, l] :=
  splits_pair_iff.mpr ⟨address.unslashed, numeral.unslashed, .inl ⟨whole, numeral.some_⟩⟩

/-- A string that is not accepted is not one that is meant, nor one that is an address and
something else. -/
theorem refused {tokens : List Bytes} (splits : Splits slash.1 s tokens)
    (no : ∀ a l family, tokens = [a, l] → ¬ r.Address family a) :
    (¬ ∃ n, PrefixString r s n) ∧ Unambiguous r s := by
  constructor
  · rintro ⟨_, a, l, family, whole, address, numeral, _⟩
    exact no a l family (splits.unique (by decide) (splits_meant address numeral whole)) address
  · intro a l family address free shape
    have parts := splits_pair_iff.mpr ⟨address.unslashed, free, shape⟩
    exact absurd address (no a l family (splits.unique (by decide) parts))

/-- Where a string is accepted, its length is the one that is meant only if it is read as
the number it is. -/
theorem accepted {family : Family} (splits : Splits slash.1 s [a, l]) (address : r.Address family a) :
    PrefixString r s (strtoul l).toUInt8.toNat ↔ Unambiguous r s := by
  constructor
  · rintro ⟨a', l', family', whole, address', numeral, small, same⟩ b m family'' other free shape
    cases splits.unique (by decide) (splits_meant address' numeral whole)
    cases splits.unique (by decide) (splits_pair_iff.mpr ⟨other.unslashed, free, shape⟩)
    cases address'.1.symm.trans other.1
    refine ⟨whole, numeral, small, (strtoul_eq_iff numeral ?_).mp same.symm⟩
    cases family' <;> exact Nat.lt_of_le_of_lt small (by decide)
  · intro plain
    obtain ⟨_, free, shape⟩ := splits_pair_iff.mp splits
    obtain ⟨whole, numeral, small, unmarked⟩ := plain a l family address free shape
    refine ⟨a, l, family, whole, address, numeral, small, ((strtoul_eq_iff numeral ?_).mpr unmarked).symm⟩
    cases family <;> exact Nat.lt_of_le_of_lt small (by decide)

/-- The two ways in which the function returns. -/
theorem strToIpPrefix_cases (r : Resolver) (string : CString) (ipAddrHolder : HalIpAddr) (maskLen : UInt8) :
    ∃ taken ipAddrHolder' maskLen',
      Returns (r.stdStrToIpPrefix string ipAddrHolder maskLen) (taken, ipAddrHolder', maskLen') ∧
        (taken = true ∧ (PrefixString r string.1 maskLen'.toNat ↔ Unambiguous r string.1) ∨
          taken = false ∧ (¬ ∃ n, PrefixString r string.1 n) ∧ Unambiguous r string.1) := by
  obtain ⟨tokens, splits, returns⟩ := strToIpPrefix_returns r string ipAddrHolder maskLen
  cases parts : pair tokens with
  | none =>
    rw [parts] at returns
    have no (a l : Bytes) (family : Family) (two : tokens = [a, l]) : ¬ r.Address family a := by
      rw [pair_eq_some.mpr two] at parts
      cases parts
    exact ⟨_, _, _, returns, .inr ⟨rfl, refused splits no⟩⟩
  | some parts_ =>
    obtain ⟨a, l⟩ := parts_
    rw [parts] at returns
    cases pair_eq_some.mp parts
    have test := strToIp_iff r a ipAddrHolder
    dsimp only at returns
    generalize r.stdStrToIp a ipAddrHolder = outcome at returns test
    obtain ⟨taken, ipAddrHolder'⟩ := outcome
    refine ⟨taken, ipAddrHolder', _, returns, ?_⟩
    cases taken with
    | true =>
      obtain ⟨family, address⟩ := test.mp rfl
      exact .inl ⟨rfl, accepted splits address⟩
    | false =>
      refine .inr ⟨rfl, refused splits fun b m family two address => ?_⟩
      cases two
      exact absurd (test.mpr ⟨family, address⟩) Bool.false_ne_true

theorem Parses.unambiguous {string : CString} (parses : Parses r string) : Unambiguous r string.1 := by
  obtain ⟨taken, ipAddrHolder', maskLen', returns, _, meant⟩ := parses ⟨0, []⟩ 0
  obtain ⟨_, _, _, returns', (⟨rfl, iff⟩ | ⟨_, _, plain⟩)⟩ := strToIpPrefix_cases r string ⟨0, []⟩ 0
  · cases returns.unique returns'
    exact iff.mp (meant rfl)
  · exact plain

theorem prefix_string_iff (r : Resolver) (string : CString) : Parses r string ↔ Unambiguous r string.1 := by
  constructor
  · exact Parses.unambiguous
  · intro plain ipAddrHolder maskLen
    obtain ⟨taken, ipAddrHolder', maskLen', returns, (⟨rfl, iff⟩ | ⟨rfl, none_, _⟩)⟩ :=
      strToIpPrefix_cases r string ipAddrHolder maskLen
    · have meant := iff.mpr plain
      exact ⟨_, _, _, returns, iff_of_true rfl ⟨_, meant⟩, fun _ => meant⟩
    · exact ⟨_, _, _, returns, iff_of_false Bool.false_ne_true none_, fun true_ => absurd true_ Bool.false_ne_true⟩

/-- `1.1.1.1`. -/
def oneHost : Bytes := [0x31, 0x2e, 0x31, 0x2e, 0x31, 0x2e, 0x31]

/-- A resolver that has heard of one address. -/
def oneHostResolver : Resolver where
  getaddrinfo s := if s = oneHost then some .inet else none
  inetPton family s := if family = .inet ∧ s = oneHost then some [1, 1, 1, 1] else none
  unslashed family s found := by
    by_cases one : family = .inet ∧ s = oneHost
    · rw [one.2]
      decide
    · rw [if_neg one] at found
      cases found

def longPrefix : CString := ⟨oneHost ++ [0x2f, 0x39, 0x39, 0x39], by decide⟩

/-- `1.1.1.1/999` is taken for a prefix, of length 231. -/
theorem long_prefix_taken :
    oneHostResolver.stdStrToIpPrefix longPrefix ⟨0, [0, 0, 0, 0]⟩ 0 3 = .ok (true, ⟨2, [1, 1, 1, 1]⟩, 231) ∧
      ¬ Parses oneHostResolver longPrefix := by
  refine ⟨by decide, fun parses => ?_⟩
  have address : oneHostResolver.Address .inet oneHost := by decide
  have plain := parses.unambiguous oneHost [0x39, 0x39, 0x39] .inet address (by decide) (.inl ⟨rfl, by decide⟩)
  exact absurd plain.2.2.1 (by decide)

end SonicUtils.IpPrefix
