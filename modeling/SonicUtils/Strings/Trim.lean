import SonicUtils.Strings.Tokens
import SonicUtils.Config.Lines
import Mathlib.Data.List.DropRight

/-!
# Trailing characters

`rtrim` of `std_string_utils.cpp` and the two functions on top of it, which
change a string in its buffer.

* `isTrimmed_iff`: the longest prefix that does not end in one of the characters;
* `rtrim_spec`: what `rtrim` leaves of a string;
* `trailing_trim_iff`: when that is the longest prefix.
-/

namespace SonicUtils.Strings

open SonicUtils.Config (Bytes CString isspace)

/-- The memory from a `char *` on, with the zero byte that ends the string. -/
abbrev Buffer := { str : Bytes // 0 ∈ str }

def strlen (str : Bytes) : Nat := (cStr str).length

def isSpaceWrapper (c : UInt8) : Except Fault Bool := return isspace c

/-- `is_char_match_wrapper`, where `none` is `NULL`. -/
def isCharMatchWrapper (v : Option CString) (c : UInt8) : Except Fault Bool := do
  check (v ≠ none)
  let fmt ← deref v
  check (fmt.1.length ≠ 0)
  return fmt.1.any (c == ·)

/-- The loop of `rtrim`. -/
def rtrimFrom (fun_ : UInt8 → Except Fault Bool) (str : Bytes) : Nat → Except Fault Bytes
  | 0 => return str
  | mx + 1 => do
    let c ← deref str[mx + 1]?
    if ← fun_ c then rtrimFrom fun_ str mx
    else do
      let _ ← deref str[mx + 2]?
      return str.set (mx + 2) 0

def rtrim (fun_ : UInt8 → Except Fault Bool) (str : Bytes) : Except Fault Bytes :=
  let mx := strlen str
  if mx = 0 then return str else rtrimFrom fun_ str (mx - 1)

/-- What `std_remove_trailing_whitespace` leaves in the buffer; `none` is `NULL`. -/
def stdRemoveTrailingWhitespace (str : Bytes) (wsDelim : Option CString) : Except Fault Bytes :=
  rtrim (if wsDelim = none then isSpaceWrapper else isCharMatchWrapper wsDelim) str

/-- `'#'`. -/
def commentMark : UInt8 := 0x23

def stdRemoveCommentAndTrailingWhitespace (str : Bytes) : Except Fault Bytes :=
  let str := match (cStr str).idxOf? commentMark with
    | none => str
    | some ptr => str.set ptr 0
  stdRemoveTrailingWhitespace str none

/-! ## Trimmed strings -/

/-- Empty, or not ending in one of the characters. -/
def Kept (delim : UInt8 → Bool) (s : Bytes) : Prop := ∀ c, s.getLast? = some c → delim c = false

/-- The longest prefix of `s` that is empty or does not end in one of the characters. -/
structure IsTrimmed (delim : UInt8 → Bool) (s t : Bytes) : Prop where
  part : t <+: s
  kept : Kept delim t
  longest : ∀ u, u <+: s → Kept delim u → u.length ≤ t.length

variable {delim : UInt8 → Bool} {s t : Bytes} {str : Bytes}

theorem kept_iff : Kept delim s ↔ s.rdropWhile delim = s := by
  rw [List.rdropWhile_eq_self_iff]
  constructor
  · intro kept nonempty
    simp [kept _ (List.getLast?_eq_some_getLast nonempty)]
  · intro kept c last
    cases s with
    | nil => cases last
    | cons a s =>
      rw [List.getLast?_eq_some_getLast (List.cons_ne_nil a s), Option.some_inj] at last
      have := kept (List.cons_ne_nil a s)
      rwa [last, Bool.not_eq_true] at this

theorem rdropWhile_longest {u : Bytes} (part : u <+: s) (kept : Kept delim u) : u.length ≤ (s.rdropWhile delim).length := by
  induction s using List.reverseRecOn with
  | nil => exact part.length_le
  | append_singleton s c ih =>
    obtain rfl | shorter := List.prefix_concat_iff.mp part
    · rw [kept_iff.mp kept]
    · by_cases dropped : delim c = true
      · rw [List.rdropWhile_concat_pos _ _ _ dropped]
        exact ih shorter
      · rw [List.rdropWhile_concat_neg _ _ _ dropped]
        exact part.length_le

theorem isTrimmed_iff : IsTrimmed delim s t ↔ t = s.rdropWhile delim := by
  have part := List.rdropWhile_prefix delim (l := s)
  have kept : Kept delim (s.rdropWhile delim) := kept_iff.mpr (List.rdropWhile_idempotent delim s)
  constructor
  · intro trimmed
    have same := le_antisymm (rdropWhile_longest trimmed.part trimmed.kept) (trimmed.longest _ part kept)
    exact (List.prefix_of_prefix_length_le trimmed.part part same.le).eq_of_length same
  · rintro rfl
    exact ⟨part, kept, fun u => rdropWhile_longest⟩

/-- More than the first character is kept where there is one to be kept behind it. -/
theorem rdropWhile_two_le : 2 ≤ (s.rdropWhile delim).length ↔ ∃ c ∈ s.tail, delim c = false := by
  induction s using List.reverseRecOn with
  | nil => simp
  | append_singleton s c ih =>
    cases s with
    | nil =>
      rw [List.nil_append, List.rdropWhile_singleton]
      split <;> simp
    | cons a s =>
      by_cases dropped : delim c = true
      · rw [List.rdropWhile_concat_pos _ _ _ dropped, ih]
        simp [dropped]
      · rw [List.rdropWhile_concat_neg _ _ _ dropped]
        simp [dropped]

/-! ## The buffer -/

theorem noNul_cStr (str : Bytes) : 0 ∉ cStr str := by
  intro zero
  have := List.mem_takeWhile_imp zero
  simp at this

theorem cStr_append_zero (noNul : 0 ∉ s) (rest : Bytes) : cStr (s ++ 0 :: rest) = s := by
  have whole : cStr s = s := cStr_eq noNul
  unfold cStr at whole ⊢
  rw [List.takeWhile_append_of_pos (List.takeWhile_eq_self_iff.mp whole), List.takeWhile_cons_of_neg (by simp), List.append_nil]

theorem buffer_split (ends : 0 ∈ str) : ∃ rest, str = cStr str ++ 0 :: rest := by
  induction str with
  | nil => cases ends
  | cons c str ih =>
    by_cases zero : c = 0
    · subst zero
      exact ⟨str, rfl⟩
    · obtain ⟨rest, split⟩ := ih ((List.mem_cons.mp ends).resolve_left (Ne.symm zero))
      refine ⟨rest, ?_⟩
      have cons : cStr (c :: str) = c :: cStr str := List.takeWhile_cons_of_pos (decide_eq_true zero)
      rw [cons, List.cons_append, ← split]

theorem cStr_set {k : Nat} (ends : 0 ∈ str) (inside : k ≤ strlen str) :
    0 ∈ str.set k 0 ∧ cStr (str.set k 0) = (cStr str).take k := by
  obtain ⟨rest, split⟩ := buffer_split ends
  have room : k < str.length := by
    have length := congrArg List.length split
    unfold strlen at inside
    rw [List.length_append, List.length_cons] at length
    omega
  have start : str.take k = (cStr str).take k := by
    conv_lhs => rw [split]
    exact List.take_append_of_le_length inside
  have noNul : 0 ∉ str.take k := fun zero => noNul_cStr str (List.mem_of_mem_take (start ▸ zero))
  constructor
  · exact List.mem_set room 0
  · rw [List.set_eq_take_append_cons_drop, if_pos room, cStr_append_zero noNul, start]

/-- The text read at an index that it has, and the zero byte behind it. -/
theorem read_text {k : Nat} (ends : 0 ∈ str) (inside : k < strlen str) : str[k]? = (cStr str)[k]? := by
  obtain ⟨rest, split⟩ := buffer_split ends
  conv_lhs => rw [split]
  exact List.getElem?_append_left inside

theorem read_end {k : Nat} (ends : 0 ∈ str) (inside : k ≤ strlen str) : ∃ c, str[k]? = some c := by
  obtain ⟨rest, split⟩ := buffer_split ends
  have length := congrArg List.length split
  unfold strlen at inside
  rw [List.length_append, List.length_cons] at length
  exact ⟨_, List.getElem?_eq_getElem (by omega)⟩

/-! ## `rtrim` -/

/-- What `rtrim` makes of a text. -/
def rtrimmed (delim : UInt8 → Bool) (s : Bytes) : Bytes :=
  let t := s.rdropWhile delim
  if 2 ≤ t.length then t else s

variable {fun_ : UInt8 → Except Fault Bool}

theorem rtrimFrom_spec (ends : 0 ∈ str) (decides : ∀ c, fun_ c = .ok (delim c)) (mx : Nat) (inside : mx < strlen str) :
    ∃ out, rtrimFrom fun_ str mx = .ok out ∧ 0 ∈ out ∧
      cStr out = let t := ((cStr str).take (mx + 1)).rdropWhile delim
        if 2 ≤ t.length then t else cStr str := by
  induction mx with
  | zero =>
    refine ⟨str, rfl, ends, ?_⟩
    have short : ((cStr str).take (0 + 1)).length ≤ 0 + 1 := List.length_take_le ..
    have := (List.rdropWhile_prefix delim (l := (cStr str).take (0 + 1))).length_le
    exact (if_neg (by omega)).symm
  | succ mx ih =>
    obtain ⟨c, here⟩ : ∃ c, (cStr str)[mx + 1]? = some c := ⟨_, List.getElem?_eq_getElem inside⟩
    obtain ⟨_, behind⟩ := read_end (k := mx + 2) ends inside
    have part : (cStr str).take (mx + 1 + 1) = (cStr str).take (mx + 1) ++ [c] := by
      rw [List.take_add_one, here]
      rfl
    rw [rtrimFrom, read_text ends inside, here, deref_some, ok_bind, decides, ok_bind, part]
    by_cases dropped : delim c = true
    · rw [if_pos dropped, List.rdropWhile_concat_pos _ _ _ dropped]
      exact ih (by omega)
    · obtain ⟨ends', text⟩ := cStr_set (k := mx + 2) ends inside
      rw [if_neg dropped, List.rdropWhile_concat_neg _ _ _ dropped, ← part, behind, deref_some, ok_bind]
      refine ⟨str.set (mx + 2) 0, rfl, ends', text.trans ?_⟩
      have length : ((cStr str).take (mx + 1 + 1)).length = mx + 1 + 1 := List.length_take_of_le inside
      exact (if_pos (by omega)).symm

theorem rtrim_spec (ends : 0 ∈ str) (decides : ∀ c, fun_ c = .ok (delim c)) :
    ∃ out, rtrim fun_ str = .ok out ∧ 0 ∈ out ∧ cStr out = rtrimmed delim (cStr str) := by
  unfold rtrim
  by_cases empty : strlen str = 0
  · have nil : cStr str = [] := List.length_eq_zero_iff.mp empty
    exact ⟨str, if_pos empty, ends, by simp [rtrimmed, nil]⟩
  · obtain ⟨out, run, ends', text⟩ := rtrimFrom_spec ends decides (strlen str - 1) (by omega)
    refine ⟨out, (if_neg empty).trans run, ends', ?_⟩
    rwa [List.take_of_length_le (by unfold strlen; omega)] at text

/-- When `rtrim` leaves the longest prefix. -/
theorem isTrimmed_rtrimmed_iff : IsTrimmed delim s (rtrimmed delim s) ↔ Kept delim s ∨ ∃ c ∈ s.tail, delim c = false := by
  rw [isTrimmed_iff, kept_iff, ← rdropWhile_two_le]
  unfold rtrimmed
  by_cases long : 2 ≤ (s.rdropWhile delim).length
  · simp [long]
  · simp [long, eq_comm]

theorem rtrimmed_rtrimmed (delim : UInt8 → Bool) (s : Bytes) : rtrimmed delim (rtrimmed delim s) = rtrimmed delim s := by
  unfold rtrimmed
  by_cases long : 2 ≤ (s.rdropWhile delim).length
  · simp [long, List.rdropWhile_idempotent]
  · simp [long]

/-! ## The two functions -/

/-- What the characters of `ws_delim` are. -/
def delims : Option CString → UInt8 → Bool
  | none, c => isspace c
  | some fmt, c => fmt.1.any (c == ·)

/-- The string in the buffer becomes its longest prefix that ends in no such character. -/
def TrimsTrailing (str : Bytes) (wsDelim : Option CString) : Prop :=
  ∃ out, stdRemoveTrailingWhitespace str wsDelim = .ok out ∧ IsTrimmed (delims wsDelim) (cStr str) (cStr out)

/-- The text before the first `'#'`. -/
def uncommented (s : Bytes) : Bytes := s.takeWhile (· ≠ commentMark)

/-- The string in the buffer becomes what there is before a comment, without
the white space at its end. -/
def TrimsComment (str : Bytes) : Prop :=
  ∃ out, stdRemoveCommentAndTrailingWhitespace str = .ok out ∧ IsTrimmed isspace (uncommented (cStr str)) (cStr out)

/-- The last character is kept, or another one behind the first. -/
def KeepsSome (delim : UInt8 → Bool) (s : Bytes) : Prop := Kept delim s ∨ ∃ c ∈ s.tail, delim c = false

/-- There is a character to match, unless the string is too short for `rtrim` to ask. -/
def Askable (wsDelim : Option CString) (s : Bytes) : Prop := wsDelim.map Subtype.val = some [] → s.length ≤ 1

theorem trailing_spec {wsDelim : Option CString} (ends : 0 ∈ str) (some_ : wsDelim.map Subtype.val ≠ some []) :
    ∃ out, stdRemoveTrailingWhitespace str wsDelim = .ok out ∧ 0 ∈ out ∧ cStr out = rtrimmed (delims wsDelim) (cStr str) := by
  apply rtrim_spec ends
  intro c
  cases wsDelim with
  | none => rfl
  | some fmt =>
    have nonempty : fmt.1.length ≠ 0 := fun empty => some_ (by simp [List.length_eq_zero_iff.mp empty])
    rw [if_neg (Option.some_ne_none fmt), isCharMatchWrapper, check_of (Option.some_ne_none fmt), ok_bind, deref_some,
      ok_bind, check_of nonempty]
    rfl

/-- With an empty set, the first question is a failed assertion. -/
theorem trailing_empty {wsDelim : Option CString} (ends : 0 ∈ str) (none_ : wsDelim.map Subtype.val = some []) :
    stdRemoveTrailingWhitespace str wsDelim = if strlen str ≤ 1 then .ok str else .error .assertion := by
  obtain ⟨fmt, rfl, empty⟩ := Option.map_eq_some_iff.mp none_
  unfold stdRemoveTrailingWhitespace rtrim
  by_cases short : strlen str ≤ 1
  · rw [if_pos short]
    obtain zero | one : strlen str = 0 ∨ strlen str = 1 := by omega
    · exact if_pos zero
    · rw [one]
      rfl
  · obtain ⟨mx, more⟩ : ∃ mx, strlen str = mx + 2 := ⟨strlen str - 2, by omega⟩
    obtain ⟨c, here⟩ := read_end (k := mx + 1) ends (by omega)
    rw [if_neg short, more]
    dsimp only
    rw [if_neg (by omega), show mx + 2 - 1 = mx + 1 from rfl, rtrimFrom, here, deref_some, ok_bind,
      if_neg (Option.some_ne_none fmt), isCharMatchWrapper, check_of (Option.some_ne_none fmt), ok_bind, deref_some, ok_bind, empty]
    rfl

theorem trimsTrailing_iff (ends : 0 ∈ str) (wsDelim : Option CString) :
    TrimsTrailing str wsDelim ↔ Askable wsDelim (cStr str) ∧ KeepsSome (delims wsDelim) (cStr str) := by
  by_cases none_ : wsDelim.map Subtype.val = some []
  · obtain ⟨fmt, rfl, empty⟩ := Option.map_eq_some_iff.mp none_
    have kept : Kept (delims (some fmt)) (cStr str) := fun c _ => by
      rw [delims, empty, List.any_nil]
    have run := trailing_empty ends none_
    constructor
    · rintro ⟨out, run', _⟩
      refine ⟨fun _ => ?_, .inl kept⟩
      by_contra long
      have long : ¬ strlen str ≤ 1 := long
      rw [run, if_neg long] at run'
      cases run'
    · rintro ⟨short, _⟩
      have short : strlen str ≤ 1 := short none_
      rw [if_pos short] at run
      exact ⟨str, run, isTrimmed_iff.mpr (kept_iff.mp kept).symm⟩
  · obtain ⟨out, run, _, text⟩ := trailing_spec ends none_
    rw [KeepsSome, ← isTrimmed_rtrimmed_iff, ← text]
    constructor
    · rintro ⟨out', run', trimmed⟩
      cases run.symm.trans run'
      exact ⟨fun empty => absurd empty none_, trimmed⟩
    · rintro ⟨_, trimmed⟩
      exact ⟨out, run, trimmed⟩

theorem trailing_idempotent (ends : 0 ∈ str) {wsDelim : Option CString} {out : Bytes}
    (run : stdRemoveTrailingWhitespace str wsDelim = .ok out) :
    ∃ out', stdRemoveTrailingWhitespace out wsDelim = .ok out' ∧ cStr out' = cStr out := by
  by_cases none_ : wsDelim.map Subtype.val = some []
  · have same := run
    rw [trailing_empty ends none_] at same
    split at same
    · cases same
      exact ⟨str, run, rfl⟩
    · cases same
  · obtain ⟨first, run', ends', text⟩ := trailing_spec ends none_
    cases run.symm.trans run'
    obtain ⟨second, again, _, text'⟩ := trailing_spec ends' none_
    refine ⟨second, again, ?_⟩
    rw [text', text, rtrimmed_rtrimmed]

/-- The comment is cut off in the buffer. -/
theorem comment_cut (ends : 0 ∈ str) :
    ∃ cut, 0 ∈ cut ∧ cStr cut = uncommented (cStr str) ∧
      stdRemoveCommentAndTrailingWhitespace str = stdRemoveTrailingWhitespace cut none := by
  unfold stdRemoveCommentAndTrailingWhitespace
  cases found : (cStr str).idxOf? commentMark with
  | none =>
    refine ⟨str, ends, ?_, rfl⟩
    apply Eq.symm
    apply List.takeWhile_eq_self_iff.mpr
    intro c mem
    apply decide_eq_true
    rintro rfl
    exact List.idxOf?_eq_none_iff.mp found mem
  | some ptr =>
    obtain ⟨inside, _⟩ := List.idxOf?_eq_some_iff.mp found
    obtain ⟨ends', text⟩ := cStr_set ends inside.le
    exact ⟨str.set ptr 0, ends', text.trans (Config.find_some found).1, rfl⟩

theorem trimsComment_iff (ends : 0 ∈ str) : TrimsComment str ↔ KeepsSome isspace (uncommented (cStr str)) := by
  obtain ⟨cut, ends', text, run⟩ := comment_cut ends
  have trailing := trimsTrailing_iff ends' none
  unfold TrimsComment
  rw [run, ← text]
  constructor
  · intro trims
    exact (trailing.mp trims).2
  · intro keeps
    apply trailing.mpr
    refine ⟨?_, keeps⟩
    intro null
    cases null

/-- **When trailing characters are trimmed completely.** Trimming twice is the
same as once in any case. -/
theorem trailing_trim_iff (str : Buffer) (wsDelim : Option CString) :
    (TrimsTrailing str.1 wsDelim ↔ Askable wsDelim (cStr str.1) ∧ KeepsSome (delims wsDelim) (cStr str.1)) ∧
    (∀ out, stdRemoveTrailingWhitespace str.1 wsDelim = .ok out →
      ∃ out', stdRemoveTrailingWhitespace out wsDelim = .ok out' ∧ cStr out' = cStr out) ∧
    (TrimsComment str.1 ↔ KeepsSome isspace (uncommented (cStr str.1))) :=
  ⟨trimsTrailing_iff str.2 wsDelim, fun _ => trailing_idempotent str.2, trimsComment_iff str.2⟩

/-- Two blanks stay as they are. -/
theorem blanks_kept : stdRemoveTrailingWhitespace [0x20, 0x20, 0] none = .ok [0x20, 0x20, 0] ∧
    ¬ TrimsTrailing [0x20, 0x20, 0] none := by
  have run : stdRemoveTrailingWhitespace [0x20, 0x20, 0] none = .ok [0x20, 0x20, 0] := by decide
  refine ⟨run, ?_⟩
  rintro ⟨out, run', trimmed⟩
  cases run.symm.trans run'
  have blank := trimmed.kept 0x20 (by decide)
  cases blank

end SonicUtils.Strings
