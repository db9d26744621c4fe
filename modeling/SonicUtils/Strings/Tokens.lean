import SonicUtils.Config.Model
import SonicUtils.Lib.Splitting

/-!
# Tokens

`std_parse_string` of `std_string_utils.cpp` and what reads its result.

* `parse_reversible`: the tokens, and that the string can be put together from
  them again;
* `parse_bounded_iff`: when the loop ends in time.
-/

namespace SonicUtils.Strings

open SonicUtils.Config (Bytes CString)
open Loop Splitting

/-- `std::string::find`, where `none` is `npos`. -/
def find (data delim : Bytes) (ix : Nat) : Option Nat :=
  if ix ≤ data.length then (firstIn delim (data.drop ix)).map (ix + ·) else none

/-- `std::string::substr`. -/
def substr (data : Bytes) (pos n : Nat) : Bytes := (data.drop pos).take n

/-- What `c_str` makes of a string, up to the first zero byte. -/
def cStr (found : Bytes) : Bytes := found.takeWhile (· ≠ 0)

/-- The tokens so far, and the index of the loop. -/
structure Parsing where
  vect : List Bytes
  ix : Nat
  deriving DecidableEq, Repr

/-- The loop's test, and what is done where it holds. `alloc` says which of the
`push_back` find memory; the one that does not throws, and the result is `none`. -/
def parseTurn (alloc : Nat → Bool) (data delim : Bytes) (l : Parsing) : Except Fault (Parsing ⊕ Option (List Bytes)) :=
  if l.ix < data.length then
    let e := (find data delim l.ix).getD data.length
    let found := substr data l.ix (e - l.ix)
    if alloc l.vect.length then return .inl ⟨l.vect ++ [cStr found], e + delim.length⟩
    else return .inr none
  else return .inr (some l.vect)

/-- `std_parse_string`, where `none` is `false`. -/
def stdParseString (alloc : Nat → Bool) (string delim : CString) (fuel : Nat) : Except Fault (Option (List Bytes)) :=
  loop .noReturn (parseTurn alloc string.1 delim.1) fuel ⟨[], 0⟩

def stdParseStringNumTokens (parsed : List Bytes) : Nat := parsed.length

/-- `std_parse_string_at`, where `none` is `NULL`. -/
def stdParseStringAt (parsed : List Bytes) (index : Nat) : Option Bytes := parsed[index]?

/-- What `std_parse_string_next` returns, and what it leaves in `*index`. -/
def stdParseStringNext (parsed : List Bytes) (index : Nat) : Option Bytes × Nat :=
  match stdParseStringAt parsed index with
  | none => (none, index)
  | some p => (some p, index + 1)

/-- What so many calls of `std_parse_string_next` return. -/
def nexts (parsed : List Bytes) : Nat → Nat → List (Option Bytes)
  | 0, _ => []
  | calls + 1, index =>
    let (p, index) := stdParseStringNext parsed index
    p :: nexts parsed calls index

variable {alloc : Nat → Bool} {data delim found : Bytes} {l : Parsing} {parsed : List Bytes}

theorem cStr_eq (noNul : 0 ∉ found) : cStr found = found := by
  apply List.takeWhile_eq_self_iff.mpr
  intro c mem
  apply decide_eq_true
  rintro rfl
  exact noNul mem

/-- One turn cuts a part off what is left of the data. -/
theorem parseTurn_parts (alloc : Nat → Bool) (noNul : 0 ∉ data) (nonempty : delim ≠ []) (inside : l.ix < data.length)
    (memory : alloc l.vect.length = true) :
    ∃ part ix, parseTurn alloc data delim l = .ok (.inl ⟨l.vect ++ [part], ix⟩) ∧ l.ix < ix ∧
      ∀ parts, Splits delim (data.drop ix) parts → Splits delim (data.drop l.ix) (part :: parts) := by
  have positive := List.length_pos_iff.mpr nonempty
  have kept (n : Nat) : cStr ((data.drop l.ix).take n) = (data.drop l.ix).take n :=
    cStr_eq fun zero => noNul (List.mem_of_mem_drop (List.mem_of_mem_take zero))
  unfold parseTurn find substr
  rw [if_pos inside, if_pos inside.le]
  dsimp only
  rw [if_pos memory, kept]
  cases found : firstIn delim (data.drop l.ix) with
  | none =>
    refine ⟨_, _, rfl, ?_, ?_⟩
    · exact inside.trans (Nat.lt_add_of_pos_right positive)
    · intro parts splits
      rw [Option.map_none, Option.getD_none, List.drop_of_length_le (by omega)] at splits
      rw [splits.parts_nil nonempty, Option.map_none, Option.getD_none, List.take_of_length_le (by rw [List.length_drop])]
      apply Splits.last
      · intro empty
        have length := congrArg List.length empty
        rw [List.length_drop, List.length_nil] at length
        omega
      · exact firstIn_none found
  | some n =>
    refine ⟨_, _, rfl, ?_, ?_⟩
    · rw [Option.map_some, Option.getD_some]
      omega
    · intro parts splits
      rw [Option.map_some, Option.getD_some, Nat.add_sub_cancel_left]
      apply Splits.cons (firstIn_some found)
      rw [List.drop_drop]
      rwa [Option.map_some, Option.getD_some, Nat.add_assoc] at splits

/-- The loop takes the parts of the data, in their order. -/
theorem parse_splits (noNul : 0 ∉ data) (nonempty : delim ≠ []) (l : Parsing) :
    ∃ parts, Splits delim (data.drop l.ix) parts ∧
      Ends .noReturn (parseTurn (fun _ => true) data delim) l (some (l.vect ++ parts)) := by
  by_cases inside : l.ix < data.length
  · obtain ⟨part, ix, turn, forward, splits⟩ := parseTurn_parts (fun _ => true) noNul nonempty inside rfl
    obtain ⟨parts, rest, ends⟩ := parse_splits noNul nonempty ⟨l.vect ++ [part], ix⟩
    refine ⟨part :: parts, splits parts rest, .head turn ?_⟩
    rw [List.append_cons l.vect part parts]
    exact ends
  · refine ⟨[], ?_, .done ?_⟩
    · rw [List.drop_of_length_le (by omega)]
      exact .nil
    · rw [List.append_nil]
      exact if_neg inside
termination_by data.length - l.ix

theorem nexts_past {index : Nat} (past : parsed.length ≤ index) (calls : Nat) :
    nexts parsed calls index = List.replicate calls none := by
  induction calls with
  | zero => rfl
  | succ calls ih =>
    have none := List.getElem?_eq_none past
    simp only [nexts, stdParseStringNext, stdParseStringAt, none, ih, List.replicate_succ]

theorem nexts_spec (parsed : List Bytes) (index k : Nat) :
    nexts parsed ((parsed.drop index).length + k) index = (parsed.drop index).map some ++ List.replicate k none := by
  by_cases inside : index < parsed.length
  · have here := List.getElem?_eq_getElem inside
    have rest := nexts_spec parsed (index + 1) k
    rw [List.drop_eq_getElem_cons inside, List.length_cons, Nat.add_right_comm, List.map_cons, List.cons_append, ← rest]
    simp only [nexts, stdParseStringNext, stdParseStringAt, here]
  · rw [List.drop_of_length_le (by omega), List.length_nil, Nat.zero_add]
    exact nexts_past (by omega) k
termination_by parsed.length - index

/-- **Tokenising is reversible**, and ends, for every string and every delimiter. -/
theorem parse_reversible (string delim : CString) (nonempty : delim.1 ≠ []) :
    ∃ tokens, Returns (stdParseString (fun _ => true) string delim) (some tokens) ∧
      (∀ token ∈ tokens, ¬ delim.1 <:+: token) ∧
      (delim.1.intercalate tokens = string.1 ∨ delim.1.intercalate tokens ++ delim.1 = string.1) ∧
      ∀ k, nexts tokens (stdParseStringNumTokens tokens + k) 0 = tokens.map some ++ List.replicate k none := by
  obtain ⟨tokens, splits, ends⟩ := parse_splits string.2 nonempty ⟨[], 0⟩
  exact ⟨tokens, ends, splits.free nonempty, splits.joined, nexts_spec tokens 0⟩

theorem parse_reversible_overlap :
    ∃ tokens, Returns (stdParseString (fun _ => true) ⟨[0x61, 0x61, 0x61, 0x62, 0x61, 0x61], by decide⟩
        ⟨[0x61, 0x61], by decide⟩) (some tokens) ∧
      (∀ token ∈ tokens, ¬ [0x61, 0x61] <:+: token) ∧
      (List.intercalate [0x61, 0x61] tokens = [0x61, 0x61, 0x61, 0x62, 0x61, 0x61] ∨
        List.intercalate [0x61, 0x61] tokens ++ [0x61, 0x61] = [0x61, 0x61, 0x61, 0x62, 0x61, 0x61]) ∧
      ∀ k, nexts tokens (stdParseStringNumTokens tokens + k) 0 = tokens.map some ++ List.replicate k none :=
  parse_reversible ⟨[0x61, 0x61, 0x61, 0x62, 0x61, 0x61], by decide⟩ ⟨[0x61, 0x61], by decide⟩ (by decide)

/-! ## The empty delimiter -/

/-- A turn that goes on has come forward. -/
theorem parseTurn_advances (noNul : 0 ∉ data) (nonempty : delim ≠ []) (l : Parsing) :
    (∃ r, parseTurn alloc data delim l = .ok (.inr r)) ∨
      ∃ t, parseTurn alloc data delim l = .ok (.inl t) ∧ data.length - t.ix < data.length - l.ix := by
  by_cases inside : l.ix < data.length
  · by_cases memory : alloc l.vect.length = true
    · obtain ⟨part, ix, turn, forward, _⟩ := parseTurn_parts alloc noNul nonempty inside memory
      exact .inr ⟨_, turn, Nat.sub_lt_sub_left inside forward⟩
    · refine .inl ⟨none, ?_⟩
      unfold parseTurn
      rw [if_pos inside]
      exact if_neg memory
  · exact .inl ⟨some l.vect, if_neg inside⟩

/-- The empty delimiter is found where the search for it starts. -/
theorem firstIn_empty (s : Bytes) : firstIn [] s = some 0 := by
  cases s with
  | nil => rfl
  | cons c s => exact if_pos List.nil_prefix

theorem parse_empty_delimiter (l : Parsing) (inside : l.ix < data.length) (fuel : Nat) :
    loop .noReturn (parseTurn (fun _ => true) data []) fuel l = .error .noReturn := by
  induction fuel generalizing l with
  | zero => rfl
  | succ fuel ih =>
    have turn : ∃ vect, parseTurn (fun _ => true) data [] l = .ok (.inl ⟨vect, l.ix⟩) := by
      unfold parseTurn find
      rw [if_pos inside, if_pos inside.le, firstIn_empty]
      exact ⟨_, rfl⟩
    obtain ⟨vect, turn⟩ := turn
    rw [loop_inl fuel turn]
    exact ih ⟨vect, l.ix⟩ inside

/-- **When the loop ends in time.** `n` iterations are `n + 1` turns, with the
last test of its condition. -/
theorem parse_bounded_iff (string delim : CString) :
    (∀ alloc, ∃ result, stdParseString alloc string delim (string.1.length + 2) = .ok result) ↔
      delim.1 ≠ [] ∨ string.1 = [] := by
  constructor
  · intro bounded
    by_contra endless
    obtain ⟨empty, some⟩ := not_or.mp endless
    obtain ⟨result, run⟩ := bounded fun _ => true
    have inside := List.length_pos_iff.mpr some
    unfold stdParseString at run
    rw [not_not.mp empty, parse_empty_delimiter ⟨[], 0⟩ inside] at run
    cases run
  · rintro (nonempty | empty) alloc
    · apply loop_measure (parseTurn_advances string.2 nonempty)
      dsimp only
      omega
    · rw [stdParseString, empty]
      exact ⟨some [], rfl⟩

/-- The string `a` and the empty delimiter: no number of iterations is enough. -/
theorem parse_endless : ¬ ∀ alloc, ∃ result,
    stdParseString alloc ⟨[0x61], by decide⟩ ⟨[], by decide⟩ ([0x61].length + 2) = .ok result := by
  intro bounded
  obtain ⟨result, run⟩ := bounded fun _ => true
  have endless : stdParseString (fun _ => true) ⟨[0x61], by decide⟩ ⟨[], by decide⟩ 3 = .error .noReturn := by decide
  cases run.symm.trans endless

end SonicUtils.Strings
