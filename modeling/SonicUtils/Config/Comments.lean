import SonicUtils.Config.Lines

/-!
# Comments in a config file

A line that begins with `#` is a comment, as the example in
`std_config_file.h` has it. `load_file` does not look for the `#`: a comment is
a line like any other for it, and one that is longer than the buffer is several.

* `reads_strings`: the strings that `fgets` gives of any text;
* `withoutComments`, `lines_withoutComments`: the text without its comments;
* `same_entries_iff`: when the comments change nothing.
-/

namespace SonicUtils.Config

open Loop

variable {text line : Bytes} {ls : List Bytes} {n : Nat}

def hash : UInt8 := 0x23

def isComment (line : Bytes) : Bool := line.head? == some hash

def withoutComments (text : Bytes) : Bytes := ((lines text).filter fun line => !isComment line).flatten

/-! ## Strings of a line -/

/-- A line as `fgets` gives it, in strings that fit into the buffer. -/
def pieces (line : Bytes) : List Bytes :=
  if line = [] then [] else line.take 1023 :: pieces (line.drop 1023)
termination_by line.length
decreasing_by
  have some_ : line.length ≠ 0 := by simpa using ‹¬line = []›
  rw [List.length_drop]
  omega

/-- A string of a file, and whether it is one of a comment. -/
structure Piece where
  comment : Bool
  data : Bytes
  deriving DecidableEq

def strings (text : Bytes) : List Piece :=
  (lines text).flatMap fun line => (pieces line).map fun piece => ⟨isComment line, ofBuffer piece⟩

theorem lines_eq_cons (split : lines text = line :: ls) :
    (∃ l rest, newline ∉ l ∧ line = l ++ [newline] ∧ lines rest = ls) ∨
      (newline ∉ line ∧ line ≠ [] ∧ ls = []) := by
  induction text generalizing line with
  | nil => cases split
  | cons c text ih =>
    rw [lines] at split
    split at split
    · rename_i last
      cases split
      exact .inl ⟨[], text, by simp, by simp [last], rfl⟩
    · rename_i inside
      cases rest : lines text with
      | nil =>
        rw [rest] at split
        cases split
        exact .inr ⟨by simpa using Ne.symm inside, by simp, rfl⟩
      | cons line' ls' =>
        rw [rest] at split
        cases split
        cases ih rest with
        | inl whole =>
          obtain ⟨l, after, noNewline, rfl, same⟩ := whole
          exact .inl ⟨c :: l, after, by simp [noNewline, Ne.symm inside], rfl, same⟩
        | inr last =>
          obtain ⟨noNewline, _, rfl⟩ := last
          exact .inr ⟨by simp [noNewline, Ne.symm inside], by simp, rfl⟩

theorem lines_single (noNewline : newline ∉ line) (some_ : line ≠ []) : lines line = [line] := by
  induction line with
  | nil => exact absurd rfl some_
  | cons c line ih =>
    simp only [List.mem_cons, not_or] at noNewline
    rw [lines, if_neg (Ne.symm noNewline.1)]
    by_cases last : line = []
    · rw [last, lines]
    · rw [ih noNewline.2 last]

/-- A longer line is cut. -/
theorem getLine_cut (split : lines text = line :: ls) (long : n < line.length) :
    ∃ rest, getLine n text = (line.take n, rest) ∧ lines rest = line.drop n :: ls := by
  induction n generalizing text line with
  | zero => exact ⟨text, by simp [getLine], by simpa using split⟩
  | succ n ih =>
    cases text with
    | nil => cases split
    | cons c text =>
      rw [lines] at split
      split at split
      · cases split
        simp at long
      · rename_i inside
        cases rest : lines text with
        | nil =>
          rw [rest] at split
          cases split
          simp at long
        | cons line' ls' =>
          rw [rest] at split
          cases split
          obtain ⟨left, read, same⟩ := ih rest (Nat.lt_of_succ_lt_succ long)
          exact ⟨left, by simp [getLine, inside, read], same⟩

theorem pieces_nil : pieces [] = [] := by rw [pieces, if_pos rfl]

theorem pieces_cons (some_ : line ≠ []) : pieces line = line.take 1023 :: pieces (line.drop 1023) := by
  rw [pieces, if_neg some_]

theorem line_ne_nil (split : lines text = line :: ls) : line ≠ [] := by
  cases lines_eq_cons split with
  | inl whole =>
    obtain ⟨l, _, _, rfl, _⟩ := whole
    simp
  | inr last => exact last.2.1

theorem fgets_of_lines {rest : Bytes} (split : lines text = line :: ls) (read : getLine 1023 text = (line.take 1023, rest)) :
    fgets buffLen text = some (line.take 1023, rest) := by
  cases text with
  | nil => cases split
  | cons c text => exact congrArg some read

/-- The strings of one line, and then those of the rest. -/
theorem Reads.cut {rests : List Bytes} (split : lines text = line :: ls)
    (more : ∀ rest, lines rest = ls → Reads rest rests) : Reads text (pieces line ++ rests) := by
  induction size : line.length using Nat.strong_induction_on generalizing text line with
  | _ size ih =>
    subst size
    rw [pieces_cons (line_ne_nil split)]
    by_cases long : 1023 < line.length
    · obtain ⟨rest, read, same⟩ := getLine_cut split long
      apply Reads.read (fgets_of_lines split read)
      exact ih (line.drop 1023).length (by rw [List.length_drop]; omega) same rfl
    · obtain ⟨rest, read, same⟩ := getLine_lines split (Nat.le_of_not_lt long)
      rw [List.drop_eq_nil_of_le (Nat.le_of_not_lt long), pieces_nil]
      apply Reads.read _ (more rest same)
      apply fgets_of_lines split
      rw [read, List.take_of_length_le (Nat.le_of_not_lt long)]

theorem pieces_short (some_ : line ≠ []) (fits : line.length ≤ 1023) : pieces line = [line] := by
  rw [pieces_cons some_, List.take_of_length_le fits, List.drop_eq_nil_of_le fits, pieces_nil]

theorem reads_pieces (text : Bytes) : Reads text ((lines text).flatMap pieces) := by
  generalize split : lines text = ls
  induction ls generalizing text with
  | nil =>
    obtain rfl := lines_eq_nil.mp split
    exact .stop rfl
  | cons line ls ih => exact Reads.cut split ih

theorem loadLine_ofBuffer (s : Bytes × ConfigFile) (piece : Bytes) : loadLine s piece = takeLine s (ofBuffer piece) := by
  have noNul : 0 ∉ ofBuffer piece := by
    intro zero
    have nonzero := List.mem_takeWhile_imp zero
    simp at nonzero
  have same : ofBuffer (ofBuffer piece) = ofBuffer piece := ofBuffer_eq noNul
  rw [← loadLine_eq noNul, loadLine, loadLine, same]

/-- What the strings of a file say, whatever they contain. -/
theorem loads_strings (text : Bytes) : Returns (loadFile text) (said ((strings text).map Piece.data)) := by
  have run := (reads_pieces text).loads ([], ∅)
  have each : ((lines text).flatMap pieces).foldl loadLine ([], ∅) =
      ((strings text).map Piece.data).foldl takeLine ([], ∅) := by
    have data : (strings text).map Piece.data = ((lines text).flatMap pieces).map ofBuffer := by
      simp only [strings, List.map_flatMap, List.map_map, Function.comp_def]
    rw [data, List.foldl_map]
    apply List.foldl_ext
    intro s piece _
    exact loadLine_ofBuffer s piece
  rw [each] at run
  exact run

/-! ## The text without its comments -/

theorem lines_kept {kept : List Bytes} (part : kept.Sublist (lines text)) : lines kept.flatten = kept := by
  generalize split : lines text = ls at part
  induction part generalizing text with
  | slnil => rfl
  | @cons kept ls line part ih =>
    cases lines_eq_cons split with
    | inl whole =>
      obtain ⟨_, rest, _, _, same⟩ := whole
      exact ih same
    | inr last =>
      obtain ⟨_, _, rfl⟩ := last
      have nothing : lines [] = [] := rfl
      exact ih nothing
  | @cons_cons kept ls line part ih =>
    cases lines_eq_cons split with
    | inl whole =>
      obtain ⟨l, rest, noNewline, rfl, same⟩ := whole
      have split' := lines_append noNewline kept.flatten
      rw [ih same] at split'
      simpa using split'
    | inr last =>
      obtain ⟨noNewline, some_, rfl⟩ := last
      obtain rfl := List.eq_nil_of_sublist_nil part
      rw [List.flatten_singleton]
      exact lines_single noNewline some_

theorem lines_withoutComments (text : Bytes) :
    lines (withoutComments text) = (lines text).filter fun line => !isComment line :=
  lines_kept List.filter_sublist

theorem strings_withoutComments (text : Bytes) :
    strings (withoutComments text) = (strings text).filter fun piece => !piece.comment := by
  rw [strings, strings, lines_withoutComments]
  induction lines text with
  | nil => rfl
  | cons line ls ih =>
    rw [List.flatMap_cons, List.filter_append, ← ih]
    cases comment : isComment line with
    | true => simp [comment]
    | false => simp [comment, List.filter_eq_self.mpr]

/-! ## What comments change -/

/-- What one string sets. -/
structure Setting where
  comment : Bool
  group : Bytes
  key : Bytes
  value : Bytes
  deriving DecidableEq

/-- What strings set, the first of them in the given group. -/
def settings (group : Bytes) : List Piece → List Setting
  | [] => []
  | piece :: rest =>
    match groupOf piece.data with
    | some group => settings group rest
    | none =>
      match pairOf piece.data with
      | some (key, value) => ⟨piece.comment, group, key, value⟩ :: settings group rest
      | none => settings group rest

def Setting.At (s : Setting) (group key : Bytes) : Prop := s.group = group ∧ s.key = key

instance (s : Setting) (group key : Bytes) : Decidable (s.At group key) :=
  inferInstanceAs (Decidable (_ ∧ _))

/-- What a comment sets is set again after it, or it was so before it, by lines that are no comments. -/
def Harmless (l : List Setting) : Prop :=
  ∀ before s after, l = before ++ s :: after → s.comment = true →
    (∃ t ∈ after, t.At s.group s.key) ∨
      ∃ earlier t between, before = earlier ++ t :: between ∧ t.comment = false ∧ t.At s.group s.key ∧ t.value = s.value ∧
        ∀ u ∈ between, u.comment = false → ¬u.At s.group s.key

def lastValue (group key : Bytes) : List Setting → Option Bytes
  | [] => none
  | s :: l => (lastValue group key l).or (if s.At group key then some s.value else none)

def plain (l : List Setting) : List Setting := l.filter fun s => !s.comment

theorem get_foldl_takeLine (ss : List Piece) (s : Bytes × ConfigFile) (group key : Bytes) :
    get ((ss.map Piece.data).foldl takeLine s).2 group key =
      (lastValue group key (settings s.1 ss)).or (get s.2 group key) := by
  induction ss generalizing s with
  | nil => rfl
  | cons piece ss ih =>
    rw [List.map_cons, List.foldl_cons, ih, takeLine, settings]
    cases groupOf piece.data with
    | some group' => rfl
    | none =>
      cases pairOf piece.data with
      | none => rfl
      | some pair =>
        by_cases here : s.1 = group ∧ pair.1 = key
        · simp [lastValue, get_set, Setting.At, here]
        · simp [lastValue, get_set, Setting.At, here]

theorem settings_plain {ss : List Piece} (noGroup : ∀ piece ∈ ss, piece.comment = true → groupOf piece.data = none)
    (group : Bytes) : settings group (ss.filter fun piece => !piece.comment) = plain (settings group ss) := by
  induction ss generalizing group with
  | nil => rfl
  | cons piece ss ih =>
    rw [List.forall_mem_cons] at noGroup
    obtain ⟨first, rest⟩ := noGroup
    cases comment : piece.comment with
    | true =>
      rw [List.filter_cons_of_neg (by simp [comment]), ih rest, settings, first comment]
      cases pairOf piece.data with
      | none => rfl
      | some pair => simp [plain, comment]
    | false =>
      rw [List.filter_cons_of_pos (by simp [comment]), settings, settings]
      cases groupOf piece.data with
      | some group' => exact ih rest group'
      | none =>
        cases pairOf piece.data with
        | none => exact ih rest group
        | some pair => simp [plain, comment, ih rest group]

variable {l before after : List Setting} {s : Setting} {group key : Bytes}

theorem lastValue_none (never : ∀ t ∈ l, ¬t.At group key) : lastValue group key l = none := by
  induction l with
  | nil => rfl
  | cons t l ih =>
    rw [List.forall_mem_cons] at never
    rw [lastValue, ih never.2, if_neg never.1]
    rfl

theorem lastValue_append (l l' : List Setting) :
    lastValue group key (l ++ l') = (lastValue group key l').or (lastValue group key l) := by
  induction l with
  | nil => simp [lastValue]
  | cons t l ih => simp [lastValue, ih, Option.or_assoc]

theorem lastValue_split (here : s.At group key) (last : ∀ t ∈ after, ¬t.At group key) :
    lastValue group key (before ++ s :: after) = some s.value := by
  rw [lastValue_append, lastValue, lastValue_none last, if_pos here]
  rfl

/-- Some setting of an entry is the last one. -/
theorem exists_last (l : List Setting) (group key : Bytes) :
    (∀ t ∈ l, ¬t.At group key) ∨
      ∃ before s after, l = before ++ s :: after ∧ s.At group key ∧ ∀ t ∈ after, ¬t.At group key := by
  classical
  induction l with
  | nil => exact .inl (by simp)
  | cons s l ih =>
    cases ih with
    | inr later =>
      obtain ⟨before, t, after, rfl, found⟩ := later
      exact .inr ⟨s :: before, t, after, rfl, found⟩
    | inl never =>
      by_cases here : s.At group key
      · exact .inr ⟨[], s, l, rfl, here, never⟩
      · exact .inl (List.forall_mem_cons.mpr ⟨here, never⟩)

theorem plain_append (l l' : List Setting) : plain (l ++ l') = plain l ++ plain l' := List.filter_append l l'

theorem not_at_plain (never : ∀ t ∈ l, ¬t.At group key) : ∀ t ∈ plain l, ¬t.At group key := by
  intro t ht
  exact never t (List.mem_filter.mp ht).1

/-- The value that an entry had before, from lines that are no comments. -/
theorem lastValue_plain_some {value : Bytes} :
    lastValue group key (plain l) = some value ↔
      ∃ earlier t between, l = earlier ++ t :: between ∧ t.comment = false ∧ t.At group key ∧ t.value = value ∧
        ∀ u ∈ between, u.comment = false → ¬u.At group key := by
  constructor
  · intro found
    induction l using List.reverseRecOn with
    | nil => cases found
    | append_singleton l t ih =>
      rw [plain_append, lastValue_append] at found
      by_cases here : t.comment = false ∧ t.At group key
      · refine ⟨l, t, [], rfl, here.1, here.2, ?_, by simp⟩
        have whole := @lastValue_split [] [] t group key here.2 (by simp)
        have same : plain [t] = [t] := by simp [plain, here.1]
        rw [same, ← List.nil_append [t], whole, Option.some_or, Option.some.injEq] at found
        exact found
      · have never : ∀ u ∈ plain [t], ¬u.At group key := by
          intro u hu at_
          obtain ⟨mem, plain_⟩ := List.mem_filter.mp hu
          obtain rfl := List.mem_singleton.mp mem
          exact here ⟨by simpa using plain_, at_⟩
        rw [lastValue_none never, Option.none_or] at found
        obtain ⟨earlier, u, between, rfl, facts, at_, value_, last⟩ := ih found
        refine ⟨earlier, u, between ++ [t], by simp, facts, at_, value_, ?_⟩
        intro v hv plain_ at_v
        cases List.mem_append.mp hv with
        | inl mem => exact last v mem plain_ at_v
        | inr mem =>
          obtain rfl := List.mem_singleton.mp mem
          exact here ⟨plain_, at_v⟩
  · intro ⟨earlier, t, between, split, facts, here, value_, last⟩
    have never : ∀ u ∈ plain between, ¬u.At group key := by
      intro u hu
      obtain ⟨mem, plain_⟩ := List.mem_filter.mp hu
      exact last u mem (by simpa using plain_)
    have same : plain l = plain earlier ++ t :: plain between := by simp [split, plain, facts]
    rw [same, lastValue_split here never, value_]

theorem harmless_iff : Harmless l ↔ ∀ group key, lastValue group key l = lastValue group key (plain l) := by
  constructor
  · intro harmless group key
    cases exists_last l group key with
    | inl never => rw [lastValue_none never, lastValue_none (not_at_plain never)]
    | inr found =>
      obtain ⟨before, s, after, rfl, here, last⟩ := found
      rw [lastValue_split here last, plain_append, lastValue_append]
      cases comment : s.comment with
      | false =>
        have same : plain (s :: after) = [] ++ s :: plain after := by simp [plain, comment]
        rw [same, lastValue_split here (not_at_plain last)]
        rfl
      | true =>
        have same : plain (s :: after) = plain after := by simp [plain, comment]
        rw [same, lastValue_none (not_at_plain last), Option.none_or]
        cases harmless before s after rfl comment with
        | inl again =>
          obtain ⟨t, mem, entry⟩ := again
          obtain ⟨rfl, rfl⟩ := here
          exact absurd entry (last t mem)
        | inr already =>
          obtain ⟨rfl, rfl⟩ := here
          exact (lastValue_plain_some.mpr already).symm
  · intro same before s after split comment
    by_cases again : ∃ t ∈ after, t.At s.group s.key
    · exact .inl again
    · have last : ∀ t ∈ after, ¬t.At s.group s.key := by
        intro t mem here
        exact again ⟨t, mem, here⟩
      have value_ := same s.group s.key
      have rest : plain (s :: after) = plain after := by simp [plain, comment]
      rw [split, lastValue_split ⟨rfl, rfl⟩ last, plain_append, lastValue_append, rest,
        lastValue_none (not_at_plain last), Option.none_or] at value_
      exact .inr (lastValue_plain_some.mp value_.symm)

/-- Loading the two files gives the same entries. -/
def SameEntries (text text' : Bytes) : Prop :=
  ∃ d d', Returns (loadFile text) d ∧ Returns (loadFile text') d' ∧ ∀ group key, get d group key = get d' group key

/-- The comments of a file change nothing if and only if what they set is set
anyway. This is for comments that begin no group, as those that fit into the
buffer do not. -/
theorem same_entries_iff (text : Bytes)
    (noGroup : ∀ piece ∈ strings text, piece.comment = true → groupOf piece.data = none) :
    SameEntries text (withoutComments text) ↔ Harmless (settings [] (strings text)) := by
  have entries (group key : Bytes) (ss : List Piece) :
      get (said (ss.map Piece.data)) group key = lastValue group key (settings [] ss) := by
    have said_ := get_foldl_takeLine ss ([], ∅) group key
    have empty : get ∅ group key = none := by simp [get]
    rw [empty, Option.or_none] at said_
    exact said_
  rw [harmless_iff, ← settings_plain noGroup, ← strings_withoutComments]
  constructor
  · rintro ⟨d, d', loaded, loaded', same⟩ group key
    rw [← entries, ← entries, (loads_strings text).unique loaded, (loads_strings _).unique loaded']
    exact same group key
  · intro same
    refine ⟨_, _, loads_strings text, loads_strings _, ?_⟩
    intro group key
    rw [entries, entries]
    exact same group key

/-- `# a`, and then `a=b`. -/
def remark : Bytes := [hash, 0x20, 0x61, newline, 0x61, equals, 0x62, newline]

theorem strings_remark :
    strings remark = [⟨true, [hash, 0x20, 0x61, newline]⟩, ⟨false, [0x61, equals, 0x62, newline]⟩] := by
  have split : lines remark = [[hash, 0x20, 0x61, newline], [0x61, equals, 0x62, newline]] := by decide
  rw [strings, split, List.flatMap_cons, List.flatMap_cons, pieces_short (by simp) (by simp),
    pieces_short (by simp) (by simp)]
  decide

theorem same_entries_iff_remark : SameEntries remark (withoutComments remark) := by
  refine (same_entries_iff remark ?_).mpr ?_
  · rw [strings_remark]
    decide
  · have only : settings [] (strings remark) = [⟨false, [], [0x61], [0x62]⟩] := by
      rw [strings_remark]
      decide
    rw [only]
    intro before s after split comment
    have mem : s ∈ [(⟨false, [], [0x61], [0x62]⟩ : Setting)] := split ▸ by simp
    obtain rfl := List.mem_singleton.mp mem
    cases comment

/-- The comment `#a=b` sets the key `#a`. -/
theorem comment_sets : ∃ text, lines text = [text] ∧ isComment text = true ∧ ¬SameEntries text (withoutComments text) := by
  refine ⟨[hash, 0x61, equals, 0x62, newline], by decide, by decide, ?_⟩
  intro ⟨d, d', loaded, loaded', same⟩
  have whole := loads_strings [hash, 0x61, equals, 0x62, newline]
  have rest := loads_strings (withoutComments [hash, 0x61, equals, 0x62, newline])
  have split : lines [hash, 0x61, equals, 0x62, newline] = [[hash, 0x61, equals, 0x62, newline]] := by decide
  have nothing : withoutComments [hash, 0x61, equals, 0x62, newline] = [] := by decide
  have one : strings [hash, 0x61, equals, 0x62, newline] = [⟨true, [hash, 0x61, equals, 0x62, newline]⟩] := by
    rw [strings, split, List.flatMap_singleton, pieces_short (by simp) (by simp)]
    decide
  rw [nothing] at rest loaded'
  rw [one] at whole
  have entry := same [] [hash, 0x61]
  rw [loaded.unique whole, loaded'.unique rest] at entry
  have set_ : said [[hash, 0x61, equals, 0x62, newline]] = set ∅ [] [hash, 0x61] [0x62] := rfl
  have empty : get (said ((strings []).map Piece.data)) [] [hash, 0x61] = none := rfl
  rw [empty, List.map_singleton, set_, get_set] at entry
  simp at entry

end SonicUtils.Config
