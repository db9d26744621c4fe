import SonicUtils.Config.Comments
import SonicUtils.Config.RoundTrip

/-!
# Saving what was loaded

Any file may be loaded, and the handle written to a file that is loaded again.

* `strings_readable`: what `fgets` gives of any file;
* `loaded_sound`: what the groups, keys and values of a loaded handle are like;
* `said_strings_write`: the file that such a handle is written to, line by line;
* `saved_iff`: when the same entries are loaded from it.
-/

namespace SonicUtils.Config

open Loop

variable {text line data l : Bytes} {d : ConfigFile} {s : Bytes × ConfigFile} {group key value : Bytes}
  {ls : List Bytes}

/-! ## What is read -/

/-- There is no newline but at the end. -/
def OneLine (l : Bytes) : Prop := ∀ a b, l = a ++ newline :: b → b = []

theorem OneLine.within {part : Bytes} (h : OneLine l) (inside : part <:+: l) : OneLine part := by
  obtain ⟨before, after, rfl⟩ := inside
  rintro a b rfl
  have rest : b ++ after = [] := h (before ++ a) (b ++ after) (by simp)
  exact (List.append_eq_nil_iff.mp rest).1

theorem oneLine_of_notMem (inside : newline ∉ l) : OneLine l := by
  rintro a b rfl
  simp at inside

theorem oneLine_lines (mem : line ∈ lines text) : OneLine line := by
  generalize split : lines text = ls at mem
  induction ls generalizing text with
  | nil => cases mem
  | cons first ls ih =>
    obtain ⟨l, rest, inside, rfl, same⟩ | ⟨inside, _, rfl⟩ := lines_eq_cons split
    · cases mem with
      | head =>
        intro a b whole
        obtain ⟨mid, rfl, tail⟩ | ⟨mid, rfl, tail⟩ := List.append_eq_append_iff.mp whole
        · cases mid with
          | nil => exact (List.cons.inj tail).2.symm
          | cons c mid => simp at tail
        · cases mid with
          | nil => exact (List.cons.inj tail).2
          | cons c mid =>
            have here : newline ∈ a ++ c :: mid := by
              rw [(List.cons.inj tail).1]
              simp
            exact absurd here inside
      | tail _ mem => exact ih same mem
    · obtain rfl := List.mem_singleton.mp mem
      exact oneLine_of_notMem inside

theorem mem_pieces {piece : Bytes} (mem : piece ∈ pieces line) : piece <:+: line ∧ piece.length ≤ 1023 := by
  induction size : line.length using Nat.strong_induction_on generalizing line with
  | _ size ih =>
    by_cases none_ : line = []
    · rw [none_, pieces_nil] at mem
      cases mem
    · rw [pieces_cons none_] at mem
      cases mem with
      | head => exact ⟨(List.take_prefix 1023 line).isInfix, List.length_take_le ..⟩
      | tail _ mem =>
        have some_ : 0 < line.length := List.length_pos_iff.mpr none_
        obtain ⟨inside, short⟩ := ih (line.drop 1023).length (by rw [List.length_drop]; omega) mem rfl
        exact ⟨inside.trans (List.drop_suffix 1023 line).isInfix, short⟩

/-- A string that `load_file` looks at. -/
structure Readable (data : Bytes) : Prop where
  noNul : 0 ∉ data
  oneLine : OneLine data
  short : data.length ≤ 1023

theorem strings_readable (text : Bytes) : ∀ data ∈ (strings text).map Piece.data, Readable data := by
  intro data mem
  obtain ⟨p, found, rfl⟩ := List.mem_map.mp mem
  obtain ⟨line, isLine, found⟩ := List.mem_flatMap.mp found
  obtain ⟨piece, isPiece, rfl⟩ := List.mem_map.mp found
  obtain ⟨inside, short⟩ := mem_pieces isPiece
  have start : ofBuffer piece <+: piece := List.takeWhile_prefix _
  refine ⟨fun zero => ?_, (oneLine_lines isLine).within (start.isInfix.trans inside), start.length_le.trans short⟩
  have nonzero := List.mem_takeWhile_imp zero
  simp at nonzero

/-! ## What is loaded -/

/-- A group that a file can have. -/
structure Header (group : Bytes) : Prop where
  noNul : 0 ∉ group
  oneLine : newline ∉ group
  noClose : closeS ∉ group
  short : group.length ≤ 1021

/-- An entry that a file can have. -/
structure Entry (key value : Bytes) : Prop where
  noNul : 0 ∉ key ∧ 0 ∉ value
  oneLine : newline ∉ key ∧ newline ∉ value
  noEquals : equals ∉ key
  keyTrimmed : Trimmed key
  valueTrimmed : Trimmed value
  short : key.length + value.length ≤ 1022

/-- Groups and entries that a file can have. -/
def Sound (d : ConfigFile) : Prop :=
  ∀ (group : Bytes) (keys : MapOfStrings), d[group]? = some keys →
    Header group ∧ ∀ key value : Bytes, keys[key]? = some value → Entry key value

theorem trim_sublist (s : Bytes) : (trim s).Sublist s :=
  (List.dropWhile_sublist _).trans (List.rdropWhile_prefix _ _).sublist

theorem trim_trimmed (s : Bytes) : Trimmed (trim s) := by
  constructor
  · intro c first
    have kept := List.head?_dropWhile_not isspace (rtrim s)
    rw [trim, ltrim] at first
    rw [Option.mem_def] at first
    rw [first] at kept
    simpa using kept
  · intro c last
    have suffix : trim s <:+ rtrim s := List.dropWhile_suffix _
    obtain ⟨before, whole⟩ := suffix
    have end_ : (rtrim s).getLast? = some c := by
      rw [← whole, List.getLast?_append, last]
      rfl
    have ne : rtrim s ≠ [] := by
      intro none_
      rw [none_] at end_
      cases end_
    have kept := List.rdropWhile_last_not isspace s ne
    rw [List.getLast?_eq_some_getLast ne] at end_
    obtain rfl := Option.some.inj end_
    exact kept

/-- A newline at the end of a string does not get into what is trimmed. -/
theorem newline_trim (h : OneLine l) : newline ∉ trim l := by
  intro mem
  obtain ⟨a, b, rfl⟩ := List.append_of_mem ((trim_sublist l).mem mem)
  obtain rfl := h a b rfl
  rw [trim_newline] at mem
  obtain ⟨a', b', rfl⟩ := List.append_of_mem ((trim_sublist a).mem mem)
  have more := h a' (b' ++ [newline]) (by simp)
  simp at more

/-- A string up to the first of some character, and from there on. -/
theorem split_at {c : UInt8} (mem : c ∈ l) :
    c ∉ l.takeWhile (· ≠ c) ∧ l = l.takeWhile (· ≠ c) ++ c :: (l.dropWhile (· ≠ c)).tail := by
  have absent : c ∉ l.takeWhile (· ≠ c) := by
    intro inside
    have other := List.mem_takeWhile_imp inside
    simp at other
  refine ⟨absent, ?_⟩
  have whole := List.takeWhile_append_dropWhile (p := (· ≠ c)) (l := l)
  have first := List.head?_dropWhile_not (· ≠ c) l
  cases rest : l.dropWhile (· ≠ c) with
  | nil =>
    rw [rest, List.append_nil] at whole
    rw [whole] at absent
    exact absurd mem absent
  | cons a rest' =>
    rw [rest] at whole first
    obtain rfl : a = c := by simpa using first
    exact whole.symm

theorem header_of (h : Readable data) (here : groupOf data = some group) : Header group := by
  cases data with
  | nil => cases here
  | cons c rest =>
    rw [groupOf] at here
    split at here
    · rename_i closed
      obtain rfl := Option.some.inj here
      obtain ⟨absent, whole⟩ := split_at closed.2
      have inside : (rest.takeWhile (· ≠ closeS)) <:+: c :: rest :=
        (List.takeWhile_prefix _).isInfix.trans (List.suffix_cons c rest).isInfix
      refine ⟨fun zero => h.noNul (inside.subset zero), fun mem => ?_, absent, ?_⟩
      · obtain ⟨a, b, split⟩ := List.append_of_mem mem
        rw [split] at whole
        have none_ := h.oneLine (c :: a) (b ++ closeS :: (rest.dropWhile (· ≠ closeS)).tail) (by
          rw [List.cons_append]
          nth_rewrite 1 [whole]
          simp)
        simp at none_
      · have short := h.short
        have length := congrArg List.length whole
        simp only [List.length_append, List.length_cons] at short length
        omega
    · cases here

theorem entry_of (h : Readable data) (here : pairOf data = some (key, value)) : Entry key value := by
  rw [pairOf] at here
  split at here
  · rename_i some_
    obtain ⟨rfl, rfl⟩ := Prod.mk.inj (Option.some.inj here)
    obtain ⟨absent, whole⟩ := split_at some_
    have before : data.takeWhile (· ≠ equals) <:+: data := (List.takeWhile_prefix _).isInfix
    have after : (data.dropWhile (· ≠ equals)).tail <:+: data :=
      ((List.tail_suffix _).trans (List.dropWhile_suffix _)).isInfix
    refine ⟨⟨?_, ?_⟩, ⟨newline_trim (h.oneLine.within before), newline_trim (h.oneLine.within after)⟩, ?_, trim_trimmed _,
      trim_trimmed _, ?_⟩
    · exact fun zero => h.noNul (before.subset ((trim_sublist _).mem zero))
    · exact fun zero => h.noNul (after.subset ((trim_sublist _).mem zero))
    · exact fun mem => absent ((trim_sublist _).mem mem)
    · have short := h.short
      have length := congrArg List.length whole
      have keyLength := (trim_sublist (data.takeWhile (· ≠ equals))).length_le
      have valueLength := (trim_sublist (data.dropWhile (· ≠ equals)).tail).length_le
      simp only [List.length_append, List.length_cons] at length
      omega
  · cases here

theorem Sound.set (h : Sound d) (header : Header group) (entry : Entry key value) : Sound (set d group key value) := by
  intro g keys found
  rw [Config.set, Std.TreeMap.getElem?_insert] at found
  split at found
  · rename_i same
    obtain rfl := Std.LawfulEqCmp.compare_eq_iff_eq.mp same
    cases found
    refine ⟨header, fun k v here => ?_⟩
    rw [Std.TreeMap.getElem?_insert] at here
    split at here
    · rename_i same
      obtain rfl := Std.LawfulEqCmp.compare_eq_iff_eq.mp same
      cases here
      exact entry
    · cases before : d[group]? with
      | none => simp [Std.TreeMap.getD_eq_getD_getElem?, before] at here
      | some keys =>
        simp only [Std.TreeMap.getD_eq_getD_getElem?, before, Option.getD_some] at here
        exact (h group keys before).2 k v here
  · exact h g keys found

theorem takeLine_sound (readable : Readable data) (header : Header s.1) (sound : Sound s.2) :
    Header (takeLine s data).1 ∧ Sound (takeLine s data).2 := by
  rw [takeLine]
  cases group_ : groupOf data with
  | some g => exact ⟨header_of readable group_, sound⟩
  | none =>
    cases pair : pairOf data with
    | none => exact ⟨header, sound⟩
    | some pair' => exact ⟨header, sound.set header (entry_of readable pair)⟩

/-- What a loaded handle is like. -/
theorem loaded_sound (text : Bytes) : Sound (said ((strings text).map Piece.data)) := by
  have readable := strings_readable text
  generalize (strings text).map Piece.data = ls at readable
  have start : Header ([] : Bytes) ∧ Sound ∅ := ⟨⟨by simp, by simp, by simp, by simp⟩, fun _ _ none_ => by simp at none_⟩
  have all : ∀ s : Bytes × ConfigFile, Header s.1 ∧ Sound s.2 → Sound (ls.foldl takeLine s).2 := by
    induction ls with
    | nil => exact fun s h => h.2
    | cons data ls ih =>
      obtain ⟨first, rest⟩ := List.forall_mem_cons.mp readable
      exact fun s h => ih rest _ (takeLine_sound first h.1 h.2)
  exact all ([], ∅) start

/-! ## What is written -/

/-- The newline at the end of a line does not count. -/
theorem takeLine_newline (s : Bytes × ConfigFile) (l : Bytes) : takeLine s (l ++ [newline]) = takeLine s l := by
  have apart : closeS ≠ newline ∧ equals ≠ newline := by decide
  have same : groupOf (l ++ [newline]) = groupOf l := by
    cases l with
    | nil => rfl
    | cons c rest =>
      rw [List.cons_append, groupOf, groupOf]
      by_cases closed : closeS ∈ rest
      · have before : (rest ++ [newline]).takeWhile (· ≠ closeS) = rest.takeWhile (· ≠ closeS) := by
          rw [List.takeWhile_append, if_neg]
          intro whole
          have all : rest.takeWhile (· ≠ closeS) = rest := (List.takeWhile_prefix _).eq_of_length whole
          have absent := (split_at closed).1
          rw [all] at absent
          exact absent closed
        simp only [List.mem_append, closed, true_or, and_true, before]
      · simp [closed, apart]
  have pair : pairOf (l ++ [newline]) = pairOf l := by
    rw [pairOf, pairOf]
    by_cases some_ : equals ∈ l
    · obtain ⟨absent, whole⟩ := split_at some_
      have kept : ∀ c ∈ l.takeWhile (· ≠ equals), decide (c ≠ equals) = true := fun c mem =>
        decide_eq_true fun here => absent (here ▸ mem)
      have before : (l ++ [newline]).takeWhile (· ≠ equals) = l.takeWhile (· ≠ equals) := by
        nth_rewrite 1 [whole]
        rw [List.append_assoc, List.takeWhile_append_of_pos kept]
        simp
      have after : (l ++ [newline]).dropWhile (· ≠ equals) = l.dropWhile (· ≠ equals) ++ [newline] := by
        have here : l.dropWhile (· ≠ equals) = equals :: (l.dropWhile (· ≠ equals)).tail := by
          nth_rewrite 1 [whole]
          rw [List.dropWhile_append_of_pos kept]
          simp
        nth_rewrite 1 [whole]
        rw [List.append_assoc, List.dropWhile_append_of_pos kept, here]
        simp
      have tail : (l.dropWhile (· ≠ equals) ++ [newline]).tail = (l.dropWhile (· ≠ equals)).tail ++ [newline] := by
        refine List.tail_append_of_ne_nil fun none_ => ?_
        have found : (l.dropWhile (· ≠ equals)) ≠ [] := by
          nth_rewrite 1 [whole]
          rw [List.dropWhile_append_of_pos kept]
          simp
        exact found none_
      rw [if_pos (List.mem_append_left _ some_), if_pos some_, before, after, tail, trim_newline]
    · rw [if_neg (by simp [some_, apart]), if_neg some_]
  rw [takeLine, takeLine, same, pair]

/-- A line is read as a whole, or its newline by itself. -/
theorem foldl_pieces (short : l.length ≤ 1023) (s : Bytes × ConfigFile) :
    (pieces (l ++ [newline])).foldl takeLine s = takeLine s (l ++ [newline]) := by
  by_cases fits : l.length ≤ 1022
  · rw [pieces_short (by simp) (by simp; omega)]
    rfl
  · have full : l.length = 1023 := by omega
    have cut : pieces (l ++ [newline]) = [l, [newline]] := by
      rw [pieces_cons (by simp), ← full, List.take_left, List.drop_left, pieces_short (by simp) (by simp)]
    have quiet : ∀ s, takeLine s [newline] = s := fun _ => rfl
    rw [cut, takeLine_newline]
    simp [quiet]

/-- The lines of a handle that a file can have. -/
theorem writtenLines_fit (sound : Sound d) (mem : line ∈ writtenLines d) :
    ∃ l, line = l ++ [newline] ∧ newline ∉ l ∧ 0 ∉ l ∧ l.length ≤ 1023 := by
  have marks : newline ≠ openS ∧ newline ≠ closeS ∧ newline ≠ equals := by decide
  have nul : 0 ≠ openS ∧ 0 ≠ closeS ∧ 0 ≠ equals := by decide
  obtain ⟨g, here, rfl | ⟨e, entry, rfl⟩⟩ := mem_writtenLines mem
  · obtain ⟨header, _⟩ := sound g.1 g.2 (Std.TreeMap.mem_toList_iff_getElem?_eq_some.mp here)
    refine ⟨openS :: (g.1 ++ [closeS]), by simp [groupLine], ?_, ?_, ?_⟩
    · simp [marks, header.oneLine]
    · simp [nul, header.noNul]
    · have short := header.short
      simp
      omega
  · obtain ⟨_, entries⟩ := sound g.1 g.2 (Std.TreeMap.mem_toList_iff_getElem?_eq_some.mp here)
    have fits := entries e.1 e.2 (Std.TreeMap.mem_toList_iff_getElem?_eq_some.mp entry)
    refine ⟨e.1 ++ equals :: e.2, by simp [keyLine], ?_, ?_, ?_⟩
    · simp [marks, fits.oneLine]
    · simp [nul, fits.noNul]
    · have short := fits.short
      simp
      omega

/-- The file is loaded as what its lines have to tell. -/
theorem said_strings_write (sound : Sound d) :
    said ((strings (write d)).map Piece.data) = said (writtenLines d) := by
  have whole : lines (write d) = writtenLines d := by
    refine lines_flatten fun line mem => ?_
    obtain ⟨l, same, inside, _⟩ := writtenLines_fit sound mem
    exact ⟨l, same, inside⟩
  have data : (strings (write d)).map Piece.data = ((writtenLines d).flatMap pieces).map ofBuffer := by
    simp only [strings, whole, List.map_flatMap, List.map_map, Function.comp_def]
  have clear : ((writtenLines d).flatMap pieces).map ofBuffer = (writtenLines d).flatMap pieces := by
    have none_ : ∀ piece ∈ (writtenLines d).flatMap pieces, ofBuffer piece = piece := by
      intro piece mem
      obtain ⟨line, isLine, isPiece⟩ := List.mem_flatMap.mp mem
      obtain ⟨l, rfl, _, noNul, _⟩ := writtenLines_fit sound isLine
      have apart : 0 ≠ newline := by decide
      exact ofBuffer_eq fun zero => by
        have inside := (mem_pieces isPiece).1.subset zero
        simp [noNul, apart] at inside
    exact (List.map_congr_left none_).trans (List.map_id _)
  have each {ls : List Bytes} (fit : ∀ line ∈ ls, line ∈ writtenLines d) (s : Bytes × ConfigFile) :
      (ls.flatMap pieces).foldl takeLine s = ls.foldl takeLine s := by
    induction ls generalizing s with
    | nil => rfl
    | cons line ls ih =>
      obtain ⟨here, rest⟩ := List.forall_mem_cons.mp fit
      obtain ⟨l, rfl, _, _, short⟩ := writtenLines_fit sound here
      rw [List.flatMap_cons, List.foldl_append, foldl_pieces short, List.foldl_cons, ih rest]
  rw [said, said, data, clear, each fun _ mem => mem]

/-! ## What comes back -/

/-- The line of the entry looks like the line of a group. -/
def Misread (key value : Bytes) : Prop := key.head? = some openS ∧ (closeS ∈ key ∨ closeS ∈ value)

theorem groupOf_keyLine : groupOf (keyLine (key, value)) = none ↔ ¬Misread key value := by
  have apart : closeS ≠ equals ∧ closeS ≠ newline ∧ closeS ≠ openS := by decide
  cases key with
  | nil => simp [keyLine, groupOf, Misread, show ¬equals = openS by decide]
  | cons c rest =>
    have inside : closeS ∈ rest ++ equals :: (value ++ [newline]) ↔ closeS ∈ rest ∨ closeS ∈ value := by simp [apart]
    rw [keyLine, List.cons_append, groupOf]
    by_cases first : c = openS
    · subst first
      by_cases closed : closeS ∈ rest ∨ closeS ∈ value
      · simp [Misread, apart, inside, closed]
      · simp [Misread, apart, inside, closed]
    · simp [Misread, first]

theorem pairOf_keyLine (entry : Entry key value) : pairOf (keyLine (key, value)) = some (key, value) := by
  have before : ∀ c ∈ key, decide (c ≠ equals) = true := fun c mem =>
    decide_eq_true fun same => entry.noEquals (same ▸ mem)
  rw [pairOf, if_pos (by simp [keyLine])]
  simp only [keyLine, List.takeWhile_append_of_pos before, List.dropWhile_append_of_pos before]
  simp [trim_newline, entry.keyTrimmed.trim_eq, entry.valueTrimmed.trim_eq]

theorem takeLine_entry (entry : Entry key value) (plain : ¬Misread key value) (s : Bytes × ConfigFile) :
    takeLine s (keyLine (key, value)) = (s.1, set s.2 s.1 key value) := by
  rw [takeLine, groupOf_keyLine.mpr plain, pairOf_keyLine entry]

/-- The lines say the entries, if each of them can be told from a group. -/
theorem foldl_told {groups : List (Bytes × MapOfStrings)}
    (told : ∀ g ∈ groups, closeS ∉ g.1 ∧ ∀ e ∈ g.2.toList, Entry e.1 e.2 ∧ ¬Misread e.1 e.2) (s : Bytes × ConfigFile) :
    ((groups.flatMap fun g => groupLine g.1 :: g.2.toList.map keyLine).foldl takeLine s).2 =
      (triples groups).foldl setTriple s.2 := by
  have keys (entries : List (Bytes × Bytes)) (each : ∀ e ∈ entries, Entry e.1 e.2 ∧ ¬Misread e.1 e.2)
      (s : Bytes × ConfigFile) : (entries.map keyLine).foldl takeLine s =
        (s.1, (entries.map fun e => (s.1, e.1, e.2)).foldl setTriple s.2) := by
    induction entries generalizing s with
    | nil => rfl
    | cons e entries ih =>
      obtain ⟨⟨entry, plain⟩, rest⟩ := List.forall_mem_cons.mp each
      rw [List.map_cons, List.foldl_cons, takeLine_entry entry plain, ih rest]
      rfl
  induction groups generalizing s with
  | nil => rfl
  | cons g groups ih =>
    obtain ⟨⟨closed, each⟩, rest⟩ := List.forall_mem_cons.mp told
    rw [List.flatMap_cons, List.foldl_append, List.foldl_cons, takeLine_groupLine closed, keys _ each, ih rest, triples,
      triples, List.flatMap_cons, List.foldl_append]

theorem get_told (sound : Sound d) (told : ∀ g k v : Bytes, get d g k = some v → ¬Misread k v) (g k : Bytes) :
    get (said (writtenLines d)) g k = get d g k := by
  have each : ∀ g ∈ d.toList, closeS ∉ g.1 ∧ ∀ e ∈ g.2.toList, Entry e.1 e.2 ∧ ¬Misread e.1 e.2 := by
    intro g here
    have found := Std.TreeMap.mem_toList_iff_getElem?_eq_some.mp here
    obtain ⟨header, entries⟩ := sound g.1 g.2 found
    refine ⟨header.noClose, fun e entry => ?_⟩
    have held := Std.TreeMap.mem_toList_iff_getElem?_eq_some.mp entry
    refine ⟨entries e.1 e.2 held, told g.1 e.1 e.2 ?_⟩
    rw [get, found]
    exact held
  have same : said (writtenLines d) = (triples d.toList).foldl setTriple ∅ := foldl_told each ([], ∅)
  rw [same, get_foldl fun e he => mem_triples.mp he]
  split
  · rfl
  · rename_i absent
    cases found : get d g k with
    | none => simp [get]
    | some v => exact absurd (List.mem_map.mpr ⟨_, mem_triples.mpr found, rfl⟩) absent

/-- What strings set, one of them sets. -/
theorem mem_of_get {ls : List Bytes} (s : Bytes × ConfigFile)
    (set_ : get (ls.foldl takeLine s).2 group key = some value) :
    get s.2 group key = some value ∨ ∃ l ∈ ls, groupOf l = none ∧ pairOf l = some (key, value) := by
  induction ls generalizing s with
  | nil => exact .inl set_
  | cons l ls ih =>
    obtain before | ⟨l', mem, found⟩ := ih (takeLine s l) set_
    · rw [takeLine] at before
      cases group_ : groupOf l with
      | some g =>
        rw [group_] at before
        exact .inl before
      | none =>
        rw [group_] at before
        cases pair : pairOf l with
        | none =>
          rw [pair] at before
          exact .inl before
        | some e =>
          rw [pair] at before
          rw [get_set] at before
          split at before
          · rename_i here
            obtain rfl := Option.some.inj before
            refine .inr ⟨l, List.mem_cons_self, group_, ?_⟩
            rw [pair, ← here.2]
          · exact .inl before
    · exact .inr ⟨l', List.mem_cons_of_mem l mem, found⟩

/-- An entry that is misread is lost. -/
theorem misread_lost (sound : Sound d) (misread : Misread key value) :
    get (said (writtenLines d)) group key ≠ some value := by
  intro found
  have none_ : get (∅ : ConfigFile) group key ≠ some value := by simp [get]
  obtain before | ⟨line, mem, noGroup, pair⟩ := mem_of_get ([], ∅) found
  · exact none_ before
  · obtain ⟨g, here, rfl | ⟨e, entry, rfl⟩⟩ := mem_writtenLines mem
    · obtain ⟨header, _⟩ := sound g.1 g.2 (Std.TreeMap.mem_toList_iff_getElem?_eq_some.mp here)
      have group_ : groupOf (groupLine g.1) ≠ none := by
        rw [groupLine, groupOf, if_pos ⟨rfl, by simp⟩]
        exact Option.some_ne_none _
      exact group_ noGroup
    · obtain ⟨_, entries⟩ := sound g.1 g.2 (Std.TreeMap.mem_toList_iff_getElem?_eq_some.mp here)
      rw [pairOf_keyLine (entries e.1 e.2 (Std.TreeMap.mem_toList_iff_getElem?_eq_some.mp entry))] at pair
      obtain rfl : e = (key, value) := Option.some.inj pair
      exact groupOf_keyLine.mp noGroup misread

/-- **What was loaded can be saved.** Whatever file a handle was loaded from, lines of any
length and NULs included, the file that it is written to gives the same entries if and
only if no key begins with a `[` where a `]` comes later in the entry. -/
theorem saved_iff (text : Bytes) : ∃ d, Returns (loadFile text) d ∧
    ((∃ d', Returns (loadFile (write d)) d' ∧ ∀ group key, get d' group key = get d group key) ↔
      ∀ group key value, get d group key = some value → ¬Misread key value) := by
  have sound := loaded_sound text
  refine ⟨_, loads_strings text, ?_⟩
  have again := loads_strings (write (said ((strings text).map Piece.data)))
  rw [said_strings_write sound] at again
  constructor
  · rintro ⟨d', returns, same⟩ group key value found misread
    obtain rfl := again.unique returns
    exact misread_lost sound misread ((same group key).trans found)
  · exact fun told => ⟨_, again, get_told sound told⟩

end SonicUtils.Config
