import SonicUtils.Config.Model

/-!
# A config file as a list of lines

What the lines of a file say, each of them as a whole, and what `load_file`
makes of them through its buffer.

* `loadLine_eq`: the loop body does with a string what the line says;
* `Reads.loads`: the result depends on the strings that `fgets` gives;
* `loads_by_lines_iff`: which files are loaded line by line.
-/

namespace SonicUtils.Config

open Loop

variable {line text file key value : Bytes} {ls : List Bytes} {c : UInt8} {n : Nat}
  {d : ConfigFile} {s : Bytes × ConfigFile}

/-! ## What lines say -/

/-- The lines of a text, with their newlines. -/
def lines : Bytes → List Bytes
  | [] => []
  | c :: text =>
    if c = newline then [c] :: lines text
    else match lines text with
      | [] => [[c]]
      | line :: ls => (c :: line) :: ls

/-- The group of a line `[group]`. -/
def groupOf (line : Bytes) : Option Bytes :=
  match line with
  | [] => none
  | c :: rest => if c = openS ∧ closeS ∈ rest then some (rest.takeWhile (· ≠ closeS)) else none

/-- The key and the value of a line `key=value`. -/
def pairOf (line : Bytes) : Option (Bytes × Bytes) :=
  if equals ∈ line then
    some (trim (line.takeWhile (· ≠ equals)), trim (line.dropWhile (· ≠ equals)).tail)
  else none

/-- A line begins a group, or it adds to the one at hand. -/
def takeLine (s : Bytes × ConfigFile) (line : Bytes) : Bytes × ConfigFile :=
  match groupOf line with
  | some group => (group, s.2)
  | none =>
    match pairOf line with
    | some (key, value) => (s.1, set s.2 s.1 key value)
    | none => s

/-- What all the lines of a file say. -/
def said (ls : List Bytes) : ConfigFile := (ls.foldl takeLine ([], ∅)).2

/-! ## One line -/

theorem ofBuffer_eq (noNul : 0 ∉ line) : ofBuffer line = line := by
  apply List.takeWhile_eq_self_iff.mpr
  intro c hc
  simp only [ne_eq, decide_not, Bool.not_eq_eq_eq_not, Bool.not_true, decide_eq_false_iff_not]
  exact fun zero => noNul (zero ▸ hc)

theorem find_eq_none : find line c = none ↔ c ∉ line := List.idxOf?_eq_none_iff

theorem find_some (h : find line c = some n) :
    line.take n = line.takeWhile (· ≠ c) ∧ line.drop n = line.dropWhile (· ≠ c) := by
  induction line generalizing n with
  | nil => cases h
  | cons a line ih =>
    by_cases same : a = c
    · subst same
      have zero : n = 0 := by simpa [find, List.idxOf?, List.findIdx?_cons] using h.symm
      simp [zero]
    · obtain ⟨m, hm, rfl⟩ : ∃ m, find line c = some m ∧ n = m + 1 := by
        simp only [find, List.idxOf?, List.findIdx?_cons, beq_iff_eq, same, ↓reduceIte,
          Option.map_eq_some_iff] at h
        obtain ⟨m, hm, rfl⟩ := h
        exact ⟨m, hm, rfl⟩
      simp [same, ih hm]

theorem find_cons_zero {a : UInt8} : find (a :: line) c = some 0 ↔ a = c := by
  simp [find, List.idxOf?, List.findIdx?_cons]

/-- `handle_section` takes the group between the brackets. -/
theorem handleSection_eq (closed : closeS ∈ line) :
    handleSection (openS :: line) = line.takeWhile (· ≠ closeS) := by
  obtain ⟨last, found⟩ := Option.ne_none_iff_exists'.mp (mt find_eq_none.mp (not_not_intro closed))
  have apart : openS ≠ closeS := by decide
  have start : find (openS :: line) openS = some 0 := find_cons_zero.mpr rfl
  have finish : find (openS :: line) closeS = some (last + 1) := by
    unfold find List.idxOf? at found ⊢
    simp [List.findIdx?_cons, apart, found]
  simp [handleSection, start, finish, substr, next, find_some found]

/-- `handle_keyfield` splits the line at its first `=`. -/
theorem handleKeyfield_eq (pair : equals ∈ line) (section_ : Bytes) (d : ConfigFile) :
    handleKeyfield line section_ d = set d section_ (trim (line.takeWhile (· ≠ equals)))
      (trim (line.dropWhile (· ≠ equals)).tail) := by
  obtain ⟨len, found⟩ := Option.ne_none_iff_exists'.mp (mt find_eq_none.mp (not_not_intro pair))
  obtain ⟨before, after⟩ := find_some found
  simp [handleKeyfield, found, substr, next, before, ← List.tail_drop, after]

theorem loadLine_eq (noNul : 0 ∉ line) (s : Bytes × ConfigFile) : loadLine s line = takeLine s line := by
  rw [loadLine, ofBuffer_eq noNul, takeLine]
  by_cases header : ∃ rest, line = openS :: rest ∧ closeS ∈ rest
  · obtain ⟨rest, rfl, closed⟩ := header
    have found : find (openS :: rest) closeS ≠ none :=
      mt find_eq_none.mp (not_not_intro (List.mem_cons_of_mem _ closed))
    rw [if_pos ⟨find_cons_zero.mpr rfl, found⟩, handleSection_eq closed]
    simp [groupOf, closed]
  · have other : ¬(find line openS = some 0 ∧ find line closeS ≠ none) := by
      intro ⟨start, finish⟩
      cases line with
      | nil => cases start
      | cons a rest =>
        obtain rfl := find_cons_zero.mp start
        have closed := not_not.mp (mt find_eq_none.mpr finish)
        exact header ⟨rest, rfl, (List.mem_cons.mp closed).resolve_left (by decide)⟩
    have none_ : groupOf line = none := by
      cases line with
      | nil => rfl
      | cons a rest =>
        simp only [groupOf, ite_eq_right_iff]
        intro ⟨first, closed⟩
        exact absurd ⟨rest, first ▸ rfl, closed⟩ header
    rw [if_neg other, none_]
    by_cases pair : equals ∈ line
    · rw [if_neg (mt find_eq_none.mp (not_not_intro pair)), handleKeyfield_eq pair, pairOf, if_pos pair]
    · rw [if_pos (find_eq_none.mpr pair), pairOf, if_neg pair]

/-! ## Reading lines -/

theorem lines_eq_nil : lines text = [] ↔ text = [] := by
  cases text with
  | nil => simp [lines]
  | cons c text =>
    simp only [lines, reduceCtorEq, iff_false]
    split
    · simp
    · split <;> simp

theorem lines_append {l : Bytes} (inside : newline ∉ l) (rest : Bytes) :
    lines (l ++ newline :: rest) = (l ++ [newline]) :: lines rest := by
  induction l with
  | nil => simp [lines]
  | cons c l ih =>
    simp only [List.mem_cons, not_or] at inside
    simp [lines, Ne.symm inside.1, ih inside.2]

/-- A line that fits is read as a whole. -/
theorem getLine_lines (split : lines text = line :: ls) (fits : line.length ≤ n) :
    ∃ rest, getLine n text = (line, rest) ∧ lines rest = ls := by
  induction text generalizing line n with
  | nil => cases split
  | cons c text ih =>
    obtain ⟨n, rfl⟩ : ∃ m, n = m + 1 := by
      cases n with
      | zero =>
        obtain rfl := List.length_eq_zero_iff.mp (Nat.le_zero.mp fits)
        rw [lines] at split
        split at split
        · cases split
        · split at split <;> cases split
      | succ m => exact ⟨m, rfl⟩
    rw [lines] at split
    split at split
    · rename_i last
      cases split
      exact ⟨text, by simp [getLine, last], rfl⟩
    · rename_i inside
      cases rest : lines text with
      | nil =>
        rw [rest] at split
        cases split
        obtain rfl := lines_eq_nil.mp rest
        exact ⟨[], by cases n <;> simp [getLine, inside], rfl⟩
      | cons line' ls' =>
        rw [rest] at split
        cases split
        obtain ⟨left, read, same⟩ := ih rest (Nat.le_of_succ_le_succ fits)
        exact ⟨left, by simp [getLine, inside, read], same⟩

theorem getLine_length (n : Nat) (text : Bytes) : (getLine n text).1.length ≤ n := by
  induction n generalizing text with
  | zero => simp [getLine]
  | succ n ih =>
    cases text with
    | nil => simp [getLine]
    | cons c text =>
      rw [getLine]
      split
      · simp
      · simpa using ih text

/-- The strings that `fgets` gives one after the other. -/
inductive Reads : Bytes → List Bytes → Prop
  | stop {file : Bytes} (done : fgets buffLen file = none) : Reads file []
  | read {file line rest : Bytes} {ls : List Bytes} (first : fgets buffLen file = some (line, rest))
      (more : Reads rest ls) : Reads file (line :: ls)

theorem Reads.loads (h : Reads file ls) (s : Bytes × ConfigFile) :
    Ends Fault.noReturn loadTurn ⟨file, s⟩ (ls.foldl loadLine s).2 := by
  induction h generalizing s with
  | stop done => exact .done (by simp [loadTurn, done])
  | read first _ ih =>
    refine .head ?_ (ih _)
    simp [loadTurn, first]

theorem Reads.length (h : Reads file ls) : ∀ line ∈ ls, line.length ≤ 1023 := by
  induction h with
  | stop => simp
  | @read file line rest ls first _ ih =>
    cases file with
    | nil => cases first
    | cons c file =>
      obtain rfl : (getLine 1023 (c :: file)).1 = line := congrArg Prod.fst (Option.some.inj first)
      exact List.forall_mem_cons.mpr ⟨getLine_length 1023 (c :: file), ih⟩

theorem reads_lines (fit : ∀ line ∈ lines text, line.length ≤ 1023) : Reads text (lines text) := by
  generalize split : lines text = ls at fit
  induction ls generalizing text with
  | nil =>
    obtain rfl := lines_eq_nil.mp split
    exact .stop rfl
  | cons line ls ih =>
    obtain ⟨rest, read, same⟩ := getLine_lines split (fit line List.mem_cons_self)
    refine .read ?_ (ih same fun l hl => fit l (List.mem_cons_of_mem line hl))
    cases text with
    | nil => cases split
    | cons c text => exact congrArg some read

theorem mem_lines (h : line ∈ lines text) : ∀ c ∈ line, c ∈ text := by
  induction text generalizing line with
  | nil => cases h
  | cons a text ih =>
    intro c hc
    rw [lines] at h
    split at h
    · cases h with
      | head => exact List.mem_singleton.mp hc ▸ List.mem_cons_self
      | tail _ h => exact List.mem_cons_of_mem a (ih h c hc)
    · cases rest : lines text with
      | nil =>
        rw [rest] at h
        obtain rfl := List.mem_singleton.mp h
        exact List.mem_singleton.mp hc ▸ List.mem_cons_self
      | cons line' ls =>
        rw [rest] at h ih
        cases h with
        | head =>
          cases hc with
          | head => exact List.mem_cons_self
          | tail _ hc => exact List.mem_cons_of_mem a (ih List.mem_cons_self c hc)
        | tail _ h => exact List.mem_cons_of_mem a (ih (List.mem_cons_of_mem line' h) c hc)

theorem foldl_loadLine (noNul : ∀ line ∈ ls, 0 ∉ line) (s : Bytes × ConfigFile) :
    ls.foldl loadLine s = ls.foldl takeLine s := by
  apply List.foldl_ext
  intro s line hl
  exact loadLine_eq (noNul line hl) s

/-- A file is loaded as what its lines say. -/
theorem loads_said (noNul : 0 ∉ text) (fit : ∀ line ∈ lines text, line.length ≤ 1023) :
    Returns (loadFile text) (said (lines text)) := by
  have run := (reads_lines fit).loads ([], ∅)
  rw [foldl_loadLine fun line hl zero => noNul (mem_lines hl 0 zero)] at run
  exact run

/-- The loop of `load_file` sees the lines of the file, each as one string, and
the result is what they say. -/
structure ByLines (text : Bytes) : Prop where
  units : Reads text (lines text)
  loaded : Returns (loadFile text) (said (lines text))

/-- No line may be longer than the buffer, with its newline and a NUL. -/
theorem loads_by_lines_iff (text : Bytes) (noNul : 0 ∉ text) :
    ByLines text ↔ ∀ line ∈ lines text, line.length ≤ 1023 := by
  constructor
  · intro h
    exact h.units.length
  · intro fit
    exact ⟨reads_lines fit, loads_said noNul fit⟩

theorem loads_by_lines_iff_short : ByLines [openS, 0x67, closeS, newline, 0x61, equals, 0x62, newline] :=
  (loads_by_lines_iff _ (by decide)).mpr (by decide)

theorem get_set (d : ConfigFile) (g k v g' k' : Bytes) :
    get (set d g k v) g' k' = if g = g' ∧ k = k' then some v else get d g' k' := by
  simp only [get, set, Std.TreeMap.getElem?_insert, Std.LawfulEqCmp.compare_eq_iff_eq]
  by_cases same : g = g'
  · subst same
    cases found : d[g]? with
    | none => simp [Std.TreeMap.getD_eq_getD_getElem?, found, Std.TreeMap.getElem?_insert]
    | some keys => simp [Std.TreeMap.getD_eq_getD_getElem?, found, Std.TreeMap.getElem?_insert]
  · simp [same]

theorem getLine_full {l : Bytes} (inside : newline ∉ l) (rest : Bytes) :
    getLine l.length (l ++ rest) = (l, rest) := by
  induction l with
  | nil => simp [getLine]
  | cons c l ih =>
    simp only [List.mem_cons, not_or] at inside
    simp [getLine, Ne.symm inside.1, ih inside.2]

/-- `a=xx…x`, of length `n + 2`. -/
def firstPiece (n : Nat) : Bytes := 0x61 :: equals :: List.replicate n 0x78

/-- `b=y`, with the newline. -/
def secondPiece : Bytes := [0x62, equals, 0x79, newline]

theorem length_firstPiece (n : Nat) : (firstPiece n).length = n + 2 := by simp [firstPiece]

theorem noNewline_firstPiece (n : Nat) : newline ∉ firstPiece n := by
  simp [firstPiece, newline, equals, List.mem_replicate]

theorem noNul_pieces (n : Nat) : ∀ line ∈ [firstPiece n, secondPiece], 0 ∉ line := by
  simp [firstPiece, secondPiece, newline, equals, List.mem_replicate]

theorem lines_pieces (n : Nat) : lines (firstPiece n ++ secondPiece) = [firstPiece n ++ secondPiece] := by
  have inside : newline ∉ firstPiece n ++ [0x62, equals, 0x79] := by
    simp only [List.mem_append, noNewline_firstPiece, false_or]
    decide
  have split := lines_append inside []
  rw [List.append_assoc] at split
  exact split

/-- The end of a long line is read as a line that sets another key. -/
theorem long_line_is_cut : ¬ ByLines (firstPiece 1021 ++ secondPiece) ∧
    ∃ d, Returns (loadFile (firstPiece 1021 ++ secondPiece)) d ∧ get d [] [0x62] = some [0x79] ∧
      get (said (lines (firstPiece 1021 ++ secondPiece))) [] [0x62] = none := by
  have reads : Reads (firstPiece 1021 ++ secondPiece) [firstPiece 1021, secondPiece] := by
    have first := getLine_full (noNewline_firstPiece 1021) secondPiece
    rw [length_firstPiece] at first
    exact .read (congrArg some first) (.read rfl (.stop rfl))
  constructor
  · intro h
    have fits := h.units.length (firstPiece 1021 ++ secondPiece) (by simp [lines_pieces])
    rw [List.length_append, length_firstPiece] at fits
    simp [secondPiece] at fits
  · have run := reads.loads ([], ∅)
    rw [foldl_loadLine (noNul_pieces 1021)] at run
    refine ⟨_, run, ?_, ?_⟩
    · have second (s : Bytes × ConfigFile) : takeLine s secondPiece = (s.1, set s.2 s.1 [0x62] [0x79]) := rfl
      have group : (takeLine ([], ∅) (firstPiece 1021)).1 = [] := rfl
      simp [second, group, get_set]
    · have only : said [firstPiece 1021 ++ secondPiece] = set ∅ [] [0x61] _ := rfl
      rw [lines_pieces, only, get_set]
      simp [get]

end SonicUtils.Config
