import SonicUtils.Config.Lines

/-!
# What is written is what is loaded

Every line that `std_config_file_write` writes says one group or one entry, so
that the lines together say the entries of the handle.
-/

namespace SonicUtils.Config

open Loop

variable {d m : ConfigFile} {ls : List Bytes} {group key value : Bytes} {s : Bytes × ConfigFile}
  {groups : List (Bytes × MapOfStrings)} {entries : List (Bytes × Bytes × Bytes)}

/-- No whitespace at the two ends. -/
def Trimmed (s : Bytes) : Prop := (∀ c ∈ s.head?, ¬ isspace c) ∧ ∀ c ∈ s.getLast?, ¬ isspace c

/-- An entry that a line can hold. -/
structure Plain (key value : Bytes) : Prop where
  oneLine : newline ∉ key ∧ newline ∉ value
  noEquals : equals ∉ key
  noGroup : key.head? ≠ some openS
  keyTrimmed : Trimmed key
  valueTrimmed : Trimmed value

/-- Groups, keys and values that lines can hold. -/
def Clean (groups : List (Bytes × MapOfStrings)) : Prop :=
  ∀ g ∈ groups, newline ∉ g.1 ∧ closeS ∉ g.1 ∧ ∀ e ∈ g.2.toList, Plain e.1 e.2

/-! ## Trimming -/

theorem Trimmed.trim_eq {s : Bytes} (h : Trimmed s) : trim s = s := by
  have right : rtrim s = s := by
    rw [rtrim, List.rdropWhile_eq_self_iff]
    intro ne
    exact h.2 _ (List.getLast?_eq_some_getLast ne)
  rw [trim, right, ltrim, List.dropWhile_eq_self_iff]
  intro pos
  exact h.1 _ (List.head?_eq_getElem? ▸ List.getElem?_eq_getElem pos)

theorem trim_newline (s : Bytes) : trim (s ++ [newline]) = trim s := by
  rw [trim, trim, rtrim, rtrim, List.rdropWhile_concat_pos _ _ _ (by decide)]

/-! ## The lines written -/

theorem takeLine_groupLine (closed : closeS ∉ group) (s : Bytes × ConfigFile) :
    takeLine s (groupLine group) = (group, s.2) := by
  have inside : (group ++ [closeS, newline]).takeWhile (· ≠ closeS) = group := by
    rw [List.takeWhile_append_of_pos]
    · simp
    · intro c hc
      have other : c ≠ closeS := fun same => closed (same ▸ hc)
      simpa using other
  have header : groupOf (groupLine group) = some group := by
    rw [groupLine, groupOf, if_pos ⟨rfl, by simp⟩, inside]
  simp [takeLine, header]

theorem takeLine_keyLine (plain : Plain key value) (s : Bytes × ConfigFile) :
    takeLine s (keyLine (key, value)) = (s.1, set s.2 s.1 key value) := by
  have before : ∀ c ∈ key, (decide (c ≠ equals)) = true := by
    intro c hc
    have other : c ≠ equals := fun same => plain.noEquals (same ▸ hc)
    simpa using other
  have other : groupOf (keyLine (key, value)) = none := by
    cases key with
    | nil => rfl
    | cons c key =>
      have first : c ≠ openS := fun same => plain.noGroup (congrArg some same)
      simp [keyLine, groupOf, first]
  have pair : pairOf (keyLine (key, value)) = some (key, value) := by
    rw [pairOf, if_pos (by simp [keyLine])]
    simp only [keyLine, List.takeWhile_append_of_pos before, List.dropWhile_append_of_pos before]
    simp [trim_newline, plain.keyTrimmed.trim_eq, plain.valueTrimmed.trim_eq]
  simp [takeLine, other, pair]

/-- The triples of a handle, in the order in which they are written. -/
def triples (groups : List (Bytes × MapOfStrings)) : List (Bytes × Bytes × Bytes) :=
  groups.flatMap fun (group, keys) => keys.toList.map fun (key, value) => (group, key, value)

def setTriple (d : ConfigFile) (e : Bytes × Bytes × Bytes) : ConfigFile := set d e.1 e.2.1 e.2.2

theorem foldl_keyLines {keys : List (Bytes × Bytes)} (plain : ∀ e ∈ keys, Plain e.1 e.2)
    (s : Bytes × ConfigFile) : (keys.map keyLine).foldl takeLine s =
      (s.1, (keys.map fun (key, value) => (s.1, key, value)).foldl setTriple s.2) := by
  induction keys generalizing s with
  | nil => rfl
  | cons e keys ih =>
    rw [List.forall_mem_cons] at plain
    rw [List.map_cons, List.foldl_cons, takeLine_keyLine plain.1, ih plain.2]
    rfl

theorem foldl_written (clean : Clean groups) (s : Bytes × ConfigFile) :
    ((groups.flatMap fun (group, keys) => groupLine group :: keys.toList.map keyLine).foldl takeLine s).2 =
      (triples groups).foldl setTriple s.2 := by
  induction groups generalizing s with
  | nil => rfl
  | cons g groups ih =>
    obtain ⟨⟨_, closed, plain⟩, rest⟩ := List.forall_mem_cons.mp clean
    rw [List.flatMap_cons, List.foldl_append, List.foldl_cons, takeLine_groupLine closed,
      foldl_keyLines plain, ih rest, triples, triples, List.flatMap_cons, List.foldl_append]

/-- A handle from triples of another one. -/
theorem get_foldl (from_ : ∀ e ∈ entries, get d e.1 e.2.1 = some e.2.2) (m : ConfigFile) (g k : Bytes) :
    get (entries.foldl setTriple m) g k =
      if (g, k) ∈ entries.map fun e => (e.1, e.2.1) then get d g k else get m g k := by
  induction entries generalizing m with
  | nil => simp
  | cons e entries ih =>
    obtain ⟨g', k', v'⟩ := e
    rw [List.forall_mem_cons] at from_
    rw [List.foldl_cons, ih from_.2, setTriple, get_set, List.map_cons]
    by_cases later : (g, k) ∈ entries.map fun e => (e.1, e.2.1)
    · rw [if_pos later, if_pos (List.mem_cons_of_mem _ later)]
    · rw [if_neg later]
      by_cases here : g' = g ∧ k' = k
      · obtain ⟨rfl, rfl⟩ := here
        rw [if_pos ⟨rfl, rfl⟩, if_pos List.mem_cons_self, from_.1]
      · have off : (g, k) ∉ (g', k') :: entries.map fun e => (e.1, e.2.1) := by
          simp only [List.mem_cons, not_or]
          exact ⟨fun same => here ⟨(congrArg Prod.fst same).symm, (congrArg Prod.snd same).symm⟩, later⟩
        rw [if_neg here, if_neg off]

theorem mem_triples : (group, key, value) ∈ triples d.toList ↔ get d group key = some value := by
  simp only [triples, List.mem_flatMap, List.mem_map, Prod.mk.injEq, Prod.exists, get]
  constructor
  · rintro ⟨g, keys, hg, k, v, hk, rfl, rfl, rfl⟩
    rw [Std.TreeMap.mem_toList_iff_getElem?_eq_some] at hg hk
    simp [hg, hk]
  · intro found
    cases hg : d[group]? with
    | none => simp [hg] at found
    | some keys =>
      simp only [hg] at found
      exact ⟨group, keys, Std.TreeMap.mem_toList_iff_getElem?_eq_some.mpr hg, key, value,
        Std.TreeMap.mem_toList_iff_getElem?_eq_some.mpr found, rfl, rfl, rfl⟩

theorem get_said (clean : Clean d.toList) (g k : Bytes) : get (said (writtenLines d)) g k = get d g k := by
  have same : said (writtenLines d) = (triples d.toList).foldl setTriple ∅ := foldl_written clean ([], ∅)
  rw [same, get_foldl fun e he => mem_triples.mp he]
  split
  · rfl
  · rename_i absent
    cases found : get d g k with
    | none => simp [get]
    | some v => exact absurd (List.mem_map.mpr ⟨_, mem_triples.mpr found, rfl⟩) absent

/-! ## The file written -/

theorem lines_flatten (whole : ∀ line ∈ ls, ∃ l, line = l ++ [newline] ∧ newline ∉ l) :
    lines ls.flatten = ls := by
  induction ls with
  | nil => rfl
  | cons line ls ih =>
    obtain ⟨⟨l, rfl, inside⟩, rest⟩ := List.forall_mem_cons.mp whole
    rw [List.flatten_cons, List.append_assoc, List.singleton_append, lines_append inside, ih rest]

theorem mem_writtenLines {line : Bytes} (h : line ∈ writtenLines d) :
    ∃ g ∈ d.toList, line = groupLine g.1 ∨ ∃ e ∈ g.2.toList, line = keyLine e := by
  obtain ⟨g, hg, hl⟩ := List.mem_flatMap.mp h
  cases hl with
  | head => exact ⟨g, hg, .inl rfl⟩
  | tail _ hl =>
    obtain ⟨e, he, rfl⟩ := List.mem_map.mp hl
    exact ⟨g, hg, .inr ⟨e, he, rfl⟩⟩

theorem lines_write (clean : Clean d.toList) : lines (write d) = writtenLines d := by
  apply lines_flatten
  intro line hl
  obtain ⟨g, hg, rfl | ⟨e, he, rfl⟩⟩ := mem_writtenLines hl
  · refine ⟨openS :: (g.1 ++ [closeS]), by simp [groupLine], ?_⟩
    have apart : newline ≠ openS ∧ newline ≠ closeS := by decide
    simp [apart, (clean g hg).1]
  · refine ⟨e.1 ++ equals :: e.2, by simp [keyLine], ?_⟩
    have apart : newline ≠ equals := by decide
    have plain := (clean g hg).2.2 e he
    simp [apart, plain.oneLine]

/-- No NUL gets into a handle. -/
theorem Built.noNul (h : Built d) {keys : MapOfStrings} (found : d[group]? = some keys) :
    0 ∉ group ∧ ∀ k v : Bytes, keys[k]? = some v → 0 ∉ k ∧ 0 ∉ v := by
  induction h generalizing group keys with
  | create => simp at found
  | @set d _ g k str ih =>
    rw [Config.set, Std.TreeMap.getElem?_insert] at found
    split at found
    · rename_i same
      obtain rfl := Std.LawfulEqCmp.compare_eq_iff_eq.mp same
      cases found
      refine ⟨g.2, fun k' v' hv => ?_⟩
      rw [Std.TreeMap.getElem?_insert] at hv
      split at hv
      · rename_i same
        obtain rfl := Std.LawfulEqCmp.compare_eq_iff_eq.mp same
        cases hv
        exact ⟨k.2, str.2⟩
      · cases before : d[g.1]? with
        | none => simp [Std.TreeMap.getD_eq_getD_getElem?, before] at hv
        | some keys =>
          simp only [Std.TreeMap.getD_eq_getD_getElem?, before, Option.getD_some] at hv
          exact (ih before).2 k' v' hv
    · exact ih found

theorem noNul_write (built : Built d) : 0 ∉ write d := by
  intro zero
  obtain ⟨line, hl, hz⟩ := List.mem_flatten.mp zero
  have marks : 0 ≠ openS ∧ 0 ≠ closeS ∧ 0 ≠ equals ∧ 0 ≠ newline := by decide
  obtain ⟨g, hg, rfl | ⟨e, he, rfl⟩⟩ := mem_writtenLines hl
  · have clear := built.noNul (Std.TreeMap.mem_toList_iff_getElem?_eq_some.mp hg)
    simp [groupLine, marks, clear.1] at hz
  · have clear := built.noNul (Std.TreeMap.mem_toList_iff_getElem?_eq_some.mp hg)
    have pair := clear.2 e.1 e.2 (Std.TreeMap.mem_toList_iff_getElem?_eq_some.mp he)
    simp [keyLine, marks, pair] at hz

/-- A handle whose lines are clean and fit the buffer is written to a file from
which the same entries are loaded. -/
theorem write_then_load (built : Built d) (clean : Clean d.toList)
    (fit : ∀ line ∈ writtenLines d, line.length ≤ 1023) :
    ∃ d', Returns (loadFile (write d)) d' ∧ ∀ group key, get d' group key = get d group key := by
  rw [← lines_write clean] at fit
  have loaded := loads_said (noNul_write built) fit
  rw [lines_write clean] at loaded
  exact ⟨_, loaded, get_said clean⟩

/-- A group without a name, and a value with a `=` and a `]` in it. -/
theorem write_then_load_one :
    ∃ d', Returns (loadFile [openS, closeS, newline, 0x6b, equals, equals, closeS, newline]) d' ∧
      get d' [] [0x6b] = some [equals, closeS] := by
  have built : Built (set ∅ [] [0x6b] [equals, closeS]) :=
    Built.create.set ⟨[], by decide⟩ ⟨[0x6b], by decide⟩ ⟨[equals, closeS], by decide⟩
  have plain : Plain [0x6b] [equals, closeS] := by
    constructor <;> simp [Trimmed] <;> decide
  have groups : (set ∅ [] [0x6b] [equals, closeS]).toList = [([], _)] := rfl
  have clean : Clean (set ∅ [] [0x6b] [equals, closeS]).toList := by
    rw [groups]
    simp only [Clean, List.forall_mem_singleton]
    refine ⟨by decide, by decide, fun e he => ?_⟩
    obtain rfl : e = ([0x6b], [equals, closeS]) := List.mem_singleton.mp he
    exact plain
  obtain ⟨d', loaded, same⟩ := write_then_load built clean (by decide)
  exact ⟨d', loaded, (same [] [0x6b]).trans (by rw [get_set, if_pos ⟨rfl, rfl⟩])⟩

end SonicUtils.Config
