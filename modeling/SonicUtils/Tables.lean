import Mathlib.Algebra.Group.Nat.Defs
import Mathlib.Data.List.Basic
import Mathlib.Data.List.Nodup
import SonicUtils.Config.Model

/-!
# Tables that translate

`std_text_to_code` and `std_code_to_text` of `std_string_utils.cpp`, and
`std_int_translate` of `std_int_mapping_util.c`.

* `find_distinct`: what a search by distinct keys finds;
* `code_text_inverts_iff`: when a code comes back from its text;
* `int_mapping_inverts_iff`: when an integer comes back from another column.
-/

namespace SonicUtils.Tables

open SonicUtils.Config (CString)

/-- The first row with the key is the only one. -/
theorem find_distinct {α κ : Type} [DecidableEq κ] {key : α → κ} {l : List α} {r : α}
    (distinct : (l.map key).Nodup) (mem : r ∈ l) : l.find? (fun s => key s = key r) = some r := by
  obtain ⟨s, found⟩ : ∃ s, l.find? (fun s => key s = key r) = some s :=
    Option.isSome_iff_exists.mp (List.find?_isSome.mpr ⟨r, mem, decide_eq_true rfl⟩)
  have same : key s = key r := by simpa using List.find?_some found
  rw [found, List.inj_on_of_nodup_map distinct (List.mem_of_find?_eq_some found) mem same]

/-! ## Codes and texts -/

/-- `std_code_text_t`. -/
structure CodeText where
  code : UInt32
  text : CString

/-- Whether `strncmp` of two strings is 0. -/
def strncmpZero (a b : CString) (n : Nat) : Bool := a.1.take n == b.1.take n

/-- The comparison of a row's text with `text`. -/
def CodeText.hasText (row : CodeText) (text : CString) (textSz : UInt32) : Bool :=
  if textSz ≠ 0 then strncmpZero row.text text textSz.toNat else row.text.1 == text.1

/-- `std_text_to_code`, where `none` is `NULL`. -/
def stdTextToCode (text : CString) (textSz : UInt32) (table : Option (List CodeText)) : Int32 :=
  match table with
  | none => -1
  | some table =>
    match table.find? (·.hasText text textSz) with
    | some row => row.code.toInt32
    | none => -1

/-- `std_code_to_text`. -/
def stdCodeToText (code : UInt32) (table : Option (List CodeText)) : Option CString :=
  table.bind fun table => (table.find? (·.code = code)).map CodeText.text

/-- The code comes back from its text, with no size and with the text's own size. -/
def CodeComesBack (table : List CodeText) (code : UInt32) : Prop :=
  ∃ text, stdCodeToText code (some table) = some text ∧
    (stdTextToCode text 0 (some table)).toInt = code.toNat ∧
    ∀ n : UInt32, n.toNat = text.1.length → (stdTextToCode text n (some table)).toInt = code.toNat

/-- The text of a row before this one begins with the text of this one, which is not
empty and has a size that an `unsigned int` holds. -/
def Hidden (table : List CodeText) (row : CodeText) : Prop :=
  row.text.1 ≠ [] ∧ row.text.1.length < 2 ^ 32 ∧
    ∃ before after, table = before ++ row :: after ∧ ∃ r ∈ before, row.text.1 <+: r.text.1

variable {table : List CodeText} {row r : CodeText}

theorem hasText_zero (text : CString) : row.hasText text 0 = decide (row.text = text) := by
  rw [CodeText.hasText, if_neg (by decide), Bool.eq_iff_iff, beq_iff_eq, decide_eq_true_eq, Subtype.ext_iff]

/-- With the size of the text, its beginning is compared. -/
theorem hasText_size {n : UInt32} (size : n.toNat = row.text.1.length) (some_ : row.text.1 ≠ []) :
    r.hasText row.text n = true ↔ row.text.1 <+: r.text.1 := by
  have more : n ≠ 0 := by
    rintro rfl
    exact some_ (List.length_eq_zero_iff.mp size.symm)
  rw [CodeText.hasText, if_pos more, strncmpZero, beq_iff_eq, size, List.take_length, List.prefix_iff_eq_take, eq_comm]

theorem toInt_toInt32 {c : UInt32} (small : c.toNat < 2 ^ 31) : c.toInt32.toInt = c.toNat := by
  rw [← Int32.toInt_toBitVec, UInt32.toBitVec_toInt32, BitVec.toInt_eq_toNat_of_lt, UInt32.toNat_toBitVec]
  rw [UInt32.toNat_toBitVec]
  omega

theorem codeToText_of (codes : (table.map CodeText.code).Nodup) (mem : row ∈ table) :
    stdCodeToText row.code (some table) = some row.text := by
  rw [stdCodeToText, Option.bind_some, find_distinct codes mem, Option.map_some]

/-- The first row with the text decides. -/
theorem textToCode_of {text : CString} {n : UInt32} (found : table.find? (·.hasText text n) = some r)
    (small : r.code.toNat < 2 ^ 31) : (stdTextToCode text n (some table)).toInt = r.code.toNat := by
  rw [stdTextToCode, found]
  exact toInt_toInt32 small

theorem textToCode_zero (texts : (table.map CodeText.text).Nodup) (mem : row ∈ table) (small : row.code.toNat < 2 ^ 31) :
    (stdTextToCode row.text 0 (some table)).toInt = row.code.toNat := by
  apply textToCode_of _ small
  simp only [hasText_zero]
  exact find_distinct texts mem

/-- With the size of the text, the row is found unless it is hidden. -/
theorem find_size_iff (texts : (table.map CodeText.text).Nodup) (mem : row ∈ table) {n : UInt32}
    (size : n.toNat = row.text.1.length) (some_ : row.text.1 ≠ []) :
    table.find? (·.hasText row.text n) = some row ↔ ¬ Hidden table row := by
  have own : row.hasText row.text n = true := (hasText_size size some_).mpr (List.prefix_refl _)
  constructor
  · rintro found ⟨_, _, before, after, split, r, earlier, starts⟩
    obtain ⟨_, before', after', split', none_⟩ := List.find?_eq_some_iff_append.mp found
    have once : (before ++ row :: after).Nodup := split ▸ List.Nodup.of_map _ texts
    have apart := (List.nodup_middle.mp once).notMem
    rw [List.mem_append, not_or] at apart
    obtain ⟨same, _⟩ := (List.append_cons_inj_of_notMem apart.1 apart.2).mp (split.symm.trans split')
    have refused := none_ r (same ▸ earlier)
    rw [(hasText_size size some_).mpr starts] at refused
    cases refused
  · intro shown
    obtain ⟨before, after, split⟩ := List.append_of_mem mem
    apply List.find?_eq_some_iff_append.mpr
    refine ⟨own, before, after, split, fun r earlier => ?_⟩
    rw [Bool.not_eq_true']
    by_contra starts
    rw [Bool.not_eq_false] at starts
    exact shown ⟨some_, size ▸ n.toNat_lt, before, after, split, r, earlier, (hasText_size size some_).mp starts⟩

/-- **When a code comes back from its text.** With a size, the text of an earlier row that
goes on behind it is taken for it. -/
theorem code_text_inverts_iff (table : List CodeText) (codes : (table.map CodeText.code).Nodup)
    (small : ∀ row ∈ table, row.code.toNat < 2 ^ 31) (texts : (table.map CodeText.text).Nodup) (row : CodeText)
    (mem : row ∈ table) : CodeComesBack table row.code ↔ ¬ Hidden table row := by
  have found := codeToText_of codes mem
  constructor
  · rintro ⟨text, same, _, back⟩ hidden
    cases found.symm.trans same
    have size : (UInt32.ofNat row.text.1.length).toNat = row.text.1.length := UInt32.toNat_ofNat_of_lt' hidden.2.1
    have here := back _ size
    obtain ⟨r, first⟩ : ∃ r, table.find? (·.hasText row.text (UInt32.ofNat row.text.1.length)) = some r :=
      Option.isSome_iff_exists.mp (List.find?_isSome.mpr ⟨row, mem, (hasText_size size hidden.1).mpr (List.prefix_refl _)⟩)
    have inside := List.mem_of_find?_eq_some first
    rw [textToCode_of first (small r inside)] at here
    have code : r.code = row.code := UInt32.toNat_inj.mp (Int.ofNat_inj.mp here)
    rw [List.inj_on_of_nodup_map codes inside mem code] at first
    exact (find_size_iff texts mem size hidden.1).mp first hidden
  · intro shown
    refine ⟨row.text, found, textToCode_zero texts mem (small row mem), fun n size => ?_⟩
    by_cases none_ : row.text.1 = []
    · have zero : n = 0 := UInt32.toNat_inj.mp (by rw [size, none_]; rfl)
      rw [zero]
      exact textToCode_zero texts mem (small row mem)
    · exact textToCode_of ((find_size_iff texts mem size none_).mpr shown) (small row mem)

/-- The rows `1 ab`, `2 abc`. -/
def longerLast : List CodeText :=
  [⟨1, ⟨['a', 'b'].map Char.toUInt8, by decide⟩⟩, ⟨2, ⟨['a', 'b', 'c'].map Char.toUInt8, by decide⟩⟩]

theorem code_text_inverts_iff_last :
    let row : CodeText := ⟨1, ⟨['a', 'b'].map Char.toUInt8, by decide⟩⟩
    CodeComesBack longerLast row.code ↔ ¬ Hidden longerLast row :=
  code_text_inverts_iff longerLast (by decide) (by decide) (by decide) _ (by simp [longerLast])

/-- With the rows in the other order, the code of `ab` comes back as that of `abc`. -/
theorem longer_text_first :
    stdCodeToText 1 (some longerLast.reverse) = some ⟨['a', 'b'].map Char.toUInt8, by decide⟩ ∧
      stdTextToCode ⟨['a', 'b'].map Char.toUInt8, by decide⟩ 2 (some longerLast.reverse) = 2 ∧
      ¬ CodeComesBack longerLast.reverse 1 := by
  have text : stdCodeToText 1 (some longerLast.reverse) = some ⟨['a', 'b'].map Char.toUInt8, by decide⟩ := by decide
  have code : stdTextToCode ⟨['a', 'b'].map Char.toUInt8, by decide⟩ 2 (some longerLast.reverse) = 2 := by decide
  refine ⟨text, code, ?_⟩
  rintro ⟨text', same, _, back⟩
  cases text.symm.trans same
  have here := back 2 rfl
  rw [code] at here
  revert here
  decide

/-! ## Integers -/

/-- `array_map[ix]`. -/
abbrev MapRow := List Int32

/-- `array_map[ix][field]`. -/
def entry (row : MapRow) (field : Int32) : Except Fault Int32 :=
  if 0 ≤ field.toInt then deref row[field.toInt.toNat]? else throw .nullPointer

/-- `std_int_translate`, which does not read its first argument. -/
def stdIntTranslate (_from field returnedField : Int32) : List MapRow → Except Fault Int32
  | [] => return -1
  | row :: arrayMap => do
    if (← entry row field) = field then entry row returnedField
    else stdIntTranslate _from field returnedField arrayMap

/-- The value of a row in a column that it has. -/
def MapRow.value (row : MapRow) (field : Int32) : Int32 := row.getD field.toInt.toNat 0

def column (arrayMap : List MapRow) (field : Int32) : List Int32 := arrayMap.map (·.value field)

/-- Every row has the column, whose values are distinct and not -1. -/
structure IsColumn (arrayMap : List MapRow) (field : Int32) : Prop where
  nonneg : 0 ≤ field.toInt
  inside : ∀ row ∈ arrayMap, field.toInt.toNat < row.length
  distinct : (column arrayMap field).Nodup
  never : -1 ∉ column arrayMap field

/-- A value of column `a` comes back from column `b`, and -1 says that it is none. -/
structure IntComesBack (arrayMap : List MapRow) (a b v : Int32) : Prop where
  back : v ∈ column arrayMap a →
    ∃ w, stdIntTranslate v a b arrayMap = .ok w ∧ stdIntTranslate w b a arrayMap = .ok v
  missing : stdIntTranslate v a b arrayMap = .ok (-1) ↔ v ∉ column arrayMap a

variable {arrayMap : List MapRow} {a b v w : Int32}

theorem entry_of (ha : IsColumn arrayMap a) {row : MapRow} (mem : row ∈ arrayMap) : entry row a = .ok (row.value a) := by
  have inside := ha.inside row mem
  rw [entry, if_pos ha.nonneg, List.getElem?_eq_getElem inside, MapRow.value, List.getD_eq_getElem?_getD,
    List.getElem?_eq_getElem inside]
  rfl

/-- The search is for the number of the column itself. -/
theorem intTranslate_of (ha : IsColumn arrayMap a) (hb : IsColumn arrayMap b) (v : Int32) :
    stdIntTranslate v a b arrayMap =
      .ok (((arrayMap.find? fun row => row.value a = a).map (MapRow.value · b)).getD (-1)) := by
  have left (row : MapRow) (mem : row ∈ arrayMap) := entry_of ha mem
  have right (row : MapRow) (mem : row ∈ arrayMap) := entry_of hb mem
  clear ha hb
  induction arrayMap with
  | nil => rfl
  | cons row arrayMap ih =>
    obtain ⟨here, left⟩ := List.forall_mem_cons.mp left
    obtain ⟨here', right⟩ := List.forall_mem_cons.mp right
    rw [stdIntTranslate, here, ok_bind, List.find?_cons]
    by_cases same : row.value a = a
    · rw [if_pos same, here', decide_eq_true same]
      rfl
    · rw [if_neg same, decide_eq_false same]
      exact ih left right

theorem mem_column : v ∈ column arrayMap a ↔ ∃ row ∈ arrayMap, row.value a = v := List.mem_map

/-- What is returned is -1 when no row has the number of the column. -/
theorem intTranslate_missing (ha : IsColumn arrayMap a) (hb : IsColumn arrayMap b) (v : Int32) :
    stdIntTranslate v a b arrayMap = .ok (-1) ↔ a ∉ column arrayMap a := by
  rw [intTranslate_of ha hb, Except.ok.injEq]
  constructor
  · rintro none_ known
    obtain ⟨row, mem, value⟩ := mem_column.mp known
    obtain ⟨found, first⟩ : ∃ found, (arrayMap.find? fun row => row.value a = a) = some found :=
      Option.isSome_iff_exists.mp (List.find?_isSome.mpr ⟨row, mem, decide_eq_true value⟩)
    rw [first, Option.map_some, Option.getD_some] at none_
    exact hb.never (mem_column.mpr ⟨found, List.mem_of_find?_eq_some first, none_⟩)
  · intro unknown
    have none_ : (arrayMap.find? fun row => row.value a = a) = none := by
      apply List.find?_eq_none.mpr
      intro row mem value
      exact unknown (mem_column.mpr ⟨row, mem, of_decide_eq_true value⟩)
    rw [none_]
    rfl

/-- What is returned is a value of the row that has the number of the column. -/
theorem intTranslate_value (ha : IsColumn arrayMap a) (hb : IsColumn arrayMap b) (v : Int32) (some_ : w ≠ -1) :
    stdIntTranslate v a b arrayMap = .ok w ↔ ∃ row ∈ arrayMap, row.value a = a ∧ row.value b = w := by
  rw [intTranslate_of ha hb, Except.ok.injEq]
  constructor
  · intro value
    cases first : arrayMap.find? fun row => row.value a = a with
    | none =>
      rw [first] at value
      exact absurd value.symm some_
    | some row =>
      rw [first] at value
      exact ⟨row, List.mem_of_find?_eq_some first, by simpa using List.find?_some first, value⟩
  · rintro ⟨row, mem, here, rfl⟩
    have first := find_distinct ha.distinct mem
    rw [here] at first
    rw [first]
    rfl

/-- **When an integer comes back from another column.** The function looks for the number
of the column, and not for the value. -/
theorem int_mapping_inverts_iff (arrayMap : List MapRow) (a b : Int32) (ha : IsColumn arrayMap a) (hb : IsColumn arrayMap b) :
    (∀ v, IntComesBack arrayMap a b v ↔ (a ∈ column arrayMap a ↔ v ∈ column arrayMap a) ∧
      (v ∈ column arrayMap a → ∃ row ∈ arrayMap, row.value b = b ∧ row.value a = v)) ∧
    ((∀ v, IntComesBack arrayMap a b v) ↔ arrayMap = []) := by
  have each (v : Int32) : IntComesBack arrayMap a b v ↔ (a ∈ column arrayMap a ↔ v ∈ column arrayMap a) ∧
      (v ∈ column arrayMap a → ∃ row ∈ arrayMap, row.value b = b ∧ row.value a = v) := by
    have some_ (known : v ∈ column arrayMap a) : v ≠ -1 := by
      rintro rfl
      exact ha.never known
    constructor
    · rintro ⟨back, missing⟩
      refine ⟨not_iff_not.mp ((intTranslate_missing ha hb v).symm.trans missing), fun known => ?_⟩
      obtain ⟨w, _, returns⟩ := back known
      exact (intTranslate_value hb ha w (some_ known)).mp returns
    · rintro ⟨same, row⟩
      refine ⟨fun known => ⟨_, intTranslate_of ha hb v, ?_⟩, (intTranslate_missing ha hb v).trans (not_congr same)⟩
      exact (intTranslate_value hb ha _ (some_ known)).mpr (row known)
  refine ⟨each, fun all => ?_, ?_⟩
  · by_contra some_
    obtain ⟨row, rows, rfl⟩ := List.exists_cons_of_ne_nil some_
    have none_ : a ∉ column (row :: rows) a := fun known => ha.never (((each (-1)).mp (all (-1))).1.mp known)
    exact none_ (((each _).mp (all (row.value a))).1.mpr (mem_column.mpr ⟨row, List.mem_cons_self, rfl⟩))
  · rintro rfl v
    rw [each]
    simp [column]

/-- Two rows of two columns. -/
def twoRows : List MapRow := [[10, 20], [11, 21]]

theorem int_mapping_inverts_iff_two :
    (∀ v, IntComesBack twoRows 0 1 v ↔ (0 ∈ column twoRows 0 ↔ v ∈ column twoRows 0) ∧
      (v ∈ column twoRows 0 → ∃ row ∈ twoRows, row.value 1 = 1 ∧ row.value 0 = v)) ∧
    ((∀ v, IntComesBack twoRows 0 1 v) ↔ twoRows = []) :=
  int_mapping_inverts_iff twoRows 0 1 ⟨by decide, by decide, by decide, by decide⟩ ⟨by decide, by decide, by decide, by decide⟩

/-- 10 is in the first column, and is not found. -/
theorem value_not_found : stdIntTranslate 10 0 1 twoRows = .ok (-1) ∧ ¬ IntComesBack twoRows 0 1 10 := by
  refine ⟨rfl, fun back => ?_⟩
  exact (back.missing.mp rfl) (by decide)

end SonicUtils.Tables
