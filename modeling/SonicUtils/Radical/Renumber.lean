import SonicUtils.Radical.Visits

/-!
# The versions after a wrap

`std_radical_procverwrap` numbers the entries of a change list from 1 on. It returns
the last number and leaves `rtt_version` to its caller.

* `renumber_spec`: what the loop writes;
* `procverwrap_renumbers`: the list afterwards, and the next append.
-/

namespace SonicUtils.Radical

open Radix LinkedList Dll Loop

variable {rtt rtt' : Rtt} {m h rth : HeadId} {xs as cs : List HeadId}

/-- `RDCL_HEADFROMDLL(std_dll_getfirst(&rtt->rtt_clhead))`. -/
def firstHead (rtt : Rtt) : Option HeadId :=
  match rtt.rttClhead.getfirst with
  | some (.item first) => some first
  | _ => none

/-- One turn of the loop, on `rth`, `rth_version` and the table. -/
def procverwrapTurn (s : Option HeadId × Version × Rtt) :
    Except Fault ((Option HeadId × Version × Rtt) ⊕ (Version × Rtt)) :=
  match s with
  | (none, ver, rtt) => return .inr (ver, rtt)
  | (some rth, ver, rtt) =>
    let ver := if isDummy (rtt.heads rth) then ver else ver + 1
    let rtt := setVersion rtt rth ver
    return .inl (next rtt rth, ver, rtt)

/-- `std_radical_procverwrap`. -/
def stdRadicalProcverwrap (rtt : Rtt) (fuel : Nat) : Except Fault (Version × Rtt) :=
  loop .noReturn procverwrapTurn fuel (firstHead rtt, 0, rtt)

/-- How many entries there are, as a version. -/
def number (rtt : Rtt) (xs : List HeadId) : Version := .ofNat (active rtt xs).length

/-- The heads of `xs` have the numbers that the entries up to them give. -/
def Numbered (rtt a : Rtt) (xs : List HeadId) : Prop :=
  ∀ as h cs, xs = as ++ h :: cs → (a.heads h).rthVersion = number rtt (as ++ [h])

theorem number_concat (rtt : Rtt) (as : List HeadId) (h : HeadId) :
    number rtt (as ++ [h]) = if isDummy (rtt.heads h) then number rtt as else number rtt as + 1 := by
  have split : active rtt (as ++ [h]) = active rtt as ++ active rtt [h] := List.filter_append ..
  rw [number, split, List.length_append]
  cases dummy : isDummy (rtt.heads h) with
  | true =>
    have none_ : active rtt [h] = [] := active_marker dummy
    rw [none_]
    rfl
  | false =>
    have one : active rtt [h] = [h] := active_entry dummy
    rw [one, List.length_singleton, UInt64.ofNat_add]
    rfl

/-- The loop numbers the rest of the list. -/
theorem renumber_spec {a : Rtt} (just : a.rttClhead.Just (as ++ cs)) (version : a.rttVersion = rtt.rttVersion)
    (flags : ∀ h, (a.heads h).rdclFlags = (rtt.heads h).rdclFlags) (numbered : Numbered rtt a as) :
    ∃ b, Ends .noReturn procverwrapTurn (cs.head?, number rtt as, a) (number rtt (as ++ cs), b) ∧
      b.rttClhead = a.rttClhead ∧ b.rttVersion = rtt.rttVersion ∧
      (∀ h, (b.heads h).rdclFlags = (rtt.heads h).rdclFlags) ∧ Numbered rtt b (as ++ cs) := by
  induction cs generalizing as a with
  | nil =>
    rw [List.append_nil]
    exact ⟨a, .done rfl, rfl, version, flags, numbered⟩
  | cons h cs ih =>
    have dummy : isDummy (a.heads h) = isDummy (rtt.heads h) := by rw [isDummy, flags, ← isDummy]
    let b := setVersion a h (number rtt (as ++ [h]))
    have turn : procverwrapTurn (some h, number rtt as, a) = .ok (.inl (cs.head?, number rtt (as ++ [h]), b)) := by
      have follows : next b h = cs.head? := next_of (just : b.rttClhead.Just _)
      simp only [procverwrapTurn, dummy, ← number_concat]
      rw [← follows]
      rfl
    have keeps : Carried h a b := carried_setVersion _
    have numbered' : Numbered rtt b (as ++ [h]) := by
      intro as' h' cs' split
      cases List.eq_nil_or_concat cs' with
      | inl none_ =>
        subst none_
        obtain ⟨rfl, same⟩ := List.append_inj' split rfl
        obtain rfl : h = h' := List.head_eq_of_cons_eq same
        have written : (b.heads h).rthVersion = number rtt (as ++ [h]) := by
          simp only [b, setVersion, heads_writeHead, if_pos]
        exact written
      | inr some_ =>
        obtain ⟨cs'', h'', rfl⟩ := some_
        rw [List.concat_eq_append, ← List.cons_append, ← List.append_assoc] at split
        obtain ⟨rfl, same⟩ := List.append_inj' split rfl
        have other : h' ≠ h := by
          rintro rfl
          have distinct := just.distinct
          simp [List.nodup_append] at distinct
        rw [keeps.versions h' other]
        exact numbered as' h' cs'' rfl
    rw [List.append_cons] at just ⊢
    obtain ⟨b', ends, clhead, version', flags', all⟩ := ih (a := b) just version (fun i => (keeps.flags i).trans (flags i)) numbered'
    exact ⟨b', .head turn ends, clhead, version', flags', all⟩

theorem Numbered.versions {a : Rtt} (numbered : Numbered rtt a (as ++ cs)) :
    (active rtt as).map (fun h => (a.heads h).rthVersion) = (List.range' 1 (active rtt as).length).map .ofNat := by
  induction as using List.reverseRecOn generalizing cs with
  | nil => rfl
  | append_singleton as h ih =>
    have here := numbered as h cs (by simp)
    have before := @ih (h :: cs) (by simpa using numbered)
    have split : active rtt (as ++ [h]) = active rtt as ++ active rtt [h] := List.filter_append ..
    cases dummy : isDummy (rtt.heads h) with
    | true =>
      have none_ : active rtt [h] = [] := active_marker dummy
      rw [split, none_, List.append_nil]
      exact before
    | false =>
      have one : active rtt [h] = [h] := active_entry dummy
      rw [number, split, one] at here
      rw [split, one, List.map_append, before, List.length_append, List.length_singleton, List.range'_concat, List.map_append]
      rw [List.length_append, List.length_singleton] at here
      simp [here, Nat.add_comm]

theorem Numbered.last {a : Rtt} (numbered : Numbered rtt a (as ++ cs)) :
    ((active rtt as).getLast?.map fun h => (a.heads h).rthVersion).getD 0 = number rtt as := by
  rw [← List.getLast?_map, numbered.versions, List.getLast?_map, List.getLast?_range', number]
  by_cases none_ : (active rtt as).length = 0
  · rw [if_pos none_, none_]
    rfl
  · rw [if_neg none_, Option.map_some, Option.getD_some, Nat.add_sub_cancel_left]

/-- What the call leaves: the same list, its entries numbered from 1 on, and each marker
with the version of the last entry before it. -/
structure Renumbered (rtt rtt' : Rtt) (xs : List HeadId) : Prop where
  listed : Listed rtt' xs
  entries : (active rtt' xs).map (fun h => (rtt'.heads h).rthVersion) =
    (List.range' 1 (active rtt xs).length).map .ofNat
  markers : ∀ as m cs, xs = as ++ m :: cs → isDummy (rtt'.heads m) = true →
    (rtt'.heads m).rthVersion = ((active rtt' as).getLast?.map fun h => (rtt'.heads h).rthVersion).getD 0

/-- The next append gets a later version than the entries have. -/
def AppendsLater (rtt : Rtt) (xs : List HeadId) : Prop :=
  ∀ rth, isDummy (rtt.heads rth) = false → ∀ ver rtt', stdRadicalAppendtochangelist rtt rth = .ok (ver, rtt') →
    ∀ h ∈ active rtt xs, (rtt.heads h).rthVersion < ver

/-- **After a wrap.** The versions are those of the numbering, whose last number is
returned; with it in `rtt_version` the appends go on behind all entries. -/
theorem procverwrap_renumbers (listed : Listed rtt xs) (wrapped : rtt.rttVersion = 0) :
    ∃ rtt', Returns (stdRadicalProcverwrap rtt) (number rtt xs, rtt') ∧ Renumbered rtt rtt' xs ∧ rtt'.rttVersion = 0 ∧
      ((active rtt xs).length + 1 < 2 ^ 64 → AppendsLater { rtt' with rttVersion := number rtt xs } xs) := by
  have first : firstHead rtt = xs.head? := by
    have item : rtt.rttClhead.getfirst = xs.head?.map .item := getnext_of listed.just.stands.next_head
    rw [firstHead, item]
    cases xs <;> rfl
  have start : Numbered rtt rtt [] := by
    intro as h cs split
    simp at split
  obtain ⟨b, ends, clhead, version, flags, numbered⟩ :=
    @renumber_spec rtt [] xs rtt listed.just rfl (fun _ => rfl) start
  rw [List.nil_append] at ends numbered
  have same (h : HeadId) : isDummy (b.heads h) = isDummy (rtt.heads h) := by rw [isDummy, flags, ← isDummy]
  have listed' : Listed b xs := listed.of_same clhead flags
  have split : xs = xs ++ [] := (List.append_nil xs).symm
  have versions := (split ▸ numbered : Numbered rtt b (xs ++ [])).versions
  refine ⟨b, ?_, ⟨listed', ?_, ?_⟩, version.trans wrapped, ?_⟩
  · have run : stdRadicalProcverwrap rtt = fun fuel => loop .noReturn procverwrapTurn fuel (xs.head?, number rtt [], rtt) := by
      funext fuel
      rw [stdRadicalProcverwrap, first]
      rfl
    rw [run]
    exact ends
  · rw [active_congr same]
    exact versions
  · intro as m cs whole dummy
    subst whole
    rw [active_congr same, numbered.last, numbered as m cs rfl, number_concat, if_pos ((same m).symm.trans dummy)]
  · intro small rth plain ver rtt' run h hh
    have numbers : Listed { b with rttVersion := number rtt xs } xs := listed'.of_same rfl fun _ => rfl
    obtain ⟨appended, _⟩ := (append_spec numbers plain).of_ok _ run
    have date : ver = number rtt xs + 1 := ((append_version _ _).of_ok _ run).trans appended.version
    have entry : h ∈ active b xs := hh
    rw [active_congr same] at entry
    have dated : (b.heads h).rthVersion ∈ (List.range' 1 (active rtt xs).length).map .ofNat := by
      rw [← versions]
      exact List.mem_map_of_mem entry
    obtain ⟨i, inside, version'⟩ := List.mem_map.mp dated
    rw [List.mem_range'_1] at inside
    change (b.heads h).rthVersion < ver
    rw [date, ← version', number, UInt64.lt_iff_toNat_lt, UInt64.toNat_add, UInt64.toNat_ofNat', UInt64.toNat_ofNat']
    change i % 2 ^ 64 < ((active rtt xs).length % 2 ^ 64 + 1) % 2 ^ 64
    omega

/-! ## A list with one entry -/

/-- `listAppended` when its version has wrapped. -/
def wrappedTable : Rtt := { listAppended with rttVersion := 0 }

theorem wrapped_listed : Listed wrappedTable [0] := listed_appended.of_same rfl fun _ => rfl

/-- `wrappedTable` after the call. -/
def renumberedTable : Rtt :=
  match stdRadicalProcverwrap wrappedTable 2 with
  | .ok (_, rtt) => rtt
  | .error _ => wrappedTable

/-- `rtt_version` is not set, and the next append gets the version of the entry. -/
theorem procverwrap_keeps_version : Listed wrappedTable [0] ∧ wrappedTable.rttVersion = 0 ∧
    Returns (stdRadicalProcverwrap wrappedTable) (1, renumberedTable) ∧ renumberedTable.rttVersion ≠ 1 ∧
      ¬AppendsLater renumberedTable [0] := by
  have run : stdRadicalProcverwrap wrappedTable 2 = .ok (1, renumberedTable) := rfl
  refine ⟨wrapped_listed, rfl, Ends.of_ok run, by decide, fun later => ?_⟩
  have again : ∃ rtt, stdRadicalAppendtochangelist renumberedTable 0 = .ok (1, rtt) := ⟨_, rfl⟩
  obtain ⟨rtt, append⟩ := again
  exact absurd (later 0 rfl 1 rtt append 0 (by decide)) (by decide)

theorem procverwrap_renumbers_one : ∃ rtt', Returns (stdRadicalProcverwrap wrappedTable) (number wrappedTable [0], rtt') ∧
    Renumbered wrappedTable rtt' [0] ∧ rtt'.rttVersion = 0 ∧
      ((active wrappedTable [0]).length + 1 < 2 ^ 64 →
        AppendsLater { rtt' with rttVersion := number wrappedTable [0] } [0]) :=
  procverwrap_renumbers wrapped_listed rfl

end SonicUtils.Radical
