import SonicUtils.Tlv.Model
import Mathlib.Logic.Relation

/-!
# Searches through TLVs

What `std_tlv_find_next` and `std_tlv_efind` do on bytes of any origin. The
total length of a TLV is its declared length and 16 in 64-bit arithmetic: a
declared length of 2^64 - 16 or more wraps.

* `search_ends_iff`: a search ends unless it meets a TLV of another tag whose
  total length wraps to 0;
* `search_inside_iff`: what is found is inside the input unless a TLV on the
  path has a total length that wraps.
-/

namespace SonicUtils.Tlv

open SonicUtils.Bytes Relation

/-- A pointer, and how many bytes there are from it on. -/
abbrev Position := UInt64 × UInt64

variable {mem : Mem} {tag : UInt64} {tags : List UInt64} {s t q : Position}

/-- `s` is at a TLV of another tag and the search goes on from `t`. -/
structure Skips (mem : Mem) (tag : UInt64) (s t : Position) : Prop where
  valid : stdTlvValid mem s.1 s.2 = true
  other : stdTlvTag mem s.1 ≠ tag
  next : stdTlvNext mem s.1 s.2 = t
  more : t.1 ≠ null

/-- A search from `s` comes to `t`. -/
def Meets (mem : Mem) (tag : UInt64) : Position → Position → Prop := ReflTransGen (Skips mem tag)

/-- The first TLV with the tag, from `s` on, is at `t`. -/
structure Found (mem : Mem) (tag : UInt64) (s t : Position) : Prop where
  meets : Meets mem tag s t
  valid : stdTlvValid mem t.1 t.2 = true
  same : stdTlvTag mem t.1 = tag

/-- The contents of the TLV at `q`. -/
def inner (mem : Mem) (q : Position) : Position := (stdTlvData q.1, stdTlvLen mem q.1)

/-- What the loop returns, with any fuel that is enough. -/
def Ends (mem : Mem) (tag : UInt64) (s r : Position) : Prop :=
  ∃ N, ∀ fuel ≥ N, stdTlvFindNext mem tag fuel s.1 s.2 = .ok r

theorem valid_iff : stdTlvValid mem s.1 s.2 = true ↔
    s.1 ≠ null ∧ stdTlvTotalLen mem s.1 ≤ s.2 := by
  simp [stdTlvValid]

theorem next_of_valid (valid : stdTlvValid mem s.1 s.2 = true) :
    stdTlvNext mem s.1 s.2 =
      (s.1 + stdTlvTotalLen mem s.1, s.2 - stdTlvTotalLen mem s.1) := by
  obtain ⟨some, room⟩ := valid_iff.mp valid
  unfold stdTlvNext
  rw [if_neg some, if_neg (UInt64.not_lt.mpr room)]
  rfl

theorem findNext_skips (skips : Skips mem tag s t) (fuel : Nat) :
    stdTlvFindNext mem tag (fuel + 1) s.1 s.2 = stdTlvFindNext mem tag fuel t.1 t.2 := by
  simp [stdTlvFindNext, skips.valid, skips.other, skips.next, skips.more]

theorem findNext_found (valid : stdTlvValid mem s.1 s.2 = true)
    (same : stdTlvTag mem s.1 = tag) (fuel : Nat) :
    stdTlvFindNext mem tag (fuel + 1) s.1 s.2 = .ok s := by
  simp [stdTlvFindNext, valid, same]

/-- One round of the loop: it goes on, it is at the TLV, or it returns `NULL`. -/
theorem findNext_cases (mem : Mem) (tag : UInt64) (s : Position) :
    (∃ t, Skips mem tag s t) ∨ Found mem tag s s ∨
      ∃ len, ∀ fuel, stdTlvFindNext mem tag (fuel + 1) s.1 s.2 = .ok (null, len) := by
  by_cases valid : stdTlvValid mem s.1 s.2 = true
  · by_cases same : stdTlvTag mem s.1 = tag
    · exact .inr (.inl ⟨.refl, valid, same⟩)
    · by_cases more : (stdTlvNext mem s.1 s.2).1 = null
      · refine .inr (.inr ⟨(stdTlvNext mem s.1 s.2).2, fun fuel => ?_⟩)
        simp [stdTlvFindNext, valid, same, more]
      · exact .inl ⟨_, valid, same, rfl, more⟩
  · refine .inr (.inr ⟨s.2, fun fuel => ?_⟩)
    simp [stdTlvFindNext, valid]

theorem Ends.skips (skips : Skips mem tag s t) {r : Position} (ends : Ends mem tag t r) :
    Ends mem tag s r := by
  obtain ⟨N, enough⟩ := ends
  refine ⟨N + 1, fun fuel hf => ?_⟩
  cases fuel with
  | zero => omega
  | succ fuel => rw [findNext_skips skips, enough fuel (by omega)]

theorem Found.ends (found : Found mem tag s t) : Ends mem tag s t := by
  obtain ⟨meets, valid, same⟩ := found
  induction meets using ReflTransGen.head_induction_on with
  | refl =>
    refine ⟨1, fun fuel hf => ?_⟩
    cases fuel with
    | zero => omega
    | succ fuel => exact findNext_found valid same fuel
  | head skips _ ih => exact ih.skips skips

theorem Ends.unique {r r' : Position} (one : Ends mem tag s r) (two : Ends mem tag s r') :
    r = r' := by
  obtain ⟨N, h⟩ := one
  obtain ⟨N', h'⟩ := two
  have same := (h (N + N') (by omega)).symm.trans (h' (N + N') (by omega))
  exact Except.ok.inj same

/-- What the loop returns, if it returns. -/
theorem findNext_returns {fuel : Nat} {r : Position}
    (run : stdTlvFindNext mem tag fuel s.1 s.2 = .ok r) :
    Ends mem tag s r ∧ (r.1 ≠ null → Found mem tag s r) := by
  induction fuel generalizing s with
  | zero => cases run
  | succ fuel ih =>
    obtain ⟨t, skips⟩ | found | ⟨len, none⟩ := findNext_cases mem tag s
    · rw [findNext_skips skips] at run
      obtain ⟨ends, found⟩ := ih run
      refine ⟨ends.skips skips, fun some => ?_⟩
      obtain ⟨meets, valid, same⟩ := found some
      exact ⟨meets.head skips, valid, same⟩
    · rw [findNext_found found.valid found.same] at run
      cases run
      exact ⟨found.ends, fun _ => found⟩
    · rw [none] at run
      cases run
      refine ⟨⟨1, fun fuel hf => ?_⟩, fun some => absurd rfl some⟩
      cases fuel with
      | zero => omega
      | succ fuel => exact none fuel

/-- `t` is at a TLV of another tag whose total length is 0 in 64 bits. -/
structure Stuck (mem : Mem) (tag : UInt64) (t : Position) : Prop where
  some : t.1 ≠ null
  other : stdTlvTag mem t.1 ≠ tag
  wraps : (stdTlvLen mem t.1).toNat = 2 ^ 64 - 16

def Stalls (mem : Mem) (tag : UInt64) (s : Position) : Prop :=
  ∃ t, Meets mem tag s t ∧ Stuck mem tag t

theorem total_toNat (mem : Mem) (data : UInt64) :
    (stdTlvTotalLen mem data).toNat = ((stdTlvLen mem data).toNat + 16) % 2 ^ 64 :=
  UInt64.toNat_add ..

theorem total_eq_zero_iff (mem : Mem) (data : UInt64) :
    (stdTlvTotalLen mem data).toNat = 0 ↔ (stdTlvLen mem data).toNat = 2 ^ 64 - 16 := by
  have bound := (stdTlvLen mem data).toNat_lt
  rw [total_toNat]
  omega

/-- A step takes the total length off what is left. -/
theorem Skips.lengths (skips : Skips mem tag s t) :
    t.2.toNat + (stdTlvTotalLen mem s.1).toNat = s.2.toNat := by
  have room := (valid_iff.mp skips.valid).2
  have exact_ := UInt64.toNat_sub_of_le _ _ room
  have small := UInt64.le_iff_toNat_le.mp room
  rw [← skips.next, next_of_valid skips.valid]
  dsimp only
  omega

theorem Stuck.skips (stuck : Stuck mem tag t) : Skips mem tag t t := by
  have none : stdTlvTotalLen mem t.1 = 0 :=
    UInt64.toNat_inj.mp ((total_eq_zero_iff mem t.1).mpr stuck.wraps)
  have valid : stdTlvValid mem t.1 t.2 = true := by
    rw [valid_iff, none]
    exact ⟨stuck.some, UInt64.zero_le⟩
  refine ⟨valid, stuck.other, ?_, stuck.some⟩
  rw [next_of_valid valid, none, UInt64.add_zero, UInt64.sub_zero]

/-- A step that meets no such TLV makes the length smaller. -/
theorem Skips.shrinks_iff (skips : Skips mem tag s t) : t.2 < s.2 ↔ ¬ Stuck mem tag s := by
  have lengths := skips.lengths
  rw [UInt64.lt_iff_toNat_lt]
  constructor
  · intro less stuck
    have zero := (total_eq_zero_iff mem s.1).mpr stuck.wraps
    omega
  · intro free
    have some : (stdTlvTotalLen mem s.1).toNat ≠ 0 := fun zero =>
      free ⟨(valid_iff.mp skips.valid).1, skips.other, (total_eq_zero_iff mem s.1).mp zero⟩
    omega

theorem Stalls.head (skips : Skips mem tag s t) (stalls : Stalls mem tag t) : Stalls mem tag s := by
  obtain ⟨stop, meets, stuck⟩ := stalls
  exact ⟨stop, meets.head skips, stuck⟩

/-- A stalled search runs out of any fuel. -/
theorem Stalls.never (stalls : Stalls mem tag s) (fuel : Nat) :
    stdTlvFindNext mem tag fuel s.1 s.2 = .error .noReturn := by
  obtain ⟨stop, meets, stuck⟩ := stalls
  induction fuel generalizing s with
  | zero => rfl
  | succ fuel ih =>
    cases meets using ReflTransGen.head_induction_on with
    | refl => rw [findNext_skips stuck.skips, ih .refl]
    | head skips meets _ => rw [findNext_skips skips, ih meets]

theorem ends_of_not_stalls (free : ¬ Stalls mem tag s) : ∃ r, Ends mem tag s r := by
  induction len : s.2.toNat using Nat.strongRecOn generalizing s with
  | ind n ih =>
    obtain ⟨t, skips⟩ | found | ⟨len, none⟩ := findNext_cases mem tag s
    · have here : ¬ Stuck mem tag s := fun stuck => free ⟨s, .refl, stuck⟩
      have less := UInt64.lt_iff_toNat_lt.mp (skips.shrinks_iff.mpr here)
      obtain ⟨r, ends⟩ := ih t.2.toNat (len ▸ less) (fun stalls => free (stalls.head skips)) rfl
      exact ⟨r, ends.skips skips⟩
    · exact ⟨s, found.ends⟩
    · refine ⟨(null, len), 1, fun fuel hf => ?_⟩
      cases fuel with
      | zero => omega
      | succ fuel => exact none fuel

/-- The search for the path stalls at one of its tags. -/
def StallsOn (mem : Mem) : List UInt64 → Position → Prop
  | [], _ => False
  | tag :: tags, s => Stalls mem tag s ∨ ∃ q, Found mem tag s q ∧ StallsOn mem tags (inner mem q)

theorem efindLoop_cons {tag : UInt64} {fuel : Nat} {r : Position}
    (run : stdTlvFindNext mem tag fuel s.1 s.2 = .ok r) :
    efindLoop mem fuel s.1 s.2 (tag :: tags) =
      if r.1 = null then .ok none
      else if tags = [] then .ok (some r)
      else efindLoop mem fuel (inner mem r).1 (inner mem r).2 tags := by
  simp only [efindLoop, run, ok_bind, inner]
  rfl

/-- Where one of the searches stalls the loop over the tags does not return. -/
theorem StallsOn.never (stalls : StallsOn mem tags s) (fuel : Nat) (out : Option Position) :
    efindLoop mem fuel s.1 s.2 tags ≠ .ok out := by
  induction tags generalizing s with
  | nil => exact stalls.elim
  | cons tag tags ih =>
    intro returned
    cases stalls with
    | inl here =>
      rw [efindLoop, here.never fuel] at returned
      cases returned
    | inr deeper =>
      obtain ⟨q, found, stalls⟩ := deeper
      cases run : stdTlvFindNext mem tag fuel s.1 s.2 with
      | error fault =>
        rw [efindLoop, run] at returned
        cases returned
      | ok r =>
        obtain rfl : r = q := (findNext_returns run).1.unique found.ends
        have some : r.1 ≠ null := (valid_iff.mp found.valid).1
        have longer : tags ≠ [] := fun none => by rw [none] at stalls; exact stalls
        rw [efindLoop_cons run, if_neg some, if_neg longer] at returned
        exact ih stalls returned

theorem efindLoop_ends (free : ¬ StallsOn mem tags s) :
    ∃ out N, ∀ fuel ≥ N, efindLoop mem fuel s.1 s.2 tags = .ok out := by
  induction tags generalizing s with
  | nil => exact ⟨some s, 0, fun _ _ => rfl⟩
  | cons tag tags ih =>
    obtain ⟨r, ends⟩ := ends_of_not_stalls fun stalls => free (.inl stalls)
    obtain ⟨N, here⟩ := ends
    by_cases none : r.1 = null
    · refine ⟨.none, N, fun fuel hf => ?_⟩
      rw [efindLoop_cons (here fuel hf), if_pos none]
    · have found := (findNext_returns (here N (Nat.le_refl _))).2 none
      obtain ⟨out, N', rest⟩ := ih fun stalls => free (.inr ⟨r, found, stalls⟩)
      by_cases last : tags = []
      · refine ⟨some r, N, fun fuel hf => ?_⟩
        rw [efindLoop_cons (here fuel hf), if_neg none, if_pos last]
      · refine ⟨out, N + N', fun fuel hf => ?_⟩
        rw [efindLoop_cons (here fuel (by omega)), if_neg none, if_neg last, rest fuel (by omega)]

theorem efind_eq {fuel : Nat} {out : Option Position}
    (run : efindLoop mem fuel s.1 s.2 tags = .ok out) :
    stdTlvEfind mem fuel s.1 s.2 tags = .ok (out.getD (null, s.2)) := by
  rw [stdTlvEfind, run]
  cases out <;> rfl

/-- Every step that the search from `s` takes makes the length smaller, and it
returns. -/
def EndsWell (mem : Mem) (tag : UInt64) (s : Position) : Prop :=
  (∀ t u, Meets mem tag s t → Skips mem tag t u → u.2 < t.2) ∧
    ∃ fuel r, stdTlvFindNext mem tag fuel s.1 s.2 = .ok r

/-- **When a search ends.** A search makes progress and returns exactly when it
meets no TLV of another tag that declares 2^64 - 16 bytes, and a search for a
path returns exactly when none of its searches meets one. -/
theorem search_ends_iff (mem : Mem) (s : Position) :
    (∀ tag, EndsWell mem tag s ↔ ¬ Stalls mem tag s) ∧
    ∀ tags, (∃ fuel r, stdTlvEfind mem fuel s.1 s.2 tags = .ok r) ↔ ¬ StallsOn mem tags s := by
  constructor
  · intro tag
    constructor
    · rintro ⟨_, fuel, r, run⟩ stalls
      rw [stalls.never fuel] at run
      cases run
    · intro free
      refine ⟨fun t u meets skips => ?_, ?_⟩
      · exact skips.shrinks_iff.mpr fun stuck => free ⟨t, meets, stuck⟩
      · obtain ⟨r, N, ends⟩ := ends_of_not_stalls free
        exact ⟨N, r, ends N (Nat.le_refl _)⟩
  · intro tags
    constructor
    · rintro ⟨fuel, r, run⟩ stalls
      cases loop : efindLoop mem fuel s.1 s.2 tags with
      | error fault =>
        rw [stdTlvEfind, loop] at run
        cases run
      | ok out => exact stalls.never fuel out loop
    · intro free
      obtain ⟨out, N, ends⟩ := efindLoop_ends free
      exact ⟨N, _, efind_eq (ends N (Nat.le_refl _))⟩

/-- Sixteen bytes: tag 0 and the length 2^64 - 16. -/
def wrapping : Mem := fun a =>
  if a = 0x1008 then 0xf0 else if 0x1008 < a ∧ a < 0x1010 then 0xff else 0

/-- The search for tag 1 in the sixteen bytes does not end. -/
theorem search_never_ends : ¬ ∀ mem tag s, EndsWell mem tag s := by
  intro ends
  obtain ⟨_, fuel, r, run⟩ := ends wrapping 1 (0x1000, 16)
  have stuck : Stuck wrapping 1 (0x1000, 16) := ⟨by decide, by decide, by decide⟩
  rw [Stalls.never ⟨_, .refl, stuck⟩] at run
  cases run

/-- What is at `t` is part of what is at `s`. -/
def Within (s t : Position) : Prop :=
  ∃ off : Nat, t.1 = s.1 + .ofNat off ∧ off + t.2.toNat ≤ s.2.toNat

theorem Within.refl (s : Position) : Within s s :=
  ⟨0, (UInt64.add_zero _).symm, by omega⟩

theorem Within.trans (st : Within s t) (tq : Within t q) : Within s q := by
  obtain ⟨off, here, room⟩ := st
  obtain ⟨off', there, room'⟩ := tq
  refine ⟨off + off', ?_, by omega⟩
  rw [there, here, UInt64.ofNat_add, UInt64.add_assoc]

/-- The header and the declared length of the TLV at `t` are in the bytes at
`s`, and so is what is left from `t` on. -/
def Inside (mem : Mem) (s t : Position) : Prop :=
  ∃ off : Nat, t.1 = s.1 + .ofNat off ∧
    off + 16 + (stdTlvLen mem t.1).toNat ≤ s.2.toNat ∧ off + t.2.toNat ≤ s.2.toNat

/-- The total length of the TLV wraps. -/
def Hostile (mem : Mem) (data : UInt64) : Prop := 2 ^ 64 - 16 ≤ (stdTlvLen mem data).toNat

theorem Skips.within (skips : Skips mem tag s t) : Within s t := by
  have lengths := skips.lengths
  refine ⟨(stdTlvTotalLen mem s.1).toNat, ?_, by omega⟩
  rw [← skips.next, next_of_valid skips.valid, UInt64.ofNat_toNat]

theorem Meets.within (meets : Meets mem tag s t) : Within s t := by
  induction meets with
  | refl => exact .refl s
  | tail _ skips ih => exact ih.trans skips.within

theorem total_of_honest {data : UInt64} (honest : ¬ Hostile mem data) :
    (stdTlvTotalLen mem data).toNat = (stdTlvLen mem data).toNat + 16 := by
  unfold Hostile at honest
  rw [total_toNat]
  omega

/-- A TLV that is taken to be valid, and whose length does not wrap. -/
theorem room_of_honest (valid : stdTlvValid mem t.1 t.2 = true) (honest : ¬ Hostile mem t.1) :
    (stdTlvLen mem t.1).toNat + 16 ≤ t.2.toNat := by
  rw [← total_of_honest honest]
  exact UInt64.le_iff_toNat_le.mp (valid_iff.mp valid).2

theorem Found.inside (found : Found mem tag s t) (honest : ¬ Hostile mem t.1) : Inside mem s t := by
  obtain ⟨off, here, left⟩ := found.meets.within
  have room := room_of_honest found.valid honest
  exact ⟨off, here, by omega, left⟩

theorem Found.inner (found : Found mem tag s t) (honest : ¬ Hostile mem t.1) :
    Within s (inner mem t) := by
  have room := room_of_honest found.valid honest
  apply found.meets.within.trans
  exact ⟨16, rfl, by simpa [Tlv.inner, Nat.add_comm] using room⟩

theorem not_inside_of_hostile (hostile : Hostile mem t.1) : ¬ Inside mem s t := by
  rintro ⟨off, _, room, _⟩
  have bound := s.2.toNat_lt
  unfold Hostile at hostile
  omega

/-- The path of tags leads from `s` to the TLV at `t`. -/
inductive Leads (mem : Mem) : Position → List UInt64 → Position → Prop
  | last {tag : UInt64} {s t : Position} : Found mem tag s t → Leads mem s [tag] t
  | enter {tag : UInt64} {tags : List UInt64} {s q t : Position} :
      Found mem tag s q → Leads mem (inner mem q) tags t → Leads mem s (tag :: tags) t

theorem Leads.ends (leads : Leads mem s tags t) :
    ∃ N, ∀ fuel ≥ N, efindLoop mem fuel s.1 s.2 tags = .ok (some t) := by
  induction leads with
  | last found =>
    obtain ⟨N, ends⟩ := found.ends
    refine ⟨N, fun fuel hf => ?_⟩
    rw [efindLoop_cons (ends fuel hf), if_neg (valid_iff.mp found.valid).1, if_pos rfl]
  | enter found rest ih =>
    obtain ⟨N, ends⟩ := found.ends
    obtain ⟨N', ends'⟩ := ih
    refine ⟨N + N', fun fuel hf => ?_⟩
    rw [efindLoop_cons (ends fuel (by omega)), if_neg (valid_iff.mp found.valid).1,
      if_neg (by cases rest <;> simp), ends' fuel (by omega)]

theorem efindLoop_leads {fuel : Nat} (some_ : tags ≠ [])
    (run : efindLoop mem fuel s.1 s.2 tags = .ok (some t)) : Leads mem s tags t := by
  induction tags generalizing s with
  | nil => exact absurd rfl some_
  | cons tag tags ih =>
    cases first : stdTlvFindNext mem tag fuel s.1 s.2 with
    | error fault =>
      rw [efindLoop, first] at run
      cases run
    | ok r =>
      rw [efindLoop_cons first] at run
      split at run
      · cases run
      · have found := (findNext_returns first).2 ‹_›
        split at run
        · subst tags
          cases run
          exact .last found
        · exact .enter found (ih ‹_› run)

/-- The results of a search for the path, from `s` on, are inside. -/
def StaysInside (mem : Mem) (s : Position) (tags : List UInt64) : Prop :=
  ∀ fuel q, stdTlvEfind mem fuel s.1 s.2 tags = .ok q → q.1 ≠ null → Inside mem s q

theorem Leads.inside (leads : Leads mem s tags t)
    (honest : ∀ ts q, ts <+: tags → Leads mem s ts q → ¬ Hostile mem q.1) : Inside mem s t := by
  induction leads with
  | last found => exact found.inside (honest _ _ (List.prefix_refl _) (.last found))
  | @enter tag tags s q t found rest ih =>
    have here := honest [tag] q ⟨tags, rfl⟩ (.last found)
    obtain ⟨off, at_, room, left⟩ := ih fun ts r up leads =>
      honest (tag :: ts) r (List.cons_prefix_cons.mpr ⟨rfl, up⟩) (.enter found leads)
    obtain ⟨off', at', room'⟩ := found.inner here
    refine ⟨off' + off, ?_, by omega, by omega⟩
    rw [at_, at', UInt64.ofNat_add, UInt64.add_assoc]

theorem efind_leads {fuel : Nat} (some_ : tags ≠ []) (hq : q.1 ≠ null)
    (run : stdTlvEfind mem fuel s.1 s.2 tags = .ok q) : Leads mem s tags q := by
  cases loop : efindLoop mem fuel s.1 s.2 tags with
  | error fault =>
    rw [stdTlvEfind, loop] at run
    cases run
  | ok out =>
    rw [efind_eq loop] at run
    cases out with
    | none =>
      cases run
      exact absurd rfl hq
    | some r =>
      cases run
      exact efindLoop_leads some_ loop

theorem Leads.some (leads : Leads mem s tags t) : t.1 ≠ null := by
  induction leads with
  | last found => exact (valid_iff.mp found.valid).1
  | enter _ _ ih => exact ih

theorem Leads.efind (leads : Leads mem s tags t) :
    ∃ fuel, stdTlvEfind mem fuel s.1 s.2 tags = .ok t := by
  obtain ⟨N, ends⟩ := leads.ends
  exact ⟨N, efind_eq (ends N (Nat.le_refl _))⟩

/-- **When what is found is inside.** A search for one tag stays inside the
input exactly when the TLV that it finds does not wrap. The searches along a
path stay inside exactly when no TLV that the path leads to wraps. -/
theorem search_inside_iff (mem : Mem) (s : Position) :
    (∀ tag,
      (∀ fuel q, stdTlvFindNext mem tag fuel s.1 s.2 = .ok q → q.1 ≠ null → Inside mem s q) ↔
        ∀ q, Found mem tag s q → ¬ Hostile mem q.1) ∧
    ∀ tags, (∀ ts, ts <+: tags → ts ≠ [] → StaysInside mem s ts) ↔
      ∀ ts q, ts <+: tags → Leads mem s ts q → ¬ Hostile mem q.1 := by
  constructor
  · intro tag
    constructor
    · intro inside q found hostile
      obtain ⟨N, ends⟩ := found.ends
      have run := ends N (Nat.le_refl _)
      exact not_inside_of_hostile hostile (inside N q run (valid_iff.mp found.valid).1)
    · intro honest fuel q run some
      have found := (findNext_returns run).2 some
      exact found.inside (honest q found)
  · intro tags
    constructor
    · intro inside ts q up leads hostile
      obtain ⟨fuel, run⟩ := leads.efind
      have longer : ts ≠ [] := by cases leads <;> simp
      exact not_inside_of_hostile hostile (inside ts up longer fuel q run leads.some)
    · intro honest ts up longer fuel q run some
      apply (efind_leads longer some run).inside
      intro ts' r up' leads
      exact honest ts' r (up'.trans up) leads

/-- A search for tag 0 in the sixteen bytes finds them, as the header of a TLV
of 2^64 bytes. -/
theorem search_leaves_the_input : ¬ ∀ mem s tags, tags ≠ [] → StaysInside mem s tags := by
  intro inside
  have valid : stdTlvValid wrapping 0x1000 16 = true := by decide
  have same : stdTlvTag wrapping 0x1000 = 0 := by decide
  have wraps : (stdTlvLen wrapping 0x1000).toNat = 2 ^ 64 - 16 := by decide
  have hostile : Hostile wrapping 0x1000 := Nat.le_of_eq wraps.symm
  have leads : Leads wrapping (0x1000, 16) [0] (0x1000, 16) := .last ⟨.refl, valid, same⟩
  obtain ⟨fuel, run⟩ := leads.efind
  apply not_inside_of_hostile (s := (0x1000, 16)) (t := (0x1000, 16)) hostile
  exact inside wrapping (0x1000, 16) [0] (by simp) fuel _ run leads.some

end SonicUtils.Tlv
