import SonicUtils.Tlv.Lookup

/-!
# What a search reads

The addresses of the header fields that `std_tlv_find_next` and `std_tlv_efind` read,
eight bytes each, in the order of the reads.

* `mem_findNextReads`, `mem_efindReads`: at which places these are;
* `search_reads_iff`: when all of them are in the buffer.
-/

namespace SonicUtils.Tlv

open SonicUtils.Bytes Relation

variable {mem : Mem} {tag : UInt64} {tags : List UInt64} {s t q : Position} {a : UInt64} {fuel fuel' : Nat}

/-- The read of `std_tlv_len`, in `std_tlv_valid` and in `std_tlv_next`. -/
def lenReads (data : UInt64) : List UInt64 := if data = null then [] else [stdTlvOffset data stdTlvLenPos]

/-- The read of `std_tlv_tag`. -/
def tagReads (data : UInt64) : List UInt64 := [stdTlvOffset data stdTlvTagPos]

/-- The reads of `std_tlv_find_next`. -/
def findNextReads (mem : Mem) (tag : UInt64) : Nat → UInt64 → UInt64 → List UInt64
  | 0, _, _ => []
  | fuel + 1, data, dlen =>
    lenReads data ++
      if !stdTlvValid mem data dlen then []
      else tagReads data ++
        if stdTlvTag mem data = tag then []
        else lenReads data ++
          let (data, dlen) := stdTlvNext mem data dlen
          if data ≠ null then findNextReads mem tag fuel data dlen else []

/-- The reads of `std_tlv_efind`. -/
def efindReads (mem : Mem) (fuel : Nat) : UInt64 → UInt64 → List UInt64 → List UInt64
  | _, _, [] => []
  | data, len, tag :: tags =>
    findNextReads mem tag fuel data len ++
      match stdTlvFindNext mem tag fuel data len with
      | .error _ => []
      | .ok (data, _) =>
        if data = null then []
        else if tags = [] then []
        else lenReads data ++ efindReads mem fuel (stdTlvData data) (stdTlvLen mem data) tags

/-- The eight bytes at `a` are among the `n` bytes at `p`. -/
def InBuffer (p n a : UInt64) : Prop := (a - p).toNat + 8 ≤ n.toNat

/-- The fields that are read at `t` are in the buffer: that of the length, and that of
the tag if the length is no more than what is left. -/
def HeaderIn (mem : Mem) (p n : UInt64) (t : Position) : Prop :=
  t.1 ≠ null → InBuffer p n (t.1 + stdTlvLenPos) ∧ (stdTlvValid mem t.1 t.2 = true → InBuffer p n t.1)

/-- The search for the path comes to `t`. -/
inductive Comes (mem : Mem) : Position → List UInt64 → Position → Prop
  | here {tag : UInt64} {tags : List UInt64} {s t : Position} : Meets mem tag s t → Comes mem s (tag :: tags) t
  | deeper {tag : UInt64} {tags : List UInt64} {s q t : Position} :
      Found mem tag s q → Comes mem (inner mem q) tags t → Comes mem s (tag :: tags) t

/-- The field at `a` is read at `t`. -/
def ReadAt (mem : Mem) (t : Position) (a : UInt64) : Prop :=
  t.1 ≠ null ∧ (a = t.1 + stdTlvLenPos ∨ stdTlvValid mem t.1 t.2 = true ∧ a = t.1)

theorem headerIn_iff {p n : UInt64} : HeaderIn mem p n t ↔ ∀ a, ReadAt mem t a → InBuffer p n a := by
  constructor
  · rintro inside a ⟨some, rfl | ⟨valid, rfl⟩⟩
    · exact (inside some).1
    · exact (inside some).2 valid
  · intro all some
    exact ⟨all _ ⟨some, .inl rfl⟩, fun valid => all _ ⟨some, .inr ⟨valid, rfl⟩⟩⟩

theorem mem_lenReads {data : UInt64} : a ∈ lenReads data ↔ data ≠ null ∧ a = data + stdTlvLenPos := by
  unfold lenReads
  split
  · rename_i none_
    simp [none_]
  · rename_i some_
    simp [some_, stdTlvOffset]

theorem mem_tagReads {data : UInt64} : a ∈ tagReads data ↔ a = data := by
  rw [tagReads, List.mem_singleton, stdTlvOffset, stdTlvTagPos, UInt64.add_zero]

/-- The length is read again for the way to the next TLV. -/
private theorem again (p q : Prop) : p ∨ q ∨ p ↔ p ∨ q := by tauto

private theorem againThen (p q r : Prop) : p ∨ q ∨ p ∨ r ↔ (p ∨ q) ∨ r := by tauto

/-- One round of the loop reads at its place, and the next ones at theirs. -/
theorem mem_findNextReads_succ : a ∈ findNextReads mem tag (fuel + 1) s.1 s.2 ↔
    ReadAt mem s a ∨ ∃ t, Skips mem tag s t ∧ a ∈ findNextReads mem tag fuel t.1 t.2 := by
  cases valid : stdTlvValid mem s.1 s.2 with
  | false =>
    have nowhere (t : Position) : ¬Skips mem tag s t := fun skips => by
      rw [skips.valid] at valid
      cases valid
    have reads : findNextReads mem tag (fuel + 1) s.1 s.2 = lenReads s.1 := by
      rw [findNextReads, valid, Bool.not_false, if_pos rfl, List.append_nil]
    rw [reads, mem_lenReads, ReadAt, valid]
    simp [nowhere]
  | true =>
    have some_ : s.1 ≠ null := (valid_iff.mp valid).1
    by_cases same : stdTlvTag mem s.1 = tag
    · have nowhere (t : Position) : ¬Skips mem tag s t := fun skips => skips.other same
      have reads : findNextReads mem tag (fuel + 1) s.1 s.2 = lenReads s.1 ++ tagReads s.1 := by
        rw [findNextReads, valid, Bool.not_true, if_neg Bool.false_ne_true, if_pos same, List.append_nil]
      rw [reads, List.mem_append, mem_lenReads, mem_tagReads, ReadAt, valid]
      simp [nowhere, some_]
    · by_cases more : (stdTlvNext mem s.1 s.2).1 = null
      · have nowhere (t : Position) : ¬Skips mem tag s t := fun skips => skips.more (skips.next ▸ more)
        have reads : findNextReads mem tag (fuel + 1) s.1 s.2 = lenReads s.1 ++ (tagReads s.1 ++ lenReads s.1) := by
          rw [findNextReads, valid, Bool.not_true, if_neg Bool.false_ne_true, if_neg same]
          dsimp only
          rw [if_neg (not_not.mpr more), List.append_nil]
        rw [reads, List.mem_append, List.mem_append, mem_lenReads, mem_tagReads, ReadAt, valid]
        simp only [nowhere, some_, ne_eq, not_false_eq_true, true_and, false_and, exists_false, or_false]
        exact again _ _
      · have skips : Skips mem tag s (stdTlvNext mem s.1 s.2) := ⟨valid, same, rfl, more⟩
        have reads : findNextReads mem tag (fuel + 1) s.1 s.2 = lenReads s.1 ++ (tagReads s.1 ++ (lenReads s.1 ++
            findNextReads mem tag fuel (stdTlvNext mem s.1 s.2).1 (stdTlvNext mem s.1 s.2).2)) := by
          rw [findNextReads, valid, Bool.not_true, if_neg Bool.false_ne_true, if_neg same]
          dsimp only
          rw [if_pos more]
        have later : (∃ t, Skips mem tag s t ∧ a ∈ findNextReads mem tag fuel t.1 t.2) ↔
            a ∈ findNextReads mem tag fuel (stdTlvNext mem s.1 s.2).1 (stdTlvNext mem s.1 s.2).2 := by
          constructor
          · rintro ⟨t, skips', read⟩
            rw [skips'.next]
            exact read
          · exact fun read => ⟨_, skips, read⟩
        rw [reads, List.mem_append, List.mem_append, List.mem_append, mem_lenReads, mem_tagReads, ReadAt, valid, later]
        simp only [some_, ne_eq, not_false_eq_true, true_and]
        exact againThen _ _ _

theorem mem_findNextReads : (∃ fuel, a ∈ findNextReads mem tag fuel s.1 s.2) ↔ ∃ t, Meets mem tag s t ∧ ReadAt mem t a := by
  constructor
  · rintro ⟨fuel, read⟩
    induction fuel generalizing s with
    | zero => cases read
    | succ fuel ih =>
      cases mem_findNextReads_succ.mp read with
      | inl here => exact ⟨s, .refl, here⟩
      | inr later =>
        obtain ⟨t, skips, read⟩ := later
        obtain ⟨u, meets, at_⟩ := ih read
        exact ⟨u, meets.head skips, at_⟩
  · rintro ⟨t, meets, read⟩
    induction meets using ReflTransGen.head_induction_on with
    | refl => exact ⟨1, mem_findNextReads_succ.mpr (.inl read)⟩
    | head skips _ ih =>
      obtain ⟨fuel, read⟩ := ih
      exact ⟨fuel + 1, mem_findNextReads_succ.mpr (.inr ⟨_, skips, read⟩)⟩

theorem findNextReads_mono (le : fuel ≤ fuel') (read : a ∈ findNextReads mem tag fuel s.1 s.2) :
    a ∈ findNextReads mem tag fuel' s.1 s.2 := by
  induction fuel generalizing s fuel' with
  | zero => cases read
  | succ fuel ih =>
    obtain ⟨fuel', rfl⟩ : ∃ n, fuel' = n + 1 := ⟨fuel' - 1, by omega⟩
    rw [mem_findNextReads_succ] at read ⊢
    cases read with
    | inl here => exact .inl here
    | inr later =>
      obtain ⟨t, skips, read⟩ := later
      exact .inr ⟨t, skips, ih (by omega) read⟩

theorem findNext_mono {r : Position} (le : fuel ≤ fuel') (run : stdTlvFindNext mem tag fuel s.1 s.2 = .ok r) :
    stdTlvFindNext mem tag fuel' s.1 s.2 = .ok r := by
  induction fuel generalizing s fuel' with
  | zero => cases run
  | succ fuel ih =>
    obtain ⟨fuel', rfl⟩ : ∃ n, fuel' = n + 1 := ⟨fuel' - 1, by omega⟩
    obtain ⟨t, skips⟩ | found | ⟨len, none⟩ := findNext_cases mem tag s
    · rw [findNext_skips skips] at run ⊢
      exact ih (by omega) run
    · rw [findNext_found found.valid found.same] at run ⊢
      exact run
    · rw [none] at run ⊢
      exact run

/-- Each tag of the path is searched for, and where it is found the length is read. -/
theorem mem_efindReads_cons : a ∈ efindReads mem fuel s.1 s.2 (tag :: tags) ↔ a ∈ findNextReads mem tag fuel s.1 s.2 ∨
    ∃ q, stdTlvFindNext mem tag fuel s.1 s.2 = .ok q ∧ q.1 ≠ null ∧ tags ≠ [] ∧
      (a ∈ lenReads q.1 ∨ a ∈ efindReads mem fuel (inner mem q).1 (inner mem q).2 tags) := by
  rw [efindReads, List.mem_append]
  apply or_congr_right
  cases run : stdTlvFindNext mem tag fuel s.1 s.2 with
  | error => simp
  | ok q =>
    by_cases none_ : q.1 = null
    · simp [none_]
    · by_cases last : tags = []
      · simp [last]
      · simp [none_, last, inner]

theorem efindReads_mono (le : fuel ≤ fuel') (read : a ∈ efindReads mem fuel s.1 s.2 tags) :
    a ∈ efindReads mem fuel' s.1 s.2 tags := by
  induction tags generalizing s with
  | nil => cases read
  | cons tag tags ih =>
    rw [mem_efindReads_cons] at read ⊢
    cases read with
    | inl here => exact .inl (findNextReads_mono le here)
    | inr later =>
      obtain ⟨q, run, some_, more, read⟩ := later
      exact .inr ⟨q, findNext_mono le run, some_, more, read.imp_right ih⟩

theorem mem_efindReads : (∃ fuel, a ∈ efindReads mem fuel s.1 s.2 tags) ↔ ∃ t, Comes mem s tags t ∧ ReadAt mem t a := by
  constructor
  · rintro ⟨fuel, read⟩
    induction tags generalizing s with
    | nil => cases read
    | cons tag tags ih =>
      rw [mem_efindReads_cons] at read
      obtain here | ⟨q, run, some_, _, again | deeper⟩ := read
      · obtain ⟨t, meets, at_⟩ := mem_findNextReads.mp ⟨fuel, here⟩
        exact ⟨t, .here meets, at_⟩
      · have found := (findNext_returns run).2 some_
        exact ⟨q, .here found.meets, some_, .inl (mem_lenReads.mp again).2⟩
      · have found := (findNext_returns run).2 some_
        obtain ⟨t, comes, at_⟩ := ih deeper
        exact ⟨t, .deeper found comes, at_⟩
  · rintro ⟨t, comes, read⟩
    induction comes with
    | here meets =>
      obtain ⟨fuel, here⟩ := mem_findNextReads.mpr ⟨_, meets, read⟩
      exact ⟨fuel, mem_efindReads_cons.mpr (.inl here)⟩
    | @deeper tag tags s q t found comes ih =>
      obtain ⟨fuel, deeper⟩ := ih read
      obtain ⟨enough, run⟩ := found.ends
      have more : tags ≠ [] := by
        cases comes <;> simp
      refine ⟨fuel + enough, mem_efindReads_cons.mpr (.inr ⟨q, run _ (by omega), ?_, more, .inr ?_⟩)⟩
      · exact (valid_iff.mp found.valid).1
      · exact efindReads_mono (by omega) deeper

/-! ## Reads in the buffer -/

/-- Sixteen bytes are a header. -/
theorem Within.headerIn {p n : UInt64} (within : Within (p, n) t) (room : 16 ≤ t.2.toNat) : HeaderIn mem p n t := by
  obtain ⟨off, here, inside⟩ := within
  have bound := n.toNat_lt
  dsimp only at here inside
  have tagAt : (t.1 - p).toNat = off := by
    rw [here, distance (by omega)]
  have lenAt : (t.1 + stdTlvLenPos - p).toNat = off + 8 := by
    have : t.1 + stdTlvLenPos = p + .ofNat (off + 8) := by
      rw [here, UInt64.ofNat_add, UInt64.add_assoc]
      rfl
    rw [this, distance (by omega)]
  intro _
  constructor
  · unfold InBuffer
    omega
  · intro _
    unfold InBuffer
    omega

/-- A search for a tag that occurs stays before what is behind the TLVs. -/
theorem Holds.stays (h : Holds mem s es) (occurs : ∃ e ∈ es, e.tag = tag) (meets : Meets mem tag s t) :
    16 ≤ t.2.toNat := by
  induction meets using ReflTransGen.head_induction_on generalizing es with
  | refl =>
    have size := h.size
    cases es with
    | nil => simp at occurs
    | cons e es =>
      rw [span_cons] at size
      omega
  | @head s u skips _ ih =>
    cases es with
    | nil => simp at occurs
    | cons e es =>
      obtain ⟨reads, behind⟩ := h.cons
      have size := h.size
      rw [span_cons] at size
      have left : (UInt64.ofNat (span es)).toNat = span es := toNat_ofNat_small (by
        have bound := s.2.toNat_lt
        omega)
      have next : stdTlvNext mem s.1 s.2 = (s.1 + .ofNat (16 + e.len), .ofNat (span es)) :=
        next_reads (h.real e List.mem_cons_self) h.buffer.some reads (by rw [left]; exact size.symm)
      rw [← next, skips.next] at behind
      apply ih behind
      obtain ⟨x, among, same⟩ := occurs
      cases among with
      | head => exact absurd (reads.1.trans same) skips.other
      | tail _ later => exact ⟨x, later, same⟩

/-- Behind the last TLV there is no header. -/
theorem Holds.past {p n : UInt64} (h : Holds mem (p, n) es) (small : n.toNat + 8 < 2 ^ 64)
    (absent : ∀ e ∈ es, e.tag ≠ tag) : ∃ t, Meets mem tag (p, n) t ∧ ¬HeaderIn mem p n t := by
  have size := h.size
  dsimp only at size
  have none_behind : Holds mem (p, n) (es ++ []) := by rwa [List.append_nil]
  obtain ⟨t, meets, holds, place⟩ := none_behind.meets absent
  refine ⟨t, meets, fun inside => ?_⟩
  have field := (inside holds.buffer.some).1
  have lenAt : t.1 + stdTlvLenPos = p + .ofNat (span es + 8) := by
    rw [place, UInt64.ofNat_add, UInt64.add_assoc]
    rfl
  unfold InBuffer at field
  rw [lenAt, distance (by omega)] at field
  omega

/-- All that a search reads is in the buffer iff at each place it comes to there is
room for a header: for the length, and for the tag too if the length is no more than
what is left. Among whole TLVs that is so iff the tag occurs. -/
theorem search_reads_iff (mem : Mem) (p n : UInt64) :
    (∀ tag, (∀ fuel, ∀ a ∈ findNextReads mem tag fuel p n, InBuffer p n a) ↔
      ∀ t, Meets mem tag (p, n) t → HeaderIn mem p n t) ∧
    (∀ tags, (∀ fuel, ∀ a ∈ efindReads mem fuel p n tags, InBuffer p n a) ↔
      ∀ t, Comes mem (p, n) tags t → HeaderIn mem p n t) ∧
    ∀ es tag, Holds mem (p, n) es → n.toNat + 8 < 2 ^ 64 →
      ((∀ t, Meets mem tag (p, n) t → HeaderIn mem p n t) ↔ ∃ e ∈ es, e.tag = tag) := by
  refine ⟨fun tag => ⟨?_, ?_⟩, fun tags => ⟨?_, ?_⟩, fun es tag holds small => ⟨?_, ?_⟩⟩
  · intro inside t meets
    rw [headerIn_iff]
    intro a read
    obtain ⟨fuel, read⟩ := mem_findNextReads.mpr ⟨t, meets, read⟩
    exact inside fuel a read
  · intro inside fuel a read
    have some_fuel : ∃ fuel, a ∈ findNextReads mem tag fuel (p, n).1 (p, n).2 := ⟨fuel, read⟩
    obtain ⟨t, meets, read⟩ := mem_findNextReads.mp some_fuel
    exact headerIn_iff.mp (inside t meets) a read
  · intro inside t comes
    rw [headerIn_iff]
    intro a read
    obtain ⟨fuel, read⟩ := mem_efindReads.mpr ⟨t, comes, read⟩
    exact inside fuel a read
  · intro inside fuel a read
    have some_fuel : ∃ fuel, a ∈ efindReads mem fuel (p, n).1 (p, n).2 tags := ⟨fuel, read⟩
    obtain ⟨t, comes, read⟩ := mem_efindReads.mp some_fuel
    exact headerIn_iff.mp (inside t comes) a read
  · intro inside
    by_contra absent
    obtain ⟨t, meets, outside⟩ := holds.past small fun e he same => absent ⟨e, he, same⟩
    exact outside (inside t meets)
  · intro occurs t meets
    exact meets.within.headerIn (holds.stays occurs meets)

/-- A TLV with the tag 1 and the value 7. -/
def oneTlv : Added := stdTlvAddU16 (fun _ => 0) 0x1000 18 1 7

theorem oneTlv_holds : Holds oneTlv.mem (0x1000, 18) [⟨1, .u16 7⟩] :=
  ⟨⟨by decide, by decide⟩, by decide, by decide, by decide⟩

theorem search_reads_one :
    (∀ t, Meets oneTlv.mem 1 (0x1000, 18) t → HeaderIn oneTlv.mem 0x1000 18 t) ∧
      ¬∀ t, Meets oneTlv.mem 2 (0x1000, 18) t → HeaderIn oneTlv.mem 0x1000 18 t := by
  have all := (search_reads_iff oneTlv.mem 0x1000 18).2.2 [⟨1, .u16 7⟩]
  exact ⟨(all 1 oneTlv_holds (by decide)).mpr (by decide), fun inside => by
    have := (all 2 oneTlv_holds (by decide)).mp inside
    simp at this⟩

/-- A search for the tag 2 reads the length field of a header behind the buffer. -/
theorem search_reads_behind : oneTlv.ret ≠ null ∧ oneTlv.dataLen = 0 ∧ Buffer 0x1000 18 ∧
    0x101a ∈ findNextReads oneTlv.mem 2 2 0x1000 18 ∧ 0x101a ∈ efindReads oneTlv.mem 2 0x1000 18 [2] ∧
    ¬InBuffer 0x1000 18 0x101a := by
  refine ⟨by decide, by decide, ⟨by decide, by decide⟩, by decide, by decide, ?_⟩
  unfold InBuffer
  decide

end SonicUtils.Tlv
