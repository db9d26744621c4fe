import SonicUtils.Tlv.RoundTrip
import SonicUtils.Tlv.Search

/-!
# Searches through what was added

In a buffer that `std_tlv_add` has filled, `std_tlv_find_next` finds the first TLV
of a tag and `std_tlv_efind` the one that a path of tags leads to.

* `Path`: where a path leads to, in the TLVs themselves;
* `Holds.meets`, `Holds.found`, `Holds.absent`: one search;
* `tlv_lookup`: all of them.
-/

namespace SonicUtils.Tlv

open SonicUtils.Bytes SonicUtils.Runs Relation

variable {mem : Mem} {tag : UInt64} {tags : List UInt64} {s t : Position} {e : Entry} {es as bs : List Entry}

/-- How many bytes the TLVs take. -/
def span (es : List Entry) : Nat := (es.flatMap Entry.bytes).length

@[simp] theorem span_nil : span [] = 0 := rfl

@[simp] theorem span_cons (e : Entry) (es : List Entry) : span (e :: es) = 16 + e.len + span es := by
  simp [span]

/-- `e` is the first TLV with the tag. -/
structure First (tag : UInt64) (es as : List Entry) (e : Entry) (bs : List Entry) : Prop where
  split : es = as ++ e :: bs
  other : ∀ a ∈ as, a.tag ≠ tag
  same : e.tag = tag

/-- The content of `e` is the TLVs `es`. -/
structure Contains (e : Entry) (es : List Entry) : Prop where
  octets : e.content.octets = es.flatMap Entry.bytes
  real : ∀ x ∈ es, x.Real

/-- From the first TLV of the first tag into its content, and so on: the place of the
last one, counted from the first byte, and the number of bytes from there on; or none,
if some tag does not occur. -/
inductive Path : List Entry → List UInt64 → Option (Nat × Nat) → Prop
  | absent {es : List Entry} {tag : UInt64} {tags : List UInt64} :
      (∀ e ∈ es, e.tag ≠ tag) → Path es (tag :: tags) none
  | last {es as bs : List Entry} {e : Entry} {tag : UInt64} :
      First tag es as e bs → Path es [tag] (some (span as, span (e :: bs)))
  | enter {es es' as bs : List Entry} {e : Entry} {tag : UInt64} {tags : List UInt64} {r : Option (Nat × Nat)} :
      First tag es as e bs → Contains e es' → tags ≠ [] → Path es' tags r →
      Path es (tag :: tags) (r.map fun q => (span as + 16 + q.1, q.2))

/-- The containers on the path are well-formed. -/
def WellFormed : List Entry → List UInt64 → Prop
  | _, [] => False
  | _, [_] => True
  | es, tag :: tags => ∀ as e bs, First tag es as e bs → ∃ es', Contains e es' ∧ WellFormed es' tags

theorem first_or_absent (tag : UInt64) (es : List Entry) :
    (∃ as e bs, First tag es as e bs) ∨ ∀ e ∈ es, e.tag ≠ tag := by
  induction es with
  | nil => exact .inr (by simp)
  | cons x es ih =>
    by_cases same : x.tag = tag
    · exact .inl ⟨[], x, es, rfl, by simp, same⟩
    · cases ih with
      | inl found =>
        obtain ⟨as, e, bs, split, other, here⟩ := found
        exact .inl ⟨x :: as, e, bs, by rw [split]; rfl, List.forall_mem_cons.mpr ⟨same, other⟩, here⟩
      | inr none_ => exact .inr (List.forall_mem_cons.mpr ⟨same, none_⟩)

/-- Every such path leads somewhere, or to nothing. -/
theorem WellFormed.path (ok : WellFormed es tags) : ∃ r, Path es tags r := by
  induction tags generalizing es with
  | nil => exact ok.elim
  | cons tag tags ih =>
    cases first_or_absent tag es with
    | inr none_ => exact ⟨none, .absent none_⟩
    | inl found =>
      obtain ⟨as, e, bs, first⟩ := found
      cases tags with
      | nil => exact ⟨_, .last first⟩
      | cons tag' tags =>
        obtain ⟨es', contains, deeper⟩ := ok as e bs first
        obtain ⟨r, path⟩ := ih deeper
        exact ⟨_, .enter first contains (by simp) path⟩

/-! ## One search -/

theorem Meets.ends {r : Position} (meets : Meets mem tag s t) (ends : Ends mem tag t r) : Ends mem tag s r := by
  induction meets using ReflTransGen.head_induction_on with
  | refl => exact ends
  | head skips _ ih => exact ih.skips skips

/-- At `s` are the TLVs, up to the end of what is there. -/
structure Holds (mem : Mem) (s : Position) (es : List Entry) : Prop where
  buffer : Buffer s.1 s.2
  real : ∀ e ∈ es, e.Real
  size : s.2.toNat = span es
  here : mem.bytes s.1 (span es) = es.flatMap Entry.bytes

/-- The first of the TLVs, and the others behind it. -/
theorem Holds.cons (h : Holds mem s (e :: es)) :
    Reads mem e s.1 ∧ Holds mem (s.1 + .ofNat (16 + e.len), .ofNat (span es)) es := by
  have real := h.real e List.mem_cons_self
  have size := h.size
  rw [span_cons] at size
  have bound := s.2.toNat_lt
  have left : (UInt64.ofNat (span es)).toNat = span es := toNat_ofNat_small (by omega)
  have here := h.here
  rw [span_cons, bytes_add, List.flatMap_cons] at here
  obtain ⟨first, others⟩ := List.append_inj here (by simp)
  refine ⟨reads real first, h.buffer.behind (by rw [left]; omega), fun x hx => h.real x (List.mem_cons_of_mem _ hx), left,
    others⟩

theorem Holds.valid (h : Holds mem s (e :: es)) : stdTlvValid mem s.1 s.2 = true := by
  obtain ⟨reads, _⟩ := h.cons
  have size := h.size
  rw [span_cons] at size
  have real : e.len < 2 ^ 63 := h.real e List.mem_cons_self
  refine valid_iff.mpr ⟨h.buffer.some, ?_⟩
  rw [UInt64.le_iff_toNat_le, total_toNat, reads.2.1]
  omega

/-- A search passes TLVs of other tags. -/
theorem Holds.meets (h : Holds mem s (as ++ bs)) (other : ∀ a ∈ as, a.tag ≠ tag) :
    ∃ t, Meets mem tag s t ∧ Holds mem t bs ∧ t.1 = s.1 + .ofNat (span as) := by
  induction as generalizing s with
  | nil => exact ⟨s, .refl, h, (UInt64.add_zero _).symm⟩
  | cons e as ih =>
    obtain ⟨notHere, others⟩ := List.forall_mem_cons.mp other
    obtain ⟨reads, behind⟩ := h.cons
    have size := h.size
    rw [List.cons_append, span_cons] at size
    have left : (UInt64.ofNat (span (as ++ bs))).toNat = span (as ++ bs) := toNat_ofNat_small (by
      have bound := s.2.toNat_lt
      omega)
    have skips : Skips mem tag s (s.1 + .ofNat (16 + e.len), .ofNat (span (as ++ bs))) := by
      refine ⟨h.valid, reads.1 ▸ notHere, ?_, behind.buffer.some⟩
      exact next_reads (h.real e List.mem_cons_self) h.buffer.some reads (by rw [left]; exact size.symm)
    obtain ⟨t, meets, holds, place⟩ := ih behind others
    refine ⟨t, meets.head skips, holds, ?_⟩
    rw [place, span_cons, UInt64.ofNat_add (16 + e.len), UInt64.add_assoc]

theorem Holds.found (h : Holds mem s es) (first : First tag es as e bs) :
    ∃ t, Found mem tag s t ∧ Holds mem t (e :: bs) ∧ t.1 = s.1 + .ofNat (span as) := by
  obtain ⟨rfl, other, same⟩ := first
  obtain ⟨t, meets, holds, place⟩ := h.meets other
  exact ⟨t, ⟨meets, holds.valid, holds.cons.1.1.trans same⟩, holds, place⟩

/-- Where a tag does not occur the search ends behind the last TLV. -/
theorem Holds.absent (h : Holds mem s es) (past : (stdTlvLen mem (s.1 + .ofNat (span es))).toNat ≠ 2 ^ 64 - 16)
    (other : ∀ e ∈ es, e.tag ≠ tag) : Ends mem tag s (null, 0) := by
  have whole : Holds mem s (es ++ []) := by rwa [List.append_nil]
  obtain ⟨t, meets, holds, place⟩ := whole.meets other
  have empty : t.2 = 0 := UInt64.toNat_inj.mp holds.size
  have invalid : ¬stdTlvValid mem t.1 t.2 = true := by
    intro valid
    have room := UInt64.le_iff_toNat_le.mp (valid_iff.mp valid).2
    have zero := holds.size
    rw [span_nil] at zero
    have wraps := (total_eq_zero_iff mem t.1).mp (by omega)
    rw [place] at wraps
    exact past wraps
  have ends : Ends mem tag t (null, 0) := by
    refine ⟨1, fun fuel hf => ?_⟩
    cases fuel with
    | zero => omega
    | succ fuel =>
      rw [stdTlvFindNext, if_pos (by simpa using invalid), empty]
      rfl
  exact meets.ends ends

/-! ## Paths -/

/-- The content of a TLV, as a place of its own. -/
theorem Holds.inner (h : Holds mem t (e :: bs)) (contains : Contains e es) : Holds mem (Tlv.inner mem t) es := by
  obtain ⟨reads, _⟩ := h.cons
  have size := h.size
  rw [span_cons] at size
  have len : e.len = span es := by rw [Entry.len, contains.octets, span]
  refine ⟨?_, contains.real, reads.2.1.trans len, ?_⟩
  · have behind : Buffer (t.1 + .ofNat 16) (.ofNat (e.len + span bs)) := by
      apply h.buffer.behind
      have bound := t.2.toNat_lt
      rw [toNat_ofNat_small (by omega)]
      omega
    have ends := behind.ends
    have bound := t.2.toNat_lt
    rw [toNat_ofNat_small (by omega)] at ends
    refine ⟨behind.some, ?_⟩
    change (t.1 + .ofNat 16).toNat + (stdTlvLen mem t.1).toNat < 2 ^ 64
    rw [reads.2.1]
    omega
  · rw [← contains.octets, ← len]
    exact reads.2.2.1

/-- What the validity test reads behind the content is the length of the next TLV, or
what is behind the whole. -/
theorem Holds.past_inner (h : Holds mem t (e :: bs)) (contains : Contains e es)
    (past : (stdTlvLen mem (t.1 + .ofNat (span (e :: bs)))).toNat ≠ 2 ^ 64 - 16) :
    (stdTlvLen mem ((Tlv.inner mem t).1 + .ofNat (span es))).toNat ≠ 2 ^ 64 - 16 := by
  obtain ⟨_, behind⟩ := h.cons
  have len : e.len = span es := by rw [Entry.len, contains.octets, span]
  have place : (Tlv.inner mem t).1 + .ofNat (span es) = t.1 + .ofNat (16 + e.len) := by
    rw [len, UInt64.ofNat_add, ← UInt64.add_assoc]
    rfl
  rw [place]
  cases bs with
  | nil =>
    rw [span_cons, span_nil, Nat.add_zero] at past
    exact past
  | cons x bs =>
    have real : x.len < 2 ^ 63 := behind.real x List.mem_cons_self
    rw [behind.cons.1.2.1]
    omega

/-- The place that `q` says, counted from `p`. -/
def placeAt (p : UInt64) (q : Nat × Nat) : Position := (p + .ofNat q.1, .ofNat q.2)

theorem Path.efindLoop {r : Option (Nat × Nat)} (path : Path es tags r) (h : Holds mem s es)
    (past : (stdTlvLen mem (s.1 + .ofNat (span es))).toNat ≠ 2 ^ 64 - 16) :
    ∃ N, ∀ fuel ≥ N, efindLoop mem fuel s.1 s.2 tags = .ok (r.map (placeAt s.1)) := by
  induction path generalizing s with
  | absent none_ =>
    obtain ⟨N, ends⟩ := h.absent past none_
    refine ⟨N, fun fuel hf => ?_⟩
    rw [efindLoop_cons (ends fuel hf), if_pos rfl]
    rfl
  | @last es as bs e tag first =>
    obtain ⟨t, found, holds, place⟩ := h.found first
    obtain ⟨N, ends⟩ := found.ends
    refine ⟨N, fun fuel hf => ?_⟩
    rw [efindLoop_cons (ends fuel hf), if_neg (valid_iff.mp found.valid).1, if_pos rfl]
    have left : t.2 = .ofNat (span (e :: bs)) := by
      rw [← holds.size, UInt64.ofNat_toNat]
    have same : t = placeAt s.1 (span as, span (e :: bs)) := Prod.ext place left
    rw [same]
    rfl
  | @enter es es' as bs e tag tags r first contains more _ ih =>
    obtain ⟨t, found, holds, place⟩ := h.found first
    have split : span es = span as + span (e :: bs) := by
      rw [first.split]
      simp [span]
    have past' : (stdTlvLen mem (t.1 + .ofNat (span (e :: bs)))).toNat ≠ 2 ^ 64 - 16 := by
      rw [place, UInt64.add_assoc, ← UInt64.ofNat_add, ← split]
      exact past
    obtain ⟨N, ends⟩ := found.ends
    obtain ⟨N', ends'⟩ := ih (holds.inner contains) (holds.past_inner contains past')
    refine ⟨N + N', fun fuel hf => ?_⟩
    rw [efindLoop_cons (ends fuel (by omega)), if_neg (valid_iff.mp found.valid).1, if_neg more, ends' fuel (by omega)]
    have place' : (inner mem t).1 = s.1 + .ofNat (span as + 16) := by
      rw [UInt64.ofNat_add, ← UInt64.add_assoc, ← place]
      rfl
    rw [place', Option.map_map]
    congr 2
    funext q
    rw [placeAt, UInt64.add_assoc, ← UInt64.ofNat_add]
    rfl

/-- **TLV lookup.** In what calls of `std_tlv_add` have written, a search finds the first
TLV with the tag and gives the number of bytes from there on, or `NULL`; a search for a
path gives what the path leads to, or `NULL` and the old length. -/
theorem tlv_lookup {mem : Mem} {p n : UInt64} {es : List Entry} {s : Added} (buffer : Buffer p n)
    (real : ∀ e ∈ es, e.Real) (run : Run Adds ⟨p, n, mem⟩ es s)
    (past : (stdTlvLen s.mem s.ret).toNat ≠ 2 ^ 64 - 16) :
    (∀ tag as e bs, First tag es as e bs →
      Ends s.mem tag (p, n - s.dataLen) (placeAt p (span as, span (e :: bs)))) ∧
    (∀ tag, (∀ e ∈ es, e.tag ≠ tag) → Ends s.mem tag (p, n - s.dataLen) (null, 0)) ∧
    (∀ tags, WellFormed es tags → ∃ r, Path es tags r) ∧
    ∀ tags r, Path es tags r → ∃ N, ∀ fuel ≥ N, stdTlvEfind s.mem fuel p (n - s.dataLen) tags =
      .ok ((r.map (placeAt p)).getD (null, n - s.dataLen)) := by
  obtain ⟨ret, left, used, _⟩ := filled real run
  have size : (n - s.dataLen).toNat = span es := by
    rw [UInt64.toNat_sub_of_le]
    · rw [span]
      omega
    · rw [UInt64.le_iff_toNat_le]
      omega
  have ends := buffer.ends
  have whole : Holds s.mem (p, n - s.dataLen) es := by
    refine ⟨⟨buffer.some, ?_⟩, real, size, used⟩
    change p.toNat + (n - s.dataLen).toNat < 2 ^ 64
    rw [size, span]
    omega
  rw [ret] at past
  refine ⟨fun tag as e bs first => ?_, fun tag none_ => whole.absent past none_, fun tags ok => ok.path,
    fun tags r path => ?_⟩
  · obtain ⟨t, found, holds, place⟩ := whole.found first
    have rest : t.2 = .ofNat (span (e :: bs)) := by rw [← holds.size, UInt64.ofNat_toNat]
    have same : t = placeAt p (span as, span (e :: bs)) := Prod.ext place rest
    exact same ▸ found.ends
  · obtain ⟨N, loops⟩ := path.efindLoop whole past
    exact ⟨N, fun fuel hf => efind_eq (loops fuel hf)⟩

/-- A TLV with the tag 2 in one with the tag 5, behind another. -/
theorem tlv_lookup_nested :
    let inside : Entry := ⟨2, .u16 0x1234⟩
    let es : List Entry := [⟨1, .u32 7⟩, ⟨5, .bytes inside.bytes⟩]
    ∃ s, Run Adds ⟨0x1000, 64, fun _ => 0⟩ es s ∧
      ∃ N, ∀ fuel ≥ N, stdTlvEfind s.mem fuel 0x1000 (64 - s.dataLen) [5, 2] = .ok (0x1024, 18) := by
  intro inside es
  let one := Entry.add ⟨0x1000, 64, fun _ => 0⟩ ⟨1, .u32 7⟩
  let two := Entry.add one ⟨5, .bytes inside.bytes⟩
  have run : Run Adds ⟨0x1000, 64, fun _ => 0⟩ es two := .snoc (.snoc .nil ⟨rfl, by decide⟩) ⟨rfl, by decide⟩
  have real : ∀ e ∈ es, e.Real := by decide
  have past : (stdTlvLen two.mem two.ret).toNat ≠ 2 ^ 64 - 16 := by decide
  have outer : First 5 es [⟨1, .u32 7⟩] ⟨5, .bytes inside.bytes⟩ [] := ⟨rfl, by decide, rfl⟩
  have contains : Contains ⟨5, .bytes inside.bytes⟩ [inside] := ⟨rfl, by decide⟩
  have deeper : First 2 [inside] [] inside [] := ⟨rfl, by simp, rfl⟩
  have path : Path es [5, 2] (some (36, 18)) := .enter outer contains (by decide) (.last deeper)
  have all := tlv_lookup ⟨by decide, by decide⟩ real run past
  exact ⟨two, run, all.2.2.2 _ _ path⟩

end SonicUtils.Tlv
