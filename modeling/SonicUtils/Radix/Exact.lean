import SonicUtils.Radix.Represents

/-!
# Exact lookups

`getexact_spec`: `std_radix_getexact` returns the head that is bound to the
prefix, or NULL.
-/

namespace SonicUtils.Radix

open PtrTree BitTrie

theorem covers_bits (ap : Addr) (n : Nat) : Covers (ap.bits n) ap.bit :=
  fun _ hi => getElem_bits ap hi

theorem covers_iff (ap : Addr) (k : List Bool) : Covers k ap.bit ↔ ap.bits k.length = k := by
  constructor
  · intro covers
    apply List.ext_getElem (length_bits ap _)
    intro i _ hi
    rw [getElem_bits, covers i hi]
  · intro same i hi
    have at_i : (ap.bits k.length)[i]? = k[i]? := by rw [same]
    have inside : i < (ap.bits k.length).length := by simpa using hi
    rw [List.getElem?_eq_getElem inside, List.getElem?_eq_getElem hi, getElem_bits] at at_i
    exact (Option.some.inj at_i).symm

theorem bits_prefix_iff {ap : Addr} {k : List Bool} {n : Nat} :
    k <+: ap.bits n ↔ k.length ≤ n ∧ Covers k ap.bit := by
  constructor
  · intro p
    exact ⟨by simpa using p.length_le, (covers_bits ap n).shorten p⟩
  · rintro ⟨short, covers⟩
    rw [← (covers_iff ap k).mp covers]
    exact bits_prefix_bits ap short

theorem bits_prefix_of_covers {ap : Addr} {k : List Bool} {n : Nat} (covers : Covers k ap.bit)
    (long : n ≤ k.length) : ap.bits n <+: k := by
  rw [← (covers_iff ap k).mp covers]
  exact bits_prefix_bits ap long

theorem Represents.root_node {rtt : Rtt} {x : Node NodeId HeadId} {l r : RtTree}
    (h : Represents rtt (.node x l r)) : rtt.rttRoot = some x.1 := h.root

/-- `rdx_compare_address` at a node with a head tells whether the key has the
stem of the node as a prefix. -/
theorem compare_at {rtt : Rtt} {n : RtNode} {k : Links NodeId} {x : Node NodeId HeadId}
    {rth : HeadId} (holds : n.Holds k x.2) (att : rtt.Attached rth x.1 x.2.stem) (ap : Addr) :
    ∃ his, rtt.headAddr rth = .ok his ∧
      (rdxCompareAddress ap his (rnByte n.rtnBit) n.rtnTbit = false ↔
        ap.bits x.2.stem.length = x.2.stem) := by
  obtain ⟨_, his, addr, stem⟩ := att
  refine ⟨his, by simp [Rtt.headAddr, addr], ?_⟩
  rw [holds.bit, holds.tbit, rdxCompareAddress_eq_false, ← bits_eq_iff, stem]

theorem Settled.not_marked {rtt : Rtt} (s : Settled rtt) {i : NodeId} {n : RtNode}
    (live : rtt.nodes i = some n) : n.marked = false := by
  have flags := (s.unlocked i n live).2
  rw [RtNode.marked, flags]
  rfl

theorem Ready.validate {rtt : Rtt} (ready : Ready rtt) : rtt.validateHandle = .ok () :=
  check_of ready.magic

theorem convertKey_none {rtt : Rtt} (raw : rtt.rttConvert = none) (ap : Addr) : rtt.convertKey ap = (ap, rtt) := by
  unfold Rtt.convertKey
  split
  · rfl
  · rename_i some
    cases raw.symm.trans some

theorem getexactDebug_of_raw {rtt : Rtt} (raw : rtt.rttConvert = none) (ap : Addr) {bitlen : Nat}
    (valid : bitlen ≤ rtt.rttMaxaddrlen) : getexactDebug rtt (some ap) bitlen = (false, some ap, rtt) := by
  unfold getexactDebug
  split
  · simp [convertKey_none raw, valid]
  · rfl

/-- The search for a prefix ends at the node of the prefix, if there is one. -/
theorem bound_iff_own {ap : Addr} {t : RtTree} {bitlen : Nat}
    {fs : List (Frame (Node NodeId HeadId))} {y : Node NodeId HeadId} {yl yr : RtTree}
    (trie : Trie [] t)
    (d : Descent ap (fun lab => lab.stem.length < bitlen) [] t fs y yl yr) (rth : HeadId) :
    (ap.bits bitlen, rth) ∈ entries t ↔ y.2.val = some rth ∧ y.2.stem = ap.bits bitlen := by
  have whole : plug fs (.node y yl yr) = t := d.same
  rw [← whole] at trie ⊢
  obtain ⟨below, above, _⟩ := trie_plug.mp trie
  constructor
  · intro bound
    have covers := covers_bits ap bitlen
    rcases on_path above (d.follows (by simp [Follows])) covers bound with ⟨f, hf, mem⟩ | inside
    · have short := (d.passed f hf).resolve_left List.not_mem_nil
      have stem := (mem_own.mp mem).2
      simp [stem] at short
    · have stop := d.stopped.imp_left fun long => Nat.le_of_not_lt (of_decide_eq_false long)
      exact mem_own.mp (own_of_covers below stop covers (by simp) inside)
  · rintro ⟨val, stem⟩
    have mem : (ap.bits bitlen, rth) ∈ own y := mem_own.mpr ⟨val, stem⟩
    rw [entries_plug]
    simp only [List.mem_append, entries_node]
    exact .inl (.inr (.inl mem))

/-- **Exact lookup.** `std_radix_getexact` returns a head exactly if the head is
bound to the first `bitlen` bits of the key, and it changes nothing. -/
theorem getexact_spec {rtt : Rtt} {t : RtTree} (rep : Represents rtt t) (s : Settled rtt) (ap : Addr)
    {bitlen : Nat} (valid : bitlen ≤ rtt.rttMaxaddrlen) :
    ∃ found, stdRadixGetexact rtt (some ap) bitlen = .ok (found, rtt) ∧
      ∀ rth, found = some rth ↔ (ap.bits bitlen, rth) ∈ entries t := by
  unfold stdRadixGetexact
  rw [s.ready.validate, ok_bind, getexactDebug_of_raw s.convert ap valid]
  simp only [Bool.false_eq_true, if_false]
  cases t with
  | nil =>
    have empty : rtt.rttRoot = none := rep.root
    simp [empty]
  | node x l r =>
    have deep := rep.depth s.ready
    obtain ⟨fs, y, yl, yr, run, d⟩ :=
      descend_spec ap (fun n => n.rtnBit < bitlen) (fun lab => lab.stem.length < bitlen)
        (fun n k lab h => by simp [h.bit]) Rtt.pathFuel [] x l r rep.linked (by omega)
    have found := bound_iff_own rep.trie d
    have whole : plug fs (.node y yl yr) = .node x l r := d.same
    obtain ⟨⟨n, live, holds⟩, att⟩ := holds_at (whole ▸ rep.linked)
    simp only [rep.root_node, deref_some, ok_bind, run, node_of live]
    by_cases long : n.rtnBit = bitlen
    · subst long
      have length := holds.bit
      simp only [found]
      cases val : y.2.val with
      | none => exact ⟨none, by simp [holds.rth, val], by simp⟩
      | some rth =>
        obtain ⟨his, addr, cmp⟩ := compare_at holds (att rth val) ap
        rw [← length] at cmp
        by_cases same : y.2.stem = ap.bits n.rtnBit
        · have equal := cmp.mpr same.symm
          exact ⟨some rth, by simp [holds.rth, val, addr, equal, s.not_marked live], by simp [same]⟩
        · have differ := Bool.eq_true_of_not_eq_false (mt cmp.mp (Ne.symm same))
          exact ⟨none, by simp [holds.rth, val, addr, differ], by simp [same]⟩
    · have apart : y.2.stem ≠ ap.bits bitlen := by
        intro same
        exact long (by rw [holds.bit, same, length_bits])
      refine ⟨none, by simp [long], fun rth => ?_⟩
      simp only [found, apart, and_false]
      simp

end SonicUtils.Radix
