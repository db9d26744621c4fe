import SonicUtils.Radix.Exact
import SonicUtils.Radix.PrefixMap

/-!
# Longest prefix match

`getbest_spec`: `std_radix_getbest` returns the head of the longest prefix of
the key that is bound.
-/

namespace SonicUtils.Radix

open PtrTree BitTrie

/-- The node has a head whose prefix is one of the key, of at most `bitlen` bits. -/
def Matches (ap : Addr) (bitlen : Nat) (x : Node NodeId HeadId) : Bool :=
  x.2.stem.length ≤ bitlen && x.2.val.isSome && ap.bits x.2.stem.length == x.2.stem

/-- The way back finds the first node that matches. -/
theorem backtrack_spec {rtt : Rtt} (ap : Addr) (bitlen fuel : Nat)
    (fs : List (Frame (Node NodeId HeadId))) (x : Node NodeId HeadId) (l r : RtTree)
    (linked : Linked rtt.mem none (plug fs (.node x l r))) (enough : fs.length < fuel) :
    rtt.backtrack ap bitlen fuel (some x.1) =
      .ok (((x :: fs.map Frame.node).find? (Matches ap bitlen)).map Prod.fst) := by
  induction fuel generalizing fs x l r with
  | zero => omega
  | succ fuel ih =>
    obtain ⟨⟨n, live, holds⟩, att⟩ := holds_at linked
    have rest : rtt.backtrack ap bitlen fuel n.rtnParent =
        .ok (((fs.map Frame.node).find? (Matches ap bitlen)).map Prod.fst) := by
      rw [holds.parent]
      cases fs with
      | nil => cases fuel <;> rfl
      | cons f fs =>
        cases f with
        | mk side z other =>
          cases side with
          | false => exact ih fs z (.node x l r) other linked (by simpa using enough)
          | true => exact ih fs z other (.node x l r) linked (by simpa using enough)
    rw [List.find?_cons]
    by_cases long : n.rtnBit > bitlen
    · have no : Matches ap bitlen x = false := by
        simp [Matches, ← holds.bit, Nat.not_le.mpr long]
      simp only [Rtt.backtrack, node_of live, ok_bind, if_pos long, rest, no]
    · cases val : x.2.val with
      | none =>
        have no : Matches ap bitlen x = false := by simp [Matches, val]
        simp only [Rtt.backtrack, node_of live, ok_bind, if_neg long, holds.rth, val, rest, no]
      | some rth =>
        obtain ⟨his, addr, cmp⟩ := compare_at holds (att rth val) ap
        have short : x.2.stem.length ≤ bitlen := by
          rw [← holds.bit]
          omega
        have yes : Matches ap bitlen x = (ap.bits x.2.stem.length == x.2.stem) := by
          simp [Matches, val, short]
        simp only [Rtt.backtrack, node_of live, ok_bind, if_neg long, holds.rth, val, addr, yes]
        by_cases same : ap.bits x.2.stem.length = x.2.stem
        · simp [cmp.mpr same, same]
        · simp only [Bool.eq_true_of_not_eq_false (mt cmp.mp same), beq_false_of_ne same, rest,
            if_true]

theorem mem_nodes_of_path {ap : Addr} {go : Label HeadId → Bool} {t : RtTree}
    {fs : List (Frame (Node NodeId HeadId))} {y : Node NodeId HeadId} {yl yr : RtTree}
    (d : Descent ap go [] t fs y yl yr) {z : Node NodeId HeadId}
    (hz : z ∈ y :: fs.map Frame.node) : z ∈ nodes t := by
  have whole : plug fs (.node y yl yr) = t := d.same
  rw [← whole, mem_nodes_plug]
  rcases List.mem_cons.mp hz with rfl | up
  · exact .inl (by simp)
  · obtain ⟨f, hf, rfl⟩ := List.mem_map.mp up
    exact .inr (List.mem_flatMap.mpr ⟨f, hf, by simp⟩)

theorem path_decreasing {ap : Addr} {go : Label HeadId → Bool} {t : RtTree}
    {fs : List (Frame (Node NodeId HeadId))} {y : Node NodeId HeadId} {yl yr : RtTree}
    (trie : Trie [] t) (d : Descent ap go [] t fs y yl yr) :
    (y :: fs.map Frame.node).Pairwise fun a b => b.2.stem.length < a.2.stem.length := by
  have whole : plug fs (.node y yl yr) = t := d.same
  rw [← whole] at trie
  obtain ⟨⟨below, _⟩, above, _⟩ := trie_plug.mp trie
  refine List.pairwise_cons.mpr ⟨fun z hz => ?_, above.decreasing⟩
  obtain ⟨f, hf, rfl⟩ := List.mem_map.mp hz
  exact (above.stem_lt hf).trans_le below.length_le

/-- The bindings that qualify are on the way that the search took. -/
theorem qualifies_iff {ap : Addr} {t : RtTree} {m : PrefixMap HeadId} {bitlen : Nat}
    {fs : List (Frame (Node NodeId HeadId))} {y : Node NodeId HeadId} {yl yr : RtTree}
    (trie : Trie [] t) (stored : m.StoredIn t)
    (d : Descent ap (fun lab => lab.stem.length < bitlen) [] t fs y yl yr) (k : List Bool) :
    m.Qualifies ap.bit bitlen k ↔
      ∃ z ∈ y :: fs.map Frame.node, z.2.stem = k ∧ Matches ap bitlen z = true := by
  have whole : plug fs (.node y yl yr) = t := d.same
  have stored' := stored
  rw [← whole] at trie stored'
  obtain ⟨below, above, _⟩ := trie_plug.mp trie
  constructor
  · rintro ⟨⟨v, hv⟩, short, covers⟩
    have mem := (stored' k v).mp hv
    have matched {z : Node NodeId HeadId} (mem : (k, v) ∈ own z) :
        z.2.stem = k ∧ Matches ap bitlen z = true := by
      obtain ⟨val, stem⟩ := mem_own.mp mem
      refine ⟨stem, ?_⟩
      simp [Matches, val, stem, short, (covers_iff ap k).mp covers]
    rcases on_path above (d.follows (by simp [Follows])) covers mem with ⟨f, hf, here⟩ | inside
    · exact ⟨f.node, by simp [List.mem_map_of_mem hf], matched here⟩
    · have stop := d.stopped.imp_left fun long => Nat.le_of_not_lt (of_decide_eq_false long)
      exact ⟨y, by simp, matched (own_of_covers below stop covers short inside)⟩
  · rintro ⟨z, hz, rfl, hm⟩
    simp only [Matches, Bool.and_eq_true, decide_eq_true_eq, beq_iff_eq] at hm
    obtain ⟨⟨short, bound⟩, same⟩ := hm
    obtain ⟨v, hv⟩ := Option.isSome_iff_exists.mp bound
    refine ⟨⟨v, (stored' _ v).mpr ?_⟩, short, (covers_iff ap _).mpr same⟩
    rw [whole]
    exact mem_entries.mpr ⟨z, mem_nodes_of_path d hz, mem_own.mpr ⟨hv, rfl⟩⟩

/-- **Longest prefix match.** `std_radix_getbest` returns the head of the longest
bound prefix of the key that has at most `bitlen` bits, and changes nothing. -/
theorem getbest_spec {rtt : Rtt} {t : RtTree} {m : PrefixMap HeadId} (rep : Represents rtt t)
    (stored : m.StoredIn t) (s : Settled rtt) (ap : Addr) {bitlen : Nat}
    (valid : bitlen ≤ rtt.rttMaxaddrlen) :
    ∃ found, stdRadixGetbest rtt (some ap) bitlen = .ok (found, rtt) ∧
      m.IsBest ap.bit bitlen found := by
  have checked : ¬ (rtt.rttDebug = true ∧ bitlen > rtt.rttMaxaddrlen) := by omega
  unfold stdRadixGetbest
  simp only [convertKey_none s.convert, s.ready.validate, ok_bind, if_neg checked]
  cases t with
  | nil =>
    have empty : rtt.rttRoot = none := rep.root
    refine ⟨none, by simp [empty], ?_⟩
    rintro k ⟨⟨v, hv⟩, _⟩
    simpa using (stored k v).mp hv
  | node x l r =>
    have deep := rep.depth s.ready
    obtain ⟨fs, y, yl, yr, run, d⟩ :=
      descend_spec ap (fun n => n.rtnBit < bitlen) (fun lab => lab.stem.length < bitlen)
        (fun n k lab h => by simp [h.bit]) Rtt.pathFuel [] x l r rep.linked (by omega)
    have whole : plug fs (.node y yl yr) = .node x l r := d.same
    have linked := whole ▸ rep.linked
    have short := length_add_height fs (.node y yl yr)
    rw [whole] at short
    have back := backtrack_spec ap bitlen Rtt.pathFuel fs y yl yr linked (by omega)
    have qualifies := qualifies_iff rep.trie stored d
    have order := path_decreasing rep.trie d
    simp only [rep.root_node, ok_bind, run, back]
    cases find : (y :: fs.map Frame.node).find? (Matches ap bitlen) with
    | none =>
      refine ⟨none, by simp, fun k hk => ?_⟩
      obtain ⟨z, hz, _, hm⟩ := (qualifies k).mp hk
      exact List.find?_eq_none.mp find z hz hm
    | some z =>
      obtain ⟨hm, before, after, path, none_before⟩ := List.find?_eq_some_iff_append.mp find
      have hz : z ∈ y :: fs.map Frame.node := by simp [path]
      obtain ⟨k, ⟨n, live, holds⟩, _⟩ := rep.linked.holds (mem_nodes_of_path d hz)
      simp only [Matches, Bool.and_eq_true] at hm
      obtain ⟨v, hv⟩ := Option.isSome_iff_exists.mp hm.1.2
      have mine := (qualifies z.2.stem).mpr ⟨z, hz, rfl, by simpa [Matches] using hm⟩
      refine ⟨some v, ?_, z.2.stem, ?_, mine, ?_⟩
      · simp [node_of live, s.not_marked live, holds.rth, hv]
      · exact (stored _ v).mpr (mem_entries.mpr ⟨z, mem_nodes_of_path d hz, mem_own.mpr ⟨hv, rfl⟩⟩)
      · intro k' hk'
        obtain ⟨z', hz', rfl, hm'⟩ := (qualifies k').mp hk'
        rw [path] at order
        rcases List.mem_append.mp (path ▸ hz') with earlier | later
        · have skipped := none_before z' earlier
          simp [hm'] at skipped
        · rcases List.mem_cons.mp later with rfl | later
          · exact Nat.le_refl _
          · have tail := (List.pairwise_append.mp order).2.1
            exact ((List.pairwise_cons.mp tail).1 z' later).le

end SonicUtils.Radix
