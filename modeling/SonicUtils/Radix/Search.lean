import SonicUtils.Radix.Exact

/-!
# The search of insertions and of walks

`std_radix_insert` and `std_radix_getnext` search for a node with a head and
then for the first bit at which its key parts from theirs.
-/

namespace SonicUtils.Radix

open PtrTree BitTrie

variable {rtt : Rtt} {ap : Addr} {bitlen : Nat}

/-- A search that passes by the nodes without a head ends at a head. -/
theorem head_of_descent {go : Label HeadId → Bool} {t : RtTree}
    {fs : List (Frame (Node NodeId HeadId))} {y : Node NodeId HeadId} {yl yr : RtTree}
    (trie : Trie [] t) (desc : Descent ap go [] t fs y yl yr)
    (bare : ∀ lab, lab.val = none → go lab = true) : ∃ h, y.2.val = some h := by
  have whole : plug fs (.node y yl yr) = t := desc.same
  obtain ⟨⟨_, two, _⟩, _⟩ := trie_plug.mp (whole ▸ trie)
  apply Option.ne_none_iff_exists'.mp
  intro none
  rcases desc.stopped with stop | stop
  · rw [bare _ none] at stop
    cases stop
  · cases hb : ap.bit y.2.stem.length with
    | false => exact (two none).1 (by simpa [hb] using stop)
    | true => exact (two none).2 (by simpa [hb] using stop)

/-- Where the search for the first `bitlen` bits of `ap` ends: at the node `y`
of a head with the key `his`, which parts from `ap` at `d`, if at all. -/
structure Search (ap : Addr) (bitlen : Nat) (t : RtTree) (fs : List (Frame (Node NodeId HeadId)))
    (y : Node NodeId HeadId) (yl yr : RtTree) (his : Addr) (d : Nat) : Prop where
  same : plug fs (.node y yl yr) = t
  follows : Follows ap.bit fs
  passed : ∀ f ∈ fs, f.node.2.stem.length < bitlen ∨ f.node.2.val = none
  stopped : bitlen ≤ y.2.stem.length ∨ (if ap.bit y.2.stem.length then yr else yl) = .nil
  key : Covers y.2.stem his.bit
  agree : ∀ i < min d (min y.2.stem.length bitlen), ap.bit i = his.bit i
  differ : d < min y.2.stem.length bitlen → ap.bit d ≠ his.bit d

theorem search_spec (ap : Addr) {x : Node NodeId HeadId} {l r : RtTree} (rep : Represents rtt (.node x l r))
    (ready : Ready rtt) (valid : bitlen ≤ rtt.rttMaxaddrlen) :
    ∃ fs y yl yr n h his d,
      rtt.descend ap (fun n => n.rtnBit < bitlen || n.rtnRth = none) Rtt.pathFuel x.1 = .ok y.1 ∧
      rtt.nodes y.1 = some n ∧ n.Holds ⟨root yl, root yr, up fs⟩ y.2 ∧ y.2.val = some h ∧
      rtt.headAddr h = .ok his ∧ firstDiff ap his (min n.rtnBit bitlen) diffFuel 0 = .ok d ∧
      Search ap bitlen (.node x l r) fs y yl yr his d := by
  have deep := rep.depth ready
  obtain ⟨fs, y, yl, yr, run, desc⟩ :=
    descend_spec ap (fun n => n.rtnBit < bitlen || n.rtnRth = none)
      (fun lab => lab.stem.length < bitlen || lab.val = none) (fun n k lab h => by simp [h.bit, h.rth])
      Rtt.pathFuel [] x l r rep.linked (by omega)
  have whole : plug fs (.node y yl yr) = .node x l r := desc.same
  obtain ⟨h, val⟩ := head_of_descent rep.trie desc (fun lab none => by simp [none])
  obtain ⟨⟨n, live, holds⟩, att⟩ := holds_at (whole ▸ rep.linked)
  obtain ⟨_, his, key, stem⟩ := att h val
  have fits : min n.rtnBit bitlen ≤ 65528 := by
    have := ready.fits
    omega
  obtain ⟨d, diff, agree, differ⟩ := firstDiff_spec ap his fits
  have headAddr : rtt.headAddr h = .ok his := by simp [Rtt.headAddr, key]
  refine ⟨fs, y, yl, yr, n, h, his, d, run, live, holds, val, headAddr, diff, whole,
    desc.follows (by simp [Follows]), ?_, ?_, (covers_iff his _).mpr stem, holds.bit ▸ agree,
    holds.bit ▸ differ⟩
  · intro f hf
    simpa using (desc.passed f hf).resolve_left List.not_mem_nil
  · simpa [val] using desc.stopped

/-- A climb ends where it started, or at the node of the last frame passed. -/
theorem climb_top {gs : List (Frame (Node NodeId HeadId))} {t : RtTree} {x : Node NodeId HeadId}
    {l r : RtTree} (place : plug gs t = .node x l r) :
    (gs = [] ∧ t = .node x l r) ∨
      ∃ g ∈ gs, g.node = x ∧ ∀ y ∈ nodes t, y ∈ nodes (if g.side then r else l) := by
  rcases List.eq_nil_or_concat gs with rfl | ⟨before, g, rfl⟩
  · exact .inl ⟨rfl, place⟩
  · rw [List.concat_eq_append, plug_append] at place
    have inside {y : Node NodeId HeadId} (hy : y ∈ nodes t) : y ∈ nodes (plug before t) :=
      mem_nodes_plug.mpr (.inl hy)
    refine .inr ⟨g, by simp, ?_⟩
    cases g with
    | mk side z other =>
      cases side with
      | false =>
        obtain ⟨rfl, rfl, rfl⟩ := BinaryTree.node.inj place
        exact ⟨rfl, fun y => inside⟩
      | true =>
        obtain ⟨rfl, rfl, rfl⟩ := BinaryTree.node.inj place
        exact ⟨rfl, fun y => inside⟩

end SonicUtils.Radix
