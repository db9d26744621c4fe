import SonicUtils.Radix.KeyReads
import SonicUtils.Radix.Next
import SonicUtils.Radix.SecondBest

/-!
# Lookups with removals pending

What the five lookups return of the bindings of a table, and of those whose nodes are not
marked.

* `getexact_live`: `std_radix_getexact`;
* `getbest_first`: `std_radix_getbest`, `std_radix_getnextbest`;
* `getnext_finds`: `std_radix_getnext`, which goes by all bindings.
-/

namespace SonicUtils.Radix

open PtrTree BitTrie

variable {rtt : Rtt} {t l r : RtTree} {m : PrefixMap HeadId} {ap his : Addr} {bitlen d : Nat} {q : List Bool}
  {h : HeadId} {e : Entry HeadId} {fs : List (Frame (Node NodeId HeadId))} {y : Node NodeId HeadId}
  {start : Option NodeId}

/-- The bindings whose nodes are not marked. -/
def Rtt.live (rtt : Rtt) (m : PrefixMap HeadId) : PrefixMap HeadId := m.filter fun h => !rtt.pending h

theorem live_part : (rtt.live m).Part m := fun _ _ bound => (Option.filter_eq_some_iff.mp bound).1

theorem StoredIn.once (rep : Represents rtt t) (stored : m.StoredIn t) : m.Once :=
  fun _ _ _ bound bound' => rep.one_key ((stored _ _).mp bound) ((stored _ _).mp bound')

/-! ## `std_radix_getnext` -/

/-- A binding is where the search ends or below it, or beside the way to it. -/
theorem Search.spot (search : Search ap bitlen t fs y l r his d) (he : e ∈ entries t) :
    e ∈ entries (.node y l r) ∨ ∃ f ∈ fs, e ∈ own f.node ∨ e ∈ entries f.other := by
  rw [← search.same, entries_plug, List.mem_append, List.mem_append] at he
  rcases he with (early | here) | late
  · obtain ⟨f, hf, spot⟩ := mem_before early
    exact .inr ⟨f, hf, spot.imp_right And.right⟩
  · exact .inl here
  · obtain ⟨f, hf, _, beside⟩ := mem_after late
    exact .inr ⟨f, hf, .inr beside⟩

/-- What extends the prefix and is beside the way parts from the way below the prefix. -/
theorem Search.beside (search : Search ap bitlen t fs y l r his d) (trie : Trie [] t)
    {f : Frame (Node NodeId HeadId)} (hf : f ∈ fs) (he : e ∈ own f.node ∨ e ∈ entries f.other)
    (ext : ap.bits bitlen <+: e.1) : bitlen ≤ f.node.2.stem.length ∧ f.node.2.stem ++ [!f.side] <+: e.1 := by
  have long := ext.length_le
  rw [length_bits] at long
  cases he with
  | inl here =>
    obtain ⟨val, stem⟩ := mem_own.mp here
    cases search.passed f hf with
    | inl short =>
      rw [stem] at short
      omega
    | inr bare => cases val.symm.trans bare
  | inr beside =>
    have way := (search.way trie hf).2.key_extends beside
    refine ⟨?_, way⟩
    by_contra short
    have up_to : ap.bits (f.node.2.stem.length + 1) <+: e.1 := (bits_prefix_bits ap (by omega)).trans ext
    have same := (List.prefix_of_prefix_length_le way up_to (by simp)).eq_of_length (by simp)
    rw [bits_succ] at same
    have taken := (List.append_inj same (by simp)).2
    rw [search.follows f hf] at taken
    simp at taken

/-- If the search ends below the prefix, the prefix is not bound, and the binding found is
the one that the way down from the prefix comes to. -/
theorem Search.below (search : Search ap bitlen t fs y l r his d) (trie : Trie [] t) (stored : m.StoredIn t)
    (val : y.2.val = some h) (ahead : Ahead bitlen d y start) :
    m (ap.bits bitlen) = none ∧ m.Below ap.bit (ap.bits bitlen) y.2.stem := by
  obtain ⟨long, agree, _⟩ := ahead
  have same : ap.bits bitlen = his.bits bitlen := (bits_eq_iff ap his bitlen).mpr fun i hi => search.agree i (by omega)
  have reach : ap.bits bitlen <+: y.2.stem := same ▸ bits_prefix_of_covers search.key long.le
  have bound : m y.2.stem = some h := (stored _ _).mpr (search.listed (by simp [val]))
  obtain ⟨below, _⟩ := search.parts trie
  constructor
  · apply Option.eq_none_iff_forall_ne_some.mpr
    intro v bound
    rcases search.spot ((stored _ _).mp bound) with inside | ⟨f, hf, spot⟩
    · have longer := (below.root_extends_key inside).length_le
      rw [length_bits] at longer
      omega
    · obtain ⟨deep, way⟩ := search.beside trie hf spot (List.prefix_refl _)
      have longer := way.length_le
      simp only [List.length_append, List.length_singleton, length_bits] at longer
      omega
  · refine ⟨by simp [bound], reach, fun k' bound' ext short => ?_, fun s b stem way other k' ext => ?_⟩
    · obtain ⟨v, hv⟩ := Option.ne_none_iff_exists'.mp bound'
      rcases search.spot ((stored _ _).mp hv) with inside | ⟨f, hf, spot⟩
      · exact short.eq_of_length_le (below.root_extends_key inside).length_le
      · have apart := (search.beside trie hf spot ext).2
        exact (not_both_sides (search.way trie hf).1 (apart.trans short)).elim
    · have taken : ap.bit s.length = !b := Bool.eq_not_of_ne (Ne.symm other)
      rw [taken] at ext
      apply Option.eq_none_iff_forall_ne_some.mpr
      intro v bound
      rcases search.spot ((stored _ _).mp bound) with inside | ⟨f, hf, spot⟩
      · exact not_both_sides (way.trans (below.root_extends_key inside)) ext
      · have apart := (search.beside trie hf spot (stem.trans ((List.prefix_append _ _).trans ext))).2
        have step := (search.way trie hf).1
        obtain rfl := part_unique way ext step apart
        rw [search.follows f hf, taken] at step
        exact not_both_sides way step

/-- If it does not end below the prefix, nothing extends a prefix that is not bound. -/
theorem Search.none_below (search : Search ap bitlen t fs y l r his d) (trie : Trie [] t) (stored : m.StoredIn t)
    (val : y.2.val = some h) (apart : ¬ Ahead bitlen d y (some y.1)) (unbound : m (ap.bits bitlen) = none)
    {k : List Bool} (ext : ap.bits bitlen <+: k) : m k = none := by
  apply Option.eq_none_iff_forall_ne_some.mpr
  intro v bound
  have not_deep (reach : ap.bits bitlen <+: y.2.stem) : ¬ bitlen < y.2.stem.length := by
    intro long
    refine apart ⟨long, ?_, rfl⟩
    by_contra early
    have covers : Covers (ap.bits bitlen) his.bit := search.key.shorten reach
    have at_d := covers d (by rw [length_bits]; omega)
    rw [getElem_bits] at at_d
    exact search.differ (by omega) at_d
  obtain ⟨below, _⟩ := search.parts trie
  rcases search.spot ((stored _ _).mp bound) with inside | ⟨f, hf, spot⟩
  · have stem : y.2.stem <+: k := below.root_extends_key inside
    rcases Nat.lt_trichotomy y.2.stem.length bitlen with short | same | long
    · have on : ap.bits (y.2.stem.length + 1) <+: k := (bits_prefix_bits ap (by omega)).trans ext
      have reach : y.2.stem <+: ap.bits (y.2.stem.length + 1) := List.prefix_of_prefix_length_le stem on (by simp)
      have mine : ap.bits y.2.stem.length = y.2.stem := (covers_iff ap _).mp (bits_prefix_iff.mp reach).2
      have stop := search.stopped.resolve_left (by omega)
      rw [bits_succ, mine] at on
      rcases below.mem_cases inside with ⟨_, own_⟩ | ⟨inl, clear⟩ | ⟨inr, set⟩
      · rw [show k = y.2.stem from own_.symm] at on
        exact not_beyond _ on
      · cases bit : ap.bit y.2.stem.length with
        | false =>
          simp only [bit, Bool.false_eq_true, if_false] at stop
          simp [stop] at inl
        | true =>
          rw [bit] at on
          exact not_both clear on
      · cases bit : ap.bit y.2.stem.length with
        | false =>
          rw [bit] at on
          exact not_both on set
        | true =>
          simp only [bit, if_true] at stop
          simp [stop] at inr
    · have here : y.2.stem = ap.bits bitlen :=
        (List.prefix_of_prefix_length_le stem ext (by simp [same])).eq_of_length (by simp [same])
      have bound' : m y.2.stem = some h := (stored _ _).mpr (search.listed (by simp [val]))
      rw [here, unbound] at bound'
      cases bound'
    · exact not_deep (List.prefix_of_prefix_length_le ext stem (by rw [length_bits]; omega)) long
  · obtain ⟨deep, other⟩ := search.beside trie hf spot ext
    have step := (search.way trie hf).1
    have stem : ap.bits bitlen <+: f.node.2.stem :=
      List.prefix_of_prefix_length_le ext ((List.prefix_append _ _).trans other) (by rw [length_bits]; exact deep)
    have longer := step.length_le
    simp only [List.length_append, List.length_singleton] at longer
    exact not_deep (stem.trans ((List.prefix_append _ _).trans step)) (by omega)

/-- The first binding on the left. -/
theorem Search.least_left (search : Search ap bitlen t fs y l r his d) (trie : Trie [] t) (stored : m.StoredIn t)
    {es : List (Entry HeadId)} (list : entries l = e :: es) : m.Least (y.2.stem ++ [false]) e.1 := by
  obtain ⟨below, _⟩ := search.parts trie
  have first : e ∈ entries l := by simp [list]
  have bound : m e.1 = some e.2 := (stored _ _).mpr (search.listed (by simp [first]))
  refine ⟨by simp [bound], (below.mem_left_iff.mp first).2, fun k' bound' ext => ?_⟩
  obtain ⟨v, hv⟩ := Option.ne_none_iff_exists'.mp bound'
  have whole := search.same
  have inside : (k', v) ∈ entries (.node y l r) := by
    apply mem_of_extends (whole ▸ trie) ((List.prefix_append _ _).trans ext)
    rw [whole]
    exact (stored _ _).mp hv
  have order := sorted_entries below.2.2.1
  have listed := below.mem_left_iff.mpr ⟨inside, ext⟩
  rw [list] at order listed
  cases List.mem_cons.mp listed with
  | inl same => rw [← same]; exact lt_irrefl _
  | inr later => exact (List.rel_of_pairwise_cons order later).asymm

/-- What the walk from where the search has led finds. -/
theorem Search.walk {found : Option HeadId} (search : Search ap bitlen t fs y l r his d) (rep : Represents rtt t)
    (ready : Ready rtt) (stored : m.StoredIn t) (val : y.2.val = some h) (walk : rthFrom rtt start = .ok found)
    (outcome : Misled bitlen d y l start ∨ ¬ Misled bitlen d y l (root l) ∧
      (Ahead bitlen d y start ∨ ¬ Ahead bitlen d y (some y.1) ∧ FirstAfter (ap.bits bitlen) t start)) :
    ∃ x, found = x.bind m ∧ m.Finds ap.bit (ap.bits bitlen) x := by
  have trie := rep.trie
  rcases outcome with misled | ⟨straight, ahead | ⟨apart, first⟩⟩
  · have at_ := missesAt_of_misled search trie stored val ⟨misled.inside, misled.agree, misled.left, rfl⟩
    obtain ⟨e, es, list, rfl⟩ := misled_found rep ready search misled walk
    have bound : m e.1 = some e.2 := (stored _ _).mpr (search.listed (by simp [list]))
    exact ⟨some e.1, bound.symm, .back at_ (search.least_left trie stored list)⟩
  · obtain ⟨unbound, below⟩ := search.below trie stored val ahead
    have here : rthFrom rtt (some y.1) = _ := firstRth_at rep ready search.same
    obtain rfl : some h = found := by
      rw [ahead.start, here] at walk
      simpa [own, val] using walk
    have bound : m y.2.stem = some h := (stored _ _).mpr (search.listed (by simp [val]))
    exact ⟨some y.2.stem, bound.symm, .below unbound below⟩
  · have not_misses : ¬ m.Misses (ap.bits bitlen) :=
      fun misses => straight (misled_of_misses search trie stored val misses)
    have next := isNext_from rep ready stored first walk
    cases found with
    | none =>
      refine ⟨none, rfl, .last not_misses fun k' greater => ?_⟩
      apply Option.eq_none_iff_forall_ne_some.mpr
      intro v bound
      exact next k' v bound greater
    | some v =>
      obtain ⟨k, bound, greater, least⟩ := next
      refine ⟨some k, bound.symm, .next (fun unbound k' => ?_) not_misses ⟨by simp [bound], greater, ?_⟩⟩
      · exact search.none_below trie stored val apart unbound
      · intro k' bound' greater'
        obtain ⟨v', hv'⟩ := Option.ne_none_iff_exists'.mp bound'
        exact least k' v' hv' greater'

/-- **The next head**, whether it is marked or not. -/
theorem getnext_finds (s : Standing rtt t) (stored : m.StoredIn t) (addr : Addr) (valid : bitlen ≤ rtt.rttMaxaddrlen) :
    ∃ x after, stdRadixGetnext rtt (some addr) bitlen = .ok (x.bind m, after) ∧
      m.Finds (rtt.convertKey addr).1.bit ((rtt.convertKey addr).1.bits bitlen) x := by
  obtain ⟨ap, after, key, s', _, _, len, _⟩ := s.converted addr
  have checked : ¬ (after.rttDebug = true ∧ bitlen > after.rttMaxaddrlen) := by omega
  unfold stdRadixGetnext
  simp only [key, s'.ready.validate, ok_bind, if_neg checked]
  cases t with
  | nil =>
    have empty : after.rttRoot = none := s'.rep.root
    have unbound (k : List Bool) : m k = none := by
      apply Option.eq_none_iff_forall_ne_some.mpr
      intro v bound
      simpa using (stored k v).mp bound
    refine ⟨none, after, by simp [empty], .last ?_ fun k' _ => unbound k'⟩
    rintro ⟨p, bound, _⟩
    exact bound (unbound p)
  | node x xl xr =>
    obtain ⟨fs, y, l, r, h, his, d, start, val, search, run, somewhere, outcome⟩ :=
      nextStart_spec ap s'.rep s'.ready (len ▸ valid)
    obtain ⟨found, walk⟩ := rthFrom_somewhere s'.rep s'.ready somewhere
    obtain ⟨x, rfl, finds⟩ := search.walk s'.rep s'.ready stored val walk outcome
    exact ⟨x, after, by simp [s'.rep.root_node, run, walk], finds⟩

/-- Without an address, the first head of all. -/
theorem getnext_isFirst (s : Standing rtt t) (stored : m.StoredIn t) (valid : bitlen ≤ rtt.rttMaxaddrlen) :
    ∃ x, stdRadixGetnext rtt none bitlen = .ok (x.bind m, rtt) ∧ m.IsFirst x := by
  rw [getnext_first s.rep s.ready valid]
  cases list : entries t with
  | nil =>
    refine ⟨none, rfl, fun k => ?_⟩
    apply Option.eq_none_iff_forall_ne_some.mpr
    intro v bound
    have listed := (stored k v).mp bound
    rw [list] at listed
    cases listed
  | cons e es =>
    have bound : m e.1 = some e.2 := (stored _ _).mpr (by simp [list])
    have order := sorted_entries s.rep.trie
    rw [list] at order
    refine ⟨some e.1, by simp [bound], by simp [bound], List.nil_prefix, fun k' bound' _ => ?_⟩
    obtain ⟨v, hv⟩ := Option.ne_none_iff_exists'.mp bound'
    have listed := (stored _ _).mp hv
    rw [list] at listed
    cases List.mem_cons.mp listed with
    | inl same => rw [← same]; exact lt_irrefl _
    | inr later => exact (List.rel_of_pairwise_cons order later).asymm

/-! ## `std_radix_getbest` and `std_radix_getnextbest` -/

/-- The bindings at nodes that match are those of the prefixes of the key. -/
theorem WayBack.prefixes {path : List (Node NodeId HeadId)} (way : WayBack ap bitlen t path) (trie : Trie [] t)
    (stored : m.StoredIn t) :
    m.Prefixes (ap.bits bitlen) ((path.filter (Matches ap bitlen)).map fun z => z.2.stem) ∧
      ∀ z ∈ path.filter (Matches ap bitlen), z ∈ nodes t ∧ ∃ v, z.2.val = some v ∧ m z.2.stem = some v := by
  have bound_iff (k : List Bool) : m.Qualifies ap.bit bitlen k ↔ m k ≠ none ∧ k <+: ap.bits bitlen := by
    rw [bits_prefix_iff, Option.ne_none_iff_exists']
    exact Iff.rfl
  cases way with
  | nil =>
    refine ⟨⟨.nil, fun k => ?_⟩, nofun⟩
    have unbound : m k = none := by
      apply Option.eq_none_iff_forall_ne_some.mpr
      intro v bound
      simpa using (stored k v).mp bound
    simp [unbound]
  | @node t fs y l r d =>
    have qualifies := qualifies_iff trie stored d
    refine ⟨⟨List.pairwise_map.mpr ((path_decreasing trie d).filter _), fun k => ?_⟩, fun z hz => ?_⟩
    · rw [← bound_iff, qualifies k, List.mem_map]
      constructor
      · rintro ⟨z, hz, stem⟩
        obtain ⟨inside, matched⟩ := List.mem_filter.mp hz
        exact ⟨z, inside, stem, matched⟩
      · rintro ⟨z, inside, stem, matched⟩
        exact ⟨z, List.mem_filter.mpr ⟨inside, matched⟩, stem⟩
    · obtain ⟨inside, matched⟩ := List.mem_filter.mp hz
      have hz' := mem_nodes_of_path d inside
      simp only [Matches, Bool.and_eq_true] at matched
      obtain ⟨v, val⟩ := Option.isSome_iff_exists.mp matched.1.2
      exact ⟨hz', v, val, (stored _ _).mpr (mem_entries.mpr ⟨z, hz', mem_own.mpr ⟨val, rfl⟩⟩)⟩

/-- The node of a binding is marked if the binding is not live. -/
theorem live_at {z : Node NodeId HeadId} {v : HeadId} (rep : Represents rtt t) (inside : z ∈ nodes t)
    (val : z.2.val = some v) (bound : m z.2.stem = some v) :
    alive rtt z = rtt.live m z.2.stem ∧ (rtt.nodes z.1).any RtNode.marked = (rtt.live m z.2.stem).isNone := by
  obtain ⟨_, ⟨n, live, holds⟩, att⟩ := rep.linked.holds inside
  have mark := pending_of (att v val).1 live
  rw [alive, live, Option.bind_some, Option.any_some, Rtt.live, PrefixMap.filter, bound, holds.rth, val]
  cases marked : n.marked with
  | false => simp [Option.filter, mark, marked]
  | true => simp [Option.filter, mark, marked]

/-- **The longest prefixes** of the key, of which the first one is looked at and the second
one, whether they are marked or not. -/
theorem getbest_first (s : Standing rtt t) (stored : m.StoredIn t) (addr : Addr) (valid : bitlen ≤ rtt.rttMaxaddrlen) :
    ∃ ks after, m.Prefixes ((rtt.convertKey addr).1.bits bitlen) ks ∧
      stdRadixGetbest rtt (some addr) bitlen = .ok ((rtt.live m).first ks, after) ∧
      stdRadixGetnextbest rtt (some addr) bitlen = .ok ((rtt.live m).second ks, after) := by
  obtain ⟨ap, after, path, key, way, best, next⟩ := getbest_matches s.rep s.ready addr valid
  obtain ⟨prefixes, bound⟩ := way.prefixes s.rep.trie stored
  rw [key]
  refine ⟨_, after, prefixes, ?_⟩
  rw [best, next]
  cases hms : path.filter (Matches ap bitlen) with
  | nil => exact ⟨rfl, rfl⟩
  | cons z zs =>
    rw [hms] at bound
    obtain ⟨inside, v, val, own_⟩ := bound z List.mem_cons_self
    obtain ⟨first, mark⟩ := live_at s.rep inside val own_
    refine ⟨by rw [found, first]; rfl, ?_⟩
    rw [foundNext, mark]
    cases zs with
    | nil =>
      cases rtt.live m z.2.stem with
      | none => rfl
      | some v => rfl
    | cons z' zs =>
      obtain ⟨inside', v', val', own'⟩ := bound z' (List.mem_cons_of_mem z List.mem_cons_self)
      have second := (live_at s.rep inside' val' own').1
      rw [found, second]
      simp only [List.map_cons, PrefixMap.second]
      cases rtt.live m z.2.stem with
      | none => rfl
      | some v => rfl

/-! ## `std_radix_getexact` -/

/-- **The exact prefix**, if it is not marked. -/
theorem getexact_live (s : Standing rtt t) (stored : m.StoredIn t) (addr : Addr) (valid : bitlen ≤ rtt.rttMaxaddrlen) :
    ∃ after, stdRadixGetexact rtt (some addr) bitlen =
      .ok (rtt.live m ((getexactKey rtt addr).bits bitlen), after) := by
  obtain ⟨after, debug, s', nodes, _, _⟩ := s.debugged addr valid
  refine ⟨after, ?_⟩
  generalize getexactKey rtt addr = ap at debug ⊢
  unfold stdRadixGetexact
  rw [s.ready.validate, ok_bind, debug]
  simp only [Bool.false_eq_true, if_false]
  have unbound (none_ : ∀ v, (ap.bits bitlen, v) ∉ entries t) : rtt.live m (ap.bits bitlen) = none := by
    apply live_part.none
    apply Option.eq_none_iff_forall_ne_some.mpr
    intro v bound
    exact none_ v ((stored _ v).mp bound)
  cases t with
  | nil =>
    have empty : after.rttRoot = none := s'.rep.root
    rw [unbound (by simp)]
    simp [empty]
  | node x l r =>
    have deep := s'.rep.depth s'.ready
    obtain ⟨fs, y, yl, yr, run, d⟩ :=
      descend_spec ap (fun n => n.rtnBit < bitlen) (fun lab => lab.stem.length < bitlen)
        (fun n k lab h => by simp [h.bit]) Rtt.pathFuel [] x l r s'.rep.linked (by omega)
    have found := bound_iff_own s'.rep.trie d
    have whole : plug fs (.node y yl yr) = .node x l r := d.same
    obtain ⟨⟨n, live, holds⟩, att⟩ := holds_at (whole ▸ s'.rep.linked)
    simp only [s'.rep.root_node, deref_some, ok_bind, run, node_of live]
    by_cases same : y.2.stem = ap.bits bitlen
    · have length : n.rtnBit = bitlen := by rw [holds.bit, same, length_bits]
      cases val : y.2.val with
      | none =>
        rw [unbound fun v bound => by cases val.symm.trans ((found v).mp bound).1]
        simp [length, holds.rth, val]
      | some rth =>
        obtain ⟨his, addr, cmp⟩ := compare_at holds (att rth val) ap
        have equal := cmp.mpr (by rw [same, length_bits])
        have bound : m y.2.stem = some rth := by
          rw [same]
          exact (stored _ _).mpr ((found rth).mpr ⟨val, same⟩)
        have inside : y ∈ PtrTree.nodes (.node x l r) := whole ▸ mem_nodes_plug.mpr (.inl (by simp))
        have here := (live_at s.rep inside val bound).1
        rw [← same, ← here, alive, ← nodes, live]
        simp only [length, ne_eq, not_true_eq_false, if_false, holds.rth, val, addr, ok_bind, Option.bind_some]
        rw [← length, equal]
        cases n.marked with
        | false => rfl
        | true => rfl
    · rw [unbound fun v bound => same ((found v).mp bound).2]
      by_cases long : n.rtnBit = bitlen
      · cases val : y.2.val with
        | none => simp [long, holds.rth, val]
        | some rth =>
          obtain ⟨his, addr, cmp⟩ := compare_at holds (att rth val) ap
          have stem : ap.bits y.2.stem.length ≠ y.2.stem := by
            rw [← holds.bit, long]
            exact Ne.symm same
          have differ := Bool.eq_true_of_not_eq_false (mt cmp.mp stem)
          rw [long] at differ
          simp [long, holds.rth, val, addr, differ]
      · simp [long]

end SonicUtils.Radix
