import SonicUtils.Radix.Climb
import SonicUtils.Radix.Finds

/-!
# The next prefix

Where `std_radix_getnext` starts its walk. It is the first node after the
prefix that is looked for, but for one case: the search ends at a node for a
shorter prefix without the child that it needs, and goes on to the other one.

* `nextStart_spec`: where the walk starts;
* `getnext_spec`: when the walk finds the next prefix, and when it does not.
-/

namespace SonicUtils.Radix

open PtrTree BitTrie

variable {rtt : Rtt} {ap his : Addr} {bitlen d : Nat} {t : RtTree} {q : List Bool}
  {fs : List (Frame (Node NodeId HeadId))} {y : Node NodeId HeadId} {l r : RtTree}

/-- The node is the first one of the tree with a prefix greater than `q`. -/
def FirstAfter (q : List Bool) (t : RtTree) : Option NodeId → Prop
  | none => ∀ e ∈ entries t, ¬ q < e.1
  | some i => ∃ fs x l r, plug fs (.node x l r) = t ∧ x.1 = i ∧
      (∀ e ∈ entriesBefore fs, ¬ q < e.1) ∧ ∀ e ∈ entries (.node x l r), q < e.1

/-- A climb to the right ends after `q`, where what it passes by is not. -/
theorem RightOf.firstAfter {past : Label HeadId → Bool} {res : Option NodeId} (h : RightOf past fs res)
    (before : ∀ e ∈ entriesBefore fs, ¬ q < e.1) (here : ∀ e ∈ entries (.node y l r), ¬ q < e.1)
    (passed : ∀ f ∈ fs, past f.node.2 = true → ∀ e ∈ entries f.other, ¬ q < e.1)
    (later : ∀ f ∈ fs, past f.node.2 = false → f.side = false → ∀ e ∈ entries f.other, q < e.1) :
    FirstAfter q (plug fs (.node y l r)) res := by
  have skip {gs : List (Frame (Node NodeId HeadId))} (sub : ∀ g ∈ gs, g ∈ fs)
      (all : ∀ g ∈ gs, Passed past g) : ∀ e ∈ entriesAfter gs, ¬ q < e.1 := by
    intro e he
    obtain ⟨g, hg, side, beside⟩ := mem_after he
    rcases all g hg with up | right | none
    · exact passed g (sub g hg) up e beside
    · rw [side] at right
      cases right
    · rw [none] at beside
      cases beside
  cases h with
  | out all =>
    intro e he
    simp only [entries_plug, List.mem_append] at he
    rcases he with (he | he) | he
    · exact before e he
    · exact here e he
    · exact skip (fun _ => id) all e he
  | «at» gs f fs' split all stop side full =>
    subst split
    cases child : f.other with
    | nil => exact absurd child full
    | node z zl zr =>
      refine ⟨⟨true, f.node, plug gs (.node y l r)⟩ :: fs', z, zl, zr, ?_, rfl, ?_, ?_⟩
      · rw [plug_append, plug_cons, plug_cons, ← child]
        cases f with
        | mk side' x other =>
          subst side
          rfl
      · intro e he
        rw [entriesBefore_append] at before
        simp only [entriesBefore, if_true, entries_plug, List.mem_append] at he before
        rcases he with he | he | (he | he) | he
        · exact before e (.inl (.inl he))
        · exact before e (.inl (.inr (.inl he)))
        · exact before e (.inr he)
        · exact here e he
        · exact skip (fun g hg => by simp [hg]) all e he
      · rw [← child]
        exact later f (by simp) stop side

/-! ## The four places to start from -/

theorem Search.parts (search : Search ap bitlen t fs y l r his d) (trie : Trie [] t) :
    Trie (stemAbove fs) (.node y l r) ∧ TrieAbove fs := by
  rw [← search.same] at trie
  exact ⟨(trie_plug.mp trie).1, (trie_plug.mp trie).2.1⟩

theorem Search.way (search : Search ap bitlen t fs y l r his d) (trie : Trie [] t)
    {f : Frame (Node NodeId HeadId)} (hf : f ∈ fs) :
    f.node.2.stem ++ [f.side] <+: y.2.stem ∧ Trie (f.node.2.stem ++ [!f.side]) f.other := by
  obtain ⟨below, above⟩ := search.parts trie
  obtain ⟨step, other⟩ := above.frame hf
  exact ⟨step.trans below.1, other⟩

/-- A stem on the way that ends before the keys part is a prefix of the key. -/
theorem Search.prefix_of_short (search : Search ap bitlen t fs y l r his d) {k : List Bool}
    (stem : k <+: y.2.stem) (short : k.length ≤ min d (min y.2.stem.length bitlen)) :
    k <+: ap.bits bitlen := by
  have mine := search.key.shorten stem
  refine bits_prefix_iff.mpr ⟨by omega, fun i hi => ?_⟩
  rw [mine i hi, search.agree i (by omega)]

/-- The prefix extends the stem of `y`, and the next node of the walk comes
after it, unless `y` lacks the right child and has the left one. -/
theorem firstAfter_next (search : Search ap bitlen t fs y l r his d) (trie : Trie [] t)
    (short : y.2.stem.length ≤ bitlen) (agree : min y.2.stem.length bitlen ≤ d)
    (good : l = .nil ∨ y.2.stem.length = bitlen) {res : Option NodeId}
    (next : match (l, r) with
      | (.node z _ _, _) => res = some z.1
      | (.nil, .node z _ _) => res = some z.1
      | (.nil, .nil) => RightOf (fun _ => false) fs res) :
    FirstAfter (ap.bits bitlen) t res := by
  obtain ⟨below, above⟩ := search.parts trie
  obtain ⟨stem, _, left, right⟩ := below
  have reach : y.2.stem <+: ap.bits bitlen := search.prefix_of_short (List.prefix_refl _) (by omega)
  have before : ∀ e ∈ entriesBefore fs, ¬ ap.bits bitlen < e.1 :=
    fun e he => (before_lt above (stem.trans reach) he).asymm
  have mine : ∀ e ∈ own y, ¬ ap.bits bitlen < e.1 := by
    intro e he
    rw [← (mem_own.mp he).2]
    exact not_lt_of_extends reach
  have later {e : Entry HeadId} {b : Bool} (exact_ : y.2.stem.length = bitlen)
      (ext : y.2.stem ++ [b] <+: e.1) : ap.bits bitlen < e.1 := by
    have same : y.2.stem = ap.bits bitlen := reach.eq_of_length (by rw [length_bits, exact_])
    rw [← same]
    have longer := ext.length_le
    simp only [List.length_append, List.length_singleton] at longer
    exact lt_of_longer ((List.prefix_append _ _).trans ext) (by omega)
  cases l with
  | node z zl zr =>
    have exact_ := good.resolve_left (by simp)
    obtain rfl : res = some z.1 := next
    refine ⟨⟨false, y, r⟩ :: fs, z, zl, zr, search.same, rfl, ?_, ?_⟩
    · intro e he
      simp only [entriesBefore, Bool.false_eq_true, if_false, List.append_nil, List.mem_append] at he
      exact he.elim (before e) (mine e)
    · intro e he
      exact later exact_ (left.key_extends he)
  | nil =>
    cases r with
    | node z zl zr =>
      obtain rfl : res = some z.1 := next
      refine ⟨⟨true, y, .nil⟩ :: fs, z, zl, zr, search.same, rfl, ?_, ?_⟩
      · intro e he
        simp only [entriesBefore, if_true, entries_nil, List.append_nil, List.mem_append] at he
        exact he.elim (before e) (mine e)
      · intro e he
        have ext := right.key_extends he
        rcases short.eq_or_lt with exact_ | inside
        · exact later exact_ ext
        · have none := search.stopped.resolve_left (by omega)
          have clear : ap.bit y.2.stem.length = false := by
            cases hb : ap.bit y.2.stem.length with
            | false => rfl
            | true => simp [hb] at none
          have same : ap.bits y.2.stem.length = y.2.stem :=
            (covers_iff ap _).mp (bits_prefix_iff.mp reach).2
          have step : y.2.stem ++ [false] <+: ap.bits bitlen := by
            have longer := bits_prefix_bits ap (m := y.2.stem.length + 1) inside
            rwa [bits_succ, same, clear] at longer
          exact lt_of_parts step ext
    | nil =>
      rw [← search.same]
      refine RightOf.firstAfter next before ?_ ?_ ?_
      · intro e he
        simp only [entries_node, entries_nil, List.append_nil] at he
        exact mine e he
      · intro _ _ up
        cases up
      · intro f hf _ side e he
        obtain ⟨step, trie⟩ := search.way trie hf
        exact lt_other trie side (step.trans reach) he

/-- Where the keys part, the bits before are the same and the next ones are not. -/
theorem Search.at_part (search : Search ap bitlen t fs y l r his d)
    (part : d < min y.2.stem.length bitlen) {b : Bool} (side : ap.bit d = b) :
    his.bits d ++ [b] <+: ap.bits bitlen ∧ his.bits (d + 1) = his.bits d ++ [!b] := by
  have same : ap.bits d = his.bits d := (bits_eq_iff ap his d).mpr fun i hi => search.agree i (by omega)
  have differ := search.differ part
  have mine := bits_prefix_bits ap (m := d + 1) (n := bitlen) (by omega)
  rw [bits_succ, same, side] at mine
  have theirs : his.bit d = !b := by
    rw [side] at differ
    exact Bool.eq_not_of_ne differ.symm
  exact ⟨mine, by rw [bits_succ, theirs]⟩

/-- On the way no node tests the bit at which the keys part. -/
theorem Search.no_test (search : Search ap bitlen t fs y l r his d) (trie : Trie [] t)
    (part : d < min y.2.stem.length bitlen) {f : Frame (Node NodeId HeadId)} (hf : f ∈ fs) :
    f.node.2.stem.length ≠ d := by
  intro same
  obtain ⟨step, _⟩ := search.way trie hf
  apply search.differ part
  rw [← same, search.key.next_bit step, search.follows f hf]

/-- The prefix is greater than what is at and below the end of the search. -/
theorem firstAfter_right (search : Search ap bitlen t fs y l r his d) (trie : Trie [] t)
    (part : d < min y.2.stem.length bitlen) (set : ap.bit d = true) {res : Option NodeId}
    (next : RightOf (fun lab => lab.stem.length > d) fs res) : FirstAfter (ap.bits bitlen) t res := by
  obtain ⟨below, above⟩ := search.parts trie
  obtain ⟨mine, theirs⟩ := search.at_part part set
  have less {k m : List Bool} (stem : m <+: y.2.stem) (long : d < m.length) (ext : m <+: k) :
      ¬ ap.bits bitlen < k := by
    have reach := bits_prefix_of_covers (search.key.shorten stem) (Nat.succ_le_of_lt long)
    rw [theirs] at reach
    exact (lt_of_parts (reach.trans ext) mine).asymm
  have deep {f : Frame (Node NodeId HeadId)} (hf : f ∈ fs) (long : d < f.node.2.stem.length)
      {e : Entry HeadId} (he : e ∈ own f.node ∨ e ∈ entries f.other) : ¬ ap.bits bitlen < e.1 := by
    obtain ⟨step, other⟩ := search.way trie hf
    apply less ((List.prefix_append _ _).trans step) long
    rcases he with here | beside
    · exact (mem_own.mp here).2 ▸ List.prefix_refl _
    · exact (List.prefix_append _ _).trans (other.key_extends beside)
  have shallow {f : Frame (Node NodeId HeadId)} (hf : f ∈ fs) (short : ¬ d < f.node.2.stem.length) :
      f.node.2.stem ++ [f.side] <+: ap.bits bitlen := by
    have ne := search.no_test trie part hf
    apply search.prefix_of_short (search.way trie hf).1
    simp only [List.length_append, List.length_singleton]
    omega
  rw [← search.same]
  refine RightOf.firstAfter next ?_ ?_ ?_ ?_
  · intro e he
    obtain ⟨f, hf, spot⟩ := mem_before he
    by_cases long : d < f.node.2.stem.length
    · exact deep hf long (spot.imp_right And.right)
    · rcases spot with here | ⟨side, beside⟩
      · exact (own_lt (shallow hf long) here).asymm
      · exact (other_lt (search.way trie hf).2 side (shallow hf long) beside).asymm
  · intro e he
    have ext := below.root_extends_key he
    exact less (List.prefix_refl _) (by omega) ext
  · intro f hf up e he
    exact deep hf (of_decide_eq_true up) (.inr he)
  · intro f hf low side e he
    exact lt_other (search.way trie hf).2 side (shallow hf (of_decide_eq_false low)) he

/-- The prefix is less than what is at and below the top of the climb. -/
theorem firstAfter_top (search : Search ap bitlen t fs y l r his d) (trie : Trie [] t)
    (part : d < min y.2.stem.length bitlen) (clear : ap.bit d = false)
    {gs fs' : List (Frame (Node NodeId HeadId))} {x : Node NodeId HeadId} {xl xr : RtTree}
    (split : fs = gs ++ fs') (place : plug gs (.node y l r) = .node x xl xr)
    (passed : ∀ g ∈ gs, d < g.node.2.stem.length)
    (stop : ∀ f ∈ fs'.head?, f.node.2.stem.length ≤ d) :
    FirstAfter (ap.bits bitlen) t (some x.1) := by
  have same : plug fs' (.node x xl xr) = t := by
    rw [← place, ← plug_append, ← split, search.same]
  obtain ⟨below, above, _⟩ := trie_plug.mp (same ▸ trie)
  obtain ⟨mine, theirs⟩ := search.at_part part clear
  have hy : y ∈ nodes (.node x xl xr) := by
    rw [← place]
    exact mem_nodes_plug.mpr (.inl (by simp))
  have stem : x.2.stem <+: y.2.stem := below.root_extends hy
  have long : d < x.2.stem.length := by
    rcases climb_top place with ⟨_, start⟩ | ⟨g, hg, rfl, _⟩
    · obtain ⟨rfl, rfl, rfl⟩ := BinaryTree.node.inj start
      omega
    · exact passed g hg
  refine ⟨fs', x, xl, xr, same, rfl, ?_, ?_⟩
  · intro e he
    have way : stemAbove fs' <+: ap.bits bitlen := by
      apply search.prefix_of_short (below.1.trans stem)
      cases fs' with
      | nil => simp [stemAbove]
      | cons f fs' =>
        have low := stop f (by simp)
        have ne := search.no_test trie part (f := f) (by simp [split])
        simp only [stemAbove, List.length_append, List.length_singleton]
        omega
    exact (before_lt above way he).asymm
  · intro e he
    have ext := below.root_extends_key he
    have reach := bits_prefix_of_covers (search.key.shorten stem) (Nat.succ_le_of_lt long)
    rw [theirs] at reach
    exact lt_of_parts mine (reach.trans ext)

/-- The search ends at the first node below the prefix, if the key is zero past
the prefix. -/
theorem firstAfter_self (search : Search ap bitlen t fs y l r his d) (trie : Trie [] t)
    (long : bitlen < y.2.stem.length) (agree : min y.2.stem.length bitlen ≤ d)
    (zero : ∀ i, bitlen ≤ i → ap.bit i = false) : FirstAfter (ap.bits bitlen) t (some y.1) := by
  obtain ⟨below, above⟩ := search.parts trie
  have same : ap.bits bitlen = his.bits bitlen :=
    (bits_eq_iff ap his bitlen).mpr fun i hi => search.agree i (by omega)
  have reach : ap.bits bitlen <+: y.2.stem := same ▸ bits_prefix_of_covers search.key long.le
  refine ⟨fs, y, l, r, search.same, rfl, ?_, ?_⟩
  · intro e he
    obtain ⟨f, hf, spot⟩ := mem_before he
    obtain ⟨step, other⟩ := search.way trie hf
    by_cases short : f.node.2.stem.length < bitlen
    · have way : f.node.2.stem ++ [f.side] <+: ap.bits bitlen := by
        apply search.prefix_of_short step
        simp only [List.length_append, List.length_singleton]
        omega
      rcases spot with here | ⟨side, beside⟩
      · exact (own_lt way here).asymm
      · exact (other_lt other side way beside).asymm
    · have bare := (search.passed f hf).resolve_left short
      have left : f.side = false := by
        rw [search.follows f hf, zero _ (Nat.le_of_not_lt short)]
      rcases spot with here | ⟨side, _⟩
      · simp [own, bare] at here
      · rw [left] at side
        cases side
  · intro e he
    have ext := below.root_extends_key he
    have longer := ext.length_le
    exact lt_of_longer (reach.trans ext) (by rw [length_bits]; omega)

/-- The node is one of the tree. -/
def Somewhere (t : RtTree) : Option NodeId → Prop
  | none => True
  | some i => ∃ fs x l r, plug fs (.node x l r) = t ∧ x.1 = i

theorem FirstAfter.somewhere {start : Option NodeId} (h : FirstAfter q t start) : Somewhere t start := by
  cases start with
  | none => trivial
  | some i =>
    obtain ⟨fs, x, l, r, same, here, _⟩ := h
    exact ⟨fs, x, l, r, same, here⟩

/-- The search has ended at a head below the prefix, and the walk starts there. -/
structure Ahead (bitlen d : Nat) (y : Node NodeId HeadId) (start : Option NodeId) : Prop where
  long : bitlen < y.2.stem.length
  agree : bitlen ≤ d
  start : start = some y.1

/-- The search has ended at a prefix of the one looked for, which lacks the child
to go on to and has another one on the left. -/
structure Misled (bitlen d : Nat) (y : Node NodeId HeadId) (l : RtTree) (start : Option NodeId) : Prop where
  inside : y.2.stem.length < bitlen
  agree : y.2.stem.length ≤ d
  left : l ≠ .nil
  start : start = root l

theorem nextStart_spec (ap : Addr) {x : Node NodeId HeadId} {xl xr : RtTree}
    (rep : Represents rtt (.node x xl xr)) (ready : Ready rtt) (valid : bitlen ≤ rtt.rttMaxaddrlen) :
    ∃ fs y l r h his d start, y.2.val = some h ∧ Search ap bitlen (.node x xl xr) fs y l r his d ∧
      nextStart rtt ap bitlen x.1 = .ok start ∧ Somewhere (.node x xl xr) start ∧
      (Misled bitlen d y l start ∨
        (¬ Misled bitlen d y l (root l) ∧
          (Ahead bitlen d y start ∨
            ¬ Ahead bitlen d y (some y.1) ∧ FirstAfter (ap.bits bitlen) (.node x xl xr) start))) := by
  obtain ⟨fs, y, l, r, n, h, his, d, run, live, holds, val, headAddr, diff, search⟩ :=
    search_spec ap rep ready valid
  have whole := search.same
  have linked := whole ▸ rep.linked
  have distinct := whole ▸ rep.distinct
  have deep := rep.depth ready
  have short := length_add_height fs (.node y l r)
  rw [whole] at short
  have bit := holds.bit
  have begin_ : nextStart rtt ap bitlen x.1 =
      if d ≥ min n.rtnBit bitlen then
        if n.rtnBit ≤ bitlen then rtt.preorderNext y.1 else .ok (some y.1)
      else if bitTest (ap (rnByte d)) (rnBit d) then
        rtt.climbRight (fun p => p.rtnBit ≠ d) (fun p => p.rtnBit > d) Rtt.pathFuel y.1
      else rtt.climbWhile (fun p => p.rtnBit > d) Rtt.pathFuel y.1 >>= fun climbed => .ok (some climbed.1) := by
    simp only [nextStart, run, ok_bind, node_of live, holds.rth, val, deref_some, headAddr, diff]
    rfl
  refine ⟨fs, y, l, r, h, his, d, ?_⟩
  by_cases agree : d ≥ min n.rtnBit bitlen
  · rw [if_pos agree] at begin_
    by_cases reach : n.rtnBit ≤ bitlen
    · rw [if_pos reach] at begin_
      obtain ⟨res, next, spec⟩ := preorderNext_spec linked distinct (by omega)
      by_cases good : l = .nil ∨ y.2.stem.length = bitlen
      · have first := firstAfter_next search rep.trie (by omega) (by omega) good spec
        refine ⟨res, val, search, begin_.trans next, first.somewhere, .inr ⟨?_, .inr ⟨fun ahead => ?_, first⟩⟩⟩
        · intro misled
          exact good.elim misled.left misled.inside.ne
        · have := ahead.long
          omega
      · obtain ⟨left, ne⟩ := not_or.mp good
        cases l with
        | nil => exact absurd rfl left
        | node z zl zr =>
          obtain rfl : res = some z.1 := spec
          refine ⟨some z.1, val, search, begin_.trans next, ?_, .inl ⟨by omega, by omega, left, rfl⟩⟩
          exact ⟨⟨false, y, r⟩ :: fs, z, zl, zr, whole, rfl⟩
    · rw [if_neg reach] at begin_
      have ahead : Ahead bitlen d y (some y.1) := ⟨by omega, by omega, rfl⟩
      refine ⟨some y.1, val, search, begin_, ⟨fs, y, l, r, whole, rfl⟩, .inr ⟨?_, .inl ahead⟩⟩
      intro misled
      have := misled.inside
      omega
  · rw [if_neg agree] at begin_
    have part : d < min y.2.stem.length bitlen := by omega
    have straight : ¬ Misled bitlen d y l (root l) := by
      intro misled
      have := misled.agree
      omega
    have apart : ¬ Ahead bitlen d y (some y.1) := by
      intro ahead
      have := ahead.agree
      omega
    cases hb : ap.bit d with
    | true =>
      have set : bitTest (ap (rnByte d)) (rnBit d) = true := hb
      rw [if_pos set] at begin_
      obtain ⟨res, climb, right⟩ := climbRight_spec (fun p => p.rtnBit ≠ d) (fun p => p.rtnBit > d)
        (fun lab => lab.stem.length ≠ d) (fun lab => lab.stem.length > d) (fun n k lab h => by simp [h.bit])
        (fun n k lab h => by simp [h.bit]) Rtt.pathFuel fs y l r linked distinct (by omega)
        fun f hf => decide_eq_true (search.no_test rep.trie part hf)
      have first := firstAfter_right search rep.trie part hb right
      exact ⟨res, val, search, begin_.trans climb, first.somewhere, .inr ⟨straight, .inr ⟨apart, first⟩⟩⟩
    | false =>
      have clear : ¬ bitTest (ap (rnByte d)) (rnBit d) = true := by
        show ¬ ap.bit d = true
        simp [hb]
      rw [if_neg clear] at begin_
      obtain ⟨gs, fs', x', l', r', split, place, climb, passed, stop⟩ :=
        climbWhile_spec (fun p => p.rtnBit > d) (fun lab => lab.stem.length > d)
          (fun n k lab h => by simp [h.bit]) Rtt.pathFuel fs y l r linked (by omega)
      rw [climb] at begin_
      have first := firstAfter_top search rep.trie part hb split place
        (fun g hg => of_decide_eq_true (passed g hg))
        fun f hf => Nat.le_of_not_lt (of_decide_eq_false (stop f hf))
      exact ⟨some x'.1, val, search, begin_, first.somewhere, .inr ⟨straight, .inr ⟨apart, first⟩⟩⟩

/-! ## When it is right -/

/-- The walk from a node that is after the prefix finds the next head. -/
theorem isNext_of_firstAfter {m : PrefixMap HeadId} (trie : Trie [] t) (stored : m.StoredIn t)
    {fs : List (Frame (Node NodeId HeadId))} {x : Node NodeId HeadId} {l r : RtTree}
    (same : plug fs (.node x l r) = t) (before : ∀ e ∈ entriesBefore fs, ¬ q < e.1)
    (after : ∀ e ∈ entries (.node x l r), q < e.1) :
    m.IsNext q ((entries (.node x l r)).head?.map Prod.snd) := by
  subst same
  obtain ⟨e, es, list⟩ := List.exists_cons_of_ne_nil
    ((trie_plug.mp trie).1.entries_ne_nil (t := .node x l r) (by simp))
  rw [list]
  have first : e ∈ entries (.node x l r) := by simp [list]
  refine ⟨e.1, (stored _ _).mpr ?_, after e first, ?_⟩
  · rw [entries_plug, List.mem_append, List.mem_append]
    exact .inl (.inr first)
  · intro k v bound greater less
    have order := sorted_entries trie
    have listed := (stored k v).mp bound
    rw [entries_plug, list] at order listed
    simp only [List.mem_append, List.mem_cons] at listed
    rw [List.pairwise_append] at order
    obtain ⟨front, _, last⟩ := order
    rcases listed with (early | here | later) | beyond
    · exact before _ early greater
    · subst here
      exact lt_irrefl _ less
    · have tail := (List.pairwise_append.mp front).2.1
      exact (List.rel_of_pairwise_cons tail later).asymm less
    · exact (last e (by simp) _ beyond).asymm less

/-- The child that is lacking is the right one. -/
theorem Misled.way {start : Option NodeId} (misled : Misled bitlen d y l start)
    (search : Search ap bitlen t fs y l r his d) :
    y.2.stem ++ [true] <+: ap.bits bitlen ∧ r = .nil := by
  obtain ⟨inside, agree, full, _⟩ := misled
  have stop := search.stopped.resolve_left (by omega)
  have set : ap.bit y.2.stem.length = true := by
    cases hb : ap.bit y.2.stem.length with
    | true => rfl
    | false => simp [hb, full] at stop
  have reach : y.2.stem <+: ap.bits bitlen := search.prefix_of_short (List.prefix_refl _) (by omega)
  have same : ap.bits y.2.stem.length = y.2.stem := (covers_iff ap _).mp (bits_prefix_iff.mp reach).2
  have longer := bits_prefix_bits ap (m := y.2.stem.length + 1) inside
  rw [bits_succ, same, set] at longer
  exact ⟨longer, by simpa [set] using stop⟩

theorem missesAt_of_misled {m : PrefixMap HeadId} (search : Search ap bitlen t fs y l r his d)
    (trie : Trie [] t) (stored : m.StoredIn t) {h : HeadId} (val : y.2.val = some h)
    (misled : Misled bitlen d y l (root l)) : m.MissesAt (ap.bits bitlen) y.2.stem := by
  obtain ⟨way, empty⟩ := misled.way search
  have full := misled.left
  have whole := search.same
  subst whole
  obtain ⟨⟨_, _, left, _⟩, _⟩ := search.parts trie
  refine ⟨?_, way, ?_, ?_⟩
  · have here : (y.2.stem, h) ∈ entries (plug fs (.node y l r)) :=
      mem_entries.mpr ⟨y, mem_nodes_plug.mpr (.inl (by simp)), mem_own.mpr ⟨val, rfl⟩⟩
    rw [(stored _ _).mpr here]
    simp
  · intro k ext
    apply Option.eq_none_iff_forall_ne_some.mpr
    intro v bound
    have stem := (List.prefix_append _ _).trans ext
    have spot := mem_of_extends trie stem ((stored k v).mp bound)
    simp only [entries_node, empty, entries_nil, List.append_nil, List.mem_append] at spot
    rcases spot with here | inl
    · have same : y.2.stem = k := (mem_own.mp here).2
      have longer := ext.length_le
      simp only [← same, List.length_append, List.length_singleton] at longer
      omega
    · exact not_both (left.key_extends inl) ext
  · obtain ⟨e, es, list⟩ := List.exists_cons_of_ne_nil (left.entries_ne_nil full)
    have first : e ∈ entries l := by simp [list]
    refine ⟨e.1, left.key_extends first, ?_⟩
    have listed : e ∈ entries (plug fs (.node y l r)) := by
      simp [entries_plug, first]
    rw [(stored _ _).mpr listed]
    simp

theorem misses_of_misled {m : PrefixMap HeadId} (search : Search ap bitlen t fs y l r his d)
    (trie : Trie [] t) (stored : m.StoredIn t) {h : HeadId} (val : y.2.val = some h)
    (misled : Misled bitlen d y l (root l)) : m.Misses (ap.bits bitlen) :=
  PrefixMap.misses_iff.mpr ⟨_, missesAt_of_misled search trie stored val misled⟩

theorem misled_of_misses {m : PrefixMap HeadId} (search : Search ap bitlen t fs y l r his d)
    (trie : Trie [] t) (stored : m.StoredIn t) {h : HeadId} (val : y.2.val = some h)
    (misses : m.Misses (ap.bits bitlen)) : Misled bitlen d y l (root l) := by
  obtain ⟨p, bound, way, none_set, k, ext, bound'⟩ := misses
  obtain ⟨v, hv⟩ := Option.ne_none_iff_exists'.mp bound
  have whole := search.same
  subst whole
  have covers := (bits_prefix_iff.mp way).2
  have short := way.length_le
  simp only [List.length_append, List.length_singleton, length_bits] at short
  have set : ap.bit p.length = true := covers.next_bit (List.prefix_refl _)
  have here_p := covers.shorten (List.prefix_append p [true])
  obtain ⟨below, above⟩ := search.parts trie
  have own_p : (p, v) ∈ own y := by
    rcases on_path above search.follows here_p ((stored p v).mp hv) with ⟨f, hf, mem⟩ | inside
    · exfalso
      have stem := (mem_own.mp mem).2
      obtain ⟨step, _⟩ := search.way trie hf
      rw [search.follows f hf, stem, set] at step
      have here : (y.2.stem, h) ∈ entries (plug fs (.node y l r)) :=
        mem_entries.mpr ⟨y, mem_nodes_plug.mpr (.inl (by simp)), mem_own.mpr ⟨val, rfl⟩⟩
      have none := none_set _ step
      rw [(stored _ _).mpr here] at none
      cases none
    · have fits : p.length ≤ bitlen := by omega
      exact own_of_covers below search.stopped here_p fits inside
  obtain rfl : y.2.stem = p := (mem_own.mp own_p).2
  refine ⟨by omega, ?_, ?_, rfl⟩
  · by_contra part
    have at_d := search.differ (by omega)
    apply at_d
    rw [← here_p d (by omega), ← search.key d (by omega)]
  · rintro rfl
    obtain ⟨w, hw⟩ := Option.ne_none_iff_exists'.mp bound'
    have stem := (List.prefix_append _ _).trans ext
    have spot := mem_of_extends trie stem ((stored k w).mp hw)
    obtain ⟨_, _, _, right⟩ := below
    simp only [entries_node, entries_nil, List.nil_append, List.mem_append] at spot
    rcases spot with here | inr
    · have same : y.2.stem = k := (mem_own.mp here).2
      have longer := ext.length_le
      simp only [← same, List.length_append, List.length_singleton] at longer
      omega
    · exact not_both ext (right.key_extends inr)

theorem firstRth_at {x : Node NodeId HeadId} (rep : Represents rtt t) (ready : Ready rtt)
    (same : plug fs (.node x l r) = t) :
    rtt.firstRth Rtt.pathFuel x.1 = .ok ((entries (.node x l r)).head?.map Prod.snd) := by
  subst same
  have deep := rep.depth ready
  have short := length_add_height fs (.node x l r)
  exact firstRth_spec _ _ fs x l r rep.linked (trie_plug.mp rep.trie).1 (by omega)

/-- `std_radix_getnext` comes back from every place that it starts at. -/
theorem rthFrom_somewhere (rep : Represents rtt t) (ready : Ready rtt) {start : Option NodeId}
    (h : Somewhere t start) : ∃ found, rthFrom rtt start = .ok found := by
  cases start with
  | none => exact ⟨none, rfl⟩
  | some i =>
    obtain ⟨fs, x, l, r, same, rfl⟩ := h
    exact ⟨_, firstRth_at rep ready same⟩

/-- Without an address the walk finds the first head. -/
theorem getnext_first (rep : Represents rtt t) (ready : Ready rtt) (valid : bitlen ≤ rtt.rttMaxaddrlen) :
    stdRadixGetnext rtt none bitlen = .ok ((entries t).head?.map Prod.snd, rtt) := by
  have checked : ¬ (rtt.rttDebug = true ∧ bitlen > rtt.rttMaxaddrlen) := by omega
  unfold stdRadixGetnext
  simp only [ready.validate, ok_bind, if_neg checked]
  cases t with
  | nil =>
    have empty : rtt.rttRoot = none := rep.root
    simp [empty]
  | node x l r =>
    have top : plug [] (.node x l r) = .node x l r := rfl
    have run := firstRth_at rep ready top
    simp [rep.root_node, rthFrom, run]

/-- From where it was misled the walk goes to the left. -/
theorem misled_found (rep : Represents rtt t) (ready : Ready rtt) (search : Search ap bitlen t fs y l r his d)
    {start : Option NodeId} (misled : Misled bitlen d y l start) {found : Option HeadId}
    (walk : rthFrom rtt start = .ok found) : ∃ e es, entries l = e :: es ∧ some e.2 = found := by
  obtain ⟨_, _, full, rfl⟩ := misled
  cases l with
  | nil => exact absurd rfl full
  | node z zl zr =>
    have same : plug (⟨false, y, r⟩ :: fs) (.node z zl zr) = t := search.same
    have here : rthFrom rtt (some z.1) = _ := firstRth_at rep ready same
    obtain ⟨⟨_, _, left, _⟩, _⟩ := search.parts rep.trie
    obtain ⟨e, es, list⟩ := List.exists_cons_of_ne_nil (left.entries_ne_nil full)
    refine ⟨e, es, list, ?_⟩
    rw [list] at here
    simpa [here] using walk

theorem Search.listed (search : Search ap bitlen t fs y l r his d) {e : Entry HeadId}
    (he : e ∈ entries (.node y l r)) : e ∈ entries t := by
  rw [← search.same, entries_plug, List.mem_append, List.mem_append]
  exact .inl (.inr he)

/-- From the left child of where it was misled the walk finds a smaller prefix. -/
theorem misled_wrong {m : PrefixMap HeadId} (rep : Represents rtt t) (ready : Ready rtt)
    (stored : m.StoredIn t) (search : Search ap bitlen t fs y l r his d) {start : Option NodeId}
    (misled : Misled bitlen d y l start) {found : Option HeadId} (walk : rthFrom rtt start = .ok found) :
    ¬ m.IsNext (ap.bits bitlen) found := by
  obtain ⟨way, _⟩ := misled.way search
  obtain ⟨⟨_, _, left, _⟩, _⟩ := search.parts rep.trie
  obtain ⟨e, es, list, rfl⟩ := misled_found rep ready search misled walk
  have first : e ∈ entries l := by simp [list]
  have listed : e ∈ entries t := search.listed (by simp [first])
  rintro ⟨k, bound, greater, _⟩
  obtain rfl := rep.one_key ((stored k e.2).mp bound) listed
  exact (lt_of_parts (left.key_extends first) way).asymm greater

/-- From a first node after the prefix the walk finds the next head. -/
theorem isNext_from {m : PrefixMap HeadId} (rep : Represents rtt t) (ready : Ready rtt) (stored : m.StoredIn t)
    {start : Option NodeId} (after : FirstAfter q t start) {found : Option HeadId}
    (walk : rthFrom rtt start = .ok found) : m.IsNext q found := by
  cases start with
  | none =>
    obtain rfl : none = found := by simpa [rthFrom] using walk
    intro k v bound
    exact after _ ((stored k v).mp bound)
  | some i =>
    obtain ⟨fs', z, zl, zr, same, rfl, before, inside⟩ := after
    have here : rthFrom rtt (some z.1) = _ := firstRth_at rep ready same
    obtain rfl : (entries (.node z zl zr)).head?.map Prod.snd = found := by simpa [here] using walk
    exact isNext_of_firstAfter rep.trie stored same before inside

/-- **The next head.** `std_radix_getnext` changes nothing, and returns the head of
the next bound prefix unless the prefix is one that it misses. -/
theorem getnext_spec {m : PrefixMap HeadId} (rep : Represents rtt t) (stored : m.StoredIn t)
    (ready : Ready rtt) (raw : rtt.rttConvert = none) (ap : Addr) (valid : bitlen ≤ rtt.rttMaxaddrlen) :
    ∃ found, stdRadixGetnext rtt (some ap) bitlen = .ok (found, rtt) ∧
      ((∀ i, bitlen ≤ i → ap.bit i = false) →
        (m.IsNext (ap.bits bitlen) found ↔ ¬ m.Misses (ap.bits bitlen))) := by
  have checked : ¬ (rtt.rttDebug = true ∧ bitlen > rtt.rttMaxaddrlen) := by omega
  unfold stdRadixGetnext
  simp only [convertKey_none raw, ready.validate, ok_bind, if_neg checked]
  cases t with
  | nil =>
    have empty : rtt.rttRoot = none := rep.root
    refine ⟨none, by simp [empty], fun _ => ?_⟩
    have unbound : ∀ k v, m k ≠ some v := by
      intro k v bound
      simpa using (stored k v).mp bound
    constructor
    · rintro _ ⟨p, bound, _⟩
      obtain ⟨v, hv⟩ := Option.ne_none_iff_exists'.mp bound
      exact unbound p v hv
    · intro _ k v bound
      exact absurd bound (unbound k v)
  | node x xl xr =>
    obtain ⟨fs, y, l, r, h, his, d, start, val, search, run, somewhere, outcome⟩ :=
      nextStart_spec ap rep ready valid
    obtain ⟨found, walk⟩ := rthFrom_somewhere rep ready somewhere
    refine ⟨found, by simp [rep.root_node, run, walk], fun zero => ?_⟩
    rcases outcome with misled | ⟨straight, first⟩
    · have misses := misses_of_misled search rep.trie stored val
        ⟨misled.inside, misled.agree, misled.left, rfl⟩
      refine iff_of_false ?_ (fun hit => hit misses)
      exact misled_wrong rep ready stored search misled walk
    · refine iff_of_true ?_ fun misses => straight (misled_of_misses search rep.trie stored val misses)
      have after : FirstAfter (ap.bits bitlen) (.node x xl xr) start := by
        rcases first with ⟨long, agree, rfl⟩ | ⟨_, after⟩
        · exact firstAfter_self search rep.trie long (by omega) zero
        · exact after
      exact isNext_from rep ready stored after walk

end SonicUtils.Radix
