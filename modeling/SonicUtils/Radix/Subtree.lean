import SonicUtils.Radix.Runs
import SonicUtils.Radix.Traverse

/-!
# The power walk of a subtree

The root of the subtree is the node of the prefix, or else the top of the climb from
the next head, whatever that head is: it is below the prefix if any head is.

* `getnext_below`: what `std_radix_getnext` says about the heads below a prefix;
* `getsubtree_spec`: the root of the subtree;
* `subtree_walk`: the walk lists the heads below the prefix.
-/

namespace SonicUtils.Radix

open PtrTree BitTrie Loop

variable {rtt : Rtt} {t : RtTree} {m : PrefixMap HeadId} {ap : Addr} {bitlen : Nat} {q : List Bool}

/-- The bindings of prefixes that equal or extend `q`. -/
def PrefixMap.below {κ : Type} (m : PrefixMap κ) (q : List Bool) : PrefixMap κ :=
  fun k => if q <+: k then m k else none

/-- `_std_radix_getsubtree`. -/
def stdRadixGetsubtree (rtt : Rtt) (addr : Option Addr) (bitlen : Nat) :
    Except Fault (Option NodeId × Rtt) := do
  if rtt.rttDebug ∧ (bitlen > rtt.rttMaxaddrlen ∨ addr.isNone) then return (none, rtt)
  else if rtt.rttRoot.isNone then return (none, rtt)
  else
    let (rth, rtt) ← stdRadixGetexact rtt addr bitlen
    match rth with
    | some rth => return ((rtt.heads rth).rthRtn, rtt)
    | none =>
      let (rth, rtt) ← stdRadixGetnext rtt addr bitlen
      match rth with
      | none => return (none, rtt)
      | some rth =>
        let (addr, rtt) := rtt.convertKey (← deref addr)
        let his ← rtt.headAddr rth
        if rdxCompareAddress addr his (rnByte bitlen) (rnBit bitlen) then return (none, rtt)
        else
          let rtn ← deref (rtt.heads rth).rthRtn
          let (rtn, _) ← rtt.climbWhile (fun p => p.rtnBit ≥ bitlen) Rtt.pathFuel rtn
          return (some rtn, rtt)

/-- `std_radix_powerwalkstart` and `std_radix_powerwalkend`, with the heads that are
handed to the code between them. -/
def stdRadixPowerwalk (rtt : Rtt) (rootaddr : Option Addr) (rootlen : Nat) (nextaddr : Option Addr)
    (nextlen : Nat) (fuel : Nat) : Except Fault (List HeadId × Rtt) := do
  let (root, rtt) ←
    match rootaddr with
    | some _ => stdRadixGetsubtree rtt rootaddr rootlen
    | none => pure (rtt.rttRoot, rtt)
  let (next, rtt) ←
    match nextaddr with
    | none => pure (root, rtt)
    | some _ => do
      let (rth, rtt) ← stdRadixGetexact rtt nextaddr nextlen
      match rth with
      | some rth => pure ((rtt.heads rth).rthRtn, rtt)
      | none =>
        let (rth, rtt) ← stdRadixGetnext rtt nextaddr nextlen
        pure (rth.bind fun rth => (rtt.heads rth).rthRtn, rtt)
  return (← powerWalk rtt root next fuel, rtt)

/-! ## The next head, with host bits -/

/-- The head is bound below `q`, or nothing is; then it is bound to no prefix of `q` either. -/
inductive BelowOrNone (q : List Bool) (t : RtTree) : Option HeadId → Prop
  | below {e} : e ∈ entries t → q <+: e.1 → BelowOrNone q t (some e.2)
  | apart {e} : e ∈ entries t → ¬ e.1 <+: q → (∀ e ∈ entries t, ¬ q <+: e.1) → BelowOrNone q t (some e.2)
  | out : (∀ e ∈ entries t, ¬ q <+: e.1) → BelowOrNone q t none

/-- The least binding after `q` is below it, if any is. -/
theorem belowOrNone_of_isNext (stored : m.StoredIn t) (absent : m q = none) {found : Option HeadId}
    (next : m.IsNext q found) : BelowOrNone q t found := by
  have after {e : Entry HeadId} (he : e ∈ entries t) (ext : q <+: e.1) : q < e.1 := by
    have bound := (stored e.1 e.2).mpr he
    rcases ext.length_le.eq_or_lt with same | longer
    · rw [ext.eq_of_length same, bound] at absent
      cases absent
    · exact lt_of_longer ext longer
  cases found with
  | none =>
    apply BelowOrNone.out
    intro e he ext
    exact next e.1 e.2 ((stored e.1 e.2).mpr he) (after he ext)
  | some h =>
    obtain ⟨k, bound, greater, least⟩ := next
    have he := (stored k h).mp bound
    by_cases ext : q <+: k
    · exact BelowOrNone.below he ext
    · apply BelowOrNone.apart he
      · exact fun shorter => not_lt_of_extends shorter greater
      · intro e' he' ext'
        have high := least e'.1 e'.2 ((stored e'.1 e'.2).mpr he') (after he' ext')
        exact ext (extends_of_between ext' greater high)

theorem getnext_below (rep : Represents rtt t) (stored : m.StoredIn t) (ready : Ready rtt)
    (raw : rtt.rttConvert = none) (ap : Addr) (valid : bitlen ≤ rtt.rttMaxaddrlen)
    (absent : m (ap.bits bitlen) = none) :
    ∃ found, stdRadixGetnext rtt (some ap) bitlen = .ok (found, rtt) ∧ BelowOrNone (ap.bits bitlen) t found := by
  have checked : ¬ (rtt.rttDebug = true ∧ bitlen > rtt.rttMaxaddrlen) := by omega
  unfold stdRadixGetnext
  simp only [convertKey_none raw, ready.validate, ok_bind, if_neg checked]
  cases t with
  | nil =>
    have empty : rtt.rttRoot = none := rep.root
    exact ⟨none, by simp [empty], .out (by simp)⟩
  | node x xl xr =>
    obtain ⟨fs, y, l, r, h, his, d, start, val, search, run, somewhere, outcome⟩ :=
      nextStart_spec ap rep ready valid
    obtain ⟨found, walk⟩ := rthFrom_somewhere rep ready somewhere
    refine ⟨found, by simp [rep.root_node, run, walk], ?_⟩
    have whole := search.same
    rcases outcome with misled | ⟨_, ahead | ⟨_, after⟩⟩
    · -- what is found goes on with a clear bit where the prefix goes on with a set one
      obtain ⟨way, _⟩ := misled.way search
      obtain ⟨p, _, on, none_set, _⟩ :=
        misses_of_misled search rep.trie stored val ⟨misled.inside, misled.agree, misled.left, rfl⟩
      obtain ⟨e, es, list, rfl⟩ := misled_found rep ready search misled walk
      have left : e ∈ entries l := by simp [list]
      obtain ⟨⟨_, _, below, _⟩, _⟩ := search.parts rep.trie
      have clear := below.key_extends left
      apply BelowOrNone.apart (search.listed (by simp [left]))
      · exact fun shorter => not_both (clear.trans shorter) way
      · intro e' he' ext
        have none := none_set e'.1 (on.trans ext)
        rw [(stored e'.1 e'.2).mpr he'] at none
        cases none
    · obtain ⟨long, agree, rfl⟩ := ahead
      have same : ap.bits bitlen = his.bits bitlen :=
        (bits_eq_iff ap his bitlen).mpr fun i hi => search.agree i (by omega)
      have reach : ap.bits bitlen <+: y.2.stem := same ▸ bits_prefix_of_covers search.key long.le
      have here : rthFrom rtt (some y.1) = _ := firstRth_at rep ready whole
      obtain rfl : some h = found := by
        rw [here] at walk
        simpa [own, val] using walk
      have listed : (y.2.stem, h) ∈ entries (.node x xl xr) := search.listed (by simp [val])
      exact BelowOrNone.below listed reach
    · exact belowOrNone_of_isNext stored absent (isNext_from rep ready stored after walk)

/-! ## The root of the subtree -/

/-- The node is the root of a subtree of what is bound below `q`; without one nothing is. -/
def RootFor (q : List Bool) (t : RtTree) : Option NodeId → Prop
  | none => ∀ e ∈ entries t, ¬ q <+: e.1
  | some i => ∃ fs x l r, plug fs (.node x l r) = t ∧ x.1 = i ∧
      ∀ e ∈ entries t, q <+: e.1 ↔ e ∈ entries (.node x l r)

/-- The hole on the way of `q` in which all nodes extend `q`. -/
theorem rootFor_of {fs : List (Frame (Node NodeId HeadId))} {x : Node NodeId HeadId} {l r : RtTree}
    (trie : Trie [] (plug fs (.node x l r))) (way : stemAbove fs <+: q) (ext : q <+: x.2.stem) :
    RootFor q (plug fs (.node x l r)) (some x.1) := by
  obtain ⟨below, above, _⟩ := trie_plug.mp trie
  refine ⟨fs, x, l, r, rfl, rfl, fun e he => ⟨fun here => ?_, fun inside => ?_⟩⟩
  · exact mem_of_way above (way.trans here) he
  · exact ext.trans (below.root_extends_key inside)

/-- The climb from a node below the prefix ends at the root of its subtree. -/
theorem climb_root {x : Node NodeId HeadId} (rep : Represents rtt t) (ready : Ready rtt) (hx : x ∈ nodes t)
    (ext : ap.bits bitlen <+: x.2.stem) :
    ∃ top, rtt.climbWhile (fun p => p.rtnBit ≥ bitlen) Rtt.pathFuel x.1 = .ok top ∧
      RootFor (ap.bits bitlen) t (some top.1) := by
  obtain ⟨fs, l, r, rfl⟩ := exists_plug hx
  have deep := rep.depth ready
  have short := length_add_height fs (.node x l r)
  obtain ⟨gs, fs', z, zl, zr, rfl, place, run, passed, stop⟩ :=
    climbWhile_spec (fun p => p.rtnBit ≥ bitlen) (fun lab => lab.stem.length ≥ bitlen)
      (fun n k lab h => by simp [h.bit]) Rtt.pathFuel fs x l r rep.linked (by omega)
  have trie := rep.trie
  rw [plug_append, place] at trie ⊢
  refine ⟨(z.1, up fs'), run, ?_⟩
  obtain ⟨below, above, _⟩ := trie_plug.mp trie
  have stem : z.2.stem <+: x.2.stem := by
    apply below.root_extends
    rw [← place]
    exact mem_nodes_plug.mpr (.inl (by simp))
  have long : bitlen ≤ z.2.stem.length := by
    rcases climb_top place with ⟨_, start⟩ | ⟨g, hg, rfl, _⟩
    · obtain ⟨rfl, rfl, rfl⟩ := BinaryTree.node.inj start
      simpa using ext.length_le
    · exact of_decide_eq_true (passed g hg)
  have inside : ap.bits bitlen <+: z.2.stem :=
    List.prefix_of_prefix_length_le ext stem (by simpa using long)
  apply rootFor_of trie ?_ inside
  apply List.prefix_of_prefix_length_le below.1 inside
  cases fs' with
  | nil => simp [stemAbove]
  | cons f fs' =>
    have low := of_decide_eq_false (stop f (by simp))
    simp only [stemAbove, List.length_append, List.length_singleton, length_bits]
    omega

/-- The address of a head agrees with the prefix if the head is below it. -/
theorem agrees_iff {k : List Bool} {his : Addr} (stem : his.bits k.length = k)
    (proper : ap.bits bitlen <+: k ∨ ¬ k <+: ap.bits bitlen) :
    rdxCompareAddress ap his (rnByte bitlen) (rnBit bitlen) = false ↔ ap.bits bitlen <+: k := by
  rw [rdxCompareAddress_eq_false, ← bits_eq_iff]
  have covers : Covers k his.bit := (covers_iff his k).mpr stem
  constructor
  · intro same
    rcases proper with ext | apart
    · exact ext
    · rw [same] at apart ⊢
      rcases Nat.le_total k.length bitlen with short | long
      · exact absurd (bits_prefix_iff.mpr ⟨short, covers⟩) apart
      · exact bits_prefix_of_covers covers long
  · intro ext
    have inside := ext.length_le
    rw [length_bits] at inside
    have mine := bits_prefix_of_covers covers inside
    exact (List.prefix_of_prefix_length_le ext mine (by simp)).eq_of_length (by simp)

/-- **The root of the subtree.** `_std_radix_getsubtree` finds it and changes nothing. -/
theorem getsubtree_spec (rep : Represents rtt t) (stored : m.StoredIn t) (s : Settled rtt) (ap : Addr)
    (valid : bitlen ≤ rtt.rttMaxaddrlen) :
    ∃ res, stdRadixGetsubtree rtt (some ap) bitlen = .ok (res, rtt) ∧ RootFor (ap.bits bitlen) t res := by
  have checked : ¬ (rtt.rttDebug = true ∧ (bitlen > rtt.rttMaxaddrlen ∨ (some ap).isNone = true)) := by
    simp only [Option.isNone_some, Bool.false_eq_true, or_false]
    omega
  unfold stdRadixGetsubtree
  rw [if_neg checked]
  obtain ⟨exact_, run, bound⟩ := getexact_spec rep s ap valid
  cases found : rtt.rttRoot with
  | none =>
    have empty : t = .nil := by
      have root := rep.root
      rw [found] at root
      cases t with
      | nil => rfl
      | node x l r => cases root
    refine ⟨none, by simp, ?_⟩
    simp [RootFor, empty]
  | some top =>
    simp only [Option.isNone_some, Bool.false_eq_true, if_false, run, ok_bind]
    cases exact_ with
    | some rth =>
      have here := (bound rth).mp rfl
      obtain ⟨x, hx, mine⟩ := mem_entries.mp here
      obtain ⟨val, stem⟩ := mem_own.mp mine
      obtain ⟨_, _, att⟩ := rep.linked.holds hx
      refine ⟨some x.1, by simp [(att rth val).1], ?_⟩
      obtain ⟨fs, l, r, rfl⟩ := exists_plug hx
      have way := (trie_plug.mp rep.trie).1.1
      rw [stem] at way
      exact rootFor_of rep.trie way (stem ▸ List.prefix_refl _)
    | none =>
      have absent : m (ap.bits bitlen) = none := by
        apply Option.eq_none_iff_forall_ne_some.mpr
        intro rth here
        cases (bound rth).mpr ((stored _ _).mp here)
      obtain ⟨next, run', below⟩ := getnext_below rep stored s.ready s.convert ap valid absent
      simp only [run', ok_bind, convertKey_none s.convert, deref_some]
      have attached {e : Entry HeadId} (he : e ∈ entries t) :
          ∃ x ∈ nodes t, x.2.stem = e.1 ∧ rtt.Attached e.2 x.1 e.1 := by
        obtain ⟨x, hx, mine⟩ := mem_entries.mp he
        obtain ⟨val, stem⟩ := mem_own.mp mine
        obtain ⟨_, _, att⟩ := rep.linked.holds hx
        exact ⟨x, hx, stem, stem ▸ att e.2 val⟩
      cases below with
      | @below e he ext =>
        obtain ⟨x, hx, stem, home, his, addr, key⟩ := attached he
        have same := (agrees_iff key (.inl ext)).mpr ext
        obtain ⟨up_, climb, root⟩ := climb_root rep s.ready hx (stem ▸ ext)
        refine ⟨some up_.1, ?_, root⟩
        have headAddr : rtt.headAddr e.2 = .ok his := by simp [Rtt.headAddr, addr]
        simp [headAddr, same, home, climb]
      | @apart e he apart none_ =>
        obtain ⟨x, hx, stem, home, his, addr, key⟩ := attached he
        have differ := Bool.eq_true_of_not_eq_false (mt (agrees_iff key (.inr apart)).mp (none_ e he))
        have headAddr : rtt.headAddr e.2 = .ok his := by simp [Rtt.headAddr, addr]
        exact ⟨none, by simp [headAddr, differ], none_⟩
      | out none_ => exact ⟨none, rfl, none_⟩

/-! ## The walk -/

theorem listedBy_below {es : List (Entry HeadId)} (rep : Represents rtt t) (stored : m.StoredIn t)
    (part : es.Sublist (entries t)) (same : ∀ e ∈ entries t, q <+: e.1 ↔ e ∈ es) :
    (m.below q).ListedBy (es.map Prod.snd) := by
  have all := listedBy_entries rep stored
  have order := sorted_entries rep.trie
  refine ⟨all.once.sublist (part.map _), es, rfl, order.sublist part, fun k v => ?_⟩
  rw [PrefixMap.below]
  split
  · rename_i ext
    rw [stored k v]
    exact ⟨fun here => (same _ here).mp ext, fun here => part.subset here⟩
  · rename_i apart
    refine iff_of_false (by simp) fun here => ?_
    exact apart ((same _ (part.subset here)).mpr here)

/-- **The power walk of a subtree** visits the heads of the prefixes that equal or extend the
root, each once, in the order of their prefixes, and stops. -/
theorem subtree_walk (h : Reachable rtt m) (rootaddr : Addr) {rootlen : Nat} (valid : rootlen ≤ rtt.rttMaxaddrlen)
    (nextlen : Nat) :
    ∃ hs, Returns (stdRadixPowerwalk rtt (some rootaddr) rootlen none nextlen) (hs, rtt) ∧
      (m.below (rootaddr.bits rootlen)).ListedBy hs := by
  obtain ⟨s, t, rep, stored⟩ := h.stores
  obtain ⟨res, run, root⟩ := getsubtree_spec rep stored s rootaddr valid
  have start (fuel : Nat) : stdRadixPowerwalk rtt (some rootaddr) rootlen none nextlen fuel =
      (do return (← powerWalk rtt res res fuel, rtt)) := by
    simp only [stdRadixPowerwalk, run, ok_bind, pure_eq_ok]
  cases res with
  | none =>
    refine ⟨[], ⟨0, fun fuel _ => by simp [start, powerWalk]⟩, ?_⟩
    exact listedBy_below rep stored (List.nil_sublist _) fun e he => by simpa using root e he
  | some top =>
    obtain ⟨fs, x, l, r, rfl, rfl, same⟩ := root
    obtain ⟨enough, walk⟩ := powerWalk_at rep s
    refine ⟨_, ⟨enough, fun fuel more => ?_⟩, listedBy_below rep stored ?_ same⟩
    · have done := walk fuel more
      simp only [root_node] at done
      rw [start, done]
      rfl
    · rw [entries_plug]
      exact (List.sublist_append_right _ _).trans (List.sublist_append_left _ _)

theorem subtree_walk_ten :
    ∃ hs, Returns (stdRadixPowerwalk tenTable (some ten) 4 none 0) (hs, tenTable) ∧
      (tenMap.below (ten.bits 4)).ListedBy hs :=
  subtree_walk reachable_ten ten (by decide) 0

end SonicUtils.Radix
