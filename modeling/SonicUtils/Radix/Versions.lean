import SonicUtils.Radix.Runs
import SonicUtils.Radix.Sweep

/-!
# Versions

`std_radix_setversion` dates a head and the nodes above it. Runs of a table that
use it too, as long as its counter does not wrap, keep this: no node is older
than a head below it, be it dated again, split off, moved up or parted from its
own head.

* `setversion_spec`: what the loop changes;
* `Versioned.dated`.
-/

namespace SonicUtils.Radix

open PtrTree BitTrie Loop

/-- A head after `memset`, with its address. -/
def RtHead.zeroFilled (ap : Addr) : RtHead := ⟨none, some ap, 0, none, 0, 0⟩

/-- The runs of `Reachable` in which heads are zero-filled before they are inserted,
and dated as long as the counter does not wrap. -/
inductive Versioned : Rtt → PrefixMap HeadId → Prop
  | create (maxaddrlen : Nat) (rmfree : Bool) (heads : HeadId → RtHead) (junk : Addr) :
      maxaddrlen ≤ 65528 → Versioned (stdRadixCreate maxaddrlen rmfree heads junk) .empty
  | configure {rtt m} (debug radicalused carused : Bool) :
      Versioned rtt m → Versioned (rtt.configure debug radicalused carused) m
  | fill {rtt m} (rth : HeadId) (h : RtHead) :
      Versioned rtt m → m.Unused rth → Versioned (rtt.writeHead rth fun _ => h) m
  | insert {rtt rtt' m rth ap bitlen mem res} :
      Versioned rtt m → m.Unused rth → rtt.heads rth = .zeroFilled ap →
      bitlen ≤ rtt.rttMaxaddrlen → mem.Succeed rtt →
      stdRadixInsert rtt rth bitlen mem = .ok (res, rtt') →
      Versioned rtt' (m.insert (ap.bits bitlen) rth)
  | remove {rtt rtt' m rth k} :
      Versioned rtt m → m k = some rth → stdRadixRemove rtt rth = .ok rtt' →
      Versioned rtt' (m.unbind k)
  | setversion {rtt rtt' m rth k ver} :
      Versioned rtt m → m k = some rth → rtt.rttVersion + 1 ≠ 0 →
      Returns (stdRadixSetversion rtt rth) (ver, rtt') → Versioned rtt' m

/-- No node is older than a head below it, and no head is newer than the table. -/
structure Dated (rtt : Rtt) (t : RtTree) : Prop where
  table : ∀ e ∈ entries t, (rtt.heads e.2).rthVersion ≤ rtt.rttVersion
  node : ∀ y ∈ nodes t, ∀ n, rtt.nodes y.1 = some n →
    ∀ e ∈ entries t, y.2.stem <+: e.1 → (rtt.heads e.2).rthVersion ≤ n.rtnVersion

variable {rtt rtt' : Rtt} {m : PrefixMap HeadId} {t t' : RtTree} {rth : HeadId} {ver : Version}
  {fs : List (Frame (Node NodeId HeadId))} {x : Node NodeId HeadId} {l r : RtTree}

/-! ## `std_radix_setversion` -/

/-- The nodes `is` have the version `ver`. -/
def Rtt.raise (rtt : Rtt) (ver : Version) (is : List NodeId) : Rtt :=
  rtt.mapNodes fun i n => if i ∈ is then { n with rtnVersion := ver } else n

theorem holds_raise (is : List NodeId) (i : NodeId) (n : RtNode) (k : Links NodeId) (lab : Label HeadId)
    (holds : n.Holds k lab) :
    (if i ∈ is then { n with rtnVersion := ver } else n : RtNode).Holds k lab := by
  split
  · exact holds.marks _ _ _
  · exact holds

theorem raise_cons (i : NodeId) (is : List NodeId) :
    (rtt.raise ver [i]).raise ver is = rtt.raise ver (i :: is) := by
  unfold Rtt.raise
  rw [mapNodes_mapNodes]
  congr
  funext j n
  simp only [List.mem_cons]
  by_cases first : j = i <;> by_cases later : j ∈ is <;> simp [first, later]

/-- The loop goes up to the root. -/
theorem raise_spec (rep : Represents rtt (plug fs (.node x l r))) :
    Ends .noReturn (raiseTurn ver) (some x.1, rtt) (rtt.raise ver (x.1 :: fs.map fun f => f.node.1)) := by
  induction fs generalizing rtt x l r with
  | nil =>
    obtain ⟨⟨n, live, holds⟩, _⟩ := holds_at rep.linked
    have parent : n.rtnParent = none := holds.parent
    have raised : rtt.setNode x.1 { n with rtnVersion := ver } = rtt.raise ver [x.1] := by
      simpa [Rtt.raise] using setNode_eq_mapNodes (fun n => { n with rtnVersion := ver }) live
    refine .head (t := (none, rtt.raise ver [x.1])) ?_ (.done rfl)
    simp [raiseTurn, write_of _ live, ← raised, Rtt.node, nodes_setNode, parent]
  | cons f fs ih =>
    obtain ⟨⟨n, live, holds⟩, _⟩ := holds_at rep.linked
    have parent : n.rtnParent = some f.node.1 := holds.parent
    have raised : rtt.setNode x.1 { n with rtnVersion := ver } = rtt.raise ver [x.1] := by
      simpa [Rtt.raise] using setNode_eq_mapNodes (fun n => { n with rtnVersion := ver }) live
    have rep' : Represents (rtt.raise ver [x.1]) (plug (f :: fs) (.node x l r)) :=
      rep.mapNodes (holds_raise [x.1])
    obtain ⟨l', r', fill⟩ := exists_fill f (.node x l r)
    rw [plug_cons, fill] at rep'
    have rest := ih rep'
    rw [raise_cons] at rest
    refine .head (t := (some f.node.1, rtt.raise ver [x.1])) ?_ rest
    simp [raiseTurn, write_of _ live, ← raised, Rtt.node, nodes_setNode, parent]

/-- A head is dated, and the counter goes on. -/
def dated (rtt : Rtt) (rth : HeadId) : Rtt :=
  { rtt with rttVersion := rtt.rttVersion + 1 }.writeHead rth fun h =>
    { h with rthVersion := rtt.rttVersion + 1 }

theorem heads_dated (h : HeadId) : (dated rtt rth).heads h =
    if h = rth then { rtt.heads rth with rthVersion := rtt.rttVersion + 1 } else rtt.heads h :=
  Function.update_apply ..

theorem represents_dated (rep : Represents rtt t) : Represents (dated rtt rth) t := by
  refine ⟨rep.root, rep.linked.mono fun y _ k held => ⟨held.1, fun h val => ?_⟩, rep.distinct, rep.trie,
    rep.bounded⟩
  obtain ⟨place, ap, addr, key⟩ := held.2 h val
  by_cases same : h = rth
  · subst same
    exact ⟨by simpa [heads_dated] using place, ap, by simpa [heads_dated] using addr, key⟩
  · exact ⟨by simpa [heads_dated, same] using place, ap, by simpa [heads_dated, same] using addr, key⟩

/-- The table once `std_radix_setversion` has dated the head of `x`. -/
def stamped (rtt : Rtt) (rth : HeadId) (fs : List (Frame (Node NodeId HeadId)))
    (x : Node NodeId HeadId) : Rtt :=
  (dated rtt rth).raise (rtt.rttVersion + 1) (x.1 :: fs.map fun f => f.node.1)

theorem setversion_spec (rep : Represents rtt (plug fs (.node x l r))) (settled : Settled rtt)
    (val : x.2.val = some rth) (nowrap : rtt.rttVersion + 1 ≠ 0) :
    Returns (stdRadixSetversion rtt rth) (rtt.rttVersion + 1, stamped rtt rth fs x) := by
  obtain ⟨_, att⟩ := holds_at rep.linked
  have place := (att rth val).1
  have start : Represents (dated rtt rth) (plug fs (.node x l r)) := represents_dated rep
  obtain ⟨enough, run⟩ : Ends .noReturn (raiseTurn (rtt.rttVersion + 1)) (some x.1, dated rtt rth)
      (stamped rtt rth fs x) := raise_spec start
  refine ⟨enough, fun fuel more => ?_⟩
  have climb := run fuel more
  unfold dated at climb
  simp only [stdRadixSetversion, settled.ready.validate, ok_bind, place, deref_some, climb, nowrap, if_false,
    pure_eq_ok]

theorem settled_stamped (settled : Settled rtt) : Settled (stamped rtt rth fs x) := by
  refine ⟨settled.magic, settled.convert, settled.fits, fun i n live => ?_, settled.unlisted⟩
  rw [stamped, Rtt.raise, nodes_mapNodes] at live
  obtain ⟨old, hold, rfl⟩ := Option.map_eq_some_iff.mp live
  have calm := settled.unlocked i old hold
  split <;> exact calm

/-! ## What the steps keep -/

/-- The heads elsewhere keep their versions, and that of `rth` may be cleared. -/
theorem Dated.of_footprint {S : Set NodeId} {H : Set HeadId} (h : Dated rtt t)
    (same : Footprint RtNode.rtnVersion S H rtt rtt') (apart : ∀ e ∈ entries t, e.2 ∉ H)
    (new : ∀ e ∈ entries t', e ∈ entries t ∨ (rtt'.heads e.2).rthVersion = 0)
    (places : ∀ y ∈ nodes t', (∀ e ∈ entries t, ¬ y.2.stem <+: e.1) ∨
      ∃ z ∈ nodes t, (∀ e ∈ entries t, y.2.stem <+: e.1 → z.2.stem <+: e.1) ∧
        ∀ n', rtt'.nodes y.1 = some n' → ∃ n, rtt.nodes z.1 = some n ∧ n'.rtnVersion = n.rtnVersion) :
    Dated rtt' t' := by
  have kept (e : Entry HeadId) (he : e ∈ entries t) :
      (rtt'.heads e.2).rthVersion = (rtt.heads e.2).rthVersion := by
    rcases same.heads e.2 with eq | ⟨mine, _⟩
    · exact eq
    · exact absurd mine (apart e he)
  constructor
  · intro e he
    rcases new e he with old | zero
    · rw [kept e old, same.version]
      exact h.table e old
    · rw [zero]
      exact UInt64.zero_le
  · intro y hy n' live' e he ext
    rcases new e he with old | zero
    · rcases places y hy with none | ⟨z, hz, above, version⟩
      · exact absurd ext (none e old)
      · obtain ⟨n, live, eq⟩ := version n' live'
        rw [kept e old, eq]
        exact h.node z hz n live e old (above e old ext)
    · rw [zero]
      exact UInt64.zero_le

theorem Dated.fill (h : Dated rtt t) (loose : Loose rth t) (f : RtHead → RtHead) :
    Dated (rtt.writeHead rth f) t := by
  have other (e : Entry HeadId) (he : e ∈ entries t) : (rtt.writeHead rth f).heads e.2 = rtt.heads e.2 := by
    rw [heads_writeHead, if_neg]
    rintro rfl
    exact loose_iff.mp loose e.1 he
  constructor
  · intro e he
    rw [other e he]
    exact h.table e he
  · intro y hy n live e he ext
    rw [other e he]
    exact h.node y hy n live e he ext

theorem Dated.remove (h : Dated rtt t) {e₀ : Entry HeadId} (removed : Removed rtt rtt' t t' e₀)
    (same : Footprint RtNode.rtnVersion ∅ ∅ rtt rtt') : Dated rtt' t' := by
  apply h.of_footprint same
  · intro e _ none
    exact none
  · intro e he
    exact .inl ((removed.bound e).mp he).1
  · intro y hy
    obtain ⟨z, hz, place, stem⟩ := removed.places y hy
    refine .inr ⟨z, hz, fun e _ ext => stem ▸ ext, fun n' live' => ?_⟩
    rcases same.nodes y.1 n' live' with none | ⟨n, live, eq⟩
    · exact none.elim
    · exact ⟨n, place ▸ live, eq⟩

/-- The nodes that `rtt_malloc` gives. -/
def Allocs.nodes (mem : Allocs) : Set NodeId := {i | mem.add = some i ∨ mem.new = some i}

theorem Dated.insert (h : Dated rtt t) (rep : Represents rtt t) (loose : Loose rth t) {mem : Allocs}
    (alloc : mem.Succeed rtt) (zero : (rtt.heads rth).rthVersion = 0)
    (same : Footprint RtNode.rtnVersion mem.nodes {rth} rtt rtt')
    (bound : ∀ e ∈ entries t', e.2 = rth ∨ e ∈ entries t) (covered : Covered rtt rtt' t t') :
    Dated rtt' t' := by
  have cleared : (rtt'.heads rth).rthVersion = 0 := by
    rcases same.heads rth with eq | ⟨_, eq⟩
    · rw [eq, zero]
    · exact eq
  apply h.of_footprint same
  · rintro e he rfl
    exact loose_iff.mp loose e.1 he
  · intro e he
    rcases bound e he with mine | old
    · exact .inr (mine ▸ cleared)
    · exact .inl old
  · intro y hy
    rcases covered y hy with old | none | ⟨z, hz, above, n, n', live, live', eq⟩
    · refine .inr ⟨y, old, fun _ _ ext => ext, fun n' live' => ?_⟩
      rcases same.nodes y.1 n' live' with new | kept
      · obtain ⟨add, top, hadd, htop, fresh⟩ := alloc
        have free : rtt.nodes y.1 = none := by
          rcases new with given | given
          · obtain rfl := Option.some.inj (hadd.symm.trans given)
            exact fresh.freeAdd
          · obtain rfl := Option.some.inj (htop.symm.trans given)
            exact fresh.freeNew
        exact absurd (mem_ids old) (rep.fresh free)
      · exact kept
    · exact .inl none
    · refine .inr ⟨z, hz, above, fun n'' live'' => ⟨n, live, ?_⟩⟩
      obtain rfl := Option.some.inj (live'.symm.trans live'')
      exact eq

theorem Dated.setversion (h : Dated rtt (plug fs (.node x l r))) (rep : Represents rtt (plug fs (.node x l r)))
    (val : x.2.val = some rth) (nowrap : rtt.rttVersion + 1 ≠ 0) :
    Dated (stamped rtt rth fs x) (plug fs (.node x l r)) := by
  have later : rtt.rttVersion ≤ rtt.rttVersion + 1 := by
    have small := rtt.rttVersion.toNat_lt
    have one : (rtt.rttVersion + 1).toNat = (rtt.rttVersion.toNat + 1) % 2 ^ 64 := UInt64.toNat_add ..
    have positive : (rtt.rttVersion + 1).toNat ≠ 0 := fun zero => nowrap (UInt64.toNat_inj.mp zero)
    rw [UInt64.le_iff_toNat_le]
    omega
  have heads (e : Entry HeadId) : ((stamped rtt rth fs x).heads e.2).rthVersion =
      if e.2 = rth then rtt.rttVersion + 1 else (rtt.heads e.2).rthVersion := by
    have read : (stamped rtt rth fs x).heads e.2 = (dated rtt rth).heads e.2 := rfl
    rw [read, heads_dated]
    split <;> rfl
  have mine : (x.2.stem, rth) ∈ entries (plug fs (.node x l r)) :=
    mem_entries.mpr ⟨x, mem_nodes_plug.mpr (.inl (by simp)), mem_own.mpr ⟨val, rfl⟩⟩
  have newest (e : Entry HeadId) (he : e ∈ entries (plug fs (.node x l r))) :
      ((stamped rtt rth fs x).heads e.2).rthVersion ≤ rtt.rttVersion + 1 := by
    rw [heads]
    split
    · exact UInt64.le_refl _
    · exact UInt64.le_trans (h.table e he) later
  refine ⟨newest, fun y hy n live e he ext => ?_⟩
  rw [stamped, Rtt.raise, nodes_mapNodes] at live
  obtain ⟨old, hold, rfl⟩ := Option.map_eq_some_iff.mp live
  split
  · exact newest e he
  · rename_i off
    rw [heads]
    split
    · rename_i own
      -- the nodes above the head are on the way to it
      exfalso
      have key : e.1 = x.2.stem := rep.one_key (own ▸ he) mine
      rcases on_way rep.trie hy (key ▸ ext) with rfl | ⟨f, hf, rfl⟩
      · exact off (List.mem_cons_self ..)
      · exact off (List.mem_cons_of_mem _ (List.mem_map_of_mem hf))
    · exact h.node y hy old hold e he ext

/-- No head below a node that is too old is in the range. -/
theorem Dated.idle (h : Dated rtt t) (rep : Represents rtt t) {minVer maxVer : Version}
    {y : Node NodeId HeadId} (hy : y ∈ nodes t) (cut : older rtt minVer y = true) {e : Entry HeadId}
    (he : e ∈ entries t) (ext : y.2.stem <+: e.1) : inRange rtt minVer maxVer e.2 = false := by
  obtain ⟨_, ⟨n, live, _⟩, _⟩ := rep.linked.holds hy
  have less : n.rtnVersion < minVer := by simpa [older, live] using cut
  have bound := h.node y hy n live e he ext
  apply decide_eq_false
  rintro ⟨enough, _⟩
  exact absurd (UInt64.le_trans enough bound) (UInt64.not_le.mpr less)

/-! ## Every run -/

/-- **Every table stores its map** in a trie in which no node is older than a head
below it. -/
theorem Versioned.stores (h : Versioned rtt m) :
    Settled rtt ∧ ∃ t, Represents rtt t ∧ m.StoredIn t ∧ Dated rtt t := by
  induction h with
  | create maxaddrlen rmfree heads junk fits =>
    obtain ⟨settled, t, rep, stored⟩ := stores_create rmfree heads junk fits
    have empty (e : Entry HeadId) (he : e ∈ entries t) : False := by
      have bound := (stored e.1 e.2).mpr he
      cases bound
    exact ⟨settled, t, rep, stored, fun e he => (empty e he).elim, fun _ _ _ _ e he => (empty e he).elim⟩
  | configure debug radicalused carused _ ih =>
    obtain ⟨settled, t, rep, stored, old⟩ := ih
    exact ⟨settled.configure .., t, represents_configure rep .., stored, old.table, old.node⟩
  | fill rth h _ unused ih =>
    obtain ⟨settled, t, rep, stored, old⟩ := ih
    have loose := loose_iff.mpr (stored.unused_iff.mp unused)
    exact ⟨settled.fill rth _, t, represents_fill rep loose _, stored, old.fill loose _⟩
  | insert _ unused addr valid alloc run ih =>
    obtain ⟨settled, t, rep, stored, old⟩ := ih
    have loose := loose_iff.mpr (stored.unused_iff.mp unused)
    have zero := congrArg RtHead.rthVersion addr
    have addr' := congrArg RtHead.rthAddr addr
    obtain ⟨res, rtt', run', settled', _, _, result⟩ := insert_spec rep settled loose addr' valid alloc
    rw [run'] at run
    cases run
    have same := (footprint_insert linkless_version (fun _ => rfl) (fun i given => given)
      (Set.mem_singleton _)).of_ok _ run'
    cases result with
    | present h bound rep' =>
      refine ⟨settled', t, rep', stored.keep bound, ?_⟩
      exact old.insert rep loose alloc zero same (fun e he => .inr he) fun y hy => .inl hy
    | added t' free rep' bound covered =>
      refine ⟨settled', t', rep', stored.insert free bound, ?_⟩
      exact old.insert rep loose alloc zero same (fun e he => ((bound e).mp he).imp_left (congrArg Prod.snd)) covered
  | remove _ bound run ih =>
    obtain ⟨settled, t, rep, stored, old⟩ := ih
    have here := (stored _ _).mp bound
    obtain ⟨rtt', t', run', settled', removed⟩ := remove_spec rep settled here
    rw [run'] at run
    cases run
    refine ⟨settled', t', removed.rep, stored.unbind rep.trie here removed.bound, old.remove removed ?_⟩
    exact (footprint_remove linkless_version fun _ => rfl).of_ok _ run'
  | setversion _ bound nowrap run ih =>
    obtain ⟨settled, t, rep, stored, old⟩ := ih
    obtain ⟨x, hx, own⟩ := mem_entries.mp ((stored _ _).mp bound)
    obtain ⟨val, _⟩ := mem_own.mp own
    obtain ⟨fs, l, r, rfl⟩ := exists_plug hx
    cases run.unique (setversion_spec rep settled val nowrap)
    refine ⟨settled_stamped settled, _, ?_, stored, old.setversion rep val nowrap⟩
    exact (represents_dated rep).mapNodes (holds_raise _)

end SonicUtils.Radix
