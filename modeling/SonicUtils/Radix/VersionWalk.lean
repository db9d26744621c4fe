import SonicUtils.Radix.Crowd
import SonicUtils.Radix.Sweep

/-!
# The version walk

`std_radix_versionwalk` from NULL leaves out the subtrees of nodes that are too
old. No head below such a node is wanted, so the walk hands out all that are, as
long as there are less than 2³² of them.

* `versionwalk_complete_iff`;
* `versionwalk_stops_short`.
-/

namespace SonicUtils.Radix

open PtrTree BitTrie Loop

variable {rtt : Rtt} {m : PrefixMap HeadId} {t : RtTree} {minVer maxVer : Version}
  {fs : List (Frame (Node NodeId HeadId))} {x : Node NodeId HeadId} {l r : RtTree}

/-! ## The walk and its end -/

theorem Settled.not_removable {i : NodeId} {n : RtNode} (s : Settled rtt) (live : rtt.nodes i = some n) :
    n.removable = false := by
  simp [RtNode.removable, s.not_marked live]

theorem sweeps_version (rep : Represents rtt t) (settled : Settled rtt) (minVer maxVer : Version) :
    Sweeps (versionTurn (some passive) minVer maxVer) rtt t (older rtt minVer)
      (inRange rtt minVer maxVer) where
  skip x hx old := by
    obtain ⟨_, ⟨n, live, _⟩, _⟩ := rep.linked.holds hx
    apply Goes.move
    intro lcnt calls more
    have less : n.rtnVersion < minVer := by simpa [older, live] using old
    simp [versionTurn, node_of live, more, less]
  down fs x l r place young := by
    subst place
    obtain ⟨⟨n, live, holds⟩, _⟩ := holds_at rep.linked
    have enough : ¬ n.rtnVersion < minVer := by simpa [older, live] using young
    cases mine : x.2.val.toList.filter (inRange rtt minVer maxVer) with
    | nil =>
      apply Goes.move
      intro lcnt calls more
      simp [versionTurn, node_of live, more, enough, versionVisit_unwanted holds.rth mine, goDown_eq holds rfl]
    | cons h rest =>
      cases val : x.2.val with
      | none => simp [val] at mine
      | some h' =>
        have wanted : inRange rtt minVer maxVer h' = true := by
          by_contra out
          simp [val, out] at mine
        obtain ⟨rfl, rfl⟩ : h' = h ∧ [] = rest := by simpa [val, wanted] using mine
        have passes : ∀ rtt, passive h' rtt = .ok (0, rtt) := fun _ => rfl
        apply Goes.visit (enter_live rfl)
        intro lcnt calls more
        simp [versionTurn, node_of live, more, enough, versionVisit_passed live (holds.rth.trans val) wanted passes,
          goDown_eq holds rfl]
  right fs x l r place := by
    subst place
    obtain ⟨⟨n, live, holds⟩, _⟩ := holds_at rep.linked
    apply Goes.move
    intro lcnt calls more
    simp [versionTurn, node_of live, more, goRight_eq holds rfl]
  up f fs x l r place := by
    subst place
    obtain ⟨⟨n, live, holds⟩, _⟩ := holds_at rep.linked
    obtain ⟨p, plive, pholds⟩ := holds_above rep.linked
    have parent : n.rtnParent = some f.node.1 := holds.parent
    apply Goes.move
    intro lcnt calls more
    have side := left_iff rep pholds
    cases hs : f.side <;>
      simp [versionTurn, node_of live, more, settled.not_removable live, parent, node_of plive, side, hs]

/-- The loop at the end goes up to the root. -/
theorem versionClimb_spec (rep : Represents rtt (plug fs (.node x l r))) (settled : Settled rtt) :
    Ends .noReturn versionClimbTurn (some x.1, rtt) rtt := by
  obtain ⟨⟨n, live, holds⟩, _⟩ := holds_at rep.linked
  have parent : n.rtnParent = up fs := holds.parent
  induction fs generalizing x l r n with
  | nil =>
    refine .head (t := (none, rtt)) ?_ (.done rfl)
    simp [versionClimbTurn, node_of live, settled.not_removable live, parent]
  | cons f fs ih =>
    obtain ⟨l', r', fill⟩ := exists_fill f (.node x l r)
    have rep' : Represents rtt (plug fs (.node f.node l' r')) := by
      rw [← fill]
      exact rep
    obtain ⟨⟨p, plive, pholds⟩, _⟩ := holds_at rep'.linked
    refine .head (t := (some f.node.1, rtt)) ?_ (ih rep' (holds_at rep'.linked).2 p plive pholds pholds.parent)
    simp [versionClimbTurn, node_of live, settled.not_removable live, parent]

/-- **A version walk from NULL** hands out the wanted heads in preorder, as many as
`lcnt` allows. -/
theorem versionwalk_spec (rep : Represents rtt t) (settled : Settled rtt) (old : Dated rtt t) (cnt : Int32)
    (minVer maxVer : Version) :
    ∃ res, Returns (stdRadixVersionwalk rtt none (some passive) cnt minVer maxVer)
      (res, (((entries t).map Prod.snd).filter (inRange rtt minVer maxVer)).take (walkCount cnt).toNat, rtt) := by
  obtain ⟨wanted, all⟩ : ∃ hs, hs = ((entries t).map Prod.snd).filter (inRange rtt minVer maxVer) := ⟨_, rfl⟩
  rw [← all]
  suffices h : ∃ dir rtn lcnt, (∀ i, rtn = some i → i ∈ ids t) ∧
      Ends .noReturn (versionTurn (some passive) minVer maxVer)
        ⟨walkCount cnt, .walkDown, rtt.rttRoot, rtt, []⟩
        ⟨lcnt, dir, rtn, rtt, wanted.take (walkCount cnt).toNat⟩ by
    obtain ⟨dir, rtn, lcnt, live, enough, run⟩ := h
    cases rtn with
    | none =>
      refine ⟨none, enough, fun fuel more => ?_⟩
      simp only [stdRadixVersionwalk, settled.ready.validate, ok_bind, walkStart, run fuel more, pure_eq_ok]
    | some i =>
      obtain ⟨y, hy, rfl⟩ := List.mem_map.mp (live i rfl)
      obtain ⟨fs, l, r, rfl⟩ := exists_plug hy
      obtain ⟨⟨n, here, _⟩, _⟩ := holds_at rep.linked
      obtain ⟨enough', climb⟩ := versionClimb_spec rep settled
      refine ⟨n.rtnRth, max enough enough', fun fuel more => ?_⟩
      simp only [stdRadixVersionwalk, settled.ready.validate, ok_bind, walkStart,
        run fuel (le_trans (le_max_left ..) more), climb fuel (le_trans (le_max_right ..) more), node_of here,
        pure_eq_ok]
  cases t with
  | nil =>
    have empty : rtt.rttRoot = none := rep.root
    exact ⟨.walkDown, none, walkCount cnt, by simp, by simpa [all] using .done (by rw [empty]; rfl)⟩
  | node x l r =>
    have idle : ∀ y ∈ nodes (.node x l r), older rtt minVer y = true →
        ∀ e ∈ entries (.node x l r), y.2.stem <+: e.1 → inRange rtt minVer maxVer e.2 = false := by
      exact fun y hy cut e he ext => old.idle rep hy cut he ext
    have sweep := (sweeps_version rep settled minVer maxVer).subtree rfl (show plug [] (.node x l r) = _ from rfl)
    rw [swept_eq rep.trie idle, ← all] at sweep
    obtain ⟨through, stop⟩ := sweep _ [] (walkCount_ne_zero cnt)
    rw [rep.root_node]
    by_cases few : (walkCount cnt).toNat ≤ wanted.length
    · obtain ⟨dir, rtn, live, run⟩ := stop few
      refine ⟨dir, rtn, 0, live, run.ends (.done ?_)⟩
      cases rtn with
      | none => rfl
      | some i =>
        obtain ⟨y, hy, rfl⟩ := List.mem_map.mp (live i rfl)
        obtain ⟨_, ⟨n, here, _⟩, _⟩ := rep.linked.holds hy
        simp [versionTurn, node_of here]
    · obtain ⟨lcnt, left, run⟩ := through (by omega)
      have linked : Linked rtt.mem none (plug [] (.node x l r)) := rep.linked
      obtain ⟨⟨n, here, holds⟩, _⟩ := holds_at linked
      have parent : n.rtnParent = none := holds.parent
      have more : lcnt ≠ 0 := by
        rintro rfl
        simp only [UInt64.toNat_zero] at left
        omega
      refine ⟨.walkUp, none, lcnt, by simp, run.ends (.head (t := ⟨lcnt, .walkUp, none, rtt, wanted⟩) ?_ ?_)⟩
      · simp [versionTurn, node_of here, more, settled.not_removable here, parent]
      · rw [List.take_of_length_le (by omega)]
        exact .done rfl

/-! ## Every table -/

/-- The walk visits all heads in the range only if its counter does not end it before. -/
theorem few_of_versionwalk (h : Versioned rtt m) {minVer maxVer : Version} {hs : List HeadId}
    {res : Option HeadId} (listed : (m.filter (inRange rtt minVer maxVer)).ListedBy hs)
    (walk : Returns (stdRadixVersionwalk rtt none (some passive) 0 minVer maxVer) (res, hs, rtt)) :
    {k | m.filter (inRange rtt minVer maxVer) k ≠ none}.ncard < 2 ^ 32 := by
  obtain ⟨settled, t, rep, _, old⟩ := h.stores
  obtain ⟨res', walk'⟩ := versionwalk_spec rep settled old 0 minVer maxVer
  have same := walk.unique walk'
  simp only [Prod.mk.injEq, and_true] at same
  have short := congrArg List.length same.2
  have limit : (walkCount 0).toNat = 2 ^ 32 - 1 := rfl
  rw [List.length_take, limit] at short
  rw [listed.card]
  omega

/-- **The version walk is complete**: it calls the callback on every head in the range,
once and in the order of prefixes, if and only if these are less than 2³². -/
theorem versionwalk_complete_iff (h : Versioned rtt m) (minVer maxVer : Version) :
    (∃ hs res, (m.filter (inRange rtt minVer maxVer)).ListedBy hs ∧
      Returns (stdRadixVersionwalk rtt none (some passive) 0 minVer maxVer) (res, hs, rtt)) ↔
      {k | m.filter (inRange rtt minVer maxVer) k ≠ none}.ncard < 2 ^ 32 := by
  constructor
  · rintro ⟨hs, res, listed, walk⟩
    exact few_of_versionwalk h listed walk
  · intro few
    obtain ⟨settled, t, rep, stored, old⟩ := h.stores
    have listed := (listedBy_entries rep stored).filter (inRange rtt minVer maxVer)
    obtain ⟨res, walk⟩ := versionwalk_spec rep settled old 0 minVer maxVer
    have limit : (walkCount 0).toNat = 2 ^ 32 - 1 := rfl
    rw [listed.card] at few
    rw [limit, List.take_of_length_le (by omega)] at walk
    exact ⟨_, res, listed, walk⟩

theorem versioned_ten : Versioned tenTable tenMap := by
  have alloc : Allocs.Succeed ⟨none, some 0, some 1⟩ emptyTable := ⟨0, 1, rfl, rfl, rfl, rfl, by decide⟩
  have run : stdRadixInsert emptyTable 0 8 ⟨none, some 0, some 1⟩ = .ok (some 0, tenTable) := rfl
  have empty : Versioned emptyTable .empty := .create 32 false _ _ (by decide)
  have zero : emptyTable.heads 0 = .zeroFilled ten := rfl
  exact empty.insert PrefixMap.unused_empty zero (by decide) alloc run

theorem versionwalk_complete_iff_ten :
    (∃ hs res, (tenMap.filter (inRange tenTable 0 5)).ListedBy hs ∧
      Returns (stdRadixVersionwalk tenTable none (some passive) 0 0 5) (res, hs, tenTable)) ↔
      {k | tenMap.filter (inRange tenTable 0 5) k ≠ none}.ncard < 2 ^ 32 :=
  versionwalk_complete_iff versioned_ten 0 5

/-- With 2³² heads in the range the walk ends before the last one. -/
theorem versionwalk_stops_short :
    ¬ ∀ (rtt : Rtt) (m : PrefixMap HeadId) (minVer maxVer : Version), Versioned rtt m → minVer ≤ maxVer →
      ∃ hs res, (m.filter (inRange rtt minVer maxVer)).ListedBy hs ∧
        Returns (stdRadixVersionwalk rtt none (some passive) 0 minVer maxVer) (res, hs, rtt) := by
  intro claim
  obtain ⟨rtt, m, c⟩ := exists_crowd (n := 2 ^ 32) (by decide)
  obtain ⟨hs, res, listed, walk⟩ := claim rtt m 0 0 c.versioned (UInt64.le_refl 0)
  have few := few_of_versionwalk c.versioned listed walk
  have all : m.filter (inRange rtt 0 0) = m := by
    funext k
    cases bound : m k with
    | none => simp [PrefixMap.filter, bound]
    | some h => simp [PrefixMap.filter, bound, inRange, c.old h]
  rw [all] at few
  have many := c.card (by decide)
  omega

end SonicUtils.Radix
