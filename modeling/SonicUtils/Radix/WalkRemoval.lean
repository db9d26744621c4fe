import SonicUtils.Radix.Course

/-!
# Version walks that remove

As long as every removal on the climb sends it where it has to go on, a version
walk whose callback removes heads calls it once for each head in the range, and
the removed heads are gone when it returns.

* `versionwalk_removing`;
* `walk_repeats`: a table where a head is called twice.
-/

namespace SonicUtils.Radix

open PtrTree BitTrie Loop

variable {rtt : Rtt} {m : PrefixMap HeadId} {t : RtTree} {minVer maxVer : Version} {R : HeadId → Bool}
  {x : Node NodeId HeadId} {l r : RtTree}

/-! ## The heads that are left -/

theorem entries_keep : entries (keep x l r) = own x ++ (entries l ++ entries r) := by
  by_cases bare : x.2.val = none
  · have none : own x = [] := by simp [own, bare]
    cases l with
    | nil => simp [keep_left bare, none]
    | node y yl yr => cases r with
      | nil => simp [keep_right bare, none]
      | node z zl zr => rfl
  · rw [keep_headed bare, entries_node]

/-- The heads that are not `p` are left, if there are none such below a node that is cut. -/
theorem entries_spared {cut : Node NodeId HeadId → Bool} {p : HeadId → Bool} {q : List Bool} {s : RtTree}
    (trie : Trie q s)
    (idle : ∀ y ∈ nodes s, cut y = true → ∀ e ∈ entries s, y.2.stem <+: e.1 → p e.2 = false) :
    entries (spared cut (fun y => y.2.val.any p) s) = (entries s).filter fun e => !p e.2 := by
  induction s generalizing q with
  | nil => rfl
  | node y yl yr ihl ihr =>
    cases hc : cut y with
    | true =>
      rw [spared, if_pos hc]
      symm
      apply List.filter_eq_self.mpr
      intro e he
      simp [idle y (by simp) hc e he (trie.root_extends_key he)]
    | false =>
      obtain ⟨_, _, left, right⟩ := trie
      have inl := ihl left fun z hz hc e he => idle z (by simp [hz]) hc e (by simp [he])
      have inr := ihr right fun z hz hc e he => idle z (by simp [hz]) hc e (by simp [he])
      rw [spared, if_neg (by simp [hc]), entries_keep, inl, inr]
      cases val : y.2.val with
      | none => simp [own, val]
      | some h => cases hp : p h <;> simp [own, val, hp, parted]

/-! ## Tables at rest -/

/-- The node has been marked in an earlier walk. -/
def stale (rtt : Rtt) (y : Node NodeId HeadId) : Bool := (rtt.nodes y.1).any RtNode.marked

/-- A table with no walk in progress. A mark may be left on a node that has lost its
head to a walk. -/
structure Resting (rtt : Rtt) (t : RtTree) : Prop where
  rep : Represents rtt t
  free : Lockfree rtt
  magic : rtt.rttMagic = rdxMagic
  bare : ∀ y ∈ nodes t, stale rtt y = true → y.2.val = none
  dated : Dated rtt t

theorem Versioned.resting (h : Versioned rtt m) : ∃ t, Resting rtt t ∧ m.StoredIn t := by
  obtain ⟨settled, t, rep, stored, old⟩ := h.stores
  refine ⟨t, ⟨rep, settled.unlocked.lockfree, settled.magic, fun y _ mark => ?_, old⟩, stored⟩
  exfalso
  unfold stale at mark
  cases live : rtt.nodes y.1 with
  | none => simp [live] at mark
  | some n => simp [live, settled.not_marked live] at mark

/-- **A version walk that removes** is complete if it is on course and there are less
than 2³² - 1 heads in the range: it calls the callback on each of them, once and in
the order of prefixes, and of the heads those that it removed are gone. -/
theorem versionwalk_removing (h : Resting rtt t) (stored : m.StoredIn t) (rmfree : rtt.rttRmfree = true)
    (R : HeadId → Bool) (minVer maxVer : Version)
    (few : {k | m.filter (inRange rtt minVer maxVer) k ≠ none}.ncard < 2 ^ 32 - 1)
    (course : OnCourse (older rtt minVer) (stale rtt) (doomed rtt minVer maxVer R) none t) :
    ∃ hs rtt' t', Returns (stdRadixVersionwalk rtt none (some (removing R)) 0 minVer maxVer) (none, hs, rtt') ∧
      (m.filter (inRange rtt minVer maxVer)).ListedBy hs ∧
      Represents rtt' t' ∧ (m.filter fun h => !(inRange rtt minVer maxVer h && R h)).StoredIn t' := by
  have listed := (listedBy_entries h.rep stored).filter (inRange rtt minVer maxVer)
  rw [listed.card] at few
  have calls : swept (older rtt minVer) (inRange rtt minVer maxVer) t =
      ((entries t).map Prod.snd).filter (inRange rtt minVer maxVer) :=
    swept_eq h.rep.trie fun y hy cut e he ext => h.dated.idle h.rep hy cut he ext
  have left : entries (spared (older rtt minVer) (doomed rtt minVer maxVer R) t) =
      (entries t).filter fun e => !(inRange rtt minVer maxVer e.2 && R e.2) := by
    apply entries_spared h.rep.trie
    intro y hy cut e he ext
    rw [h.dated.idle h.rep hy cut he ext, Bool.false_and]
  have stored' : (m.filter fun h => !(inRange rtt minVer maxVer h && R h)).StoredIn
      (spared (older rtt minVer) (doomed rtt minVer maxVer R) t) := by
    intro k v
    rw [left, List.mem_filter, ← stored, PrefixMap.filter, Option.filter_eq_some_iff]
  rw [← calls] at few listed
  have valid : rtt.validateHandle = .ok () := check_of h.magic
  cases t with
  | nil =>
    have empty : rtt.rttRoot = none := h.rep.root
    refine ⟨[], rtt, .nil, ⟨1, fun fuel more => ?_⟩, listed, h.rep, stored'⟩
    obtain ⟨fuel, rfl⟩ := Nat.exists_eq_add_of_le' more
    simp only [stdRadixVersionwalk, valid, ok_bind, walkStart, empty]
    rfl
  | node x l r =>
    have w : Walking rtt rtt (plug [] (.node x l r)) := ⟨h.rep, h.free, h.magic, rmfree, .refl rtt⟩
    have marks : ∀ y ∈ nodes (.node x l r), Marked rtt y.1 (stale rtt y) :=
      fun y _ n live => by simp [stale, live]
    obtain ⟨rtt', dir, rtn, t', gone, w', _, run⟩ := subtree_spec _ rfl w marks h.bare course
    cases gone with
    | kept f fs' same => cases same
    | spliced f fs' same => cases same
    | root _ _ =>
      obtain ⟨lcnt, _, way⟩ := run (walkCount 0) [] few
      obtain ⟨enough, ends⟩ : Ends .noReturn (versionTurn (some (removing R)) minVer maxVer)
          ⟨walkCount 0, .walkDown, some x.1, rtt, []⟩
          ⟨lcnt, dir, none, rtt', swept (older rtt minVer) (inRange rtt minVer maxVer) (.node x l r)⟩ :=
        way.ends (.done rfl)
      refine ⟨_, rtt', _, ⟨enough, fun fuel more => ?_⟩, listed, w'.rep, stored'⟩
      simp only [stdRadixVersionwalk, valid, ok_bind, walkStart, h.rep.root_node, ends fuel more, pure_eq_ok]

/-! ## A head that is called twice -/

/-- 128.0.0.0 -/
def half : Addr := fun i => if i = 0 then 128 else 0

/-- A table whose heads have the addresses 0.0.0.0, 128.0.0.0 and so on. -/
def freshTable : Rtt :=
  stdRadixCreate 32 true (fun h => .zeroFilled (if h = 0 then fun _ => 0 else half)) fun _ => 0

/-- `freshTable` with the default route, the head 0. -/
def defaultTable : Rtt :=
  match stdRadixInsert freshTable 0 0 ⟨none, some 0, some 1⟩ with
  | .ok (_, rtt) => rtt
  | .error _ => freshTable

/-- `defaultTable` with 128.0.0.0/1, the head 1. -/
def halfTable : Rtt :=
  match stdRadixInsert defaultTable 1 1 ⟨none, some 1, some 2⟩ with
  | .ok (_, rtt) => rtt
  | .error _ => defaultTable

def halfMap : PrefixMap HeadId := (PrefixMap.insert .empty [] 0).insert [true] 1

theorem versioned_default : Versioned defaultTable (PrefixMap.insert .empty [] 0) := by
  have alloc : Allocs.Succeed ⟨none, some 0, some 1⟩ freshTable := ⟨0, 1, rfl, rfl, rfl, rfl, by decide⟩
  have run : stdRadixInsert freshTable 0 0 ⟨none, some 0, some 1⟩ = .ok (some 0, defaultTable) := rfl
  have zero : freshTable.heads 0 = .zeroFilled fun _ => 0 := rfl
  have fresh : Versioned freshTable .empty := .create 32 true _ _ (by decide)
  exact fresh.insert PrefixMap.unused_empty zero (by decide) alloc run

/-- The tree of `defaultTable`. -/
def defaultTree : RtTree := .node (0, ⟨[], some 0⟩) .nil .nil

theorem resting_default : Resting defaultTable defaultTree where
  rep := by
    refine ⟨rfl, ⟨⟨⟨_, rfl, rfl, rfl, rfl, rfl, rfl, rfl⟩, ?_⟩, trivial, trivial⟩, by decide,
      ⟨List.prefix_refl _, by simp, trivial, trivial⟩, by simp [defaultTree]⟩
    rintro h ⟨⟩
    exact ⟨rfl, _, rfl, rfl⟩
  free := versioned_default.stores.1.unlocked.lockfree
  magic := rfl
  bare y hy mark := by
    obtain rfl := List.mem_singleton.mp hy
    have clear : stale defaultTable (0, ⟨[], some 0⟩) = false := rfl
    exact absurd (clear.symm.trans mark) Bool.false_ne_true
  dated := by
    have zero (n : Version) : (defaultTable.heads 0).rthVersion ≤ n := UInt64.zero_le
    refine ⟨fun e he => ?_, fun y _ n _ e he _ => ?_⟩
    · obtain rfl := List.mem_singleton.mp he
      exact zero _
    · obtain rfl := List.mem_singleton.mp he
      exact zero _

theorem versionwalk_removing_default :
    ∃ hs rtt' t', Returns (stdRadixVersionwalk defaultTable none (some (removing fun _ => true)) 0 0 0)
        (none, hs, rtt') ∧
      ((PrefixMap.insert .empty [] 0).filter (inRange defaultTable 0 0)).ListedBy hs ∧
      Represents rtt' t' ∧
      ((PrefixMap.insert .empty [] 0).filter fun h => !(inRange defaultTable 0 0 h && true)).StoredIn t' := by
  have stored : (PrefixMap.insert .empty [] 0).StoredIn defaultTree := by
    intro k v
    rw [PrefixMap.insert_apply]
    simp [defaultTree, own, PrefixMap.empty, eq_comm]
  apply versionwalk_removing resting_default stored rfl (fun _ => true) 0 0
  · have one := (listedBy_entries resting_default.rep stored).filter (inRange defaultTable 0 0)
    rw [one.card]
    exact lt_of_le_of_lt (List.length_filter_le _ _) (by decide)
  · simp [OnCourse, defaultTree, spared]

theorem versioned_half : Versioned halfTable halfMap := by
  have alloc : Allocs.Succeed ⟨none, some 1, some 2⟩ defaultTable := ⟨1, 2, rfl, rfl, rfl, rfl, by decide⟩
  have run : stdRadixInsert defaultTable 1 1 ⟨none, some 1, some 2⟩ = .ok (some 1, halfTable) := rfl
  have zero : defaultTable.heads 1 = .zeroFilled half := rfl
  have unused : (PrefixMap.insert .empty [] 0).Unused 1 := PrefixMap.unused_empty.insert (by decide)
  exact versioned_default.insert unused zero (by decide) alloc run

theorem half_run : ∃ w, loop .noReturn (versionTurn (some (removing fun h => h = 0)) 0 0) 20
    ⟨walkCount 0, .walkDown, halfTable.rttRoot, halfTable, []⟩ = .ok w ∧ w.rtn = none ∧ w.calls = [0, 1, 1] :=
  ⟨_, rfl, rfl, rfl⟩

/-- The callback removes the default route, and is called twice with 128.0.0.0/1. -/
theorem walk_repeats :
    ¬ ∀ (rtt : Rtt) (m : PrefixMap HeadId) (t : RtTree) (R : HeadId → Bool) (minVer maxVer : Version),
      Resting rtt t → m.StoredIn t → rtt.rttRmfree = true →
      ∃ res hs rtt' t', Returns (stdRadixVersionwalk rtt none (some (removing R)) 0 minVer maxVer) (res, hs, rtt') ∧
        (m.filter (inRange rtt minVer maxVer)).ListedBy hs ∧
        Represents rtt' t' ∧ (m.filter fun h => !(inRange rtt minVer maxVer h && R h)).StoredIn t' := by
  intro claim
  obtain ⟨t, resting, stored⟩ := versioned_half.resting
  obtain ⟨res, hs, rtt', t', run, listed, _⟩ := claim halfTable halfMap t (fun h => h = 0) 0 0 resting stored rfl
  obtain ⟨w, walk, top, calls⟩ := half_run
  obtain ⟨enough, ends⟩ := Ends.of_ok walk
  have twice : Returns (stdRadixVersionwalk halfTable none (some (removing fun h => h = 0)) 0 0 0)
      (none, [0, 1, 1], w.rtt) := by
    have valid : halfTable.validateHandle = .ok () := check_of resting.magic
    refine ⟨enough, fun fuel more => ?_⟩
    simp only [stdRadixVersionwalk, valid, ok_bind, walkStart, ends fuel more, top, calls, pure_eq_ok]
  have same : hs = [0, 1, 1] := congrArg (fun r => r.2.1) (run.unique twice)
  have once := listed.once
  rw [same] at once
  exact absurd once (by decide)

end SonicUtils.Radix
