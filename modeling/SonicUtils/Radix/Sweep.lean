import SonicUtils.Radix.Memory
import SonicUtils.Radix.Traverse

/-!
# Sweeps over a subtree

The loops of `std_radix_walk` and `std_radix_versionwalk` go through the tree in
the same way, as long as the table does not change. `Sweeps` says how one turn
goes; a walk may leave out the subtrees of nodes that are `pruned`, and hands
out the heads that are `wanted`.

* `Goes`: from one place to another, unless `lcnt` runs out on the way;
* `Sweeps.subtree`: from the top of a subtree back to it.
-/

namespace SonicUtils.Radix

open PtrTree BitTrie Loop

variable {ρ : Type} {turn : Walk → Except Fault (Walk ⊕ ρ)} {rtt : Rtt} {t : RtTree}
  {pruned : Node NodeId HeadId → Bool} {wanted : HeadId → Bool}

/-- Where a walk is: `dir` and `rtn`. -/
abbrev Place := WalkDir × Option NodeId

/-- The walk goes from `p` to `q` and hands out `hs` on the way; if `lcnt` is not
enough for that, it hands out as many as it allows and gets no further. -/
def Goes (turn : Walk → Except Fault (Walk ⊕ ρ)) (rtt : Rtt) (t : RtTree) (p q : Place)
    (hs : List HeadId) : Prop :=
  ∀ lcnt calls, lcnt ≠ 0 →
    (hs.length < lcnt.toNat → ∃ lcnt', lcnt'.toNat = lcnt.toNat - hs.length ∧
      Leads turn ⟨lcnt, p.1, p.2, rtt, calls⟩ ⟨lcnt', q.1, q.2, rtt, calls ++ hs⟩) ∧
    (lcnt.toNat ≤ hs.length → ∃ dir rtn, (∀ i, rtn = some i → i ∈ ids t) ∧
      Leads turn ⟨lcnt, p.1, p.2, rtt, calls⟩ ⟨0, dir, rtn, rtt, calls ++ hs.take lcnt.toNat⟩)

theorem Goes.refl (p : Place) : Goes turn rtt t p p [] := by
  intro lcnt calls more
  constructor
  · exact fun _ => ⟨lcnt, rfl, by simpa using Leads.refl _⟩
  · intro few
    exact absurd (UInt64.toNat_inj.mp (Nat.le_zero.mp few)) more

theorem Goes.trans {p q r : Place} {hs hs' : List HeadId} (first : Goes turn rtt t p q hs)
    (rest : Goes turn rtt t q r hs') : Goes turn rtt t p r (hs ++ hs') := by
  intro lcnt calls more
  obtain ⟨through, stop⟩ := first lcnt calls more
  by_cases few : lcnt.toNat ≤ hs.length
  · obtain ⟨dir, rtn, live, run⟩ := stop few
    refine ⟨fun many => ?_, fun _ => ⟨dir, rtn, live, ?_⟩⟩
    · rw [List.length_append] at many
      omega
    · rwa [List.take_append_of_le_length few]
  · obtain ⟨lcnt', left, run⟩ := through (by omega)
    have more' : lcnt' ≠ 0 := by
      rintro rfl
      simp at left
      omega
    have long : hs.length ≤ lcnt.toNat := by omega
    constructor
    · intro many
      rw [List.length_append] at many
      have many' : hs'.length < lcnt'.toNat := by omega
      obtain ⟨lcnt'', left', run'⟩ := (rest lcnt' (calls ++ hs) more').1 many'
      have total : lcnt''.toNat = lcnt.toNat - (hs ++ hs').length := by
        rw [left', left, List.length_append, Nat.sub_sub]
      refine ⟨lcnt'', total, ?_⟩
      rw [← List.append_assoc]
      exact run.trans run'
    · intro many
      rw [List.length_append] at many
      have many' : lcnt'.toNat ≤ hs'.length := by omega
      obtain ⟨dir, rtn, live, run'⟩ := (rest lcnt' (calls ++ hs) more').2 many'
      refine ⟨dir, rtn, live, ?_⟩
      rw [List.take_append, List.take_of_length_le long, ← left, ← List.append_assoc]
      exact run.trans run'

/-- A turn that hands out nothing. -/
theorem Goes.move {p q : Place}
    (h : ∀ lcnt calls, lcnt ≠ 0 →
      turn ⟨lcnt, p.1, p.2, rtt, calls⟩ = .ok (.inl ⟨lcnt, q.1, q.2, rtt, calls⟩)) :
    Goes turn rtt t p q [] := by
  intro lcnt calls more
  constructor
  · exact fun _ => ⟨lcnt, rfl, by simpa using Leads.single (h lcnt calls more)⟩
  · intro few
    exact absurd (UInt64.toNat_inj.mp (Nat.le_zero.mp few)) more

theorem toNat_pos {lcnt : UInt64} (more : lcnt ≠ 0) : 1 ≤ lcnt.toNat :=
  UInt64.lt_iff_toNat_lt.mp (UInt64.pos_iff_ne_zero.mpr more)

theorem toNat_pred {lcnt : UInt64} (more : lcnt ≠ 0) : (lcnt - 1).toNat = lcnt.toNat - 1 :=
  UInt64.toNat_sub_of_le _ _ (UInt64.le_iff_toNat_le.mpr (toNat_pos more))

/-- A turn that hands out a head. -/
theorem Goes.visit {p q : Place} {h : HeadId} (live : ∀ {i}, q.2 = some i → i ∈ ids t)
    (run : ∀ lcnt calls, lcnt ≠ 0 →
      turn ⟨lcnt, p.1, p.2, rtt, calls⟩ = .ok (.inl ⟨lcnt - 1, q.1, q.2, rtt, calls ++ [h]⟩)) :
    Goes turn rtt t p q [h] := by
  intro lcnt calls more
  have positive := toNat_pos more
  have left := toNat_pred more
  constructor
  · exact fun _ => ⟨lcnt - 1, by simpa using left, .single (run lcnt calls more)⟩
  · intro few
    have last : lcnt - 1 = 0 := by
      apply UInt64.toNat_inj.mp
      simp only [List.length_singleton] at few
      rw [left, UInt64.toNat_zero]
      omega
    have all : [h].take lcnt.toNat = [h] := List.take_of_length_le (by simpa using positive)
    refine ⟨q.1, q.2, fun _ => live, ?_⟩
    rw [all, ← last]
    exact .single (run lcnt calls more)

/-! ## Subtrees -/

/-- The place where a subtree is entered, or the one to go on from without it. -/
def enter (s : RtTree) (otherwise : Place) : Place :=
  match root s with
  | none => otherwise
  | some i => (.walkDown, some i)

structure Sweeps (turn : Walk → Except Fault (Walk ⊕ ρ)) (rtt : Rtt) (t : RtTree)
    (pruned : Node NodeId HeadId → Bool) (wanted : HeadId → Bool) : Prop where
  skip : ∀ x ∈ nodes t, pruned x = true →
    Goes turn rtt t (.walkDown, some x.1) (.walkUp, some x.1) []
  down : ∀ fs x l r, plug fs (.node x l r) = t → pruned x = false →
    Goes turn rtt t (.walkDown, some x.1) (enter l (.walkRight, some x.1)) (x.2.val.toList.filter wanted)
  right : ∀ fs x l r, plug fs (.node x l r) = t →
    Goes turn rtt t (.walkRight, some x.1) (enter r (.walkUp, some x.1)) []
  up : ∀ f fs x l r, plug (f :: fs) (.node x l r) = t →
    Goes turn rtt t (.walkUp, some x.1) (if f.side then .walkUp else .walkRight, some f.node.1) []

/-- The heads that a walk hands out in a subtree. -/
def swept (pruned : Node NodeId HeadId → Bool) (wanted : HeadId → Bool) : RtTree → List HeadId
  | .nil => []
  | .node x l r =>
    if pruned x then []
    else x.2.val.toList.filter wanted ++ (swept pruned wanted l ++ swept pruned wanted r)

/-- **A subtree.** The walk comes back to the top of the subtree. -/
theorem Sweeps.subtree (sweeps : Sweeps turn rtt t pruned wanted) {s : RtTree}
    {fs : List (Frame (Node NodeId HeadId))} {x : Node NodeId HeadId} {l r : RtTree}
    (top : s = .node x l r) (place : plug fs s = t) :
    Goes turn rtt t (.walkDown, some x.1) (.walkUp, some x.1) (swept pruned wanted s) := by
  induction s generalizing fs x l r with
  | nil => cases top
  | node y yl yr ihl ihr =>
    obtain ⟨rfl, rfl, rfl⟩ := BinaryTree.node.inj top
    cases cut : pruned y with
    | true =>
      have hy : y ∈ nodes t := by
        rw [← place]
        exact mem_nodes_plug.mpr (.inl (by simp))
      simpa [swept, cut] using sweeps.skip y hy cut
    | false =>
      have down := sweeps.down fs y yl yr place cut
      have left : Goes turn rtt t (enter yl (.walkRight, some y.1)) (.walkRight, some y.1)
          (swept pruned wanted yl) := by
        cases yl with
        | nil => exact .refl _
        | node z zl zr =>
          have inside := @ihl (⟨false, y, yr⟩ :: fs) z zl zr rfl place
          have back := sweeps.up ⟨false, y, yr⟩ fs z zl zr place
          simpa [enter] using inside.trans back
      have right : Goes turn rtt t (enter yr (.walkUp, some y.1)) (.walkUp, some y.1)
          (swept pruned wanted yr) := by
        cases yr with
        | nil => exact .refl _
        | node z zl zr =>
          have inside := @ihr (⟨true, y, yl⟩ :: fs) z zl zr rfl place
          have back := sweeps.up ⟨true, y, yl⟩ fs z zl zr place
          simpa [enter] using inside.trans back
      have sweep := (down.trans left).trans ((sweeps.right fs y yl yr place).trans right)
      simpa [swept, cut] using sweep

/-- If nothing wanted is below a pruned node, all wanted heads are handed out. -/
theorem swept_eq {stem : List Bool} {s : RtTree} (trie : Trie stem s)
    (idle : ∀ x ∈ nodes s, pruned x = true → ∀ e ∈ entries s, x.2.stem <+: e.1 → wanted e.2 = false) :
    swept pruned wanted s = ((entries s).map Prod.snd).filter wanted := by
  induction s generalizing stem with
  | nil => rfl
  | node x l r ihl ihr =>
    have mine : (own x).map Prod.snd = x.2.val.toList := by cases hv : x.2.val <;> simp [own, hv]
    cases cut : pruned x with
    | true =>
      have none : ∀ h ∈ (entries (.node x l r)).map Prod.snd, ¬ wanted h = true := by
        intro h mem
        obtain ⟨e, he, rfl⟩ := List.mem_map.mp mem
        simp [idle x (by simp) cut e he (trie.root_extends_key he)]
      rw [swept, if_pos cut]
      exact (List.filter_eq_nil_iff.mpr none).symm
    | false =>
      obtain ⟨_, _, left, right⟩ := trie
      have inl := ihl left fun y hy cut e he => idle y (by simp [hy]) cut e (by simp [he])
      have inr := ihr right fun y hy cut e he => idle y (by simp [hy]) cut e (by simp [he])
      simp [swept, cut, inl, inr, mine]

/-! ## `std_radix_walk` -/

/-- A callback that returns 0 and leaves the table alone. -/
def passive : WalkFn := fun _ rtt => .ok (0, rtt)

variable {fs : List (Frame (Node NodeId HeadId))} {x : Node NodeId HeadId} {l r : RtTree}

/-- Where `RDX_WALKDOWN` and `RDX_WALKRIGHT` lead. -/
theorem goDown_eq {n : RtNode} {k : Links NodeId} {lab : Label HeadId} (holds : n.Holds k lab)
    (left : k.left = root l) (lcnt : UInt64) (i : NodeId) (calls : List HeadId) :
    Walk.goDown ⟨lcnt, .walkDown, some i, rtt, calls⟩ n =
      ⟨lcnt, (enter l (.walkRight, some i)).1, (enter l (.walkRight, some i)).2, rtt, calls⟩ := by
  rw [Walk.goDown, holds.left, left, enter]
  cases l <;> rfl

theorem goRight_eq {n : RtNode} {k : Links NodeId} {lab : Label HeadId} (holds : n.Holds k lab)
    (right : k.right = root r) (lcnt : UInt64) (i : NodeId) (calls : List HeadId) :
    Walk.goRight ⟨lcnt, .walkRight, some i, rtt, calls⟩ n =
      ⟨lcnt, (enter r (.walkUp, some i)).1, (enter r (.walkUp, some i)).2, rtt, calls⟩ := by
  rw [Walk.goRight, holds.right, right, enter]
  cases r <;> rfl

theorem enter_live (place : plug fs (.node x l r) = t) {i : NodeId}
    (here : (enter l (.walkRight, some x.1)).2 = some i) : i ∈ ids t := by
  subst place
  apply (ids_plug fs (.node x l r)).mem_iff.mpr
  cases l with
  | nil =>
    obtain rfl : x.1 = i := Option.some.inj here
    simp [ids]
  | node y yl yr =>
    obtain rfl : y.1 = i := Option.some.inj here
    simp [ids]

section Turns

variable (rep : Represents rtt (plug fs (.node x l r))) {lcnt : UInt64} (more : lcnt ≠ 0) (calls : List HeadId)
include rep more

theorem walk_down (bare : x.2.val = none) :
    walkTurn (some passive) ⟨lcnt, .walkDown, some x.1, rtt, calls⟩ =
      .ok (.inl ⟨lcnt, (enter l (.walkRight, some x.1)).1, (enter l (.walkRight, some x.1)).2, rtt, calls⟩) := by
  obtain ⟨⟨n, live, holds⟩, _⟩ := holds_at rep.linked
  simp [walkTurn, node_of live, more, holds.rth, bare, goDown_eq holds rfl]

theorem walk_visit {h : HeadId} (head : x.2.val = some h) :
    walkTurn (some passive) ⟨lcnt, .walkDown, some x.1, rtt, calls⟩ =
      .ok (.inl ⟨lcnt - 1, (enter l (.walkRight, some x.1)).1, (enter l (.walkRight, some x.1)).2, rtt,
        calls ++ [h]⟩) := by
  obtain ⟨⟨n, live, holds⟩, _⟩ := holds_at rep.linked
  simp [walkTurn, node_of live, more, holds.rth, head, Walk.userCallback, Walk.call, passive, goDown_eq holds rfl]

theorem walk_right :
    walkTurn (some passive) ⟨lcnt, .walkRight, some x.1, rtt, calls⟩ =
      .ok (.inl ⟨lcnt, (enter r (.walkUp, some x.1)).1, (enter r (.walkUp, some x.1)).2, rtt, calls⟩) := by
  obtain ⟨⟨n, live, holds⟩, _⟩ := holds_at rep.linked
  simp [walkTurn, node_of live, more, goRight_eq holds rfl]

end Turns

theorem walk_up {f : Frame (Node NodeId HeadId)} (rep : Represents rtt (plug (f :: fs) (.node x l r))) {lcnt : UInt64}
    (more : lcnt ≠ 0) (calls : List HeadId) :
    walkTurn (some passive) ⟨lcnt, .walkUp, some x.1, rtt, calls⟩ =
      .ok (.inl ⟨lcnt, if f.side then .walkUp else .walkRight, some f.node.1, rtt, calls⟩) := by
  obtain ⟨⟨n, live, holds⟩, _⟩ := holds_at rep.linked
  obtain ⟨p, plive, pholds⟩ := holds_above rep.linked
  have parent : n.rtnParent = some f.node.1 := holds.parent
  have side := left_iff rep pholds
  cases hs : f.side <;> simp [walkTurn, node_of live, more, parent, node_of plive, side, hs]

theorem sweeps_walk (rep : Represents rtt t) :
    Sweeps (walkTurn (some passive)) rtt t (fun _ => false) (fun _ => true) where
  skip _ _ cut := nomatch cut
  down fs x l r place _ := by
    subst place
    cases val : x.2.val with
    | none => exact .move fun _ calls more => walk_down rep more calls val
    | some h => exact .visit (enter_live rfl) fun _ calls more => walk_visit rep more calls val
  right fs x l r place := by
    subst place
    exact .move fun _ calls more => walk_right rep more calls
  up f fs x l r place := by
    subst place
    exact .move fun _ calls more => walk_up rep more calls

/-- **A walk from NULL** hands out the heads in preorder, as many as `lcnt` allows. -/
theorem walk_spec (rep : Represents rtt t) (settled : Settled rtt) (cnt : Int32) :
    ∃ res, Returns (stdRadixWalk rtt none (some passive) cnt)
      (res, ((entries t).map Prod.snd).take (walkCount cnt).toNat, rtt) := by
  suffices h : ∃ res w, w.calls = ((entries t).map Prod.snd).take (walkCount cnt).toNat ∧ w.rtt = rtt ∧
      Ends .noReturn (walkTurn (some passive)) ⟨walkCount cnt, .walkDown, rtt.rttRoot, rtt, []⟩ (res, w) by
    obtain ⟨res, w, calls, same, enough, run⟩ := h
    refine ⟨res, enough, fun fuel more => ?_⟩
    simp only [stdRadixWalk, settled.ready.validate, ok_bind, walkStart, run fuel more, calls, same, pure_eq_ok]
  cases t with
  | nil =>
    have empty : rtt.rttRoot = none := rep.root
    exact ⟨none, ⟨walkCount cnt, .walkDown, none, rtt, []⟩, by simp, rfl, .done (by rw [empty]; rfl)⟩
  | node x l r =>
    have whole : swept (fun _ => false) (fun _ => true) (.node x l r) =
        (entries (.node x l r)).map Prod.snd := by
      rw [swept_eq rep.trie (by simp)]
      simp
    have sweep := (sweeps_walk rep).subtree rfl (show plug [] (.node x l r) = _ from rfl)
    rw [whole] at sweep
    obtain ⟨through, stop⟩ := sweep _ [] (walkCount_ne_zero cnt)
    rw [rep.root_node]
    by_cases few : (walkCount cnt).toNat ≤ ((entries (.node x l r)).map Prod.snd).length
    · obtain ⟨dir, rtn, live, run⟩ := stop few
      cases rtn with
      | none => exact ⟨none, ⟨0, dir, none, rtt, _⟩, rfl, rfl, run.ends (.done rfl)⟩
      | some i =>
        obtain ⟨y, hy, rfl⟩ := List.mem_map.mp (live i rfl)
        obtain ⟨_, ⟨n, here, _⟩, _⟩ := rep.linked.holds hy
        refine ⟨n.rtnRth, ⟨0, dir, some y.1, rtt, _⟩, rfl, rfl, run.ends (.done ?_)⟩
        simp [walkTurn, node_of here]
    · obtain ⟨lcnt, left, run⟩ := through (by omega)
      have linked : Linked rtt.mem none (plug [] (.node x l r)) := rep.linked
      obtain ⟨⟨n, here, holds⟩, _⟩ := holds_at linked
      have parent : n.rtnParent = none := holds.parent
      have more : lcnt ≠ 0 := by
        rintro rfl
        simp only [UInt64.toNat_zero] at left
        omega
      refine ⟨none, ⟨lcnt, .walkUp, some x.1, rtt, [] ++ (entries (.node x l r)).map Prod.snd⟩, ?_, rfl,
        run.ends (.done ?_)⟩
      · rw [List.take_of_length_le (by omega)]
        rfl
      · simp [walkTurn, node_of here, more, parent]

/-! ## Versions -/

/-- The node is older than `minVer`. -/
def older (rtt : Rtt) (minVer : Version) (x : Node NodeId HeadId) : Bool :=
  (rtt.nodes x.1).any fun n => n.rtnVersion < minVer

def inRange (rtt : Rtt) (minVer maxVer : Version) (h : HeadId) : Bool :=
  minVer ≤ (rtt.heads h).rthVersion ∧ (rtt.heads h).rthVersion ≤ maxVer

variable {minVer maxVer : Version} {walkFn : WalkFn} {n : RtNode} {h : HeadId}

theorem versionVisit_inRange {w : Walk} {i : NodeId} (head : n.rtnRth = some h)
    (wanted : inRange w.rtt minVer maxVer h = true) :
    versionVisit (some walkFn) minVer maxVer w i n = do
      let rtt ← w.rtt.write i rnLock
      let w ← { w with lcnt := w.lcnt - 1, rtt := rtt }.call walkFn h
      let rtt ← w.rtt.write i rnUnlock
      return { w with rtt := rtt } := by
  simp only [versionVisit, head, if_pos (of_decide_eq_true wanted)]

/-- A callback that leaves the table alone: the lock is given back. -/
theorem versionVisit_passed (live : rtt.nodes x.1 = some n) (head : n.rtnRth = some h)
    (wanted : inRange rtt minVer maxVer h = true) (passes : ∀ rtt, walkFn h rtt = .ok (0, rtt)) (lcnt : UInt64)
    (dir : WalkDir) (calls : List HeadId) :
    versionVisit (some walkFn) minVer maxVer ⟨lcnt, dir, some x.1, rtt, calls⟩ x.1 n =
      .ok ⟨lcnt - 1, dir, some x.1, rtt, calls ++ [h]⟩ := by
  have locked : (rtt.setNode x.1 (rnLock n)).nodes x.1 = some (rnLock n) := by
    rw [nodes_setNode, if_pos rfl]
  have same : rnUnlock (rnLock n) = n := by simp [rnUnlock, rnLock]
  rw [versionVisit_inRange head wanted]
  simp only [write_of _ live, ok_bind, Walk.call, passes, pure_eq_ok, write_of _ locked, setNode_setNode, same,
    setNode_self live]
  rfl

theorem versionVisit_unwanted (head : n.rtnRth = x.2.val)
    (none : x.2.val.toList.filter (inRange rtt minVer maxVer) = []) (lcnt : UInt64) (dir : WalkDir)
    (calls : List HeadId) :
    versionVisit (some walkFn) minVer maxVer ⟨lcnt, dir, some x.1, rtt, calls⟩ x.1 n =
      .ok ⟨lcnt, dir, some x.1, rtt, calls⟩ := by
  cases val : x.2.val with
  | none => simp [versionVisit, head, val]
  | some h =>
    have out : ¬ inRange rtt minVer maxVer h = true := by simpa [val] using none
    have range : ¬ (minVer ≤ (rtt.heads h).rthVersion ∧ (rtt.heads h).rthVersion ≤ maxVer) :=
      fun both => out (decide_eq_true both)
    simp only [versionVisit, head, val, if_neg range, pure_eq_ok]

end SonicUtils.Radix
