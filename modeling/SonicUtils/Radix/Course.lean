import SonicUtils.Radix.Deferral

/-!
# The course of a walk that removes

What is left of a subtree when the walk comes up from it, and when every removal
on the climb sends the walk where it has to go on.

* `OnCourse`: when;
* `subtree_spec`: the walk of a subtree.
-/

namespace SonicUtils.Radix

open PtrTree BitTrie Loop

variable {rtt m m' : Rtt} {R : HeadId → Bool} {minVer maxVer : Version} {rth : HeadId}
  {fs : List (Frame (Node NodeId HeadId))} {x : Node NodeId HeadId} {l r t : RtTree}

/-! ## What is left -/

def parted (x : Node NodeId HeadId) : Node NodeId HeadId := (x.1, ⟨x.2.stem, none⟩)

/-- A node over what is left of its subtrees: without a head it needs both. -/
def keep (x : Node NodeId HeadId) : RtTree → RtTree → RtTree
  | .nil, r => if x.2.val.isNone then r else .node x .nil r
  | l, .nil => if x.2.val.isNone then l else .node x l .nil
  | l, r => .node x l r

theorem keep_headed (head : x.2.val ≠ none) (l r : RtTree) : keep x l r = .node x l r := by
  cases l <;> cases r <;> simp [keep, head]

theorem keep_full (left : l ≠ .nil) (right : r ≠ .nil) : keep x l r = .node x l r := by
  cases l with
  | nil => exact absurd rfl left
  | node => cases r with
    | nil => exact absurd rfl right
    | node => rfl

theorem keep_left (bare : x.2.val = none) (r : RtTree) : keep x .nil r = r := by
  simp [keep, bare]

theorem keep_right (bare : x.2.val = none) (l : RtTree) : keep x l .nil = l := by
  cases l <;> simp [keep, bare]

/-- What is left of a subtree; the walk leaves out what is below a node that is `cut`. -/
def spared (cut gone : Node NodeId HeadId → Bool) : RtTree → RtTree
  | .nil => .nil
  | .node x l r =>
    if cut x then .node x l r
    else keep (if gone x then parted x else x) (spared cut gone l) (spared cut gone r)

/-- On which side of its parent the hole below `fs` is. -/
def side (fs : List (Frame (Node NodeId HeadId))) : Option Bool := fs.head?.map Frame.side

/-- Every removal on the climb sends the walk where it has to go on. `s` is the side
of the subtree, `stale` the marks from before.

* A node with two subtrees left sends it up, so it must not be a left child.
* A node with a left subtree left sends it to the right of its parent, so it must
  not be a right child; so does a node without a head of which only that is left.
* A node with a right subtree left sends it down that once more. -/
def OnCourse (cut stale gone : Node NodeId HeadId → Bool) : Option Bool → RtTree → Prop
  | _, .nil => True
  | s, .node x l r =>
    if cut x then stale x = true → s ≠ some false
    else if gone x then
      OnCourse cut stale gone (some false) l ∧ OnCourse cut stale gone (some true) r ∧
        (spared cut gone l ≠ .nil → spared cut gone r ≠ .nil → s ≠ some false) ∧
        (spared cut gone l ≠ .nil → spared cut gone r = .nil → s ≠ some true) ∧
        (spared cut gone l = .nil → spared cut gone r = .nil)
    else
      OnCourse cut stale gone (some false) l ∧
        (x.2.val = none → spared cut gone l = .nil → OnCourse cut stale gone s r) ∧
        (x.2.val ≠ none ∨ spared cut gone l ≠ .nil → OnCourse cut stale gone (some true) r) ∧
        (x.2.val = none → spared cut gone l ≠ .nil → spared cut gone r = .nil → s ≠ some true) ∧
        (stale x = true → spared cut gone l ≠ .nil → spared cut gone r ≠ .nil → s ≠ some false)

/-! ## Where the walk goes on -/

theorem Left.of_departure {ret : Option NodeId} {dir : Option WalkDir} {t' : RtTree}
    (departure : Departure fs x l r ret dir t') (two : l ≠ .nil → r ≠ .nil → side fs ≠ some false)
    (one : l ≠ .nil → r = .nil → side fs ≠ some true) (down : l = .nil → r = .nil) :
    Left fs (keep (parted x) l r) (dir.getD .walkUp) ret t' := by
  cases departure with
  | branching _ _ left right =>
    rw [keep_full left right]
    have right_side := two left right
    cases fs with
    | nil => exact .root _ rfl
    | cons f fs =>
      have hs : f.side = true := by simpa [side] using right_side
      have kept := Left.kept (s := .node (parted x) l r) f fs rfl (by simp)
      simpa [hs, parted] using kept
  | root top => exact top ▸ .root _ rfl
  | leaf f fs' place head => exact .kept f fs' place fun _ => head
  | leafAndParent f fs' place bare => exact .spliced f fs' place rfl bare
  | onlyLeft _ left =>
    rw [keep_right rfl]
    have left_side := one left rfl
    cases fs with
    | nil => exact .root _ rfl
    | cons f fs =>
      have hs : f.side = false := by simpa [side] using left_side
      have kept := Left.kept (s := l) f fs rfl fun empty => absurd empty left
      simpa [hs] using kept
  | onlyRight _ right => exact absurd (down rfl) right

theorem keep_of_trie {q : List Bool} (trie : Trie q (.node x l r)) : keep x l r = .node x l r := by
  by_cases head : x.2.val = none
  · obtain ⟨left, right⟩ := trie.2.1 head
    exact keep_full left right
  · exact keep_headed head l r

/-- What a walk does with the subtree `s` below `fs`: it leaves with `s'` in its place. -/
def Sweep (rtt : Rtt) (R : HeadId → Bool) (minVer maxVer : Version) (fs : List (Frame (Node NodeId HeadId)))
    (m : Rtt) (p : Place) (s' : RtTree) (S : Set NodeId) (hs : List HeadId) : Prop :=
  ∃ m' dir rtn t', Left fs s' dir rtn t' ∧ Walking rtt m' t' ∧ Footprint RtNode.rtnFlags S ∅ m m' ∧
    Passes (versionTurn (some (removing R)) minVer maxVer) m p m' (dir, rtn) hs

theorem Sweep.after {p q : Place} {s' : RtTree} {S : Set NodeId} {hs hs' : List HeadId}
    (flags : Footprint RtNode.rtnFlags S ∅ m m')
    (run : Passes (versionTurn (some (removing R)) minVer maxVer) m p m' q hs)
    (rest : Sweep rtt R minVer maxVer fs m' q s' S hs') : Sweep rtt R minVer maxVer fs m p s' S (hs ++ hs') := by
  obtain ⟨m'', dir, rtn, t', left, w, flags', run'⟩ := rest
  exact ⟨m'', dir, rtn, t', left, w, flags.trans flags', run.trans run'⟩

/-- The last turn at a node, when its subtrees are done. `g` says that its head goes. -/
theorem leave_spec {g b : Bool} (w : Walking rtt m (plug fs (.node x l r))) (mark : Marked m x.1 (g || b))
    (headed : g = true → x.2.val ≠ none) (bare : b = true → x.2.val = none)
    (gone : g = true → (l ≠ .nil → r ≠ .nil → side fs ≠ some false) ∧
      (l ≠ .nil → r = .nil → side fs ≠ some true) ∧ (l = .nil → r = .nil))
    (stale : b = true → l ≠ .nil → r ≠ .nil → side fs ≠ some false) :
    Sweep rtt R minVer maxVer fs m (.walkUp, some x.1) (keep (if g then parted x else x) l r) ∅ [] := by
  have trie := (trie_plug.mp w.rep.trie).1
  cases g with
  | true =>
    obtain ⟨h, val⟩ := Option.ne_none_iff_exists'.mp (headed rfl)
    rw [Bool.true_or] at mark
    obtain ⟨ret, dir, m', t', departure, w', flags, run⟩ := turn_remove w val mark
    obtain ⟨two, one, down⟩ := gone rfl
    exact ⟨m', _, ret, t', .of_departure departure two one down, w', flags, run⟩
  | false =>
    rw [Bool.false_or] at mark
    rw [if_neg Bool.false_ne_true, keep_of_trie trie]
    cases b with
    | true =>
      obtain ⟨m', w', flags, run⟩ := turn_stale w (bare rfl) mark
      obtain ⟨left, right⟩ := trie.2.1 (bare rfl)
      have right_side := stale rfl left right
      refine ⟨m', .walkUp, up fs, _, ?_, w', flags, run⟩
      cases fs with
      | nil => exact .root _ rfl
      | cons f fs =>
        have hs : f.side = true := by simpa [side] using right_side
        have kept := Left.kept (s := .node x l r) f fs rfl (by simp)
        simpa [hs] using kept
    | false =>
      obtain ⟨dir, rtn, left, run⟩ := turn_up w mark
      exact ⟨m, dir, rtn, _, left, w, .refl m, run⟩

theorem Sweep.widen {p : Place} {s' : RtTree} {S S' : Set NodeId} {hs : List HeadId}
    (h : Sweep rtt R minVer maxVer fs m p s' S hs) (sub : S ⊆ S') :
    Sweep rtt R minVer maxVer fs m p s' S' hs := by
  obtain ⟨m', dir, rtn, t', left, w, flags, run⟩ := h
  exact ⟨m', dir, rtn, t', left, w, flags.widen sub, run⟩

/-- What `OnCourse` says of a node that is not cut. -/
structure Course (cut stale gone : Node NodeId HeadId → Bool) (s : Option Bool) (x : Node NodeId HeadId)
    (l r : RtTree) : Prop where
  left : OnCourse cut stale gone (some false) l
  right : x.2.val ≠ none ∨ spared cut gone l ≠ .nil → OnCourse cut stale gone (some true) r
  moved : x.2.val = none → spared cut gone l = .nil → OnCourse cut stale gone s r
  spliced : x.2.val = none → spared cut gone l ≠ .nil → spared cut gone r = .nil → s ≠ some true
  removed : gone x = true → (spared cut gone l ≠ .nil → spared cut gone r ≠ .nil → s ≠ some false) ∧
    (spared cut gone l ≠ .nil → spared cut gone r = .nil → s ≠ some true) ∧
    (spared cut gone l = .nil → spared cut gone r = .nil)
  again : stale x = true → spared cut gone l ≠ .nil → spared cut gone r ≠ .nil → s ≠ some false

theorem OnCourse.parts {cut stale gone : Node NodeId HeadId → Bool} {s : Option Bool}
    (course : OnCourse cut stale gone s (.node x l r)) (young : cut x = false)
    (headed : gone x = true → x.2.val ≠ none) (bare : stale x = true → x.2.val = none) :
    Course cut stale gone s x l r := by
  rw [OnCourse, young, if_neg Bool.false_ne_true] at course
  cases chosen : gone x with
  | true =>
    rw [chosen, if_pos rfl] at course
    obtain ⟨left, right, removed⟩ := course
    have head := headed chosen
    exact ⟨left, fun _ => right, fun none => absurd none head, fun none => absurd none head,
      fun _ => removed, fun old => absurd (bare old) head⟩
  | false =>
    rw [chosen, if_neg Bool.false_ne_true] at course
    obtain ⟨left, moved, right, spliced, again⟩ := course
    exact ⟨left, right, moved, spliced, fun gone => absurd (chosen.symm.trans gone) Bool.false_ne_true, again⟩

theorem headed_of_doomed (gone : doomed rtt minVer maxVer R x = true) : x.2.val ≠ none := by
  intro none
  simp [doomed, none] at gone

/-- From the left subtree of a node, of which `l'` is left, to what comes then: the right
subtree, at its place or in that of the node. -/
theorem left_spec (l' : RtTree) {s' : RtTree} {S : Set NodeId} {hs hs' : List HeadId}
    (w : Walking rtt m (plug fs (.node x l r))) (empty : l = .nil → l' = .nil ∧ hs = [])
    (inside : ∀ y yl yr, l = .node y yl yr → Sweep rtt R minVer maxVer (⟨false, x, r⟩ :: fs) m
      (.walkDown, some y.1) l' {i | i ∈ ids l} hs)
    (stays : ∀ m', Walking rtt m' (plug fs (.node x l' r)) → Footprint RtNode.rtnFlags {i | i ∈ ids l} ∅ m m' →
      x.2.val ≠ none ∨ l' ≠ .nil → Sweep rtt R minVer maxVer fs m' (.walkRight, some x.1) s' S hs')
    (goes : ∀ m', Walking rtt m' (plug fs r) → Footprint RtNode.rtnFlags {i | i ∈ ids l} ∅ m m' →
      x.2.val = none → l' = .nil → Sweep rtt R minVer maxVer fs m' (.walkDown, root r) s' S hs') :
    Sweep rtt R minVer maxVer fs m (enter l (.walkRight, some x.1)) s' ({i | i ∈ ids l} ∪ S) (hs ++ hs') := by
  cases l with
  | nil =>
    obtain ⟨rfl, rfl⟩ := empty rfl
    have head : x.2.val ≠ none := fun bare => ((trie_plug.mp w.rep.trie).1.2.1 bare).1 rfl
    exact (stays m w (.refl m) (.inl head)).widen Set.subset_union_right
  | node y yl yr =>
    obtain ⟨m', dir, rtn, t', left, w', flags, run⟩ := inside y yl yr rfl
    have wide : Footprint RtNode.rtnFlags ({i | i ∈ ids (.node y yl yr)} ∪ S) ∅ m m' :=
      flags.widen Set.subset_union_left
    cases left with
    | root _ top => cases top
    | kept f fs' same bound =>
      cases same
      have rest := stays m' w' flags (Classical.or_iff_not_imp_right.mpr fun none => bound (not_not.mp none))
      exact (rest.widen Set.subset_union_right).after wide run
    | spliced f fs' same none bare =>
      cases same
      exact ((goes m' w' flags bare none).widen Set.subset_union_right).after wide run

/-- From the right subtree of a node, of which `r'` is left, and up. -/
theorem right_spec (r' : RtTree) {g b : Bool} {hs : List HeadId} (w : Walking rtt m (plug fs (.node x l r)))
    (mark : Marked m x.1 (g || b)) (apart : x.1 ∉ ids r) (empty : r = .nil → r' = .nil ∧ hs = [])
    (inside : ∀ y yl yr, r = .node y yl yr → Sweep rtt R minVer maxVer (⟨true, x, l⟩ :: fs) m
      (.walkDown, some y.1) r' {i | i ∈ ids r} hs)
    (headed : g = true → x.2.val ≠ none) (bare : b = true → x.2.val = none)
    (gone : g = true → (l ≠ .nil → r' ≠ .nil → side fs ≠ some false) ∧
      (l ≠ .nil → r' = .nil → side fs ≠ some true) ∧ (l = .nil → r' = .nil))
    (stale : b = true → l ≠ .nil → r' ≠ .nil → side fs ≠ some false)
    (spliced : x.2.val = none → l ≠ .nil → r' = .nil → side fs ≠ some true) :
    Sweep rtt R minVer maxVer fs m (.walkRight, some x.1) (keep (if g then parted x else x) l r')
      {i | i ∈ ids r} hs := by
  have turn : Passes (versionTurn (some (removing R)) minVer maxVer) m (.walkRight, some x.1)
      m (enter r (.walkUp, some x.1)) [] := turn_right w
  cases r with
  | nil =>
    obtain ⟨rfl, rfl⟩ := empty rfl
    exact ((leave_spec w mark headed bare gone stale).after (.refl m) turn).widen (Set.empty_subset _)
  | node y yl yr =>
    obtain ⟨m', dir, rtn, t', left, w', flags, run⟩ := inside y yl yr rfl
    have way := turn.trans run
    cases left with
    | root _ top => cases top
    | kept f fs' same bound =>
      cases same
      have climb : Sweep rtt R minVer maxVer fs m' (.walkUp, some x.1)
          (keep (if g then parted x else x) l r') ∅ [] :=
        leave_spec w' (mark.keep flags apart) headed bare gone stale
      simpa using (climb.widen (Set.empty_subset _)).after flags way
    | spliced f fs' same none headless =>
      cases same
      have full := ((trie_plug.mp w.rep.trie).1.2.1 headless).1
      have left_side := spliced headless full none
      have stays : g = false := by
        cases g with
        | true => exact absurd headless (headed rfl)
        | false => rfl
      subst none
      rw [stays, if_neg Bool.false_ne_true, keep_right headless]
      refine ⟨m', _, _, _, ?_, w', flags, way⟩
      cases fs with
      | nil => exact .root _ rfl
      | cons f fs =>
        have hs : f.side = false := by simpa [side] using left_side
        have kept := Left.kept (s := l) f fs rfl fun empty => absurd empty full
        simpa [hs] using kept

/-- **The walk of a subtree** that is on course. -/
theorem subtree_spec {stale : Node NodeId HeadId → Bool} (s : RtTree) (top : s = .node x l r)
    (w : Walking rtt m (plug fs s)) (marks : ∀ y ∈ nodes s, Marked m y.1 (stale y))
    (bare : ∀ y ∈ nodes s, stale y = true → y.2.val = none)
    (course : OnCourse (older rtt minVer) stale (doomed rtt minVer maxVer R) (side fs) s) :
    Sweep rtt R minVer maxVer fs m (.walkDown, some x.1)
      (spared (older rtt minVer) (doomed rtt minVer maxVer R) s) {i | i ∈ ids s}
      (swept (older rtt minVer) (inRange rtt minVer maxVer) s) := by
  induction s generalizing fs m x l r with
  | nil => cases top
  | node y yl yr ihl ihr =>
    obtain ⟨rfl, rfl, rfl⟩ := BinaryTree.node.inj top
    have trie := (trie_plug.mp w.rep.trie).1
    have bareY := bare y (by simp)
    have distinct := (List.nodup_append.mp (nodup_plug.mp w.rep.distinct)).1
    obtain ⟨outL, outR, apart⟩ := apart_of_nodup distinct
    cases cut : older rtt minVer y with
    | true =>
      rw [OnCourse, if_pos cut] at course
      have climb : Sweep rtt R minVer maxVer fs m (.walkUp, some y.1)
          (keep (if false then parted y else y) yl yr) ∅ [] :=
        leave_spec w (marks y (by simp)) (by simp) bareY (by simp) fun old _ _ => course old
      rw [if_neg Bool.false_ne_true, keep_of_trie trie] at climb
      simpa [spared, swept, cut] using (climb.after (.refl m) (turn_cut w cut)).widen (Set.empty_subset _)
    | false =>
      have parts := course.parts cut headed_of_doomed bareY
      obtain ⟨m₁, w₁, flags₁, mark₁, visit⟩ : ∃ m₁, Walking rtt m₁ (plug fs (.node y yl yr)) ∧
          Footprint RtNode.rtnFlags {y.1} ∅ m m₁ ∧
          Marked m₁ y.1 (doomed rtt minVer maxVer R y || stale y) ∧
          Passes (versionTurn (some (removing R)) minVer maxVer) m (.walkDown, some y.1)
            m₁ (enter yl (.walkRight, some y.1)) (y.2.val.toList.filter (inRange rtt minVer maxVer)) :=
        turn_visit w cut (marks y (by simp))
      -- a mark is as it was until the walk gets there
      have marksL : ∀ z ∈ nodes yl, Marked m₁ z.1 (stale z) := fun z hz =>
        (marks z (by simp [hz])).keep flags₁ fun same => outL (same ▸ mem_ids hz)
      have marksR {m₂ : Rtt} (flags₂ : Footprint RtNode.rtnFlags {i | i ∈ ids yl} ∅ m₁ m₂) :
          ∀ z ∈ nodes yr, Marked m₂ z.1 (stale z) := fun z hz =>
        ((marks z (by simp [hz])).keep flags₁ fun same => outR (same ▸ mem_ids hz)).keep flags₂
          fun inside => apart z.1 inside z.1 (mem_ids hz) rfl
      have bareL : ∀ z ∈ nodes yl, stale z = true → z.2.val = none :=
        fun z hz => bare z (List.mem_cons_of_mem _ (List.mem_append_left _ hz))
      have bareR : ∀ z ∈ nodes yr, stale z = true → z.2.val = none :=
        fun z hz => bare z (List.mem_cons_of_mem _ (List.mem_append_right _ hz))
      suffices below : Sweep rtt R minVer maxVer fs m₁ (enter yl (.walkRight, some y.1))
          (keep (if doomed rtt minVer maxVer R y then parted y else y)
            (spared (older rtt minVer) (doomed rtt minVer maxVer R) yl)
            (spared (older rtt minVer) (doomed rtt minVer maxVer R) yr))
          ({i | i ∈ ids yl} ∪ {i | i ∈ ids yr})
          (swept (older rtt minVer) (inRange rtt minVer maxVer) yl ++
            swept (older rtt minVer) (inRange rtt minVer maxVer) yr) by
        have every : ({y.1} ∪ ({i | i ∈ ids yl} ∪ {i | i ∈ ids yr}) : Set NodeId) ⊆
            {i | i ∈ ids (.node y yl yr)} := by
          rintro i (rfl | inl | inr)
          · simp [ids]
          · exact mem_ids_node.mpr (.inr (.inl inl))
          · exact mem_ids_node.mpr (.inr (.inr inr))
        have all := (below.widen Set.subset_union_right).after (flags₁.widen Set.subset_union_left) visit
        simpa [spared, swept, cut] using all.widen every
      apply left_spec (spared (older rtt minVer) (doomed rtt minVer maxVer R) yl) w₁
      · rintro rfl
        exact ⟨rfl, rfl⟩
      · rintro z zl zr rfl
        exact @ihl m₁ (⟨false, y, yr⟩ :: fs) z zl zr rfl w₁ marksL bareL parts.left
      · intro m₂ w₂ flags₂ full
        apply right_spec (spared (older rtt minVer) (doomed rtt minVer maxVer R) yr) w₂ (mark₁.keep flags₂ outL) outR
        · rintro rfl
          exact ⟨rfl, rfl⟩
        · rintro z zl zr rfl
          exact @ihr m₂ (⟨true, y, _⟩ :: fs) z zl zr rfl w₂ (marksR flags₂) bareR (parts.right full)
        · exact headed_of_doomed
        · exact bareY
        · exact parts.removed
        · exact parts.again
        · exact parts.spliced
      · intro m₂ w₂ flags₂ head none
        have kept : doomed rtt minVer maxVer R y = false := by simp [doomed, head]
        rw [none, kept, if_neg Bool.false_ne_true, keep_left head]
        cases yr with
        | nil => exact absurd rfl (trie.2.1 head).2
        | node z zl zr => exact ihr rfl w₂ (marksR flags₂) bareR (parts.moved head none)

end SonicUtils.Radix
