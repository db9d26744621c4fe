import SonicUtils.Lib.TreeDrawing
import SonicUtils.RbTree.Runs
import SonicUtils.RbTree.Walk

/-!
# Printing a red-black tree

`std_rbtree_print`. What `print_fn` is called with is in the lines; `number`,
which is written to and not printed, is left out. An index beyond one of the
arrays is a fault, of the kind of a null pointer.

* `heights_end`: the loop that sets `rbt_height` ends;
* `print_empty_iff`, `print_iff`: when the arrays are large enough, and all that
  `print_fn` is called with is stored.
-/

namespace SonicUtils.RbTree

open PtrTree RedBlack Loop Compare Runs TreeDrawing

variable {δ : Type}

/-- The fields of the sentinel that `std_rbtree_create` does not set. -/
structure Junk (δ : Type) where
  rbtHeight : UInt8
  rbtData : Option δ

/-- The variables of the first loop, and `rbt_height` of every node. -/
structure Heights where
  dir : WalkDir
  x : Option NodeId
  height : UInt8
  rbtHeight : NodeId → UInt8

/-- A line; `print_fn` is called if there are data. -/
structure Line (δ : Type) where
  indent : List Char
  rbtHeight : UInt8
  rbtColor : Color
  rbtData : Option δ
  deriving DecidableEq, Repr

namespace Rbtt

variable (rbtt : Rbtt δ)

/-- From `y` to its parent. -/
def heightOut (w : Heights) (y : NodeId) (n : RbNode δ) : Except Fault Heights :=
  match n.rbtParent with
  | none => return { w with x := none }
  | some x => do
    if (← rbtt.node x).rbtLeft = some y then
      return { w with x := some x, height := w.rbtHeight y, dir := .walkRight }
    else return { w with x := some x, dir := .walkUp }

def heightTurn (w : Heights) : Except Fault (Heights ⊕ (NodeId → UInt8)) :=
  match w.x with
  | none => return .inr w.rbtHeight
  | some x => do
    let n ← rbtt.node x
    match w.dir with
    | .walkDown =>
      let w := { w with rbtHeight := Function.update w.rbtHeight x w.height, height := w.height + 1 }
      match n.rbtLeft with
      | some l => return .inl { w with x := some l }
      | none => return .inl { w with dir := .walkRight }
    | .walkRight =>
      match n.rbtRight with
      | none => return .inl (← rbtt.heightOut w x n)
      | some r => return .inl { w with dir := .walkDown, x := some r }
    | .walkUp => return .inl (← rbtt.heightOut w x n)

/-- The child on a side of a node or of the sentinel, if it is not the sentinel. -/
def shownChild (side : Bool) (rb : Option NodeId) : Except Fault (Option (Option NodeId)) :=
  match rb with
  | none => return (rbtt.nil.child side).map some
  | some rb => do return (← rbtt.child rb side).map some

def shownLine (junk : Junk δ) (rbtHeight : NodeId → UInt8) (rb : Option NodeId) (indent : List Char) :
    Except Fault (Line δ) :=
  match rb with
  | none => return ⟨indent, junk.rbtHeight, rbtt.nil.rbtColor, junk.rbtData⟩
  | some rb => do
    let n ← rbtt.node rb
    return ⟨indent, rbtHeight rb, n.rbtColor, some n.rbtData⟩

/-- `MAXDEPTH`. -/
def maxdepth : Nat := 32

def drawing (junk : Junk δ) (rbtHeight : NodeId → UInt8) : Drawing Fault (Option NodeId) (Line δ) where
  size := maxdepth
  outside := .nullPointer
  left := rbtt.shownChild false
  right := rbtt.shownChild true
  line := rbtt.shownLine junk rbtHeight

/-- `std_rbtree_print`. The root of an empty tree is the sentinel, and not NULL. -/
def stdRbtreePrint (junk : Junk δ) (rbtHeight : NodeId → UInt8) (fuel : Nat) : Except Fault (List (Line δ)) := do
  rbtt.validateHandle
  let rbtHeight ← loop .noReturn rbtt.heightTurn fuel ⟨.walkDown, rbtt.rbttRoot, 0, rbtHeight⟩
  if 200 < rbtt.rbttNuminodes then return []
  else (rbtt.drawing junk rbtHeight).draw .noReturn rbtt.rbttRoot fuel

end Rbtt

variable {rbtt rbtt' : Rbtt δ} {t : Cells δ} {p : Option NodeId} {i : NodeId} {junk : Junk δ}
  {rbtHeight : NodeId → UInt8} {height : UInt8} {compare : δ → δ → Int}

/-! ## Heights -/

theorem nodup_parts {x : Cell δ} {l r : Cells δ} (distinct : (ids (.node x l r)).Nodup) :
    (ids l).Nodup ∧ (ids r).Nodup := by
  simp only [ids, nodes_node, List.map_cons, List.map_append, List.nodup_cons, List.nodup_append] at distinct
  exact ⟨distinct.2.1, distinct.2.2.1⟩

/-- The loop comes through a subtree, and is about to leave it. -/
theorem heights_subtree (linked : Linked rbtt.mem p t) (distinct : (ids t).Nodup) (top : root t = some i)
    (height : UInt8) (rbtHeight : NodeId → UInt8) :
    ∃ dir height' rbtHeight' n, rbtt.nodes i = some n ∧ n.rbtParent = p ∧
      Leads rbtt.heightTurn ⟨.walkDown, some i, height, rbtHeight⟩ ⟨dir, some i, height', rbtHeight'⟩ ∧
      rbtt.heightTurn ⟨dir, some i, height', rbtHeight'⟩ =
        (do return .inl (← rbtt.heightOut ⟨dir, some i, height', rbtHeight'⟩ i n)) := by
  induction t generalizing p i height rbtHeight with
  | nil => cases top
  | node x l r ihl ihr =>
    obtain rfl := Option.some.inj top
    obtain ⟨here, left, right⟩ := linked
    have live := node_of here
    obtain ⟨_, _, apart⟩ := apart_of_nodup distinct
    obtain ⟨distinctL, distinctR⟩ := nodup_parts distinct
    obtain ⟨height₁, rbtHeight₁, leads₁⟩ : ∃ height' rbtHeight', Leads rbtt.heightTurn
        ⟨.walkDown, some x.1, height, rbtHeight⟩ ⟨.walkRight, some x.1, height', rbtHeight'⟩ := by
      cases l with
      | nil =>
        refine ⟨height + 1, Function.update rbtHeight x.1 height, .single ?_⟩
        simp only [Rbtt.heightTurn, live, ok_bind, root_nil]
        rfl
      | node y ll lr =>
        obtain ⟨dir, height', rbtHeight', n, held, up, leads, leaves⟩ :=
          ihl left distinctL rfl (height + 1) (Function.update rbtHeight x.1 height)
        refine ⟨rbtHeight' y.1, rbtHeight', .head ?_ (leads.trans (.single (leaves.trans ?_)))⟩
        · simp only [Rbtt.heightTurn, live, ok_bind, root_node]
          rfl
        · simp only [Rbtt.heightOut, up, live, ok_bind, root_node, if_true]
          rfl
    cases r with
    | nil =>
      refine ⟨.walkRight, height₁, rbtHeight₁, _, here, rfl, leads₁, ?_⟩
      simp only [Rbtt.heightTurn, live, ok_bind, root_nil]
    | node y rl rr =>
      obtain ⟨dir, height', rbtHeight', n, held, up, leads, leaves⟩ := ihr right distinctR rfl height₁ rbtHeight₁
      have other : root l ≠ some y.1 := by
        intro same
        exact apart y.1 (root_mem_ids same) y.1 (root_mem_ids rfl) rfl
      refine ⟨.walkUp, height', rbtHeight', _, here, rfl, leads₁.trans (.head ?_ (leads.trans (.single (leaves.trans ?_)))), ?_⟩
      · simp only [Rbtt.heightTurn, live, ok_bind, root_node]
        rfl
      · simp only [Rbtt.heightOut, up, live, ok_bind, if_neg other]
        rfl
      · simp only [Rbtt.heightTurn, live, ok_bind]

/-- The loop ends. -/
theorem heights_end (h : Holds rbtt t) (rbtHeight : NodeId → UInt8) :
    ∃ rbtHeight', Ends .noReturn rbtt.heightTurn ⟨.walkDown, rbtt.rbttRoot, 0, rbtHeight⟩ rbtHeight' := by
  rw [h.top]
  cases t with
  | nil => exact ⟨rbtHeight, .done rfl⟩
  | node x l r =>
    obtain ⟨dir, height', rbtHeight', n, held, up, leads, leaves⟩ :=
      heights_subtree h.linked h.distinct rfl 0 rbtHeight
    have last : rbtt.heightTurn ⟨dir, some x.1, height', rbtHeight'⟩ = .ok (.inl ⟨dir, none, height', rbtHeight'⟩) := by
      rw [leaves, Rbtt.heightOut, up]
      rfl
    exact ⟨rbtHeight', leads.ends (.head last (.done rfl))⟩

/-! ## Lines -/

/-- The nodes that are drawn. -/
def shown (t : Cells δ) : BinaryTree (Option NodeId) := t.map fun x => some x.1

theorem top_shown (t : Cells δ) : top (shown t) = (root t).map some := by
  cases t <;> rfl

theorem draws_shown (junk : Junk δ) (rbtHeight : NodeId → UInt8) (linked : Linked rbtt.mem p t) (P : δ → Prop)
    (good : ∀ x ∈ nodes t, P x.2.2) :
    Draws (rbtt.drawing junk rbtHeight) (fun line => ∀ data, line.rbtData = some data → P data) (shown t) := by
  induction t generalizing p with
  | nil => trivial
  | node x l r ihl ihr =>
    obtain ⟨here, left, right⟩ := linked
    have live := node_of here
    rw [nodes_node, List.forall_mem_cons, List.forall_mem_append] at good
    obtain ⟨goodX, goodL, goodR⟩ := good
    refine ⟨?_, ?_, fun columns => ⟨⟨columns, rbtHeight x.1, x.2.1, some x.2.2⟩, ?_, ?_⟩, ihl left goodL, ihr right goodR⟩
    · change rbtt.shownChild false (some x.1) = _
      rw [Rbtt.shownChild, Rbtt.child, live, ← shown, top_shown]
      rfl
    · change rbtt.shownChild true (some x.1) = _
      rw [Rbtt.shownChild, Rbtt.child, live, ← shown, top_shown]
      rfl
    · change rbtt.shownLine junk rbtHeight (some x.1) columns = _
      rw [Rbtt.shownLine, live]
      rfl
    · intro data same
      cases same
      exact goodX

/-! ## The sentinel -/

/-- The sentinel is never given a child. -/
theorem step_sentinel {call : Call δ} (order : TotalPreorder rbtt.rbttCompare) (h : Sound rbtt t)
    (step : Step rbtt call rbtt') (side : Bool) : rbtt'.nil.child side = rbtt.nil.child side := by
  have valid : rbtt.validateHandle = .ok () := check_of h.magic
  cases step with
  | @insert _ data done z fresh run =>
    cases z with
    | none =>
      have idle : Returns (rbtt.stdRbtreeInsert data none) (rbtt, false) := .bind (.of_ok fun _ => valid) (.of_ok fun _ => rfl)
      obtain ⟨rfl, _⟩ := Prod.mk.inj (run.unique idle)
      rfl
    | some i =>
      let n : RbNode δ := ⟨none, none, none, .black, data⟩
      let rbtt₁ := { rbtt with
        nodes := Function.update rbtt.nodes i (some n)
        rbttNummallocs := rbtt.rbttNummallocs + 1 }
      obtain ⟨ordered, out⟩ : Ordered rbtt₁ t ∧ i ∉ ids t := ordered_alloc h.toOrdered (fresh i rfl) n
      have order₁ : TotalPreorder rbtt₁.rbttCompare := order
      have live : rbtt₁.nodes i = some n := Function.update_self ..
      obtain ⟨rbtt₂, _, inserts, _, _, rest, _⟩ := insertNode_spec order₁ ordered live out
      have whole : Returns (rbtt.stdRbtreeInsert data (some i)) (rbtt₂, true) :=
        .bind (.of_ok fun _ => valid) (.bind inserts (.of_ok fun _ => rfl))
      obtain ⟨rfl, _⟩ := Prod.mk.inj (run.unique whole)
      exact congrArg (fun r => r.nil.child side) rest
  | @remove _ data result run =>
    have spot := spot_descend order h.toOrdered data
    have search := getexactNode_spec h.toOrdered data
    generalize (descend (exactWay rbtt.rbttCompare data) [] t).1 = fs at spot
    generalize (descend (exactWay rbtt.rbttCompare data) [] t).2 = s at spot search
    cases s with
    | nil =>
      have idle : Returns (rbtt.stdRbtreeRemove data) (rbtt, none) := .bind search (.of_ok fun _ => rfl)
      obtain ⟨rfl, _⟩ := Prod.mk.inj (run.unique idle)
      rfl
    | node x l r =>
      obtain rfl := spot.whole
      obtain ⟨rbtt₁, _, removes, _, _, core, ⟨n, live, _⟩, _⟩ := removeNode_spec h.toOrdered
      have whole : Returns (rbtt.stdRbtreeRemove data) ({ rbtt₁ with
          nodes := Function.update rbtt₁.nodes x.1 none
          rbttNumfrees := rbtt₁.rbttNumfrees + 1 }, some n.rbtData) :=
        .bind search (.bind removes (.bind (.of_ok fun _ => node_of live) (.of_ok fun _ => rfl)))
      obtain ⟨rfl, _⟩ := Prod.mk.inj (run.unique whole)
      have kept := congrArg (fun r => r.nil.child side) core
      cases side <;> exact kept

theorem run_sentinel {calls : List (Call δ)} (order : TotalPreorder compare)
    (run : Run Step (stdRbtreeCreate compare) calls rbtt) :
    ∃ t, Sound rbtt t ∧ rbtt.rbttCompare = compare ∧ ∀ side, rbtt.nil.child side = none := by
  have start : ∃ t, Sound (stdRbtreeCreate compare) t ∧ (stdRbtreeCreate compare).rbttCompare = compare ∧
      ∀ side, (stdRbtreeCreate compare).nil.child side = none :=
    ⟨.nil, sound_create compare, rfl, fun side => by cases side <;> rfl⟩
  apply run.invariant _ start
  intro rbtt call rbtt' ⟨t, sound, compare_, none_⟩ step
  obtain ⟨t', sound', same, _⟩ := step_sound (compare_ ▸ order) sound step
  exact ⟨t', sound', same.trans compare_, fun side => (step_sentinel (compare_ ▸ order) sound step side).trans (none_ side)⟩

/-! ## What is printed -/

/-- The arrays are large enough, and `print_fn` is called with stored data only. -/
def PrintsInside (rbtt : Rbtt δ) (t : Cells δ) (junk : Junk δ) (rbtHeight : NodeId → UInt8) : Prop :=
  ∃ lines, Returns (rbtt.stdRbtreePrint junk rbtHeight) lines ∧
    ∀ line ∈ lines, ∀ data, line.rbtData = some data → data ∈ stored t

theorem print_iff_draw (magic : rbtt.rbttMagic = rbtMagic) (h : Holds rbtt t) (junk : Junk δ) (rbtHeight : NodeId → UInt8) :
    ∃ rbtHeight', ∀ lines, Returns (rbtt.stdRbtreePrint junk rbtHeight) lines ↔
      Returns (fun fuel => if 200 < rbtt.rbttNuminodes then return []
        else (rbtt.drawing junk rbtHeight').draw .noReturn rbtt.rbttRoot fuel) lines := by
  have valid : rbtt.validateHandle = .ok () := check_of magic
  obtain ⟨rbtHeight', ends⟩ := heights_end h rbtHeight
  exact ⟨rbtHeight', fun lines => (Returns.bind_iff (.of_ok fun _ => valid)).trans (Returns.bind_iff ends)⟩

/-- What is too large is not printed. -/
theorem print_large (magic : rbtt.rbttMagic = rbtMagic) (h : Holds rbtt t) (large : 200 < rbtt.rbttNuminodes) :
    PrintsInside rbtt t junk rbtHeight := by
  obtain ⟨rbtHeight', same⟩ := print_iff_draw magic h junk rbtHeight
  refine ⟨[], (same []).mpr (.of_ok fun _ => ?_), List.forall_mem_nil _⟩
  rw [if_pos large]
  rfl

/-- The sentinel of an empty tree is printed. -/
theorem print_empty (magic : rbtt.rbttMagic = rbtMagic) (h : Holds rbtt .nil) (small : ¬ 200 < rbtt.rbttNuminodes)
    (none_ : ∀ side, rbtt.nil.child side = none) :
    PrintsInside rbtt .nil junk rbtHeight ↔ junk.rbtData = none := by
  obtain ⟨rbtHeight', same⟩ := print_iff_draw magic h junk rbtHeight
  have draws : Draws (rbtt.drawing junk rbtHeight') (fun line => line.rbtData = junk.rbtData) (.node none .nil .nil) := by
    refine ⟨?_, ?_, fun columns => ⟨_, rfl, rfl⟩, trivial, trivial⟩
    · exact congrArg (fun child => Except.ok (Option.map some child)) (none_ false)
    · exact congrArg (fun child => Except.ok (Option.map some child)) (none_ true)
  obtain ⟨line, datum, printed⟩ : ∃ line, line.rbtData = junk.rbtData ∧
      Returns (rbtt.stdRbtreePrint junk rbtHeight) [line] := by
    let start : State (Option NodeId) (Line δ) := ⟨[⟨none, .unseen, true⟩], List.replicate 32 ' ', []⟩
    have inside : ([] : List (Slot (Option NodeId))).length * 3 < (rbtt.drawing junk rbtHeight').size := Nat.zero_lt_succ 31
    obtain ⟨columns, line, datum, drawn⟩ : ∃ columns line, line.rbtData = junk.rbtData ∧
        (rbtt.drawing junk rbtHeight').drawTurn start ⟨none, .unseen, true⟩ [] = .ok ⟨[], columns, [line]⟩ :=
      drawTurn_inside draws inside
    have turn : (rbtt.drawing junk rbtHeight').turn start = .ok (.inl ⟨[], columns, [line]⟩) := by
      obtain ⟨_, turn⟩ | ⟨y, root, _⟩ := right_done draws true [] (List.replicate 32 ' ') []
      · rw [turn, drawn]
        rfl
      · cases root
    refine ⟨line, datum, (same [line]).mpr ?_⟩
    simp only [if_neg small, h.top]
    exact (Leads.single turn).ends (.done rfl)
  constructor
  · rintro ⟨lines, run, good⟩
    obtain rfl := run.unique printed
    cases held : junk.rbtData with
    | none => rfl
    | some data => exact absurd (good line (List.mem_singleton_self _) data (datum.trans held)) List.not_mem_nil
  · intro held
    refine ⟨[line], printed, ?_⟩
    rw [List.forall_mem_singleton]
    intro data same
    cases (datum.trans held).symm.trans same

/-- A tree that is not empty. -/
theorem print_tree {x : Cell δ} {l r : Cells δ} (magic : rbtt.rbttMagic = rbtMagic) (h : Holds rbtt (.node x l r))
    (small : ¬ 200 < rbtt.rbttNuminodes) :
    PrintsInside rbtt (.node x l r) junk rbtHeight ↔ (BinaryTree.node x l r).height ≤ 11 := by
  obtain ⟨rbtHeight', same⟩ := print_iff_draw magic h junk rbtHeight
  have draws := draws_shown junk rbtHeight' h.linked (· ∈ stored (.node x l r)) fun y mem => mem_stored mem
  have fits := draw_iff .noReturn draws (x := some x.1) rfl
  rw [shown, height_map] at fits
  simp only [if_neg small, h.top] at same
  unfold PrintsInside
  simp only [same]
  refine fits.trans ?_
  change _ < 32 + 3 ↔ _
  omega

/-- **When a tree of a run is printed inside.** -/
theorem print_iff (magic : rbtt.rbttMagic = rbtMagic) (h : Holds rbtt t) (none_ : ∀ side, rbtt.nil.child side = none) :
    PrintsInside rbtt t junk rbtHeight ↔
      200 < rbtt.rbttNuminodes ∨ (t = .nil → junk.rbtData = none) ∧ t.height ≤ 11 := by
  by_cases small : 200 < rbtt.rbttNuminodes
  · exact iff_of_true (print_large magic h small) (.inl small)
  · rw [or_iff_right small]
    cases t with
    | nil =>
      exact (print_empty magic h small none_).trans ⟨fun datum => ⟨fun _ => datum, Nat.zero_le _⟩, fun ⟨datum, _⟩ => datum rfl⟩
    | node x l r => exact (print_tree magic h small).trans ⟨fun fits => ⟨nofun, fits⟩, fun ⟨_, fits⟩ => fits⟩

end SonicUtils.RbTree
