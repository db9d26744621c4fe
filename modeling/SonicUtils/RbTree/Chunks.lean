import SonicUtils.RbTree.Iteration
import SonicUtils.RbTree.Walk

/-!
# Walks in chunks

`std_rbtree_walk` returns the datum that it has visited last, and a walk from a
datum starts behind it. So the calls of one walk after the other fit together.

* `Place`: where a walk stands in the tree, and the nodes that are left;
* `next_stop`: it gets to the next one of them;
* `chunked_walk`: the calls together are those of `std_rbtree_rwalk`;
* `walk_from_iff`: a walk from a datum leaves out the node where it starts.
-/

namespace SonicUtils.RbTree

open PtrTree RedBlack Loop Compare Runs

variable {δ σ : Type} {rbtt : Rbtt δ} {compare : δ → δ → Int} {x y : Cell δ} {l r s t : Cells δ}
  {fs : List (Frame (Cell δ))} {rest : List (Cell δ)} {f : WalkFn σ δ} {dir : WalkDir} {i : NodeId}

/-- A walk is at a node, and those nodes are left to visit. -/
inductive Place (t : Cells δ) : WalkDir → NodeId → List (Cell δ) → Prop
  | down {fs : List (Frame (Cell δ))} {x : Cell δ} {l r : Cells δ} : plug fs (.node x l r) = t →
      Place t .walkDown x.1 (inorder l ++ x :: (inorder r ++ after fs))
  | right {fs : List (Frame (Cell δ))} {x : Cell δ} {l r : Cells δ} : plug fs (.node x l r) = t →
      Place t .walkRight x.1 (inorder r ++ after fs)
  | up {fs : List (Frame (Cell δ))} {x : Cell δ} {l r : Cells δ} : plug fs (.node x l r) = t →
      Place t .walkUp x.1 (after fs)

/-- The walk has gone on to the next node and called `walk_fn`, or it has ended. -/
inductive Stop (rbtt : Rbtt δ) (t : Cells δ) (f : WalkFn σ δ) (w : Walk σ δ) : List (Cell δ) → Prop
  | ended {w' : Walk σ δ} : Ends .noReturn (rbtt.walkTurn (some f) .inorder) w (none, w') → w'.calls = w.calls →
      Stop rbtt t f w []
  | called {w' : Walk σ δ} {y : Cell δ} {rest : List (Cell δ)} :
      Leads (rbtt.walkTurn (some f) .inorder) w w' → Place t .walkRight y.1 rest →
      w' = { w.userCallback (some f) y.2.2 with x := some y.1, dir := .walkRight } → Stop rbtt t f w (y :: rest)

variable {lcnt : UInt64} {user : σ} {calls : List δ}

/-- A move without a call. -/
theorem Stop.move {w : Walk σ δ} {x : Option NodeId} {dir : WalkDir}
    (turn : rbtt.walkTurn (some f) .inorder w = .ok (.inl { w with x := x, dir := dir }))
    (stop : Stop rbtt t f { w with x := x, dir := dir } rest) : Stop rbtt t f w rest := by
  cases stop with
  | ended ends calls => exact .ended (.head turn ends) calls
  | called leads place same => exact .called (.head turn leads) place same

theorem stop_down (h : Holds rbtt (plug fs (.node x l r))) (more : lcnt ≠ 0) :
    Stop rbtt (plug fs (.node x l r)) f ⟨lcnt, .walkDown, some x.1, user, calls⟩
      (inorder l ++ x :: (inorder r ++ after fs)) := by
  induction l generalizing x r fs with
  | nil =>
    refine .called (.single ?_) (.right rfl) rfl
    simp [Rbtt.walkTurn, more, node_of h.at, Walk.userCallback]
  | node y l' r' ihl _ =>
    have below : Holds rbtt (plug (⟨false, x, r⟩ :: fs) (.node y l' r')) := h
    have turn : rbtt.walkTurn (some f) .inorder ⟨lcnt, .walkDown, some x.1, user, calls⟩ =
        .ok (.inl ⟨lcnt, .walkDown, some y.1, user, calls⟩) := by
      simp [Rbtt.walkTurn, more, node_of h.at]
    apply Stop.move turn
    simpa [Frame.fill] using ihl below

/-- Whatever its direction was, the walk goes to the parent. -/
theorem stop_up (h : Holds rbtt (plug fs (.node x l r))) (more : lcnt ≠ 0)
    (out : rbtt.walkTurn (some f) .inorder ⟨lcnt, dir, some x.1, user, calls⟩ =
      rbtt.walkOut (some f) .inorder ⟨lcnt, dir, some x.1, user, calls⟩ x.1 ⟨root l, root r, up fs, x.2.1, x.2.2⟩) :
    Stop rbtt (plug fs (.node x l r)) f ⟨lcnt, dir, some x.1, user, calls⟩ (after fs) := by
  induction fs generalizing x l r dir with
  | nil => exact .ended (.done out) rfl
  | cons g fs ih =>
    have apart := h.apart (by simp)
    obtain ⟨n, live, parent, child, other⟩ := h.above
    obtain ⟨l', r', filled⟩ := exists_fill g (.node x l r)
    have above : Holds rbtt (plug fs (.node g.node l' r')) := filled ▸ h
    cases g with
    | mk side y o =>
      cases side with
      | false =>
        have left : n.rbtLeft = some x.1 := child
        have data : n.rbtData = y.2.2 := congrArg RbNode.rbtData (Option.some.inj (live.symm.trans above.at))
        have place : Place (plug fs (.node y (.node x l r) o)) .walkRight y.1 (inorder o ++ after fs) := .right rfl
        refine .called (.single (out.trans ?_)) place rfl
        simp [Rbtt.walkOut, node_of live, left, data, Walk.userCallback]
      | true =>
        have left : n.rbtLeft ≠ some x.1 := fun here => apart (other.symm.trans here)
        have turn : rbtt.walkTurn (some f) .inorder ⟨lcnt, dir, some x.1, user, calls⟩ =
            .ok (.inl ⟨lcnt, .walkUp, some y.1, user, calls⟩) := by
          rw [out]
          simp [Rbtt.walkOut, node_of live, left]
        have again : rbtt.walkTurn (some f) .inorder ⟨lcnt, .walkUp, some y.1, user, calls⟩ =
            rbtt.walkOut (some f) .inorder ⟨lcnt, .walkUp, some y.1, user, calls⟩ y.1
              ⟨root l', root r', up fs, y.2.1, y.2.2⟩ := by
          simp [Rbtt.walkTurn, more, node_of above.at]
        rw [plug_cons, filled, after_right]
        exact Stop.move turn (ih above again)

theorem next_stop (h : Holds rbtt t) (place : Place t dir i rest) (more : lcnt ≠ 0) :
    Stop rbtt t f ⟨lcnt, dir, some i, user, calls⟩ rest := by
  cases place with
  | down same =>
    subst same
    exact stop_down h more
  | @right fs x l r same =>
    subst same
    cases r with
    | nil =>
      rw [inorder_nil, List.nil_append]
      apply stop_up h more
      simp [Rbtt.walkTurn, more, node_of h.at]
    | node y l' r' =>
      have below : Holds rbtt (plug (⟨true, x, l⟩ :: fs) (.node y l' r')) := h
      have turn : rbtt.walkTurn (some f) .inorder ⟨lcnt, .walkRight, some x.1, user, calls⟩ =
          .ok (.inl ⟨lcnt, .walkDown, some y.1, user, calls⟩) := by
        simp [Rbtt.walkTurn, more, node_of h.at]
      apply Stop.move turn
      simpa [Frame.fill] using stop_down below more
  | up same =>
    subst same
    apply stop_up h more
    simp [Rbtt.walkTurn, more, node_of h.at]

/-! ## A call -/

/-- A call visits the first nodes that are left. It returns the last one that it has
visited, or NULL at the end. -/
structure Chunk (rest done later : List (Cell δ)) (res : Option (Cell δ)) : Prop where
  split : rest = done ++ later
  res : res = none ∧ later = [] ∨ res.isSome ∧ done.getLast? = res

theorem walkLoop_spec (h : Holds rbtt t) (place : Place t dir i rest) (more : lcnt ≠ 0) :
    ∃ done later res w, Chunk rest done later res ∧ w.calls = calls ++ dataList done ∧
      Ends .noReturn (rbtt.walkTurn (some f) .inorder) ⟨lcnt, dir, some i, user, calls⟩ (res.map Prod.fst, w) := by
  induction rest generalizing lcnt dir i user calls with
  | nil =>
    have stop : Stop rbtt t f ⟨lcnt, dir, some i, user, calls⟩ [] := next_stop h place more
    cases stop with
    | ended ends same => exact ⟨[], [], none, _, ⟨rfl, .inl ⟨rfl, rfl⟩⟩, by simp [same, dataList], ends⟩
  | cons y rest ih =>
    have stop : Stop rbtt t f ⟨lcnt, dir, some i, user, calls⟩ (y :: rest) := next_stop h place more
    cases stop with
    | @called w₁ _ _ leads place' same =>
      have fields : w₁ = ⟨w₁.lcnt, .walkRight, some y.1, w₁.user, w₁.calls⟩ := by rw [same]
      have called : w₁.calls = calls ++ [y.2.2] := by
        rw [same]
        rfl
      by_cases stops : w₁.lcnt = 0
      · have turn : rbtt.walkTurn (some f) .inorder w₁ = .ok (.inr (some y.1, w₁)) := by
          rw [fields]
          simp [Rbtt.walkTurn, stops]
        exact ⟨[y], rest, some y, w₁, ⟨rfl, .inr ⟨rfl, rfl⟩⟩, called, leads.ends (.done turn)⟩
      · obtain ⟨done, later, res, w, chunk, calls', ends⟩ := @ih _ _ w₁.lcnt w₁.user w₁.calls place' stops
        rw [← fields] at ends
        refine ⟨y :: done, later, res, w, ⟨by rw [chunk.split]; rfl, ?_⟩, ?_, leads.ends ends⟩
        · cases chunk.res with
          | inl finished => exact .inl finished
          | inr last =>
            rw [List.getLast?_cons, last.2]
            refine .inr ⟨last.1, ?_⟩
            cases res with
            | none => cases last.1
            | some z => rfl
        · rw [calls', called]
          simp [dataList]

/-- The nodes that are left for a walk from a node, or from NULL. -/
inductive LeftFrom (t : Cells δ) : Option (Cell δ) → List (Cell δ) → Prop
  | start : LeftFrom t none (inorder t)
  | behind {fs : List (Frame (Cell δ))} {x : Cell δ} {l r : Cells δ} : plug fs (.node x l r) = t →
      LeftFrom t (some x) (inorder r ++ after fs)

theorem walkNode_spec (h : Ordered rbtt t) {o : Option (Cell δ)} (left : LeftFrom t o rest) (f : WalkFn σ δ) (cnt : Int32)
    (user : σ) :
    ∃ done later res w, Chunk rest done later res ∧ w.calls = dataList done ∧
      Returns (rbtt.walkNode (o.map Prod.fst) (some f) cnt .inorder user) (res.map Prod.fst, w) := by
  have valid : rbtt.validateHandle = .ok () := check_of h.magic
  have loop_ {dir : WalkDir} {i : NodeId} (place : Place t dir i rest)
      (begins : rbtt.walkStart (o.map Prod.fst) cnt user = ⟨walkCount cnt, dir, some i, user, []⟩) :
      ∃ done later res w, Chunk rest done later res ∧ w.calls = dataList done ∧
        Returns (rbtt.walkNode (o.map Prod.fst) (some f) cnt .inorder user) (res.map Prod.fst, w) := by
    obtain ⟨done, later, res, w, chunk, calls, ends⟩ :=
      @walkLoop_spec _ _ _ _ _ f _ _ _ user [] h.holds place (walkCount_ne_zero cnt)
    refine ⟨done, later, res, w, chunk, calls, ?_⟩
    apply Returns.bind (.of_ok fun _ => valid)
    rw [begins]
    exact ends
  cases left with
  | behind same => exact loop_ (.right same) rfl
  | start =>
    have begins : rbtt.walkStart none cnt user = ⟨walkCount cnt, .walkDown, root t, user, []⟩ := by
      rw [← h.holds.top]
      rfl
    cases t with
    | nil =>
      refine ⟨[], [], none, ⟨walkCount cnt, .walkDown, none, user, []⟩, ⟨rfl, .inl ⟨rfl, rfl⟩⟩, rfl, ?_⟩
      apply Returns.bind (.of_ok fun _ => valid)
      rw [Option.map_none, begins]
      exact Ends.done rfl
    | node x l r =>
      have place : Place (.node x l r) .walkDown x.1 (inorder l ++ x :: (inorder r ++ after [])) :=
        @Place.down _ _ [] x l r rfl
      rw [after_nil, List.append_nil] at place
      exact loop_ place begins

theorem LeftFrom.sub {o : Option (Cell δ)} (h : LeftFrom t o rest) (mem : x ∈ rest) : x ∈ nodes t := by
  cases h with
  | start => exact mem_inorder.mp mem
  | behind whole =>
    rw [← whole, ← mem_inorder, inorder_plug]
    rw [List.mem_append] at mem
    simp only [inorder_node, List.mem_append, List.mem_cons]
    exact .inr (mem.imp_left fun right => .inr (.inr right))

theorem walk_spec (h : Ordered rbtt t) {data : Option δ} {o : Option (Cell δ)}
    (start : Returns (rbtt.walkFrom data) (o.map Prod.fst)) (left : LeftFrom t o rest)
    (f : WalkFn σ δ) (cnt : Int32) (user : σ) :
    ∃ done later res user', Chunk rest done later res ∧
      Returns (rbtt.stdRbtreeWalk data (some f) cnt .inorder user) (res.map fun x => x.2.2, user', dataList done) := by
  obtain ⟨done, later, res, w, chunk, calls, run⟩ := walkNode_spec h left f cnt user
  have mem (x : Cell δ) (found : res = some x) : x ∈ nodes t := by
    apply left.sub
    cases chunk.res with
    | inl finished => cases finished.1.symm.trans found
    | inr last =>
      rw [chunk.split]
      exact List.mem_append_left _ (List.mem_of_mem_getLast? (last.2.trans found))
  refine ⟨done, later, res, w.user, chunk, ?_⟩
  apply Returns.bind (.of_ok fun _ => check_of h.magic)
  apply Returns.bind start
  apply Returns.bind run
  apply Returns.bind (.of_ok fun _ => dataOf_map h.holds mem)
  exact .of_ok fun _ => by rw [calls]; rfl

/-! ## One call after the other -/

theorem rwalkNode_spec {p : Option NodeId} (linked : Linked rbtt.mem p t) (f : WalkFn σ δ) {fuel : Nat} (user : σ)
    (calls : List δ) (enough : t.height ≤ fuel) :
    rbtt.rwalkNode f fuel (root t) (user, calls) =
      .ok ((stored t).foldl (fun user data => (f data user).2) user, calls ++ stored t) := by
  induction t generalizing p fuel user calls with
  | nil => simp [Rbtt.rwalkNode, stored_eq, dataList]
  | node x l r ihl ihr =>
    obtain ⟨here, left, right⟩ := linked
    rw [BinaryTree.height] at enough
    obtain ⟨fuel, rfl⟩ : ∃ n, fuel = n + 1 := ⟨fuel - 1, by omega⟩
    have runL := fun user calls => ihl left user calls (by omega : l.height ≤ fuel)
    have runR := fun user calls => ihr right user calls (by omega : r.height ≤ fuel)
    simp only [root_node, Rbtt.rwalkNode, node_of here, ok_bind, runL, runR]
    simp [stored_eq, dataList]

/-- `std_rbtree_rwalk` visits all data in their order. -/
theorem rwalk_spec (h : Ordered rbtt t) (f : WalkFn σ δ) (user : σ) :
    ∃ user', Returns (rbtt.stdRbtreeRwalk f user) (user', stored t) := by
  have visits : Returns (fun fuel => rbtt.rwalkNode f fuel rbtt.rbttRoot (user, []))
      ((stored t).foldl (fun user data => (f data user).2) user, stored t) := by
    refine ⟨t.height, fun fuel more => ?_⟩
    rw [h.holds.top]
    exact rwalkNode_spec h.holds.linked f user [] more
  exact ⟨_, Returns.bind (.of_ok fun _ => check_of h.magic) visits⟩

/-- The node where a walk from a datum starts. -/
theorem walkFrom_spec (order : TotalPreorder rbtt.rbttCompare) (h : Ordered rbtt t)
    (distinct : Distinct rbtt.rbttCompare (stored t)) (data : δ) :
    ∃ o : Option (Cell δ), Returns (rbtt.walkFrom (some data)) (o.map Prod.fst) ∧ (∀ x, o = some x → x ∈ nodes t) ∧
      (o.map fun x => x.2.2) = (stored t).find? fun e => rbtt.rbttCompare data e ≤ 0 := by
  have node := nearestNode_spec h true data
  have whole := plug_descend (exactWay rbtt.rbttCompare data) [] t
  rw [plug_nil] at whole
  obtain ⟨a, m, b, cut, next, _⟩ := searches_spec order h distinct data
  have mem (x : Cell δ) (found : nearest true _ _ = some x) : x ∈ nodes t := whole ▸ mem_nearest found
  refine ⟨_, node, mem, ?_⟩
  rw [cut.next order]
  have read : Returns (rbtt.stdRbtreeGetexactornext data) _ := Returns.bind node (.of_ok fun _ => dataOf_map h.holds mem)
  exact read.unique next

theorem stored_nodup (order : TotalPreorder compare) (distinct : Distinct compare (stored t)) : (stored t).Nodup := by
  apply distinct.imp
  intro a b different same
  subst same
  exact different (order.refl a)

/-- Behind a node are the data that are greater. -/
theorem behind_spec (nodup : (stored t).Nodup) (whole : plug fs (.node x l r) = t) :
    (∀ d e : List δ, stored t = d ++ x.2.2 :: e → dataList (inorder r ++ after fs) = e) ∧
      x.2.2 ∉ dataList (inorder r ++ after fs) := by
  have here : stored t = (dataList (before fs) ++ stored l) ++ x.2.2 :: dataList (inorder r ++ after fs) := by
    rw [← whole, stored_plug]
    simp [stored_eq, dataList]
  rw [here, List.nodup_append, List.nodup_cons] at nodup
  constructor
  · intro d e split
    have first : x.2.2 ∉ dataList (before fs) ++ stored l := fun mem => nodup.2.2 _ mem _ List.mem_cons_self rfl
    exact ((List.append_cons_inj_of_notMem first nodup.2.1.1).mp (here.symm.trans split)).2.2
  · exact nodup.2.1.1

/-- A walk from a stored datum starts behind it. -/
theorem resume (order : TotalPreorder rbtt.rbttCompare) (h : Ordered rbtt t)
    (distinct : Distinct rbtt.rbttCompare (stored t)) {data : δ} {a b : List δ} (split : stored t = a ++ data :: b) :
    ∃ o rest, Returns (rbtt.walkFrom (some data)) (o.map Prod.fst) ∧ LeftFrom t o rest ∧ dataList rest = b := by
  obtain ⟨o, start, mem, found⟩ := walkFrom_spec order h distinct data
  have sorted : Ascending rbtt.rbttCompare (stored t) := h.sorted
  have strict := sorted.strictly distinct
  rw [split, List.pairwise_append, List.pairwise_cons] at strict
  obtain ⟨_, ⟨later, _⟩, earlier⟩ := strict
  have self : ((stored t).find? fun e => rbtt.rbttCompare data e ≤ 0) = some data := by
    rw [split, find_split]
    · rfl
    · intro e he
      have less := (order.flip _ _).mp (earlier e he data List.mem_cons_self)
      simpa using less
    · rw [List.forall_mem_cons]
      refine ⟨by simp [order.refl data], ?_⟩
      intro e he
      simpa using Int.le_of_lt (later e he)
  rw [self, Option.map_eq_some_iff] at found
  obtain ⟨x, rfl, same⟩ := found
  obtain ⟨fs, l, r, whole⟩ := exists_plug (mem x rfl)
  refine ⟨some x, _, start, .behind whole.symm, ?_⟩
  exact (behind_spec (stored_nodup order distinct) whole.symm).1 a b (same ▸ split)

/-- Calls of `std_rbtree_walk`, each from the datum that the one before has
returned, up to NULL, with the data that they visit. -/
inductive Session (rbtt : Rbtt δ) : (Nat → Int32 × WalkFn σ δ) → Option δ → σ → List δ → Prop
  | last {call : Nat → Int32 × WalkFn σ δ} {data : Option δ} {user user' : σ} {calls : List δ} :
      Returns (rbtt.stdRbtreeWalk data (some (call 0).2) (call 0).1 .inorder user) (none, user', calls) →
      Session rbtt call data user calls
  | more {call : Nat → Int32 × WalkFn σ δ} {data : Option δ} {user user' : σ} {d : δ} {calls rest : List δ} :
      Returns (rbtt.stdRbtreeWalk data (some (call 0).2) (call 0).1 .inorder user) (some d, user', calls) →
      Session rbtt (fun i => call (i + 1)) (some d) user' rest → Session rbtt call data user (calls ++ rest)

theorem Session.unique {call : Nat → Int32 × WalkFn σ δ} {data : Option δ} {user : σ} {calls calls' : List δ}
    (h : Session rbtt call data user calls) (h' : Session rbtt call data user calls') : calls = calls' := by
  induction h generalizing calls' with
  | last run =>
    cases h' with
    | last run' => exact (Prod.mk.inj (Prod.mk.inj (run.unique run')).2).2
    | more run' _ => cases run.unique run'
  | more run _ ih =>
    cases h' with
    | last run' => cases run.unique run'
    | more run' rest' =>
      cases run.unique run'
      rw [ih rest']

theorem session_spec (order : TotalPreorder rbtt.rbttCompare) (h : Ordered rbtt t)
    (distinct : Distinct rbtt.rbttCompare (stored t)) (call : Nat → Int32 × WalkFn σ δ) {data : Option δ}
    {o : Option (Cell δ)} (user : σ) (start : Returns (rbtt.walkFrom data) (o.map Prod.fst)) (left : LeftFrom t o rest)
    {a : List δ} (split : stored t = a ++ dataList rest) : Session rbtt call data user (dataList rest) := by
  induction len : rest.length using Nat.strongRecOn generalizing rest call data o user a with
  | ind n ih =>
    obtain ⟨done, later, res, user', chunk, run⟩ := walk_spec h start left (call 0).2 (call 0).1 user
    obtain rfl := chunk.split
    cases chunk.res with
    | inl finished =>
      obtain ⟨rfl, rfl⟩ := finished
      rw [List.append_nil]
      exact .last run
    | inr last =>
      obtain ⟨y, rfl⟩ := Option.isSome_iff_exists.mp last.1
      obtain ⟨first, rfl⟩ := List.getLast?_eq_some_iff.mp last.2
      have parts : stored t = (a ++ dataList first) ++ y.2.2 :: dataList later := by
        rw [split]
        simp [dataList]
      obtain ⟨o', rest', start', left', same⟩ := resume order h distinct parts
      have whole : stored t = (a ++ dataList (first ++ [y])) ++ dataList rest' := by
        rw [parts, same]
        simp [dataList]
      have shorter : rest'.length < n := by
        have lengths := congrArg List.length same
        simp only [dataList, List.length_map] at lengths
        simp at len
        omega
      have following := ih rest'.length shorter (fun i => call (i + 1)) user' start' left' whole rfl
      have both : dataList (first ++ [y] ++ later) = dataList (first ++ [y]) ++ dataList rest' := by
        rw [same]
        simp [dataList]
      rw [both]
      exact .more run following

/-- A walk from NULL in calls with any counts, whatever `walk_fn` returns, visits the
data that `std_rbtree_rwalk` visits: all of them, in their order. -/
theorem chunked_walk {calls : List (Call δ)} (order : TotalPreorder compare)
    (run : Run Step (stdRbtreeCreate compare) calls rbtt) :
    ∃ t, Holds rbtt t ∧ (stored t ++ calls.flatMap Call.taken).Perm (calls.flatMap Call.given) ∧
      Ascending compare (stored t) ∧
      (Distinct compare (stored t) → ∀ {σ : Type} (call : Nat → Int32 × WalkFn σ δ) (f : WalkFn σ δ) (user : σ),
        (∃ user', Returns (rbtt.stdRbtreeRwalk f user) (user', stored t)) ∧
        Session rbtt call none user (stored t) ∧
        ∀ visited, Session rbtt call none user visited → visited = stored t) := by
  obtain ⟨t, sound, rfl, perm⟩ := run_sound order run
  refine ⟨t, sound.holds, perm, sound.sorted, ?_⟩
  intro distinct σ call f user
  have start : Returns (rbtt.walkFrom none) ((none : Option (Cell δ)).map Prod.fst) := .of_ok fun _ => rfl
  have session : Session rbtt call none user (stored t) := by
    have whole : stored t = [] ++ dataList (inorder t) := stored_eq t
    rw [stored_eq]
    exact session_spec order sound.toOrdered distinct call user start .start whole
  exact ⟨rwalk_spec sound.toOrdered f user, session, fun visited other => other.unique session⟩

/-- Two data a call. -/
theorem chunked_walk_ul : ∃ (rbtt : Rbtt (UInt64 × Nat)) (t : Cells (UInt64 × Nat)), Holds rbtt t ∧
    (stored t).Perm [(4, 0), (9, 1), (2, 2)] ∧
      Session rbtt (fun _ => (2, fun _ (user : Unit) => (0, user))) none () (stored t) := by
  have order : TotalPreorder (Rbtt.stdRbtreeCompareUl (Prod.fst : UInt64 × Nat → UInt64)) := totalPreorder_threeWay _
  obtain ⟨rbtt, run⟩ := exists_run_insert order [(4, 0), (9, 1), (2, 2)]
  obtain ⟨t, holds, perm, _, walks⟩ := chunked_walk order run
  have three : (stored t).Perm [(4, 0), (9, 1), (2, 2)] := by simpa [Call.taken, Call.given] using perm
  have distinct := Distinct.of_perm order three (by unfold Distinct; decide)
  exact ⟨rbtt, t, holds, three, (walks distinct _ (fun _ user => (0, user)) ()).2.1⟩

/-! ## A walk from a datum -/

/-- The nodes that are left for a walk from a datum, and where it starts. -/
theorem walkFrom_left (order : TotalPreorder rbtt.rbttCompare) (h : Ordered rbtt t)
    (distinct : Distinct rbtt.rbttCompare (stored t)) (data : δ) :
    ∃ o rest, Returns (rbtt.walkFrom (some data)) (o.map Prod.fst) ∧ LeftFrom t o rest ∧
      (o.map fun x => x.2.2) = ((stored t).find? fun e => rbtt.rbttCompare data e ≤ 0) ∧
      ∀ x, o = some x → x.2.2 ∉ dataList rest := by
  obtain ⟨o, start, mem, found⟩ := walkFrom_spec order h distinct data
  cases o with
  | none => exact ⟨none, _, start, .start, found, by simp⟩
  | some x =>
    obtain ⟨fs, l, r, whole⟩ := exists_plug (mem x rfl)
    refine ⟨some x, _, start, .behind whole.symm, found, ?_⟩
    intro y same
    obtain rfl := Option.some.inj same
    exact (behind_spec (stored_nodup order distinct) whole.symm).2

/-- The walk leaves out the first datum of those that it is asked for, or it visits
data that it is not asked for. -/
theorem walk_from_misses (order : TotalPreorder rbtt.rbttCompare) (h : Ordered rbtt t)
    (distinct : Distinct rbtt.rbttCompare (stored t)) {f : WalkFn σ δ} {user user' : σ} {data : δ} {res : Option δ}
    (walk : Returns (rbtt.stdRbtreeWalk (some data) (some f) 0 .inorder user)
      (res, user', (stored t).filter fun e => rbtt.rbttCompare data e ≤ 0)) : stored t = [] := by
  obtain ⟨o, rest, start, left, found, lacks⟩ := walkFrom_left order h distinct data
  obtain ⟨done, later, res', user'', chunk, walk'⟩ := walk_spec h start left f 0 user
  have visited : dataList done = (stored t).filter fun e => rbtt.rbttCompare data e ≤ 0 :=
    (Prod.mk.inj (Prod.mk.inj (walk'.unique walk)).2).2
  cases o with
  | some x =>
    have least : ((stored t).find? fun e => rbtt.rbttCompare data e ≤ 0) = some x.2.2 := found.symm
    have first : x.2.2 ∈ dataList done := by
      rw [visited, List.mem_filter]
      exact ⟨List.mem_of_find?_eq_some least, @List.find?_some _ (fun e => rbtt.rbttCompare data e ≤ 0) _ _ least⟩
    refine absurd ?_ (lacks x rfl)
    rw [chunk.split, dataList, List.map_append]
    exact List.mem_append_left _ first
  | none =>
    have nothing : ((stored t).find? fun e => rbtt.rbttCompare data e ≤ 0) = none := found.symm
    rw [List.find?_eq_none] at nothing
    rw [List.filter_eq_nil_iff.mpr nothing] at visited
    have none_ : done = [] := List.map_eq_nil_iff.mp visited
    subst none_
    cases left with
    | start =>
      cases chunk.res with
      | inl finished =>
        have all := chunk.split
        rw [finished.2] at all
        rw [stored_eq, all]
        rfl
      | inr last =>
        rw [← last.2] at last
        cases last.1

theorem walk_from_nothing (order : TotalPreorder rbtt.rbttCompare) (h : Ordered rbtt t)
    (distinct : Distinct rbtt.rbttCompare (stored t)) (empty : stored t = []) (f : WalkFn σ δ) (user : σ) (data : δ) :
    ∃ res user', Returns (rbtt.stdRbtreeWalk (some data) (some f) 0 .inorder user) (res, user', []) := by
  obtain ⟨o, rest, start, left, _⟩ := walkFrom_left order h distinct data
  obtain ⟨done, later, res, user', chunk, walk⟩ := walk_spec h start left f 0 user
  have none_ : rest = [] := by
    rw [stored_eq, dataList, List.map_eq_nil_iff] at empty
    rw [List.eq_nil_iff_forall_not_mem]
    intro x hx
    have inside := mem_inorder.mpr (left.sub hx)
    rw [empty] at inside
    cases inside
  have parts := chunk.split
  rw [none_] at parts
  rw [(List.append_eq_nil_iff.mp parts.symm).1] at walk
  exact ⟨_, user', walk⟩

/-- A `walk_fn` that always returns 0 is called with just the data from `data` on only
if no data are stored. -/
theorem walk_from_iff {calls : List (Call δ)} (order : TotalPreorder compare)
    (run : Run Step (stdRbtreeCreate compare) calls rbtt) :
    ∃ t, Holds rbtt t ∧ (stored t ++ calls.flatMap Call.taken).Perm (calls.flatMap Call.given) ∧
      (Distinct compare (stored t) → ∀ {σ : Type} (f : WalkFn σ δ) (user : σ) (data : δ), (∀ d s, (f d s).1 = 0) →
        ((∃ res user', Returns (rbtt.stdRbtreeWalk (some data) (some f) 0 .inorder user)
            (res, user', (stored t).filter fun e => compare data e ≤ 0)) ↔ stored t = [])) := by
  obtain ⟨t, sound, rfl, perm⟩ := run_sound order run
  refine ⟨t, sound.holds, perm, ?_⟩
  intro distinct σ f user data _
  constructor
  · intro ⟨res, user', walk⟩
    exact walk_from_misses order sound.toOrdered distinct walk
  · intro empty
    have walk := walk_from_nothing order sound.toOrdered distinct empty f user data
    rw [empty]
    exact walk

theorem walk_from_iff_ul : ∃ (rbtt : Rbtt (UInt64 × Nat)) (t : Cells (UInt64 × Nat)), Holds rbtt t ∧
    ((∃ res user', Returns (rbtt.stdRbtreeWalk (some (3, 0)) (some fun _ (user : Unit) => (0, user)) 0 .inorder ())
        (res, user', (stored t).filter fun e => Rbtt.stdRbtreeCompareUl Prod.fst (3, 0) e ≤ 0)) ↔ stored t = []) := by
  have order : TotalPreorder (Rbtt.stdRbtreeCompareUl (Prod.fst : UInt64 × Nat → UInt64)) := totalPreorder_threeWay _
  obtain ⟨rbtt, run⟩ := exists_run_insert order [(4, 0), (9, 1), (2, 2)]
  obtain ⟨t, holds, perm, visits⟩ := walk_from_iff order run
  have three : (stored t).Perm [(4, 0), (9, 1), (2, 2)] := by simpa [Call.taken, Call.given] using perm
  have distinct := Distinct.of_perm order three (by unfold Distinct; decide)
  exact ⟨rbtt, t, holds, visits distinct _ () (3, 0) fun _ _ => rfl⟩

/-- A walk from 4 on does not visit just 4 and 9. -/
theorem walk_from_four : ∃ (rbtt : Rbtt (UInt64 × Nat)) (t : Cells (UInt64 × Nat)),
    Run Step (stdRbtreeCreate (Rbtt.stdRbtreeCompareUl Prod.fst))
      [.insert (4, 0) true, .insert (9, 1) true, .insert (2, 2) true] rbtt ∧ Holds rbtt t ∧
      (stored t).Perm [(4, 0), (9, 1), (2, 2)] ∧
      ¬∃ res user', Returns (rbtt.stdRbtreeWalk (some (4, 0)) (some fun _ (user : Unit) => (0, user)) 0 .inorder ())
        (res, user', (stored t).filter fun e => Rbtt.stdRbtreeCompareUl Prod.fst (4, 0) e ≤ 0) := by
  have order : TotalPreorder (Rbtt.stdRbtreeCompareUl (Prod.fst : UInt64 × Nat → UInt64)) := totalPreorder_threeWay _
  obtain ⟨rbtt, run⟩ := exists_run_insert order [(4, 0), (9, 1), (2, 2)]
  obtain ⟨t, sound, compare_, perm⟩ := run_sound order run
  have three : (stored t).Perm [(4, 0), (9, 1), (2, 2)] := by simpa [Call.taken, Call.given] using perm
  have distinct := Distinct.of_perm order three (by unfold Distinct; decide)
  refine ⟨rbtt, t, run, sound.holds, three, ?_⟩
  rintro ⟨res, user', walk⟩
  rw [← compare_] at order distinct walk
  have empty := walk_from_misses order sound.toOrdered distinct walk
  rw [empty] at three
  cases three.length_eq

end SonicUtils.RbTree
