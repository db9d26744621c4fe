import SonicUtils.Radix.Next
import SonicUtils.Radix.Walk

/-!
# The preorder as a list

A node of the table is a place in the list of all nodes in preorder, and what
the walks do from there depends on the rest of the list.

* `preorderNext_at`: the next node;
* `nextHead_at`: the next head;
* `getnext_bound`: `std_radix_getnext` from the prefix of a head.
-/

namespace SonicUtils.Radix

open PtrTree BitTrie Loop

variable {rtt : Rtt} {t : RtTree} {fs : List (Frame (Node NodeId HeadId))} {x : Node NodeId HeadId}
  {l r : RtTree} {pre post : List (Node NodeId HeadId)}

/-- The heads of nodes, in their order. -/
def headsOf (xs : List (Node NodeId HeadId)) : List HeadId := (xs.flatMap own).map Prod.snd

@[simp] theorem headsOf_nil : headsOf [] = [] := rfl

theorem headsOf_append (xs ys : List (Node NodeId HeadId)) :
    headsOf (xs ++ ys) = headsOf xs ++ headsOf ys := by
  simp [headsOf]

theorem headsOf_cons (x : Node NodeId HeadId) (xs : List (Node NodeId HeadId)) :
    headsOf (x :: xs) = x.2.val.toList ++ headsOf xs := by
  cases hv : x.2.val <;> simp [headsOf, own, hv]

theorem headsOf_nodes (t : RtTree) : headsOf (nodes t) = (entries t).map Prod.snd := by
  rw [headsOf, ← entries_eq_flatMap]

/-! ## The next node -/

theorem RightOf.first_after {res : Option NodeId} (h : RightOf (fun _ => false) fs res) :
    res = (nodesAfter fs).head?.map Prod.fst := by
  have skip {gs : List (Frame (Node NodeId HeadId))} (all : ∀ g ∈ gs, Passed (fun _ => false) g)
      (fs' : List (Frame (Node NodeId HeadId))) : nodesAfter (gs ++ fs') = nodesAfter fs' := by
    induction gs with
    | nil => rfl
    | cons g gs ih =>
      obtain ⟨here, rest⟩ := List.forall_mem_cons.mp all
      rw [List.cons_append, nodesAfter, ih rest]
      rcases here with up | right | none
      · cases up
      · simp [right]
      · simp [none]
  cases h with
  | out all =>
    have none := skip all []
    rw [List.append_nil] at none
    simp [none]
  | «at» gs f fs' split all _ side full =>
    rw [split, skip all, nodesAfter, side]
    cases child : f.other with
    | nil => exact absurd child full
    | node z zl zr => rfl

/-- **The next node of the preorder.** -/
theorem preorderNext_at (rep : Represents rtt t) (ready : Ready rtt)
    (place : nodes t = pre ++ x :: post) :
    rtt.preorderNext x.1 = .ok (post.head?.map Prod.fst) := by
  obtain ⟨fs, l, r, rfl, rfl⟩ := exists_plug_split place
  have deep := rep.depth ready
  have short := length_add_height fs (.node x l r)
  obtain ⟨res, run, next⟩ := preorderNext_spec rep.linked rep.distinct (by omega)
  rw [run]
  cases l with
  | node z zl zr =>
    obtain rfl : res = some z.1 := next
    rfl
  | nil =>
    cases r with
    | node z zl zr =>
      obtain rfl : res = some z.1 := next
      rfl
    | nil =>
      have first := RightOf.first_after next
      simp [first]

/-- **The next head of the preorder.** -/
theorem nextHead_at (rep : Represents rtt t) (ready : Ready rtt)
    (place : nodes t = pre ++ x :: post) :
    (rtt.preorderNext x.1 >>= rthFrom rtt) = .ok (headsOf post).head? := by
  rw [preorderNext_at rep ready place, ok_bind]
  cases post with
  | nil => rfl
  | cons z post =>
    have place' : nodes t = (pre ++ [x]) ++ z :: post := by simp [place]
    obtain ⟨fs, l, r, same, rfl⟩ := exists_plug_split place'
    have here : rthFrom rtt (some z.1) = _ := firstRth_at rep ready same
    have below : Trie (stemAbove fs) (.node z l r) := (trie_plug.mp (same ▸ rep.trie)).1
    obtain ⟨e, es, list⟩ := List.exists_cons_of_ne_nil (below.entries_ne_nil (by simp))
    have first : headsOf (z :: (nodes l ++ nodes r ++ nodesAfter fs)) =
        (entries (.node z l r)).map Prod.snd ++ headsOf (nodesAfter fs) := by
      rw [← headsOf_nodes, ← headsOf_append]
      simp
    show rthFrom rtt (some z.1) = _
    rw [here, first, list]
    rfl

/-! ## The next head after a head -/

/-- From the prefix of a head, whatever comes after it in the address, the search
ends at the node of the head. -/
theorem nextStart_bound {ap : Addr} {h : HeadId} {root : Node NodeId HeadId} {rl rr : RtTree}
    (rep : Represents rtt (.node root rl rr)) (ready : Ready rtt)
    (hx : x ∈ nodes (.node root rl rr)) (val : x.2.val = some h)
    (key : ap.bits x.2.stem.length = x.2.stem) :
    nextStart rtt ap x.2.stem.length root.1 = rtt.preorderNext x.1 := by
  obtain ⟨fs, y, yl, yr, n, h', his, d, run, live, holds, val', headAddr, diff, search⟩ :=
    search_spec ap rep ready (rep.bounded x hx)
  have covers : Covers x.2.stem ap.bit := (covers_iff ap _).mpr key
  have bound : (x.2.stem, h) ∈ entries (.node root rl rr) :=
    mem_entries.mpr ⟨x, hx, mem_own.mpr ⟨val, rfl⟩⟩
  have whole := search.same
  obtain ⟨below, above⟩ := search.parts rep.trie
  have own_y : (x.2.stem, h) ∈ own y := by
    rcases on_path above search.follows covers (whole ▸ bound) with ⟨f, hf, mem⟩ | inside
    · obtain ⟨head, stem⟩ := mem_own.mp mem
      rcases search.passed f hf with short | none
      · simp [stem] at short
      · simp [none] at head
    · exact own_of_covers below search.stopped covers (Nat.le_refl _) inside
  obtain ⟨val_y, stem⟩ := mem_own.mp own_y
  obtain ⟨_, _, att⟩ := rep.linked.holds hx
  obtain ⟨_, _, att'⟩ := rep.linked.holds (whole ▸ mem_nodes_plug.mpr (.inl (by simp)) : y ∈ nodes _)
  have same : y.1 = x.1 := by
    have place := (att h val).1
    rw [(att' h val_y).1] at place
    exact Option.some.inj place
  have bit := holds.bit
  rw [stem] at bit
  have together : d ≥ min n.rtnBit x.2.stem.length := by
    by_contra part
    have inside : d < x.2.stem.length := by omega
    have theirs := search.key
    rw [stem] at theirs
    apply search.differ (by rw [stem]; omega)
    rw [← covers d inside, ← theirs d inside]
  simp only [nextStart, run, ok_bind, node_of live, holds.rth, val', deref_some, headAddr, diff]
  rw [if_pos together, if_pos bit.le, same]

/-- **From one head to the next.** The address is any one with the prefix of the
head. -/
theorem getnext_bound {ap : Addr} {h : HeadId} (rep : Represents rtt t) (ready : Ready rtt)
    (raw : rtt.rttConvert = none)
    (place : nodes t = pre ++ x :: post) (val : x.2.val = some h)
    (key : ap.bits x.2.stem.length = x.2.stem) :
    stdRadixGetnext rtt (some ap) x.2.stem.length = .ok ((headsOf post).head?, rtt) := by
  have hx : x ∈ nodes t := by simp [place]
  have valid := rep.bounded x hx
  have checked : ¬ (rtt.rttDebug = true ∧ x.2.stem.length > rtt.rttMaxaddrlen) := by omega
  have next := nextHead_at rep ready place
  cases t with
  | nil => simp at hx
  | node root rl rr =>
    have start := nextStart_bound rep ready hx val key
    unfold stdRadixGetnext
    simp only [convertKey_none raw, ready.validate, ok_bind, if_neg checked, rep.root_node, start]
    rw [← bind_assoc, next]
    rfl

/-! ## The iteration of `std_radix_getnext` -/

/-- The address of every head starts with the prefix that it is bound to. -/
def Addressed (rtt : Rtt) (t : RtTree) : Prop :=
  ∀ e ∈ entries t, ∃ ap, (rtt.heads e.2).rthAddr = some ap ∧ ap.bits e.1.length = e.1

/-- One turn, from the head of `x`. -/
theorem iterateTurn_at {h : HeadId} (rep : Represents rtt t) (ready : Ready rtt)
    (raw : rtt.rttConvert = none) (addressed : Addressed rtt t) (place : nodes t = pre ++ x :: post) (val : x.2.val = some h)
    (calls : List HeadId) :
    iterateTurn (some h, calls, rtt) = .ok (.inl ((headsOf post).head?, calls ++ [h], rtt)) := by
  have hx : x ∈ nodes t := by simp [place]
  obtain ⟨_, ⟨n, live, holds⟩, att⟩ := rep.linked.holds hx
  obtain ⟨ap, addr, key⟩ := addressed (x.2.stem, h) (mem_entries.mpr ⟨x, hx, mem_own.mpr ⟨val, rfl⟩⟩)
  have next := getnext_bound rep ready raw place val key
  have home : (rtt.heads h).rthRtn = some x.1 := (att h val).1
  simp only [iterateTurn, home, deref_some, ok_bind, node_of live, addr, holds.bit, next, pure_eq_ok]

/-- From the first head of a rest of the preorder the iteration goes on to all of
them. -/
theorem iterate_from (rep : Represents rtt t) (ready : Ready rtt) (raw : rtt.rttConvert = none) (addressed : Addressed rtt t)
    (place : nodes t = pre ++ post) (calls : List HeadId) :
    Ends .noReturn iterateTurn ((headsOf post).head?, calls, rtt) (calls ++ headsOf post) := by
  induction post generalizing pre calls with
  | nil => exact .done (by simp [iterateTurn])
  | cons x post ih =>
    have rest := @ih (pre ++ [x]) (by simp [place])
    rw [headsOf_cons]
    cases val : x.2.val with
    | none => exact rest calls
    | some h =>
      have turn := iterateTurn_at rep ready raw addressed place val calls
      simpa using Ends.head turn (rest (calls ++ [h]))

theorem iterateGetnext_spec (rep : Represents rtt t) (ready : Ready rtt)
    (raw : rtt.rttConvert = none) (addressed : Addressed rtt t) {bitlen : Nat} (valid : bitlen ≤ rtt.rttMaxaddrlen) :
    Returns (iterateGetnext rtt bitlen) ((entries t).map Prod.snd) := by
  have first := getnext_first rep ready valid
  have whole : nodes t = [] ++ nodes t := rfl
  have all := iterate_from rep ready raw addressed whole []
  rw [headsOf_nodes, List.head?_map] at all
  obtain ⟨enough, run⟩ := all
  refine ⟨enough, fun fuel more => ?_⟩
  rw [iterateGetnext, first, ok_bind]
  exact run fuel more

/-! ## The power walk of a subtree -/

section PowerWalk

variable {above : List (Frame (Node NodeId HeadId))} {s : RtTree} {top : NodeId}

/-- The climb of the power walk ends to the right of the way up, or at the top. -/
theorem powerClimb_spec (fuel : Nat) (fs : List (Frame (Node NodeId HeadId)))
    (x : Node NodeId HeadId) (l r : RtTree) (linked : Linked rtt.mem none (plug (fs ++ above) (.node x l r)))
    (distinct : (ids (plug (fs ++ above) (.node x l r))).Nodup) (enough : fs.length < fuel)
    (root : PtrTree.root (plug fs (.node x l r)) = some top) :
    powerClimb rtt top fuel x.1 = .ok (((nodesAfter fs).head?.map Prod.fst).getD top) := by
  induction fuel generalizing fs x l r with
  | zero => omega
  | succ fuel ih =>
    cases fs with
    | nil =>
      obtain rfl : x.1 = top := by simpa using root
      simp [powerClimb]
    | cons f fs =>
      obtain ⟨⟨n, live, holds⟩, _⟩ := holds_at linked
      obtain ⟨p, plive, pholds⟩ := holds_above linked
      have parent : n.rtnParent = some f.node.1 := holds.parent
      have below : x.1 ≠ top := by
        obtain ⟨g, hg, rfl⟩ := root_above root
        have up : g.node ∈ nodesAbove (f :: fs ++ above) :=
          List.mem_flatMap.mpr ⟨g, List.mem_append_left _ hg, by simp⟩
        exact (others_apart distinct (.inr (.inr up))).symm
      obtain ⟨l₁, r₁, fill⟩ := exists_fill f (.node x l r)
      rw [plug_cons, fill] at root
      have up := ih fs f.node l₁ r₁ (fill ▸ linked) (fill ▸ distinct) (by simpa using enough) root
      have turn : powerClimb rtt top (fuel + 1) x.1 = p.rtnRight.elim (powerClimb rtt top fuel f.node.1)
          fun right => if right = x.1 then powerClimb rtt top fuel f.node.1 else .ok right := by
        cases right : p.rtnRight with
        | none => simp only [powerClimb, if_neg below, node_of live, ok_bind, parent, node_of plive, right, Option.elim]
        | some child =>
          simp only [powerClimb, if_neg below, node_of live, ok_bind, parent, node_of plive, right, pure_eq_ok, Option.elim]
      rw [turn, nodesAfter]
      cases side : f.side with
      | true =>
        have right : p.rtnRight = some x.1 := by
          have at_right := pholds.right
          simpa [Frame.links, side] using at_right
        simp [right, up]
      | false =>
        have right : p.rtnRight = PtrTree.root f.other := by
          have at_right := pholds.right
          simpa [Frame.links, side] using at_right
        cases child : f.other with
        | nil => simp [right, child, up]
        | node z zl zr =>
          have apart : z.1 ≠ x.1 := others_apart distinct (.inr (.inr (by simp [child])))
          simp [right, child, apart]

/-- One step of the power walk: to the next node, or back to the top. -/
theorem powerNext_at (rep : Represents rtt (plug above s)) (settled : Settled rtt)
    (place : nodes s = pre ++ x :: post) (root : PtrTree.root s = some top) :
    powerNext rtt top x.1 = .ok ((post.head?.map Prod.fst).getD top) := by
  obtain ⟨fs, l, r, rfl, rfl⟩ := exists_plug_split place
  rw [← plug_append] at rep
  have deep := rep.depth settled.ready
  have short := length_add_height (fs ++ above) (.node x l r)
  rw [List.length_append] at short
  obtain ⟨⟨n, live, holds⟩, _⟩ := holds_at rep.linked
  have left := holds.left
  have right := holds.right
  cases l with
  | node z zl zr => simp [powerNext, node_of live, left]
  | nil =>
    cases r with
    | node z zl zr => simp [powerNext, node_of live, left, right]
    | nil =>
      have climb := powerClimb_spec Rtt.pathFuel fs x .nil .nil rep.linked rep.distinct (by omega) root
      simp [powerNext, node_of live, left, right, climb]

/-- The top is the first node of the preorder, and comes only once. -/
theorem top_first {z : Node NodeId HeadId} (distinct : (ids (plug above s)).Nodup)
    (root : PtrTree.root s = some top) (place : nodes s = pre ++ x :: z :: post) : z.1 ≠ top := by
  have split : ids (plug above s) = (nodesBefore above).map Prod.fst ++
      ((pre ++ [x]).map Prod.fst ++ (z.1 :: post.map Prod.fst ++ (nodesAfter above).map Prod.fst)) := by
    simp [ids, nodes_plug_eq, place]
  rw [split] at distinct
  have apart := (List.nodup_append.mp (List.nodup_append.mp distinct).2.1).2.2
  have first : top ∈ (pre ++ [x]).map Prod.fst := by
    cases s with
    | nil => simp at place
    | node y yl yr =>
      have here : y.1 = top := Option.some.inj root
      cases pre with
      | nil =>
        obtain ⟨rfl, _⟩ := List.cons.inj place
        simp [here]
      | cons w pre =>
        obtain ⟨rfl, _⟩ := List.cons.inj place
        simp [here]
  exact fun same => apart top first z.1 (by simp) same.symm

theorem powerTurn_at (rep : Represents rtt (plug above s)) (settled : Settled rtt)
    (place : nodes s = pre ++ x :: post) (root : PtrTree.root s = some top) (calls : List HeadId) :
    powerTurn rtt top (x.1, calls) =
      match post with
      | [] => .ok (.inr (calls ++ x.2.val.toList))
      | z :: _ => .ok (.inl (z.1, calls ++ x.2.val.toList)) := by
  have hx : x ∈ nodes (plug above s) := mem_nodes_plug.mpr (.inl (by simp [place]))
  obtain ⟨_, ⟨n, live, holds⟩, _⟩ := rep.linked.holds hx
  have calm := settled.not_marked live
  have next := powerNext_at rep settled place root
  simp only [powerTurn, node_of live, ok_bind, next, holds.rth, calm, pure_eq_ok]
  cases post with
  | nil => cases x.2.val <;> simp
  | cons z post =>
    have apart := top_first rep.distinct root place
    cases x.2.val <;> simp [apart]

/-- From a node of the preorder the power walk goes on to all heads from there on. -/
theorem power_from (rep : Represents rtt (plug above s)) (settled : Settled rtt)
    (root : PtrTree.root s = some top) (place : nodes s = pre ++ x :: post) (calls : List HeadId) :
    Ends .noReturn (powerTurn rtt top) (x.1, calls) (calls ++ headsOf (x :: post)) := by
  induction post generalizing pre x calls with
  | nil =>
    have turn := powerTurn_at rep settled place root calls
    rw [headsOf_cons, headsOf_nil, List.append_nil]
    exact .done turn
  | cons z post ih =>
    have turn := powerTurn_at rep settled place root calls
    have rest := @ih z (pre ++ [x]) (by simp [place]) (calls ++ x.2.val.toList)
    rw [headsOf_cons, ← List.append_assoc]
    exact .head turn rest

/-- **A power walk** from the root of a subtree lists the heads of the subtree. -/
theorem powerWalk_at (rep : Represents rtt (plug above s)) (settled : Settled rtt) :
    Returns (powerWalk rtt (PtrTree.root s) (PtrTree.root s)) ((entries s).map Prod.snd) := by
  cases s with
  | nil => exact ⟨0, fun _ _ => by simp [powerWalk]⟩
  | node x l r =>
    have root : PtrTree.root (.node x l r) = some x.1 := rfl
    have whole : nodes (.node x l r) = [] ++ x :: (nodes l ++ nodes r) := rfl
    obtain ⟨enough, run⟩ := power_from rep settled root whole []
    refine ⟨enough, fun fuel more => ?_⟩
    have here : inSubtree rtt x.1 Rtt.pathFuel (some x.1) = .ok true := by
      simp [Rtt.pathFuel, inSubtree]
    rw [root, ← headsOf_nodes]
    simp only [powerWalk, here, ok_bind, if_true]
    exact run fuel more

end PowerWalk

theorem powerWalk_spec (rep : Represents rtt t) (settled : Settled rtt) :
    Returns (powerWalk rtt rtt.rttRoot rtt.rttRoot) ((entries t).map Prod.snd) := by
  have whole : Represents rtt (plug [] t) := rep
  have walk := powerWalk_at whole settled
  rwa [← rep.root] at walk

end SonicUtils.Radix
