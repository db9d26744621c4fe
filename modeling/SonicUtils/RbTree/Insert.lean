import SonicUtils.RbTree.Memory

/-!
# Balance after an insertion

`std_rbtree_balanceoninsert` on the tree that the table holds. The loop moves a
red node up, below which all is well, until its parent is black.

* `insertTurn_red`, `insertTurn_black`: what one turn does, by the colour of the
  uncle;
* `balanceoninsert_spec`: the tree is a red-black tree again.
-/

namespace SonicUtils.RbTree

open PtrTree RedBlack Loop

variable {δ : Type} {rbtt rbtt' : Rbtt δ} {x p g y : Cell δ} {l r o u ul ur : Cells δ} {fs : List (Frame (Cell δ))}
  {f : Frame (Cell δ)} {t : Cells δ} {n : Nat} {b b' : Bool}

theorem Holds.not_top (h : Holds rbtt (plug (f :: fs) (.node x l r))) : rbtt.rbttRoot ≠ some x.1 := by
  intro top
  obtain ⟨g, mem, same⟩ := root_above (h.top.symm.trans top)
  apply (others_of h.distinct).2.2
  rw [← same]
  apply List.mem_map_of_mem
  exact List.mem_flatMap.mpr ⟨g, mem, List.mem_cons_self⟩

/-- A red tree below whose root all is well. -/
structure RedAt (rbtt : Rbtt δ) (fs : List (Frame (Cell δ))) (x : Cell δ) (l r : Cells δ) (n : Nat) : Prop where
  holds : Holds rbtt (plug fs (.node x l r))
  nil : rbtt.nil.rbtColor = .black
  here : x.color = .red
  left : Rb Cell.color .black n l
  right : Rb Cell.color .black n r
  above : RbAbove Cell.color .black n fs

theorem insertTurn_top (h : Holds rbtt (.node x l r)) : Rbtt.insertTurn (rbtt, x.1) = .ok (.inr rbtt) := by
  have top : rbtt.rbttRoot = some x.1 := h.top
  simp [Rbtt.insertTurn, top]

theorem insertTurn_stop (h : Holds rbtt (plug (f :: fs) (.node x l r))) (black : f.node.color = .black) :
    Rbtt.insertTurn (rbtt, x.1) = .ok (.inr rbtt) := by
  have parent := h.parentNode
  have color : rbtt.color (some f.node.1) = .ok .black := by
    rw [← black]
    exact Holds.color_frame h
  simp [Rbtt.insertTurn, h.not_top, parent, color]

theorem color_eq {c : Color} (h : Holds rbtt (plug fs (.node x l r))) (here : x.color = c) :
    rbtt.color (some x.1) = .ok c := here ▸ h.color_at

theorem color_frame_eq {c : Color} (h : Holds rbtt (plug (f :: fs) t)) (here : f.node.color = c) :
    rbtt.color (some f.node.1) = .ok c := here ▸ h.color_frame

/-- The uncle is red. -/
theorem insertTurn_red (h : Holds rbtt (plug (⟨b, p, o⟩ :: ⟨b', g, .node y ul ur⟩ :: fs) (.node x l r)))
    (red : p.color = .red) (uncle : y.color = .red) :
    ∃ rbtt', Rbtt.insertTurn (rbtt, x.1) = .ok (.inl (rbtt', g.1)) ∧
      Reshaped rbtt (plug (⟨b, p, o⟩ :: ⟨b', g, .node y ul ur⟩ :: fs) (.node x l r)) rbtt'
        (plug (⟨b, p.paint .black, o⟩ :: ⟨b', g.paint .red, .node (y.paint .black) ul ur⟩ :: fs) (.node x l r)) := by
  -- the same tree, seen from the grandparent
  have outer : Holds rbtt (plug (⟨b', g, .node y ul ur⟩ :: fs) (Frame.fill ⟨b, p, o⟩ (.node x l r))) := h
  obtain ⟨r₁, run₁, h₁⟩ := setColor_frame h .black
  have outer₁ : Holds r₁ (plug (⟨b', g, .node y ul ur⟩ :: fs) (Frame.fill ⟨b, p.paint .black, o⟩ (.node x l r))) := h₁.holds
  obtain ⟨r₂, run₂, h₂⟩ := setColor_other outer₁ .black
  obtain ⟨r₃, run₃, h₃⟩ := setColor_frame h₂.holds .red
  refine ⟨r₃, ?_, h₁.trans (h₂.trans h₃)⟩
  have parentRed := color_frame_eq h red
  have uncleRed := color_eq outer.flip uncle
  have side := outer.side (outer.apart (fill_ne_nil _ _))
  have sibling := outer.sibling
  rw [root_fill] at side
  simp only [Rbtt.insertTurn, if_neg h.not_top, h.parentNode, ok_bind, parentRed, h.parentNode_frame, side, sibling,
    root_node, uncleRed, Rbtt.insertRed, run₁, run₂, run₃]
  rfl

/-- An outer child stays one. -/
theorem outward_outer (h : Holds rbtt (plug (⟨b, p, o⟩ :: fs) (.node x l r))) :
    Rbtt.outward b rbtt x.1 p.1 = .ok (rbtt, x.1) := by
  have sibling := h.sibling
  have other : some x.1 ≠ root o := Ne.symm (h.apart (by simp))
  simp only [Rbtt.outward, sibling, ok_bind, if_neg other]
  rfl

/-- Two red nodes in a row are turned to the outer side. -/
theorem outward_spec (h : Holds rbtt (plug (⟨b, p, o⟩ :: fs) (.node x l r))) (redP : p.color = .red)
    (redX : x.color = .red) (beside : Rb Cell.color .black n o) (left : Rb Cell.color .black n l)
    (right : Rb Cell.color .black n r) (b' : Bool) :
    ∃ rbtt' q z c l' r', Rbtt.outward b' rbtt x.1 p.1 = .ok (rbtt', z.1) ∧
      Reshaped rbtt (plug (⟨b, p, o⟩ :: fs) (.node x l r)) rbtt' (plug (⟨b', q, c⟩ :: fs) (.node z l' r')) ∧
      q.color = .red ∧ z.color = .red ∧ Rb Cell.color .black n c ∧ Rb Cell.color .black n l' ∧
      Rb Cell.color .black n r' := by
  have apart := h.apart (by simp)
  by_cases same : b = b'
  · subst same
    exact ⟨rbtt, p, x, o, l, r, outward_outer h, .refl h, redP, redX, beside, left, right⟩
  · obtain rfl : b = !b' := by cases b <;> cases b' <;> simp_all
    have child := h.child
    obtain ⟨i, c, split, redI, redC⟩ : ∃ i c, (.node x l r : Cells δ) = Frame.fill ⟨b', x, c⟩ i ∧
        Rb Cell.color .black n i ∧ Rb Cell.color .black n c := by
      cases b' with
      | false => exact ⟨l, r, rfl, left, right⟩
      | true => exact ⟨r, l, rfl, right, left⟩
    rw [split] at h ⊢
    obtain ⟨rbtt', run, turned⟩ := rotate_spec h
    obtain ⟨l', r', filled, redL, redR⟩ : ∃ l' r', Frame.fill ⟨!b', p, o⟩ i = (.node p l' r' : Cells δ) ∧
        Rb Cell.color .black n l' ∧ Rb Cell.color .black n r' := by
      cases b' with
      | false => exact ⟨o, i, rfl, beside, redI⟩
      | true => exact ⟨i, o, rfl, redI, beside⟩
    refine ⟨rbtt', x, p, c, l', r', ?_, ?_, redX, redP, redC, redL, redR⟩
    · simp only [Rbtt.outward, child, ok_bind, root_node, ↓reduceIte, run]
      rfl
    · rw [← filled]
      exact turned

/-- The parent is red and the uncle is black. -/
theorem insertTurn_eq (h : Holds rbtt (plug (⟨b, p, o⟩ :: ⟨b', g, u⟩ :: fs) (.node x l r)))
    (nil : rbtt.nil.rbtColor = .black) (redP : p.color = .red) (uncle : Rb Cell.color .black n u) :
    Rbtt.insertTurn (rbtt, x.1) = (do return .inl (← Rbtt.insertBlack b' rbtt x.1 p.1)) := by
  have outer : Holds rbtt (plug (⟨b', g, u⟩ :: fs) (Frame.fill ⟨b, p, o⟩ (.node x l r))) := h
  have parentRed := color_frame_eq h redP
  have side := outer.side (outer.apart (fill_ne_nil _ _))
  rw [root_fill] at side
  have uncleBlack : rbtt.color (root u) = .ok .black := by
    rw [outer.flip.color nil, rootColor_of uncle]
  simp only [Rbtt.insertTurn, if_neg h.not_top, h.parentNode, ok_bind, parentRed, h.parentNode_frame, side, outer.sibling,
    uncleBlack, ne_eq, not_true_eq_false, reduceCtorEq, and_false, ↓reduceIte]

/-- The parent of an outer child takes the place of the grandparent, which becomes its child. -/
theorem raise_spec {q z : Cell δ} {c : Cells δ} {i j : NodeId} (outward : Rbtt.outward b rbtt' i j = .ok (rbtt, z.1))
    (h : Holds rbtt (plug (⟨b, q, c⟩ :: ⟨b, g, u⟩ :: fs) (.node z l r))) :
    ∃ rbtt'', Rbtt.insertBlack b rbtt' i j = .ok (rbtt'', z.1) ∧
      Reshaped rbtt (plug (⟨b, q, c⟩ :: ⟨b, g, u⟩ :: fs) (.node z l r)) rbtt''
        (plug (⟨b, q.paint .black, Frame.fill ⟨b, g.paint .red, u⟩ c⟩ :: fs) (.node z l r)) := by
  obtain ⟨r₂, run₂, h₂⟩ := setColor_frame h .black
  have outer₂ : Holds r₂ (plug (⟨b, g, u⟩ :: fs) (Frame.fill ⟨b, q.paint .black, c⟩ (.node z l r))) := h₂.holds
  obtain ⟨r₃, run₃, h₃⟩ := setColor_frame outer₂ .red
  -- the rotation, seen from the other child of the upper red node
  have seen : plug (⟨!b, q.paint .black, .node z l r⟩ :: ⟨!!b, g.paint .red, u⟩ :: fs) c =
      plug (⟨b, g.paint .red, u⟩ :: fs) (Frame.fill ⟨b, q.paint .black, c⟩ (.node z l r)) := by
    rw [Bool.not_not, fill_flip b]
    rfl
  have turned : plug (⟨!!b, g.paint .red, u⟩ :: ⟨!b, q.paint .black, .node z l r⟩ :: fs) c =
      plug (⟨b, q.paint .black, Frame.fill ⟨b, g.paint .red, u⟩ c⟩ :: fs) (.node z l r) := by
    rw [plug_flip b, Bool.not_not]
    rfl
  have ready : Holds r₃ (plug (⟨!b, q.paint .black, .node z l r⟩ :: ⟨!!b, g.paint .red, u⟩ :: fs) c) := by
    rw [seen]
    exact h₃.holds
  obtain ⟨r₄, run₄, h₄⟩ := rotate_spec ready
  have run₄ : Rbtt.rotate (!b) r₃ g.1 = .ok r₄ := run₄
  rw [seen, turned] at h₄
  have parent₁ := h.parentNode
  have parent₂ : r₂.parentNode (some q.1) = .ok g.1 := h₂.holds.parentNode_frame
  refine ⟨r₄, ?_, h₂.trans (h₃.trans h₄)⟩
  simp only [Rbtt.insertBlack, outward, ok_bind, parent₁, run₂, parent₂, run₃, run₄]
  rfl

/-- The uncle is black. -/
theorem insertTurn_black (h : Holds rbtt (plug (⟨b, p, o⟩ :: ⟨b', g, u⟩ :: fs) (.node x l r)))
    (nil : rbtt.nil.rbtColor = .black) (redP : p.color = .red) (redX : x.color = .red)
    (uncle : Rb Cell.color .black n u) (beside : Rb Cell.color .black n o) (left : Rb Cell.color .black n l)
    (right : Rb Cell.color .black n r) :
    ∃ rbtt' z q s l' r', Rbtt.insertTurn (rbtt, x.1) = .ok (.inl (rbtt', z.1)) ∧
      Reshaped rbtt (plug (⟨b, p, o⟩ :: ⟨b', g, u⟩ :: fs) (.node x l r)) rbtt' (plug (⟨b', q, s⟩ :: fs) (.node z l' r')) ∧
      q.color = .black ∧ Rb Cell.color .black (n + 1) (Frame.fill ⟨b', q, s⟩ (.node z l' r')) := by
  obtain ⟨r₁, q, z, c, l', r', run₁, h₁, redQ, redZ, blackC, blackL, blackR⟩ :=
    outward_spec h redP redX beside left right b'
  obtain ⟨r₄, run₄, h₄⟩ := raise_spec run₁ h₁.holds
  have lower : Rb Cell.color .red n (Frame.fill ⟨b', g.paint .red, u⟩ c) := blackC.fill_red rfl uncle
  refine ⟨r₄, z, q.paint .black, _, l', r', ?_, h₁.trans h₄, rfl, (Rb.red redZ blackL blackR).fill_black rfl lower⟩
  rw [insertTurn_eq h nil redP uncle, run₄]
  rfl

/-- A tree that is a red-black tree once its root is black. -/
def Nearly (t : Cells δ) : Prop :=
  ∃ x l r c c' n, t = .node x l r ∧ Rb Cell.color c n l ∧ Rb Cell.color c' n r

theorem nearly_of {c : Color} (h : Rb Cell.color c n t) (some_ : t ≠ .nil) : Nearly t := by
  cases h with
  | nil => exact absurd rfl some_
  | red _ left right => exact ⟨_, _, _, _, _, _, rfl, left, right⟩
  | black _ left right => exact ⟨_, _, _, _, _, _, rfl, left, right⟩

theorem Reshaped.turn {rbtt' rbtt'' : Rbtt δ} {t' t'' : Cells δ} {i j : NodeId} (h : Reshaped rbtt t rbtt' t')
    (run : Rbtt.insertTurn (rbtt, i) = .ok (.inl (rbtt', j)))
    (rest : Ends .noReturn Rbtt.insertTurn (rbtt', j) rbtt'' ∧ Reshaped rbtt' t' rbtt'' t'') :
    Ends .noReturn Rbtt.insertTurn (rbtt, i) rbtt'' ∧ Reshaped rbtt t rbtt'' t'' :=
  ⟨.head run rest.1, h.trans rest.2⟩

/-- Below a red uncle the loop goes up two frames. -/
theorem RedAt.up (s : RedAt rbtt (⟨b, p, o⟩ :: ⟨b', g, u⟩ :: fs) x l r n) (red : p.color = .red)
    (uncle : Rb Cell.color .red n u) (beside : Rb Cell.color .black n o) (above : RbAbove Cell.color .black (n + 1) fs) :
    ∃ (rbtt' : Rbtt δ) (y : Cell δ) (ul ur l' r' : Cells δ), Rbtt.insertTurn (rbtt, x.1) = .ok (.inl (rbtt', g.1)) ∧
      (.node (g.paint .red) l' r' : Cells δ) =
        Frame.fill ⟨b', g.paint .red, .node (y.paint .black) ul ur⟩ (Frame.fill ⟨b, p.paint .black, o⟩ (.node x l r)) ∧
      Reshaped rbtt (plug (⟨b, p, o⟩ :: ⟨b', g, u⟩ :: fs) (.node x l r)) rbtt' (plug fs (.node (g.paint .red) l' r')) ∧
      RedAt rbtt' fs (g.paint .red) l' r' (n + 1) := by
  have redX : Rb Cell.color .red n (.node x l r) := .red s.here s.left s.right
  cases uncle with
  | @red _ y ul ur uncle blackL blackR =>
    obtain ⟨rbtt', run, moved⟩ := insertTurn_red s.holds red uncle
    have lower : Rb Cell.color .black (n + 1) (Frame.fill ⟨b, p.paint .black, o⟩ (.node x l r)) :=
      redX.fill_black rfl beside
    have beside₁ : Rb Cell.color .black (n + 1) (.node (y.paint .black) ul ur) := .black rfl blackL blackR
    obtain ⟨l', r', filled, left, right⟩ : ∃ l' r', (.node (g.paint .red) l' r' : Cells δ) =
        Frame.fill ⟨b', g.paint .red, .node (y.paint .black) ul ur⟩ (Frame.fill ⟨b, p.paint .black, o⟩ (.node x l r)) ∧
        Rb Cell.color .black (n + 1) l' ∧ Rb Cell.color .black (n + 1) r' := by
      cases b' with
      | false => exact ⟨_, _, rfl, lower, beside₁⟩
      | true => exact ⟨_, _, rfl, beside₁, lower⟩
    have seen : plug (⟨b, p.paint .black, o⟩ :: ⟨b', g.paint .red, .node (y.paint .black) ul ur⟩ :: fs)
        (.node x l r) = plug fs (.node (g.paint .red) l' r') := by
      rw [filled]
      rfl
    rw [seen] at moved
    exact ⟨rbtt', y, ul, ur, l', r', run, filled, moved, moved.holds, moved.nil ▸ s.nil, rfl, left, right, above⟩

/-- The loop goes up two frames at a time, by induction on the frames. -/
theorem insertLoop_spec (s : RedAt rbtt fs x l r n) :
    ∃ rbtt' t', (Ends .noReturn Rbtt.insertTurn (rbtt, x.1) rbtt' ∧ Reshaped rbtt (plug fs (.node x l r)) rbtt' t') ∧
      Nearly t' := by
  induction size : fs.length using Nat.strong_induction_on generalizing rbtt fs x l r n with
  | _ size ih =>
    cases fs with
    | nil =>
      exact ⟨rbtt, _, ⟨.done (insertTurn_top s.holds), .refl s.holds⟩, x, l, r, _, _, n, rfl, s.left, s.right⟩
    | cons f fs =>
      have redX : Rb Cell.color .red n (.node x l r) := .red s.here s.left s.right
      cases s.above with
      | black here beside above =>
        obtain ⟨m, whole⟩ := above.plug (redX.fill_black here beside)
        exact ⟨rbtt, _, ⟨.done (insertTurn_stop s.holds here), .refl s.holds⟩, nearly_of whole (plug_ne_nil (by simp))⟩
      | red here beside above =>
        obtain ⟨f', fs', c, rfl, here', beside', above'⟩ := above.of_red
        obtain ⟨b, p, o⟩ := f
        obtain ⟨b', g, u⟩ := f'
        cases c with
        | red =>
          obtain ⟨r₁, y, ul, ur, l', r', run, _, moved, next⟩ := s.up here beside' beside above'
          obtain ⟨r₂, t', rest, nearly⟩ := ih fs'.length (by simp_all; omega) next rfl
          exact ⟨r₂, t', moved.turn run rest, nearly⟩
        | black =>
          obtain ⟨rbtt', z, q, s', l', r', run, moved, black, filled⟩ :=
            insertTurn_black s.holds s.nil here s.here beside' beside s.left s.right
          obtain ⟨m, whole⟩ := above'.plug filled
          refine ⟨rbtt', _, moved.turn run ⟨.done (insertTurn_stop moved.holds black), .refl moved.holds⟩, nearly_of whole (plug_ne_nil (by simp))⟩

theorem setColor_root (h : Holds rbtt t) (nearly : Nearly t) :
    ∃ rbtt' t', rbtt.setColor rbtt.rbttRoot .black = .ok rbtt' ∧ Reshaped rbtt t rbtt' t' ∧
      ∃ m, Rb Cell.color .black m t' := by
  obtain ⟨x, l, r, c, c', n, rfl, left, right⟩ := nearly
  have top : rbtt.rbttRoot = some x.1 := h.top
  have here : Holds rbtt (plug [] (.node x l r)) := h
  obtain ⟨rbtt', run, moved⟩ := setColor_spec here .black
  exact ⟨rbtt', _, top ▸ run, moved, n + 1, .black rfl left right⟩

/-- A new node with no children below a red-black tree. -/
theorem balanceoninsert_spec (h : Holds rbtt (plug fs (.node x .nil .nil))) (nil : rbtt.nil.rbtColor = .black)
    (above : RbAbove Cell.color .black 0 fs) :
    ∃ rbtt' t', Returns (rbtt.stdRbtreeBalanceoninsert x.1) rbtt' ∧
      Reshaped rbtt (plug fs (.node x .nil .nil)) rbtt' t' ∧ ∃ m, Rb Cell.color .black m t' := by
  obtain ⟨r₁, run₁, h₁⟩ := setColor_spec h .red
  have start : RedAt r₁ fs (x.paint .red) .nil .nil 0 := ⟨h₁.holds, h₁.nil ▸ nil, rfl, .nil, .nil, above⟩
  obtain ⟨r₂, t₂, ⟨run₂, h₂⟩, nearly⟩ := insertLoop_spec start
  obtain ⟨r₃, t₃, run₃, h₃, balanced⟩ := setColor_root h₂.holds nearly
  refine ⟨r₃, t₃, ?_, h₁.trans (h₂.trans h₃), balanced⟩
  apply Returns.bind (.of_ok fun _ => run₁)
  apply Returns.bind run₂
  exact .of_ok fun _ => run₃

end SonicUtils.RbTree
