import SonicUtils.RbTree.Insert

/-!
# Balance after a removal

`std_rbtree_balanceonremove` on the tree that the table holds. The loop moves up
a subtree that has one black node too few on its ways down.

* `blackSibling_spec`, `redOuter_spec`: the two preparing rotations;
* `removeBlack_spec`, `removeRed_spec`: the two ways to go on;
* `balanceonremove_spec`: the tree is a red-black tree again.
-/

namespace SonicUtils.RbTree

open PtrTree RedBlack Loop

variable {δ : Type} {rbtt : Rbtt δ} {x p q w : Cell δ} {l r o s i : Cells δ} {fs gs : List (Frame (Cell δ))}
  {f : Frame (Cell δ)} {t : Cells δ} {c : Color} {n : Nat} {b : Bool}

/-- The subtree `t` and its parent, also if it is the sentinel. -/
structure Hangs (rbtt : Rbtt δ) (fs : List (Frame (Cell δ))) (t : Cells δ) : Prop where
  holds : Holds rbtt (plug fs t)
  nil : rbtt.nil.rbtColor = .black
  parent : rbtt.parent (root t) = .ok (up fs)

/-- The tree is a red-black tree once the root of the subtree is black. -/
structure Settles (fs : List (Frame (Cell δ))) (t : Cells δ) : Prop where
  nil : t = .nil → ∃ m, Rb Cell.color .black m (plug fs t)
  node : ∀ x l r, t = .node x l r → ∃ m, Rb Cell.color .black m (plug fs (.node (x.paint .black) l r))

theorem settles_black (h : Rb Cell.color .black n t) : Settles [] t := by
  constructor
  · exact fun _ => ⟨n, h⟩
  · intro x l r split
    subst split
    cases h with
    | black _ left right => exact ⟨_, .black rfl left right⟩

/-- The parent of a subtree does not change while the frames above it are turned. -/
theorem Hangs.reshaped {rbtt' : Rbtt δ} {fs' : List (Frame (Cell δ))} (h : Hangs rbtt fs t)
    (moved : Reshaped rbtt (plug fs t) rbtt' (plug fs' t)) (same : up fs' = up fs) : Hangs rbtt' fs' t := by
  refine ⟨moved.holds, moved.nil ▸ h.nil, ?_⟩
  cases t with
  | nil =>
    have parent := h.parent
    rw [root_nil] at parent ⊢
    rw [same, ← parent, Rbtt.parent, Rbtt.parent, moved.nil]
  | node x l r => exact moved.holds.parent

theorem Hangs.parentNode (h : Hangs rbtt (f :: fs) t) : rbtt.parentNode (root t) = .ok f.node.1 := by
  simp [Rbtt.parentNode, h.parent]

theorem Hangs.not_top (h : Hangs rbtt (f :: fs) t) : root t ≠ rbtt.rbttRoot := by
  cases t with
  | nil =>
    rw [h.holds.top, root_nil]
    intro none_
    exact plug_ne_nil (fill_ne_nil f .nil) (root_eq_none.mp none_.symm)
  | node x l r => exact Ne.symm h.holds.not_top

theorem Hangs.side (h : Hangs rbtt (f :: fs) t) (some_ : f.other ≠ .nil) :
    rbtt.sideOf f.node.1 (root t) = .ok f.side := by
  apply h.holds.side
  by_cases none_ : t = .nil
  · rw [none_, root_nil]
    exact mt root_eq_none.mp some_
  · exact h.holds.apart none_

/-! ## The sibling -/

/-- The two subtrees of a node, the first one on the side. -/
theorem exists_sides (b : Bool) (l r : Cells δ) :
    ∃ o i, (∀ x : Cell δ, .node x l r = Frame.fill ⟨b, x, o⟩ i) ∧ ((i = l ∧ o = r) ∨ (i = r ∧ o = l)) := by
  cases b with
  | false => exact ⟨r, l, fun _ => rfl, .inl ⟨rfl, rfl⟩⟩
  | true => exact ⟨l, r, fun _ => rfl, .inr ⟨rfl, rfl⟩⟩

theorem exists_turned (b : Bool) (o i : Cells δ) :
    ∃ l r, (∀ x : Cell δ, Frame.fill ⟨b, x, o⟩ i = .node x l r) ∧ ((l = i ∧ r = o) ∨ (l = o ∧ r = i)) := by
  cases b with
  | false => exact ⟨i, o, fun _ => rfl, .inl ⟨rfl, rfl⟩⟩
  | true => exact ⟨o, i, fun _ => rfl, .inr ⟨rfl, rfl⟩⟩

/-- A sibling is turned, if it is red, and the next one is black. -/
theorem blackSibling_spec (h : Hangs rbtt (⟨b, p, .node w l r⟩ :: fs) t)
    (above : RbAbove Cell.color .black (n + 1) (⟨b, p, .node w l r⟩ :: fs)) :
    ∃ rbtt' q s gs, Rbtt.blackSibling b rbtt (root t) p.1 w.1 = .ok (rbtt', root s) ∧
      Reshaped rbtt (plug (⟨b, p, .node w l r⟩ :: fs) t) rbtt' (plug (⟨b, q, s⟩ :: gs) t) ∧
      Hangs rbtt' (⟨b, q, s⟩ :: gs) t ∧ Rb Cell.color .black (n + 1) s ∧
      RbAbove Cell.color .black (n + 1) (⟨b, q, s⟩ :: gs) ∧ (q.color = .red ∨ gs = fs) := by
  have colorW := h.holds.flip.color_at
  by_cases red : w.color = .red
  · obtain ⟨below, above⟩ : Rb Cell.color .red (n + 1) (.node w l r) ∧ RbAbove Cell.color .black (n + 2) fs := by
      cases above with
      | red _ beside _ => exact absurd (red.symm.trans beside.node_black.1) (by decide)
      | @black _ c _ _ _ _ beside above =>
        cases c with
        | red => exact ⟨beside, above⟩
        | black => exact absurd (red.symm.trans beside.node_black.1) (by decide)
    obtain ⟨_, blackL, blackR⟩ := below.node_red
    obtain ⟨o, i, split, parts⟩ := exists_sides b l r
    obtain ⟨blackI, blackO⟩ : Rb Cell.color .black (n + 1) i ∧ Rb Cell.color .black (n + 1) o := by
      cases parts with
      | inl same => exact ⟨same.1 ▸ blackL, same.2 ▸ blackR⟩
      | inr same => exact ⟨same.1 ▸ blackR, same.2 ▸ blackL⟩
    obtain ⟨r₁, run₁, h₁⟩ := setColor_other h.holds .black
    obtain ⟨r₂, run₂, h₂⟩ := setColor_frame h₁.holds .red
    -- the rotation, seen from the inner child of the sibling
    have seen : plug (⟨b, p.paint .red, .node (w.paint .black) l r⟩ :: fs) t =
        plug (⟨b, w.paint .black, o⟩ :: ⟨!b, p.paint .red, t⟩ :: fs) i := by
      rw [plug_flip, split]
      rfl
    have turned : plug (⟨!b, p.paint .red, t⟩ :: ⟨b, w.paint .black, o⟩ :: fs) i =
        plug (⟨b, p.paint .red, i⟩ :: ⟨b, w.paint .black, o⟩ :: fs) t := (plug_flip ..).symm
    obtain ⟨r₃, run₃, h₃⟩ := rotate_spec (seen ▸ h₂.holds)
    rw [← seen, turned] at h₃
    have moved := h₁.trans (h₂.trans h₃)
    have hangs := h.reshaped moved rfl
    have sibling := hangs.holds.sibling
    have child : r₃.child p.1 (!b) = .ok (root i) := sibling
    have parent : r₃.parentNode (root t) = .ok p.1 := hangs.parentNode
    have run₂ : r₁.setColor (some p.1) .red = .ok r₂ := run₂
    have run₃ : r₂.rotate b p.1 = .ok r₃ := run₃
    refine ⟨r₃, p.paint .red, i, ⟨b, w.paint .black, o⟩ :: fs, ?_, moved, hangs, blackI,
      .red rfl blackI (.black rfl blackO above), .inl rfl⟩
    rw [Rbtt.blackSibling, colorW, ok_bind, if_pos red, run₁, ok_bind, run₂, ok_bind, run₃, ok_bind, parent, ok_bind,
      child, ok_bind]
    rfl
  · have black : w.color = .black := by cases col : w.color <;> simp_all
    refine ⟨rbtt, p, .node w l r, fs, ?_, .refl h.holds, h, ?_, above, .inr rfl⟩
    · rw [Rbtt.blackSibling, colorW, ok_bind, if_neg red]
      rfl
    · cases above with
      | red _ beside _ => exact beside
      | black _ beside _ =>
        cases beside with
        | red here _ _ => exact absurd here red
        | black here left right => exact .black here left right

/-- The sibling becomes red, and the parent is next. -/
theorem removeBlack_spec (h : Hangs rbtt (⟨b, q, .node w l r⟩ :: gs) t) :
    ∃ rbtt', Rbtt.removeBlack rbtt (root t) w.1 = .ok (rbtt', some q.1) ∧
      Reshaped rbtt (plug (⟨b, q, .node w l r⟩ :: gs) t) rbtt' (plug (⟨b, q, .node (w.paint .red) l r⟩ :: gs) t) := by
  obtain ⟨rbtt', run, moved⟩ := setColor_other h.holds .red
  have parent := (h.reshaped moved rfl).parent
  refine ⟨rbtt', ?_, moved⟩
  rw [Rbtt.removeBlack, run, ok_bind, parent, ok_bind]
  rfl

/-- The sibling `w` with the subtrees `i` and `o`, seen from `i`. -/
theorem seen_inside (b : Bool) (q w : Cell δ) (t o i : Cells δ) (gs : List (Frame (Cell δ))) :
    plug (⟨b, q, Frame.fill ⟨b, w, o⟩ i⟩ :: gs) t = plug (⟨b, w, o⟩ :: ⟨!b, q, t⟩ :: gs) i := by
  rw [plug_flip]
  rfl

theorem outer_color (h : Hangs rbtt (⟨b, q, Frame.fill ⟨b, w, o⟩ i⟩ :: gs) t) :
    rbtt.child w.1 (!b) = .ok (root o) ∧ rbtt.color (root o) = .ok (rootColor o) ∧ rbtt.child w.1 b = .ok (root i) := by
  have inside := h.holds
  rw [seen_inside] at inside
  exact ⟨inside.sibling, inside.flip.color h.nil, inside.child⟩

/-- The sibling is turned, if only its inner child is red. -/
theorem redOuter_spec {co ci : Color} (h : Hangs rbtt (⟨b, q, Frame.fill ⟨b, w, o⟩ i⟩ :: gs) t)
    (outer : Rb Cell.color co n o) (inner : Rb Cell.color ci n i) (red : co = .red ∨ ci = .red) :
    ∃ rbtt' v o' i' c, Rbtt.redOuter b rbtt (root t) w.1 = .ok (rbtt', v.1) ∧
      Reshaped rbtt (plug (⟨b, q, Frame.fill ⟨b, w, o⟩ i⟩ :: gs) t) rbtt'
        (plug (⟨b, q, Frame.fill ⟨b, v, o'⟩ i'⟩ :: gs) t) ∧
      Rb Cell.color .red n o' ∧ Rb Cell.color c n i' := by
  obtain ⟨child, colorO, childI⟩ := outer_color h
  rw [rootColor_of outer] at colorO
  cases co with
  | red =>
    refine ⟨rbtt, w, o, i, ci, ?_, .refl h.holds, outer, inner⟩
    rw [Rbtt.redOuter, child, ok_bind, colorO, ok_bind, if_neg (by decide)]
    rfl
  | black =>
    obtain rfl : ci = .red := by simpa using red
    cases inner with
    | @red _ z il ir _ blackL blackR =>
      obtain ⟨c, m, split, parts⟩ := exists_sides (!b) il ir
      obtain ⟨blackM, blackC⟩ : Rb Cell.color .black n m ∧ Rb Cell.color .black n c := by
        cases parts with
        | inl same => exact ⟨same.1 ▸ blackL, same.2 ▸ blackR⟩
        | inr same => exact ⟨same.1 ▸ blackR, same.2 ▸ blackL⟩
      have inside := h.holds
      rw [seen_inside] at inside
      obtain ⟨r₁, run₁, h₁⟩ := setColor_spec inside .black
      obtain ⟨r₂, run₂, h₂⟩ := setColor_frame h₁.holds .red
      -- the rotation, seen from the child of the inner child that changes sides
      have seen : plug (⟨b, w.paint .red, o⟩ :: ⟨!b, q, t⟩ :: gs) (.node (z.paint .black) il ir) =
          plug (⟨!b, z.paint .black, c⟩ :: ⟨!!b, w.paint .red, o⟩ :: ⟨!b, q, t⟩ :: gs) m := by
        rw [split, Bool.not_not]
        rfl
      have turned : plug (⟨!!b, w.paint .red, o⟩ :: ⟨!b, z.paint .black, c⟩ :: ⟨!b, q, t⟩ :: gs) m =
          plug (⟨b, q, Frame.fill ⟨b, z.paint .black, Frame.fill ⟨b, w.paint .red, o⟩ m⟩ c⟩ :: gs) t := by
        rw [seen_inside, plug_flip b, Bool.not_not]
        rfl
      obtain ⟨r₃, run₃, h₃⟩ := rotate_spec (seen ▸ h₂.holds)
      rw [← seen, turned] at h₃
      have moved := h₁.trans (h₂.trans h₃)
      rw [← seen_inside] at moved
      have hangs := h.reshaped moved rfl
      have next : r₃.child q.1 (!b) = .ok (some z.1) := by
        have sibling := hangs.holds.sibling
        rw [root_fill] at sibling
        exact sibling
      have parent : r₃.parentNode (root t) = .ok q.1 := hangs.parentNode
      have run₂ : r₁.setColor (some w.1) .red = .ok r₂ := run₂
      have run₃ : r₂.rotate (!b) w.1 = .ok r₃ := run₃
      refine ⟨r₃, z.paint .black, Frame.fill ⟨b, w.paint .red, o⟩ m, c, .black, ?_, moved,
        blackM.fill_red rfl outer, blackC⟩
      have inner_ : rbtt.childNode w.1 b = .ok z.1 := by
        rw [Rbtt.childNode, childI, ok_bind]
        rfl
      have next_ : r₃.childNode q.1 (!b) = .ok z.1 := by
        rw [Rbtt.childNode, next, ok_bind]
        rfl
      rw [Rbtt.redOuter, child, ok_bind, colorO, ok_bind, if_pos rfl, inner_, ok_bind, run₁, ok_bind, run₂, ok_bind,
        run₃, ok_bind, parent, ok_bind, next_, ok_bind]
      rfl

/-- The last rotation: the parent gets the missing black node. -/
theorem removeRed_spec {co ci : Color} (h : Hangs rbtt (⟨b, q, Frame.fill ⟨b, w, o⟩ i⟩ :: gs) t)
    (outer : Rb Cell.color co n o) (inner : Rb Cell.color ci n i) (red : co = .red ∨ ci = .red)
    (below : Rb Cell.color .black n t)
    (above : q.color = .red ∧ RbAbove Cell.color .red (n + 1) gs ∨
      q.color = .black ∧ RbAbove Cell.color .black (n + 2) gs) :
    ∃ rbtt' t', Rbtt.removeRed b rbtt (root t) w.1 = .ok (rbtt', root t') ∧
      Reshaped rbtt (plug (⟨b, q, Frame.fill ⟨b, w, o⟩ i⟩ :: gs) t) rbtt' t' ∧ ∃ m, Rb Cell.color .black m t' := by
  obtain ⟨r₁, v, o, i, c, run₁, h₁, redO, inner⟩ := redOuter_spec h outer inner red
  have hangs₁ := h.reshaped h₁ rfl
  cases redO with
  | @red _ y ol or _ blackL blackR =>
    -- three changes of colour, seen from above and from inside in turn
    have inside₁ := h₁.holds
    rw [seen_inside] at inside₁
    have colorQ : r₁.color (some q.1) = .ok q.color := h₁.holds.color_frame
    obtain ⟨r₂, run₂, h₂⟩ := setColor_frame inside₁ q.color
    have h₂ : Reshaped r₁ (plug (⟨b, q, Frame.fill ⟨b, v, .node y ol or⟩ i⟩ :: gs) t) r₂
        (plug (⟨b, q, Frame.fill ⟨b, v.paint q.color, .node y ol or⟩ i⟩ :: gs) t) := by
      rw [seen_inside, seen_inside]
      exact h₂
    obtain ⟨r₃, run₃, h₃⟩ := setColor_frame h₂.holds .black
    have h₃ : Reshaped r₂ (plug (⟨b, q, Frame.fill ⟨b, v.paint q.color, .node y ol or⟩ i⟩ :: gs) t) r₃
        (plug (⟨b, v.paint q.color, .node y ol or⟩ :: ⟨!b, q.paint .black, t⟩ :: gs) i) := by
      rw [← seen_inside]
      exact h₃
    obtain ⟨r₄, run₄, h₄⟩ := setColor_other h₃.holds .black
    obtain ⟨r₅, run₅, h₅⟩ := rotate_spec h₄.holds
    have parent : r₁.parentNode (root t) = .ok q.1 := hangs₁.parentNode
    have outer₃ : r₃.childNode v.1 (!b) = .ok y.1 := by
      have sibling : r₃.child v.1 (!b) = .ok (some y.1) := h₃.holds.sibling
      rw [Rbtt.childNode, sibling, ok_bind]
      rfl
    have run₂ : r₁.setColor (some v.1) q.color = .ok r₂ := run₂
    have run₃ : r₂.setColor (some q.1) .black = .ok r₃ := run₃
    have run₅ : r₄.rotate b q.1 = .ok r₅ := run₅
    have lower : Rb Cell.color .black (n + 1) (Frame.fill ⟨!b, q.paint .black, t⟩ i) := inner.fill_black rfl below
    have blackO : Rb Cell.color .black (n + 1) (.node (y.paint .black) ol or) := .black rfl blackL blackR
    refine ⟨r₅, _, ?_, h₁.trans (h₂.trans (h₃.trans (h₄.trans h₅))), ?_⟩
    · simp only [Rbtt.removeRed, run₁, ok_bind, parent, colorQ, run₂, run₃, outer₃, run₄, run₅, h₅.holds.top]
      rfl
    · cases above with
      | inl redQ => exact redQ.2.plug (lower.fill_red redQ.1 blackO)
      | inr blackQ => exact blackQ.2.plug (lower.fill_black blackQ.1 blackO)

/-! ## The loop -/

/-- A subtree that is short of a black node, or a red one that is to become black. -/
inductive Short (n : Nat) (t : Cells δ) : Prop
  | black (below : Rb Cell.color .black n t) : Short n t
  | red {x : Cell δ} {l r : Cells δ} {c c' : Color} (split : t = .node x l r) (here : x.color = .red)
      (left : Rb Cell.color c n l) (right : Rb Cell.color c' n r) : Short n t

theorem Short.settles (h : Short n t) (above : RbAbove Cell.color .black (n + 1) fs)
    (stop : fs = [] ∨ rootColor t = .red) : Settles fs t := by
  cases h with
  | black below =>
    cases stop with
    | inl top => exact top ▸ settles_black below
    | inr red => exact absurd ((rootColor_of below).symm.trans red) (by decide)
  | red split here left right =>
    subst split
    constructor
    · intro none_
      cases none_
    · intro y l' r' same
      cases same
      exact above.plug (.black rfl left right)

/-- How the loop ends: at the root of some subtree. -/
structure Ended (rbtt : Rbtt δ) (t : Cells δ) (x : Option NodeId) (rbtt' : Rbtt δ) (fs' : List (Frame (Cell δ)))
    (t' : Cells δ) : Prop where
  ends : Ends .noReturn Rbtt.removeTurn (rbtt, x) (rbtt', root t')
  moved : Reshaped rbtt t rbtt' (plug fs' t')
  settles : Settles fs' t'

theorem removeTurn_stop (h : Holds rbtt (plug fs t)) (nil : rbtt.nil.rbtColor = .black) (stop : fs = [] ∨ rootColor t = .red) :
    Rbtt.removeTurn (rbtt, root t) = .ok (.inr (rbtt, root t)) := by
  have color := h.color nil
  have done : root t = rbtt.rbttRoot ∨ rootColor t ≠ .black := by
    cases stop with
    | inl top =>
      subst top
      exact .inl h.top.symm
    | inr red => exact .inr (by simp [red])
  simp only [Rbtt.removeTurn, color, ok_bind, if_pos done]
  rfl

theorem ended_stop (h : Hangs rbtt fs t) (short : Short n t) (above : RbAbove Cell.color .black (n + 1) fs)
    (stop : fs = [] ∨ rootColor t = .red) : Ended rbtt (plug fs t) (root t) rbtt fs t :=
  ⟨.done (removeTurn_stop h.holds h.nil stop), .refl h.holds, short.settles above stop⟩

theorem Ended.turn {rbtt₁ rbtt' : Rbtt δ} {t₁ t' : Cells δ} {fs' : List (Frame (Cell δ))} {x x₁ : Option NodeId}
    (run : Rbtt.removeTurn (rbtt, x) = .ok (.inl (rbtt₁, x₁))) (moved : Reshaped rbtt t rbtt₁ t₁)
    (rest : Ended rbtt₁ t₁ x₁ rbtt' fs' t') : Ended rbtt t x rbtt' fs' t' :=
  ⟨.head run rest.ends, moved.trans rest.moved, rest.settles⟩

/-- The turn of the loop, after its first rotation. -/
theorem removeTurn_eq {rbtt' : Rbtt δ} {v : Cell δ} {o i : Cells δ} {co ci : Color}
    (h : Hangs rbtt (⟨b, p, .node w l r⟩ :: fs) t) (black : rootColor t = .black)
    (run : Rbtt.blackSibling b rbtt (root t) p.1 w.1 = .ok (rbtt', some v.1))
    (h' : Hangs rbtt' (⟨b, q, Frame.fill ⟨b, v, o⟩ i⟩ :: gs) t) (outer : Rb Cell.color co n o)
    (inner : Rb Cell.color ci n i) :
    Rbtt.removeTurn (rbtt, root t) =
      if co = .black ∧ ci = .black then do return .inl (← Rbtt.removeBlack rbtt' (root t) v.1)
      else do return .inl (← Rbtt.removeRed b rbtt' (root t) v.1) := by
  have color := h.holds.color h.nil
  have more : ¬(root t = rbtt.rbttRoot ∨ rootColor t ≠ .black) := by
    intro done
    cases done with
    | inl top => exact h.not_top top
    | inr red => exact red black
  have parent : rbtt.parentNode (root t) = .ok p.1 := h.parentNode
  have side : rbtt.sideOf p.1 (root t) = .ok b := h.side (by simp)
  have sibling : rbtt.childNode p.1 (!b) = .ok w.1 := by
    have child : rbtt.child p.1 (!b) = .ok (some w.1) := h.holds.sibling
    rw [Rbtt.childNode, child, ok_bind]
    rfl
  obtain ⟨childO, colorO, childI⟩ := outer_color h'
  have colorI : rbtt'.color (root i) = .ok (rootColor i) := by
    have inside := h'.holds
    rw [seen_inside] at inside
    exact inside.color h'.nil
  rw [rootColor_of outer] at colorO
  rw [rootColor_of inner] at colorI
  simp only [Rbtt.removeTurn, color, ok_bind, if_neg more, parent, side, sibling, run]
  cases b with
  | false =>
    have childO : rbtt'.child v.1 true = .ok (root o) := childO
    simp only [childI, childO, ok_bind, colorI, colorO, and_comm]
  | true =>
    have childO : rbtt'.child v.1 false = .ok (root o) := childO
    simp only [childI, childO, ok_bind, colorI, colorO]

/-- The loop goes up one frame at a time, by induction on the frames. -/
theorem removeLoop_spec (h : Hangs rbtt fs t) (short : Short n t) (above : RbAbove Cell.color .black (n + 1) fs) :
    ∃ rbtt' fs' t', Ended rbtt (plug fs t) (root t) rbtt' fs' t' := by
  induction fs generalizing rbtt t n with
  | nil => exact ⟨rbtt, [], t, ended_stop h short above (.inl rfl)⟩
  | cons f fs ih =>
    cases short with
    | red split here left right =>
      exact ⟨rbtt, _, t, ended_stop h (.red split here left right) above (.inr (split ▸ here))⟩
    | black below =>
      obtain ⟨b, p, other⟩ := f
      obtain ⟨c', beside⟩ : ∃ c, Rb Cell.color c (n + 1) other := by
        cases above with
        | red _ beside _ => exact ⟨_, beside⟩
        | black _ beside _ => exact ⟨_, beside⟩
      obtain ⟨w, l, r, rfl⟩ := beside.ne_nil
      obtain ⟨r₁, q, s, gs, run₁, h₁, hangs₁, blackS, above₁, either⟩ := blackSibling_spec h above
      obtain ⟨v, sl, sr, rfl⟩ := blackS.ne_nil
      obtain ⟨blackV, cl, cr, rbL, rbR⟩ := blackS.node_black
      obtain ⟨o, i, split, parts⟩ := exists_sides b sl sr
      obtain ⟨co, ci, outer, inner⟩ : ∃ co ci, Rb Cell.color co n o ∧ Rb Cell.color ci n i := by
        cases parts with
        | inl same => exact ⟨cr, cl, same.2 ▸ rbR, same.1 ▸ rbL⟩
        | inr same => exact ⟨cl, cr, same.2 ▸ rbL, same.1 ▸ rbR⟩
      have hangsF := hangs₁
      rw [split] at hangsF
      have turn := removeTurn_eq h (rootColor_of below) run₁ hangsF outer inner
      by_cases both : co = .black ∧ ci = .black
      · obtain ⟨rfl, rfl⟩ := both
        obtain ⟨r₂, run₂, h₂⟩ := removeBlack_spec hangs₁
        rw [if_pos ⟨rfl, rfl⟩, run₂] at turn
        have redV : Rb Cell.color .red n (.node (v.paint .red) sl sr) := by
          rw [split]
          exact inner.fill_red rfl outer
        obtain ⟨o₂, i₂, filled, parts⟩ := exists_turned b (.node (v.paint .red) sl sr) t
        obtain ⟨c₁, c₂, rb₁, rb₂⟩ : ∃ c₁ c₂, Rb Cell.color c₁ n o₂ ∧ Rb Cell.color c₂ n i₂ := by
          cases parts with
          | inl same => exact ⟨.black, .red, same.1 ▸ below, same.2 ▸ redV⟩
          | inr same => exact ⟨.red, .black, same.1 ▸ redV, same.2 ▸ below⟩
        have moved : Reshaped rbtt (plug (⟨b, p, .node w l r⟩ :: fs) t) r₂ (plug gs (.node q o₂ i₂)) := by
          rw [← filled q]
          exact h₁.trans h₂
        have hangs₂ : Hangs r₂ gs (.node q o₂ i₂) := ⟨moved.holds, moved.nil ▸ h.nil, moved.holds.parent⟩
        cases above₁ with
        | red here _ above =>
          exact ⟨r₂, gs, _, .turn turn moved
            (ended_stop hangs₂ (.red rfl here rb₁ rb₂) above.black_of_red (.inr here))⟩
        | black here _ higher =>
          obtain rfl : gs = fs := either.resolve_left (by simp [here])
          obtain ⟨r₃, fs', t', rest⟩ := ih hangs₂ (.black (.black here rb₁ rb₂)) higher
          exact ⟨r₃, fs', t', .turn turn moved rest⟩
      · have some_ : co = .red ∨ ci = .red := by
          cases co <;> cases ci <;> simp_all
        have above₂ : q.color = .red ∧ RbAbove Cell.color .red (n + 1) gs ∨
            q.color = .black ∧ RbAbove Cell.color .black (n + 2) gs := by
          cases above₁ with
          | red here _ above => exact .inl ⟨here, above⟩
          | black here _ above => exact .inr ⟨here, above⟩
        obtain ⟨r₂, t₂, run₂, h₂, m, whole⟩ := removeRed_spec hangsF outer inner some_ below above₂
        rw [if_neg both, run₂] at turn
        rw [split] at h₁
        have moved := h₁.trans h₂
        have nil₂ : r₂.nil.rbtColor = .black := moved.nil ▸ h.nil
        have top₂ : Holds r₂ (plug [] t₂) := moved.holds
        refine ⟨r₂, [], t₂, .turn turn moved ⟨.done (removeTurn_stop top₂ nil₂ (.inl rfl)), .refl top₂, settles_black whole⟩⟩

theorem setColor_settles (h : Holds rbtt (plug fs t)) (nil : rbtt.nil.rbtColor = .black) (settles : Settles fs t) :
    ∃ rbtt' t', rbtt.setColor (root t) .black = .ok rbtt' ∧ Reshaped rbtt (plug fs t) rbtt' t' ∧
      ∃ m, Rb Cell.color .black m t' := by
  cases t with
  | nil =>
    refine ⟨rbtt, _, ?_, .refl h, settles.nil rfl⟩
    rw [root_nil, Rbtt.setColor, ← nil]
    rfl
  | node x l r =>
    obtain ⟨rbtt', run, moved⟩ := setColor_spec h .black
    exact ⟨rbtt', _, run, moved, settles.node x l r rfl⟩

/-- A black node has been taken out above `t`. -/
theorem balanceonremove_spec (h : Hangs rbtt fs t) (short : Short n t) (above : RbAbove Cell.color .black (n + 1) fs) :
    ∃ rbtt' t', Returns (rbtt.stdRbtreeBalanceonremove (root t)) rbtt' ∧ Reshaped rbtt (plug fs t) rbtt' t' ∧
      ∃ m, Rb Cell.color .black m t' := by
  obtain ⟨r₁, fs₁, t₁, ended⟩ := removeLoop_spec h short above
  obtain ⟨r₂, t₂, run₂, h₂, balanced⟩ := setColor_settles ended.moved.holds (ended.moved.nil ▸ h.nil) ended.settles
  refine ⟨r₂, t₂, ?_, ended.moved.trans h₂, balanced⟩
  apply Returns.bind ended.ends
  exact .of_ok fun _ => run₂

end SonicUtils.RbTree
