import Mathlib.Logic.Function.Iterate
import SonicUtils.RbTree.Runs

/-!
# Insertions in ascending order

Each datum then comes to the right end of the tree. What its balance depends on
is the right edge: the colours of the nodes on it, and of the roots on their left.

* `insertLoop_edge`, `insertNode_edge`: what an insertion makes of the edge;
* `ascending_run`: the edge after a run of them.
-/

namespace SonicUtils.RbTree

open PtrTree RedBlack Loop Compare Runs

variable {δ : Type} {rbtt rbtt' : Rbtt δ} {x p g y : Cell δ} {l r o u ul ur t t' : Cells δ} {fs : List (Frame (Cell δ))}
  {n : Nat} {i : NodeId} {compare : δ → δ → Int}

/-! ## The right edge -/

/-- The colour of a node on the edge, and of the root on its left. -/
abbrev Mark := Color × Color

/-- The right edge, from its end up. -/
def edge : Cells δ → List Mark
  | .nil => []
  | .node x l r => edge r ++ [(x.color, rootColor l)]

def markOf (f : Frame (Cell δ)) : Mark := (f.node.color, rootColor f.other)

theorem edge_plug (right : ∀ f ∈ fs, f.side = true) (t : Cells δ) : edge (plug fs t) = edge t ++ fs.map markOf := by
  induction fs generalizing t with
  | nil => rw [plug_nil, List.map_nil, List.append_nil]
  | cons f fs ih =>
    obtain ⟨side, rest⟩ := List.forall_mem_cons.mp right
    have filled : edge (f.fill t) = edge t ++ [markOf f] := by
      cases f with
      | mk side' x other =>
        cases side
        rfl
    rw [plug_cons, ih rest, filled, List.append_assoc]
    rfl

theorem edge_le_height (t : Cells δ) : (edge t).length ≤ t.height := by
  induction t with
  | nil => exact Nat.zero_le _
  | node x l r _ ihr =>
    rw [edge, List.length_append, List.length_singleton, BinaryTree.height]
    omega

/-- What the loop makes of the edge above a red node. -/
def settle (x : Mark) : List Mark → List Mark
  | (.red, o) :: (_, .red) :: rest => x :: (.black, o) :: settle (.red, .black) rest
  | (.red, _) :: (_, .black) :: rest => x :: (.black, .red) :: rest
  | rest => x :: rest

/-- The root is black. -/
def topBlack : List Mark → List Mark
  | [] => []
  | [(_, o)] => [(.black, o)]
  | x :: y :: rest => x :: topBlack (y :: rest)

/-- What an insertion at the end makes of the edge. -/
def grow (marks : List Mark) : List Mark := topBlack (settle (.red, .black) marks)

theorem settle_black (x : Mark) (o : Color) (rest : List Mark) : settle x ((.black, o) :: rest) = x :: (.black, o) :: rest := by
  cases rest <;> rfl

theorem settle_ne_nil (x : Mark) (marks : List Mark) : settle x marks ≠ [] := by
  unfold settle
  split <;> simp

theorem topBlack_append (marks : List Mark) (x : Mark) : topBlack (marks ++ [x]) = marks ++ [(.black, x.2)] := by
  induction marks with
  | nil => rfl
  | cons y marks ih =>
    cases marks with
    | nil => rfl
    | cons z marks => exact congrArg (y :: ·) ih

/-! ## Balance -/

/-- The uncle is black, and the node and its parent are on the same side. -/
theorem insertTurn_outer (h : Holds rbtt (plug (⟨b, p, o⟩ :: ⟨b, g, u⟩ :: fs) (.node x l r)))
    (nil : rbtt.nil.rbtColor = .black) (redP : p.color = .red) (uncle : Rb Cell.color .black n u) :
    ∃ rbtt', Rbtt.insertTurn (rbtt, x.1) = .ok (.inl (rbtt', x.1)) ∧
      Reshaped rbtt (plug (⟨b, p, o⟩ :: ⟨b, g, u⟩ :: fs) (.node x l r)) rbtt'
        (plug (⟨b, p.paint .black, Frame.fill ⟨b, g.paint .red, u⟩ o⟩ :: fs) (.node x l r)) := by
  obtain ⟨rbtt', run, moved⟩ := raise_spec (outward_outer h) h
  refine ⟨rbtt', ?_, moved⟩
  rw [insertTurn_eq h nil redP uncle, run]
  rfl

/-- The loop on the right edge, by induction on the frames. -/
theorem insertLoop_edge (s : RedAt rbtt fs x l r n) (right : ∀ f ∈ fs, f.side = true) :
    ∃ rbtt' t', (Ends .noReturn Rbtt.insertTurn (rbtt, x.1) rbtt' ∧ Reshaped rbtt (plug fs (.node x l r)) rbtt' t') ∧
      edge t' = edge r ++ settle (.red, rootColor l) (fs.map markOf) := by
  induction size : fs.length using Nat.strong_induction_on generalizing rbtt fs x l r n with
  | _ size ih =>
    have here : edge (.node x l r) = edge r ++ [(.red, rootColor l)] := by rw [edge, s.here]
    cases fs with
    | nil => exact ⟨rbtt, _, ⟨.done (insertTurn_top s.holds), .refl s.holds⟩, here⟩
    | cons f fs =>
      have redX : Rb Cell.color .red n (.node x l r) := .red s.here s.left s.right
      obtain ⟨sideF, right₁⟩ := List.forall_mem_cons.mp right
      obtain ⟨b, p, o⟩ := f
      obtain rfl : b = true := sideF
      cases s.above with
      | black black beside above =>
        refine ⟨rbtt, _, ⟨.done (insertTurn_stop s.holds black), .refl s.holds⟩, ?_⟩
        have mark : markOf ⟨true, p, o⟩ = (.black, rootColor o) := congrArg (·, rootColor o) black
        rw [edge_plug right, here, List.map_cons, mark, settle_black, List.append_assoc]
        rfl
      | red red beside above =>
        obtain ⟨f', fs', c, rfl, here', beside', above'⟩ := above.of_red
        obtain ⟨sideG, right₂⟩ := List.forall_mem_cons.mp right₁
        obtain ⟨b', g, u⟩ := f'
        obtain rfl : b' = true := sideG
        have markP : markOf ⟨true, p, o⟩ = (.red, .black) := Prod.ext red (rootColor_of beside)
        have markG : markOf ⟨true, g, u⟩ = (.black, c) := Prod.ext here' (rootColor_of beside')
        rw [List.map_cons, List.map_cons, markP, markG]
        cases c with
        | red =>
          obtain ⟨r₁, y, ul, ur, l', r', run, filled, moved, next⟩ := s.up red beside' beside above'
          obtain ⟨r₂, t', rest, edge'⟩ := ih fs'.length (by simp_all; omega) next right₂ rfl
          obtain ⟨_, rfl, rfl⟩ := BinaryTree.node.inj filled
          refine ⟨r₂, t', moved.turn run rest, edge'.trans ?_⟩
          have lower : edge (.node (p.paint .black) o (.node x l r)) = edge r ++ [(.red, rootColor l), (.black, .black)] := by
            rw [edge, here, rootColor_of beside, List.append_assoc]
            rfl
          calc edge (.node (p.paint .black) o (.node x l r)) ++ settle (.red, .black) (fs'.map markOf)
            _ = edge r ++ [(.red, rootColor l), (.black, .black)] ++ settle (.red, .black) (fs'.map markOf) := by rw [lower]
            _ = edge r ++ settle (.red, rootColor l) ((.red, .black) :: (.black, .red) :: fs'.map markOf) := by
              rw [settle, List.append_assoc]
              rfl
        | black =>
          obtain ⟨r₁, run, moved⟩ := insertTurn_outer s.holds s.nil red beside'
          refine ⟨r₁, _, moved.turn run ⟨.done (insertTurn_stop moved.holds rfl), .refl moved.holds⟩, ?_⟩
          rw [edge_plug, here, List.append_assoc]
          · rfl
          · exact List.forall_mem_cons.mpr ⟨rfl, right₂⟩

theorem balanceoninsert_edge (h : Holds rbtt (plug fs (.node x .nil .nil))) (nil : rbtt.nil.rbtColor = .black)
    (above : RbAbove Cell.color .black 0 fs) (right : ∀ f ∈ fs, f.side = true) :
    ∃ rbtt' t', Returns (rbtt.stdRbtreeBalanceoninsert x.1) rbtt' ∧ Holds rbtt' t' ∧ edge t' = grow (fs.map markOf) := by
  obtain ⟨r₁, run₁, h₁⟩ := setColor_spec h .red
  have start : RedAt r₁ fs (x.paint .red) .nil .nil 0 := ⟨h₁.holds, h₁.nil ▸ nil, rfl, .nil, .nil, above⟩
  obtain ⟨r₂, t₂, ⟨run₂, h₂⟩, edge₂⟩ := insertLoop_edge start right
  have edge₂ : edge t₂ = settle (.red, .black) (fs.map markOf) := edge₂
  cases t₂ with
  | nil => exact absurd edge₂ (settle_ne_nil _ _).symm
  | node y l r =>
    have top : r₂.rbttRoot = some y.1 := h₂.holds.top
    have here : Holds r₂ (plug [] (.node y l r)) := h₂.holds
    obtain ⟨r₃, run₃, h₃⟩ := setColor_spec here .black
    refine ⟨r₃, .node (y.paint .black) l r, ?_, h₃.holds, ?_⟩
    · apply Returns.bind (.of_ok fun _ => run₁)
      apply Returns.bind run₂
      rw [top]
      exact .of_ok fun _ => run₃
    · rw [grow, ← edge₂, edge, edge, topBlack_append]
      rfl

/-! ## Insertions -/

/-- A memory holds one tree below a pointer. -/
theorem linked_unique {p : Option NodeId} (h : Linked rbtt.mem p t) (h' : Linked rbtt.mem p t') (same : root t = root t') :
    t = t' := by
  induction t generalizing p t' with
  | nil => exact (root_eq_none.mp same.symm).symm
  | node x l r ihl ihr =>
    cases t' with
    | nil => cases same
    | node x' l' r' =>
      obtain ⟨here, left, right⟩ := h
      obtain ⟨here', left', right'⟩ := h'
      obtain ⟨i, c, d⟩ := x
      obtain ⟨i', c', d'⟩ := x'
      obtain rfl : i = i' := Option.some.inj same
      obtain ⟨sameL, sameR, _, rfl, rfl⟩ := RbNode.mk.inj (Option.some.inj (here.symm.trans here'))
      rw [ihl left left' sameL, ihr right right' sameR]

theorem holds_unique (h : Holds rbtt t) (h' : Holds rbtt t') : t = t' :=
  linked_unique h.linked h'.linked (h.top.symm.trans h'.top)

/-- A datum that is not less than any other comes to the end of the edge. -/
theorem insertNode_edge {k : RbNode δ} (order : TotalPreorder rbtt.rbttCompare) (h : Ordered rbtt t)
    (live : rbtt.nodes i = some k) (out : i ∉ ids t) (last : ∀ e ∈ stored t, 0 ≤ rbtt.rbttCompare k.rbtData e) :
    ∃ rbtt' t', Returns (rbtt.insertNode i) rbtt' ∧ Holds rbtt' t' ∧ edge t' = grow (edge t) := by
  obtain ⟨fs, r₂, hung⟩ := insertNode_hung order h live out
  obtain rfl := hung.place
  have nil₂ : r₂.nil.rbtColor = .black := rest_nil hung.rest ▸ h.nil
  have right : ∀ f ∈ fs, f.side = true := by
    intro f hf
    have above : f.node ∈ nodes (plug fs (.nil : Cells δ)) :=
      mem_nodes_plug.mpr (.inr (List.mem_flatMap.mpr ⟨f, hf, List.mem_cons_self⟩))
    have more := last _ (mem_stored above)
    rw [← hung.sides f hf, decide_eq_false (Int.not_lt.mpr more)]
    rfl
  obtain ⟨m, whole⟩ := h.balanced
  obtain ⟨c, n, hole, above⟩ := whole.split
  cases hole with
  | nil =>
    obtain ⟨r₃, t', run₃, h₃, edge₃⟩ := balanceoninsert_edge hung.holds nil₂ above right
    refine ⟨_, t', hung.balance r₃ run₃, ⟨h₃.top, h₃.linked, h₃.distinct⟩, ?_⟩
    rw [edge₃, edge_plug right]
    rfl

theorem insert_edge {data : δ} (order : TotalPreorder rbtt.rbttCompare) (h : Sound rbtt t) (fresh : rbtt.nodes i = none)
    (last : ∀ e ∈ stored t, 0 ≤ rbtt.rbttCompare data e) :
    ∃ rbtt' t', Returns (rbtt.stdRbtreeInsert data (some i)) (rbtt', true) ∧ Holds rbtt' t' ∧ edge t' = grow (edge t) := by
  let k : RbNode δ := ⟨none, none, none, .black, data⟩
  let rbtt₁ := { rbtt with
    nodes := Function.update rbtt.nodes i (some k)
    rbttNummallocs := rbtt.rbttNummallocs + 1 }
  obtain ⟨ordered, out⟩ : Ordered rbtt₁ t ∧ i ∉ ids t := ordered_alloc h.toOrdered fresh k
  have order₁ : TotalPreorder rbtt₁.rbttCompare := order
  have live : rbtt₁.nodes i = some k := Function.update_self ..
  obtain ⟨rbtt', t', run, holds, edge'⟩ := insertNode_edge order₁ ordered live out last
  refine ⟨rbtt', t', ?_, holds, edge'⟩
  apply Returns.bind (.of_ok fun _ => check_of h.magic)
  exact Returns.bind run (.of_ok fun _ => rfl)

/-- **The edge grows** with every insertion of a run in ascending order. -/
theorem ascending_run (order : TotalPreorder compare) (l : List δ) (sorted : l.Pairwise fun a b => compare a b ≤ 0) :
    ∃ rbtt t, Run Step (stdRbtreeCreate compare) (l.map fun data => .insert data true) rbtt ∧ Sound rbtt t ∧
      (stored t).Perm l ∧ edge t = grow^[l.length] [] := by
  induction l using List.reverseRecOn with
  | nil => exact ⟨_, .nil, .nil, sound_create compare, .refl _, rfl⟩
  | append_singleton l data ih =>
    obtain ⟨first, _, across⟩ := List.pairwise_append.mp sorted
    obtain ⟨rbtt, t, run, sound, perm, edge_⟩ := ih first
    obtain ⟨_, _, rfl, _⟩ := run_sound order run
    obtain ⟨i, fresh⟩ := exists_fresh sound
    have last : ∀ e ∈ stored t, 0 ≤ rbtt.rbttCompare data e := by
      intro e he
      have le := across e (perm.mem_iff.mp he) data (List.mem_singleton_self data)
      exact Int.not_lt.mp (order.not_lt.mpr le)
    obtain ⟨rbtt', t', inserted, sound', _, _, change⟩ := sound_insert order sound data fresh
    obtain ⟨rbtt'', t'', inserted', holds, edge'⟩ := insert_edge order sound (fresh i rfl) last
    obtain ⟨rfl, _⟩ := Prod.mk.inj (inserted.unique inserted')
    obtain rfl := holds_unique sound'.holds holds
    refine ⟨rbtt', t', ?_, sound', ?_, ?_⟩
    · rw [List.map_append, List.map_singleton]
      exact .snoc run (.insert (some i) fresh inserted)
    · have added := change.perm
      simp only [Call.taken, Call.given, List.append_nil, Option.isSome_some] at added
      exact added.trans (perm.append_right [data])
    · rw [edge', edge_, List.length_append, List.length_singleton, Function.iterate_succ_apply']

end SonicUtils.RbTree
