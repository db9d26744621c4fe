import Mathlib.Data.Tree.Basic
import Mathlib.Data.List.Perm.Basic
import Mathlib.Data.List.Nodup

/-!
# Binary trees with parent pointers

A memory says which pointers and which data it holds at an address. `Linked`
is the tree that a memory holds below a pointer. A list of frames is a tree
with a hole, innermost frame first; `plug` fills the hole.

* `linked_plug`: a memory holds a filled tree if it holds the two parts;
* `Linked.mono`, `LinkedAbove.mono`: what a change of memory elsewhere keeps;
* `nodes_plug`: the nodes of a filled tree;
* `exists_plug_split`: a place in the preorder as a place in the tree.
-/

namespace SonicUtils.PtrTree

structure Links (ι : Type) where
  left : Option ι
  right : Option ι
  parent : Option ι
  deriving DecidableEq

/-- `M i k d`: the memory holds the pointers `k` and the data `d` at `i`. -/
abbrev Mem (ι δ : Type) := ι → Links ι → δ → Prop

variable {α ι δ : Type}

/-! ## Nodes -/

/-- The nodes of a tree, a parent before its left and these before its right
subtree. -/
def nodes : BinaryTree α → List α
  | .nil => []
  | .node x l r => x :: (nodes l ++ nodes r)

def ids (t : BinaryTree (ι × δ)) : List ι := (nodes t).map Prod.fst

def root : BinaryTree (ι × δ) → Option ι
  | .nil => none
  | .node x _ _ => some x.1

@[simp] theorem nodes_nil : nodes (.nil : BinaryTree α) = [] := rfl

@[simp] theorem nodes_node (x : α) (l r : BinaryTree α) :
    nodes (.node x l r) = x :: (nodes l ++ nodes r) := rfl

@[simp] theorem root_nil : root (.nil : BinaryTree (ι × δ)) = none := rfl

@[simp] theorem root_node (x : ι × δ) (l r : BinaryTree (ι × δ)) :
    root (.node x l r) = some x.1 := rfl

@[simp] theorem root_eq_none {t : BinaryTree (ι × δ)} : root t = none ↔ t = .nil := by
  cases t <;> simp [root]

theorem mem_ids {t : BinaryTree (ι × δ)} {x : ι × δ} (h : x ∈ nodes t) : x.1 ∈ ids t :=
  List.mem_map_of_mem h

theorem mem_ids_node {x : ι × δ} {l r : BinaryTree (ι × δ)} {i : ι} :
    i ∈ ids (.node x l r) ↔ i = x.1 ∨ i ∈ ids l ∨ i ∈ ids r := by
  simp [ids]

theorem apart_of_nodup {x : ι × δ} {l r : BinaryTree (ι × δ)} (distinct : (ids (.node x l r)).Nodup) :
    x.1 ∉ ids l ∧ x.1 ∉ ids r ∧ ∀ i ∈ ids l, ∀ j ∈ ids r, i ≠ j := by
  simp only [ids, nodes_node, List.map_cons, List.map_append, List.nodup_cons, List.mem_append, not_or,
    List.nodup_append] at distinct
  obtain ⟨⟨left, right⟩, _, _, apart⟩ := distinct
  exact ⟨left, right, apart⟩

theorem root_mem_ids {t : BinaryTree (ι × δ)} {i : ι} (h : root t = some i) : i ∈ ids t := by
  cases t with
  | nil => simp at h
  | node x l r =>
    obtain rfl : x.1 = i := by simpa using h
    exact mem_ids (by simp)

/-! ## Trees in memory -/

/-- `M` holds the tree, with `p` as the parent of its root. -/
def Linked (M : Mem ι δ) : Option ι → BinaryTree (ι × δ) → Prop
  | _, .nil => True
  | p, .node x l r =>
    M x.1 ⟨root l, root r, p⟩ x.2 ∧ Linked M (some x.1) l ∧ Linked M (some x.1) r

theorem Linked.mono {M M' : Mem ι δ} {p : Option ι} {t : BinaryTree (ι × δ)}
    (h : Linked M p t) (keep : ∀ x ∈ nodes t, ∀ k, M x.1 k x.2 → M' x.1 k x.2) :
    Linked M' p t := by
  induction t generalizing p with
  | nil => trivial
  | node x l r ihl ihr =>
    obtain ⟨here, left, right⟩ := h
    refine ⟨keep x (by simp) _ here, ihl left ?_, ihr right ?_⟩
    · intro y hy
      exact keep y (by simp [hy])
    · intro y hy
      exact keep y (by simp [hy])

/-- The memory holds each node of the tree, with some pointers. -/
theorem Linked.holds {M : Mem ι δ} {p : Option ι} {t : BinaryTree (ι × δ)} (h : Linked M p t)
    {x : ι × δ} (hx : x ∈ nodes t) : ∃ k, M x.1 k x.2 := by
  induction t generalizing p with
  | nil => simp at hx
  | node y l r ihl ihr =>
    obtain ⟨here, left, right⟩ := h
    rcases List.mem_cons.mp hx with rfl | below
    · exact ⟨_, here⟩
    · rcases List.mem_append.mp below with inl | inr
      · exact ihl left inl
      · exact ihr right inr

/-! ## Trees with a hole -/

/-- A node with one of its subtrees; the other, on the right if `side`, is the
hole. -/
structure Frame (α : Type) where
  side : Bool
  node : α
  other : BinaryTree α

def Frame.fill (f : Frame α) (t : BinaryTree α) : BinaryTree α :=
  match f.side with
  | false => .node f.node t f.other
  | true => .node f.node f.other t

def plug : List (Frame α) → BinaryTree α → BinaryTree α
  | [], t => t
  | f :: fs, t => plug fs (f.fill t)

/-- The node above the hole. -/
def up : List (Frame (ι × δ)) → Option ι
  | [] => none
  | f :: _ => some f.node.1

def nodesAbove (fs : List (Frame α)) : List α := fs.flatMap fun f => f.node :: nodes f.other

@[simp] theorem plug_nil (t : BinaryTree α) : plug [] t = t := rfl

@[simp] theorem plug_cons (f : Frame α) (fs : List (Frame α)) (t : BinaryTree α) :
    plug (f :: fs) t = plug fs (f.fill t) := rfl

theorem plug_append (gs fs : List (Frame α)) (t : BinaryTree α) :
    plug (gs ++ fs) t = plug fs (plug gs t) := by
  induction gs generalizing t with
  | nil => rfl
  | cons g gs ih => exact ih (g.fill t)

@[simp] theorem up_nil : up ([] : List (Frame (ι × δ))) = none := rfl

@[simp] theorem up_cons (f : Frame (ι × δ)) (fs : List (Frame (ι × δ))) :
    up (f :: fs) = some f.node.1 := rfl

@[simp] theorem nodesAbove_nil : nodesAbove ([] : List (Frame α)) = [] := rfl

@[simp] theorem nodesAbove_cons (f : Frame α) (fs : List (Frame α)) :
    nodesAbove (f :: fs) = f.node :: (nodes f.other ++ nodesAbove fs) := rfl

@[simp] theorem root_fill (f : Frame (ι × δ)) (t : BinaryTree (ι × δ)) :
    root (f.fill t) = some f.node.1 := by
  cases f with
  | mk side x other => cases side <;> rfl

theorem exists_fill (f : Frame α) (t : BinaryTree α) : ∃ l r, f.fill t = .node f.node l r := by
  cases f with
  | mk side x other => cases side <;> exact ⟨_, _, rfl⟩

theorem fill_ne_nil (f : Frame α) (t : BinaryTree α) : f.fill t ≠ .nil := by
  obtain ⟨l, r, filled⟩ := exists_fill f t
  simp [filled]

theorem nodes_fill (f : Frame α) (t : BinaryTree α) :
    (nodes (f.fill t)).Perm (nodes t ++ f.node :: nodes f.other) := by
  cases f with
  | mk side x other =>
    cases side with
    | false => exact List.perm_middle.symm
    | true =>
      have swap : (nodes other ++ nodes t).Perm (nodes t ++ nodes other) := List.perm_append_comm
      exact (swap.cons x).trans List.perm_middle.symm

theorem nodes_fill_nil (f : Frame α) (t : BinaryTree α) :
    (nodes (f.fill t)).Perm (nodes t ++ nodes (f.fill .nil)) := by
  have empty : (nodes (f.fill .nil)).Perm (f.node :: nodes f.other) := nodes_fill f .nil
  exact (nodes_fill f t).trans (empty.symm.append_left _)

theorem nodes_plug (fs : List (Frame α)) (t : BinaryTree α) :
    (nodes (plug fs t)).Perm (nodes t ++ nodesAbove fs) := by
  induction fs generalizing t with
  | nil => simp
  | cons f fs ih =>
    have filled := (nodes_fill f t).append_right (nodesAbove fs)
    simpa using (ih (f.fill t)).trans filled

theorem mem_nodes_plug {fs : List (Frame α)} {t : BinaryTree α} {x : α} :
    x ∈ nodes (plug fs t) ↔ x ∈ nodes t ∨ x ∈ nodesAbove fs := by
  rw [(nodes_plug fs t).mem_iff, List.mem_append]

theorem ids_plug (fs : List (Frame (ι × δ))) (t : BinaryTree (ι × δ)) :
    (ids (plug fs t)).Perm (ids t ++ (nodesAbove fs).map Prod.fst) := by
  simpa [ids] using (nodes_plug fs t).map Prod.fst

theorem length_add_height (fs : List (Frame α)) (t : BinaryTree α) :
    fs.length + t.height ≤ (plug fs t).height := by
  induction fs generalizing t with
  | nil => simp
  | cons f fs ih =>
    have filled : t.height + 1 ≤ (f.fill t).height := by
      cases f with
      | mk side x other =>
        cases side <;> simp only [Frame.fill, BinaryTree.height] <;> omega
    have above := ih (f.fill t)
    simp only [List.length_cons, plug_cons]
    omega

theorem nodup_plug {fs : List (Frame (ι × δ))} {t : BinaryTree (ι × δ)} :
    (ids (plug fs t)).Nodup ↔ (ids t ++ (nodesAbove fs).map Prod.fst).Nodup :=
  (ids_plug fs t).nodup_iff

/-- The other nodes of a tree are elsewhere. -/
theorem apart_of_perm {fs : List (Frame (ι × δ))} {t : BinaryTree (ι × δ)} {x : ι × δ}
    {rest : List (ι × δ)} (distinct : (ids (plug fs t)).Nodup) (perm : (nodes t).Perm (x :: rest))
    {y : ι × δ} (hy : y ∈ rest ∨ y ∈ nodesAbove fs) : y.1 ≠ x.1 := by
  have all := nodup_plug.mp distinct
  have moved : (ids t ++ (nodesAbove fs).map Prod.fst).Perm
      (x.1 :: (rest ++ nodesAbove fs).map Prod.fst) := by
    simpa [ids] using (perm.map Prod.fst).append_right ((nodesAbove fs).map Prod.fst)
  have first := (List.nodup_cons.mp (moved.nodup_iff.mp all)).1
  intro same
  apply first
  rw [← same]
  exact List.mem_map_of_mem (List.mem_append.mpr hy)

theorem others_apart {fs : List (Frame (ι × δ))} {x : ι × δ} {l r : BinaryTree (ι × δ)}
    (distinct : (ids (plug fs (.node x l r))).Nodup) {y : ι × δ}
    (hy : y ∈ nodes l ∨ y ∈ nodes r ∨ y ∈ nodesAbove fs) : y.1 ≠ x.1 := by
  apply apart_of_perm distinct (List.Perm.refl _)
  rwa [List.mem_append, or_assoc]

theorem others_apart_fill {fs : List (Frame (ι × δ))} {f : Frame (ι × δ)} {t : BinaryTree (ι × δ)}
    (distinct : (ids (plug fs (f.fill t))).Nodup) {y : ι × δ}
    (hy : y ∈ nodes t ∨ y ∈ nodes f.other ∨ y ∈ nodesAbove fs) : y.1 ≠ f.node.1 := by
  apply apart_of_perm distinct ((nodes_fill f t).trans List.perm_middle)
  rwa [List.mem_append, or_assoc]

theorem up_mem {fs : List (Frame (ι × δ))} {i : ι} (h : up fs = some i) :
    ∃ y ∈ nodesAbove fs, y.1 = i := by
  cases fs with
  | nil => simp at h
  | cons f fs => exact ⟨f.node, by simp, by simpa using h⟩

theorem up_apart {fs : List (Frame (ι × δ))} {t : BinaryTree (ι × δ)}
    (distinct : (ids (plug fs t)).Nodup) {x : ι × δ} (hx : x ∈ nodes t) : up fs ≠ some x.1 := by
  intro h
  obtain ⟨y, hy, same⟩ := up_mem h
  have apart := (List.nodup_append.mp (nodup_plug.mp distinct)).2.2
  exact apart x.1 (mem_ids hx) y.1 (List.mem_map_of_mem hy) same.symm

theorem nodup_above {fs : List (Frame (ι × δ))} {t : BinaryTree (ι × δ)}
    (distinct : (ids (plug fs t)).Nodup) : ((nodesAbove fs).map Prod.fst).Nodup :=
  (List.nodup_append.mp (nodup_plug.mp distinct)).2.1

/-- The subtree beside the hole, in the place of both. -/
theorem nodup_other {fs : List (Frame (ι × δ))} {f : Frame (ι × δ)} {t : BinaryTree (ι × δ)}
    (distinct : (ids (plug fs (f.fill t))).Nodup) : (ids (plug fs f.other)).Nodup := by
  rw [nodup_plug] at distinct ⊢
  have moved : (ids (f.fill t) ++ (nodesAbove fs).map Prod.fst).Perm
      (ids t ++ f.node.1 :: (ids f.other ++ (nodesAbove fs).map Prod.fst)) := by
    simpa [ids] using ((nodes_fill f t).map Prod.fst).append_right ((nodesAbove fs).map Prod.fst)
  exact (List.nodup_append.mp (moved.nodup_iff.mp distinct)).2.1.of_cons

theorem root_plug_congr {fs : List (Frame (ι × δ))} {t t' : BinaryTree (ι × δ)}
    (h : root t' = root t) : root (plug fs t') = root (plug fs t) := by
  induction fs generalizing t t' with
  | nil => exact h
  | cons f fs ih => exact ih (by simp)

theorem root_plug_cons (f : Frame (ι × δ)) (fs : List (Frame (ι × δ))) (t t' : BinaryTree (ι × δ)) :
    root (plug (f :: fs) t') = root (plug (f :: fs) t) := by
  rw [plug_cons, plug_cons]
  apply root_plug_congr
  rw [root_fill, root_fill]

theorem root_above {fs : List (Frame (ι × δ))} {f : Frame (ι × δ)} {t : BinaryTree (ι × δ)} {i : ι}
    (h : root (plug (f :: fs) t) = some i) : ∃ g ∈ f :: fs, g.node.1 = i := by
  induction fs generalizing f t with
  | nil =>
    rw [plug_cons, plug_nil, root_fill] at h
    exact ⟨f, by simp, Option.some.inj h⟩
  | cons g fs ih =>
    obtain ⟨top, mem, here⟩ := ih h
    exact ⟨top, .tail f mem, here⟩

/-- A tree is its node `x` and what is around it. -/
theorem exists_plug {t : BinaryTree α} {x : α} (h : x ∈ nodes t) :
    ∃ fs l r, t = plug fs (.node x l r) := by
  induction t with
  | nil => simp at h
  | node y l r ihl ihr =>
    rcases List.mem_cons.mp h with rfl | below
    · exact ⟨[], l, r, rfl⟩
    · rcases List.mem_append.mp below with inl | inr
      · obtain ⟨fs, l', r', split⟩ := ihl inl
        exact ⟨fs ++ [⟨false, y, r⟩], l', r', by rw [plug_append, ← split]; rfl⟩
      · obtain ⟨fs, l', r', split⟩ := ihr inr
        exact ⟨fs ++ [⟨true, y, l⟩], l', r', by rw [plug_append, ← split]; rfl⟩

/-- The nodes before and after the hole in preorder. -/
def nodesBefore : List (Frame α) → List α
  | [] => []
  | f :: fs => nodesBefore fs ++ f.node :: (if f.side then nodes f.other else [])

def nodesAfter : List (Frame α) → List α
  | [] => []
  | f :: fs => (if f.side then [] else nodes f.other) ++ nodesAfter fs

@[simp] theorem nodesAfter_nil : nodesAfter ([] : List (Frame α)) = [] := rfl

theorem nodes_plug_eq (fs : List (Frame α)) (t : BinaryTree α) :
    nodes (plug fs t) = nodesBefore fs ++ (nodes t ++ nodesAfter fs) := by
  induction fs generalizing t with
  | nil => simp [nodesBefore, nodesAfter]
  | cons f fs ih =>
    rw [plug_cons, ih]
    cases f with
    | mk side x other => cases side <;> simp [Frame.fill, nodesBefore, nodesAfter]

/-- A place in the preorder of a tree is a node with what is around it. -/
theorem exists_plug_split {t : BinaryTree α} {pre post : List α} {x : α}
    (h : nodes t = pre ++ x :: post) :
    ∃ fs l r, plug fs (.node x l r) = t ∧ post = nodes l ++ nodes r ++ nodesAfter fs := by
  have inside {s : BinaryTree α} {post' : List α} (f : Frame α)
      (found : ∃ fs l r, plug fs (.node x l r) = s ∧ post' = nodes l ++ nodes r ++ nodesAfter fs) :
      ∃ fs l r, plug fs (.node x l r) = f.fill s ∧
        post' ++ (if f.side then [] else nodes f.other) = nodes l ++ nodes r ++ nodesAfter fs := by
    obtain ⟨fs, l, r, rfl, rfl⟩ := found
    refine ⟨fs ++ [f], l, r, by rw [plug_append]; rfl, ?_⟩
    have last : nodesAfter (fs ++ [f]) = nodesAfter fs ++ if f.side then [] else nodes f.other := by
      induction fs with
      | nil => simp [nodesAfter]
      | cons g fs ih => simp [nodesAfter, ih]
    rw [last, List.append_assoc]
  induction t generalizing pre post with
  | nil => simp at h
  | node y l r ihl ihr =>
    cases pre with
    | nil =>
      obtain ⟨rfl, rfl⟩ := List.cons.inj h
      exact ⟨[], l, r, rfl, by simp⟩
    | cons z pre =>
      obtain ⟨rfl, rest⟩ := List.cons.inj h
      have right {pre : List α} (split : nodes r = pre ++ x :: post) :
          ∃ fs l' r', plug fs (.node x l' r') = .node y l r ∧
            post = nodes l' ++ nodes r' ++ nodesAfter fs := by
        have place := inside ⟨true, y, l⟩ (ihr split)
        simpa [Frame.fill] using place
      rcases List.append_eq_append_iff.mp rest with ⟨mid, _, inr⟩ | ⟨mid, inl, rest⟩
      · exact right inr
      · cases mid with
        | nil => exact @right [] rest.symm
        | cons w mid =>
          obtain ⟨rfl, rfl⟩ := List.cons.inj rest
          have place := inside ⟨false, y, r⟩ (ihl inl)
          simpa [Frame.fill] using place

/-- The pointers of the node of a frame. -/
def Frame.links (f : Frame (ι × δ)) (hole parent : Option ι) : Links ι :=
  match f.side with
  | false => ⟨hole, root f.other, parent⟩
  | true => ⟨root f.other, hole, parent⟩

/-- `M` holds the frames, with `hole` as the pointer into the hole. -/
def LinkedAbove (M : Mem ι δ) : Option ι → List (Frame (ι × δ)) → Prop
  | _, [] => True
  | hole, f :: fs =>
    M f.node.1 (f.links hole (up fs)) f.node.2 ∧ Linked M (some f.node.1) f.other ∧
      LinkedAbove M (some f.node.1) fs

theorem LinkedAbove.mono {M M' : Mem ι δ} {hole : Option ι} {fs : List (Frame (ι × δ))}
    (h : LinkedAbove M hole fs) (keep : ∀ x ∈ nodesAbove fs, ∀ k, M x.1 k x.2 → M' x.1 k x.2) :
    LinkedAbove M' hole fs := by
  induction fs generalizing hole with
  | nil => trivial
  | cons f fs ih =>
    obtain ⟨here, other, above⟩ := h
    refine ⟨keep _ (by simp) _ here, other.mono ?_, ih above ?_⟩
    · intro y hy
      exact keep y (by simp [hy])
    · intro y hy
      exact keep y (by simp [hy])

theorem linked_fill {M : Mem ι δ} {p : Option ι} {f : Frame (ι × δ)} {t : BinaryTree (ι × δ)} :
    Linked M p (f.fill t) ↔
      M f.node.1 (f.links (root t) p) f.node.2 ∧ Linked M (some f.node.1) t ∧
        Linked M (some f.node.1) f.other := by
  cases f with
  | mk side x other =>
    cases side with
    | false => rfl
    | true => exact and_congr_right fun _ => and_comm

theorem linked_plug {M : Mem ι δ} {fs : List (Frame (ι × δ))} {t : BinaryTree (ι × δ)} :
    Linked M none (plug fs t) ↔ Linked M (up fs) t ∧ LinkedAbove M (root t) fs := by
  induction fs generalizing t with
  | nil => simp [LinkedAbove]
  | cons f fs ih =>
    rw [plug_cons, ih, linked_fill, root_fill]
    simp only [LinkedAbove, up_cons]
    tauto

/-- The pointer into the hole is stored in the last frame only. -/
theorem LinkedAbove.repoint {M M' : Mem ι δ} {hole hole' : Option ι} {f : Frame (ι × δ)}
    {fs : List (Frame (ι × δ))} (h : LinkedAbove M hole (f :: fs))
    (here : M' f.node.1 (f.links hole' (up fs)) f.node.2)
    (keep : ∀ x ∈ nodes f.other ++ nodesAbove fs, ∀ k, M x.1 k x.2 → M' x.1 k x.2) :
    LinkedAbove M' hole' (f :: fs) := by
  obtain ⟨_, other, above⟩ := h
  refine ⟨here, other.mono ?_, above.mono ?_⟩
  · intro y hy
    exact keep y (by simp [hy])
  · intro y hy
    exact keep y (by simp [hy])

end SonicUtils.PtrTree
