import SonicUtils.Lib.PtrTree

/-!
# The inorder of a tree

* `inorder_plug`: the inorder around a hole;
* `inorder_turn`: a rotation keeps it.
-/

namespace SonicUtils.PtrTree

variable {α β ι δ : Type} {f : Frame α} {fs : List (Frame α)} {t : BinaryTree α}

/-- The nodes of a tree, a parent between its subtrees. -/
def inorder : BinaryTree α → List α
  | .nil => []
  | .node x l r => inorder l ++ x :: inorder r

/-- The nodes before and after the hole. -/
def before : List (Frame α) → List α
  | [] => []
  | f :: fs => before fs ++ if f.side then inorder f.other ++ [f.node] else []

def after : List (Frame α) → List α
  | [] => []
  | f :: fs => (if f.side then [] else f.node :: inorder f.other) ++ after fs

@[simp] theorem inorder_nil : inorder (.nil : BinaryTree α) = [] := rfl

@[simp] theorem inorder_node (x : α) (l r : BinaryTree α) :
    inorder (.node x l r) = inorder l ++ x :: inorder r := rfl

@[simp] theorem before_nil : before ([] : List (Frame α)) = [] := rfl

@[simp] theorem after_nil : after ([] : List (Frame α)) = [] := rfl

@[simp] theorem before_left (x : α) (o : BinaryTree α) : before (⟨false, x, o⟩ :: fs) = before fs := by
  simp [before]

@[simp] theorem before_right (x : α) (o : BinaryTree α) :
    before (⟨true, x, o⟩ :: fs) = before fs ++ (inorder o ++ [x]) := rfl

@[simp] theorem after_left (x : α) (o : BinaryTree α) :
    after (⟨false, x, o⟩ :: fs) = x :: (inorder o ++ after fs) := rfl

@[simp] theorem after_right (x : α) (o : BinaryTree α) : after (⟨true, x, o⟩ :: fs) = after fs := rfl

theorem before_append (gs fs : List (Frame α)) : before (gs ++ fs) = before fs ++ before gs := by
  induction gs with
  | nil => simp
  | cons g gs ih => simp [before, ih]

theorem after_append (gs fs : List (Frame α)) : after (gs ++ fs) = after gs ++ after fs := by
  induction gs with
  | nil => rfl
  | cons g gs ih => simp [after, ih]

theorem inorder_plug (fs : List (Frame α)) (t : BinaryTree α) :
    inorder (plug fs t) = before fs ++ (inorder t ++ after fs) := by
  induction fs generalizing t with
  | nil => simp
  | cons f fs ih =>
    rw [plug_cons, ih]
    cases f with
    | mk side x other => cases side <;> simp [Frame.fill]

theorem inorder_perm (t : BinaryTree α) : (inorder t).Perm (nodes t) := by
  induction t with
  | nil => exact .refl _
  | node x l r ihl ihr => exact List.perm_middle.trans ((ihl.append ihr).cons x)

theorem mem_inorder {x : α} : x ∈ inorder t ↔ x ∈ nodes t := (inorder_perm t).mem_iff

theorem plug_ne_nil (some_ : t ≠ .nil) : plug fs t ≠ .nil := by
  induction fs generalizing t with
  | nil => exact some_
  | cons f fs ih => exact ih (fill_ne_nil f t)

/-- The other side of a frame as the hole. -/
theorem fill_flip (b : Bool) (x : α) (t o : BinaryTree α) :
    (⟨b, x, o⟩ : Frame α).fill t = (⟨!b, x, t⟩ : Frame α).fill o := by
  cases b <;> rfl

/-- The two frames of a rotation change places. -/
theorem inorder_turn (b : Bool) (x y : α) (a t c : BinaryTree α) (fs : List (Frame α)) :
    inorder (plug (⟨!b, x, a⟩ :: ⟨b, y, c⟩ :: fs) t) = inorder (plug (⟨b, y, c⟩ :: ⟨!b, x, a⟩ :: fs) t) := by
  cases b <;> simp [inorder_plug, Frame.fill]

/-- The first node in the inorder has no left subtree. -/
theorem exists_first (some_ : t ≠ .nil) :
    ∃ gs y r, t = plug gs (.node y .nil r) ∧ before gs = [] ∧ (inorder t).head? = some y := by
  induction t with
  | nil => exact absurd rfl some_
  | node x l r ihl _ =>
    by_cases none_ : l = .nil
    · subst none_
      exact ⟨[], x, r, rfl, rfl, rfl⟩
    · obtain ⟨gs, y, r', rfl, first, head⟩ := ihl none_
      refine ⟨gs ++ [⟨false, x, r⟩], y, r', ?_, ?_, ?_⟩
      · rw [plug_append]
        rfl
      · rw [before_append, first]
        rfl
      · rw [inorder_node, List.head?_append, head]
        rfl

/-- The first node that a climb from the hole reaches from the other side. -/
def turning (side : Bool) : List (Frame α) → Option α
  | [] => none
  | f :: fs => if f.side = side then turning side fs else some f.node

theorem turning_right (fs : List (Frame α)) : turning true fs = (after fs).head? := by
  induction fs with
  | nil => rfl
  | cons f fs ih =>
    cases f with
    | mk side x other => cases side <;> simp [turning, ih]

theorem turning_left (fs : List (Frame α)) : turning false fs = (before fs).getLast? := by
  induction fs with
  | nil => rfl
  | cons f fs ih =>
    cases f with
    | mk side x other => cases side <;> simp [turning, ih]

theorem mem_nodes_turning {side : Bool} {x : α} (h : turning side fs = some x) : x ∈ nodesAbove fs := by
  induction fs with
  | nil => cases h
  | cons f fs ih =>
    rw [turning] at h
    split at h
    · exact List.mem_cons_of_mem _ (List.mem_append_right _ (ih h))
    · cases h
      exact List.mem_cons_self

end SonicUtils.PtrTree
