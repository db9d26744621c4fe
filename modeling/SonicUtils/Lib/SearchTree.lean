import SonicUtils.Lib.Inorder

/-!
# Searches in ordered trees

A search goes to one side or stops, as `go` says of each node.

* `descend`: where the search ends;
* `Directs`: a search that agrees with the order of the nodes;
* `descend_bounds`: what is on the two sides of its end.
-/

namespace SonicUtils.PtrTree

variable {α : Type} {go : α → Option Bool} {le : α → α → Prop} {fs : List (Frame α)} {t : BinaryTree α}

/-- The way down from `t` below `fs`. -/
def descend (go : α → Option Bool) : List (Frame α) → BinaryTree α → List (Frame α) × BinaryTree α
  | fs, .nil => (fs, .nil)
  | fs, .node x l r =>
    match go x with
    | none => (fs, .node x l r)
    | some false => descend go (⟨false, x, r⟩ :: fs) l
    | some true => descend go (⟨true, x, l⟩ :: fs) r

theorem descend_left {x : α} {l r : BinaryTree α} (h : go x = some false) :
    descend go fs (.node x l r) = descend go (⟨false, x, r⟩ :: fs) l := by
  rw [descend, h]

theorem descend_right {x : α} {l r : BinaryTree α} (h : go x = some true) :
    descend go fs (.node x l r) = descend go (⟨true, x, l⟩ :: fs) r := by
  rw [descend, h]

theorem descend_stop {x : α} {l r : BinaryTree α} (h : go x = none) :
    descend go fs (.node x l r) = (fs, .node x l r) := by
  rw [descend, h]

theorem plug_descend (go : α → Option Bool) (fs : List (Frame α)) (t : BinaryTree α) :
    plug (descend go fs t).1 (descend go fs t).2 = plug fs t := by
  induction t generalizing fs with
  | nil => rfl
  | node x l r ihl ihr =>
    cases way : go x with
    | none => rw [descend_stop way]
    | some side =>
      cases side with
      | false => exact (descend_left way).symm ▸ ihl _
      | true => exact (descend_right way).symm ▸ ihr _

/-- A search that stops has found a node where it stops. -/
theorem descend_node {x : α} {l r : BinaryTree α} (h : (descend go fs t).2 = .node x l r) : go x = none := by
  induction t generalizing fs with
  | nil => cases h
  | node y l' r' ihl ihr =>
    cases way : go y with
    | none =>
      rw [descend_stop way] at h
      cases h
      exact way
    | some side =>
      cases side with
      | false => exact ihl (descend_left way ▸ h)
      | true => exact ihr (descend_right way ▸ h)

theorem mem_descend {f : Frame α} (h : f ∈ (descend go fs t).1) : f ∈ fs ∨ go f.node = some f.side := by
  induction t generalizing fs with
  | nil => exact .inl h
  | node x l r ihl ihr =>
    cases way : go x with
    | none =>
      rw [descend_stop way] at h
      exact .inl h
    | some side =>
      cases side with
      | false =>
        rw [descend_left way] at h
        cases ihl h with
        | inl mem =>
          cases mem with
          | head => exact .inr way
          | tail _ mem => exact .inl mem
        | inr found => exact .inr found
      | true =>
        rw [descend_right way] at h
        cases ihr h with
        | inl mem =>
          cases mem with
          | head => exact .inr way
          | tail _ mem => exact .inl mem
        | inr found => exact .inr found

/-- To the right of a node where the search goes left it goes left as well. -/
structure Directs (go : α → Option Bool) (le : α → α → Prop) : Prop where
  left : ∀ x y, le x y → go x = some false → go y = some false
  right : ∀ x y, le y x → go x = some true → go y = some true

theorem sorted_at {x : α} {l r : BinaryTree α} (sorted : (inorder (plug fs (.node x l r))).Pairwise le) :
    (∀ y ∈ before fs ++ inorder l, le y x) ∧ ∀ y ∈ inorder r ++ after fs, le x y := by
  have split : inorder (plug fs (.node x l r)) = (before fs ++ inorder l) ++ x :: (inorder r ++ after fs) := by
    simp [inorder_plug]
  rw [split, List.pairwise_append, List.pairwise_cons] at sorted
  obtain ⟨_, ⟨later, _⟩, earlier⟩ := sorted
  exact ⟨fun y hy => earlier y hy x List.mem_cons_self, later⟩

/-- The search keeps to its place in the order. -/
theorem descend_bounds (directs : Directs go le) (sorted : (inorder (plug fs t)).Pairwise le)
    (below : ∀ y ∈ before fs, go y = some true) (above : ∀ y ∈ after fs, go y = some false) :
    (∀ y ∈ before (descend go fs t).1, go y = some true) ∧ ∀ y ∈ after (descend go fs t).1, go y = some false := by
  induction t generalizing fs with
  | nil => exact ⟨below, above⟩
  | node x l r ihl ihr =>
    obtain ⟨earlier, later⟩ := sorted_at sorted
    cases way : go x with
    | none =>
      rw [descend_stop way]
      exact ⟨below, above⟩
    | some side =>
      cases side with
      | false =>
        have sorted : (inorder (plug (⟨false, x, r⟩ :: fs) l)).Pairwise le := sorted
        rw [descend_left way]
        apply ihl sorted (by simpa using below)
        rw [after_left, List.forall_mem_cons]
        exact ⟨way, fun y hy => directs.left x y (later y hy) way⟩
      | true =>
        have sorted : (inorder (plug (⟨true, x, l⟩ :: fs) r)).Pairwise le := sorted
        rw [descend_right way]
        apply ihr sorted _ above
        intro y hy
        rw [before_right, ← List.append_assoc, List.mem_append, List.mem_singleton] at hy
        cases hy with
        | inl hy => exact directs.right x y (earlier y hy) way
        | inr here => exact here ▸ way

end SonicUtils.PtrTree
