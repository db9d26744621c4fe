import Mathlib.Data.List.Chain
import Mathlib.Data.List.Nodup
import SonicUtils.Lib.Loop

/-!
# Doubly linked chains

A list of nodes of which neighbours point at one another. `next` and `back`
give the pointers of every node.

* `Linked.insert`, `Linked.remove`: four pointers, or two, are set;
* `collect`: a loop that follows one of the pointers.
-/

namespace SonicUtils.Chain

open Loop

variable {ρ : Type} {next back next' back' : ρ → Option ρ} {l₁ l₂ : List ρ} {p q x : ρ}

def Linked (next back : ρ → Option ρ) (l : List ρ) : Prop :=
  l.IsChain fun p q => next p = some q ∧ back q = some p

theorem linked_pair : Linked next back (l₁ ++ p :: q :: l₂) ↔
    Linked next back (l₁ ++ [p]) ∧ (next p = some q ∧ back q = some p) ∧ Linked next back (q :: l₂) :=
  List.isChain_append_cons_cons

theorem Linked.next_of (h : Linked next back (l₁ ++ p :: q :: l₂)) : next p = some q :=
  (linked_pair.mp h).2.1.1

theorem Linked.back_of (h : Linked next back (l₁ ++ p :: q :: l₂)) : back q = some p :=
  (linked_pair.mp h).2.1.2

/-- The pointer of the last node onwards does not matter. -/
theorem Linked.congr_left (h : Linked next back (l₁ ++ [p])) (fwd : ∀ y ∈ l₁, next' y = next y)
    (bwd : ∀ y ∈ l₁ ++ [p], back' y = back y) : Linked next' back' (l₁ ++ [p]) := by
  apply List.isChain_iff_forall_rel_of_append_cons_cons.mpr
  intro a b u v split
  have pair := List.isChain_iff_forall_rel_of_append_cons_cons.mp h split
  have inside : a ∈ l₁ := by
    have front := congrArg List.dropLast split
    rw [List.dropLast_concat, List.dropLast_append_cons, List.dropLast_cons_cons] at front
    simp [front]
  have beyond : b ∈ l₁ ++ [p] := by simp [split]
  rw [fwd a inside, bwd b beyond]
  exact pair

/-- The pointer of the first node back does not matter. -/
theorem Linked.congr_right (h : Linked next back (q :: l₂)) (fwd : ∀ y ∈ q :: l₂, next' y = next y)
    (bwd : ∀ y ∈ l₂, back' y = back y) : Linked next' back' (q :: l₂) := by
  apply List.IsChain.imp_of_mem_tail_imp _ h
  intro a b ha hb pair
  rw [fwd a ha, bwd b hb]
  exact pair

/-- A node goes in between two others. -/
theorem Linked.insert (h : Linked next back (l₁ ++ p :: q :: l₂)) (distinct : (l₁ ++ p :: q :: l₂).Nodup)
    (new : x ∉ l₁ ++ p :: q :: l₂) (from_p : next' p = some x) (from_x : next' x = some q)
    (fwd : ∀ y, y ≠ p → y ≠ x → next' y = next y) (to_p : back' x = some p) (to_x : back' q = some x)
    (bwd : ∀ y, y ≠ q → y ≠ x → back' y = back y) : Linked next' back' (l₁ ++ p :: x :: q :: l₂) := by
  obtain ⟨left, _, right⟩ := linked_pair.mp h
  have apart : ∀ y ∈ l₁ ++ p :: q :: l₂, y ≠ x := fun y hy same => new (same ▸ hy)
  simp only [List.nodup_append, List.nodup_cons, List.mem_cons] at distinct
  obtain ⟨_, ⟨hp, hq, _⟩, beside⟩ := distinct
  refine linked_pair.mpr ⟨left.congr_left ?_ ?_, ⟨from_p, to_p⟩, ?_⟩
  · intro y hy
    exact fwd y (beside y hy p (.inl rfl)) (apart y (by simp [hy]))
  · intro y hy
    rcases List.mem_append.mp hy with inside | last
    · exact bwd y (beside y inside q (.inr (.inl rfl))) (apart y (by simp [inside]))
    · obtain rfl := List.mem_singleton.mp last
      exact bwd y (fun same => hp (.inl same)) (apart y (by simp))
  · refine List.isChain_cons_cons.mpr ⟨⟨from_x, to_x⟩, right.congr_right ?_ ?_⟩
    · intro y hy
      exact fwd y (fun same => hp (same ▸ List.mem_cons.mp hy)) (apart y (by simp [List.mem_cons.mp hy]))
    · intro y hy
      exact bwd y (fun same => hq (same ▸ hy)) (apart y (by simp [hy]))

/-- A node is taken out from between two others. -/
theorem Linked.remove (h : Linked next back (l₁ ++ p :: x :: q :: l₂))
    (distinct : (l₁ ++ p :: x :: q :: l₂).Nodup) (from_p : next' p = some q)
    (fwd : ∀ y, y ≠ p → y ≠ x → next' y = next y) (to_p : back' q = some p)
    (bwd : ∀ y, y ≠ q → y ≠ x → back' y = back y) : Linked next' back' (l₁ ++ p :: q :: l₂) := by
  obtain ⟨left, _, rest⟩ := linked_pair.mp h
  obtain ⟨_, right⟩ := List.isChain_cons_cons.mp rest
  simp only [List.nodup_append, List.nodup_cons, List.mem_cons] at distinct
  obtain ⟨_, ⟨hp, hx, hq, _⟩, beside⟩ := distinct
  refine linked_pair.mpr ⟨left.congr_left ?_ ?_, ⟨from_p, to_p⟩, Linked.congr_right right ?_ ?_⟩
  · intro y hy
    exact fwd y (beside y hy p (.inl rfl)) (beside y hy x (.inr (.inl rfl)))
  · intro y hy
    rcases List.mem_append.mp hy with inside | last
    · exact bwd y (beside y inside q (.inr (.inr (.inl rfl)))) (beside y inside x (.inr (.inl rfl)))
    · obtain rfl := List.mem_singleton.mp last
      exact bwd y (fun same => hp (.inr (.inl same))) fun same => hp (.inl same)
  · intro y hy
    have place := List.mem_cons.mp hy
    exact fwd y (fun same => hp (.inr (same ▸ place))) fun same => hx (same ▸ place)
  · intro y hy
    exact bwd y (fun same => hq (same ▸ hy)) fun same => hx (.inr (same ▸ hy))

/-! ## Iteration -/

variable {ε : Type} {out : ε}

/-- One turn of `for (p = first; p; p = step(p))`, with the nodes seen so far. -/
def collectTurn (step : ρ → Option ρ) (s : Option ρ × List ρ) :
    Except ε ((Option ρ × List ρ) ⊕ List ρ) :=
  match s with
  | (none, seen) => return .inr seen
  | (some p, seen) => return .inl (step p, seen ++ [p])

theorem collect {step : ρ → Option ρ} {l : List ρ} (chain : l.IsChain fun p q => step p = some q)
    (last : ∀ p ∈ l.getLast?, step p = none) (seen : List ρ) :
    Ends out (collectTurn step) (l.head?, seen) (seen ++ l) := by
  induction l generalizing seen with
  | nil => exact .done (by simp [collectTurn, pure, Except.pure])
  | cons p l ih =>
    have rest : step p = l.head? := by
      cases l with
      | nil => exact last p (by simp)
      | cons q l => exact (List.isChain_cons_cons.mp chain).1
    have run := ih chain.tail (fun q hq => last q (by cases l <;> simp_all)) (seen ++ [p])
    rw [List.append_assoc, List.singleton_append] at run
    refine .head (t := (step p, seen ++ [p])) rfl ?_
    rw [rest]
    exact run

end SonicUtils.Chain
