import Mathlib.Order.Basic

/-!
# Loops that may fail

A loop is given by its turn, from which it goes on with a new state or returns.

* `Returns f a`: `f` gives `a`, whatever fuel it is given beyond a bound;
* `Returns.bind`: one computation after the other;
* `Leads turn s t`: some turns lead from `s` to `t`;
* `Ends turn s r`: from `s` the loop returns `r`;
* `Leads.ends`, `Returns.unique`: how these go together;
* `Raises f e`: `f` fails with `e`, whatever fuel it is given beyond a bound;
* `Persists out f fuel`: more fuel only changes that there was too little.
-/

namespace SonicUtils.Loop

variable {ε σ ρ : Type} {out : ε} {turn : σ → Except ε (σ ⊕ ρ)} {s t u : σ} {r r' : ρ}

/-- At most so many turns; `out` says that they were too few. -/
def loop (out : ε) (turn : σ → Except ε (σ ⊕ ρ)) : Nat → σ → Except ε ρ
  | 0, _ => throw out
  | fuel + 1, s => do
    match ← turn s with
    | .inl t => loop out turn fuel t
    | .inr r => return r

def Returns {α : Type} (f : Nat → Except ε α) (a : α) : Prop :=
  ∃ enough, ∀ fuel, enough ≤ fuel → f fuel = .ok a

theorem Returns.unique {α : Type} {f : Nat → Except ε α} {a b : α} (h : Returns f a) (h' : Returns f b) :
    a = b := by
  obtain ⟨m, run⟩ := h
  obtain ⟨n, run'⟩ := h'
  have same := (run (max m n) (Nat.le_max_left m n)).symm.trans (run' (max m n) (Nat.le_max_right m n))
  exact Except.ok.inj same

theorem Returns.of_ok {α : Type} {f : Nat → Except ε α} {a : α} (h : ∀ fuel, f fuel = .ok a) : Returns f a :=
  ⟨0, fun fuel _ => h fuel⟩

theorem Returns.bind {α β : Type} {f : Nat → Except ε α} {g : Nat → α → Except ε β} {a : α} {b : β}
    (first : Returns f a) (rest : Returns (fun fuel => g fuel a) b) :
    Returns (fun fuel => f fuel >>= g fuel) b := by
  obtain ⟨m, run⟩ := first
  obtain ⟨n, run'⟩ := rest
  refine ⟨max m n, fun fuel more => ?_⟩
  have here : f fuel >>= g fuel = g fuel a := by
    rw [run fuel (by omega)]
    rfl
  exact here.trans (run' fuel (by omega))

theorem Returns.bind_iff {α β : Type} {f : Nat → Except ε α} {g : Nat → α → Except ε β} {a : α} {b : β}
    (first : Returns f a) : Returns (fun fuel => f fuel >>= g fuel) b ↔ Returns (fun fuel => g fuel a) b := by
  refine ⟨?_, first.bind⟩
  rintro ⟨n, run'⟩
  obtain ⟨m, run⟩ := first
  refine ⟨max m n, fun fuel more => ?_⟩
  have here : f fuel >>= g fuel = g fuel a := by
    rw [run fuel (by omega)]
    rfl
  exact here.symm.trans (run' fuel (by omega))

/-- The first of the fuel is used up. -/
theorem Returns.of_succ {α : Type} {f : Nat → Except ε α} {a : α} (h : Returns (fun fuel => f (fuel + 1)) a) :
    Returns f a := by
  obtain ⟨enough, run⟩ := h
  refine ⟨enough + 1, fun fuel more => ?_⟩
  obtain ⟨fuel, rfl⟩ : ∃ n, fuel = n + 1 := ⟨fuel - 1, by omega⟩
  exact run fuel (by omega)

inductive Leads (turn : σ → Except ε (σ ⊕ ρ)) : σ → σ → Prop
  | refl (s : σ) : Leads turn s s
  | head {s t u : σ} : turn s = .ok (.inl t) → Leads turn t u → Leads turn s u

def Ends (out : ε) (turn : σ → Except ε (σ ⊕ ρ)) (s : σ) (r : ρ) : Prop :=
  Returns (fun fuel => loop out turn fuel s) r

theorem Leads.single (h : turn s = .ok (.inl t)) : Leads turn s t := .head h (.refl t)

theorem Leads.trans (h : Leads turn s t) (h' : Leads turn t u) : Leads turn s u := by
  induction h with
  | refl => exact h'
  | head first _ ih => exact .head first (ih h')

theorem loop_inl (fuel : Nat) (h : turn s = .ok (.inl t)) :
    loop out turn (fuel + 1) s = loop out turn fuel t := by
  rw [loop, h]
  rfl

theorem loop_inr (fuel : Nat) (h : turn s = .ok (.inr r)) : loop out turn (fuel + 1) s = .ok r := by
  rw [loop, h]
  rfl

theorem Ends.done (h : turn s = .ok (.inr r)) : Ends out turn s r := by
  exact .of_succ (.of_ok fun fuel => loop_inr fuel h)

theorem Ends.head (h : turn s = .ok (.inl t)) (rest : Ends out turn t r) : Ends out turn s r := by
  obtain ⟨enough, run⟩ := rest
  exact .of_succ ⟨enough, fun fuel more => (loop_inl fuel h).trans (run fuel more)⟩

/-- A loop that returns has had enough turns. -/
theorem Ends.of_ok {fuel : Nat} (run : loop out turn fuel s = .ok r) : Ends out turn s r := by
  induction fuel generalizing s with
  | zero => cases run
  | succ fuel ih =>
    cases ht : turn s with
    | error e =>
      rw [loop, ht] at run
      cases run
    | ok next =>
      cases next with
      | inl t => exact .head ht (ih ((loop_inl fuel ht).symm.trans run))
      | inr r' =>
        cases (loop_inr fuel ht).symm.trans run
        exact .done ht

/-- A loop that ends does so, or has had too few turns. -/
theorem Ends.cases (h : Ends out turn s r) (fuel : Nat) :
    loop out turn fuel s = .ok r ∨ loop out turn fuel s = .error out := by
  induction fuel generalizing s with
  | zero => exact .inr rfl
  | succ fuel ih =>
    obtain ⟨enough, run⟩ := h
    have far := run (enough + 1) (by omega)
    cases ht : turn s with
    | error e =>
      simp only [loop, ht] at far
      cases far
    | ok next =>
      cases next with
      | inl t =>
        rw [loop_inl fuel ht]
        exact ih ⟨enough, fun fuel' more => (loop_inl fuel' ht).symm.trans (run (fuel' + 1) (by omega))⟩
      | inr r' =>
        cases (loop_inr enough ht).symm.trans far
        exact .inl (loop_inr fuel ht)

/-- Every turn returns or makes the measure smaller. -/
theorem loop_measure {m : σ → Nat} (step : ∀ s, (∃ r, turn s = .ok (.inr r)) ∨ ∃ t, turn s = .ok (.inl t) ∧ m t < m s)
    (fuel : Nat) (s : σ) (enough : m s < fuel) : ∃ r, loop out turn fuel s = .ok r := by
  induction fuel generalizing s with
  | zero => exact absurd enough (Nat.not_lt_zero _)
  | succ fuel ih =>
    obtain ⟨r, last⟩ | ⟨t, next, less⟩ := step s
    · exact ⟨r, loop_inr fuel last⟩
    · rw [loop_inl fuel next]
      exact ih t (by omega)

/-- The computation fails, whatever fuel it is given beyond a bound. -/
def Raises {α : Type} (f : Nat → Except ε α) (e : ε) : Prop :=
  ∃ enough, ∀ fuel, enough ≤ fuel → f fuel = .error e

theorem Raises.bind {α β : Type} {f : Nat → Except ε α} {e : ε} (first : Raises f e) (g : Nat → α → Except ε β) :
    Raises (fun fuel => f fuel >>= g fuel) e := by
  obtain ⟨enough, run⟩ := first
  refine ⟨enough, fun fuel more => ?_⟩
  dsimp only
  rw [run fuel more]
  rfl

theorem Returns.raises {α β : Type} {f : Nat → Except ε α} {g : Nat → α → Except ε β} {a : α} {e : ε}
    (first : Returns f a) (rest : Raises (fun fuel => g fuel a) e) : Raises (fun fuel => f fuel >>= g fuel) e := by
  obtain ⟨m, run⟩ := first
  obtain ⟨n, run'⟩ := rest
  refine ⟨max m n, fun fuel more => ?_⟩
  have here : f fuel >>= g fuel = g fuel a := by
    rw [run fuel (by omega)]
    rfl
  exact here.trans (run' fuel (by omega))

theorem Raises.of_succ {α : Type} {f : Nat → Except ε α} {e : ε} (h : Raises (fun fuel => f (fuel + 1)) e) :
    Raises f e := by
  obtain ⟨enough, run⟩ := h
  refine ⟨enough + 1, fun fuel more => ?_⟩
  obtain ⟨fuel, rfl⟩ : ∃ n, fuel = n + 1 := ⟨fuel - 1, by omega⟩
  exact run fuel (by omega)

/-- A turn that fails. -/
theorem Raises.of_turn {e : ε} (fails : turn s = .error e) : Raises (fun fuel => loop out turn fuel s) e := by
  apply Raises.of_succ
  refine ⟨0, fun fuel _ => ?_⟩
  dsimp only
  rw [loop, fails]
  rfl

theorem Leads.raises {e : ε} (h : Leads turn s t) (rest : Raises (fun fuel => loop out turn fuel t) e) :
    Raises (fun fuel => loop out turn fuel s) e := by
  induction h with
  | refl => exact rest
  | head first _ ih =>
    obtain ⟨enough, run⟩ := ih rest
    exact .of_succ ⟨enough, fun fuel more => (loop_inl fuel first).trans (run fuel more)⟩

/-- What fails does not return. -/
theorem Raises.not_returns {α : Type} {f : Nat → Except ε α} {e : ε} (h : Raises f e) (a : α) : ¬ Returns f a := by
  obtain ⟨m, run⟩ := h
  rintro ⟨n, run'⟩
  cases (run (max m n) (Nat.le_max_left m n)).symm.trans (run' (max m n) (Nat.le_max_right m n))

/-- More fuel only changes that there was too little. -/
def Persists {α : Type} (out : ε) (f : Nat → Except ε α) (fuel : Nat) : Prop :=
  f fuel ≠ .error out → f (fuel + 1) = f fuel

theorem Persists.const {α : Type} (r : Except ε α) (fuel : Nat) : Persists out (fun _ => r) fuel := fun _ => rfl

theorem Persists.of_succ {α : Type} {f g : Nat → Except ε α} {fuel : Nat} (turn : ∀ fuel, f (fuel + 1) = g fuel)
    (h : Persists out g fuel) : Persists out f (fuel + 1) := by
  unfold Persists
  rw [turn, turn]
  exact h

theorem Persists.bind {α β : Type} {f : Nat → Except ε α} {g : Nat → α → Except ε β} {fuel : Nat}
    (first : Persists out f fuel) (rest : ∀ a, Persists out (fun fuel => g fuel a) fuel) :
    Persists out (fun fuel => f fuel >>= g fuel) fuel := by
  intro enough
  dsimp only at enough ⊢
  have some_ : f fuel ≠ .error out := by
    intro short
    rw [short] at enough
    exact enough rfl
  rw [first some_]
  cases run : f fuel with
  | error e => rfl
  | ok a =>
    rw [run] at enough
    exact rest a enough

theorem Persists.loop (out : ε) (turn : σ → Except ε (σ ⊕ ρ)) (s : σ) (fuel : Nat) :
    Persists out (fun fuel => loop out turn fuel s) fuel := by
  intro enough
  induction fuel generalizing s with
  | zero => exact absurd rfl enough
  | succ fuel ih =>
    dsimp only at enough ⊢
    rw [Loop.loop] at enough ⊢
    rw [Loop.loop]
    cases ht : turn s with
    | error e => rfl
    | ok next =>
      rw [ht] at enough
      cases next with
      | inl t => exact ih t enough
      | inr r => rfl

/-- What returns fails with too little fuel only. -/
theorem Returns.cases {α : Type} {f : Nat → Except ε α} {a : α} (h : Returns f a) (persists : ∀ fuel, Persists out f fuel)
    (fuel : Nat) : f fuel = .ok a ∨ f fuel = .error out := by
  obtain ⟨enough, run⟩ := h
  by_cases short : f fuel = .error out
  · exact .inr short
  · have same (more : Nat) : f (fuel + more) = f fuel := by
      induction more with
      | zero => rfl
      | succ more ih => exact (persists _ (ih ▸ short)).trans ih
    exact .inl ((same enough).symm.trans (run _ (by omega)))

theorem Leads.ends (h : Leads turn s t) (rest : Ends out turn t r) : Ends out turn s r := by
  induction h with
  | refl => exact rest
  | head first _ ih => exact .head first (ih rest)

end SonicUtils.Loop
