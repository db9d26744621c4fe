import SonicUtils.Lib.Loop

/-!
# Ways in which the C code can go wrong

A function of the tables and lists is a computation in `Except Fault`. That it
returns at all then says that no pointer it follows is null or freed, that no
assertion fires and that its loops end.
-/

namespace SonicUtils

inductive Fault
  | nullPointer
  | freed
  | assertion
  | noReturn
  deriving DecidableEq, Repr

/-- `assert`. -/
def check (p : Prop) [Decidable p] : Except Fault Unit :=
  if p then pure () else throw .assertion

/-- A pointer that is followed. -/
def deref {α : Type} : Option α → Except Fault α
  | none => throw .nullPointer
  | some a => pure a

@[simp] theorem check_of {p : Prop} [Decidable p] (h : p) : check p = .ok () := if_pos h

@[simp] theorem deref_some {α : Type} (a : α) : deref (some a) = .ok a := rfl

@[simp] theorem ok_bind {α β : Type} (a : α) (f : α → Except Fault β) :
    (Except.ok a >>= f) = f a := rfl

@[simp] theorem pure_eq_ok {α : Type} (a : α) : (pure a : Except Fault α) = .ok a := rfl

/-- What the computation gives, if it gives anything, has the property. -/
structure Ensures {α : Type} (c : Except Fault α) (P : α → Prop) : Prop where
  of_ok : ∀ a, c = .ok a → P a

theorem Ensures.pure {α : Type} {a : α} {P : α → Prop} (h : P a) :
    Ensures (Pure.pure a : Except Fault α) P := by
  constructor
  intro b run
  cases run
  exact h

theorem Ensures.bind {α β : Type} {c : Except Fault α} {f : α → Except Fault β} {P : α → Prop}
    {Q : β → Prop} (first : Ensures c P) (rest : ∀ a, P a → Ensures (f a) Q) : Ensures (c >>= f) Q := by
  constructor
  intro b run
  cases hc : c with
  | error e =>
    rw [hc] at run
    cases run
  | ok a =>
    rw [hc] at run
    exact (rest a (first.of_ok a hc)).of_ok b run

/-- The first computation is one that no later one depends on. -/
theorem Ensures.any {α β : Type} {c : Except Fault α} {f : α → Except Fault β} {Q : β → Prop}
    (rest : ∀ a, Ensures (f a) Q) : Ensures (c >>= f) Q :=
  Ensures.bind (P := fun _ => True) ⟨fun _ _ => trivial⟩ fun a _ => rest a

theorem Ensures.check {β : Type} {p : Prop} [Decidable p] {f : Unit → Except Fault β} {Q : β → Prop}
    (rest : p → Ensures (f ()) Q) : Ensures (check p >>= f) Q := by
  by_cases h : p
  · rw [check_of h, ok_bind]
    exact rest h
  · constructor
    intro b run
    rw [SonicUtils.check, if_neg h] at run
    cases run

theorem Ensures.and {α : Type} {c : Except Fault α} {P Q : α → Prop} (h : Ensures c P) (h' : Ensures c Q) :
    Ensures c fun a => P a ∧ Q a :=
  ⟨fun a run => ⟨h.of_ok a run, h'.of_ok a run⟩⟩

theorem Ensures.mono {α : Type} {c : Except Fault α} {P Q : α → Prop} (h : Ensures c P)
    (weaker : ∀ a, P a → Q a) : Ensures c Q :=
  ⟨fun a run => weaker a (h.of_ok a run)⟩

/-- What every turn of a loop keeps, it keeps, and what the last turn gives, it gives. -/
theorem Ensures.loop {σ ρ : Type} {turn : σ → Except Fault (σ ⊕ ρ)} {K : σ → Prop} {Q : ρ → Prop} {out : Fault}
    (keeps : ∀ s, K s → Ensures (turn s) fun next => next.elim K Q) (fuel : Nat) {s : σ} (start : K s) :
    Ensures (Loop.loop out turn fuel s) Q := by
  induction fuel generalizing s with
  | zero => exact ⟨fun _ run => by cases run⟩
  | succ fuel ih =>
    apply Ensures.bind (keeps s start)
    intro next kept
    cases next with
    | inl t => exact ih kept
    | inr r => exact .pure kept

/-! ## Two computations -/

/-- The computations fail in the same way, or they give what `R` relates. -/
inductive Agree {α β : Type} (R : α → β → Prop) : Except Fault α → Except Fault β → Prop
  | fails (e : Fault) : Agree R (.error e) (.error e)
  | gives {a : α} {b : β} (related : R a b) : Agree R (.ok a) (.ok b)

variable {α β γ δ : Type} {R : α → β → Prop} {Q : γ → δ → Prop}

theorem Agree.pure {a : α} {b : β} (h : R a b) :
    Agree R (Pure.pure a : Except Fault α) (Pure.pure b : Except Fault β) := .gives h

theorem Agree.bind {c : Except Fault α} {d : Except Fault β} {f : α → Except Fault γ}
    {g : β → Except Fault δ} (first : Agree R c d) (rest : ∀ a b, R a b → Agree Q (f a) (g b)) :
    Agree Q (c >>= f) (d >>= g) := by
  cases first with
  | fails e => exact .fails e
  | gives related => exact rest _ _ related

/-- The two computations begin with the same one. -/
theorem Agree.same {c : Except Fault α} {f : α → Except Fault γ} {g : α → Except Fault δ}
    (rest : ∀ a, Agree Q (f a) (g a)) : Agree Q (c >>= f) (c >>= g) := by
  cases c with
  | error e => exact .fails e
  | ok a => exact rest a

theorem Agree.mono {Q : α → β → Prop} {c : Except Fault α} {d : Except Fault β} (h : Agree R c d)
    (weaker : ∀ a b, R a b → Q a b) : Agree Q c d := by
  cases h with
  | fails e => exact .fails e
  | gives related => exact .gives (weaker _ _ related)

theorem Agree.ensures {c : Except Fault α} {d : Except Fault β} {P : α → Prop} (h : Agree R c d)
    (left : Ensures c P) : Agree (fun a b => R a b ∧ P a) c d := by
  cases h with
  | fails e => exact .fails e
  | gives related => exact .gives ⟨related, left.of_ok _ rfl⟩

end SonicUtils
