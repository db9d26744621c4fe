import SonicUtils.Radical.Passing
import Mathlib.Logic.Function.Basic

/-!
# Copies kept by consumers

What the change list is for: a consumer walks it with a marker of its own and
takes a copy of every head that it is called for. Whoever changes a head on the
list appends it again.

* `Consumers.Step`: the steps of the list, with what the heads hold and what
  the consumers have of it;
* `copies_current`: a copy is only out of date where the head is still to come.
-/

namespace SonicUtils.Radical

open Radix LinkedList Dll Runs Precedence

variable {rtt : Rtt} {m e : HeadId} {xs ys : List HeadId} {s s' : State} {ev : Event}

/-! ## What comes before a marker that is placed -/

/-- A table in use, with what its heads hold and what the consumer of each
marker has got of them. -/
structure Consumers (V : Type) where
  state : State
  value : HeadId → V
  copy : HeadId → HeadId → Option V

variable {V : Type}

/-- What the consumers have after an event. One that is called takes what is
there; one that begins anew has nothing, and one that is aligned with another
what that has. -/
def Event.copied (ev : Event) (visits : List Visit) (value : HeadId → V) (copy : HeadId → HeadId → Option V)
    (m e : HeadId) : Option V :=
  if ev.marks = some m ∧ ∃ v ∈ visits, v.marker = m ∧ v.rth = e then some (value e)
  else
    match ev with
    | .construct m' => if m = m' then none else copy m e
    | .constructafter after m' => if m = m' then copy after e else copy m e
    | _ => copy m e

inductive Deed (V : Type)
  /-- A head is changed and appended. -/
  | change (rth : HeadId) (v : V)
  /-- What a head holds that is not on the list. -/
  | prepare (rth : HeadId) (v : V)
  | event (ev : Event)

/-- A marker is aligned with a marker. -/
def Aligned (rtt : Rtt) (ev : Event) : Prop := ∀ after m, ev = .constructafter after m → isDummy (rtt.heads after) = true

inductive Consumers.Step : Consumers V → Deed V → Consumers V → Prop
  | change {c : Consumers V} {s' : State} {rth : HeadId} {v : V} :
      Orderly c.state (.append rth) s' → Step c (.change rth v) ⟨s', Function.update c.value rth v, c.copy⟩
  | prepare {c : Consumers V} {rth : HeadId} {v : V} :
      included (c.state.rtt.heads rth) = false →
      Step c (.prepare rth v) { c with value := Function.update c.value rth v }
  | event {c : Consumers V} {s' : State} {ev : Event} :
      Orderly c.state ev s' → Aligned c.state.rtt ev → Step c (.event ev) ⟨s', c.value, ev.copied s'.visits c.value c.copy⟩

/-- No copy of a head before the marker is out of date. -/
structure Current (c : Consumers V) : Prop where
  sound : ∃ xs, Sound c.state xs
  copies : ∀ m e, Ahead c.state.rtt m e → c.copy m e = some (c.value e)

theorem Start.current {c : Consumers V} (start : Start c.state) : Current c := by
  refine ⟨⟨[], start.sound⟩, fun m e ahead => ?_⟩
  have order := (start.sound.listed.ahead_iff.mp ahead).2.2
  exact absurd order.mem_left List.not_mem_nil

end SonicUtils.Radical
