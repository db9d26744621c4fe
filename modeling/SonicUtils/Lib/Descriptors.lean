import Mathlib.Data.List.Basic
import Mathlib.Logic.Function.Basic

/-!
# Descriptors of a process

A process with a table of descriptors, `dup`, `dup2` and `close`, any of which
may also fail for a reason of its own. `F` are the open files.

* `dup_cases`, `dup2_cases`: what a call does;
* `closeAll_file`: the descriptors that are left open.
-/

namespace SonicUtils.Descriptors

structure Process (F : Type) where
  file : Int → Option F
  /-- Descriptors are below it. -/
  limit : Nat
  errno : Nat
  /-- What the next calls fail with. -/
  faults : List (Option Nat)

def ebadf : Nat := 9
def emfile : Nat := 24

namespace Process

variable {F : Type}

/-- The lowest number that is free. -/
def lowest (p : Process F) : Option Int := ((List.range p.limit).map Int.ofNat).find? fun n => (p.file n).isNone

def fault (p : Process F) : Option Nat := p.faults.head?.join

/-- A call is made. -/
def called (p : Process F) : Process F := { p with faults := p.faults.tail }

def failed (p : Process F) (errno : Nat) : Option Int × Process F := (none, { p.called with errno })

def opened (p : Process F) (fd : Int) (f : F) : Option Int × Process F :=
  (some fd, { p.called with file := Function.update p.file fd (some f) })

/-- `dup`; there is no descriptor where it returns -1. -/
def dup (p : Process F) (fd : Int) : Option Int × Process F :=
  match p.fault, p.file fd, p.lowest with
  | some e, _, _ => p.failed e
  | none, none, _ => p.failed ebadf
  | none, some _, none => p.failed emfile
  | none, some f, some n => p.opened n f

def dup2 (p : Process F) (old new : Int) : Option Int × Process F :=
  match p.fault, p.file old with
  | some e, _ => p.failed e
  | none, none => p.failed ebadf
  | none, some f => if 0 ≤ new ∧ new < p.limit then p.opened new f else p.failed ebadf

/-- `close`, which frees the descriptor even when it reports an error. -/
def close (p : Process F) (fd : Int) : Process F :=
  match p.fault, p.file fd with
  | some e, _ => { p.called with file := Function.update p.file fd none, errno := e }
  | none, none => { p.called with errno := ebadf }
  | none, some _ => { p.called with file := Function.update p.file fd none }

def closeAll (p : Process F) (fds : List Int) : Process F := fds.foldl close p

variable {p q : Process F} {fd : Int}

theorem lowest_some {n : Int} (found : p.lowest = some n) : p.file n = none ∧ 0 ≤ n ∧ n < p.limit := by
  have free := List.find?_some found
  obtain ⟨k, mem, rfl⟩ := List.mem_map.mp (List.mem_of_find?_eq_some found)
  have less := List.mem_range.mp mem
  exact ⟨Option.isNone_iff_eq_none.mp free, Int.natCast_nonneg k, Int.ofNat_lt.mpr less⟩

/-- A `dup` fails and changes no descriptor, or it opens a free one. -/
theorem dup_cases (p : Process F) (fd : Int) :
    ((p.dup fd).1 = none ∧ (p.dup fd).2.file = p.file) ∨
      ∃ n f, p.fault = none ∧ p.file fd = some f ∧ p.lowest = some n ∧ p.file n = none ∧ p.dup fd = p.opened n f := by
  unfold dup
  cases fault : p.fault with
  | some e => exact .inl ⟨rfl, rfl⟩
  | none =>
    cases file : p.file fd with
    | none => exact .inl ⟨rfl, rfl⟩
    | some f =>
      cases low : p.lowest with
      | none => exact .inl ⟨rfl, rfl⟩
      | some n => exact .inr ⟨n, f, rfl, rfl, rfl, (lowest_some low).1, rfl⟩

/-- A `dup2` fails and changes no descriptor, or it makes one of them the other. -/
theorem dup2_cases (p : Process F) (old new : Int) :
    ((p.dup2 old new).1 = none ∧ (p.dup2 old new).2.file = p.file) ∨
      ∃ f, p.fault = none ∧ p.file old = some f ∧ (0 ≤ new ∧ new < p.limit) ∧ p.dup2 old new = p.opened new f := by
  unfold dup2
  cases fault : p.fault with
  | some e => exact .inl ⟨rfl, rfl⟩
  | none =>
    cases file : p.file old with
    | none => exact .inl ⟨rfl, rfl⟩
    | some f =>
      dsimp only
      split
      · rename_i inside
        exact .inr ⟨f, rfl, rfl, inside, rfl⟩
      · exact .inl ⟨rfl, rfl⟩

theorem dup2_calls (p : Process F) (old new : Int) :
    (p.dup2 old new).2.faults = p.faults.tail ∧ (p.dup2 old new).2.limit = p.limit := by
  unfold dup2
  split
  · exact ⟨rfl, rfl⟩
  · exact ⟨rfl, rfl⟩
  · split
    · exact ⟨rfl, rfl⟩
    · exact ⟨rfl, rfl⟩

theorem close_file (p : Process F) (fd : Int) : (p.close fd).file = Function.update p.file fd none := by
  unfold close
  cases p.fault with
  | some e => rfl
  | none =>
    cases file : p.file fd with
    | none => exact (Function.update_eq_self_iff.mpr file.symm).symm
    | some f => rfl

theorem closeAll_file (p : Process F) (fds : List Int) (fd : Int) :
    (p.closeAll fds).file fd = if fd ∈ fds then none else p.file fd := by
  induction fds generalizing p with
  | nil => rfl
  | cons c fds ih =>
    rw [closeAll, List.foldl_cons, ← closeAll, ih, close_file]
    by_cases later : fd ∈ fds
    · simp [later]
    · by_cases same : fd = c
      · simp [same]
      · simp [later, same]

end Process

end SonicUtils.Descriptors
