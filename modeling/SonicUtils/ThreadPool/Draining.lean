import Mathlib
import SonicUtils.Lib.Runs
import SonicUtils.ThreadPool.Wakeup

/-!
# The pool runs dry

What the workers do of themselves, while nobody adds a job, comes to an end,
whatever the order they come in, and then every accepted job has been done.

* `Works`: the steps of the workers that are awake;
* `works_lighter`: each of them leaves less to do;
* `idle_of_stuck`: when none is possible, nothing is left;
* `pool_drains`: runs.
-/

namespace SonicUtils.ThreadPool

open Runs

variable {n : Nat} {s t : Context n} {w v : Fin n}

/-- A worker that is awake does something; no job is accepted. -/
def Works (s : Context n) (w : Fin n) (t : Context n) : Prop :=
  Step s t ∧ t.accepted = s.accepted ∧ s.pc w ≠ .waiting ∧ t.pc w ≠ s.pc w

/-! ## Who owns the mutex -/

/-- The owner of the mutex is inside a critical section. -/
def Owned (s : Context n) : Prop := ∀ w, s.owner = some w → (s.pc w).holds = true

theorem Owned.signal (h : Owned s) (sig : Signal s t) : Owned t := by
  intro w owner
  rw [(signal_frame sig).1] at owner
  rcases signal_pc sig w with same | ⟨asleep, _⟩
  · exact same ▸ h w owner
  · have inside := h w owner
    simp [asleep, WorkerPc.holds] at inside

theorem owned_acquire (s : Context n) (w : Fin n) {p : WorkerPc} (inside : p.holds = true) :
    Owned ((s.acquire w).goto w p) := by
  intro v owner
  obtain rfl : w = v := Option.some.inj owner
  rw [goto_here]
  exact inside

theorem owned_release (s : Context n) (w : Fin n) (p : WorkerPc) : Owned (s.release.goto w p) := by
  intro v owner
  cases owner

theorem Owned.goto (h : Owned s) {p : WorkerPc} (same : (s.pc w).holds = true → p.holds = true) : Owned (s.goto w p) := by
  intro v owner
  have inside := h v owner
  by_cases here : v = w
  · subst here
    rw [goto_here]
    exact same inside
  · rwa [goto_elsewhere _ _ _ _ here]

theorem step_owned (h : Owned s) (step : Step s t) : Owned t := by
  cases step with
  | addWork job _ signal =>
    have pushed : Owned (s.push job) := h
    exact pushed.signal signal
  | addWorkFails => exact h
  | lock w _ _ => exact owned_acquire s w rfl
  | relock w _ _ => exact owned_acquire s w rfl
  | testDown w _ _ => exact owned_release s w _
  | testUp w _ _ => exact h.goto fun _ => rfl
  | returnMore w _ _ => exact h.goto fun _ => rfl
  | dequeueDown w _ _ _ => exact owned_release _ w _
  | dequeueEmpty w _ _ _ => exact owned_release s w _
  | returnEmpty w _ _ => exact owned_release s w _
  | dequeueLast w e _ _ _ => exact owned_release _ w _
  | dequeueMore w e f rest _ _ _ signal =>
    have taken : Owned (s.take w e (f :: rest)) := owned_release _ w _
    exact taken.signal signal
  | jobReturns w e here _ =>
    have noted : Owned { s with finished := s.finished ++ [e] } := h
    exact noted.goto fun inside => by simp [here, WorkerPc.holds] at inside
  | jobFrees w e here _ _ => exact h.goto fun inside => by simp [here, WorkerPc.holds] at inside
  | freeReturns w e here =>
    have noted : Owned { s with finished := s.finished ++ [e] } := h
    exact noted.goto fun inside => by simp [here, WorkerPc.holds] at inside
  | wake w here => exact h.goto fun inside => by simp [here, WorkerPc.holds] at inside
  | delete => exact h
  | deleteDestroys => exact h
  | deleteReturns => exact h
  | @deleteSignal t _ _ _ signal =>
    have signalled : Owned t := h.signal signal
    exact signalled

/-! ## Before the shutdown -/

/-- Before the shutdown nobody has left, and what is finished was finished once. -/
structure Staffed (s : Context n) : Prop where
  here : s.shutdown = false → ∀ w, s.pc w ≠ .exited
  once : s.finished.Nodup

theorem goto_staying {p : WorkerPc} (h : ∀ v, s.pc v ≠ .exited) (on : p ≠ .exited) (v : Fin n) :
    (s.goto w p).pc v ≠ .exited := by
  by_cases same : v = w
  · rw [same, goto_here]
    exact on
  · rw [goto_elsewhere _ _ _ _ same]
    exact h v

theorem signal_staying (sig : Signal s t) (h : ∀ v, s.pc v ≠ .exited) (v : Fin n) : t.pc v ≠ .exited := by
  rcases signal_pc sig v with same | ⟨_, woken⟩
  · rw [same]
    exact h v
  · rw [woken]
    decide

theorem Staffed.finish {e : Entry} (h : Staffed s) (fresh : e ∉ s.finished) : Staffed (s.finish w e) where
  here up := goto_staying (s := { s with finished := s.finished ++ [e] }) (h.here up) (by decide)
  once := by
    show (s.finished ++ [e]).Nodup
    exact h.once.append (List.nodup_singleton e) (by simpa using fresh)

theorem Staffed.goto {p : WorkerPc} (h : Staffed s) (on : p ≠ .exited) : Staffed (s.goto w p) where
  here up := goto_staying (h.here up) on
  once := h.once

theorem Staffed.signal (h : Staffed s) (sig : Signal s t) : Staffed t where
  here up := signal_staying sig (h.here ((signal_frame sig).2.2.1 ▸ up))
  once := (signal_frame sig).2.2.2.2.2 ▸ h.once

theorem Staffed.congr (h : Staffed s) (pc : t.pc = s.pc) (finished : t.finished = s.finished)
    (shutdown : t.shutdown = false → s.shutdown = false) : Staffed t where
  here up := pc ▸ h.here (shutdown up)
  once := finished ▸ h.once

theorem Staffed.take (h : Staffed s) (w : Fin n) (e : Entry) (rest : List Entry) : Staffed (s.take w e rest) := by
  have popped : Staffed { s with jobs := rest, started := s.started ++ [e] }.release := h.congr rfl rfl id
  exact popped.goto (by simp)

theorem step_staffed (h : Staffed s) (acc : Accounting s) (step : Step s t) : Staffed t := by
  cases step with
  | addWork job _ signal => exact (h.congr (t := s.push job) rfl rfl id).signal signal
  | addWorkFails => exact h
  | lock w _ _ => exact (h.congr (t := s.acquire w) rfl rfl id).goto (by decide)
  | relock w _ _ => exact (h.congr (t := s.acquire w) rfl rfl id).goto (by decide)
  | testDown w _ down => exact ⟨fun up => absurd (down.symm.trans up) (by decide), h.once⟩
  | testUp w _ _ => exact h.goto (by decide)
  | returnMore w _ _ => exact h.goto (by decide)
  | dequeueDown w _ down signal =>
    exact ((h.signal signal).congr (t := Context.release _) rfl rfl id).goto (by decide)
  | dequeueEmpty w _ _ _ => exact (h.congr (t := s.release) rfl rfl id).goto (by decide)
  | returnEmpty w _ _ => exact (h.congr (t := s.release) rfl rfl id).goto (by decide)
  | dequeueLast w e _ _ _ => exact h.take w e []
  | dequeueMore w e f rest _ _ _ signal => exact (h.take w e (f :: rest)).signal signal
  | jobReturns w e here _ => exact h.finish (acc.held w e (.inl here)).2
  | jobFrees w e _ _ _ => exact h.goto (by simp)
  | freeReturns w e here => exact h.finish (acc.held w e (.inr here)).2
  | wake w _ => exact h.goto (by decide)
  | delete => exact h.congr rfl rfl fun up => by cases up
  | deleteDestroys => exact h.congr rfl rfl id
  | deleteReturns => exact h.congr rfl rfl id
  | @deleteSignal t _ _ _ signal => exact (h.signal signal).congr rfl rfl id

theorem reachable_staffed (h : Reachable n s) : Owned s ∧ Staffed s := by
  induction h with
  | start =>
    refine ⟨fun w owner => ?_, ⟨fun _ w no => ?_, List.nodup_nil⟩⟩
    · cases owner
    · cases no
  | next before step ih => exact ⟨step_owned ih.1 step, step_staffed ih.2 (reachable_inv before).accounting step⟩

/-! ## What is left to do -/

/-- How far a worker is from going to sleep, if it finds no job. -/
def WorkerPc.weight : WorkerPc → Nat
  | .running _ => 8
  | .freeing _ => 7
  | .relocking => 6
  | .returning => 5
  | .locking => 4
  | .testing => 3
  | .dequeuing => 2
  | .waiting | .exited => 0

/-- A job is as much as a worker that does it and one that is woken for it. -/
def Context.load (s : Context n) : Nat := 11 * s.jobs.length + ∑ w, (s.pc w).weight

theorem sum_goto (s : Context n) (w : Fin n) (p : WorkerPc) :
    (∑ v, ((s.goto w p).pc v).weight) + (s.pc w).weight = (∑ v, (s.pc v).weight) + p.weight := by
  rw [← Finset.add_sum_erase _ _ (Finset.mem_univ w), ← Finset.add_sum_erase _ (fun v => (s.pc v).weight) (Finset.mem_univ w)]
  have others : ∑ v ∈ Finset.univ.erase w, ((s.goto w p).pc v).weight = ∑ v ∈ Finset.univ.erase w, (s.pc v).weight :=
    Finset.sum_congr rfl fun v mem => by rw [goto_elsewhere _ _ _ _ (Finset.ne_of_mem_erase mem)]
  rw [others, goto_here]
  omega

theorem load_goto (s : Context n) (w : Fin n) (p : WorkerPc) :
    (s.goto w p).load + (s.pc w).weight = s.load + p.weight := by
  have moved := sum_goto s w p
  simp only [Context.load, goto_jobs]
  omega

/-- A signal costs as much as one worker that is woken. -/
theorem load_signal (sig : Signal s t) : t.load ≤ s.load + 4 := by
  cases sig with
  | lost _ => omega
  | wakes w asleep =>
    have moved := load_goto s w .locking
    simp only [asleep, WorkerPc.weight] at moved
    omega

/-- A job less, and the worker that does it. -/
theorem load_take {e : Entry} {rest : List Entry} (here : s.pc w = .dequeuing) (jobs : s.jobs = e :: rest) :
    (s.take w e rest).load + 5 = s.load := by
  have moved := load_goto { s with jobs := rest, started := s.started ++ [e] }.release w (.running e)
  have popped : Context.load { s with jobs := rest, started := s.started ++ [e] }.release + 11 = s.load := by
    simp only [Context.load, Context.release, jobs, List.length_cons]
    omega
  have weight : (Context.pc { s with jobs := rest, started := s.started ++ [e] }.release w).weight = 2 := by
    show (s.pc w).weight = 2
    rw [here]
    rfl
  have running : (WorkerPc.running e).weight = 8 := rfl
  rw [Context.take]
  omega

/-- **Whoever works leaves less to do.** -/
theorem works_lighter (up : s.shutdown = false) (works : Works s w t) : t.load < s.load ∧ t.shutdown = false := by
  obtain ⟨step, same, awake, moves⟩ := works
  -- a worker that goes on to `p`, in a state that is as heavy as `s`
  have goes {r : Context n} (v : Fin n) (p : WorkerPc) (load : r.load = s.load) (pc : r.pc v = s.pc v)
      (less : p.weight < (s.pc v).weight) : (r.goto v p).load < s.load := by
    have moved := load_goto r v p
    rw [pc] at moved
    omega
  cases step with
  | addWork job _ signal =>
    rw [(signal_frame signal).2.2.2.1] at same
    have longer := congrArg List.length same
    simp [Context.push] at longer
  | addWorkFails => exact absurd rfl moves
  | lock v here _ => exact ⟨goes (r := s.acquire v) v _ rfl rfl (by rw [here]; decide), up⟩
  | relock v here _ => exact ⟨goes (r := s.acquire v) v _ rfl rfl (by rw [here]; decide), up⟩
  | testDown v _ down => exact absurd (down.symm.trans up) (by decide)
  | dequeueDown v _ down _ => exact absurd (down.symm.trans up) (by decide)
  | testUp v here _ => exact ⟨goes v _ rfl rfl (by rw [here]; decide), up⟩
  | dequeueEmpty v here _ _ => exact ⟨goes (r := s.release) v _ rfl rfl (by rw [here]; decide), up⟩
  | returnMore v here _ => exact ⟨goes v _ rfl rfl (by rw [here]; decide), up⟩
  | returnEmpty v here _ => exact ⟨goes (r := s.release) v _ rfl rfl (by rw [here]; decide), up⟩
  | dequeueLast v e here _ only =>
    have taken := load_take here only
    exact ⟨by omega, up⟩
  | dequeueMore v e f rest here _ more signal =>
    have taken := load_take here more
    have signalled := load_signal signal
    exact ⟨by omega, (signal_frame signal).2.2.1.trans up⟩
  | jobReturns v e here _ =>
    exact ⟨goes (r := { s with finished := s.finished ++ [e] }) v _ rfl rfl (by rw [here]; simp [WorkerPc.weight]), up⟩
  | jobFrees v e here f _ => exact ⟨goes v _ rfl rfl (by rw [here]; simp [WorkerPc.weight]), up⟩
  | freeReturns v e here =>
    exact ⟨goes (r := { s with finished := s.finished ++ [e] }) v _ rfl rfl (by rw [here]; simp [WorkerPc.weight]), up⟩
  | wake v here =>
    by_cases mine : w = v
    · subst mine
      exact absurd here awake
    · exact absurd (goto_elsewhere _ _ _ _ mine) moves
  | delete => exact absurd rfl moves
  | deleteDestroys => exact absurd rfl moves
  | deleteReturns => exact absurd rfl moves
  | deleteSignal _ _ _ signal =>
    rcases signal_pc signal w with still | ⟨asleep, _⟩
    · exact absurd still moves
    · exact absurd asleep awake

theorem signal_exists (s : Context n) : ∃ t, Signal s t := by
  by_cases nobody : ∀ w, s.pc w ≠ .waiting
  · exact ⟨s, .lost nobody⟩
  · obtain ⟨w, asleep⟩ := not_forall.mp nobody
    exact ⟨_, .wakes w (not_not.mp asleep)⟩

theorem works_of_goto {r : Context n} {p : WorkerPc} (step : Step s (r.goto w p)) (same : r.accepted = s.accepted)
    (awake : s.pc w ≠ .waiting) (moves : p ≠ s.pc w) : ∃ t, Works s w t :=
  ⟨_, step, same, awake, by rwa [goto_here]⟩

/-- Only the mutex can keep a worker that is awake. -/
theorem works_of_free (up : s.shutdown = false) (awake : s.pc w ≠ .waiting) (here : s.pc w ≠ .exited)
    (free : s.owner = none ∨ s.pc w ≠ .locking ∧ s.pc w ≠ .relocking) : ∃ t, Works s w t := by
  cases pc : s.pc w with
  | waiting => exact absurd pc awake
  | exited => exact absurd pc here
  | locking =>
    have open_ := free.resolve_right fun both => both.1 pc
    exact works_of_goto (.lock w pc open_) rfl awake (by rw [pc]; decide)
  | relocking =>
    have open_ := free.resolve_right fun both => both.2 pc
    exact works_of_goto (.relock w pc open_) rfl awake (by rw [pc]; decide)
  | testing => exact works_of_goto (.testUp w pc up) rfl awake (by rw [pc]; decide)
  | running e =>
    cases frees : e.job.freeJobFunc with
    | none =>
      exact works_of_goto (r := { s with finished := s.finished ++ [e] }) (.jobReturns w e pc frees) rfl awake
        (by rw [pc]; simp)
    | some f => exact works_of_goto (.jobFrees w e pc f frees) rfl awake (by rw [pc]; simp)
  | freeing e =>
    exact works_of_goto (r := { s with finished := s.finished ++ [e] }) (.freeReturns w e pc) rfl awake (by rw [pc]; simp)
  | returning =>
    by_cases empty : s.jobs = []
    · exact works_of_goto (r := s.release) (.returnEmpty w pc empty) rfl awake (by rw [pc]; decide)
    · exact works_of_goto (.returnMore w pc empty) rfl awake (by rw [pc]; decide)
  | dequeuing =>
    cases jobs : s.jobs with
    | nil => exact works_of_goto (r := s.release) (.dequeueEmpty w pc up jobs) rfl awake (by rw [pc]; decide)
    | cons e rest =>
      cases rest with
      | nil =>
        have runs : (s.take w e []).pc w = .running e := goto_here _ _ _
        exact ⟨_, .dequeueLast w e pc up jobs, rfl, awake, by rw [runs, pc]; simp⟩
      | cons f rest =>
        obtain ⟨t, signal⟩ := signal_exists (s.take w e (f :: rest))
        have runs : (s.take w e (f :: rest)).pc w = .running e := goto_here _ _ _
        refine ⟨t, .dequeueMore w e f rest pc up jobs signal, (signal_frame signal).2.2.2.1, awake, ?_⟩
        rcases signal_pc signal w with same | ⟨asleep, _⟩
        · rw [same, runs, pc]
          simp
        · rw [runs] at asleep
          cases asleep

/-- When nobody can go on, everybody waits. -/
theorem waiting_of_stuck (h : Reachable n s) (up : s.shutdown = false) (stuck : ∀ w t, ¬ Works s w t) (w : Fin n) :
    s.pc w = .waiting := by
  obtain ⟨owned, staffed⟩ := reachable_staffed h
  have here := staffed.here up
  have still (v : Fin n) (free : s.owner = none ∨ s.pc v ≠ .locking ∧ s.pc v ≠ .relocking) : s.pc v = .waiting := by
    by_contra awake
    obtain ⟨t, works⟩ := works_of_free up awake (here v) free
    exact stuck v t works
  cases owner : s.owner with
  | none => exact still w (.inl owner)
  | some v =>
    have inside := owned v owner
    have asleep := still v (.inr ⟨fun no => by simp [no, WorkerPc.holds] at inside,
      fun no => by simp [no, WorkerPc.holds] at inside⟩)
    simp [asleep, WorkerPc.holds] at inside

/-- Then the queue is empty, and every job has been done, once. -/
theorem idle_of_stuck (h : Reachable n s) (up : s.shutdown = false) (workers : 0 < n) (stuck : ∀ w t, ¬ Works s w t) :
    s.jobs = [] ∧ s.finished.Perm s.accepted := by
  have waiting := waiting_of_stuck h up stuck
  obtain ⟨acc, _, awake⟩ := reachable_inv h
  have empty : s.jobs = [] := by
    by_contra queued
    obtain ⟨v, examines⟩ := awake up queued ⟨0, workers⟩ (waiting _)
    simp [waiting v, WorkerPc.examines] at examines
  refine ⟨empty, ?_⟩
  have started : s.started = s.accepted := by
    have order := acc.order
    rwa [empty, List.append_nil] at order
  refine (List.perm_ext_iff_of_nodup (reachable_staffed h).2.once acc.nodup).mpr fun e => ⟨fun fin => ?_, fun mem => ?_⟩
  · exact started ▸ acc.past e fin
  · rcases acc.done e (started ▸ mem) with fin | ⟨w, runs⟩
    · exact fin
    · rcases runs with runs | runs
      · cases (waiting w).symm.trans runs
      · cases (waiting w).symm.trans runs

/-! ## Runs -/

theorem weight_le (p : WorkerPc) : p.weight ≤ 8 := by cases p <;> simp [WorkerPc.weight]

theorem load_le (s : Context n) : s.load ≤ 11 * s.jobs.length + 8 * n := by
  have most := Finset.sum_le_card_nsmul Finset.univ (fun w => (s.pc w).weight) 8 fun w _ => weight_le (s.pc w)
  rw [Finset.card_univ, Fintype.card_fin, smul_eq_mul] at most
  rw [Context.load]
  omega

/-- **The pool runs dry.** Before the shutdown, with a worker at least and no job
added, whatever the workers do of themselves is over after so many steps, in any
order of theirs. When none of them can go on the queue is empty, all of them
wait, and every job that was ever accepted has been done, once. -/
theorem pool_drains (h : Reachable n s) (up : s.shutdown = false) (workers : 0 < n) {ws : List (Fin n)}
    (run : Run Works s ws t) :
    ws.length ≤ 11 * s.jobs.length + 8 * n ∧
      ((∀ w u, ¬ Works t w u) → t.jobs = [] ∧ (∀ w, t.pc w = .waiting) ∧ t.finished.Perm s.accepted) := by
  let Before (r : Context n) : Prop := Reachable n r ∧ r.shutdown = false ∧ r.accepted = s.accepted
  have keeps {r u : Context n} {w : Fin n} (before : Before r) (works : Works r w u) : Before u :=
    ⟨.next before.1 works.1, (works_lighter before.2.1 works).2, works.2.1.trans before.2.2⟩
  have short : ws.length + t.load ≤ s.load :=
    Run.length_le (I := Before) (fun before works => keeps before works)
      (fun before works => (works_lighter before.2.1 works).1) run ⟨h, up, rfl⟩
  obtain ⟨reached, still, same⟩ :=
    Run.invariant (I := Before) (fun before works => keeps before works) run ⟨h, up, rfl⟩
  have bound := load_le s
  refine ⟨by omega, fun stuck => ?_⟩
  obtain ⟨empty, all⟩ := idle_of_stuck reached still workers stuck
  exact ⟨empty, waiting_of_stuck reached still stuck, same ▸ all⟩

/-- One worker and one job, and the worker takes the mutex. -/
theorem pool_drains_one :
    let s : Context 1 := (create 1).push ⟨7, 8, none⟩
    let t := (s.acquire 0).goto 0 .testing
    ([0] : List (Fin 1)).length ≤ 11 * s.jobs.length + 8 * 1 ∧
      ((∀ w u, ¬ Works t w u) → t.jobs = [] ∧ (∀ w, t.pc w = .waiting) ∧ t.finished.Perm s.accepted) := by
  have added : Reachable 1 ((create 1).push ⟨7, 8, none⟩) :=
    .next .start (.addWork ⟨7, 8, none⟩ rfl (.lost (by intro w; simp [Context.push, create])))
  have locks : Works ((create 1).push ⟨7, 8, none⟩) 0 ((((create 1).push ⟨7, 8, none⟩).acquire 0).goto 0 .testing) :=
    ⟨.lock 0 rfl rfl, rfl, by decide, by decide⟩
  exact pool_drains added rfl (by decide) (.snoc .nil locks)

end SonicUtils.ThreadPool
