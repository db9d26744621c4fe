import Mathlib.Logic.Relation
import SonicUtils.ThreadPool.Wakeup

/-!
# Deleting a pool

`std_thread_pool_delete` signals the workers, but waits for none of them, and
frees the queue with the jobs in it.

* `delete_then_untouched`: when nobody uses the context after it is freed;
* `released_once_iff`: when `free_job_func` is called once for every job.
-/

namespace SonicUtils.ThreadPool

open Relation

variable {n : Nat} {s t : Context n} {w v : Fin n} {e f : Entry} {p q : WorkerPc} {log : List Entry}

/-! ## The context after it is freed -/

/-- What the worker does next reads or writes the context. -/
def WorkerPc.usesContext : WorkerPc → Bool
  | .running _ | .freeing _ | .exited => false
  | .locking | .testing | .dequeuing | .relocking | .returning | .waiting => true

/-- `delete p`. -/
def Context.freed (s : Context n) : Context n := { s with deletePc := .returned }

/-- No worker uses the context, now or after further steps. -/
def Untouched (s : Context n) : Prop := ∀ t, ReflTransGen Step s t → ∀ w, (t.pc w).usesContext = false

/-- The runs in which the context is freed only when all workers are gone. -/
inductive JoinedRun (n : Nat) : Context n → Prop
  | start : JoinedRun n (create n)
  | next {s t : Context n} (before : JoinedRun n s) (step : Step s t)
      (joined : s.deletePc = .destroyed → t.deletePc = .returned → ∀ w, s.pc w = .exited) :
      JoinedRun n t

theorem goto_exited (here : s.pc v = q) (on : q ≠ .exited) (gone : s.pc w = .exited) :
    (s.goto v p).pc w = .exited := by
  have apart : w ≠ v := by
    rintro rfl
    exact on (here.symm.trans gone)
  rw [goto_elsewhere _ _ _ _ apart, gone]

theorem signal_exited (h : Signal s t) (gone : s.pc w = .exited) : t.pc w = .exited := by
  rcases signal_pc h w with same | ⟨asleep, _⟩
  · rw [same, gone]
  · rw [gone] at asleep
    cases asleep

/-- A worker that has left `worker_thread` does not come back. -/
theorem step_exited (step : Step s t) (gone : s.pc w = .exited) : t.pc w = .exited := by
  cases step with
  | addWork job _ signal => exact @signal_exited n (s.push job) t w signal gone
  | addWorkFails | delete | deleteDestroys | deleteReturns => exact gone
  | lock v here _ | relock v here _ =>
    exact @goto_exited n (s.acquire v) w v _ _ here (by simp) gone
  | testDown v here _ | dequeueEmpty v here _ _ | returnEmpty v here _ =>
    exact @goto_exited n s.release w v _ _ here (by simp) gone
  | testUp v here _ | jobFrees v _ here _ _ | returnMore v here _ | wake v here
  | jobReturns v _ here _ | freeReturns v _ here => exact goto_exited here (by simp) gone
  | @dequeueDown t v here _ signal =>
    have stays : t.pc v = .dequeuing := by
      rcases signal_pc signal v with same | ⟨asleep, _⟩
      · rw [same, here]
      · simp [here] at asleep
    have still : t.pc w = .exited := signal_exited signal gone
    exact @goto_exited n t.release w v _ _ stays (by simp) still
  | dequeueLast v e here _ _ => exact goto_exited here (by simp) gone
  | dequeueMore v e f rest here _ _ signal =>
    exact signal_exited signal (goto_exited here (by simp) gone)
  | @deleteSignal t _ _ _ signal =>
    have still : t.pc w = .exited := signal_exited signal gone
    exact still

theorem run_exited (run : ReflTransGen Step s t) (gone : s.pc w = .exited) : t.pc w = .exited := by
  induction run with
  | refl => exact gone
  | tail _ step ih => exact step_exited step ih

/-- The callbacks of a job come to their end, and the worker goes to the mutex. -/
theorem run_to_lock (inside : (s.pc w).Runs e) : ∃ t, ReflTransGen Step s t ∧ t.pc w = .relocking := by
  rcases inside with here | here
  · cases callback : e.job.freeJobFunc with
    | none => exact ⟨_, .single (.jobReturns w e here callback), goto_here ..⟩
    | some f =>
      have frees := Step.jobFrees w e here f callback
      have returns := Step.freeReturns w e (goto_here s w (.freeing e))
      exact ⟨_, .tail (.single frees) returns, goto_here ..⟩
  · exact ⟨_, .single (.freeReturns w e here), goto_here ..⟩

theorem untouched_iff (s : Context n) : Untouched s ↔ ∀ w, s.pc w = .exited := by
  constructor
  · intro h w
    have now := h s .refl w
    have job (e : Entry) : ¬ (s.pc w).Runs e := by
      intro inside
      obtain ⟨t, run, there⟩ := run_to_lock inside
      have later := h t run w
      rw [there] at later
      cases later
    cases here : s.pc w with
    | exited => rfl
    | running e => exact absurd (.inl here) (job e)
    | freeing e => exact absurd (.inr here) (job e)
    | locking | testing | dequeuing | relocking | returning | waiting =>
      rw [here] at now
      cases now
  · intro gone t run w
    rw [run_exited run (gone w)]
    rfl

theorem signal_deletePc (h : Signal s t) : t.deletePc = s.deletePc := by cases h <;> rfl

/-- Only the caller of `std_thread_pool_delete` moves on in it. -/
theorem step_returned (step : Step s t) (returned : t.deletePc = .returned) :
    s.deletePc = .returned ∨ s.deletePc = .destroyed := by
  cases step with
  | addWork job _ signal => exact .inl ((signal_deletePc signal).symm.trans returned)
  | dequeueDown _ _ _ signal => exact .inl ((signal_deletePc signal).symm.trans returned)
  | dequeueMore _ _ _ _ _ _ _ signal => exact .inl ((signal_deletePc signal).symm.trans returned)
  | deleteReturns here => exact .inr here
  | delete | deleteSignal | deleteDestroys => cases returned
  | _ => exact .inl returned

theorem joined_exited (h : JoinedRun n s) (returned : s.deletePc = .returned) (w : Fin n) :
    s.pc w = .exited := by
  induction h with
  | start => cases returned
  | next _ step joined ih =>
    rcases step_returned step returned with already | last
    · exact step_exited step (ih already)
    · exact step_exited step (joined last returned w)

/-- The context is not used any more after `std_thread_pool_delete` has freed it
if and only if all workers were gone then: in the runs in which it is only freed
so, no worker uses it later, and freed in any other state it is still used. -/
theorem delete_then_untouched (n : Nat) :
    (∀ s : Context n, JoinedRun n s → s.deletePc = .returned → ∀ w, (s.pc w).usesContext = false) ∧
    ∀ s : Context n, s.deletePc = .destroyed → (Untouched s.freed ↔ ∀ w, s.pc w = .exited) := by
  constructor
  · intro s run returned w
    rw [joined_exited run returned w]
    rfl
  · intro s _
    exact untouched_iff s.freed

/-- One worker, which is gone in time. -/
theorem delete_then_untouched_one :
    ∃ s : Context 1, JoinedRun 1 s ∧ s.deletePc = .returned ∧ (s.pc 0).usesContext = false := by
  have created : JoinedRun 1 (create 1) := .start
  have called := created.next (.delete rfl) (by decide)
  have locked := called.next (.lock 0 rfl rfl) (by decide)
  have left := locked.next (.testDown 0 rfl rfl) (by decide)
  have signalled := left.next (.deleteSignal 0 rfl rfl (.lost (by decide))) (by decide)
  have destroyed := signalled.next (.deleteDestroys rfl) (by decide)
  have returned := destroyed.next (.deleteReturns rfl) fun _ _ => by decide
  exact ⟨_, returned, rfl, (delete_then_untouched 1).1 _ returned rfl 0⟩

/-- One worker, in a job while the pool is deleted: it comes back to the mutex. -/
theorem delete_while_running : ∃ s t : Context 1, Reachable 1 s ∧ s.deletePc = .returned ∧
    ReflTransGen Step s t ∧ (t.pc 0).usesContext = true := by
  have created : Reachable 1 (create 1) := .start
  have added := created.next (.addWork ⟨7, 8, none⟩ rfl (.lost (by decide)))
  have locked := added.next (.lock 0 rfl rfl)
  have tested := locked.next (.testUp 0 rfl rfl)
  have running := tested.next (.dequeueLast 0 ⟨0, ⟨7, 8, none⟩⟩ rfl rfl rfl)
  have called := running.next (.delete rfl)
  have signalled := called.next (.deleteSignal 0 rfl rfl (.lost (by decide)))
  have destroyed := signalled.next (.deleteDestroys rfl)
  have returned := destroyed.next (.deleteReturns rfl)
  exact ⟨_, _, returned, rfl, .single (.jobReturns 0 ⟨0, ⟨7, 8, none⟩⟩ rfl rfl), rfl⟩

/-! ## Releasing the contexts of jobs -/

/-- A run with the jobs whose `free_job_func` it has called, in that order. -/
inductive Releases (n : Nat) : List Entry → Context n → Prop
  | start : Releases n [] (create n)
  | quiet {log : List Entry} {s t : Context n} (before : Releases n log s) (step : Step s t)
      (none : ∀ w e, s.pc w = .running e → t.pc w ≠ .freeing e) : Releases n log t
  | frees {log : List Entry} {s : Context n} (before : Releases n log s) (w : Fin n) (e : Entry)
      (here : s.pc w = .running e) (f : Nat) (frees : e.job.freeJobFunc = some f) :
      Releases n (log ++ [e]) (s.goto w (.freeing e))

/-- `std_thread_pool_delete` has returned, and so have all callbacks. -/
def Ended (s : Context n) : Prop := s.deletePc = .returned ∧ ∀ w e, ¬ (s.pc w).Runs e

theorem Releases.reachable (h : Releases n log s) : Reachable n s := by
  induction h with
  | start => exact .start
  | quiet _ step _ ih => exact ih.next step
  | frees _ w e here f frees ih => exact ih.next (.jobFrees w e here f frees)

/-- What a step does to the jobs that workers run. -/
inductive Runners (s t : Context n) : Prop
  | calm (started : t.started = s.started) (same : ∀ w e, t.pc w = .running e ↔ s.pc w = .running e)
  | begins (w : Fin n) (e : Entry) (queued : e ∈ s.jobs) (started : t.started = s.started ++ [e])
      (one : ∀ v f, t.pc v = .running f ↔ s.pc v = .running f ∨ v = w ∧ f = e)
  | ends (w : Fin n) (e : Entry) (here : s.pc w = .running e) (started : t.started = s.started)
      (rest : ∀ v f, t.pc v = .running f ↔ s.pc v = .running f ∧ v ≠ w)
      (how : e.job.freeJobFunc = none ∨ t.pc w = .freeing e)

theorem goto_running (here : s.pc w = q) (before : ∀ f, q ≠ .running f) (after : ∀ f, p ≠ .running f)
    (v : Fin n) (f : Entry) : (s.goto w p).pc v = .running f ↔ s.pc v = .running f := by
  by_cases same : v = w
  · subst same
    simp [here, before f, after f]
  · rw [goto_elsewhere _ _ _ _ same]

theorem signal_running (h : Signal s t) (v : Fin n) (f : Entry) :
    t.pc v = .running f ↔ s.pc v = .running f := by
  rcases signal_pc h v with same | ⟨before, after⟩
  · rw [same]
  · simp [before, after]

theorem take_running (here : s.pc w = .dequeuing) (rest : List Entry) (v : Fin n) (f : Entry) :
    (s.take w e rest).pc v = .running f ↔ s.pc v = .running f ∨ v = w ∧ f = e := by
  by_cases same : v = w
  · subst same
    simp [Context.take, here, eq_comm]
  · simp [Context.take, goto_elsewhere _ _ _ _ same, Context.release, same]

theorem leave_running (out : ∀ f, p ≠ .running f) (v : Fin n) (f : Entry) :
    (s.goto w p).pc v = .running f ↔ s.pc v = .running f ∧ v ≠ w := by
  by_cases same : v = w
  · subst same
    simp [out f]
  · simp [goto_elsewhere _ _ _ _ same, same]

theorem step_runners (step : Step s t) : Runners s t := by
  cases step with
  | addWork job _ signal =>
    exact .calm (signal_frame signal).2.2.2.2.1 (@signal_running n (s.push job) t signal)
  | addWorkFails | delete | deleteDestroys | deleteReturns => exact .calm rfl fun _ _ => Iff.rfl
  | lock w here _ => exact .calm rfl (@goto_running n (s.acquire w) w _ _ here (by simp) (by simp))
  | testDown w here _ => exact .calm rfl (@goto_running n s.release w _ _ here (by simp) (by simp))
  | testUp w here _ => exact .calm rfl (goto_running here (by simp) (by simp))
  | @dequeueDown t w here _ signal =>
    have stays : t.pc w = .dequeuing := by
      rcases signal_pc signal w with same | ⟨asleep, _⟩
      · rw [same, here]
      · simp [here] at asleep
    refine .calm (signal_frame signal).2.2.2.2.1 fun v f => ?_
    rw [@goto_running n t.release w _ _ stays (by simp) (by simp)]
    exact signal_running signal v f
  | dequeueEmpty w here _ _ => exact .calm rfl (@goto_running n s.release w _ _ here (by simp) (by simp))
  | dequeueLast w e here _ only =>
    exact .begins w e (by simp [only]) rfl (take_running here [])
  | dequeueMore w e f rest here _ more signal =>
    refine .begins w e (by simp [more]) (signal_frame signal).2.2.2.2.1 fun v g => ?_
    exact (signal_running signal v g).trans (take_running here (f :: rest) v g)
  | jobReturns w e here keeps => exact .ends w e here rfl (leave_running (by simp)) (.inl keeps)
  | jobFrees w e here f frees =>
    exact .ends w e here rfl (leave_running (by simp)) (.inr (goto_here ..))
  | freeReturns w e here => exact .calm rfl (goto_running here (by simp) (by simp))
  | relock w here _ => exact .calm rfl (@goto_running n (s.acquire w) w _ _ here (by simp) (by simp))
  | returnMore w here _ => exact .calm rfl (goto_running here (by simp) (by simp))
  | returnEmpty w here _ => exact .calm rfl (@goto_running n s.release w _ _ here (by simp) (by simp))
  | wake w here => exact .calm rfl (goto_running here (by simp) (by simp))
  | @deleteSignal t _ _ _ signal =>
    have same : ∀ v f, t.pc v = .running f ↔ s.pc v = .running f := signal_running signal
    exact .calm (signal_frame signal).2.2.2.2.1 same

/-- The context of a job is released at most once, and it is released as soon as
the job has left `funct`. -/
structure Released (log : List Entry) (s : Context n) : Prop where
  once : log.Nodup
  which : ∀ e, e ∈ log ↔ e.job.freeJobFunc ≠ none ∧ e ∈ s.started ∧ ∀ w, s.pc w ≠ .running e

theorem Released.calm (h : Released log s) (started : t.started = s.started)
    (same : ∀ w e, t.pc w = .running e ↔ s.pc w = .running e) : Released log t := by
  refine ⟨h.once, fun e => ?_⟩
  rw [h.which, started]
  simp only [ne_eq, same]

theorem Released.begins (h : Released log s) (fresh : e ∉ s.started)
    (started : t.started = s.started ++ [e])
    (one : ∀ v f, t.pc v = .running f ↔ s.pc v = .running f ∨ v = w ∧ f = e) : Released log t := by
  refine ⟨h.once, fun f => ?_⟩
  rw [h.which, started]
  by_cases same : f = e
  · subst same
    have runs : t.pc w = .running f := (one w f).mpr (.inr ⟨rfl, rfl⟩)
    constructor
    · intro ⟨_, old, _⟩
      exact absurd old fresh
    · intro ⟨_, _, idle⟩
      exact absurd runs (idle w)
  · simp [same, one]

/-- The other jobs do not notice that one ends. -/
theorem others_running (here : s.pc w = .running e)
    (rest : ∀ v f, t.pc v = .running f ↔ s.pc v = .running f ∧ v ≠ w) (other : f ≠ e) (v : Fin n) :
    t.pc v = .running f ↔ s.pc v = .running f := by
  rw [rest, and_iff_left_iff_imp]
  rintro inside rfl
  rw [here] at inside
  exact other (WorkerPc.running.inj inside).symm

/-- A job ends whose context nobody releases. -/
theorem Released.keeps (h : Released log s) (keeps : e.job.freeJobFunc = none)
    (started : t.started = s.started) (here : s.pc w = .running e)
    (rest : ∀ v f, t.pc v = .running f ↔ s.pc v = .running f ∧ v ≠ w) : Released log t := by
  refine ⟨h.once, fun f => ?_⟩
  rw [h.which, started]
  by_cases same : f = e
  · subst same
    simp [keeps]
  · simp only [ne_eq, others_running here rest same]

theorem Released.frees (h : Released log s) (acc : Accounting s) (here : s.pc w = .running e)
    (frees : e.job.freeJobFunc ≠ none) : Released (log ++ [e]) (s.goto w (.freeing e)) := by
  have out : e ∉ log := fun old => ((h.which e).mp old).2.2 w here
  have rest := leave_running (s := s) (w := w) (p := .freeing e) (by simp)
  refine ⟨List.nodup_append'.mpr ⟨h.once, List.nodup_singleton e, by simpa using out⟩, fun f => ?_⟩
  rw [List.mem_append, List.mem_singleton, goto_started]
  by_cases same : f = e
  · subst same
    have idle (v : Fin n) : (s.goto w (.freeing f)).pc v ≠ .running f := by
      intro inside
      obtain ⟨inside, other⟩ := (rest v f).mp inside
      exact other (acc.single v w f (.inl inside) (.inl here))
    exact ⟨fun _ => ⟨frees, (acc.held w f (.inl here)).1, idle⟩, fun _ => .inr rfl⟩
  · simp only [same, or_false, h.which, ne_eq, others_running here rest same]

theorem Releases.released (h : Releases n log s) : Released log s := by
  induction h with
  | start => exact ⟨List.nodup_nil, by simp [create]⟩
  | quiet before step none ih =>
    have acc := (reachable_inv before.reachable).accounting
    cases step_runners step with
    | calm started same => exact ih.calm started same
    | begins w e queued started one => exact ih.begins (acc.unstarted queued) started one
    | ends w e here started rest how =>
      have keeps : e.job.freeJobFunc = .none := how.resolve_right (none w e here)
      exact ih.keeps keeps started here rest
  | frees before w e here f frees ih =>
    exact ih.frees (reachable_inv before.reachable).accounting here (by simp [frees])

/-- When a deleted pool has come to rest, the contexts of all its jobs have been
released, each once, if and only if no job to be released is left in the queue. -/
theorem released_once_iff (h : Releases n log s) (ended : Ended s) :
    (∀ e ∈ s.accepted, e.job.freeJobFunc ≠ none → log.count e = 1) ↔
      ∀ e ∈ s.jobs, e.job.freeJobFunc = none := by
  have acc := (reachable_inv h.reachable).accounting
  have released := h.released
  constructor
  · intro all e queued
    by_contra frees
    have accepted : e ∈ s.accepted := acc.order ▸ List.mem_append_right _ queued
    have called : e ∈ log := List.count_pos_iff.mp (by rw [all e accepted frees]; decide)
    exact acc.unstarted queued ((released.which e).mp called).2.1
  · intro none_ e accepted frees
    rw [← acc.order] at accepted
    have started := (List.mem_append.mp accepted).resolve_right fun queued => frees (none_ e queued)
    have idle (w : Fin n) : s.pc w ≠ .running e := fun runs => ended.2 w e (.inl runs)
    exact List.count_eq_one_of_mem released.once ((released.which e).mpr ⟨frees, started, idle⟩)

theorem Releases.one {s t : Context 1} (h : Releases 1 log s) (step : Step s t)
    (calm : ∀ e, t.pc 0 ≠ .freeing e) : Releases 1 log t := by
  refine h.quiet step fun w e _ => ?_
  rw [Subsingleton.elim w 0]
  exact calm e

theorem ended_one {s : Context 1} (returned : s.deletePc = .returned) (idle : ∀ e, ¬ (s.pc 0).Runs e) :
    Ended s := by
  refine ⟨returned, fun w e => ?_⟩
  rw [Subsingleton.elim w 0]
  exact idle e

/-- One job, which has run before the pool is deleted. -/
theorem released_once_iff_one : ∃ (s : Context 1) (e : Entry) (log : List Entry), Releases 1 log s ∧
    Ended s ∧ e ∈ s.accepted ∧ log.count e = 1 := by
  have created : Releases 1 [] (create 1) := .start
  have added := created.one (.addWork ⟨7, 8, some 9⟩ rfl (.lost (by decide))) nofun
  have locked := added.one (.lock 0 rfl rfl) nofun
  have tested := locked.one (.testUp 0 rfl rfl) nofun
  have running := tested.one (.dequeueLast 0 ⟨0, ⟨7, 8, some 9⟩⟩ rfl rfl rfl) nofun
  have freeing := running.frees 0 ⟨0, ⟨7, 8, some 9⟩⟩ rfl 9 rfl
  have back := freeing.one (.freeReturns 0 ⟨0, ⟨7, 8, some 9⟩⟩ rfl) nofun
  have called := back.one (.delete rfl) nofun
  have signalled := called.one (.deleteSignal 0 rfl rfl (.lost (by decide))) nofun
  have destroyed := signalled.one (.deleteDestroys rfl) nofun
  have returned := destroyed.one (.deleteReturns rfl) nofun
  have once (ended : Ended _) := (released_once_iff returned ended).mpr
  refine ⟨_, ⟨0, ⟨7, 8, some 9⟩⟩, _, returned, ?_, List.mem_singleton.mpr rfl, ?_⟩
  · exact ended_one rfl (by rintro e (h | h) <;> cases h)
  · exact once (ended_one rfl (by rintro e (h | h) <;> cases h)) nofun _ (List.mem_singleton.mpr rfl) (by simp)

/-- A job is still queued when the pool is deleted: nobody releases its context. -/
theorem queued_job_not_released : ∃ s : Context 1, Releases 1 [] s ∧ Ended s ∧
    ¬ ∀ e ∈ s.accepted, e.job.freeJobFunc ≠ none → ([] : List Entry).count e = 1 := by
  have created : Releases 1 [] (create 1) := .start
  have added := created.one (.addWork ⟨7, 8, some 9⟩ rfl (.lost (by decide))) nofun
  have called := added.one (.delete rfl) nofun
  have signalled := called.one (.deleteSignal 0 rfl rfl (.lost (by decide))) nofun
  have destroyed := signalled.one (.deleteDestroys rfl) nofun
  have returned := destroyed.one (.deleteReturns rfl) nofun
  refine ⟨_, returned, ended_one rfl (by rintro e (h | h) <;> cases h), fun all => ?_⟩
  exact absurd (all ⟨0, ⟨7, 8, some 9⟩⟩ (List.mem_singleton.mpr rfl) (by simp)) (by decide)

end SonicUtils.ThreadPool
