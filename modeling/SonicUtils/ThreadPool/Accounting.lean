import SonicUtils.ThreadPool.Model
import Mathlib.Data.List.Range
import Mathlib.Data.List.Nodup

/-!
# Where every accepted job is, and who will look at the queue

* `Accounting`: the jobs started so far and the queue, one after the other,
  are the accepted jobs in their order, and every started job is finished or
  with exactly one worker;
* `Mutex`: a worker inside a critical section owns the mutex;
* `Awake`: while a job is queued and a worker sleeps, another worker is on its
  way to the queue.
-/

namespace SonicUtils.ThreadPool

variable {n : Nat}

/-- The worker has taken `e` and its callbacks have not all returned. -/
def WorkerPc.Runs (p : WorkerPc) (e : Entry) : Prop := p = .running e ∨ p = .freeing e

/-- Inside the job branch of `dequeue`, up to the end of its `lock()`. -/
def WorkerPc.inJob : WorkerPc → Bool
  | .running _ | .freeing _ | .relocking => true
  | _ => false

def WorkerPc.holds : WorkerPc → Bool
  | .testing | .dequeuing | .returning => true
  | _ => false

/-- The next thing the worker does with the context is to look at the queue. -/
def WorkerPc.examines : WorkerPc → Bool
  | .locking | .testing | .dequeuing | .returning => true
  | _ => false

section
variable (s : Context n) (w v : Fin n) (p : WorkerPc)

@[simp] theorem goto_here : (s.goto w p).pc w = p := by simp [Context.goto]

theorem goto_elsewhere (h : v ≠ w) : (s.goto w p).pc v = s.pc v := by simp [Context.goto, h]

@[simp] theorem goto_owner : (s.goto w p).owner = s.owner := rfl
@[simp] theorem goto_jobs : (s.goto w p).jobs = s.jobs := rfl
@[simp] theorem goto_shutdown : (s.goto w p).shutdown = s.shutdown := rfl
@[simp] theorem goto_accepted : (s.goto w p).accepted = s.accepted := rfl
@[simp] theorem goto_started : (s.goto w p).started = s.started := rfl
@[simp] theorem goto_finished : (s.goto w p).finished = s.finished := rfl

end

/-- All that a signal does: a worker it moves was waiting. -/
theorem signal_pc {s t : Context n} (h : Signal s t) (w : Fin n) :
    t.pc w = s.pc w ∨ s.pc w = .waiting ∧ t.pc w = .locking := by
  cases h with
  | lost => exact .inl rfl
  | wakes v asleep =>
    by_cases hw : w = v
    · subst hw; exact .inr ⟨asleep, goto_here _ _ _⟩
    · exact .inl (goto_elsewhere _ _ _ _ hw)

theorem signal_frame {s t : Context n} (h : Signal s t) :
    t.owner = s.owner ∧ t.jobs = s.jobs ∧ t.shutdown = s.shutdown ∧ t.accepted = s.accepted ∧
    t.started = s.started ∧ t.finished = s.finished := by
  cases h <;> exact ⟨rfl, rfl, rfl, rfl, rfl, rfl⟩

/-- After a signal, a worker that still waits was not the only one. -/
theorem signal_wakes {s t : Context n} (h : Signal s t) {w : Fin n} (hw : t.pc w = .waiting) :
    ∃ v, t.pc v = .locking := by
  cases h with
  | lost nobody => exact absurd hw (nobody w)
  | wakes v _ => exact ⟨v, goto_here _ _ _⟩

theorem signal_runs {s t : Context n} (h : Signal s t) (w : Fin n) (e : Entry) :
    (t.pc w).Runs e ↔ (s.pc w).Runs e := by
  rcases signal_pc h w with same | ⟨before, after⟩
  · rw [same]
  · simp [before, after, WorkerPc.Runs]

/-- Every accepted job is queued, with one worker, or finished, and the jobs
leave the queue in the order in which they came. -/
structure Accounting (s : Context n) : Prop where
  order : s.started ++ s.jobs = s.accepted
  tickets : s.accepted.map Entry.ticket = List.range s.accepted.length
  held : ∀ w e, (s.pc w).Runs e → e ∈ s.started ∧ e ∉ s.finished
  single : ∀ w v e, (s.pc w).Runs e → (s.pc v).Runs e → w = v
  done : ∀ e ∈ s.started, e ∈ s.finished ∨ ∃ w, (s.pc w).Runs e
  past : ∀ e ∈ s.finished, e ∈ s.started

theorem accounting_create : Accounting (create n) := by
  constructor <;> simp [create, WorkerPc.Runs]

theorem Accounting.nodup {s : Context n} (h : Accounting s) : s.accepted.Nodup :=
  List.Nodup.of_map Entry.ticket (h.tickets ▸ List.nodup_range)

theorem Accounting.unstarted {s : Context n} (h : Accounting s) {e : Entry} (queued : e ∈ s.jobs) :
    e ∉ s.started := by
  have nodup := h.nodup
  rw [← h.order, List.nodup_append'] at nodup
  exact fun started => nodup.2.2 started queued

/-- The accounting only reads the four lists and who runs what. -/
theorem Accounting.congr {s t : Context n} (h : Accounting s)
    (runs : ∀ w e, (t.pc w).Runs e ↔ (s.pc w).Runs e)
    (lists : t.jobs = s.jobs ∧ t.accepted = s.accepted ∧ t.started = s.started ∧
      t.finished = s.finished) : Accounting t := by
  obtain ⟨hj, ha, hs, hf⟩ := lists
  constructor
  · rw [hs, hj, ha]; exact h.order
  · rw [ha]; exact h.tickets
  · intro w e hr
    rw [hs, hf]
    exact h.held w e ((runs w e).mp hr)
  · intro w v e hw hv
    exact h.single w v e ((runs w e).mp hw) ((runs v e).mp hv)
  · intro e he
    rw [hf]
    simpa only [runs] using h.done e (hs ▸ he)
  · intro e he
    rw [hs]
    exact h.past e (hf ▸ he)

theorem Accounting.signal {s t : Context n} (h : Accounting s) (sig : Signal s t) :
    Accounting t := by
  obtain ⟨_, hj, _, ha, hs, hf⟩ := signal_frame sig
  exact h.congr (signal_runs sig) ⟨hj, ha, hs, hf⟩

/-- Moving a worker between two places where it holds no job. -/
theorem Accounting.goto {s : Context n} (h : Accounting s) {w : Fin n} {p : WorkerPc}
    (same : ∀ e, p.Runs e ↔ (s.pc w).Runs e) : Accounting (s.goto w p) := by
  refine h.congr (fun v e => ?_) ⟨rfl, rfl, rfl, rfl⟩
  by_cases hv : v = w
  · subst hv; rw [goto_here]; exact same e
  · rw [goto_elsewhere _ _ _ _ hv]

theorem Accounting.push {s : Context n} (h : Accounting s) (job : Job) :
    Accounting (s.push job) := by
  constructor
  · simp [Context.push, ← List.append_assoc, h.order]
  · simp [Context.push, h.tickets, Context.nextEntry, List.range_succ]
  · exact h.held
  · exact h.single
  · exact h.done
  · exact h.past

theorem Accounting.take {s : Context n} (h : Accounting s) {w : Fin n} {e : Entry}
    {rest : List Entry} (here : s.pc w = .dequeuing) (front : s.jobs = e :: rest) :
    Accounting (s.take w e rest) := by
  have fresh : e ∉ s.started := h.unstarted (by simp [front])
  have idle (f : Entry) : ¬ (s.pc w).Runs f := by simp [here, WorkerPc.Runs]
  have runs (v : Fin n) (f : Entry) :
      ((s.take w e rest).pc v).Runs f ↔ (s.pc v).Runs f ∨ v = w ∧ f = e := by
    by_cases hv : v = w
    · subst hv
      simp [Context.take, WorkerPc.Runs, here, eq_comm]
    · simp [Context.take, goto_elsewhere _ _ _ _ hv, Context.release, hv]
  constructor
  · simpa [Context.take, Context.release, front] using h.order
  · exact h.tickets
  · intro v f hr
    rcases (runs v f).mp hr with old | ⟨_, rfl⟩
    · exact ⟨List.mem_append_left _ (h.held v f old).1, (h.held v f old).2⟩
    · exact ⟨List.mem_append_right _ (by simp), fun old => fresh (h.past _ old)⟩
  · intro v u f hv hu
    rcases (runs v f).mp hv with oldv | ⟨rfl, rfl⟩ <;> rcases (runs u f).mp hu with oldu | ⟨rfl, hf⟩
    · exact h.single v u f oldv oldu
    · exact absurd (hf ▸ (h.held v f oldv).1) fresh
    · exact absurd (h.held u _ oldu).1 fresh
    · rfl
  · intro f hf
    rcases List.mem_append.mp hf with old | new
    · rcases h.done f old with fin | ⟨v, hv⟩
      · exact .inl fin
      · exact .inr ⟨v, (runs v f).mpr (.inl hv)⟩
    · exact .inr ⟨w, (runs w f).mpr (.inr ⟨rfl, by simpa using new⟩)⟩
  · exact fun f hf => List.mem_append_left _ (h.past f hf)

theorem Accounting.finish {s : Context n} (h : Accounting s) {w : Fin n} {e : Entry}
    (here : (s.pc w).Runs e) : Accounting (s.finish w e) := by
  have only (f : Entry) (hf : (s.pc w).Runs f) : f = e := by
    rcases here with he | he <;> simpa [he, WorkerPc.Runs, eq_comm] using hf
  have runs (v : Fin n) (f : Entry) :
      ((s.finish w e).pc v).Runs f ↔ (s.pc v).Runs f ∧ v ≠ w := by
    by_cases hv : v = w
    · subst hv; simp [Context.finish, WorkerPc.Runs]
    · simp [Context.finish, goto_elsewhere _ _ _ _ hv, hv]
  have fin (f : Entry) : f ∈ (s.finish w e).finished ↔ f ∈ s.finished ∨ f = e := by
    simp [Context.finish]
  constructor
  · exact h.order
  · exact h.tickets
  · intro v f hr
    obtain ⟨old, hv⟩ := (runs v f).mp hr
    refine ⟨(h.held v f old).1, fun hf => ?_⟩
    rcases (fin f).mp hf with hf | rfl
    · exact (h.held v f old).2 hf
    · exact hv (h.single v w f old here)
  · intro v u f hv hu
    exact h.single v u f ((runs v f).mp hv).1 ((runs u f).mp hu).1
  · intro f hf
    rcases h.done f hf with done | ⟨v, hv⟩
    · exact .inl ((fin f).mpr (.inl done))
    · by_cases hvw : v = w
      · subst hvw; exact .inl ((fin f).mpr (.inr (only f hv)))
      · exact .inr ⟨v, (runs v f).mpr ⟨hv, hvw⟩⟩
  · intro f hf
    rcases (fin f).mp hf with hf | rfl
    · exact h.past f hf
    · exact (h.held w f here).1

/-- One step keeps the accounting, whichever thread takes it. -/
theorem step_accounting {s t : Context n} (h : Accounting s) (step : Step s t) :
    Accounting t := by
  have quiet {w : Fin n} {p q : WorkerPc} (s : Context n) (h : Accounting s) (here : s.pc w = q)
      (hq : ∀ e, ¬ q.Runs e) (hp : ∀ e, ¬ p.Runs e) : Accounting (s.goto w p) :=
    h.goto fun e => by simp [here, hq e, hp e]
  have idle : ∀ p : WorkerPc, p = .locking ∨ p = .testing ∨ p = .dequeuing ∨ p = .relocking ∨
      p = .returning ∨ p = .waiting ∨ p = .exited → ∀ e, ¬ p.Runs e := by
    rintro p (rfl | rfl | rfl | rfl | rfl | rfl | rfl) e <;> simp [WorkerPc.Runs]
  cases step with
  | addWork job _ signal => exact (h.push job).signal signal
  | addWorkFails => exact h
  | lock w here _ =>
    exact quiet (s.acquire w) (h.congr (fun _ _ => Iff.rfl) ⟨rfl, rfl, rfl, rfl⟩) here
      (idle _ (by simp)) (idle _ (by simp))
  | testDown w here _ =>
    exact quiet s.release (h.congr (fun _ _ => Iff.rfl) ⟨rfl, rfl, rfl, rfl⟩) here
      (idle _ (by simp)) (idle _ (by simp))
  | testUp w here _ => exact quiet s h here (idle _ (by simp)) (idle _ (by simp))
  | @dequeueDown t w here _ signal =>
    have ht : t.pc w = .dequeuing := by
      rcases signal_pc signal w with same | ⟨asleep, _⟩
      · rw [same, here]
      · simp [here] at asleep
    exact quiet t.release ((h.signal signal).congr (fun _ _ => Iff.rfl) ⟨rfl, rfl, rfl, rfl⟩) ht
      (idle _ (by simp)) (idle _ (by simp))
  | dequeueEmpty w here _ _ | returnEmpty w here _ =>
    exact quiet s.release (h.congr (fun _ _ => Iff.rfl) ⟨rfl, rfl, rfl, rfl⟩) here
      (idle _ (by simp)) (idle _ (by simp))
  | dequeueLast w e here _ only => exact h.take here only
  | dequeueMore w e f rest here _ more signal => exact (h.take here more).signal signal
  | jobReturns w e here _ => exact h.finish (.inl here)
  | jobFrees w e here _ _ => exact h.goto fun f => by simp [here, WorkerPc.Runs]
  | freeReturns w e here => exact h.finish (.inr here)
  | relock w here _ =>
    exact quiet (s.acquire w) (h.congr (fun _ _ => Iff.rfl) ⟨rfl, rfl, rfl, rfl⟩) here
      (idle _ (by simp)) (idle _ (by simp))
  | returnMore w here _ => exact quiet s h here (idle _ (by simp)) (idle _ (by simp))
  | wake w here => exact quiet s h here (idle _ (by simp)) (idle _ (by simp))
  | delete | deleteDestroys | deleteReturns =>
    exact h.congr (fun _ _ => Iff.rfl) ⟨rfl, rfl, rfl, rfl⟩
  | deleteSignal _ _ _ signal =>
    exact (h.signal signal).congr (fun _ _ => Iff.rfl) ⟨rfl, rfl, rfl, rfl⟩

end SonicUtils.ThreadPool
