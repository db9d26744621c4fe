import SonicUtils.ThreadPool.Accounting

/-!
# No lost job and no lost wake-up

A signal with nobody waiting is lost, and a busy worker may take the job that
another was woken for. `Awake` survives both: the worker that takes a job
signals when it leaves more behind, and a worker goes to sleep only after it
has seen an empty queue under the mutex.
-/

namespace SonicUtils.ThreadPool

variable {n : Nat}

/-- The workers inside a critical section are the owner of the mutex. -/
def Mutex (s : Context n) : Prop := ∀ w, (s.pc w).holds = true → s.owner = some w

theorem Mutex.signal {s t : Context n} (h : Mutex s) (sig : Signal s t) : Mutex t := by
  intro w hw
  rw [(signal_frame sig).1]
  rcases signal_pc sig w with same | ⟨_, after⟩
  · exact h w (same ▸ hw)
  · simp [after, WorkerPc.holds] at hw

/-- A worker takes the free mutex. -/
theorem Mutex.acquire {s : Context n} (h : Mutex s) (free : s.owner = none) (w : Fin n)
    (p : WorkerPc) : Mutex ((s.acquire w).goto w p) := by
  intro v hv
  by_cases hvw : v = w
  · subst hvw; rfl
  · rw [goto_elsewhere _ _ _ _ hvw] at hv
    have := h v hv
    simp [free] at this

/-- The owner leaves its critical section. -/
theorem Mutex.release {s : Context n} (h : Mutex s) {w : Fin n} (mine : (s.pc w).holds = true)
    {p : WorkerPc} (outside : p.holds = false) : Mutex (s.release.goto w p) := by
  intro v hv
  by_cases hvw : v = w
  · subst hvw; simp [outside] at hv
  · rw [goto_elsewhere _ _ _ _ hvw] at hv
    exact absurd (Option.some.inj ((h v hv).symm.trans (h w mine))) hvw

/-- A worker moves without touching the mutex. -/
theorem Mutex.goto {s : Context n} (h : Mutex s) {w : Fin n} {p : WorkerPc}
    (same : p.holds = true → (s.pc w).holds = true) : Mutex (s.goto w p) := by
  intro v hv
  by_cases hvw : v = w
  · subst hvw
    rw [goto_here] at hv
    exact h v (same hv)
  · rw [goto_elsewhere _ _ _ _ hvw] at hv
    exact h v hv

theorem step_mutex {s t : Context n} (h : Mutex s) (step : Step s t) : Mutex t := by
  cases step with
  | addWork job _ signal =>
    have hp : Mutex (s.push job) := h
    exact hp.signal signal
  | addWorkFails => exact h
  | lock w _ free | relock w _ free => exact h.acquire free w _
  | testDown w here _ => exact h.release (by simp [here, WorkerPc.holds]) rfl
  | testUp w here _ | returnMore w here _ => exact h.goto fun _ => by simp [here, WorkerPc.holds]
  | dequeueDown w here _ signal =>
    refine (h.signal signal).release ?_ rfl
    rcases signal_pc signal w with same | ⟨asleep, _⟩
    · simp [same, here, WorkerPc.holds]
    · simp [here] at asleep
  | dequeueEmpty w here _ _ | returnEmpty w here _ =>
    exact h.release (by simp [here, WorkerPc.holds]) rfl
  | dequeueLast w e here _ _ => exact h.release (by simp [here, WorkerPc.holds]) rfl
  | dequeueMore w e f rest here _ _ signal =>
    have ht : Mutex (s.take w e (f :: rest)) := h.release (by simp [here, WorkerPc.holds]) rfl
    exact ht.signal signal
  | jobReturns w e _ _ | jobFrees w e _ _ _ | freeReturns w e _ | wake w _ =>
    exact h.goto fun hp => by simp [WorkerPc.holds] at hp
  | delete | deleteDestroys | deleteReturns => exact h
  | @deleteSignal t _ _ _ signal =>
    have ht : Mutex t := h.signal signal
    exact ht

/-- While a job is queued and a worker sleeps, a worker is on its way to the
queue: it is neither asleep nor inside a job. -/
def Awake (s : Context n) : Prop :=
  s.jobs ≠ [] → ∀ w, s.pc w = .waiting → ∃ v, (s.pc v).examines = true

/-- A signal makes the invariant hold whatever the state was. -/
theorem awake_of_signal {s t : Context n} (sig : Signal s t) : Awake t := by
  intro _ w hw
  obtain ⟨v, hv⟩ := signal_wakes sig hw
  exact ⟨v, by simp [hv, WorkerPc.examines]⟩

/-- A worker that neither leaves the ones on their way nor falls asleep. -/
theorem Awake.goto {s : Context n} (h : Awake s) {w : Fin n} {p : WorkerPc} (up : p ≠ .waiting)
    (stays : (s.pc w).examines = true → p.examines = true) : Awake (s.goto w p) := by
  intro queued v hv
  have hvw : v ≠ w := by rintro rfl; exact up (by simpa using hv)
  rw [goto_elsewhere _ _ _ _ hvw] at hv
  obtain ⟨u, hu⟩ := h queued v hv
  by_cases huw : u = w
  · subst huw; exact ⟨u, by simpa using stays hu⟩
  · exact ⟨u, by rwa [goto_elsewhere _ _ _ _ huw]⟩

theorem awake_of_empty {s : Context n} (empty : s.jobs = []) : Awake s :=
  fun queued => absurd empty queued

theorem step_awake {s t : Context n} (h : s.shutdown = false → Awake s) (step : Step s t)
    (up : t.shutdown = false) : Awake t := by
  cases step with
  | addWork job _ signal => exact awake_of_signal signal
  | addWorkFails => exact h up
  | lock w here _ =>
    have ha : Awake (s.acquire w) := h up
    exact ha.goto (by simp) fun _ => rfl
  | testDown w _ down =>
    have : s.shutdown = false := up
    simp [down] at this
  | @dequeueDown t w _ down signal =>
    have : t.shutdown = false := up
    simp [(signal_frame signal).2.2.1, down] at this
  | testUp w here _ | returnMore w here _ => exact (h up).goto (by simp) fun _ => rfl
  | dequeueEmpty w _ _ empty | returnEmpty w _ empty => exact awake_of_empty empty
  | dequeueLast => exact awake_of_empty rfl
  | dequeueMore w e f rest _ _ _ signal => exact awake_of_signal signal
  | jobReturns w e here _ | freeReturns w e here =>
    have hf : Awake { s with finished := s.finished ++ [e] } := h up
    exact hf.goto (by simp) fun hx => by simp [here, WorkerPc.examines] at hx
  | jobFrees w e here _ _ =>
    exact (h up).goto (by simp) fun hx => by simp [here, WorkerPc.examines] at hx
  | relock w here _ =>
    have ha : Awake (s.acquire w) := h up
    exact ha.goto (by simp) fun _ => rfl
  | wake w _ => exact (h up).goto (by simp) fun _ => rfl
  | delete => simp at up
  | @deleteSignal t _ _ _ signal =>
    have ht : Awake t := awake_of_signal signal
    exact ht
  | deleteDestroys | deleteReturns => exact h up

structure Inv (s : Context n) : Prop where
  accounting : Accounting s
  mutex : Mutex s
  awake : s.shutdown = false → Awake s

theorem reachable_inv {s : Context n} (h : Reachable n s) : Inv s := by
  induction h with
  | start =>
    exact ⟨accounting_create, fun w hw => by simp [create, WorkerPc.holds] at hw,
      fun _ => awake_of_empty rfl⟩
  | next _ step ih =>
    exact ⟨step_accounting ih.accounting step, step_mutex ih.mutex step,
      fun up => step_awake ih.awake step up⟩

/-- At most one worker is inside a critical section. -/
theorem critical_exclusive {s : Context n} (h : Reachable n s) {w v : Fin n}
    (hw : (s.pc w).holds = true) (hv : (s.pc v).holds = true) : w = v :=
  Option.some.inj (((reachable_inv h).mutex w hw).symm.trans ((reachable_inv h).mutex v hv))

def Queued (s : Context n) (e : Entry) : Prop := e ∈ s.jobs

def Running (s : Context n) (e : Entry) : Prop := ∃ w, (s.pc w).Runs e

def Finished (s : Context n) (e : Entry) : Prop := e ∈ s.finished

/-- A job is in exactly one of the three places. -/
def InOnePlace (s : Context n) (e : Entry) : Prop :=
  (Queued s e ∧ ¬ Running s e ∧ ¬ Finished s e) ∨ (¬ Queued s e ∧ Running s e ∧ ¬ Finished s e) ∨
  (¬ Queued s e ∧ ¬ Running s e ∧ Finished s e)

theorem Accounting.in_one_place {s : Context n} (h : Accounting s) {e : Entry}
    (he : e ∈ s.accepted) : InOnePlace s e := by
  have apart : e ∈ s.started → e ∉ s.jobs := fun hs hj => h.unstarted hj hs
  rw [← h.order] at he
  rcases List.mem_append.mp he with started | queued
  · by_cases fin : e ∈ s.finished
    · refine .inr (.inr ⟨apart started, ?_, fin⟩)
      rintro ⟨w, hw⟩
      exact (h.held w e hw).2 fin
    · exact .inr (.inl ⟨apart started, (h.done e started).resolve_left fin, fin⟩)
  · have unstarted : e ∉ s.started := fun hs => apart hs queued
    refine .inl ⟨queued, ?_, fun fin => unstarted (h.past e fin)⟩
    rintro ⟨w, hw⟩
    exact unstarted (h.held w e hw).1

/-- **No lost job and no lost wake-up.** Before shutdown is set, for any number
of workers and any interleaving: every accepted job is in exactly one place and
with at most one worker; the jobs started so far are the first of the accepted
ones in their order, each once; and while a job is queued and a worker waits,
another worker is neither waiting nor inside a job. -/
theorem no_lost_job_no_lost_wakeup {s : Context n} (h : Reachable n s)
    (up : s.shutdown = false) :
    (∀ e ∈ s.accepted, InOnePlace s e) ∧
    (∀ w v e, (s.pc w).Runs e → (s.pc v).Runs e → w = v) ∧
    s.started <+: s.accepted ∧ s.started.Nodup ∧
    (s.jobs ≠ [] → ∀ w, s.pc w = .waiting →
      ∃ v, v ≠ w ∧ s.pc v ≠ .waiting ∧ (s.pc v).inJob = false ∧ (s.pc v).examines = true) := by
  obtain ⟨acc, _, awake⟩ := reachable_inv h
  refine ⟨fun e he => acc.in_one_place he, acc.single, ⟨s.jobs, acc.order⟩, ?_, ?_⟩
  · exact (acc.order ▸ acc.nodup).of_append_left
  · intro queued w hw
    obtain ⟨v, hv⟩ := awake up queued w hw
    refine ⟨v, ?_, ?_, ?_, hv⟩
    · rintro rfl; simp [hw, WorkerPc.examines] at hv
    · intro hx; simp [hx, WorkerPc.examines] at hv
    · cases hp : s.pc v <;> simp_all [WorkerPc.examines, WorkerPc.inJob]

/-- Two workers, both still on their way to the mutex, and one job queued. -/
theorem no_lost_job_no_lost_wakeup_one_job :
    let s : Context 2 := (create 2).push ⟨7, 8, none⟩
    s.jobs = [⟨0, ⟨7, 8, none⟩⟩] ∧ (∀ e ∈ s.accepted, InOnePlace s e) := by
  have h : Reachable 2 ((create 2).push ⟨7, 8, none⟩) :=
    .next .start (.addWork ⟨7, 8, none⟩ rfl (.lost (by intro w; simp [Context.push, create])))
  exact ⟨rfl, (no_lost_job_no_lost_wakeup h rfl).1⟩

end SonicUtils.ThreadPool
