import Mathlib.Logic.Function.Basic

/-!
# The thread pool

`std_thread_pool.cpp` with its mutex and condition variable made explicit. A
step is what one thread does between two points where another can come in:
the critical section of `add_work`, and for a worker each stretch of
`worker_thread` and `dequeue` between taking or giving up the mutex, calling
the job and testing the shutdown flag.

The histories `accepted`, `started` and `finished` are not in the code. They
record what happened, and no step reads them, apart from the ticket that
`add_work` gives to the next accepted job.
-/

namespace SonicUtils.ThreadPool

/-- `std_thread_pool_job_t`, its three pointers as addresses. -/
structure Job where
  context : Nat
  funct : Nat
  freeJobFunc : Option Nat
  deriving DecidableEq, Repr

/-- An accepted job. Two jobs with the same contents differ in their ticket. -/
structure Entry where
  ticket : Nat
  job : Job
  deriving DecidableEq, Repr

/-- Where a worker is in `worker_thread` and `dequeue`. -/
inductive WorkerPc
  /-- In `lock()`: a fresh thread, or one woken inside `wait()`. -/
  | locking
  /-- Holds the mutex, at `while (!ctx->shutdown)`. -/
  | testing
  /-- Holds the mutex, at the head of `dequeue`. -/
  | dequeuing
  /-- In `job.funct(job.context)`. -/
  | running (e : Entry)
  /-- In `job.free_job_func(job.context)`. -/
  | freeing (e : Entry)
  /-- In the `lock()` that ends the job branch of `dequeue`. -/
  | relocking
  /-- Holds the mutex, at `return jobs.size()>0`. -/
  | returning
  /-- In `std_condition_var_wait`. -/
  | waiting
  | exited
  deriving DecidableEq, Repr

/-- Where the caller of `std_thread_pool_delete` is, and in `signalling` how
many rounds of the loop in `do_shutdown` are left. -/
inductive DeletePc
  | notCalled
  | signalling (left : Nat)
  | destroyed
  | returned
  deriving DecidableEq, Repr

/-- `std_thread_pool_context_t` for `n` workers, and where each thread is. -/
structure Context (n : Nat) where
  owner : Option (Fin n)
  jobs : List Entry
  shutdown : Bool
  pc : Fin n → WorkerPc
  deletePc : DeletePc
  accepted : List Entry
  started : List Entry
  finished : List Entry

variable {n : Nat}

/-- `std_thread_pool_create` once its threads are started. -/
def create (n : Nat) : Context n :=
  ⟨none, [], false, fun _ => .locking, .notCalled, [], [], []⟩

def Context.goto (s : Context n) (w : Fin n) (p : WorkerPc) : Context n :=
  { s with pc := Function.update s.pc w p }

def Context.acquire (s : Context n) (w : Fin n) : Context n := { s with owner := some w }

def Context.release (s : Context n) : Context n := { s with owner := none }

/-- The entry that `jobs.push_back(*job)` adds. -/
def Context.nextEntry (s : Context n) (job : Job) : Entry := ⟨s.accepted.length, job⟩

def Context.push (s : Context n) (job : Job) : Context n :=
  { s with jobs := s.jobs ++ [s.nextEntry job], accepted := s.accepted ++ [s.nextEntry job] }

/-- `jobs.pop_front()` and the `unlock()` after it, the job now with `w`. -/
def Context.take (s : Context n) (w : Fin n) (e : Entry) (rest : List Entry) : Context n :=
  ({ s with jobs := rest, started := s.started ++ [e] }.release).goto w (.running e)

/-- The last callback of a job returns. -/
def Context.finish (s : Context n) (w : Fin n) (e : Entry) : Context n :=
  { s with finished := s.finished ++ [e] }.goto w .relocking

/-- `std_condition_var_signal`: one waiting worker goes on to take the mutex
again, whichever the scheduler picks; with nobody waiting it is lost. -/
inductive Signal (s : Context n) : Context n → Prop
  | lost (nobody : ∀ w, s.pc w ≠ .waiting) : Signal s s
  | wakes (w : Fin n) (asleep : s.pc w = .waiting) : Signal s (s.goto w .locking)

inductive Step : Context n → Context n → Prop
  /-- `add_work`, one critical section. -/
  | addWork {s t : Context n} (job : Job) (free : s.owner = none)
      (signal : Signal (s.push job) t) : Step s t
  /-- `add_work` when `push_back` throws: the job is not accepted. -/
  | addWorkFails {s : Context n} (free : s.owner = none) : Step s s
  | lock {s : Context n} (w : Fin n) (here : s.pc w = .locking) (free : s.owner = none) :
      Step s ((s.acquire w).goto w .testing)
  | testDown {s : Context n} (w : Fin n) (here : s.pc w = .testing) (down : s.shutdown = true) :
      Step s (s.release.goto w .exited)
  | testUp {s : Context n} (w : Fin n) (here : s.pc w = .testing) (up : s.shutdown = false) :
      Step s (s.goto w .dequeuing)
  /-- `dequeue` sees the flag, signals and returns false: on to `wait()`. -/
  | dequeueDown {s t : Context n} (w : Fin n) (here : s.pc w = .dequeuing)
      (down : s.shutdown = true) (signal : Signal s t) : Step s (t.release.goto w .waiting)
  /-- `dequeue` finds no job and returns false: on to `wait()`. -/
  | dequeueEmpty {s : Context n} (w : Fin n) (here : s.pc w = .dequeuing)
      (up : s.shutdown = false) (empty : s.jobs = []) : Step s (s.release.goto w .waiting)
  /-- `len == 1`: the only job is taken, and nobody is signalled. -/
  | dequeueLast {s : Context n} (w : Fin n) (e : Entry) (here : s.pc w = .dequeuing)
      (up : s.shutdown = false) (only : s.jobs = [e]) : Step s (s.take w e [])
  /-- `len > 1`: the front job is taken and a waiting worker is signalled. -/
  | dequeueMore {s t : Context n} (w : Fin n) (e f : Entry) (rest : List Entry)
      (here : s.pc w = .dequeuing) (up : s.shutdown = false) (more : s.jobs = e :: f :: rest)
      (signal : Signal (s.take w e (f :: rest)) t) : Step s t
  /-- `job.funct` returns and there is no `free_job_func`. -/
  | jobReturns {s : Context n} (w : Fin n) (e : Entry) (here : s.pc w = .running e)
      (keeps : e.job.freeJobFunc = none) : Step s (s.finish w e)
  | jobFrees {s : Context n} (w : Fin n) (e : Entry) (here : s.pc w = .running e)
      (f : Nat) (frees : e.job.freeJobFunc = some f) : Step s (s.goto w (.freeing e))
  | freeReturns {s : Context n} (w : Fin n) (e : Entry) (here : s.pc w = .freeing e) :
      Step s (s.finish w e)
  | relock {s : Context n} (w : Fin n) (here : s.pc w = .relocking) (free : s.owner = none) :
      Step s ((s.acquire w).goto w .returning)
  /-- `dequeue` returns true: the worker goes round its loop. -/
  | returnMore {s : Context n} (w : Fin n) (here : s.pc w = .returning) (more : s.jobs ≠ []) :
      Step s (s.goto w .testing)
  | returnEmpty {s : Context n} (w : Fin n) (here : s.pc w = .returning) (empty : s.jobs = []) :
      Step s (s.release.goto w .waiting)
  /-- A spurious wake-up. -/
  | wake {s : Context n} (w : Fin n) (here : s.pc w = .waiting) : Step s (s.goto w .locking)
  /-- `p->shutdown = true`, written without the mutex. -/
  | delete {s : Context n} (here : s.deletePc = .notCalled) :
      Step s { s with shutdown := true, deletePc := .signalling n }
  | deleteSignal {s t : Context n} (k : Nat) (here : s.deletePc = .signalling (k + 1))
      (free : s.owner = none) (signal : Signal s t) : Step s { t with deletePc := .signalling k }
  /-- The condition variable and the mutex are destroyed. -/
  | deleteDestroys {s : Context n} (here : s.deletePc = .signalling 0) :
      Step s { s with deletePc := .destroyed }
  /-- `delete p` after the fixed sleep. -/
  | deleteReturns {s : Context n} (here : s.deletePc = .destroyed) :
      Step s { s with deletePc := .returned }

/-- The states that some interleaving of the threads leads to. -/
inductive Reachable (n : Nat) : Context n → Prop
  | start : Reachable n (create n)
  | next {s t : Context n} : Reachable n s → Step s t → Reachable n t

end SonicUtils.ThreadPool
