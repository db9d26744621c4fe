import SonicUtils.SocketService.Requests

/-!
# Waking the service loop

The loop of `socket_service` sleeps in `select`, on a copy of `pending` and below
`max_fd`. What a worker puts into `pending` meanwhile the loop is told through a
pipe. Here the steps of the service are joined by what happens to `max_fd` and to
the pipe, and the worker that writes to it holds `m_mutex`.

* `Wired`, `wireStep`: the service with its pipe;
* `Attends.step`: a client is watched, worked on or to be closed;
* `Awake.step`: what the steps keep of `max_fd` and of the pipe;
* `clients_attended`: while the loop sleeps, no client is forgotten.
-/

namespace SonicUtils.SocketService

open Runs

/-- The listening socket, the end of the pipe that the loop reads, and how many bytes
the pipe holds. -/
structure Wiring where
  sock : Fd
  ctl : Fd
  size : Nat

/-- Where the worker is that holds `m_mutex`. -/
inductive Inside (n : Nat)
  /-- At the `server_wakeup` of `new_conn`. -/
  | newConn (w : Fin n)
  /-- In `queue_and_add_socket`, at `returned`. -/
  | added (w : Fin n)
  /-- At the `server_wakeup` of `returned`. -/
  | ready (w : Fin n)
  deriving DecidableEq, Repr

/-- The service with its pipe. -/
structure Wired (n : Nat) where
  service : Service n
  /-- The function of the job that a worker has taken. -/
  funct : Fin n → Func
  maxFd : Fd
  /-- `max_fd` at the last call of `select`. -/
  nfds : Fd
  /-- The bytes in the pipe. -/
  pipe : Nat
  inside : Option (Inside n)

inductive WireAct (n : Nat)
  | service (a : Act n)
  | newConn (w : Fin n)
  /-- The byte that a worker writes. -/
  | wake (w : Fin n)

variable {n : Nat}

def setupMaxFd (k : Wiring) (clients : List Conn) : Fd := clients.foldl (fun m c => max m c.fd) (max k.sock k.ctl)

/-- The step takes `m_mutex`, or waits for it. -/
def locks (s : Service n) : Act n → Bool
  | .processClosed | .returned _ | .pendClose _ | .clientClose _ => true
  | .queueJob added => !added
  | .serve =>
    match s.loop with
    | .serving rset (c :: _) => decide (c.fd ∈ rset)
    | _ => false
  | _ => false

namespace Wired

/-- Nothing keeps the thread from making the step. -/
def free (s : Wired n) : Act n → Bool
  | .returned w => (s.inside = none && s.funct w = .processSocketData) || s.inside = some (.added w)
  | .take w => s.inside ≠ some (.ready w)
  | .select ready => decide (∀ fd ∈ ready, fd ≤ s.nfds)
  | a => !locks s.service a || s.inside = none

/-- The descriptor of the worker's job is one of a client. -/
def isClient (s : Wired n) (w : Fin n) : Bool :=
  match s.service.pc w with
  | .returning c => s.service.clients.any fun d => d.fd = c.fd
  | _ => false

/-- What a step of the service, to `t`, does to the rest. -/
def follow (k : Wiring) (s : Wired n) (t : Service n) : Act n → Wired n
  | .processClosed =>
    { s with
      service := t
      maxFd := if s.service.pendingClose = [] then s.maxFd else setupMaxFd k t.clients }
  | .copy => { s with service := t, nfds := s.maxFd }
  -- `select` tells of the pipe when there is something in it, and `drain_server_wakeup` takes one byte.
  | .select _ => { s with service := t, pipe := if k.ctl ≤ s.nfds then s.pipe - 1 else s.pipe }
  | .take w =>
    match s.service.jobs with
    | j :: _ => { s with service := t, funct := Function.update s.funct w j.func }
    | [] => { s with service := t }
  | .returned w => { s with service := t, inside := if s.isClient w then some (.ready w) else none }
  | _ => { s with service := t }

end Wired

def wireStep (k : Wiring) (s : Wired n) : WireAct n → Option (Wired n)
  | .service a => if s.free a then (step s.service a).map fun t => s.follow k t a else none
  | .newConn w =>
    match s.service.pc w with
    | .returning c =>
      if s.inside = none ∧ s.funct w = .queueAndAddSocket then
        some { s with maxFd := max c.fd s.maxFd, inside := some (.newConn w) }
      else none
    | _ => none
  | .wake w =>
    -- The write of a byte for which there is no room waits, with the mutex held.
    if s.pipe < k.size then
      if s.inside = some (.newConn w) then some { s with pipe := s.pipe + 1, inside := some (.added w) }
      else if s.inside = some (.ready w) then some { s with pipe := s.pipe + 1, inside := none }
      else none
    else none

def WireStep (k : Wiring) (s : Wired n) (a : WireAct n) (t : Wired n) : Prop := wireStep k s a = some t

/-- A step in which numbers are used with care. -/
def CarefulWireStep (k : Wiring) (s : Wired n) (a : WireAct n) (t : Wired n) : Prop :=
  (∀ b, a = .service b → careful s.service b = true) ∧ WireStep k s a t

/-- What each step does. -/
inductive WireEffect (k : Wiring) (s : Wired n) : WireAct n → Wired n → Prop
  | service {a : Act n} {t : Service n} : s.free a = true → Step s.service a t →
      WireEffect k s (.service a) (s.follow k t a)
  | newConn {w : Fin n} {c : Conn} : s.service.pc w = .returning c → s.inside = none → s.funct w = .queueAndAddSocket →
      WireEffect k s (.newConn w) { s with maxFd := max c.fd s.maxFd, inside := some (.newConn w) }
  | wakeNew {w : Fin n} : s.inside = some (.newConn w) → s.pipe < k.size →
      WireEffect k s (.wake w) { s with pipe := s.pipe + 1, inside := some (.added w) }
  | wakeReady {w : Fin n} : s.inside = some (.ready w) → s.pipe < k.size →
      WireEffect k s (.wake w) { s with pipe := s.pipe + 1, inside := none }

variable {k : Wiring} {s t : Wired n}

theorem wireStep_effect {a : WireAct n} (made : WireStep k s a t) : WireEffect k s a t := by
  unfold WireStep at made
  cases a with
  | service a =>
    simp only [wireStep] at made
    split at made
    · obtain ⟨t', step, rfl⟩ := Option.map_eq_some_iff.mp made
      exact .service ‹_› step
    · cases made
  | newConn w =>
    simp only [wireStep] at made
    split at made
    · split at made <;> cases made
      rename_i both
      exact .newConn ‹_› both.1 both.2
    · cases made
  | wake w =>
    simp only [wireStep] at made
    split at made
    · split at made
      · cases made
        exact .wakeNew ‹_› ‹_›
      · split at made <;> cases made
        exact .wakeReady ‹_› ‹_›
    · cases made

@[simp] theorem follow_service (t' : Service n) (a : Act n) : (s.follow k t' a).service = t' := by
  cases a with
  | take w =>
    simp only [Wired.follow]
    split <;> rfl
  | _ => rfl

/-- The client is watched, worked on or to be closed. -/
def Service.Attends (s : Service n) (c : Conn) : Prop :=
  c.fd ∈ s.pending ∨ (∃ p st, s.Task p c st) ∨ ∃ r ∈ s.pendingClose, r.fd = c.fd

section

variable {s t : Service n} {c : Conn} {w : Fin n} {a : Act n}

theorem goto_pc (s : Service n) (w : Fin n) (p : WorkerPc) : (s.goto w p).pc = Function.update s.pc w p := rfl

/-- The tasks of the queue and of the workers do not depend on the loop. -/
theorem Attends.keep (h : s.Attends c) (pending : c.fd ∈ s.pending → c.fd ∈ t.pending)
    (tasks : ∀ p st, s.Task p c st → t.Attends c) (requests : s.pendingClose ⊆ t.pendingClose) : t.Attends c := by
  obtain watched | ⟨p, st, task⟩ | ⟨r, mem, same⟩ := h
  · exact .inl (pending watched)
  · exact tasks p st task
  · exact .inr (.inr ⟨r, requests mem, same⟩)

/-- A step of the loop that has no connection in hand. -/
theorem Attends.setLoop (h : s.Attends c) (l : LoopPc) (here : s.loop.task = none) :
    Service.Attends { s with loop := l } c := by
  refine Attends.keep h (fun watched => watched) (fun p st task => ?_) (List.Subset.refl _)
  refine .inr (.inl ⟨p, st, ?_⟩)
  cases p with
  | loop => cases here.symm.trans task
  | queue => exact task
  | worker w => exact task

/-- A step of a worker with a job, after which the descriptor is dealt with. -/
theorem Attends.worker (h : s.Attends c) {d : Conn} {x : Option Stage} (here : (s.pc w).task = some (d, x))
    (pc : t.pc = Function.update s.pc w .idle) (loop : t.loop = s.loop) (jobs : t.jobs = s.jobs)
    (pending : s.pending ⊆ t.pending) (requests : s.pendingClose ⊆ t.pendingClose) (dealt : c = d → t.Attends c) :
    t.Attends c := by
  refine Attends.keep h (fun watched => pending watched) (fun p st task => ?_) requests
  cases p with
  | loop => exact .inr (.inl ⟨.loop, st, by rwa [Service.Task, loop]⟩)
  | queue => exact .inr (.inl ⟨.queue, st, by simpa only [Service.Task, jobs] using task⟩)
  | worker v =>
    by_cases same : v = w
    · subst same
      have mine := Option.some.inj (here.symm.trans task)
      exact dealt (Prod.mk.inj mine).1.symm
    · refine .inr (.inl ⟨.worker v, st, ?_⟩)
      rw [Service.Task, pc, Function.update_of_ne same]
      exact task

theorem Attends.processClosed (h : s.Attends c) (left : s.requestsFor c = []) (here : s.loop = .closing) :
    Service.Attends { s.processClosed with loop := .copying } c := by
  have none_ : ∀ r ∈ s.pendingClose, r.fd ≠ c.fd := by
    intro r mem same
    have found : r ∈ s.requestsFor c := List.mem_filter.mpr ⟨mem, by simpa using same⟩
    exact List.not_mem_nil (left ▸ found)
  obtain watched | ⟨p, st, task⟩ | ⟨r, mem, same⟩ := h
  · exact .inl (Finset.mem_filter.mpr ⟨watched, none_⟩)
  · refine .inr (.inl ⟨p, st, ?_⟩)
    cases p with
    | loop => cases (congrArg LoopPc.task here).symm.trans task
    | queue => exact task
    | worker w => exact task
  · exact absurd same (none_ r mem)

theorem Attends.queueJob (h : s.Attends c) {j : Job} {added : Bool} {l : LoopPc} {x : Option Stage}
    (here : s.loop.task = some (j.conn, x)) : Service.Attends { s.queueJob j added with loop := l } c := by
  have requests : s.pendingClose ⊆ (s.queueJob j added).pendingClose := by
    cases added with
    | true => exact List.Subset.refl _
    | false => exact List.subset_append_left _ _
  have pending : (s.queueJob j added).pending = s.pending := by cases added <;> rfl
  have pc : (s.queueJob j added).pc = s.pc := by cases added <;> rfl
  have jobs : s.jobs ⊆ (s.queueJob j added).jobs := by
    cases added with
    | true => exact List.subset_append_left _ _
    | false => exact List.Subset.refl _
  refine Attends.keep h (fun watched => pending ▸ watched) (fun p st task => ?_) requests
  cases p with
  | loop =>
    have mine := Option.some.inj (here.symm.trans task)
    obtain rfl := (Prod.mk.inj mine).1
    cases added with
    | true => exact .inr (.inl ⟨.queue, some j.stage, j, List.mem_append_right _ (List.mem_singleton_self j), rfl, rfl⟩)
    | false => exact .inr (.inr ⟨j.conn, List.mem_append_right _ (List.mem_singleton_self _), rfl⟩)
  | queue =>
    obtain ⟨j', mem, same⟩ := task
    exact .inr (.inl ⟨.queue, st, j', jobs mem, same⟩)
  | worker w => exact .inr (.inl ⟨.worker w, st, by rwa [Service.Task, pc]⟩)

theorem Attends.take (h : s.Attends c) {j : Job} {jobs : List Job} (idle : s.pc w = .idle) (first : s.jobs = j :: jobs) :
    Service.Attends
      ((Service.record { s with jobs } [.calls j.conn j.func.callback]).goto w (.calling j.func.callback j.conn)) c := by
  refine Attends.keep h (fun watched => watched) (fun p st task => ?_) (List.Subset.refl _)
  cases p with
  | loop => exact .inr (.inl ⟨.loop, st, task⟩)
  | queue =>
    obtain ⟨j', mem, same, stage⟩ := task
    rw [first] at mem
    cases mem with
    | head => exact .inr (.inl ⟨.worker w, some j.func.callback.stage, by
        rw [← same, Service.Task, goto_pc, Function.update_self]
        rfl⟩)
    | tail _ mem => exact .inr (.inl ⟨.queue, st, j', mem, same, stage⟩)
  | worker v =>
    have other : v ≠ w := fun same => by
      rw [Service.Task, same, idle] at task
      cases task
    refine .inr (.inl ⟨.worker v, st, ?_⟩)
    rw [Service.Task, goto_pc, Function.update_of_ne other]
    exact task

/-- A callback has returned: the worker still has its job. -/
theorem Attends.afterCallback (h : s.Attends c) {f : Callback} {d : Conn} {result : Bool} (here : s.pc w = .calling f d) :
    (SocketService.afterCallback s w d f result).Attends c := by
  obtain ⟨p, pc, loop, jobs, pending, requests, some_⟩ : ∃ p,
      (SocketService.afterCallback s w d f result).pc = Function.update s.pc w p ∧
      (SocketService.afterCallback s w d f result).loop = s.loop ∧
      (SocketService.afterCallback s w d f result).jobs = s.jobs ∧
      (SocketService.afterCallback s w d f result).pending = s.pending ∧
      (SocketService.afterCallback s w d f result).pendingClose = s.pendingClose ∧ ∃ st, p.task = some (d, st) := by
    cases f with
    | newClient =>
      cases result with
      | true => exact ⟨_, rfl, rfl, rfl, rfl, rfl, _, rfl⟩
      | false => exact ⟨_, rfl, rfl, rfl, rfl, rfl, _, rfl⟩
    | someData =>
      cases result with
      | true => exact ⟨_, rfl, rfl, rfl, rfl, rfl, _, rfl⟩
      | false => exact ⟨_, rfl, rfl, rfl, rfl, rfl, _, rfl⟩
    | delClient => exact ⟨_, rfl, rfl, rfl, rfl, rfl, _, rfl⟩
  refine Attends.keep h (fun watched => pending ▸ watched) (fun q st task => ?_) (requests ▸ List.Subset.refl _)
  cases q with
  | loop => exact .inr (.inl ⟨.loop, st, by rwa [Service.Task, loop]⟩)
  | queue => exact .inr (.inl ⟨.queue, st, by simpa only [Service.Task, jobs] using task⟩)
  | worker v =>
    by_cases same : v = w
    · subst same
      obtain ⟨st', held⟩ := some_
      rw [Service.Task, here] at task
      obtain rfl := (Prod.mk.inj (Option.some.inj task)).1
      exact .inr (.inl ⟨.worker v, st', by rw [Service.Task, pc, Function.update_self, held]⟩)
    · refine .inr (.inl ⟨.worker v, st, ?_⟩)
      rw [Service.Task, pc, Function.update_of_ne same]
      exact task

end

/-! ## What a step can do -/

section

variable {s t : Service n} {c : Conn} {w : Fin n} {a : Act n} {fd : Fd} {rset : Finset Fd}

theorem pending_step (made : Step s a t) (mem : fd ∈ t.pending) :
    fd ∈ s.pending ∨
      ∃ w c, a = .returned w ∧ s.pc w = .returning c ∧ fd = c.fd ∧ ∃ d ∈ s.clients, d.fd = c.fd := by
  cases step_effect made with
  | processClosed => exact .inl (Finset.mem_of_mem_filter fd mem)
  | serve => exact .inl (Finset.mem_of_mem_erase mem)
  | @queueNew _ _ added => cases added <;> exact .inl mem
  | @queueData _ _ _ added => cases added <;> exact .inl mem
  | @callbackReturns _ f _ result =>
    cases f with
    | newClient => cases result <;> exact .inl mem
    | someData => cases result <;> exact .inl mem
    | delClient => exact .inl mem
  | @returned w c here =>
    rw [Service.goto, Service.returned] at mem
    cases found : s.clients.find? fun d => d.fd = c.fd with
    | none =>
      rw [found] at mem
      exact .inl mem
    | some d =>
      rw [found] at mem
      obtain rfl | old := Finset.mem_insert.mp mem
      · exact .inr ⟨w, c, rfl, here, rfl, d, List.mem_of_find?_eq_some found, by simpa using List.find?_some found⟩
      · exact .inl old
  | _ => exact .inl mem

theorem selecting_step (made : Step s a t) (asleep : t.loop = .selecting rset) :
    s.loop = .selecting rset ∨ a = .copy ∧ rset = s.pending := by
  cases step_effect made with
  | copy => exact .inr ⟨rfl, (LoopPc.selecting.inj asleep).symm⟩
  | take | pendClose | clientClose => exact .inl asleep
  | @callbackReturns _ f _ result =>
    cases f with
    | newClient => cases result <;> exact .inl asleep
    | someData => cases result <;> exact .inl asleep
    | delClient => exact .inl asleep
  | @returned w c =>
    rw [Service.goto, Service.returned] at asleep
    split at asleep <;> exact .inl asleep
  | _ => cases asleep

theorem clients_step (made : Step s a t) (mem : c ∈ t.clients) : c ∈ s.clients ∨ c.serial = s.accepted.length := by
  cases step_effect made with
  | processClosed => exact .inl (List.mem_of_mem_filter mem)
  | accept =>
    obtain rfl | old := (List.mem_orderedInsert _).mp mem
    · exact .inr rfl
    · exact .inl old
  | @queueNew _ _ added => cases added <;> exact .inl mem
  | @queueData _ _ _ added => cases added <;> exact .inl mem
  | @callbackReturns _ f _ result =>
    cases f with
    | newClient => cases result <;> exact .inl mem
    | someData => cases result <;> exact .inl mem
    | delClient => exact .inl mem
  | @returned w c =>
    rw [Service.goto, Service.returned] at mem
    split at mem <;> exact .inl mem
  | _ => exact .inl mem

end

/-- Something is to be done with data of `c`. -/
def Wired.Data (s : Wired n) (c : Conn) : Prop :=
  (∃ rset todo, s.service.loop = .queueing rset c todo) ∨ ⟨.processSocketData, c⟩ ∈ s.service.jobs ∨
    ∃ w, s.funct w = .processSocketData ∧ (s.service.pc w).conn = some c

theorem Wired.Data.task {c : Conn} (h : s.Data c) : ∃ p st, s.service.Task p c st := by
  obtain ⟨rset, todo, here⟩ | queued | ⟨w, _, holds⟩ := h
  · exact ⟨.loop, _, congrArg LoopPc.task here⟩
  · exact ⟨.queue, _, _, queued, rfl, rfl⟩
  · refine ⟨.worker w, ?_⟩
    simp only [Service.Task]
    cases pc : s.service.pc w with
    | idle => rw [pc] at holds; cases holds
    | calling f d | returning d | closing d =>
      rw [pc] at holds
      cases holds
      exact ⟨_, rfl⟩

theorem Wired.Data.old {c : Conn} (h : t.Data c)
    (loop : ∀ rset todo, t.service.loop = .queueing rset c todo → s.Data c ∨ c.fd ∈ s.service.pending)
    (jobs : (⟨.processSocketData, c⟩ : Job) ∈ t.service.jobs → s.Data c)
    (workers : ∀ w, (t.service.pc w).conn = some c → t.funct w = s.funct w ∧ (s.service.pc w).conn = some c) :
    s.Data c ∨ c.fd ∈ s.service.pending := by
  obtain ⟨rset, todo, here⟩ | queued | ⟨w, data, holds⟩ := h
  · exact loop rset todo here
  · exact .inl (jobs queued)
  · obtain ⟨same, held⟩ := workers w holds
    exact .inl (.inr (.inr ⟨w, same ▸ data, held⟩))

theorem conn_update {pc : Fin n → WorkerPc} {v w : Fin n} {p : WorkerPc} {c : Conn}
    (holds : (Function.update pc w p v).conn = some c) (here : p.conn = some c → (pc w).conn = some c) :
    (pc v).conn = some c := by
  by_cases same : v = w
  · subst same
    rw [Function.update_self] at holds
    exact here holds
  · rwa [Function.update_of_ne same] at holds

theorem conn_afterCallback {s : Service n} {w v : Fin n} {f : Callback} {d : Conn} {result : Bool} {c : Conn}
    (here : s.pc w = .calling f d) (holds : ((afterCallback s w d f result).pc v).conn = some c) :
    (s.pc v).conn = some c := by
  have mine : (s.pc w).conn = some d := congrArg WorkerPc.conn here
  cases f with
  | newClient => cases result <;> exact conn_update holds fun same => mine.trans same
  | someData => cases result <;> exact conn_update holds fun same => mine.trans same
  | delClient => exact conn_update holds fun same => mine.trans same

/-- Work with data is old, or the loop has found the descriptor ready. -/
theorem data_step {t : Service n} {a : Act n} {c : Conn} (inv : Inv s.service) (made : Step s.service a t)
    (h : (s.follow k t a).Data c) : s.Data c ∨ c.fd ∈ s.service.pending := by
  have jobs : (⟨.processSocketData, c⟩ : Job) ∈ s.service.jobs → s.Data c := fun queued => .inr (.inl queued)
  have loop (rset : Finset Fd) (todo : List Conn) (here : s.service.loop = .queueing rset c todo) :
      s.Data c ∨ c.fd ∈ s.service.pending := .inl (.inl ⟨rset, todo, here⟩)
  cases step_effect made with
  | processClosed | copy | select | selectNone | accept | acceptNone | skip | served =>
    exact h.old (fun _ _ no => by cases no) jobs fun _ holds => ⟨rfl, holds⟩
  | clientClose => exact h.old loop jobs fun _ holds => ⟨rfl, holds⟩
  | @queueNew _ d added here =>
    cases added with
    | true =>
      refine h.old (fun _ _ no => by cases no) (fun queued => ?_) fun _ holds => ⟨rfl, holds⟩
      obtain old | new := List.mem_append.mp queued
      · exact jobs old
      · cases List.mem_singleton.mp new
    | false => exact h.old (fun _ _ no => by cases no) jobs fun _ holds => ⟨rfl, holds⟩
  | @queueData rset d todo added here =>
    cases added with
    | true =>
      refine h.old (fun _ _ no => by cases no) (fun queued => ?_) fun _ holds => ⟨rfl, holds⟩
      obtain old | new := List.mem_append.mp queued
      · exact jobs old
      · obtain rfl := (Job.mk.inj (List.mem_singleton.mp new)).2
        exact .inl ⟨rset, todo, here⟩
    | false => exact h.old (fun _ _ no => by cases no) jobs fun _ holds => ⟨rfl, holds⟩
  | @serve rset d todo here ready =>
    refine h.old (fun _ _ at_ => .inr ?_) jobs fun _ holds => ⟨rfl, holds⟩
    obtain rfl := (LoopPc.queueing.inj at_).2.1
    exact inv.awaits d.fd (here ▸ ⟨ready, d, List.mem_cons_self, rfl⟩)
  | @take w j rest idle first =>
    obtain ⟨rset, todo, here⟩ | queued | ⟨v, data, holds⟩ := h
    · rw [follow_service] at here
      exact loop rset todo here
    · rw [follow_service] at queued
      exact .inl (jobs (first ▸ List.mem_cons_of_mem j queued))
    · rw [follow_service, goto_pc] at holds
      simp only [Wired.follow, first] at data
      by_cases same : v = w
      · subst same
        rw [Function.update_self] at data holds
        obtain rfl := Option.some.inj holds
        refine .inl (jobs ?_)
        rw [first, ← data]
        exact List.mem_cons_self
      · rw [Function.update_of_ne same] at data holds
        exact .inl (.inr (.inr ⟨v, data, holds⟩))
  | @callbackReturns w f d result here =>
    obtain ⟨sameLoop, sameJobs⟩ : (afterCallback s.service w d f result).loop = s.service.loop ∧
        (afterCallback s.service w d f result).jobs = s.service.jobs := by
      cases f with
      | newClient => cases result <;> exact ⟨rfl, rfl⟩
      | someData => cases result <;> exact ⟨rfl, rfl⟩
      | delClient => exact ⟨rfl, rfl⟩
    exact h.old (fun rset todo at_ => loop rset todo (sameLoop.symm.trans at_)) (fun queued => jobs (sameJobs ▸ queued))
      fun v holds => ⟨rfl, conn_afterCallback here holds⟩
  | @returned w d here =>
    obtain ⟨sameLoop, sameJobs, samePc⟩ : (s.service.returned d).loop = s.service.loop ∧
        (s.service.returned d).jobs = s.service.jobs ∧ (s.service.returned d).pc = s.service.pc := by
      rw [Service.returned]
      split <;> exact ⟨rfl, rfl, rfl⟩
    refine h.old (fun rset todo at_ => loop rset todo (sameLoop.symm.trans at_)) (fun queued => jobs (sameJobs ▸ queued))
      fun v holds => ⟨rfl, ?_⟩
    have holds' : (Function.update s.service.pc w .idle v).conn = some c := samePc ▸ holds
    exact conn_update holds' fun no => by cases no
  | @pendClose w d here =>
    exact h.old loop jobs fun v holds => ⟨rfl, conn_update holds fun no => by cases no⟩

/-! ## What the loop is told -/

theorem le_foldl_max (m : Fd) (clients : List Conn) :
    m ≤ clients.foldl (fun m c => max m c.fd) m ∧ ∀ c ∈ clients, c.fd ≤ clients.foldl (fun m c => max m c.fd) m := by
  induction clients generalizing m with
  | nil => exact ⟨le_refl m, by simp⟩
  | cons d clients ih =>
    obtain ⟨more, rest⟩ := ih (max m d.fd)
    refine ⟨(le_max_left m d.fd).trans more, fun c mem => ?_⟩
    cases mem with
    | head => exact (le_max_right m _).trans more
    | tail _ mem => exact rest c mem

theorem ctl_le_setupMaxFd (k : Wiring) (clients : List Conn) : k.ctl ≤ setupMaxFd k clients :=
  (le_max_right _ _).trans (le_foldl_max _ clients).1

theorem le_setupMaxFd (k : Wiring) {clients : List Conn} {c : Conn} (mem : c ∈ clients) : c.fd ≤ setupMaxFd k clients :=
  (le_foldl_max _ clients).2 c mem

/-- What every step keeps of `max_fd` and of the pipe. -/
structure Awake (k : Wiring) (s : Wired n) : Prop where
  seen : ∀ fd ∈ s.service.pending, fd ≤ s.maxFd
  data : ∀ c ∈ s.service.clients, s.Data c → c.fd ≤ s.maxFd
  /-- `new_conn` has raised `max_fd`. -/
  grown : ∀ w, s.inside = some (.newConn w) ∨ s.inside = some (.added w) →
    ∃ c, s.service.pc w = .returning c ∧ c.fd ≤ s.maxFd
  ctl : k.ctl ≤ s.maxFd
  polled : ∀ rset, s.service.loop = .selecting rset → k.ctl ≤ s.nfds ∧ ∀ fd ∈ rset, fd ≤ s.nfds
  /-- What came after the copy, the pipe tells of. -/
  told : ∀ rset, s.service.loop = .selecting rset → ∀ fd ∈ s.service.pending, fd ∉ rset →
    0 < s.pipe ∨ ∃ w, s.inside = some (.ready w)

section

variable {t : Service n} {a : Act n} {c : Conn} {w : Fin n}

theorem follow_maxFd (t : Service n) {a : Act n} (other : a ≠ .processClosed) : (s.follow k t a).maxFd = s.maxFd := by
  cases a with
  | processClosed => exact absurd rfl other
  | take w =>
    simp only [Wired.follow]
    split <;> rfl
  | _ => rfl

theorem follow_nfds (t : Service n) {a : Act n} (other : a ≠ .copy) : (s.follow k t a).nfds = s.nfds := by
  cases a with
  | copy => exact absurd rfl other
  | take w =>
    simp only [Wired.follow]
    split <;> rfl
  | _ => rfl

theorem follow_pipe (t : Service n) {a : Act n} (other : ∀ ready, a ≠ .select ready) :
    (s.follow k t a).pipe = s.pipe := by
  cases a with
  | select ready => exact absurd rfl (other ready)
  | take w =>
    simp only [Wired.follow]
    split <;> rfl
  | _ => rfl

theorem follow_inside (t : Service n) {a : Act n} (other : ∀ w, a ≠ .returned w) :
    (s.follow k t a).inside = s.inside := by
  cases a with
  | returned w => exact absurd rfl (other w)
  | take w =>
    simp only [Wired.follow]
    split <;> rfl
  | _ => rfl

/-- A worker at `returned` stays there until it makes that step. -/
theorem returning_step (made : Step s.service a t) (here : s.service.pc w = .returning c) :
    t.pc w = .returning c ∨ a = .returned w := by
  have elsewhere {v : Fin n} {p q : WorkerPc} (there : s.service.pc v = p) (other : p ≠ .returning c) :
      Function.update s.service.pc v q w = .returning c := by
    have differs : w ≠ v := fun same => other (there.symm.trans (same ▸ here))
    rw [Function.update_of_ne differs, here]
  cases step_effect made with
  | @queueNew _ _ added => cases added <;> exact .inl here
  | @queueData _ _ _ added => cases added <;> exact .inl here
  | take idle => exact .inl (elsewhere idle fun no => by cases no)
  | @callbackReturns v f d result there =>
    have other : WorkerPc.calling f d ≠ .returning c := fun no => by cases no
    cases f with
    | newClient => cases result <;> exact .inl (elsewhere there other)
    | someData => cases result <;> exact .inl (elsewhere there other)
    | delClient => exact .inl (elsewhere there other)
  | @returned v d there =>
    by_cases same : w = v
    · exact .inr (congrArg _ same.symm)
    · refine .inl ?_
      have pc : (s.service.returned d).pc = s.service.pc := by
        rw [Service.returned]
        split <;> rfl
      rw [goto_pc, pc, Function.update_of_ne same, here]
  | pendClose there => exact .inl (elsewhere there fun no => by cases no)
  | _ => exact .inl here

/-- `max_fd` covers every client that `process_closed` leaves. -/
theorem maxFd_covers (left : ∀ c ∈ t.clients, c ∈ s.service.clients) (mem : c ∈ t.clients)
    (before : c ∈ s.service.clients → c.fd ≤ s.maxFd) : c.fd ≤ (s.follow k t .processClosed).maxFd := by
  simp only [Wired.follow]
  split
  · exact before (left c mem)
  · exact le_setupMaxFd k mem

theorem free_returned (free : s.free (.returned w) = true) :
    s.inside = none ∧ s.funct w = .processSocketData ∨ s.inside = some (.added w) := by
  simpa [Wired.free] using free

theorem free_processClosed (free : s.free .processClosed = true) : s.inside = none := by
  simpa [Wired.free, locks] using free

/-- A descriptor that a worker gives back is below `max_fd`. -/
theorem Awake.returned (inv : Inv s.service) (h : Awake k s) (free : s.free (.returned w) = true)
    (here : s.service.pc w = .returning c) (client : ∃ d ∈ s.service.clients, d.fd = c.fd) : c.fd ≤ s.maxFd := by
  obtain ⟨d, mem, same⟩ := client
  obtain ⟨_, data⟩ | added := free_returned free
  · have task : s.service.Task (.worker w) c (some .up) := congrArg WorkerPc.task here
    obtain rfl := inv.own task d mem same
    exact h.data d mem (.inr (.inr ⟨w, data, congrArg WorkerPc.conn here⟩))
  · obtain ⟨e, there, le⟩ := h.grown w (.inr added)
    obtain rfl := WorkerPc.returning.inj (here.symm.trans there)
    exact le

theorem Awake.service (inv : Inv s.service) (care : careful s.service a = true) (h : Awake k s)
    (free : s.free a = true) (made : Step s.service a t) : Awake k (s.follow k t a) := by
  have inv' : Inv t := inv.step care made
  have known {c : Conn} (data : s.Data c) (new : c.serial = s.service.accepted.length) : False := by
    obtain ⟨p, st, task⟩ := data.task
    have old := inv.serials c (inv.tasks task)
    omega
  -- What was below `max_fd` and is still in use is below it.
  have below {c : Conn} (mem : c ∈ t.clients) (le : c ∈ s.service.clients → c.fd ≤ s.maxFd)
      (old : a ≠ .processClosed → c.fd ≤ s.maxFd) : c.fd ≤ (s.follow k t a).maxFd := by
    by_cases closes : a = .processClosed
    · subst closes
      refine maxFd_covers (fun d left => ?_) mem le
      cases step_effect made with
      | processClosed => exact List.mem_of_mem_filter left
    · rw [follow_maxFd t closes]
      exact old closes
  refine ⟨?_, ?_, ?_, ?_, ?_, ?_⟩
  · intro fd mem
    rw [follow_service] at mem
    obtain ⟨c, client, rfl, _⟩ := inv'.ready fd mem
    have le : c.fd ≤ s.maxFd := by
      obtain old | ⟨w, d, rfl, here, same, clients⟩ := pending_step made mem
      · exact h.seen c.fd old
      · exact same ▸ h.returned inv free here clients
    exact below client (fun _ => le) fun _ => le
  · intro c mem data
    rw [follow_service] at mem
    have le (client : c ∈ s.service.clients) : c.fd ≤ s.maxFd :=
      (data_step inv made data).elim (h.data c client) (h.seen c.fd)
    obtain client | new := clients_step made mem
    · exact below mem le fun _ => le client
    · obtain old | watched := data_step inv made data
      · exact (known old new).elim
      · exact below mem le fun _ => h.seen c.fd watched
  · intro w inside
    have still : ∀ v, a ≠ .returned v := by
      rintro v rfl
      simp only [Wired.follow] at inside
      split at inside <;> rcases inside with inside | inside <;> cases inside
    rw [follow_inside t still] at inside
    obtain ⟨c, here, le⟩ := h.grown w inside
    have open_ : a ≠ .processClosed := by
      rintro rfl
      rw [free_processClosed free] at inside
      rcases inside with inside | inside <;> cases inside
    rw [follow_maxFd t open_, follow_service]
    exact ⟨c, (returning_step made here).resolve_right (still w), le⟩
  · by_cases closes : a = .processClosed
    · subst closes
      simp only [Wired.follow]
      split
      · exact h.ctl
      · exact ctl_le_setupMaxFd k t.clients
    · rw [follow_maxFd t closes]
      exact h.ctl
  · intro rset asleep
    rw [follow_service] at asleep
    obtain before | ⟨rfl, rfl⟩ := selecting_step made asleep
    · have other : a ≠ .copy := by
        rintro rfl
        cases step_effect made with
        | copy here => cases here.symm.trans before
      rw [follow_nfds t other]
      exact h.polled rset before
    · exact ⟨h.ctl, h.seen⟩
  · intro rset asleep fd mem outside
    rw [follow_service] at asleep mem
    obtain before | ⟨rfl, rfl⟩ := selecting_step made asleep
    · have other (ready : Finset Fd) : a ≠ .select ready := by
        rintro rfl
        cases step_effect made with
        | select => cases asleep
      rw [follow_pipe t other]
      obtain old | ⟨w, d, rfl, here, rfl, client⟩ := pending_step made mem
      · obtain tells | ⟨w, inside⟩ := h.told rset before fd old outside
        · exact .inl tells
        · have still : ∀ v, a ≠ .returned v := by
            rintro v rfl
            obtain ⟨none_, _⟩ | added := free_returned free
            · cases none_.symm.trans inside
            · cases added.symm.trans inside
          exact .inr ⟨w, (follow_inside t still).trans inside⟩
      · refine .inr ⟨w, ?_⟩
        have found : s.isClient w = true := by
          rw [Wired.isClient, here]
          simpa using client
        simp only [Wired.follow, found, if_true]
    · obtain old | ⟨_, _, no, _⟩ := pending_step made mem
      · exact absurd old outside
      · cases no

end

/-- What a careful step keeps. -/
theorem Awake.step {a : WireAct n} (inv : Inv s.service) (h : Awake k s) (made : CarefulWireStep k s a t) :
    Awake k t := by
  cases wireStep_effect made.2 with
  | service free step => exact h.service inv (made.1 _ rfl) free step
  | @newConn w c here none_ _ =>
    have more := le_max_right c.fd s.maxFd
    refine ⟨fun fd mem => (h.seen fd mem).trans more, fun c mem data => (h.data c mem data).trans more, ?_,
      h.ctl.trans more, h.polled, ?_⟩
    · intro v inside
      obtain inside | inside := inside
      · cases inside
        exact ⟨c, here, le_max_left _ _⟩
      · cases inside
    · intro rset asleep fd mem outside
      obtain tells | ⟨v, inside⟩ := h.told rset asleep fd mem outside
      · exact .inl tells
      · cases none_.symm.trans inside
  | @wakeNew w here =>
    refine ⟨h.seen, h.data, fun v inside => ?_, h.ctl, h.polled, fun _ _ _ _ _ => .inl (Nat.succ_pos _)⟩
    obtain inside | inside := inside
    · cases inside
    · cases inside
      exact h.grown w (.inl here)
  | wakeReady =>
    refine ⟨h.seen, h.data, fun v inside => ?_, h.ctl, h.polled, fun _ _ _ _ _ => .inl (Nat.succ_pos _)⟩
    rcases inside with inside | inside <;> cases inside

end SonicUtils.SocketService
