import SonicUtils.SocketService.Model
import SonicUtils.Lib.Runs
import Mathlib.Data.List.Nodup

/-!
# Requests and the connections they are for

* `InOrder`, `Own`: the callbacks of a connection come one at a time and in their
  order, and no request acts on another connection with the same number;
* `careful`: what the kernel and the callers of `std_socket_service_client_close`
  have to avoid;
* `Inv.step`: what every careful step keeps;
* `requests_own`: what holds in every state that careful steps lead to.
-/

namespace SonicUtils.SocketService

open Runs

/-- Where the callbacks of a connection are. -/
inductive Stage
  | fresh
  | inNew
  | up
  | inData
  | inDel
  | down
  deriving DecidableEq, Repr

/-- First `new_client`, then any number of `some_data`, then at most one `del_client`. -/
def Stage.next : Stage → Event → Option Stage
  | .fresh, .calls _ .newClient => some .inNew
  | .inNew, .returns _ .newClient => some .up
  | .up, .calls _ .someData => some .inData
  | .inData, .returns _ .someData => some .up
  | .up, .calls _ .delClient => some .inDel
  | .inDel, .returns _ .delClient => some .down
  | st, .closes _ _ | st, .readies _ _ => some st
  | _, .calls _ _ | _, .returns _ _ => none

def Event.conn : Event → Conn
  | .calls c _ | .returns c _ | .closes c _ | .readies c _ => c

/-- The stage after these events, if they are in order. -/
def course (c : Conn) (log : List Event) : Option Stage := (log.filter fun e => e.conn = c).foldlM Stage.next .fresh

/-- The callbacks for `c` have come one at a time and in their order. -/
def InOrder (log : List Event) (c : Conn) : Prop := course c log ≠ none

/-- A request made for a connection acts on no other one. -/
def Event.Own : Event → Prop
  | .closes c by_ | .readies c by_ => c = by_
  | .calls _ _ | .returns _ _ => True

/-- The callbacks have come in order, and every request has acted on its own connection. -/
structure Own (log : List Event) : Prop where
  inOrder : ∀ c, InOrder log c
  acts : ∀ e ∈ log, e.Own

def WorkerPc.conn : WorkerPc → Option Conn
  | .idle => none
  | .calling _ c | .returning c | .closing c => some c

/-- The connections with a job that is queued, or whose function has not returned. -/
def Service.outstanding {n : Nat} (s : Service n) : List Conn :=
  s.jobs.map Job.conn ++ (List.finRange n).filterMap fun w => (s.pc w).conn

/-- The kernel does not give out a number that a job or a request still has, and
`std_socket_service_client_close` is not called for a connection whose number another
one has now. -/
def careful {n : Nat} (s : Service n) : Act n → Bool
  | .accept fd => s.outstanding.all (·.fd ≠ fd) && s.pendingClose.all (·.fd ≠ fd)
  | .clientClose c => s.clients.all fun d => d.fd ≠ c.fd || d = c
  | _ => true

variable {n : Nat} {s t : Service n} {c d : Conn} {log : List Event} {w : Fin n} {fd : Fd}

/-! ## The record -/

theorem course_append (c : Conn) (log more : List Event) :
    course c (log ++ more) = (course c log).bind fun st => (more.filter fun e => e.conn = c).foldlM Stage.next st := by
  unfold course
  rw [List.filter_append, List.foldlM_append]
  rfl

theorem course_other {more : List Event} (others : ∀ e ∈ more, e.conn ≠ c) : course c (log ++ more) = course c log := by
  have none : (more.filter fun e => e.conn = c) = [] := by
    apply List.filter_eq_nil_iff.mpr
    intro e mem
    simp [others e mem]
  rw [course_append, none]
  exact Option.bind_fun_some _

/-- What is neither a call nor a return does not count. -/
theorem course_quiet {more : List Event} (quiet : ∀ e ∈ more, ∀ st, Stage.next st e = some st) :
    course c (log ++ more) = course c log := by
  have same (events : List Event) (quiet : ∀ e ∈ events, ∀ st, Stage.next st e = some st) (st : Stage) :
      events.foldlM Stage.next st = some st := by
    induction events with
    | nil => rfl
    | cons e rest ih =>
      rw [List.foldlM_cons, quiet e List.mem_cons_self]
      exact ih fun e mem => quiet e (List.mem_cons_of_mem _ mem)
  rw [course_append]
  have kept (st : Stage) := same (more.filter fun e => e.conn = c) (fun e mem => quiet e (List.mem_of_mem_filter mem)) st
  simp only [kept]
  exact Option.bind_fun_some _

/-! ## Tasks -/

/-- Where a job for a connection can be. -/
inductive Place (n : Nat)
  | loop
  | queue
  | worker (w : Fin n)

def Callback.stage : Callback → Stage
  | .newClient => .inNew
  | .someData => .inData
  | .delClient => .inDel

def Job.stage (j : Job) : Stage :=
  match j.func with
  | .queueAndAddSocket => .fresh
  | .processSocketData => .up

/-- The connection that the loop is at, and its stage. -/
def LoopPc.task : LoopPc → Option (Conn × Option Stage)
  | .adding _ c => some (c, some .fresh)
  | .queueing _ c _ => some (c, some .up)
  | _ => none

def WorkerPc.task : WorkerPc → Option (Conn × Option Stage)
  | .idle => none
  | .calling f c => some (c, some f.stage)
  | .returning c => some (c, some .up)
  | .closing c => some (c, none)

/-- There is something to do for `c` at this place, where its callbacks are at `st`. -/
def Service.Task (s : Service n) (p : Place n) (c : Conn) (st : Option Stage) : Prop :=
  match p with
  | .loop => s.loop.task = some (c, st)
  | .queue => ∃ j ∈ s.jobs, j.conn = c ∧ st = some j.stage
  | .worker w => (s.pc w).task = some (c, st)

/-- The loop is going to look at this descriptor, which was ready. -/
def LoopPc.Awaits : LoopPc → Fd → Prop
  | .selecting rset, fd | .accepting rset, fd | .adding rset _, fd => fd ∈ rset
  | .serving rset todo, fd | .queueing rset _ todo, fd => fd ∈ rset ∧ ∃ c ∈ todo, c.fd = fd
  | _, _ => False

def LoopPc.todo : LoopPc → List Conn
  | .serving _ todo | .queueing _ _ todo => todo
  | _ => []

/-- What careful steps keep. -/
structure Inv (s : Service n) : Prop where
  one : ∀ {p q c st st'}, s.Task p c st → s.Task q c st' → p = q
  queue : (s.jobs.map Job.conn).Nodup
  stage : ∀ {p c st}, s.Task p c (some st) → course c s.log = some st
  valid : ∀ c, course c s.log ≠ none
  distinct : (s.clients.map Conn.fd).Nodup
  own : ∀ {p c st}, s.Task p c st → ∀ d ∈ s.clients, d.fd = c.fd → d = c
  requests : ∀ c ∈ s.pendingClose, ∀ d ∈ s.clients, d.fd = c.fd → d = c
  ready : ∀ fd ∈ s.pending, ∃ c ∈ s.clients, c.fd = fd ∧ course c s.log = some .up ∧ ∀ p st, ¬ s.Task p c st
  awaits : ∀ fd, s.loop.Awaits fd → fd ∈ s.pending
  todo : s.loop.todo.Sublist s.clients
  clients : ∀ c ∈ s.clients, c ∈ s.accepted
  tasks : ∀ {p c st}, s.Task p c st → c ∈ s.accepted
  serials : ∀ c ∈ s.accepted, c.serial < s.accepted.length
  fresh : ∀ c, c ∉ s.accepted → course c s.log = some .fresh
  acts : ∀ e ∈ s.log, e.Own

/-- What there is something to do for is not pending. -/
theorem Inv.not_pending {p : Place n} {st : Option Stage} (inv : Inv s) (task : s.Task p c st) : c.fd ∉ s.pending := by
  intro mem
  obtain ⟨d, client, same, _, none⟩ := inv.ready _ mem
  obtain rfl := inv.own task d client same
  exact none p st task

/-- What a step about the connection `c` keeps. -/
theorem Inv.hand (inv : Inv s) (known : c ∈ s.accepted) (own : ∀ d ∈ s.clients, d.fd = c.fd → d = c) (place : Place n)
    (clients : t.clients = s.clients) (accepted : t.accepted = s.accepted)
    (others : ∀ d, d ≠ c → (∀ p st, t.Task p d st → s.Task p d st) ∧ course d t.log = course d s.log)
    (mine : ∀ p st, t.Task p c st → p = place ∧ ∀ x, st = some x → course c t.log = some x)
    (valid : course c t.log ≠ none) (queue : (t.jobs.map Job.conn).Nodup)
    (requests : ∀ d ∈ t.pendingClose, d ∈ s.pendingClose ∨ d = c)
    (pending : ∀ fd ∈ t.pending, fd ∈ s.pending ∧ fd ≠ c.fd ∨
      fd = c.fd ∧ c ∈ s.clients ∧ course c t.log = some .up ∧ ∀ p st, ¬ t.Task p c st)
    (awaits : ∀ fd, t.loop.Awaits fd → fd ∈ t.pending) (todo : t.loop.todo.Sublist s.clients)
    (acts : ∀ e ∈ t.log, e ∈ s.log ∨ e.Own) : Inv t where
  one {p q d st st'} a b := by
    by_cases same : d = c
    · subst same
      exact (mine p st a).1.trans (mine q st' b).1.symm
    · exact inv.one ((others d same).1 p st a) ((others d same).1 q st' b)
  queue := queue
  stage {p d st} a := by
    by_cases same : d = c
    · subst same
      exact (mine p _ a).2 st rfl
    · rw [(others d same).2]
      exact inv.stage ((others d same).1 p _ a)
  valid d := by
    by_cases same : d = c
    · exact same ▸ valid
    · rw [(others d same).2]
      exact inv.valid d
  distinct := clients ▸ inv.distinct
  own {p d st} a := by
    rw [clients]
    by_cases same : d = c
    · exact same ▸ own
    · exact inv.own ((others d same).1 p st a)
  requests d mem := by
    rw [clients]
    obtain old | rfl := requests d mem
    · exact inv.requests d old
    · exact own
  ready fd mem := by
    rw [clients]
    obtain ⟨old, other⟩ | ⟨rfl, client, up, none⟩ := pending fd mem
    · obtain ⟨d, client, rfl, up, none⟩ := inv.ready fd old
      have differs : d ≠ c := fun same => other (congrArg Conn.fd same)
      obtain ⟨task, same⟩ := others d differs
      exact ⟨d, client, rfl, same.trans up, fun p st a => none p st (task p st a)⟩
    · exact ⟨c, client, rfl, up, none⟩
  awaits := awaits
  todo := clients ▸ todo
  clients := by
    rw [clients, accepted]
    exact inv.clients
  tasks {p d st} a := by
    rw [accepted]
    by_cases same : d = c
    · exact same ▸ known
    · exact inv.tasks ((others d same).1 p st a)
  serials := by
    rw [accepted]
    exact inv.serials
  fresh d unknown := by
    rw [accepted] at unknown
    have differs : d ≠ c := fun same => unknown (same ▸ known)
    rw [(others d differs).2]
    exact inv.fresh d unknown
  acts e mem := (acts e mem).elim (inv.acts e) id

/-- What a step of a worker keeps that has a job for `c`. -/
theorem Inv.worker {x : Option Stage} (inv : Inv s) (here : (s.pc w).task = some (c, x)) (p : WorkerPc)
    (pc : t.pc = Function.update s.pc w p) (loop : t.loop = s.loop) (jobs : t.jobs = s.jobs)
    (clients : t.clients = s.clients) (accepted : t.accepted = s.accepted)
    (others : ∀ d, d ≠ c → course d t.log = course d s.log)
    (mine : ∀ d st, p.task = some (d, st) → d = c ∧ ∀ y, st = some y → course c t.log = some y)
    (valid : course c t.log ≠ none) (requests : ∀ d ∈ t.pendingClose, d ∈ s.pendingClose ∨ d = c)
    (kept : s.pending ⊆ t.pending)
    (pending : ∀ fd ∈ t.pending, fd ∈ s.pending ∨ fd = c.fd ∧ c ∈ s.clients ∧ course c t.log = some .up ∧ p.task = none)
    (acts : ∀ e ∈ t.log, e ∈ s.log ∨ e.Own) : Inv t := by
  have task : s.Task (.worker w) c x := here
  -- A task that is not at this worker was there before.
  have elsewhere (q : Place n) (differs : q ≠ .worker w) (d : Conn) (st : Option Stage) (a : t.Task q d st) : s.Task q d st := by
    cases q with
    | loop => exact (congrArg LoopPc.task loop).symm.trans a
    | queue =>
      obtain ⟨j, mem, rest⟩ := a
      exact ⟨j, jobs ▸ mem, rest⟩
    | worker v =>
      have other : v ≠ w := fun same => differs (congrArg Place.worker same)
      have same : t.pc v = s.pc v := by rw [pc, Function.update_of_ne other]
      exact (congrArg WorkerPc.task same).symm.trans a
  have at_ (d : Conn) (st : Option Stage) (a : t.Task (.worker w) d st) : p.task = some (d, st) := by
    have same : t.pc w = p := by rw [pc, Function.update_self]
    exact (congrArg WorkerPc.task same).symm.trans a
  have alone (q : Place n) (st : Option Stage) (a : t.Task q c st) : q = .worker w := by
    by_contra differs
    exact differs (inv.one (elsewhere q differs c st a) task)
  apply inv.hand (inv.tasks task) (inv.own task) (.worker w) clients accepted _ _ valid _ requests _ _ _ acts
  · intro d differs
    refine ⟨fun q st a => ?_, others d differs⟩
    by_cases place : q = .worker w
    · subst place
      exact absurd (mine d st (at_ d st a)).1 differs
    · exact elsewhere q place d st a
  · intro q st a
    obtain rfl := alone q st a
    exact ⟨rfl, (mine c st (at_ c st a)).2⟩
  · rw [jobs]
    exact inv.queue
  · intro fd mem
    obtain old | ⟨rfl, client, up, none⟩ := pending fd mem
    · exact .inl ⟨old, fun same => inv.not_pending task (same ▸ old)⟩
    · refine .inr ⟨rfl, client, up, fun q st a => ?_⟩
      obtain rfl := alone q st a
      cases none.symm.trans (at_ c st a)
  · intro fd awaits
    rw [loop] at awaits
    exact kept (inv.awaits fd awaits)
  · rw [loop]
    exact inv.todo

/-! ## Steps of the workers -/

theorem course_next {st st' : Stage} {e : Event} (here : course e.conn log = some st) (next : st.next e = some st') :
    course e.conn (log ++ [e]) = some st' := by
  rw [course_append, here, Option.bind_some, List.filter_cons_of_pos (by simp), List.filter_nil, List.foldlM_cons, next]
  rfl

theorem mem_record {e e' : Event} (own : e.Own) (mem : e' ∈ log ++ [e]) : e' ∈ log ∨ e'.Own :=
  (List.mem_append.mp mem).imp id fun new => by rwa [List.mem_singleton.mp new]

/-- A worker goes on with its job, and callbacks start or end. -/
theorem Inv.goesOn {x y : Option Stage} {st : Stage} {events : List Event} (inv : Inv s)
    (here : (s.pc w).task = some (c, x)) (p : WorkerPc) (task : p.task = some (c, y))
    (own : ∀ e ∈ events, e.conn = c ∧ e.Own) (after : course c (s.log ++ events) = some st)
    (stage : ∀ z, y = some z → z = st) : Inv ((s.record events).goto w p) := by
  apply inv.worker (t := (s.record events).goto w p) here p rfl rfl rfl rfl rfl
  · intro d differs
    exact course_other fun e mem same => differs (same.symm.trans (own e mem).1)
  · intro d z same
    cases task.symm.trans same
    exact ⟨rfl, fun z same => after.trans (congrArg some (stage z same).symm)⟩
  · intro none
    cases none.symm.trans after
  · exact fun d mem => .inl mem
  · exact fun _ mem => mem
  · exact fun fd mem => .inl mem
  · intro e mem
    exact (List.mem_append.mp mem).imp id fun new => (own e new).2

/-- A callback returns. -/
theorem Inv.callbackReturns {f : Callback} {result : Bool} (inv : Inv s) (here : s.pc w = .calling f c) :
    Inv (afterCallback s w c f result) := by
  have task : (s.pc w).task = some (c, some f.stage) := congrArg WorkerPc.task here
  have stage : course c s.log = some f.stage := inv.stage (show s.Task (.worker w) c (some f.stage) from task)
  have ends {st : Stage} (next : f.stage.next (.returns c f) = some st) : course c (s.log ++ [.returns c f]) = some st :=
    course_next (e := .returns c f) stage next
  have own (e : Event) (mem : e ∈ [.returns c f]) : e.conn = c ∧ e.Own := by
    rw [List.mem_singleton.mp mem]
    exact ⟨rfl, trivial⟩
  cases f with
  | newClient =>
    cases result with
    | true => exact inv.goesOn task (.returning c) rfl own (ends rfl) fun z same => (Option.some.inj same).symm
    | false => exact inv.goesOn task (.closing c) rfl own (ends rfl) fun z same => absurd same (by simp)
  | someData =>
    cases result with
    | true => exact inv.goesOn task (.returning c) rfl own (ends rfl) fun z same => (Option.some.inj same).symm
    | false =>
      have calls : course c (s.log ++ [.returns c .someData] ++ [.calls c .delClient]) = some .inDel :=
        course_next (e := .calls c .delClient) (ends rfl) rfl
      rw [List.append_assoc] at calls
      apply inv.goesOn task (.calling .delClient c) rfl _ calls fun z same => (Option.some.inj same).symm
      intro e mem
      obtain rfl | rfl : e = .returns c .someData ∨ e = .calls c .delClient := by simpa using mem
      · exact ⟨rfl, trivial⟩
      · exact ⟨rfl, trivial⟩
  | delClient => exact inv.goesOn task (.closing c) rfl own (ends rfl) fun z same => absurd same (by simp)

/-- The request of a worker to close its connection. -/
theorem Inv.pendClose (inv : Inv s) (here : s.pc w = .closing c) : Inv ((s.pendClose c).goto w .idle) := by
  have task : (s.pc w).task = some (c, none) := congrArg WorkerPc.task here
  apply inv.worker (t := (s.pendClose c).goto w .idle) task .idle rfl rfl rfl rfl rfl
  · exact fun _ _ => rfl
  · exact fun d st none => absurd none (by simp [WorkerPc.task])
  · exact inv.valid c
  · intro d mem
    exact (List.mem_append.mp mem).imp id List.mem_singleton.mp
  · exact fun _ mem => mem
  · exact fun fd mem => .inl mem
  · exact fun e mem => .inl mem

/-- The descriptor is put back, if it is still one of a client. -/
theorem Inv.returned (inv : Inv s) (here : s.pc w = .returning c) : Inv ((s.returned c).goto w .idle) := by
  have task : (s.pc w).task = some (c, some .up) := congrArg WorkerPc.task here
  have up : course c s.log = some .up := inv.stage (show s.Task (.worker w) c (some .up) from task)
  unfold Service.returned
  split
  · apply inv.worker (t := s.goto w .idle) task .idle rfl rfl rfl rfl rfl
    · exact fun _ _ => rfl
    · exact fun d st none => absurd none (by simp [WorkerPc.task])
    · exact inv.valid c
    · exact fun d mem => .inl mem
    · exact fun _ mem => mem
    · exact fun fd mem => .inl mem
    · exact fun e mem => .inl mem
  · rename_i d found
    have client := List.mem_of_find?_eq_some found
    have same : d.fd = c.fd := by simpa using List.find?_some found
    obtain rfl := inv.own (show s.Task (.worker w) c (some .up) from task) d client same
    have quiet (e : Conn) : course e (s.log ++ [.readies d d]) = course e s.log :=
      course_quiet fun e mem st => by rw [List.mem_singleton.mp mem]; cases st <;> rfl
    apply inv.worker (t := Service.goto { s with pending := insert d.fd s.pending, log := s.log ++ [.readies d d] } w .idle)
      task .idle rfl rfl rfl rfl rfl
    · exact fun e _ => quiet e
    · exact fun e st none => absurd none (by simp [WorkerPc.task])
    · intro none
      exact inv.valid d ((quiet d).symm.trans none)
    · exact fun e mem => .inl mem
    · exact fun _ mem => Finset.mem_insert_of_mem mem
    · intro fd mem
      obtain rfl | old := Finset.mem_insert.mp mem
      · exact .inr ⟨rfl, client, (quiet d).trans up, rfl⟩
      · exact .inl old
    · intro e mem
      exact (List.mem_append.mp mem).imp id fun new => by rw [List.mem_singleton.mp new]; rfl

/-- A worker takes the first job of the queue. -/
theorem Inv.take {j : Job} {jobs : List Job} (inv : Inv s) (idle : s.pc w = .idle) (first : s.jobs = j :: jobs) :
    Inv ((Service.record { s with jobs } [.calls j.conn j.func.callback]).goto w (.calling j.func.callback j.conn)) := by
  have task : s.Task .queue j.conn (some j.stage) := ⟨j, first ▸ List.mem_cons_self, rfl, rfl⟩
  have queue := inv.queue
  rw [first, List.map_cons, List.nodup_cons] at queue
  have calls : course j.conn (s.log ++ [.calls j.conn j.func.callback]) = some j.func.callback.stage := by
    apply course_next (e := .calls j.conn j.func.callback) (inv.stage task)
    unfold Job.stage
    cases j.func <;> rfl
  have update (v : Fin n) (other : v ≠ w) :
      Function.update s.pc w (.calling j.func.callback j.conn) v = s.pc v := Function.update_of_ne other _ _
  have here : Function.update s.pc w (.calling j.func.callback j.conn) w = .calling j.func.callback j.conn :=
    Function.update_self _ _ _
  apply inv.hand (t := (Service.record { s with jobs } [.calls j.conn j.func.callback]).goto w
    (.calling j.func.callback j.conn)) (inv.tasks task) (inv.own task) (.worker w) rfl rfl
  · intro d differs
    refine ⟨fun q st a => ?_, course_other fun e mem => ?_⟩
    · cases q with
      | loop => exact a
      | queue =>
        obtain ⟨k, mem, rest⟩ := a
        exact ⟨k, first ▸ List.mem_cons_of_mem j mem, rest⟩
      | worker v =>
        by_cases same : v = w
        · subst same
          cases (congrArg WorkerPc.task here).symm.trans a
          exact absurd rfl differs
        · exact (congrArg WorkerPc.task (update v same)).symm.trans a
    · rw [List.mem_singleton.mp mem]
      exact Ne.symm differs
  · intro q st a
    cases q with
    | loop => cases inv.one (show s.Task .loop j.conn st from a) task
    | queue =>
      obtain ⟨k, mem, same, _⟩ := a
      exact absurd (List.mem_map.mpr ⟨k, mem, same⟩) queue.1
    | worker v =>
      by_cases same : v = w
      · subst same
        cases (congrArg WorkerPc.task here).symm.trans a
        exact ⟨rfl, fun x same => calls.trans same⟩
      · have old : s.Task (.worker v) j.conn st := (congrArg WorkerPc.task (update v same)).symm.trans a
        cases inv.one old task
  · intro none
    cases none.symm.trans calls
  · exact queue.2
  · exact fun d mem => .inl mem
  · exact fun fd mem => .inl ⟨mem, fun same => inv.not_pending task (same ▸ mem)⟩
  · exact inv.awaits
  · exact inv.todo
  · exact fun e mem => mem_record (e := .calls j.conn j.func.callback) trivial mem

/-! ## Steps of the loop -/

/-- The loop goes on without a connection. -/
theorem Inv.setLoop (inv : Inv s) (l : LoopPc) (task : l.task = none) (awaits : ∀ fd, l.Awaits fd → fd ∈ s.pending)
    (todo : l.todo.Sublist s.clients) : Inv { s with loop := l } := by
  have before {p : Place n} {d : Conn} {st : Option Stage} (a : Service.Task { s with loop := l } p d st) : s.Task p d st := by
    cases p with
    | loop => cases task.symm.trans a
    | queue => exact a
    | worker v => exact a
  exact { inv with
    one := fun a b => inv.one (before a) (before b)
    stage := fun a => inv.stage (before a)
    own := fun a => inv.own (before a)
    ready := fun fd mem => by
      obtain ⟨d, client, same, up, none⟩ := inv.ready fd mem
      exact ⟨d, client, same, up, fun p st a => none p st (before a)⟩
    awaits, todo
    tasks := fun a => inv.tasks (before a) }

/-- The job for the connection that the loop is at goes to the pool, or the connection is to be closed. -/
theorem Inv.queueJob {j : Job} {added : Bool} {l : LoopPc} (inv : Inv s) (here : s.loop.task = some (j.conn, some j.stage))
    (task : l.task = none) (awaits : ∀ fd, l.Awaits fd → fd ∈ s.pending) (todo : l.todo.Sublist s.clients) :
    Inv { s.queueJob j added with loop := l } := by
  have at_ : s.Task .loop j.conn (some j.stage) := here
  have notPending (fd : Fd) (mem : fd ∈ s.pending) : fd ≠ j.conn.fd := fun same => inv.not_pending at_ (same ▸ mem)
  unfold Service.queueJob
  cases added with
  | true =>
    have new : j.conn ∉ s.jobs.map Job.conn := by
      intro mem
      obtain ⟨k, mem, same⟩ := List.mem_map.mp mem
      cases inv.one (show s.Task .queue j.conn (some k.stage) from ⟨k, mem, same, rfl⟩) at_
    apply inv.hand (t := { s with jobs := s.jobs ++ [j], loop := l }) (inv.tasks at_) (inv.own at_) .queue rfl rfl
    · intro d differs
      refine ⟨fun q st a => ?_, rfl⟩
      cases q with
      | loop => cases task.symm.trans a
      | queue =>
        obtain ⟨k, mem, same, rest⟩ := a
        obtain old | last := List.mem_append.mp mem
        · exact ⟨k, old, same, rest⟩
        · rw [List.mem_singleton.mp last] at same
          exact absurd same.symm differs
      | worker v => exact a
    · intro q st a
      cases q with
      | loop => cases task.symm.trans a
      | queue =>
        obtain ⟨k, mem, same, rest⟩ := a
        obtain old | last := List.mem_append.mp mem
        · exact absurd (List.mem_map.mpr ⟨k, old, same⟩) new
        · rw [List.mem_singleton.mp last] at rest
          exact ⟨rfl, fun x here => (inv.stage at_).trans (rest.symm.trans here)⟩
      | worker v => cases inv.one (show s.Task (.worker v) j.conn st from a) at_
    · exact inv.valid j.conn
    · dsimp only
      rw [List.map_append, List.map_singleton]
      exact List.nodup_append.mpr ⟨inv.queue, List.nodup_singleton _, fun a ha b hb same =>
        new (List.mem_singleton.mp hb ▸ same ▸ ha)⟩
    · exact fun d mem => .inl mem
    · exact fun fd mem => .inl ⟨mem, notPending fd mem⟩
    · exact awaits
    · exact todo
    · exact fun e mem => .inl mem
  | false =>
    apply inv.hand (t := { s.pendClose j.conn with loop := l }) (inv.tasks at_) (inv.own at_) .loop rfl rfl
    · intro d differs
      refine ⟨fun q st a => ?_, rfl⟩
      cases q with
      | loop => cases task.symm.trans a
      | queue => exact a
      | worker v => exact a
    · intro q st a
      cases q with
      | loop => cases task.symm.trans a
      | queue => cases inv.one (show s.Task .queue j.conn st from a) at_
      | worker v => cases inv.one (show s.Task (.worker v) j.conn st from a) at_
    · exact inv.valid j.conn
    · exact inv.queue
    · exact fun d mem => (List.mem_append.mp mem).imp id List.mem_singleton.mp
    · exact fun fd mem => .inl ⟨mem, notPending fd mem⟩
    · exact awaits
    · exact todo
    · exact fun e mem => .inl mem

/-- What is left of the loop over `m_clients` is a part of it. -/
theorem Inv.todo_of {l : LoopPc} (inv : Inv s) (here : s.loop = l) {todo : List Conn} (same : l.todo = todo) :
    todo.Sublist s.clients := by
  rw [← same, ← here]
  exact inv.todo

/-- The next client of the loop is ready. -/
theorem Inv.serve {rset : Finset Fd} {todo : List Conn} (inv : Inv s) (here : s.loop = .serving rset (c :: todo))
    (found : c.fd ∈ rset) : Inv { s.busy c with loop := .queueing rset c todo } := by
  have rest : (c :: todo).Sublist s.clients := inv.todo_of here rfl
  have client : c ∈ s.clients := rest.subset List.mem_cons_self
  have own (d : Conn) (mem : d ∈ s.clients) (same : d.fd = c.fd) : d = c :=
    List.inj_on_of_nodup_map inv.distinct mem client same
  have awaited : c.fd ∈ s.pending := by
    apply inv.awaits
    rw [here]
    exact ⟨found, c, List.mem_cons_self, rfl⟩
  obtain ⟨d, mem, same, up, none⟩ := inv.ready _ awaited
  obtain rfl := own d mem same
  have distinct := (rest.map Conn.fd).nodup inv.distinct
  rw [List.map_cons, List.nodup_cons] at distinct
  apply inv.hand (t := { s.busy d with loop := .queueing rset d todo }) (inv.clients d client) own .loop rfl rfl
  · intro e differs
    refine ⟨fun q st a => ?_, rfl⟩
    cases q with
    | loop =>
      cases a
      exact absurd rfl differs
    | queue => exact a
    | worker v => exact a
  · intro q st a
    cases q with
    | loop =>
      cases a
      exact ⟨rfl, fun x same => up.trans same⟩
    | queue => exact absurd a (none .queue st)
    | worker v => exact absurd a (none (.worker v) st)
  · exact inv.valid d
  · exact inv.queue
  · exact fun e mem => .inl mem
  · intro fd mem
    obtain ⟨other, old⟩ := Finset.mem_erase.mp mem
    exact .inl ⟨old, other⟩
  · rintro fd ⟨ready, e, left, rfl⟩
    apply Finset.mem_erase.mpr
    refine ⟨fun same => distinct.1 (same ▸ List.mem_map_of_mem left), inv.awaits e.fd ?_⟩
    rw [here]
    exact ⟨ready, e, List.mem_cons_of_mem d left, rfl⟩
  · exact (List.sublist_cons_self d todo).trans rest
  · exact fun e mem => .inl mem

theorem task_conn {p : WorkerPc} {st : Option Stage} (task : p.task = some (c, st)) : p.conn = some c := by
  cases p <;> cases task <;> rfl

theorem mem_outstanding {p : Place n} {st : Option Stage} (elsewhere : p ≠ .loop) (task : s.Task p c st) :
    c ∈ s.outstanding := by
  cases p with
  | loop => exact absurd rfl elsewhere
  | queue =>
    obtain ⟨j, mem, same, _⟩ := task
    exact List.mem_append_left _ (List.mem_map.mpr ⟨j, mem, same⟩)
  | worker w =>
    have here : (s.pc w).conn = some c := task_conn task
    exact List.mem_append_right _ (List.mem_filterMap.mpr ⟨w, List.mem_finRange w, here⟩)

/-- The kernel makes a connection of a number that nothing waits for. -/
theorem Inv.accept {rset : Finset Fd} (inv : Inv s) (here : s.loop = .accepting rset) (free : ∀ c ∈ s.clients, c.fd ≠ fd)
    (jobs : ∀ c ∈ s.outstanding, c.fd ≠ fd) (requests : ∀ c ∈ s.pendingClose, c.fd ≠ fd) :
    Inv { s with
      clients := s.clients.orderedInsert (fun c d => c.fd ≤ d.fd) (s.next fd)
      accepted := s.accepted ++ [s.next fd]
      loop := .adding rset (s.next fd) } := by
  obtain ⟨c, new⟩ : ∃ c, s.next fd = c := ⟨_, rfl⟩
  have number : c.fd = fd := new ▸ rfl
  have serial : c.serial = s.accepted.length := new ▸ rfl
  have unknown : c ∉ s.accepted := fun mem => absurd (inv.serials c mem) (by omega)
  rw [new]
  have mem_clients {d : Conn} : d ∈ s.clients.orderedInsert (fun c d => c.fd ≤ d.fd) c ↔ d = c ∨ d ∈ s.clients :=
    List.mem_orderedInsert _
  have before {p : Place n} {d : Conn} {st : Option Stage}
      (a : Service.Task { s with
        clients := s.clients.orderedInsert (fun c d => c.fd ≤ d.fd) c
        accepted := s.accepted ++ [c]
        loop := .adding rset c } p d st) : p = .loop ∧ d = c ∧ st = some .fresh ∨ p ≠ .loop ∧ s.Task p d st := by
    cases p with
    | loop =>
      cases a
      exact .inl ⟨rfl, rfl, rfl⟩
    | queue => exact .inr ⟨fun same => (by cases same), a⟩
    | worker w => exact .inr ⟨fun same => (by cases same), a⟩
  constructor
  · intro p q d st st' a b
    obtain ⟨rfl, rfl, _⟩ | ⟨_, a'⟩ := before a
    · obtain ⟨rfl, _⟩ | ⟨_, b'⟩ := before b
      · rfl
      · exact absurd (inv.tasks b') unknown
    · obtain ⟨_, rfl, _⟩ | ⟨_, b'⟩ := before b
      · exact absurd (inv.tasks a') unknown
      · exact inv.one a' b'
  · exact inv.queue
  · intro p d st a
    obtain ⟨_, rfl, same⟩ | ⟨_, a⟩ := before a
    · cases same
      exact inv.fresh _ unknown
    · exact inv.stage a
  · exact inv.valid
  · have perm := (List.perm_orderedInsert (fun c d => c.fd ≤ d.fd) c s.clients).map Conn.fd
    rw [List.map_cons] at perm
    apply perm.nodup_iff.mpr
    refine List.nodup_cons.mpr ⟨fun mem => ?_, inv.distinct⟩
    obtain ⟨d, client, same⟩ := List.mem_map.mp mem
    exact free d client (same.trans number)
  · intro p d st a e mem same
    obtain ⟨_, rfl, _⟩ | ⟨elsewhere, a'⟩ := before a
    · obtain rfl | old := mem_clients.mp mem
      · rfl
      · exact absurd (same.trans number) (free e old)
    · obtain rfl | old := mem_clients.mp mem
      · exact absurd (same.symm.trans number) (jobs d (mem_outstanding elsewhere a'))
      · exact inv.own a' e old same
  · intro d mem e client same
    obtain rfl | old := mem_clients.mp client
    · exact absurd (same.symm.trans number) (requests d mem)
    · exact inv.requests d mem e old same
  · intro fd' mem
    obtain ⟨d, client, same, up, none⟩ := inv.ready fd' mem
    refine ⟨d, mem_clients.mpr (.inr client), same, up, fun p st a => ?_⟩
    obtain ⟨_, rfl, _⟩ | ⟨_, a⟩ := before a
    · exact unknown (inv.clients d client)
    · exact none p st a
  · intro fd' ready
    apply inv.awaits fd'
    rw [here]
    exact ready
  · exact List.nil_sublist _
  · intro d mem
    obtain rfl | old := mem_clients.mp mem
    · exact List.mem_append_right _ (List.mem_singleton_self _)
    · exact List.mem_append_left _ (inv.clients d old)
  · intro p d st a
    obtain ⟨_, rfl, _⟩ | ⟨_, a⟩ := before a
    · exact List.mem_append_right _ (List.mem_singleton_self _)
    · exact List.mem_append_left _ (inv.tasks a)
  · intro d mem
    dsimp only
    rw [List.length_append, List.length_singleton]
    obtain old | last := List.mem_append.mp mem
    · exact Nat.lt_succ_of_lt (inv.serials d old)
    · rw [List.mem_singleton.mp last, serial]
      exact Nat.lt_succ_self _
  · exact fun d unknown => inv.fresh d fun mem => unknown (List.mem_append_left _ mem)
  · exact inv.acts

/-- Every request in `m_pending_close` is for the connection that has its number. -/
theorem Inv.processClosed (inv : Inv s) : Inv { s.processClosed with loop := .copying } := by
  have before {p : Place n} {d : Conn} {st : Option Stage}
      (a : Service.Task { s.processClosed with loop := .copying } p d st) : s.Task p d st := by
    cases p with
    | loop => cases a
    | queue => exact a
    | worker v => exact a
  have left {d : Conn} (client : d ∈ s.processClosed.clients) : d ∈ s.clients := List.mem_of_mem_filter client
  have closing {e : Event} (mem : e ∈ s.clients.flatMap fun c => (s.requestsFor c).map (.closes c)) :
      ∃ c ∈ s.clients, ∃ r ∈ s.pendingClose, r.fd = c.fd ∧ e = .closes c r := by
    obtain ⟨c, client, mem⟩ := List.mem_flatMap.mp mem
    obtain ⟨r, request, same⟩ := List.mem_map.mp mem
    obtain ⟨asked, number⟩ := List.mem_filter.mp request
    exact ⟨c, client, r, asked, by simpa using number, same.symm⟩
  have quiet (c : Conn) : course c s.processClosed.log = course c s.log := by
    apply course_quiet
    intro e mem st
    obtain ⟨c, _, r, _, _, rfl⟩ := closing mem
    cases st <;> rfl
  exact {
    one := fun a b => inv.one (before a) (before b)
    queue := inv.queue
    stage := fun a => (quiet _).trans (inv.stage (before a))
    valid := fun c none => inv.valid c ((quiet c).symm.trans none)
    distinct := (List.filter_sublist.map Conn.fd).nodup inv.distinct
    own := fun a d client => inv.own (before a) d (left client)
    requests := fun d none => absurd none List.not_mem_nil
    ready := fun fd mem => by
      obtain ⟨old, kept⟩ := Finset.mem_filter.mp mem
      obtain ⟨d, client, same, up, none⟩ := inv.ready fd old
      refine ⟨d, List.mem_filter.mpr ⟨client, ?_⟩, same, (quiet d).trans up, fun p st a => none p st (before a)⟩
      apply decide_eq_true
      apply List.filter_eq_nil_iff.mpr
      intro r request
      simpa [same] using kept r request
    awaits := fun fd none => none.elim
    todo := List.nil_sublist _
    clients := fun c client => inv.clients c (left client)
    tasks := fun a => inv.tasks (before a)
    serials := inv.serials
    fresh := fun c unknown => (quiet c).trans (inv.fresh c unknown)
    acts := fun e mem => by
      obtain old | new := List.mem_append.mp mem
      · exact inv.acts e old
      · obtain ⟨c, client, r, request, same, rfl⟩ := closing new
        exact inv.requests r request c client same.symm }

/-- A request for the connection that has the number, or for a number that is free. -/
theorem Inv.clientClose (inv : Inv s) (own : ∀ d ∈ s.clients, d.fd = c.fd → d = c) : Inv (s.pendClose c) :=
  { inv with
    requests := fun d mem => by
      obtain old | last := List.mem_append.mp mem
      · exact inv.requests d old
      · rw [List.mem_singleton.mp last]
        exact own }

/-! ## Runs -/

theorem Inv.create (n : Nat) : Inv (create n) := by
  have none {p : Place n} {c : Conn} {st : Option Stage} (a : (SocketService.create n).Task p c st) : False := by
    cases p with
    | loop => cases a
    | queue =>
      obtain ⟨j, mem, _⟩ := a
      exact absurd mem List.not_mem_nil
    | worker w => cases a
  exact {
    one := fun a _ => (none a).elim
    queue := List.nodup_nil
    stage := fun a => (none a).elim
    valid := fun _ => Option.some_ne_none _
    distinct := List.nodup_nil
    own := fun a => (none a).elim
    requests := fun _ mem => absurd mem List.not_mem_nil
    ready := fun _ mem => absurd mem (Finset.notMem_empty _)
    awaits := fun _ ready => ready.elim
    todo := List.nil_sublist _
    clients := fun _ mem => absurd mem List.not_mem_nil
    tasks := fun a => (none a).elim
    serials := fun _ mem => absurd mem List.not_mem_nil
    fresh := fun _ _ => rfl
    acts := fun _ mem => absurd mem List.not_mem_nil }

theorem Inv.step {a : Act n} (inv : Inv s) (care : careful s a = true) (made : Step s a t) : Inv t := by
  have awaits {l l' : LoopPc} (here : s.loop = l) (weaker : ∀ fd, l'.Awaits fd → l.Awaits fd) (fd : Fd)
      (ready : l'.Awaits fd) : fd ∈ s.pending := inv.awaits fd (here ▸ weaker fd ready)
  cases step_effect made with
  | processClosed => exact inv.processClosed
  | copy => exact inv.setLoop _ rfl (fun _ ready => ready) (List.nil_sublist _)
  | select here =>
    exact inv.setLoop _ rfl (awaits here fun _ mem => Finset.mem_of_mem_inter_left mem) (List.nil_sublist _)
  | selectNone => exact inv.setLoop _ rfl (fun _ none => none.elim) (List.nil_sublist _)
  | accept here free =>
    obtain ⟨jobs, requests⟩ := Bool.and_eq_true_iff.mp care
    exact inv.accept here free (by simpa using jobs) (by simpa using requests)
  | acceptNone here => exact inv.setLoop _ rfl (awaits here fun _ mem => mem.1) (List.Sublist.refl _)
  | queueNew here =>
    exact inv.queueJob (congrArg LoopPc.task here) rfl (awaits here fun _ mem => mem.1) (List.Sublist.refl _)
  | queueData here => exact inv.queueJob (congrArg LoopPc.task here) rfl (awaits here fun _ mem => mem) (inv.todo_of here rfl)
  | serve here found => exact inv.serve here found
  | @skip rset c todo here =>
    apply inv.setLoop (.serving rset todo) rfl (awaits here _) ((List.sublist_cons_self c todo).trans (inv.todo_of here rfl))
    rintro fd ⟨ready, d, left, same⟩
    exact ⟨ready, d, List.mem_cons_of_mem c left, same⟩
  | served => exact inv.setLoop _ rfl (fun _ none => none.elim) (List.nil_sublist _)
  | take idle first => exact inv.take idle first
  | callbackReturns here => exact inv.callbackReturns here
  | returned here => exact inv.returned here
  | pendClose here => exact inv.pendClose here
  | clientClose known =>
    refine inv.clientClose fun d client same => ?_
    have either := List.all_eq_true.mp care d client
    simpa [same] using either

/-- The worker that does the work of a run. -/
def worker : Fin 2 := 0

/-- A connection comes, sends something and goes. -/
def visit (fd : Fd) : List (Act 2) :=
  [.processClosed, .copy, .select ∅, .accept fd, .queueJob true, .serve, .serve, .take worker, .callbackReturns worker true,
    .returned worker, .processClosed, .copy, .select {fd}, .acceptNone, .serve, .queueJob true, .serve, .take worker]

end SonicUtils.SocketService
