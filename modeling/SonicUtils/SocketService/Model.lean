import Mathlib.Data.Finset.Basic
import Mathlib.Data.List.Sort
import Mathlib.Logic.Function.Basic

/-!
# The socket service

`std_socket_service.cpp` with a pool of several workers. A step is what the
service loop or a worker does between two points where another thread can come
in: a critical section of `m_mutex`, a call of the pool, the start or the end of
a callback. All that the code knows of a connection is its descriptor, and the
kernel may give the number of a closed descriptor to the next connection.

The serial numbers, `accepted` and `log` are not in the code: they record which
connection a number stood for. `Step` reads them nowhere else.
-/

namespace SonicUtils.SocketService

abbrev Fd := Int

/-- A connection: its descriptor, which is what the code has, and which of the
accepted connections it is. -/
structure Conn where
  fd : Fd
  serial : Nat
  deriving DecidableEq, Repr

inductive Callback
  | newClient
  | someData
  | delClient
  deriving DecidableEq, Repr

/-- What is recorded. -/
inductive Event
  | calls (c : Conn) (f : Callback)
  | returns (c : Conn) (f : Callback)
  /-- `close` of the descriptor of `c`, for a request made for `by_`. -/
  | closes (c by_ : Conn)
  /-- The descriptor of `c` is put into `pending`, by a job of `by_`. -/
  | readies (c by_ : Conn)
  deriving DecidableEq, Repr

/-- The functions that are queued. -/
inductive Func
  | queueAndAddSocket
  | processSocketData
  deriving DecidableEq, Repr

/-- `job_entry_t`. -/
structure Job where
  func : Func
  conn : Conn
  deriving DecidableEq, Repr

/-- Where the thread of `socket_service` is. -/
inductive LoopPc
  /-- At `process_closed`. -/
  | closing
  /-- At `rset = p->pending`. -/
  | copying
  | selecting (rset : Finset Fd)
  /-- In `process_sockets`, with what the select has found. -/
  | accepting (rset : Finset Fd)
  /-- At the `queue_job` for the connection just accepted. -/
  | adding (rset : Finset Fd) (c : Conn)
  /-- At the head of the loop over `m_clients`, with these to go. -/
  | serving (rset : Finset Fd) (todo : List Conn)
  /-- At the `queue_job` for a client with data. -/
  | queueing (rset : Finset Fd) (c : Conn) (todo : List Conn)
  deriving DecidableEq

/-- Where a worker is in the job it has taken. -/
inductive WorkerPc
  | idle
  /-- In the callback. -/
  | calling (f : Callback) (c : Conn)
  /-- At `returned`. -/
  | returning (c : Conn)
  /-- At `pend_close`. -/
  | closing (c : Conn)
  deriving DecidableEq, Repr

/-- `std_socket_service_data_t`, the jobs of the pool, and where each thread is. -/
structure Service (n : Nat) where
  /-- `m_clients`. -/
  clients : List Conn
  pending : Finset Fd
  /-- `m_pending_close`. -/
  pendingClose : List Conn
  loop : LoopPc
  jobs : List Job
  pc : Fin n → WorkerPc
  accepted : List Conn
  log : List Event

variable {n : Nat}

def create (n : Nat) : Service n := ⟨[], ∅, [], .closing, [], fun _ => .idle, [], []⟩

namespace Service

def busy (s : Service n) (c : Conn) : Service n := { s with pending := s.pending.erase c.fd }

def pendClose (s : Service n) (c : Conn) : Service n := { s with pendingClose := s.pendingClose ++ [c] }

/-- The requests to close the number of `c`. -/
def requestsFor (s : Service n) (c : Conn) : List Conn := s.pendingClose.filter fun r => r.fd = c.fd

def processClosed (s : Service n) : Service n :=
  { s with
    clients := s.clients.filter fun c => s.requestsFor c = []
    pending := s.pending.filter fun fd => ∀ r ∈ s.pendingClose, r.fd ≠ fd
    pendingClose := []
    log := s.log ++ s.clients.flatMap fun c => (s.requestsFor c).map (.closes c) }

def returned (s : Service n) (c : Conn) : Service n :=
  match s.clients.find? fun d => d.fd = c.fd with
  | none => s
  | some d => { s with pending := insert c.fd s.pending, log := s.log ++ [.readies d c] }

/-- `queue_job`, and `pend_close` where the pool does not take the job. -/
def queueJob (s : Service n) (j : Job) (added : Bool) : Service n :=
  if added then { s with jobs := s.jobs ++ [j] } else s.pendClose j.conn

def goto (s : Service n) (w : Fin n) (p : WorkerPc) : Service n := { s with pc := Function.update s.pc w p }

def record (s : Service n) (events : List Event) : Service n := { s with log := s.log ++ events }

/-- The connection that the kernel makes of a number that is free. -/
def next (s : Service n) (fd : Fd) : Conn := ⟨fd, s.accepted.length⟩

end Service

/-- The callback that a job starts with. -/
def Func.callback : Func → Callback
  | queueAndAddSocket => .newClient
  | processSocketData => .someData

inductive Act (n : Nat)
  | processClosed
  | copy
  /-- These descriptors are ready. -/
  | select (ready : Finset Fd)
  /-- The select times out or is interrupted. -/
  | selectNone
  | accept (fd : Fd)
  /-- There is nothing to accept, or `accept` fails. -/
  | acceptNone
  | queueJob (added : Bool)
  /-- One turn of the loop over `m_clients`, or its end. -/
  | serve
  | take (w : Fin n)
  | callbackReturns (w : Fin n) (result : Bool)
  | returned (w : Fin n)
  | pendClose (w : Fin n)
  /-- `std_socket_service_client_close` for this connection, by any thread. -/
  | clientClose (c : Conn)

/-- What a worker does when a callback has returned. -/
def afterCallback (s : Service n) (w : Fin n) (c : Conn) : Callback → Bool → Service n
  | .newClient, true => (s.record [.returns c .newClient]).goto w (.returning c)
  | .newClient, false => (s.record [.returns c .newClient]).goto w (.closing c)
  | .someData, true => (s.record [.returns c .someData]).goto w (.returning c)
  | .someData, false => (s.record [.returns c .someData, .calls c .delClient]).goto w (.calling .delClient c)
  | .delClient, _ => (s.record [.returns c .delClient]).goto w (.closing c)

def step (s : Service n) : Act n → Option (Service n)
  | .processClosed =>
    match s.loop with
    | .closing => some { s.processClosed with loop := .copying }
    | _ => none
  | .copy =>
    match s.loop with
    | .copying => some { s with loop := .selecting s.pending }
    | _ => none
  | .select ready =>
    match s.loop with
    | .selecting rset => some { s with loop := .accepting (rset ∩ ready) }
    | _ => none
  | .selectNone =>
    match s.loop with
    | .selecting _ => some { s with loop := .closing }
    | _ => none
  | .accept fd =>
    match s.loop with
    | .accepting rset =>
      -- A number that is not in use.
      if ∀ c ∈ s.clients, c.fd ≠ fd then
        some { s with
          clients := s.clients.orderedInsert (fun c d => c.fd ≤ d.fd) (s.next fd)
          accepted := s.accepted ++ [s.next fd]
          loop := .adding rset (s.next fd) }
      else none
    | _ => none
  | .acceptNone =>
    match s.loop with
    | .accepting rset => some { s with loop := .serving rset s.clients }
    | _ => none
  | .queueJob added =>
    match s.loop with
    | .adding rset c => some { s.queueJob ⟨.queueAndAddSocket, c⟩ added with loop := .serving rset s.clients }
    | .queueing rset c todo => some { s.queueJob ⟨.processSocketData, c⟩ added with loop := .serving rset todo }
    | _ => none
  | .serve =>
    match s.loop with
    | .serving rset (c :: todo) =>
      if c.fd ∈ rset then some { s.busy c with loop := .queueing rset c todo }
      else some { s with loop := .serving rset todo }
    | .serving _ [] => some { s with loop := .closing }
    | _ => none
  | .take w =>
    match s.pc w, s.jobs with
    | .idle, j :: jobs =>
      some (({ s with jobs }.record [.calls j.conn j.func.callback]).goto w (.calling j.func.callback j.conn))
    | _, _ => none
  | .callbackReturns w result =>
    match s.pc w with
    | .calling f c => some (afterCallback s w c f result)
    | _ => none
  | .returned w =>
    match s.pc w with
    | .returning c => some ((s.returned c).goto w .idle)
    | _ => none
  | .pendClose w =>
    match s.pc w with
    | .closing c => some ((s.pendClose c).goto w .idle)
    | _ => none
  | .clientClose c => if c ∈ s.accepted then some (s.pendClose c) else none

/-- A step that is made. -/
def Step (s : Service n) (a : Act n) (t : Service n) : Prop := step s a = some t

/-- What each step does, and where it can be made. -/
inductive Effect (s : Service n) : Act n → Service n → Prop
  | processClosed : s.loop = .closing → Effect s .processClosed { s.processClosed with loop := .copying }
  | copy : s.loop = .copying → Effect s .copy { s with loop := .selecting s.pending }
  | select {rset ready : Finset Fd} : s.loop = .selecting rset →
      Effect s (.select ready) { s with loop := .accepting (rset ∩ ready) }
  | selectNone {rset : Finset Fd} : s.loop = .selecting rset → Effect s .selectNone { s with loop := .closing }
  | accept {rset : Finset Fd} {fd : Fd} : s.loop = .accepting rset → (∀ c ∈ s.clients, c.fd ≠ fd) →
      Effect s (.accept fd) { s with
        clients := s.clients.orderedInsert (fun c d => c.fd ≤ d.fd) (s.next fd)
        accepted := s.accepted ++ [s.next fd]
        loop := .adding rset (s.next fd) }
  | acceptNone {rset : Finset Fd} : s.loop = .accepting rset →
      Effect s .acceptNone { s with loop := .serving rset s.clients }
  | queueNew {rset : Finset Fd} {c : Conn} {added : Bool} : s.loop = .adding rset c →
      Effect s (.queueJob added) { s.queueJob ⟨.queueAndAddSocket, c⟩ added with loop := .serving rset s.clients }
  | queueData {rset : Finset Fd} {c : Conn} {todo : List Conn} {added : Bool} : s.loop = .queueing rset c todo →
      Effect s (.queueJob added) { s.queueJob ⟨.processSocketData, c⟩ added with loop := .serving rset todo }
  | serve {rset : Finset Fd} {c : Conn} {todo : List Conn} : s.loop = .serving rset (c :: todo) → c.fd ∈ rset →
      Effect s .serve { s.busy c with loop := .queueing rset c todo }
  | skip {rset : Finset Fd} {c : Conn} {todo : List Conn} : s.loop = .serving rset (c :: todo) → c.fd ∉ rset →
      Effect s .serve { s with loop := .serving rset todo }
  | served {rset : Finset Fd} : s.loop = .serving rset [] → Effect s .serve { s with loop := .closing }
  | take {w : Fin n} {j : Job} {jobs : List Job} : s.pc w = .idle → s.jobs = j :: jobs →
      Effect s (.take w)
        ((Service.record { s with jobs } [.calls j.conn j.func.callback]).goto w (.calling j.func.callback j.conn))
  | callbackReturns {w : Fin n} {f : Callback} {c : Conn} {result : Bool} : s.pc w = .calling f c →
      Effect s (.callbackReturns w result) (afterCallback s w c f result)
  | returned {w : Fin n} {c : Conn} : s.pc w = .returning c → Effect s (.returned w) ((s.returned c).goto w .idle)
  | pendClose {w : Fin n} {c : Conn} : s.pc w = .closing c → Effect s (.pendClose w) ((s.pendClose c).goto w .idle)
  | clientClose {c : Conn} : c ∈ s.accepted → Effect s (.clientClose c) (s.pendClose c)

theorem step_effect {s t : Service n} {a : Act n} (made : Step s a t) : Effect s a t := by
  unfold Step at made
  cases a with
  | processClosed =>
    simp only [step] at made
    split at made <;> cases made
    exact .processClosed ‹_›
  | copy =>
    simp only [step] at made
    split at made <;> cases made
    exact .copy ‹_›
  | select ready =>
    simp only [step] at made
    split at made <;> cases made
    exact .select ‹_›
  | selectNone =>
    simp only [step] at made
    split at made <;> cases made
    exact .selectNone ‹_›
  | accept fd =>
    simp only [step] at made
    split at made
    · split at made <;> cases made
      exact .accept ‹_› ‹_›
    · cases made
  | acceptNone =>
    simp only [step] at made
    split at made <;> cases made
    exact .acceptNone ‹_›
  | queueJob added =>
    simp only [step] at made
    split at made <;> cases made
    · exact .queueNew ‹_›
    · exact .queueData ‹_›
  | serve =>
    simp only [step] at made
    split at made
    · split at made <;> cases made
      · exact .serve ‹_› ‹_›
      · exact .skip ‹_› ‹_›
    · cases made
      exact .served ‹_›
    · cases made
  | take w =>
    simp only [step] at made
    split at made <;> cases made
    exact .take ‹_› ‹_›
  | callbackReturns w result =>
    simp only [step] at made
    split at made <;> cases made
    exact .callbackReturns ‹_›
  | returned w =>
    simp only [step] at made
    split at made <;> cases made
    exact .returned ‹_›
  | pendClose w =>
    simp only [step] at made
    split at made <;> cases made
    exact .pendClose ‹_›
  | clientClose c =>
    simp only [step] at made
    split at made <;> cases made
    exact .clientClose ‹_›

end SonicUtils.SocketService
