import SonicUtils.Event.SomeData
import SonicUtils.SocketService.Requests

/-!
# The event service on its socket service

`std_socket_event_server_t` and its callbacks. A callback that changes the tree
or `m_event_clients` does so in one critical section of `m_tree_lock`, and is
one step with its return; `event_some_data` looks for the client's buffer before
that, without the lock. A publish holds the lock for reading while it goes from
one client to the next, so no callback changes anything in between, but the
socket service goes on.
-/

namespace SonicUtils.EventService

open SonicUtils.SocketService SonicUtils.Runs
open SonicUtils.Event (ClientTree Node)

/-- Where a worker is in `event_some_data`. -/
inductive Doing
  /-- Before `m_event_clients.find`, or not there at all. -/
  | outside
  /-- It has the buffer of the client. -/
  | found
  /-- In `std_client_tree::publish`, with these clients to go. -/
  | publishing (words : List UInt32) (todo : List Fd)
  deriving DecidableEq, Repr

/-- What is recorded of registrations and sends, which the code does not keep. -/
inductive Record
  | registers (c : Conn) (words : List UInt32)
  /-- The event is for the key with these words; `c` has the descriptor. -/
  | sends (c : Conn) (words : List UInt32)
  deriving DecidableEq, Repr

/-- `std_socket_event_server_t`. -/
structure Server (n : Nat) where
  service : Service n
  /-- The descriptors in `m_event_clients`. -/
  mEventClients : Finset Fd
  mRegTree : ClientTree
  doing : Fin n → Doing
  record : List Record

variable {n : Nat}

def create (n : Nat) : Server n := ⟨SocketService.create n, ∅, .empty, fun _ => .outside, []⟩

def Doing.reads : Doing → Bool
  | .publishing _ _ => true
  | _ => false

namespace Server

/-- Nobody holds `m_tree_lock` for reading. -/
def writable (s : Server n) : Bool := (List.finRange n).all fun w => !(s.doing w).reads

def closeClientConnection (s : Server n) (fd : Fd) : Server n :=
  { s with mEventClients := s.mEventClients.erase fd, mRegTree := s.mRegTree.removeFromTree fd }

/-- The callback of a worker returns. -/
def returns (s : Server n) (w : Fin n) (c : Conn) (f : Callback) (result : Bool) : Server n :=
  { s with service := afterCallback s.service w c f result, doing := Function.update s.doing w .outside }

def goto (s : Server n) (w : Fin n) (d : Doing) : Server n := { s with doing := Function.update s.doing w d }

/-- The connection that has this descriptor now, or else the next one to get it. -/
def connOf (s : Server n) (fd : Fd) : Conn := (s.service.clients.find? (·.fd = fd)).getD (s.service.next fd)

/-- `std_socket_service_client_close`. -/
def clientClose (s : Server n) (fd : Fd) : Server n := { s with service := s.service.pendClose (s.connOf fd) }

/-- A send to a descriptor goes to the connection that has it. -/
def recordSend (s : Server n) (fd : Fd) (words : List UInt32) : Server n :=
  match s.service.clients.find? (·.fd = fd) with
  | none => s
  | some c => { s with record := s.record ++ [.sends c words] }

/-- The client that a worker is in `event_some_data` for, once it has its buffer. -/
def serving (s : Server n) (w : Fin n) : Option Conn :=
  match s.service.pc w, s.doing w with
  | .calling .someData c, .found => some c
  | _, _ => none

end Server

inductive Act (n : Nat)
  /-- A step of the loop, or of a worker outside of the callbacks. -/
  | service (a : SocketService.Act n)
  | newClient (w : Fin n)
  | delClient (w : Fin n)
  /-- `m_event_clients.find(fd)`. -/
  | find (w : Fin n)
  /-- The receive fails, or the frame is too short. -/
  | reject (w : Fin n)
  /-- A frame that is not about registrations or events. -/
  | ignore (w : Fin n)
  | regMessage (w : Fin n) (words : List UInt32)
  | deregMessage (w : Fin n) (words : List UInt32)
  | publish (w : Fin n) (words : List UInt32)
  /-- The next send of a publish. -/
  | send (w : Fin n) (sent : Bool)
  | published (w : Fin n)

/-- The callbacks of the event service are what returns, and what closes clients. -/
def plain : SocketService.Act n → Bool
  | .callbackReturns _ _ | .clientClose _ => false
  | _ => true

def step (s : Server n) : Act n → Option (Server n)
  | .service a => if plain a then (SocketService.step s.service a).map fun t => { s with service := t } else none
  | .newClient w =>
    match s.service.pc w with
    | .calling .newClient c =>
      if s.writable then
        if c.fd ∈ s.mEventClients then some ((s.closeClientConnection c.fd).returns w c .newClient false)
        else some (Server.returns { s with mEventClients := insert c.fd s.mEventClients } w c .newClient true)
      else none
    | _ => none
  | .delClient w =>
    match s.service.pc w with
    | .calling .delClient c =>
      if s.writable then some ((s.closeClientConnection c.fd).returns w c .delClient true) else none
    | _ => none
  | .find w =>
    match s.service.pc w, s.doing w with
    | .calling .someData c, .outside =>
      if c.fd ∈ s.mEventClients then some (s.goto w .found) else some (s.returns w c .someData false)
    | _, _ => none
  | .reject w => (s.serving w).map fun c => s.returns w c .someData false
  | .ignore w => (s.serving w).map fun c => s.returns w c .someData true
  | .regMessage w words => do
    let c ← s.serving w
    if s.writable then
      let (mRegTree, result) := s.mRegTree.regWords c.fd words
      return Server.returns { s with mRegTree, record := s.record ++ [.registers c words] } w c .someData result
    else none
  | .deregMessage w words => do
    let c ← s.serving w
    if s.writable then
      return Server.returns { s with mRegTree := s.mRegTree.deregWords c.fd words } w c .someData true
    else none
  | .publish w words => (s.serving w).map fun _ => s.goto w (.publishing words (s.mRegTree.head.receivers words []))
  | .send w sent =>
    match s.doing w with
    | .publishing words (fd :: todo) =>
      let s := (s.recordSend fd words).goto w (.publishing words todo)
      some (if sent then s else s.clientClose fd)
    | _ => none
  | .published w =>
    match s.service.pc w, s.doing w with
    | .calling .someData c, .publishing _ [] => some (s.returns w c .someData true)
    | _, _ => none

/-- A step that is made. -/
def Step (s : Server n) (a : Act n) (t : Server n) : Prop := step s a = some t

end SonicUtils.EventService
