import Mathlib.Data.List.Sort
import SonicUtils.Event.Framing

/-!
# The registration tree of the event service

`std_node_t` and `std_client_tree` of `std_event_service.cpp`. A pointer that
`find` returns is used once, to change the clients of the node it points to,
so `findThen` takes that change as an argument. A `std::map` is a list of
pairs, one for each key, a `std::set<int>` a list of numbers.
-/

namespace SonicUtils.Event

abbrev Fd := Int

/-- `std_event_key_t` with a length that its array has room for, which is
`STD_EVENT_KEY_MAX` or 16 words. -/
structure EventKey where
  len : UInt32
  eventKey : Vector UInt32 16
  fits : len.toNat ≤ 16

/-- The first `len` words of the key, the ones that the tree reads. -/
def EventKey.words (k : EventKey) : List UInt32 := k.eventKey.toList.take k.len.toNat

/-- `std_event_msg_t` and the `data_len` bytes after it. -/
structure EventMsg where
  key : EventKey
  data : List UInt8

/-- `insert` of a `std::set<int>`. -/
def setInsert (cs : List Fd) (fd : Fd) : List Fd :=
  if fd ∈ cs then cs else cs.orderedInsert (· ≤ ·) fd

/-- `erase` of a `std::set<int>`. -/
def setErase (cs : List Fd) (fd : Fd) : List Fd := cs.filter (· ≠ fd)

/-- `std_node_t`. -/
inductive Node
  | mk (clients : List Fd) (mNodes : List (UInt32 × Node))

namespace Node

def clients : Node → List Fd
  | mk cs _ => cs

def mNodes : Node → List (UInt32 × Node)
  | mk _ ns => ns

/-- A node fresh from `new std_node_t`. -/
def fresh : Node := mk [] []

/-- `m_nodes.find(id)`. -/
def find (n : Node) (id : UInt32) : Option Node := n.mNodes.lookup id

/-- The node with `m_nodes[id]` pointing to `child`. -/
def setNode (n : Node) (id : UInt32) (child : Node) : Node :=
  mk n.clients ((id, child) :: n.mNodes.filter (fun p => p.1 ≠ id))

def insert (n : Node) (fd : Fd) : Node := mk (setInsert n.clients fd) n.mNodes

def remove (n : Node) (fd : Fd) : Node := mk (setErase n.clients fd) n.mNodes

mutual

def removeFromTree (fd : Fd) : Node → Node
  | mk cs ns => (mk cs (removeFromNodes fd ns)).remove fd

/-- The loop of `remove_from_tree` over `m_nodes`. -/
def removeFromNodes (fd : Fd) : List (UInt32 × Node) → List (UInt32 × Node)
  | [] => []
  | (id, n) :: ns => (id, removeFromTree fd n) :: removeFromNodes fd ns

end

/-- `std_client_tree::find(list, len, create)` from this node, and then `f` on
the node found. `none` is the NULL that `find` returns, when nothing changes. -/
def findThen (create : Bool) (f : Node → Node) : List UInt32 → Node → Option Node
  | [], cur => some (f cur)
  | id :: list, cur =>
    match cur.find id with
    | some child => (findThen create f list child).map (cur.setNode id)
    | none => if create then (findThen create f list fresh).map (cur.setNode id) else none

end Node

/-- One call of `std_event_util_event_send` by `std_node_t::publish`. -/
structure Attempt where
  fd : Fd
  op : MsgType
  msg : EventMsg

/-- What a call of `std_client_tree::publish` has done so far: the sends it
tried, the connections it asked to close, and its set `already_sent`. -/
structure Delivery where
  attempts : List Attempt
  closed : List Fd
  alreadySent : List Fd

def Delivery.none : Delivery := ⟨[], [], []⟩

/-- The loop body of `std_node_t::publish`. `send k` says whether the `k`-th
send succeeds; `fd` counts as sent either way. -/
def Delivery.one (send : Nat → Bool) (msg : EventMsg) (d : Delivery) (fd : Fd) : Delivery :=
  if fd ∈ d.alreadySent then d
  else
    { attempts := d.attempts ++ [⟨fd, .publish, msg⟩]
      closed := if send d.attempts.length then d.closed else d.closed ++ [fd]
      alreadySent := fd :: d.alreadySent }

/-- `std_node_t::publish`. -/
def Node.publish (send : Nat → Bool) (msg : EventMsg) (n : Node) (d : Delivery) : Delivery :=
  n.clients.foldl (Delivery.one send msg) d

/-- The loop of `std_client_tree::publish`, `list` the rest of the key. -/
def Node.publishAlong (send : Nat → Bool) (msg : EventMsg) :
    List UInt32 → Node → Delivery → Delivery
  | [], _, d => d
  | id :: list, cur, d =>
    match cur.find id with
    | none => d
    | some child => publishAlong send msg list child (child.publish send msg d)

/-- `std_client_tree`. -/
structure ClientTree where
  head : Node

namespace ClientTree

def empty : ClientTree := ⟨.fresh⟩

def regClient (t : ClientTree) (fd : Fd) (key : EventKey) : ClientTree × Bool :=
  match t.head.findThen true (·.insert fd) key.words with
  | none => (t, false)
  | some head => (⟨head⟩, true)

def deregClient (t : ClientTree) (fd : Fd) (key : EventKey) : ClientTree × Bool :=
  match t.head.findThen false (·.remove fd) key.words with
  | none => (t, true)
  | some head => (⟨head⟩, true)

def removeFromTree (t : ClientTree) (fd : Fd) : ClientTree := ⟨t.head.removeFromTree fd⟩

def publish (t : ClientTree) (send : Nat → Bool) (msg : EventMsg) : Delivery :=
  t.head.publishAlong send msg msg.key.words .none

end ClientTree

end SonicUtils.Event
