import SonicUtils.Transfer.Copy

/-!
# A console behind a socket

The thread `console_reader` of `std_cmd_redir.c`: what a program writes to its
console goes to the client that is connected, and what the client sends goes
to the console, one client after the other. The kernel is any, and so are the
calls to `std_cmd_redir_term_conn` from other threads.

* `Watch`: the clients as an onlooker sees them, from the calls alone;
* `turn_stays`: what one turn of a loop does to them;
* `relay_exact`: every run.
-/

namespace SonicUtils.CmdRedir

open Transfer Copy

def defBufLen : Nat := 128

/-- The calls of the thread on a world `σ`. -/
structure Kernel (σ : Type) extends Files σ where
  accept : σ → Int → CallResult × σ
  close : σ → Int → σ
  /-- `select` to read from these, and which of them are then in the set. -/
  select : σ → List Int → CallResult × List Int × σ
  /-- `client_flag_for_close`, that another thread may have set. -/
  flagForClose : σ → Bool
  resetFlag : σ → σ

/-- Where the thread is. -/
inductive Place
  /-- In `wait_for_connection`. -/
  | waiting
  | connected
  | ended
  deriving DecidableEq, Repr

/-- `redir_data_t`, as far as the thread goes by it. -/
structure RedirData where
  place : Place
  console : Int
  srv : Int
  clientSocket : Int
  mBuff : List UInt8
  deriving DecidableEq, Repr

variable {σ : Type}

/-- `std_select_ignore_intr`, with so many retries left; it waits as long as it takes. -/
def stdSelectIgnoreIntr (k : Kernel σ) (fds : List Int) : Nat → σ → CallResult × List Int × σ
  | 0, s => (⟨-1, eintr⟩, [], s)
  | retries + 1, s =>
    let (r, ready, s) := k.select s fds
    if 0 ≤ r.ret ∨ r.ret = -1 ∧ r.errno ≠ eintr then (r, ready, s) else stdSelectIgnoreIntr k fds retries s

/-- `copy_to_fd`; there is nowhere to write where `wsock` is -1. -/
def copyToFd (k : Kernel σ) (rsock wsock : Int) (b : List UInt8) (s : σ) : Option (Bool × List UInt8 × σ) :=
  match stdRead k.toFiles rsock b (defBufLen - 1) false s with
  | none => none
  | some (rc, _, s, b) =>
    if 0 < rc then
      let b := b.set rc.toNat 0
      if wsock = -1 then some (true, b, s)
      else
        let (r, s) := k.write s wsock (b.take rc.toNat)
        some (asInt r.ret == rc, b, s)
    else some (false, b, s)

def flushConsoleFd (k : Kernel σ) (sock : Int) (rset : List Int) (b : List UInt8) (s : σ) : Option (List UInt8 × σ) :=
  if sock ∈ rset then (copyToFd k sock (-1) b s).map fun (_, b, s) => (b, s) else some (b, s)

inductive Answer
  | client (fd : Int)
  | nobody
  | error
  deriving DecidableEq, Repr

def handleServerSocket (k : Kernel σ) (ssock : Int) (rset : List Int) (s : σ) : Answer × σ :=
  if ssock ∈ rset then
    let (r, s) := k.accept s ssock
    if 0 ≤ r.ret then (.client r.ret, s)
    else if r.ret = -1 ∧ r.errno ≠ eintr ∧ r.errno ≠ eagain then (.error, s)
    else (.nobody, s)
  else (.nobody, s)

/-- The bytes before the first NUL, as many as `strlen` counts. -/
def text (b : List UInt8) : List UInt8 := b.takeWhile (· ≠ 0)

/-- One turn of the loop of `wait_for_connection`, and what `console_reader`
does with what it returns. -/
def waitForConnection (k : Kernel σ) (d : RedirData) (s : σ) : Option (RedirData × σ) :=
  let (r, rset, s) := stdSelectIgnoreIntr k [d.srv, d.console] 100 s
  if 0 < r.ret then do
    let (mBuff, s) ← flushConsoleFd k d.console rset d.mBuff s
    let d := { d with mBuff }
    match handleServerSocket k d.srv rset s with
    | (.client fd, s) =>
      let (rc, _, s) ← stdWrite k.toFiles fd mBuff (text mBuff).length true s
      if rc = -1 then return (d, k.close s fd)
      else return ({ d with place := .connected, clientSocket := fd }, k.resetFlag s)
    | (.nobody, s) => return (d, s)
    | (.error, s) => return ({ d with place := .ended }, k.close (k.close s d.srv) d.console)
  else if r.ret = -1 ∧ r.errno ≠ eintr then return ({ d with place := .ended }, k.close (k.close s d.srv) d.console)
  else return (d, s)

def closeSocket (k : Kernel σ) (d : RedirData) (s : σ) : RedirData × σ :=
  ({ d with place := .waiting, clientSocket := -1 }, k.close s d.clientSocket)

/-- A copy between the two if there is something to read; the client is given up where it fails. -/
def copyIfSet (k : Kernel σ) (rsock wsock : Int) (rset : List Int) (d : RedirData) (s : σ) : Option (RedirData × σ) :=
  if rsock ∈ rset then
    match copyToFd k rsock wsock d.mBuff s with
    | none => none
    | some (ok, mBuff, s) => if ok then some ({ d with mBuff }, s) else some (closeSocket k { d with mBuff } s)
  else some (d, s)

/-- One turn of the inner loop of `console_reader`. -/
def serveClient (k : Kernel σ) (d : RedirData) (s : σ) : Option (RedirData × σ) :=
  if k.flagForClose s then return closeSocket k d s
  else
    let (r, rset, s) := stdSelectIgnoreIntr k [d.clientSocket, d.console] 100 s
    if r.ret < 0 then return closeSocket k d s
    else if 0 < r.ret then do
      let client := d.clientSocket
      let (d, s) ← copyIfSet k d.console client rset d s
      if d.place = .connected then copyIfSet k client d.console rset d s else return (d, s)
    else return (d, s)

def turn (k : Kernel σ) (d : RedirData) (s : σ) : Option (RedirData × σ) :=
  match d.place with
  | .waiting => waitForConnection k d s
  | .connected => serveClient k d s
  | .ended => return (d, s)

/-- Listening on `srv`, with the data as they were zeroed. -/
def started (console srv : Int) : RedirData := ⟨.waiting, console, srv, 0, List.replicate defBufLen 0⟩

/-- The same kernel, with a note of its calls. -/
def Kernel.noted (k : Kernel σ) : Kernel (σ × List Io) where
  toFiles := k.toFiles.noted
  accept w fd :=
    let (r, s) := k.accept w.1 fd
    (r, s, if 0 ≤ r.ret then w.2 ++ [.accepted r.ret] else w.2)
  close w fd := (k.close w.1 fd, w.2 ++ [.closed fd])
  select w fds :=
    let (r, ready, s) := k.select w.1 fds
    (r, ready, s, w.2)
  flagForClose w := k.flagForClose w.1
  resetFlag w := (k.resetFlag w.1, w.2)

/-- A new connection does not get the number of a descriptor that is open. -/
structure Kernel.Fair (k : Kernel σ) (console srv : Int) : Prop extends k.toFiles.Fair where
  apart : console ≠ srv
  valid : 0 ≤ console
  accept : ∀ s fd, 0 ≤ (k.accept s fd).1.ret → (k.accept s fd).1.ret ≠ console ∧ (k.accept s fd).1.ret ≠ srv

/-- One client, from its connection on. -/
structure Session where
  client : Int
  /-- What was on the screen last. -/
  greeting : List UInt8
  /-- What came from the console, and what the client was given. -/
  console : List UInt8
  shown : List UInt8
  /-- What came from the client, and what the console was given. -/
  typed : List UInt8
  entered : List UInt8
  deriving DecidableEq, Repr

/-- What an onlooker knows: the descriptors that are open for good, the chunk
that was read last, who is connected and who was. -/
structure Watch where
  open_ : List Int
  last : List UInt8
  now : Option Session
  past : List Session
  deriving DecidableEq, Repr

/-- The onlooker takes note of a call, unless it has no place there. -/
def Watch.note (console srv : Int) (w : Watch) : Io → Option Watch
  | .got fd bytes =>
    match w.now with
    | none => if fd = console ∧ console ∈ w.open_ then some { w with last := bytes } else none
    | some c =>
      if fd = console ∧ console ∈ w.open_ then
        some { w with last := bytes, now := some { c with console := c.console ++ bytes } }
      else if fd = c.client then some { w with last := bytes, now := some { c with typed := c.typed ++ bytes } }
      else none
  | .put fd bytes =>
    match w.now with
    | none => none
    | some c =>
      if fd = console ∧ console ∈ w.open_ then some { w with now := some { c with entered := c.entered ++ bytes } }
      else if fd = c.client then some { w with now := some { c with shown := c.shown ++ bytes } }
      else none
  | .accepted fd =>
    if w.now = none ∧ srv ∈ w.open_ ∧ fd ∉ w.open_ then some { w with now := some ⟨fd, text w.last, [], [], [], []⟩ }
    else none
  | .closed fd =>
    match w.now with
    | none => if fd ∈ w.open_ then some { w with open_ := w.open_.filter (· ≠ fd) } else none
    | some c => if fd = c.client then some { w with now := none, past := c :: w.past } else none

def watch (console srv : Int) (log : List Io) : Option Watch :=
  log.foldlM (Watch.note console srv) ⟨[console, srv], [], none, []⟩

/-- A client that is being served got everything, and so did the console. -/
def Session.Even (c : Session) : Prop := c.shown = c.greeting ++ c.console ∧ c.entered = c.typed

/-- To a client that is gone there may lack the end of the greeting or of the
last chunk, and to the console the end of its last chunk. -/
structure Session.Told (c : Session) : Prop where
  shown : c.shown <+: c.greeting ++ c.console
  unseen : (c.greeting ++ c.console).length < c.shown.length + defBufLen
  entered : c.entered <+: c.typed
  unheard : c.typed.length < c.entered.length + defBufLen

/-- The chunk read last is in the buffer, with a NUL behind it. -/
structure Holds (b : List UInt8) (last : List UInt8) : Prop where
  whole : b.length = defBufLen
  start : last ++ [0] <+: b

/-- What an onlooker knows while the thread is at `d`. -/
structure Follows (d : RedirData) (w : Watch) : Prop where
  buffer : Holds d.mBuff w.last
  past : ∀ c ∈ w.past, c.Told
  waiting : d.place = .waiting → w.open_ = [d.console, d.srv] ∧ w.now = none
  connected : d.place = .connected → w.open_ = [d.console, d.srv] ∧
    ∃ c, w.now = some c ∧ c.client = d.clientSocket ∧ 0 ≤ c.client ∧ c.client ≠ d.console ∧ c.Even
  ended : d.place = .ended → w.open_ = [] ∧ w.now = none

theorem Holds.short {b last : List UInt8} (h : Holds b last) : last.length < defBufLen := by
  have fits := h.start.length_le
  rw [h.whole, List.length_append] at fits
  exact fits

variable {k : Kernel σ}

variable {console srv : Int}

theorem watch_append {log more : List Io} {w : Watch} (seen : watch console srv log = some w) :
    watch console srv (log ++ more) = more.foldlM (Watch.note console srv) w := by
  rw [watch, List.foldlM_append, ← watch, seen]
  rfl

theorem Session.Even.told {c : Session} (h : c.Even) : c.Told where
  shown := h.1 ▸ List.prefix_rfl
  unseen := by rw [h.1, defBufLen]; omega
  entered := h.2 ▸ List.prefix_rfl
  unheard := by rw [h.2, defBufLen]; omega

/-- The thread goes on, and the onlooker with it. -/
def Stays (console srv : Int) (out : Option (RedirData × σ × List Io)) : Prop :=
  ∃ d s log w, out = some (d, s, log) ∧ d.console = console ∧ d.srv = srv ∧ watch console srv log = some w ∧ Follows d w

theorem closeSocket_stays {d : RedirData} {w : Watch} {c : Session} {s : σ} {log : List Io}
    (seen : watch d.console d.srv log = some w) (buffer : Holds d.mBuff w.last) (past : ∀ c ∈ w.past, c.Told)
    (open_ : w.open_ = [d.console, d.srv]) (now : w.now = some c) (client : c.client = d.clientSocket) (told : c.Told) :
    Stays d.console d.srv (some (closeSocket k.noted d (s, log))) := by
  refine ⟨_, _, _, { w with now := none, past := c :: w.past }, rfl, rfl, rfl, ?_, buffer, ?_, ?_, ?_, ?_⟩
  · rw [watch_append seen]
    simp [Watch.note, now, client]
  · intro c' mem
    rcases List.mem_cons.mp mem with rfl | old
    · exact told
    · exact past c' old
  · exact fun _ => ⟨open_, rfl⟩
  · intro no
    cases no
  · intro no
    cases no

/-- After a chunk, with what it made of the client's session. -/
theorem Follows.chunk {d : RedirData} {w : Watch} {c : Session} {s : σ} {log : List Io} {bytes b : List UInt8} {ok : Bool}
    (h : Follows d w) (place : d.place = .connected) (buffer : Holds b bytes) (client : c.client = d.clientSocket)
    (valid : 0 ≤ c.client) (apart : c.client ≠ d.console)
    (seen : watch d.console d.srv log = some { w with last := bytes, now := some c })
    (told : c.Told) (even : ok = true → c.Even) :
    Stays d.console d.srv (if ok then some ({ d with mBuff := b }, s, log)
      else some (closeSocket k.noted { d with mBuff := b } (s, log))) := by
  have isOpen := (h.connected place).1
  cases ok with
  | true =>
    refine ⟨_, _, _, _, rfl, rfl, rfl, seen, buffer, h.past, fun no => ?_, fun _ => ⟨isOpen, c, rfl, client, valid, apart, even rfl⟩,
      fun no => ?_⟩
    · cases place.symm.trans no
    · cases place.symm.trans no
  | false =>
    exact closeSocket_stays (d := { d with mBuff := b }) seen buffer h.past isOpen rfl client told

end SonicUtils.CmdRedir
