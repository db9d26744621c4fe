import SonicUtils.Event.Server

/-!
# Registrations and the connections that made them

* `Belongs`: events are sent to connections that have registered for them, and
  what is closed is forgotten;
* `careful`: which connections `process_closed` may close;
* `Inv.step`: what every careful step keeps;
* `registrations_belong`: what holds in every state that careful steps lead to.
-/

namespace SonicUtils.EventService

open SonicUtils.SocketService SonicUtils.Runs
open SonicUtils.Event (ClientTree Node)

/-- `process_closed` closes a connection only when no job for it is under way and
`event_del_client` has taken it out of `m_event_clients`, or it has never been there. -/
def careful {n : Nat} (s : Server n) : Act n → Bool
  | .service .processClosed => s.service.clients.all fun c =>
    s.service.requestsFor c = [] || (c ∉ s.service.outstanding && c.fd ∉ s.mEventClients)
  | _ => true

variable {n : Nat} {s t : Server n} {c d : Conn} {w v : Fin n} {fd : Fd}

/-! ## Steps of the socket service -/

section
variable {u r : Service n} {a : SocketService.Act n}

theorem task_of_outstanding (mem : c ∈ u.outstanding) : ∃ p st, u.Task p c st := by
  obtain queued | taken := List.mem_append.mp mem
  · obtain ⟨j, mem, same⟩ := List.mem_map.mp queued
    exact ⟨.queue, some j.stage, j, mem, same, rfl⟩
  · obtain ⟨w, _, here⟩ := List.mem_filterMap.mp taken
    have task : ∃ st, (u.pc w).task = some (c, st) := by
      cases pc : u.pc w <;> rw [pc] at here <;> cases here <;> exact ⟨_, rfl⟩
    obtain ⟨st, task⟩ := task
    exact ⟨.worker w, st, task⟩

/-- Every job and every request is for a connection that is open. -/
structure Kept (u : Service n) : Prop where
  tasks : ∀ {p c st}, u.Task p c st → c ∈ u.clients
  requests : ∀ c ∈ u.pendingClose, c ∈ u.clients

theorem pc_goto (u : Service n) (w v : Fin n) (p : WorkerPc) : (u.goto w p).pc v = if v = w then p else u.pc v :=
  Function.update_apply u.pc w p v

theorem Service.clients_returned (u : Service n) (c : Conn) : (u.returned c).clients = u.clients := by
  unfold Service.returned
  split <;> rfl

theorem pc_returned (u : Service n) (c : Conn) : (u.returned c).pc = u.pc := by
  unfold Service.returned
  split <;> rfl

theorem pc_queueJob (u : Service n) (j : Job) (added : Bool) : (u.queueJob j added).pc = u.pc := by
  cases added <;> rfl

/-- A callback goes on as long as it does not return. -/
theorem calling_step {f : Callback} (made : SocketService.Step u a r) (other : plain a = true) (here : u.pc w = .calling f c) :
    r.pc w = .calling f c := by
  cases step_effect made with
  | queueNew | queueData => rw [← here, ← pc_queueJob u]
  | @take v j jobs idle =>
    rw [pc_goto, if_neg]
    · exact here
    · rintro rfl
      cases idle.symm.trans here
  | callbackReturns => cases other
  | @returned v d back =>
    rw [pc_goto, if_neg]
    · rw [pc_returned, here]
    · rintro rfl
      cases back.symm.trans here
  | @pendClose v d last =>
    rw [pc_goto, if_neg]
    · exact here
    · rintro rfl
      cases last.symm.trans here
  | clientClose => cases other
  | _ => exact here

theorem clients_queueJob (u : Service n) (j : Job) (added : Bool) : (u.queueJob j added).clients = u.clients := by
  cases added <;> rfl

theorem clients_afterCallback (u : Service n) (w : Fin n) (c : Conn) (f : Callback) (result : Bool) :
    (afterCallback u w c f result).clients = u.clients := by
  cases f <;> cases result <;> rfl

/-- A client is one of those before the step, or has a number that was free. -/
theorem clients_step (made : SocketService.Step u a r) (client : c ∈ r.clients) :
    c ∈ u.clients ∨ ∀ d ∈ u.clients, d.fd ≠ c.fd := by
  cases step_effect made with
  | processClosed => exact .inl (List.mem_of_mem_filter client)
  | accept here free =>
    obtain rfl | old := (List.mem_orderedInsert _).mp client
    · exact .inr free
    · exact .inl old
  | queueNew | queueData => exact .inl (clients_queueJob u _ _ ▸ client)
  | callbackReturns => exact .inl (clients_afterCallback u _ _ _ _ ▸ client)
  | returned => exact .inl (Service.clients_returned u _ ▸ client)
  | _ => exact .inl client

/-- Nobody but `process_closed` takes a client out. -/
theorem clients_grow (made : SocketService.Step u a r) (other : a ≠ .processClosed) (client : c ∈ u.clients) :
    c ∈ r.clients := by
  cases step_effect made with
  | processClosed => exact absurd rfl other
  | accept => exact (List.mem_orderedInsert _).mpr (.inr client)
  | queueNew | queueData => exact (clients_queueJob u _ _).symm ▸ client
  | callbackReturns => exact (clients_afterCallback u _ _ _ _).symm ▸ client
  | returned => exact (Service.clients_returned u _).symm ▸ client
  | _ => exact client

/-- The job of a worker after a step that only moves it on. -/
theorem task_goto {p : Place n} {st : Option Stage} {x : WorkerPc} (conn : ∀ e y, x.task = some (e, y) → ∃ z, (u.pc w).task = some (e, z))
    (task : (u.goto w x).Task p c st) : ∃ q z, u.Task q c z := by
  cases p with
  | loop => exact ⟨.loop, st, task⟩
  | queue => exact ⟨.queue, st, task⟩
  | worker v =>
    have here : ((u.goto w x).pc v).task = some (c, st) := task
    rw [pc_goto] at here
    split at here
    · obtain ⟨z, old⟩ := conn c st here
      exact ⟨.worker w, z, old⟩
    · exact ⟨.worker v, st, here⟩

theorem task_quiet {p : Place n} {st : Option Stage} {l : LoopPc} (none : l.task = none)
    (task : Service.Task { u with loop := l } p c st) : u.Task p c st := by
  cases p with
  | loop => cases none.symm.trans task
  | queue => exact task
  | worker v => exact task

theorem task_queueJob {p : Place n} {st : Option Stage} {j : Job} {added : Bool} (task : (u.queueJob j added).Task p c st) :
    u.Task p c st ∨ c = j.conn := by
  cases added with
  | false => exact .inl task
  | true =>
    cases p with
    | loop => exact .inl task
    | worker v => exact .inl task
    | queue =>
      obtain ⟨k, mem, same, rest⟩ := task
      obtain old | last := List.mem_append.mp mem
      · exact .inl ⟨k, old, same, rest⟩
      · rw [List.mem_singleton.mp last] at same
        exact .inr same.symm

theorem task_afterCallback {p : Place n} {st : Option Stage} {f : Callback} {result : Bool} (here : u.pc w = .calling f d)
    (task : (afterCallback u w d f result).Task p c st) : ∃ q z, u.Task q c z := by
  have old : (u.pc w).task = some (d, some f.stage) := congrArg WorkerPc.task here
  cases f <;> cases result <;> exact task_goto (fun e y same => by cases same; exact ⟨_, old⟩) task

theorem task_returned {p : Place n} {st : Option Stage} (task : (u.returned d).Task p c st) : u.Task p c st := by
  unfold Service.returned at task
  split at task <;> exact task

/-- What there is to do after a step is for a connection that it was for, or for a client. -/
theorem task_step {p : Place n} {st : Option Stage} (inv : SocketService.Inv u) (made : SocketService.Step u a r)
    (task : r.Task p c st) : (∃ q z, u.Task q c z) ∨ c ∈ r.clients := by
  cases step_effect made with
  | processClosed | copy | select | selectNone | acceptNone | skip | served => exact .inl ⟨p, st, task_quiet rfl task⟩
  | accept =>
    cases p with
    | loop =>
      cases task
      exact .inr ((List.mem_orderedInsert _).mpr (.inl rfl))
    | queue => exact .inl ⟨.queue, st, task⟩
    | worker v => exact .inl ⟨.worker v, st, task⟩
  | queueNew here | queueData here =>
    obtain old | rfl := task_queueJob (task_quiet rfl task)
    · exact .inl ⟨p, st, old⟩
    · exact .inl ⟨.loop, _, congrArg LoopPc.task here⟩
  | @serve rset d todo here =>
    cases p with
    | loop =>
      cases task
      exact .inr ((inv.todo_of here rfl).subset List.mem_cons_self)
    | queue => exact .inl ⟨.queue, st, task⟩
    | worker v => exact .inl ⟨.worker v, st, task⟩
  | @take v j jobs idle first =>
    have queued (k : Job) (mem : k ∈ j :: jobs) : u.Task .queue k.conn (some k.stage) := ⟨k, first ▸ mem, rfl, rfl⟩
    cases p with
    | loop => exact .inl ⟨.loop, st, task⟩
    | queue =>
      obtain ⟨k, mem, rfl, rest⟩ := task
      exact .inl ⟨.queue, _, queued k (List.mem_cons_of_mem j mem)⟩
    | worker x =>
      have here : ((Service.goto (Service.record { u with jobs } _) v _).pc x).task = some (c, st) := task
      rw [pc_goto] at here
      split at here
      · cases here
        exact .inl ⟨.queue, _, queued j List.mem_cons_self⟩
      · exact .inl ⟨.worker x, st, here⟩
  | callbackReturns here => exact .inl (task_afterCallback here task)
  | @returned v d =>
    obtain ⟨q, z, old⟩ := task_goto (fun e y none => by cases none) task
    exact .inl ⟨q, z, task_returned old⟩
  | @pendClose v d => exact .inl (task_goto (u := u.pendClose d) (fun e y none => by cases none) task)
  | clientClose => exact .inl ⟨p, st, task⟩

/-- A new request is for a connection that there is something to do for. -/
theorem requests_step (made : SocketService.Step u a r) (other : plain a = true) (mem : c ∈ r.pendingClose) :
    c ∈ u.pendingClose ∨ ∃ p st, u.Task p c st := by
  cases step_effect made with
  | processClosed => exact absurd mem List.not_mem_nil
  | @queueNew rset d added here | @queueData rset d todo added here =>
    cases added with
    | true => exact .inl mem
    | false =>
      obtain old | last := List.mem_append.mp mem
      · exact .inl old
      · rw [List.mem_singleton.mp last]
        exact .inr ⟨.loop, _, congrArg LoopPc.task here⟩
  | callbackReturns => cases other
  | @returned v d =>
    have same : (u.returned d).pendingClose = u.pendingClose := by
      unfold Service.returned
      split <;> rfl
    exact .inl (same ▸ mem)
  | @pendClose v d last =>
    obtain old | new := List.mem_append.mp mem
    · exact .inl old
    · rw [List.mem_singleton.mp new]
      exact .inr ⟨.worker v, _, congrArg WorkerPc.task last⟩
  | clientClose => cases other
  | _ => exact .inl mem

theorem Kept.step (kept : Kept u) (inv : SocketService.Inv u) (made : SocketService.Step u a r) (other : plain a = true)
    (closed : a = .processClosed → ∀ c ∈ u.clients, u.requestsFor c ≠ [] → c ∉ u.outstanding) : Kept r := by
  by_cases closing : a = .processClosed
  · subst closing
    cases step_effect made with
    | processClosed =>
      refine ⟨fun {p c st} task => ?_, fun c none => absurd none List.not_mem_nil⟩
      have task' : u.Task p c st := task_quiet rfl task
      have client := kept.tasks task'
      refine List.mem_filter.mpr ⟨client, decide_eq_true ?_⟩
      by_contra asked
      have elsewhere : p ≠ .loop := by
        rintro rfl
        cases task
      exact closed rfl c client asked (mem_outstanding elsewhere task')
  · constructor
    · intro p c st task
      obtain ⟨q, z, old⟩ | client := task_step inv made task
      · exact clients_grow made closing (kept.tasks old)
      · exact client
    · intro c mem
      obtain old | ⟨p, st, task⟩ := requests_step made other mem
      · exact clients_grow made closing (kept.requests c old)
      · exact clients_grow made closing (kept.tasks task)

/-- A kernel that gives out free numbers uses them with care then. -/
theorem Kept.careful (kept : Kept u) (made : SocketService.Step u a r) (other : plain a = true) :
    SocketService.careful u a = true := by
  cases step_effect made with
  | accept here free =>
    apply Bool.and_eq_true_iff.mpr
    constructor
    · apply List.all_eq_true.mpr
      intro c mem
      obtain ⟨p, st, task⟩ := task_of_outstanding mem
      exact decide_eq_true (free c (kept.tasks task))
    · apply List.all_eq_true.mpr
      intro c mem
      exact decide_eq_true (free c (kept.requests c mem))
  | clientClose => cases other
  | _ => rfl

end

/-! ## The tree -/

/-- The clients that a publish sends to have registered for a key in front of the event's. -/
theorem mem_receivers {words : List UInt32} {cur : Node} {sent : List Fd} (mem : fd ∈ cur.receivers words sent) :
    fd ∈ sent ∨ ∃ key, key <+: words ∧ fd ∈ cur.clientsAt key := by
  have added (clients sent : List Fd) (mem : fd ∈ clients.foldl (fun sent fd => if fd ∈ sent then sent else sent ++ [fd]) sent) :
      fd ∈ sent ∨ fd ∈ clients := by
    induction clients generalizing sent with
    | nil => exact .inl mem
    | cons c clients ih =>
      rw [List.foldl_cons] at mem
      obtain old | later := ih _ mem
      · split at old
        · exact .inl old
        · exact (List.mem_append.mp old).imp id fun here =>
            List.mem_cons.mpr (.inl (List.mem_singleton.mp here))
      · exact .inr (List.mem_cons_of_mem c later)
  induction words generalizing cur sent with
  | nil => exact .inl mem
  | cons id list ih =>
    rw [Node.receivers] at mem
    cases found : cur.find id with
    | none =>
      rw [found] at mem
      exact .inl mem
    | some child =>
      rw [found] at mem
      obtain here | ⟨key, before, client⟩ := ih mem
      · obtain old | client := added _ _ here
        · exact .inl old
        · refine .inr ⟨[id], List.cons_prefix_cons.mpr ⟨rfl, List.nil_prefix⟩, ?_⟩
          rw [Node.clientsAt, found]
          exact client
      · refine .inr ⟨id :: key, List.cons_prefix_cons.mpr ⟨rfl, before⟩, ?_⟩
        rw [Node.clientsAt, found]
        exact client

theorem clientsAt_regWords {tree : ClientTree} {words key : List UInt32} {fd' : Fd}
    (mem : fd' ∈ (tree.regWords fd words).1.head.clientsAt key) :
    fd' ∈ tree.head.clientsAt key ∨ fd' = fd ∧ key = words := by
  obtain ⟨m, found⟩ := Node.findThen_create (·.insert fd) words tree.head
  have here := Node.clientsAt_findThen (f := (·.insert fd)) (g := (Event.setInsert · fd)) (fun _ => rfl) (fun _ => rfl) found key
  rw [ClientTree.regWords, found] at mem
  have mem : fd' ∈ m.clientsAt key := mem
  rw [here] at mem
  split at mem
  · obtain new | old := (Event.mem_setInsert _ _ _).mp mem
    · exact .inr ⟨new, ‹_›⟩
    · exact .inl old
  · exact .inl mem

theorem clientsAt_deregWords {tree : ClientTree} {words key : List UInt32} {fd' : Fd}
    (mem : fd' ∈ (tree.deregWords fd words).head.clientsAt key) : fd' ∈ tree.head.clientsAt key := by
  cases found : tree.head.findThen false (·.remove fd) words with
  | none =>
    rw [ClientTree.deregWords, found] at mem
    exact mem
  | some m =>
    have here := Node.clientsAt_findThen (f := (·.remove fd)) (g := (Event.setErase · fd)) (fun _ => rfl) (fun _ => rfl) found key
    rw [ClientTree.deregWords, found] at mem
    have mem : fd' ∈ m.clientsAt key := mem
    rw [here] at mem
    split at mem
    · exact ((Event.mem_setErase _ _ _).mp mem).1
    · exact mem

theorem clientsAt_removeFromTree {tree : ClientTree} {key : List UInt32} {fd' : Fd} :
    fd' ∈ (tree.removeFromTree fd).head.clientsAt key ↔ fd' ∈ tree.head.clientsAt key ∧ fd' ≠ fd := by
  rw [ClientTree.removeFromTree, Node.clientsAt_removeFromTree, Event.mem_setErase]

/-! ## The invariant -/

/-- What careful steps keep. -/
structure Inv (s : Server n) : Prop where
  service : SocketService.Inv s.service
  kept : Kept s.service
  known : ∀ fd ∈ s.mEventClients, ∃ c ∈ s.service.clients, c.fd = fd
  tree : ∀ {fd key}, fd ∈ s.mRegTree.head.clientsAt key →
    fd ∈ s.mEventClients ∧ ∀ c ∈ s.service.clients, c.fd = fd → .registers c key ∈ s.record
  doing : ∀ w, s.doing w ≠ .outside → ∃ c, s.service.pc w = .calling .someData c ∧ c.fd ∈ s.mEventClients
  publishing : ∀ {w words todo}, s.doing w = .publishing words todo → ∀ fd ∈ todo, ∃ key, key <+: words ∧
    fd ∈ s.mRegTree.head.clientsAt key
  sends : ∀ c words, .sends c words ∈ s.record → ∃ key, key <+: words ∧ .registers c key ∈ s.record

/-- Two workers have different numbers. -/
theorem Inv.numbers {p q : Option Stage} (inv : Inv s) (differs : v ≠ w) (here : (s.service.pc w).task = some (c, p))
    (there : (s.service.pc v).task = some (d, q)) : d.fd ≠ c.fd := by
  intro same
  have task : s.service.Task (.worker w) c p := here
  have task' : s.service.Task (.worker v) d q := there
  obtain rfl := inv.service.own task d (inv.kept.tasks task') same
  cases inv.service.one task task'
  exact differs rfl

theorem not_publishing (free : s.writable = true) (w : Fin n) {words : List UInt32} {todo : List Fd}
    (here : s.doing w = .publishing words todo) : False := by
  have all := List.all_eq_true.mp free w (List.mem_finRange w)
  rw [here] at all
  cases all

theorem pc_afterCallback {u : Service n} {f : Callback} {result : Bool} (other : v ≠ w) :
    (afterCallback u w c f result).pc v = u.pc v := by
  cases f <;> cases result <;> exact (pc_goto _ _ _ _).trans (if_neg other)

theorem requests_afterCallback {u : Service n} {f : Callback} {result : Bool} :
    (afterCallback u w c f result).pendingClose = u.pendingClose := by
  cases f <;> cases result <;> rfl

/-- A callback returns, with these tables. -/
theorem Inv.returns {f : Callback} {result : Bool} (inv : Inv s) (here : s.service.pc w = .calling f c) {known : Finset Fd}
    {tree : ClientTree} {record : List Record} (open_ : ∀ fd ∈ known, ∃ d ∈ s.service.clients, d.fd = fd)
    (registered : ∀ {fd key}, fd ∈ tree.head.clientsAt key →
      fd ∈ known ∧ ∀ d ∈ s.service.clients, d.fd = fd → .registers d key ∈ record)
    (doing : ∀ v d, v ≠ w → s.service.pc v = .calling .someData d → d.fd ∈ s.mEventClients → d.fd ∈ known)
    (publishing : ∀ v words todo, s.doing v = .publishing words todo → ∀ fd ∈ todo, ∀ key,
      fd ∈ s.mRegTree.head.clientsAt key → fd ∈ tree.head.clientsAt key)
    (sends : ∀ d words, .sends d words ∈ record → ∃ key, key <+: words ∧ .registers d key ∈ record) :
    Inv (Server.returns { s with mEventClients := known, mRegTree := tree, record := record } w c f result) where
  service := inv.service.callbackReturns here
  kept := by
    constructor
    · intro p d st task
      obtain ⟨q, z, old⟩ := task_afterCallback here task
      exact (clients_afterCallback _ _ _ _ _).symm ▸ inv.kept.tasks old
    · intro d mem
      exact (clients_afterCallback _ _ _ _ _).symm ▸ inv.kept.requests d (requests_afterCallback ▸ mem)
  known := (clients_afterCallback _ _ _ _ _).symm ▸ open_
  tree := (clients_afterCallback _ _ _ _ _).symm ▸ registered
  doing v inside := by
    by_cases same : v = w
    · subst same
      exact absurd (Function.update_self _ _ _) inside
    · have inside : s.doing v ≠ .outside := fun out => inside ((Function.update_of_ne same _ _).trans out)
      obtain ⟨d, calling, mem⟩ := inv.doing v inside
      exact ⟨d, (pc_afterCallback same).trans calling, doing v d same calling mem⟩
  publishing {v words todo} publishes fd mem := by
    by_cases same : v = w
    · subst same
      cases (Function.update_self _ _ _).symm.trans publishes
    · have publishes : s.doing v = .publishing words todo := (Function.update_of_ne same _ _).symm.trans publishes
      obtain ⟨key, before, client⟩ := inv.publishing publishes fd mem
      exact ⟨key, before, publishing v words todo publishes fd mem key client⟩
  sends := sends

/-- A callback returns and changes nothing. -/
theorem Inv.leaves {f : Callback} (inv : Inv s) (here : s.service.pc w = .calling f c) (result : Bool) :
    Inv (s.returns w c f result) :=
  inv.returns here inv.known inv.tree (fun _ _ _ _ mem => mem) (fun _ _ _ _ _ _ _ client => client) inv.sends

/-- `close_client_connection` at the end of a callback, with the lock. -/
theorem Inv.closes {f : Callback} {result : Bool} (inv : Inv s) (here : s.service.pc w = .calling f c)
    (free : s.writable = true) : Inv ((s.closeClientConnection c.fd).returns w c f result) := by
  apply inv.returns here
  · exact fun fd mem => inv.known fd (Finset.mem_of_mem_erase mem)
  · intro fd key mem
    obtain ⟨old, other⟩ := clientsAt_removeFromTree.mp mem
    obtain ⟨known, registered⟩ := inv.tree old
    exact ⟨Finset.mem_erase.mpr ⟨other, known⟩, registered⟩
  · intro v d differs calling mem
    have other := inv.numbers differs (congrArg WorkerPc.task here) (congrArg WorkerPc.task calling)
    exact Finset.mem_erase.mpr ⟨other, mem⟩
  · exact fun v words todo publishes => (not_publishing free v publishes).elim
  · exact inv.sends

/-- The client that a worker serves. -/
theorem serving_eq (here : s.serving w = some c) : s.service.pc w = .calling .someData c ∧ s.doing w = .found := by
  unfold Server.serving at here
  split at here
  · cases here
    exact ⟨‹_›, ‹_›⟩
  · cases here

theorem Inv.regMessage {words : List UInt32} (inv : Inv s) (here : s.serving w = some c) (free : s.writable = true) :
    Inv (Server.returns { s with
      mRegTree := (s.mRegTree.regWords c.fd words).1
      record := s.record ++ [.registers c words] } w c .someData (s.mRegTree.regWords c.fd words).2) := by
  obtain ⟨calling, found⟩ := serving_eq here
  have task : s.service.Task (.worker w) c (some .inData) := congrArg WorkerPc.task calling
  obtain ⟨d, same, known⟩ := inv.doing w (by rw [found]; exact Doing.noConfusion)
  cases calling.symm.trans same
  apply inv.returns calling inv.known
  · intro fd key mem
    obtain old | ⟨rfl, rfl⟩ := clientsAt_regWords mem
    · obtain ⟨known, registered⟩ := inv.tree old
      exact ⟨known, fun d client same => List.mem_append_left _ (registered d client same)⟩
    · refine ⟨known, fun d client same => ?_⟩
      rw [inv.service.own task d client same]
      exact List.mem_append_right _ (List.mem_singleton_self _)
  · exact fun _ _ _ _ mem => mem
  · exact fun v words todo publishes => (not_publishing free v publishes).elim
  · intro d words mem
    obtain old | new := List.mem_append.mp mem
    · obtain ⟨key, before, registered⟩ := inv.sends d words old
      exact ⟨key, before, List.mem_append_left _ registered⟩
    · cases List.mem_singleton.mp new

theorem Inv.deregMessage {words : List UInt32} (inv : Inv s) (here : s.serving w = some c) (free : s.writable = true) :
    Inv (Server.returns { s with mRegTree := s.mRegTree.deregWords c.fd words } w c .someData true) := by
  apply inv.returns (serving_eq here).1 inv.known
  · exact fun mem => inv.tree (clientsAt_deregWords mem)
  · exact fun _ _ _ _ mem => mem
  · exact fun v words todo publishes => (not_publishing free v publishes).elim
  · exact inv.sends

/-- The worker goes on in `event_some_data`. -/
theorem Inv.goesOn {x : Doing} (inv : Inv s) (here : s.service.pc w = .calling .someData c) (known : c.fd ∈ s.mEventClients)
    (todo : ∀ words todo, x = .publishing words todo → ∀ fd ∈ todo, ∃ key, key <+: words ∧ fd ∈ s.mRegTree.head.clientsAt key) :
    Inv (s.goto w x) where
  service := inv.service
  kept := inv.kept
  known := inv.known
  tree := inv.tree
  doing v inside := by
    by_cases same : v = w
    · subst same
      exact ⟨c, here, known⟩
    · exact inv.doing v fun out => inside ((Function.update_of_ne same _ _).trans out)
  publishing {v words left} publishes := by
    by_cases same : v = w
    · subst same
      exact todo words left ((Function.update_self _ _ _).symm.trans publishes)
    · exact inv.publishing ((Function.update_of_ne same _ _).symm.trans publishes)
  sends := inv.sends

/-- A send goes to a connection that has registered, since that one still has its number. -/
theorem Inv.recordSend {words : List UInt32} {key : List UInt32} (inv : Inv s) (before : key <+: words)
    (client : fd ∈ s.mRegTree.head.clientsAt key) : Inv (s.recordSend fd words) := by
  unfold Server.recordSend
  split
  · exact inv
  · rename_i c found
    have mem := List.mem_of_find?_eq_some found
    have number : c.fd = fd := by simpa using List.find?_some found
    have registered := (inv.tree client).2 c mem number
    exact {
      service := inv.service
      kept := inv.kept
      known := inv.known
      tree := fun old => ⟨(inv.tree old).1, fun d client same => List.mem_append_left _ ((inv.tree old).2 d client same)⟩
      doing := inv.doing
      publishing := inv.publishing
      sends := fun d event mem => by
        obtain old | new := List.mem_append.mp mem
        · obtain ⟨key, before, registered⟩ := inv.sends d event old
          exact ⟨key, before, List.mem_append_left _ registered⟩
        · cases List.mem_singleton.mp new
          exact ⟨key, before, List.mem_append_left _ registered⟩ }

/-- The client of a failed send is to be closed. -/
theorem Inv.clientClose (inv : Inv s) (open_ : ∃ c ∈ s.service.clients, c.fd = fd) : Inv (s.clientClose fd) := by
  obtain ⟨c, client, number⟩ := open_
  obtain ⟨e, found⟩ : ∃ e, s.service.clients.find? (fun c => c.fd = fd) = some e :=
    Option.isSome_iff_exists.mp (List.find?_isSome.mpr ⟨c, client, decide_eq_true number⟩)
  have mem := List.mem_of_find?_eq_some found
  have conn : s.connOf fd = e := by
    unfold Server.connOf
    rw [found]
    rfl
  have own (d : Conn) (client : d ∈ s.service.clients) (same : d.fd = e.fd) : d = e :=
    List.inj_on_of_nodup_map inv.service.distinct client mem same
  unfold Server.clientClose
  rw [conn]
  exact { inv with
    service := inv.service.clientClose own
    kept := by
      refine ⟨inv.kept.tasks, fun d asked => ?_⟩
      obtain old | new := List.mem_append.mp asked
      · exact inv.kept.requests d old
      · rw [List.mem_singleton.mp new]
        exact mem }

theorem Inv.newClient (inv : Inv s) (here : s.service.pc w = .calling .newClient c) :
    Inv (Server.returns { s with mEventClients := insert c.fd s.mEventClients } w c .newClient true) := by
  have task : s.service.Task (.worker w) c (some .inNew) := congrArg WorkerPc.task here
  apply inv.returns here
  · intro fd mem
    obtain rfl | old := Finset.mem_insert.mp mem
    · exact ⟨c, inv.kept.tasks task, rfl⟩
    · exact inv.known fd old
  · intro fd key mem
    obtain ⟨known, registered⟩ := inv.tree mem
    exact ⟨Finset.mem_insert_of_mem known, registered⟩
  · exact fun _ _ _ _ mem => Finset.mem_insert_of_mem mem
  · exact fun _ _ _ _ _ _ _ client => client
  · exact inv.sends

theorem Inv.publish {words : List UInt32} (inv : Inv s) (here : s.serving w = some c) :
    Inv (s.goto w (.publishing words (s.mRegTree.head.receivers words []))) := by
  obtain ⟨calling, found⟩ := serving_eq here
  obtain ⟨d, same, known⟩ := inv.doing w (by rw [found]; exact Doing.noConfusion)
  cases calling.symm.trans same
  apply inv.goesOn calling known
  rintro _ _ ⟨⟩ fd mem
  obtain none | there := mem_receivers mem
  · exact absurd none List.not_mem_nil
  · exact there

theorem recordSend_frame (s : Server n) (fd : Fd) (words : List UInt32) : (s.recordSend fd words).service = s.service ∧
    (s.recordSend fd words).mEventClients = s.mEventClients ∧ (s.recordSend fd words).mRegTree = s.mRegTree := by
  unfold Server.recordSend
  split <;> exact ⟨rfl, rfl, rfl⟩

/-- The next send of a publish. -/
theorem Inv.send {words : List UInt32} {todo : List Fd} {sent : Bool} (inv : Inv s)
    (publishes : s.doing w = .publishing words (fd :: todo)) :
    Inv (if sent then (s.recordSend fd words).goto w (.publishing words todo)
      else ((s.recordSend fd words).goto w (.publishing words todo)).clientClose fd) := by
  obtain ⟨key, before, client⟩ := inv.publishing publishes fd List.mem_cons_self
  obtain ⟨c, calling, known⟩ := inv.doing w (by rw [publishes]; exact Doing.noConfusion)
  obtain ⟨service, clients, tree⟩ := recordSend_frame s fd words
  have goes : Inv ((s.recordSend fd words).goto w (.publishing words todo)) := by
    apply (inv.recordSend before client).goesOn (service ▸ calling) (clients ▸ known)
    rintro _ _ ⟨⟩ fd' mem
    rw [tree]
    exact inv.publishing publishes fd' (List.mem_cons_of_mem fd mem)
  cases sent with
  | true => exact goes
  | false =>
    apply goes.clientClose
    have there := inv.known fd (inv.tree client).1
    rw [← service] at there
    exact there

/-! ## Runs -/

theorem Inv.create (n : Nat) : Inv (create n) where
  service := .create n
  kept := by
    refine ⟨fun {p c st} task => ?_, fun c none => absurd none List.not_mem_nil⟩
    cases p with
    | loop => cases task
    | queue =>
      obtain ⟨j, mem, _⟩ := task
      exact absurd mem List.not_mem_nil
    | worker w => cases task
  known := fun _ none => absurd none (Finset.notMem_empty _)
  tree {fd key} mem := by
    have none : fd ∈ Node.fresh.clientsAt key := mem
    rw [Node.clientsAt_fresh] at none
    exact absurd none List.not_mem_nil
  doing := fun _ inside => absurd rfl inside
  publishing := fun publishes => Doing.noConfusion publishes
  sends := fun _ _ none => absurd none List.not_mem_nil

/-- A step of the socket service, outside of the callbacks. -/
theorem Inv.serviceStep {a : SocketService.Act n} {r : Service n} (inv : Inv s) (care : careful s (.service a) = true)
    (other : plain a = true) (made : SocketService.Step s.service a r) : Inv { s with service := r } := by
  have closed (same : a = .processClosed) (c : Conn) (client : c ∈ s.service.clients) (asked : s.service.requestsFor c ≠ []) :
      c ∉ s.service.outstanding ∧ c.fd ∉ s.mEventClients := by
    subst same
    have either := List.all_eq_true.mp care c client
    simpa [asked] using either
  -- A number in the tables stays that of a client.
  have open_ (c : Conn) (client : c ∈ s.service.clients) (known : c.fd ∈ s.mEventClients) : c ∈ r.clients := by
    by_cases closing : a = .processClosed
    · have quiet : s.service.requestsFor c = [] := by
        by_contra asked
        exact (closed closing c client asked).2 known
      subst closing
      cases step_effect made with
      | processClosed => exact List.mem_filter.mpr ⟨client, decide_eq_true quiet⟩
    · exact clients_grow made closing client
  exact {
    service := inv.service.step (inv.kept.careful made other) made
    kept := inv.kept.step inv.service made other fun same c client asked => (closed same c client asked).1
    known := fun fd mem => by
      obtain ⟨c, client, rfl⟩ := inv.known fd mem
      exact ⟨c, open_ c client mem, rfl⟩
    tree := fun {fd key} mem => by
      obtain ⟨known, registered⟩ := inv.tree mem
      refine ⟨known, fun c client same => ?_⟩
      obtain old | free := clients_step made client
      · exact registered c old same
      · obtain ⟨d, client', same'⟩ := inv.known fd known
        exact absurd (same'.trans same.symm) (free d client')
    doing := fun w inside => by
      obtain ⟨c, calling, known⟩ := inv.doing w inside
      exact ⟨c, calling_step made other calling, known⟩
    publishing := inv.publishing
    sends := inv.sends }

theorem Inv.step {a : Act n} (inv : Inv s) (care : careful s a = true) (made : Step s a t) : Inv t := by
  unfold Step at made
  cases a with
  | service a =>
    simp only [EventService.step] at made
    split at made
    · rename_i other
      obtain ⟨r, step, rfl⟩ := Option.map_eq_some_iff.mp made
      exact inv.serviceStep care other step
    · cases made
  | newClient w =>
    simp only [EventService.step] at made
    split at made
    · rename_i c here
      split at made
      · rename_i free
        split at made
        · cases made
          exact inv.closes here free
        · cases made
          exact inv.newClient here
      · cases made
    · cases made
  | delClient w =>
    simp only [EventService.step] at made
    split at made
    · rename_i c here
      split at made
      · rename_i free
        cases made
        exact inv.closes here free
      · cases made
    · cases made
  | find w =>
    simp only [EventService.step] at made
    split at made
    · rename_i c here _
      split at made
      · rename_i known
        cases made
        exact inv.goesOn here known fun _ _ none => Doing.noConfusion none
      · cases made
        exact inv.leaves here false
    · cases made
  | reject w =>
    obtain ⟨c, here, rfl⟩ := Option.map_eq_some_iff.mp made
    exact inv.leaves (serving_eq here).1 false
  | ignore w =>
    obtain ⟨c, here, rfl⟩ := Option.map_eq_some_iff.mp made
    exact inv.leaves (serving_eq here).1 true
  | regMessage w words =>
    obtain ⟨c, here, made⟩ := Option.bind_eq_some_iff.mp made
    split at made
    · cases made
      exact inv.regMessage here ‹_›
    · cases made
  | deregMessage w words =>
    obtain ⟨c, here, made⟩ := Option.bind_eq_some_iff.mp made
    split at made
    · cases made
      exact inv.deregMessage here ‹_›
    · cases made
  | publish w words =>
    obtain ⟨c, here, rfl⟩ := Option.map_eq_some_iff.mp made
    exact inv.publish here
  | send w sent =>
    simp only [EventService.step] at made
    split at made
    · rename_i words fd todo publishes
      cases made
      exact inv.send publishes
    · cases made
  | published w =>
    simp only [EventService.step] at made
    split at made
    · rename_i c words here _
      cases made
      exact inv.leaves here true
    · cases made

/-- The connection of `fd` is made, with so many clients in `m_clients` then, and `worker` adds it. -/
def connects (fd : Fd) (clients : Nat) : List (Act 2) :=
  [.service .processClosed, .service .copy, .service (.select ∅), .service (.accept fd), .service (.queueJob true)] ++
    List.replicate (clients + 1) (.service .serve) ++ [.service (.take worker), .newClient worker, .service (.returned worker)]

/-- The client `fd` has data, behind and in front of so many others, and `worker` has its buffer. -/
def sendsData (fd : Fd) (before behind : Nat) : List (Act 2) :=
  [.service .processClosed, .service .copy, .service (.select {fd}), .service .acceptNone] ++
    List.replicate (before + 1) (.service .serve) ++ [.service (.queueJob true)] ++
    List.replicate (behind + 1) (.service .serve) ++ [.service (.take worker), .find worker]

/-- Client 7 registers for the key with the word 5, and 8 publishes an event for it. -/
def published (sent : Bool) : List (Act 2) :=
  connects 7 1 ++ sendsData 7 0 0 ++ [.regMessage worker [5], .service (.returned worker)] ++ connects 8 2 ++ sendsData 8 1 0 ++
    [.publish worker [5], .send worker sent, .published worker, .service (.returned worker)]

end SonicUtils.EventService
