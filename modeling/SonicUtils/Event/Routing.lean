import SonicUtils.Event.ClientTree
import Mathlib.Data.Set.Basic

/-!
# Event routing

The tree stands for a flat set of pairs, `Registry`: the node at a path holds
the clients registered for that key (`Represents`). Registration, its undoing
and the removal of a client are the set operations, and a published message
goes once to each client with a registered key that is a prefix of its own.
-/

namespace SonicUtils.Event

/-- The pairs of a client and a key that are registered. -/
abbrev Registry := Set (Fd × List UInt32)

@[simp] theorem mem_setInsert (cs : List Fd) (fd c : Fd) :
    c ∈ setInsert cs fd ↔ c = fd ∨ c ∈ cs := by
  unfold setInsert
  split
  · rename_i old
    constructor
    · exact .inr
    · rintro (rfl | hc)
      · exact old
      · exact hc
  · simp

@[simp] theorem mem_setErase (cs : List Fd) (fd c : Fd) :
    c ∈ setErase cs fd ↔ c ∈ cs ∧ c ≠ fd := by
  simp [setErase]

namespace Node

/-- The clients of the node at a path, none where there is no node. -/
def clientsAt : List UInt32 → Node → List Fd
  | [], n => n.clients
  | id :: list, n => ((n.find id).map (clientsAt list)).getD []

theorem find_setNode (n : Node) (id k : UInt32) (child : Node) :
    (n.setNode id child).find k = if k = id then some child else n.find k := by
  have drop (ns : List (UInt32 × Node)) (h : k ≠ id) :
      (ns.filter (fun p => p.1 ≠ id)).lookup k = ns.lookup k := by
    induction ns with
    | nil => rfl
    | cons p ns ih =>
      obtain ⟨j, m⟩ := p
      by_cases hj : j = id
      · subst hj
        have hk : (k == j) = false := by simpa using h
        simpa [List.lookup_cons, hk] using ih
      · simp only [ne_eq, hj, not_false_eq_true, decide_true, List.filter_cons_of_pos,
          List.lookup_cons, ih]
  unfold find setNode mNodes
  by_cases h : k = id
  · simp [h]
  · have hk : (k == id) = false := by simpa using h
    simp only [List.lookup_cons, hk, h, if_false]
    exact drop _ h

@[simp] theorem clients_setNode (n : Node) (id : UInt32) (child : Node) :
    (n.setNode id child).clients = n.clients := rfl

theorem clientsAt_fresh (q : List UInt32) : fresh.clientsAt q = [] := by
  cases q <;> rfl

/-- A change of one node's clients is seen at its own path only, and the nodes
that `find` creates on the way there have no clients. -/
theorem clientsAt_findThen {create : Bool} {f : Node → Node} {g : List Fd → List Fd}
    (clients : ∀ n, (f n).clients = g n.clients) (below : ∀ n, (f n).mNodes = n.mNodes)
    {path : List UInt32} {n m : Node} (h : n.findThen create f path = some m) (q : List UInt32) :
    m.clientsAt q = if q = path then g (n.clientsAt q) else n.clientsAt q := by
  induction path generalizing n m q with
  | nil =>
    obtain rfl : f n = m := by simpa [findThen] using h
    cases q with
    | nil => simp [clientsAt, clients]
    | cons k q => simp [clientsAt, find, below]
  | cons id path ih =>
    have step {child c : Node} (hc : child.findThen create f path = some c)
        (same : ∀ q, child.clientsAt q = n.clientsAt (id :: q)) :
        (n.setNode id c).clientsAt q =
          if q = id :: path then g (n.clientsAt q) else n.clientsAt q := by
      cases q with
      | nil => simp [clientsAt]
      | cons k q =>
        by_cases hk : k = id
        · subst hk
          have := ih hc q
          simp only [same] at this
          simpa [clientsAt, find_setNode] using this
        · simp [clientsAt, find_setNode, hk]
    cases hf : n.find id with
    | some child =>
      simp only [findThen, hf, Option.map_eq_some_iff] at h
      obtain ⟨c, hc, rfl⟩ := h
      exact step hc fun q => by simp [clientsAt, hf]
    | none =>
      cases create with
      | false => simp [findThen, hf] at h
      | true =>
        simp only [findThen, hf, if_true, Option.map_eq_some_iff] at h
        obtain ⟨c, hc, rfl⟩ := h
        exact step hc fun q => by simp [clientsAt, hf, clientsAt_fresh]

/-- With `create` set a node is always found. -/
theorem findThen_create (f : Node → Node) (path : List UInt32) (n : Node) :
    ∃ m, n.findThen true f path = some m := by
  induction path generalizing n with
  | nil => exact ⟨f n, rfl⟩
  | cons id path ih =>
    cases hf : n.find id with
    | some child =>
      obtain ⟨m, hm⟩ := ih child
      exact ⟨n.setNode id m, by simp [findThen, hf, hm]⟩
    | none =>
      obtain ⟨m, hm⟩ := ih fresh
      exact ⟨n.setNode id m, by simp [findThen, hf, hm]⟩

/-- Where `find` returns NULL there is no node, so no client either. -/
theorem clientsAt_of_null {f : Node → Node} {path : List UInt32} {n : Node}
    (h : n.findThen false f path = none) : n.clientsAt path = [] := by
  induction path generalizing n with
  | nil => simp [findThen] at h
  | cons id path ih =>
    cases hf : n.find id with
    | some child =>
      have hc : child.findThen false f path = none := by simpa [findThen, hf] using h
      simp [clientsAt, hf, ih hc]
    | none => simp [clientsAt, hf]

theorem lookup_removeFromNodes (fd : Fd) (ns : List (UInt32 × Node)) (id : UInt32) :
    (removeFromNodes fd ns).lookup id = (ns.lookup id).map (removeFromTree fd) := by
  induction ns with
  | nil => rfl
  | cons p ns ih =>
    obtain ⟨k, n⟩ := p
    simp only [removeFromNodes, List.lookup_cons]
    split
    · rfl
    · exact ih

theorem find_removeFromTree (fd : Fd) (n : Node) (id : UInt32) :
    (n.removeFromTree fd).find id = (n.find id).map (removeFromTree fd) := by
  cases n with
  | mk cs ns => simp [removeFromTree, remove, find, mNodes, lookup_removeFromNodes]

/-- The removal of a client reaches every node. -/
theorem clientsAt_removeFromTree (fd : Fd) (q : List UInt32) (n : Node) :
    (n.removeFromTree fd).clientsAt q = setErase (n.clientsAt q) fd := by
  induction q generalizing n with
  | nil =>
    cases n with
    | mk cs ns => simp [clientsAt, removeFromTree, remove, clients]
  | cons id q ih =>
    cases hf : n.find id with
    | none => simp [clientsAt, find_removeFromTree, hf, setErase]
    | some child => simp [clientsAt, find_removeFromTree, hf, ih]

end Node

/-- The node at each path has the clients registered for that key. -/
def Represents (t : ClientTree) (R : Registry) : Prop :=
  ∀ fd q, fd ∈ t.head.clientsAt q ↔ (fd, q) ∈ R

theorem represents_empty : Represents .empty ∅ := by
  intro fd q
  simp [ClientTree.empty, Node.clientsAt_fresh]

theorem represents_reg {t : ClientTree} {R : Registry} (h : Represents t R) (fd : Fd)
    (key : EventKey) : Represents (t.regClient fd key).1 (R ∪ {(fd, key.words)}) := by
  obtain ⟨m, hm⟩ := Node.findThen_create (·.insert fd) key.words t.head
  intro c q
  have at_q := Node.clientsAt_findThen (f := (·.insert fd)) (g := (setInsert · fd))
    (fun _ => rfl) (fun _ => rfl) hm q
  simp only [ClientTree.regClient, hm, at_q]
  by_cases hq : q = key.words
  · subst hq
    simp [h c]
  · rw [if_neg hq, h c q]
    simp [hq]

theorem represents_dereg {t : ClientTree} {R : Registry} (h : Represents t R) (fd : Fd)
    (key : EventKey) : Represents (t.deregClient fd key).1 (R \ {(fd, key.words)}) := by
  intro c q
  cases hm : t.head.findThen false (·.remove fd) key.words with
  | none =>
    have absent := Node.clientsAt_of_null hm
    simp only [ClientTree.deregClient, hm, h c q, Set.mem_sdiff, Set.mem_singleton_iff]
    refine ⟨fun hc => ⟨hc, ?_⟩, And.left⟩
    rintro ⟨rfl, rfl⟩
    simpa [absent] using (h _ _).mpr hc
  | some m =>
    have at_q := Node.clientsAt_findThen (f := (·.remove fd)) (g := (setErase · fd))
      (fun _ => rfl) (fun _ => rfl) hm q
    simp only [ClientTree.deregClient, hm, at_q]
    by_cases hq : q = key.words
    · subst hq
      simp [h c]
    · rw [if_neg hq, h c q]
      simp [hq]

theorem represents_remove {t : ClientTree} {R : Registry} (h : Represents t R) (fd : Fd) :
    Represents (t.removeFromTree fd) {p ∈ R | p.1 ≠ fd} := by
  intro c q
  simp [ClientTree.removeFromTree, Node.clientsAt_removeFromTree, h c q]

/-- A call that changes the registrations. -/
inductive Request
  | reg (fd : Fd) (key : EventKey)
  | dereg (fd : Fd) (key : EventKey)
  | removeFromTree (fd : Fd)

/-- The code's tree after a call. -/
def ClientTree.serve (t : ClientTree) : Request → ClientTree
  | .reg fd key => (t.regClient fd key).1
  | .dereg fd key => (t.deregClient fd key).1
  | .removeFromTree fd => t.removeFromTree fd

/-- What the call means for the set of registered pairs. -/
def Registry.serve (R : Registry) : Request → Registry
  | .reg fd key => R ∪ {(fd, key.words)}
  | .dereg fd key => R \ {(fd, key.words)}
  | .removeFromTree fd => {p ∈ R | p.1 ≠ fd}

theorem represents_serve {t : ClientTree} {R : Registry} (h : Represents t R) (r : Request) :
    Represents (t.serve r) (R.serve r) := by
  cases r with
  | reg fd key => exact represents_reg h fd key
  | dereg fd key => exact represents_dereg h fd key
  | removeFromTree fd => exact represents_remove h fd

theorem represents_run (rs : List Request) :
    Represents (rs.foldl ClientTree.serve .empty) (rs.foldl Registry.serve ∅) := by
  have run (t : ClientTree) (R : Registry) (h : Represents t R) :
      Represents (rs.foldl ClientTree.serve t) (rs.foldl Registry.serve R) := by
    induction rs generalizing t R with
    | nil => exact h
    | cons r rs ih => exact ih _ _ (represents_serve h r)
  exact run _ _ represents_empty

/-- Each client in `alreadySent` was sent to once, and nobody else. -/
def Delivery.Once (d : Delivery) : Prop :=
  ∀ fd, (d.attempts.map Attempt.fd).count fd = if fd ∈ d.alreadySent then 1 else 0

theorem once_none : Delivery.none.Once := by
  intro fd
  simp [Delivery.none]

theorem once_one {d : Delivery} (h : d.Once) (send : Nat → Bool) (msg : EventMsg) (fd : Fd) :
    (d.one send msg fd).Once := by
  unfold Delivery.one
  split
  · exact h
  · rename_i new
    intro c
    by_cases hc : c = fd
    · subst hc
      have := h c
      simp_all
    · have := h c
      simp_all [eq_comm]

theorem sent_one (d : Delivery) (send : Nat → Bool) (msg : EventMsg) (fd c : Fd) :
    c ∈ (d.one send msg fd).alreadySent ↔ c ∈ d.alreadySent ∨ c = fd := by
  unfold Delivery.one
  split
  · rename_i old
    constructor
    · exact .inl
    · rintro (hc | rfl)
      · exact hc
      · exact old
  · simp [or_comm]

theorem publish_node (send : Nat → Bool) (msg : EventMsg) (n : Node) {d : Delivery} (h : d.Once) :
    (n.publish send msg d).Once ∧
    ∀ c, c ∈ (n.publish send msg d).alreadySent ↔ c ∈ d.alreadySent ∨ c ∈ n.clients := by
  unfold Node.publish
  generalize n.clients = cs
  induction cs generalizing d with
  | nil => exact ⟨h, by simp⟩
  | cons fd cs ih =>
    obtain ⟨once, sent⟩ := ih (once_one h send msg fd)
    refine ⟨once, fun c => ?_⟩
    rw [List.foldl_cons, sent, sent_one, List.mem_cons, or_assoc]

/-- The clients reached are those of the nodes on the path of the key. -/
theorem publish_along (send : Nat → Bool) (msg : EventMsg) (list : List UInt32) (n : Node)
    {d : Delivery} (h : d.Once) :
    (n.publishAlong send msg list d).Once ∧
    ∀ c, c ∈ (n.publishAlong send msg list d).alreadySent ↔
      c ∈ d.alreadySent ∨ ∃ q, q ≠ [] ∧ q <+: list ∧ c ∈ n.clientsAt q := by
  induction list generalizing n d with
  | nil =>
    refine ⟨h, fun c => ?_⟩
    simp only [Node.publishAlong, List.prefix_nil]
    grind
  | cons id list ih =>
    cases hf : n.find id with
    | none =>
      simp only [Node.publishAlong, hf]
      refine ⟨h, fun c => ⟨.inl, ?_⟩⟩
      rintro (sent | ⟨q, hq, pre, hc⟩)
      · exact sent
      · cases q with
        | nil => exact absurd rfl hq
        | cons k q =>
          obtain ⟨rfl, _⟩ := List.cons_prefix_cons.mp pre
          simp [Node.clientsAt, hf] at hc
    | some child =>
      obtain ⟨onceHere, sentHere⟩ := publish_node send msg child h
      obtain ⟨once, sent⟩ := ih child onceHere
      simp only [Node.publishAlong, hf]
      refine ⟨once, fun c => ?_⟩
      rw [sent, sentHere, or_assoc]
      refine or_congr_right ⟨?_, ?_⟩
      · rintro (here | ⟨q, hq, pre, hc⟩)
        · exact ⟨[id], by simp, by simp, by simpa [Node.clientsAt, hf] using here⟩
        · exact ⟨id :: q, by simp, by simpa using pre, by simpa [Node.clientsAt, hf] using hc⟩
      · rintro ⟨q, hq, pre, hc⟩
        cases q with
        | nil => exact absurd rfl hq
        | cons k q =>
          obtain ⟨rfl, tail⟩ := List.cons_prefix_cons.mp pre
          have hc : c ∈ child.clientsAt q := by simpa [Node.clientsAt, hf] using hc
          by_cases hq : q = []
          · subst hq; exact .inl hc
          · exact .inr ⟨q, hq, tail, hc⟩

/-- Clients register for keys of at least one word. -/
def Request.Valid : Request → Prop
  | .reg _ key | .dereg _ key => 1 ≤ key.len.toNat
  | .removeFromTree _ => True

theorem EventKey.words_ne_nil {k : EventKey} (h : 1 ≤ k.len.toNat) : k.words ≠ [] := by
  apply List.ne_nil_of_length_pos
  simp only [EventKey.words, List.length_take, Vector.length_toList]
  omega

/-- No pair is registered for the empty key. -/
theorem registry_keys (rs : List Request) (valid : ∀ r ∈ rs, r.Valid) (fd : Fd) :
    (fd, []) ∉ rs.foldl Registry.serve ∅ := by
  have run (R : Registry) (h : (fd, []) ∉ R) : (fd, []) ∉ rs.foldl Registry.serve R := by
    induction rs generalizing R with
    | nil => exact h
    | cons r rs ih =>
      refine ih (fun r hr => valid r (List.mem_cons_of_mem _ hr)) _ ?_
      have hr := valid r (by simp)
      cases r with
      | reg c key =>
        have hk := EventKey.words_ne_nil (k := key) hr
        simp [Registry.serve, h, hk.symm]
      | dereg c key => simp [Registry.serve, h]
      | removeFromTree c => simp [Registry.serve, h]
  exact run ∅ (by simp)

/-- **Event routing.** After any requests, publishing a message tries exactly
one send to a client when some key registered for it is a prefix of the key of
the message, and none otherwise, whichever sends fail. -/
theorem publish_reaches_registered (rs : List Request) (valid : ∀ r ∈ rs, r.Valid)
    (msg : EventMsg) (send : Nat → Bool) (fd : Fd) :
    let R := rs.foldl Registry.serve ∅
    let sent := ((rs.foldl ClientTree.serve .empty).publish send msg).attempts.map Attempt.fd
    ((∃ key, (fd, key) ∈ R ∧ key <+: msg.key.words) → sent.count fd = 1) ∧
    ((¬ ∃ key, (fd, key) ∈ R ∧ key <+: msg.key.words) → sent.count fd = 0) := by
  intro R sent
  obtain ⟨once, reached⟩ := publish_along send msg msg.key.words
    (rs.foldl ClientTree.serve .empty).head once_none
  have match_iff : fd ∈ ((rs.foldl ClientTree.serve .empty).publish send msg).alreadySent ↔
      ∃ key, (fd, key) ∈ R ∧ key <+: msg.key.words := by
    rw [ClientTree.publish, reached]
    simp only [Delivery.none, List.not_mem_nil, false_or, represents_run rs fd]
    constructor
    · rintro ⟨q, _, pre, hq⟩; exact ⟨q, hq, pre⟩
    · rintro ⟨q, hq, pre⟩
      refine ⟨q, ?_, pre, hq⟩
      rintro rfl
      exact registry_keys rs valid fd hq
  have count := once fd
  constructor
  · intro h
    exact count.trans (if_pos (match_iff.mpr h))
  · intro h
    exact count.trans (if_neg (fun hs => h (match_iff.mp hs)))

/-- Client 4 registers the keys `[0]` and `[0, 1]`, and gets one copy of a
message for `[0, 1]` although the send fails. -/
theorem publish_reaches_registered_overlap :
    let words : Vector UInt32 16 := #v[0, 1, 0, 0, 0, 0, 0, 0, 0, 0, 0, 0, 0, 0, 0, 0]
    let one : EventKey := ⟨1, words, by decide⟩
    let two : EventKey := ⟨2, words, by decide⟩
    let t := [Request.reg 4 one, .reg 4 two].foldl ClientTree.serve .empty
    ((t.publish (fun _ => false) ⟨two, []⟩).attempts.map Attempt.fd).count 4 = 1 := by
  intro words one two t
  refine (publish_reaches_registered [.reg 4 one, .reg 4 two] ?_ ⟨two, []⟩
    (fun _ => false) 4).1 ⟨two.words, ?_, List.prefix_rfl⟩
  · intro r hr
    rcases List.mem_pair.mp hr with rfl | rfl <;> simp [Request.Valid, one, two]
  · simp [Registry.serve]

end SonicUtils.Event
