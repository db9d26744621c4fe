import SonicUtils.Radix.Exact

/-!
# Writes to a radix table

What a write leaves alone in the trie that a table stores, and how the pointer
into a hole is moved.

* `mem_congr`, `Represents.congr`: only the nodes and heads of the trie matter;
* `replaceChild_eq`, `linkedAbove_repoint`: the pointer into a hole;
* `Settled.of_quiet`: the settings of a table.
-/

namespace SonicUtils.Radix

open PtrTree BitTrie LinkedList

variable {rtt rtt' : Rtt} {i j : NodeId} {n : RtNode}

theorem nodes_setNode : (rtt.setNode i n).nodes j = if j = i then some n else rtt.nodes j :=
  Function.update_apply ..

@[simp] theorem heads_setNode : (rtt.setNode i n).heads = rtt.heads := rfl

@[simp] theorem root_setNode : (rtt.setNode i n).rttRoot = rtt.rttRoot := rfl

theorem setNode_setNode {m : RtNode} : (rtt.setNode i n).setNode i m = rtt.setNode i m := by
  simp [Rtt.setNode]

theorem setNode_writeHead {n' : RtNode} {rth : HeadId} {f : RtHead → RtHead} :
    ((rtt.setNode i n).writeHead rth f).setNode i n' = (rtt.setNode i n').writeHead rth f := by
  simp [Rtt.setNode, Rtt.writeHead]

theorem setNode_self (live : rtt.nodes i = some n) : rtt.setNode i n = rtt := by
  unfold Rtt.setNode
  rw [← live, Function.update_eq_self]

theorem nodes_addNode : (rtt.addNode i n).nodes j = if j = i then some n else rtt.nodes j :=
  Function.update_apply ..

@[simp] theorem heads_addNode : (rtt.addNode i n).heads = rtt.heads := rfl

@[simp] theorem root_addNode : (rtt.addNode i n).rttRoot = rtt.rttRoot := rfl

theorem nodes_freeNode : (rtt.freeNode i).nodes j = if j = i then none else rtt.nodes j :=
  Function.update_apply ..

@[simp] theorem heads_freeNode : (rtt.freeNode i).heads = rtt.heads := rfl

@[simp] theorem root_freeNode : (rtt.freeNode i).rttRoot = rtt.rttRoot := rfl

@[simp] theorem nodes_addRoute : rtt.addRoute.nodes = rtt.nodes := rfl

@[simp] theorem heads_addRoute : rtt.addRoute.heads = rtt.heads := rfl

@[simp] theorem root_addRoute : rtt.addRoute.rttRoot = rtt.rttRoot := rfl

@[simp] theorem nodes_setRoot {p : Option NodeId} : (rtt.setRoot p).nodes = rtt.nodes := rfl

@[simp] theorem heads_setRoot {p : Option NodeId} : (rtt.setRoot p).heads = rtt.heads := rfl

@[simp] theorem root_setRoot {p : Option NodeId} : (rtt.setRoot p).rttRoot = p := rfl

@[simp] theorem nodes_writeHead {rth : HeadId} {f : RtHead → RtHead} :
    (rtt.writeHead rth f).nodes = rtt.nodes := rfl

theorem heads_writeHead {rth h : HeadId} {f : RtHead → RtHead} :
    (rtt.writeHead rth f).heads h = if h = rth then f (rtt.heads rth) else rtt.heads h :=
  Function.update_apply ..

@[simp] theorem root_writeHead {rth : HeadId} {f : RtHead → RtHead} :
    (rtt.writeHead rth f).rttRoot = rtt.rttRoot := rfl

theorem write_of (f : RtNode → RtNode) (live : rtt.nodes i = some n) :
    rtt.write i f = .ok (rtt.setNode i (f n)) := by
  simp [Rtt.write, node_of live]

@[simp] theorem nodes_usrFree : rtt.usrFree.nodes = rtt.nodes := by
  unfold Rtt.usrFree
  split <;> rfl

@[simp] theorem heads_usrFree : rtt.usrFree.heads = rtt.heads := by
  unfold Rtt.usrFree
  split <;> rfl

@[simp] theorem root_usrFree : rtt.usrFree.rttRoot = rtt.rttRoot := by
  unfold Rtt.usrFree
  split <;> rfl

@[simp] theorem clhead_usrFree : rtt.usrFree.rttClhead = rtt.rttClhead := by
  unfold Rtt.usrFree
  split <;> rfl

@[simp] theorem nodes_releaseHead {v : Option HeadId} : (rtt.releaseHead v).nodes = rtt.nodes := by
  cases v <;> simp [Rtt.releaseHead]

@[simp] theorem root_releaseHead {v : Option HeadId} : (rtt.releaseHead v).rttRoot = rtt.rttRoot := by
  cases v <;> simp [Rtt.releaseHead]

theorem ensures_node {β : Type} {f : RtNode → Except Fault β} {Q : β → Prop}
    (rest : ∀ n, rtt.nodes i = some n → Ensures (f n) Q) : Ensures (rtt.node i >>= f) Q := by
  cases live : rtt.nodes i with
  | some n =>
    rw [node_of live, ok_bind]
    exact rest n live
  | none =>
    constructor
    intro b run
    simp only [Rtt.node, live] at run
    cases run

theorem ensures_write {f : RtNode → RtNode} {Q : Rtt → Prop}
    (rest : ∀ n, rtt.nodes i = some n → Q (rtt.setNode i (f n))) : Ensures (rtt.write i f) Q := by
  unfold Rtt.write
  apply ensures_node
  intro n live
  exact .pure (rest n live)

/-- The head takes the place of a marked one, or of none. -/
theorem insertAttach_eq (rth : HeadId) (live : rtt.nodes i = some n)
    (free : n.marked = true ∨ n.rtnRth = none) :
    insertAttach rtt rth i n = .ok (some rth, (((rtt.releaseHead n.rtnRth).setNode i
      { n with rtnRth := some rth, rtnFlags := n.rtnFlags &&& ~~~ deleBit }).writeHead rth
        fun h => { h with rthRtn := some i }).addRoute) := by
  have taken : ¬ ((!n.marked && n.rtnRth.isSome) = true) := by
    rcases free with marked | none
    · simp [marked]
    · simp [none]
  let m := rtt.releaseHead n.rtnRth
  let n₁ : RtNode := { n with rtnRth := some rth }
  let m₁ := (m.setNode i n₁).writeHead rth fun h => { h with rthRtn := some i }
  have first : m.write i (fun n => { n with rtnRth := some rth }) = .ok (m.setNode i n₁) :=
    write_of _ (by simpa [m] using live)
  have second : m₁.write i (fun n => { n with rtnFlags := n.rtnFlags &&& ~~~ deleBit }) =
      .ok (m₁.setNode i { n₁ with rtnFlags := n.rtnFlags &&& ~~~ deleBit }) :=
    write_of _ (by simp [m₁, nodes_setNode])
  have swap : m₁.setNode i { n₁ with rtnFlags := n.rtnFlags &&& ~~~ deleBit } =
      (m.setNode i { n₁ with rtnFlags := n.rtnFlags &&& ~~~ deleBit }).writeHead rth
        fun h => { h with rthRtn := some i } := setNode_writeHead
  unfold insertAttach
  rw [if_neg taken]
  simp only [m] at first
  simp only [first, ok_bind]
  rw [second, ok_bind, swap]
  rfl

/-! ## What the trie depends on -/

/-- The node and its head are the same in both tables. -/
def Keeps (rtt rtt' : Rtt) (x : Node NodeId HeadId) : Prop :=
  rtt'.nodes x.1 = rtt.nodes x.1 ∧ ∀ rth, x.2.val = some rth → rtt'.heads rth = rtt.heads rth

theorem Rtt.Attached.congr {rth : HeadId} {q : List Bool} (heads : rtt'.heads rth = rtt.heads rth)
    (h : rtt.Attached rth i q) : rtt'.Attached rth i q := by
  rw [Rtt.Attached, heads]
  exact h

theorem mem_congr {x : Node NodeId HeadId} {k : Links NodeId} (keeps : Keeps rtt rtt' x)
    (h : rtt.mem x.1 k x.2) : rtt'.mem x.1 k x.2 := by
  obtain ⟨⟨n, live, holds⟩, att⟩ := h
  exact ⟨⟨n, keeps.1.trans live, holds⟩, fun rth hv => (att rth hv).congr (keeps.2 rth hv)⟩

theorem Represents.congr {t : RtTree} (h : Represents rtt t) (root : rtt'.rttRoot = rtt.rttRoot)
    (len : rtt'.rttMaxaddrlen = rtt.rttMaxaddrlen) (keeps : ∀ x ∈ nodes t, Keeps rtt rtt' x) :
    Represents rtt' t where
  root := root.trans h.root
  linked := h.linked.mono fun x hx _ => mem_congr (keeps x hx)
  distinct := h.distinct
  trie := h.trie
  bounded := by rw [len]; exact h.bounded

/-- The head has no node in the trie. -/
def Loose (rth : HeadId) (t : RtTree) : Prop := ∀ x ∈ nodes t, x.2.val ≠ some rth

theorem loose_iff {rth : HeadId} {t : RtTree} : Loose rth t ↔ ∀ k, (k, rth) ∉ entries t := by
  constructor
  · intro loose k bound
    obtain ⟨x, hx, own⟩ := mem_entries.mp bound
    exact loose x hx (mem_own.mp own).1
  · intro none x hx val
    exact none x.2.stem (mem_entries.mpr ⟨x, hx, mem_own.mpr ⟨val, rfl⟩⟩)

theorem Linked.live {p : Option NodeId} {t : RtTree} (h : Linked rtt.mem p t) {i : NodeId}
    (hi : i ∈ ids t) : rtt.nodes i ≠ none := by
  obtain ⟨x, hx, rfl⟩ := List.mem_map.mp hi
  obtain ⟨k, ⟨n, live, _⟩, _⟩ := PtrTree.Linked.holds h hx
  simp [live]

/-- Every node is changed. -/
def Rtt.mapNodes (rtt : Rtt) (g : NodeId → RtNode → RtNode) : Rtt :=
  { rtt with nodes := fun i => (rtt.nodes i).map (g i) }

theorem nodes_mapNodes {g : NodeId → RtNode → RtNode} :
    (rtt.mapNodes g).nodes i = (rtt.nodes i).map (g i) := rfl

theorem setNode_eq_mapNodes (f : RtNode → RtNode) (live : rtt.nodes i = some n) :
    rtt.setNode i (f n) = rtt.mapNodes fun j m => if j = i then f m else m := by
  unfold Rtt.setNode Rtt.mapNodes
  congr 1
  funext j
  rw [Function.update_apply]
  split
  · subst j
    simp [live]
  · simp [*]

theorem mapNodes_mapNodes {g g' : NodeId → RtNode → RtNode} :
    (rtt.mapNodes g).mapNodes g' = rtt.mapNodes fun i n => g' i (g i n) := by
  simp [Rtt.mapNodes, Function.comp_def]

/-- Locks, marks and versions are no part of the trie. -/
theorem Represents.mapNodes {t : RtTree} (h : Represents rtt t) {g : NodeId → RtNode → RtNode}
    (keeps : ∀ i n k lab, RtNode.Holds n k lab → (g i n).Holds k lab) :
    Represents (rtt.mapNodes g) t := by
  refine ⟨h.root, h.linked.mono fun x _ k held => ?_, h.distinct, h.trie, h.bounded⟩
  obtain ⟨⟨n, live, holds⟩, att⟩ := held
  refine ⟨⟨g x.1 n, ?_, keeps x.1 n k x.2 holds⟩, att⟩
  rw [nodes_mapNodes, live]
  rfl

/-- What `rtt_malloc` gives is not in the trie. -/
theorem Represents.fresh {t : RtTree} (h : Represents rtt t) (free : rtt.nodes i = none) :
    i ∉ ids t := fun hi => Linked.live h.linked hi free

/-! ## The pointer into a hole -/

def RtNode.setSide (n : RtNode) (side : Bool) (p : Option NodeId) : RtNode :=
  if side then { n with rtnRight := p } else { n with rtnLeft := p }

@[simp] theorem lock_setSide {b : Bool} {p : Option NodeId} : (n.setSide b p).rtnLock = n.rtnLock := by
  cases b <;> rfl

@[simp] theorem flags_setSide {b : Bool} {p : Option NodeId} :
    (n.setSide b p).rtnFlags = n.rtnFlags := by
  cases b <;> rfl

@[simp] theorem parent_setSide {b : Bool} {p : Option NodeId} :
    (n.setSide b p).rtnParent = n.rtnParent := by
  cases b <;> rfl

/-- The table with the pointer into the hole below `fs` set to `new`. -/
def Rtt.repoint (rtt : Rtt) (fs : List (Frame (Node NodeId HeadId))) (new : Option NodeId) : Rtt :=
  match fs with
  | [] => rtt.setRoot new
  | f :: _ =>
    { rtt with nodes := fun i =>
        if i = f.node.1 then (rtt.nodes i).map (·.setSide f.side new) else rtt.nodes i }

theorem nodes_repoint (rtt : Rtt) {fs : List (Frame (Node NodeId HeadId))} (new : Option NodeId)
    (h : up fs ≠ some i) : (rtt.repoint fs new).nodes i = rtt.nodes i := by
  cases fs with
  | nil => rfl
  | cons f fs =>
    have ne : i ≠ f.node.1 := fun same => h (by rw [same]; rfl)
    exact if_neg ne

@[simp] theorem heads_repoint {fs : List (Frame (Node NodeId HeadId))} {new : Option NodeId} :
    (rtt.repoint fs new).heads = rtt.heads := by
  cases fs <;> rfl

theorem repoint_cons {f : Frame (Node NodeId HeadId)} {fs : List (Frame (Node NodeId HeadId))}
    {new : Option NodeId} (live : rtt.nodes f.node.1 = some n) :
    rtt.repoint (f :: fs) new = rtt.setNode f.node.1 (n.setSide f.side new) := by
  have nodes : (fun i => if i = f.node.1 then (rtt.nodes i).map (·.setSide f.side new) else rtt.nodes i) =
      Function.update rtt.nodes f.node.1 (some (n.setSide f.side new)) := by
    funext i
    by_cases same : i = f.node.1
    · simp [same, live]
    · simp [same]
  rw [Rtt.repoint, nodes, Rtt.setNode]

theorem replaceChild_eq {fs : List (Frame (Node NodeId HeadId))} {old : NodeId} (new : Option NodeId)
    (rightFirst : Bool) (above : LinkedAbove rtt.mem (some old) fs)
    (apart : ∀ f ∈ fs, old ∉ ids f.other) :
    rtt.replaceChild (up fs) old new rightFirst = .ok (rtt.repoint fs new) := by
  cases fs with
  | nil => rfl
  | cons f fs =>
    obtain ⟨⟨n, live, holds⟩, _⟩ := above.1
    have others : root f.other ≠ some old := fun same => apart f (by simp) (root_mem_ids same)
    rw [repoint_cons live]
    cases f with
    | mk side x other =>
      cases side with
      | false =>
        have left : n.rtnLeft = some old := holds.left
        have right : n.rtnRight ≠ some old := holds.right ▸ others
        cases rightFirst <;>
          simp [Rtt.replaceChild, node_of live, left, right, write_of _ live, RtNode.setSide]
      | true =>
        have right : n.rtnRight = some old := holds.right
        have left : n.rtnLeft ≠ some old := holds.left ▸ others
        cases rightFirst <;>
          simp [Rtt.replaceChild, node_of live, left, right, write_of _ live, RtNode.setSide]

theorem linkedAbove_repoint {fs : List (Frame (Node NodeId HeadId))} (hole new : Option NodeId) (above : LinkedAbove rtt.mem hole fs)
    (distinct : ((nodesAbove fs).map Prod.fst).Nodup) :
    LinkedAbove (rtt.repoint fs new).mem new fs := by
  cases fs with
  | nil => trivial
  | cons f fs =>
    apply above.repoint
    · obtain ⟨⟨n, live, holds⟩, att⟩ := above.1
      refine ⟨⟨n.setSide f.side new, by simp [Rtt.repoint, live], ?_⟩, att⟩
      cases f with
      | mk side x other =>
        obtain ⟨left, right, parent, bit, tbit, rth⟩ := holds
        cases side with
        | false => exact ⟨rfl, right, parent, bit, tbit, rth⟩
        | true => exact ⟨left, rfl, parent, bit, tbit, rth⟩
    · intro x hx k
      have fst : x.1 ≠ f.node.1 := by
        intro same
        rw [nodesAbove_cons, List.map_cons, List.nodup_cons] at distinct
        exact distinct.1 (same ▸ List.mem_map_of_mem hx)
      apply mem_congr
      refine ⟨nodes_repoint rtt new fun same => fst (Option.some.inj same).symm, fun rth _ => ?_⟩
      rw [heads_repoint]

theorem root_repoint {fs : List (Frame (Node NodeId HeadId))} {t : RtTree} (t' : RtTree)
    (h : rtt.rttRoot = root (plug fs t)) :
    (rtt.repoint fs (root t')).rttRoot = root (plug fs t') := by
  cases fs with
  | nil => rfl
  | cons f fs => exact h.trans (root_plug_cons f fs t' t)

/-- A table stores a filled trie if it holds the parts and the parts fit. -/
theorem Represents.of_parts {fs : List (Frame (Node NodeId HeadId))} {t : RtTree}
    (hroot : rtt.rttRoot = PtrTree.root (plug fs t)) (linked : Linked rtt.mem (up fs) t)
    (linkedAbove : LinkedAbove rtt.mem (PtrTree.root t) fs) (distinct : (ids (plug fs t)).Nodup)
    (trie : Trie (stemAbove fs) t) (trieAbove : TrieAbove fs) (hole : t = .nil → MayBeEmpty fs)
    (bounded : ∀ x ∈ nodes (plug fs t), x.2.stem.length ≤ rtt.rttMaxaddrlen) :
    Represents rtt (plug fs t) where
  root := hroot
  linked := linked_plug.mpr ⟨linked, linkedAbove⟩
  distinct := distinct
  trie := trie_plug.mpr ⟨trie, trieAbove, hole⟩
  bounded := bounded

/-! ## Settings -/

/-- The fields of a table that insertions and removals only read. -/
structure SameSetup (rtt rtt' : Rtt) : Prop where
  magic : rtt'.rttMagic = rtt.rttMagic
  convert : rtt'.rttConvert = rtt.rttConvert
  len : rtt'.rttMaxaddrlen = rtt.rttMaxaddrlen
  debug : rtt'.rttDebug = rtt.rttDebug
  rmfree : rtt'.rttRmfree = rtt.rttRmfree
  radical : rtt'.rttRadicalused = rtt.rttRadicalused
  car : rtt'.rttCarused = rtt.rttCarused

theorem SameSetup.refl (rtt : Rtt) : SameSetup rtt rtt := ⟨rfl, rfl, rfl, rfl, rfl, rfl, rfl⟩

theorem SameSetup.trans {rtt'' : Rtt} (h : SameSetup rtt rtt') (h' : SameSetup rtt' rtt'') :
    SameSetup rtt rtt'' where
  magic := h'.magic.trans h.magic
  convert := h'.convert.trans h.convert
  len := h'.len.trans h.len
  debug := h'.debug.trans h.debug
  rmfree := h'.rmfree.trans h.rmfree
  radical := h'.radical.trans h.radical
  car := h'.car.trans h.car

theorem sameSetup_setNode (rtt : Rtt) (i : NodeId) (n : RtNode) : SameSetup rtt (rtt.setNode i n) :=
  ⟨rfl, rfl, rfl, rfl, rfl, rfl, rfl⟩

theorem sameSetup_addNode (rtt : Rtt) (i : NodeId) (n : RtNode) : SameSetup rtt (rtt.addNode i n) :=
  ⟨rfl, rfl, rfl, rfl, rfl, rfl, rfl⟩

theorem sameSetup_freeNode (rtt : Rtt) (i : NodeId) : SameSetup rtt (rtt.freeNode i) :=
  ⟨rfl, rfl, rfl, rfl, rfl, rfl, rfl⟩

theorem sameSetup_writeHead (rtt : Rtt) (h : HeadId) (f : RtHead → RtHead) : SameSetup rtt (rtt.writeHead h f) :=
  ⟨rfl, rfl, rfl, rfl, rfl, rfl, rfl⟩

theorem sameSetup_setRoot (rtt : Rtt) (new : Option NodeId) : SameSetup rtt (rtt.setRoot new) :=
  ⟨rfl, rfl, rfl, rfl, rfl, rfl, rfl⟩

theorem sameSetup_addRoute (rtt : Rtt) : SameSetup rtt rtt.addRoute := ⟨rfl, rfl, rfl, rfl, rfl, rfl, rfl⟩

theorem sameSetup_dropRoute (rtt : Rtt) : SameSetup rtt rtt.dropRoute := ⟨rfl, rfl, rfl, rfl, rfl, rfl, rfl⟩

theorem sameSetup_countInsert (rtt : Rtt) : SameSetup rtt rtt.countInsert := ⟨rfl, rfl, rfl, rfl, rfl, rfl, rfl⟩

theorem sameSetup_countRemove (rtt : Rtt) : SameSetup rtt rtt.countRemove := ⟨rfl, rfl, rfl, rfl, rfl, rfl, rfl⟩

theorem sameSetup_repoint (fs : List (Frame (Node NodeId HeadId))) (new : Option NodeId) :
    SameSetup rtt (rtt.repoint fs new) := by
  cases fs <;> exact ⟨rfl, rfl, rfl, rfl, rfl, rfl, rfl⟩

@[simp] theorem clhead_repoint {fs : List (Frame (Node NodeId HeadId))} {new : Option NodeId} :
    (rtt.repoint fs new).rttClhead = rtt.rttClhead := by
  cases fs <;> rfl

/-- A change of the trie leaves the rest of the table alone, locks and flags apart. -/
structure Still (rtt rtt' : Rtt) : Prop where
  setup : SameSetup rtt rtt'
  addrs : ∀ h, (rtt'.heads h).rthAddr = (rtt.heads h).rthAddr
  clhead : rtt'.rttClhead = rtt.rttClhead

theorem Still.trans {rtt'' : Rtt} (h : Still rtt rtt') (h' : Still rtt' rtt'') : Still rtt rtt'' where
  setup := h.setup.trans h'.setup
  addrs i := (h'.addrs i).trans (h.addrs i)
  clhead := h'.clhead.trans h.clhead

/-- A change of the trie leaves the rest of the table alone. -/
structure Quiet (rtt rtt' : Rtt) : Prop extends Still rtt rtt' where
  unlocked : Unlocked rtt'

theorem Settled.of_quiet (s : Settled rtt) (q : Quiet rtt rtt') : Settled rtt' where
  magic := q.setup.magic.trans s.magic
  convert := q.setup.convert.trans s.convert
  fits := q.setup.len ▸ s.fits
  unlocked := q.unlocked
  unlisted := q.clhead ▸ s.unlisted

/-- A change of the trie, after which the nodes may be locked and marked. -/
theorem Ready.of_still (ready : Ready rtt) (still : Still rtt rtt') : Ready rtt' where
  magic := still.setup.magic.trans ready.magic
  fits := still.setup.len ▸ ready.fits

/-- The heads of nodes. -/
def Rtt.stored (rtt : Rtt) : Set HeadId := {rth | ∃ i n, rtt.nodes i = some n ∧ n.rtnRth = some rth}

/-- No node is locked. -/
def Lockfree (rtt : Rtt) : Prop := ∀ i n, rtt.nodes i = some n → n.rtnLock = 0

/-- Only nodes with a head are locked. -/
def Guarded (rtt : Rtt) : Prop := ∀ i n, rtt.nodes i = some n → n.rtnRth = none → n.rtnLock = 0

theorem Lockfree.guarded (free : Lockfree rtt) : Guarded rtt := fun i n live _ => free i n live

theorem Unlocked.lockfree (u : Unlocked rtt) : Lockfree rtt := fun i n live => (u i n live).1

/-! ## Heads -/

theorem sameSetup_usrFree : SameSetup rtt rtt.usrFree := by
  unfold Rtt.usrFree
  split <;> exact ⟨rfl, rfl, rfl, rfl, rfl, rfl, rfl⟩

theorem heads_releaseHead {v : Option HeadId} {h : HeadId} (ne : v ≠ some h) :
    (rtt.releaseHead v).heads h = rtt.heads h := by
  cases v with
  | none => rfl
  | some h' =>
    have other : h ≠ h' := fun same => ne (by rw [same])
    simp [Rtt.releaseHead, heads_writeHead, other]

theorem still_releaseHead (v : Option HeadId) : Still rtt (rtt.releaseHead v) := by
  cases v with
  | none => exact ⟨SameSetup.refl rtt, fun _ => rfl, rfl⟩
  | some h =>
    refine ⟨(sameSetup_writeHead rtt h _).trans sameSetup_usrFree, ?_, ?_⟩
    · intro i
      simp only [Rtt.releaseHead, heads_usrFree, heads_writeHead]
      split <;> simp [*]
    · simp [Rtt.releaseHead, Rtt.writeHead]

/-- A head has one node. -/
theorem heads_apart {m : Rtt} {x y : Node NodeId HeadId} {k k' : Links NodeId} (hx : m.mem x.1 k x.2)
    (hy : m.mem y.1 k' y.2) (ne : y.1 ≠ x.1) {h : HeadId} (hv : y.2.val = some h) :
    x.2.val ≠ some h := by
  intro same
  have mine := (hx.2 h same).1
  rw [(hy.2 h hv).1] at mine
  exact ne (Option.some.inj mine)

/-- The nodes elsewhere keep their heads when that of `x` is released. -/
theorem keeps_releaseHead {m : Rtt} {x y : Node NodeId HeadId} {k k' : Links NodeId} (hx : m.mem x.1 k x.2)
    (hy : m.mem y.1 k' y.2) (ne : y.1 ≠ x.1) : Keeps m (m.releaseHead x.2.val) y :=
  ⟨by rw [nodes_releaseHead], fun _ hv => heads_releaseHead (heads_apart hx hy ne hv)⟩

end SonicUtils.Radix
