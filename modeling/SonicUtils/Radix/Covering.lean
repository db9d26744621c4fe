import SonicUtils.Lib.TrieOrder
import SonicUtils.Radix.Pending
import SonicUtils.Radix.Rule
import SonicUtils.Radix.Runs

/-!
# The covering prefix

Four ways to the longest prefix that is stored and a proper prefix of another.

* `first_covering`: the climb of `std_radix_getparent` and
  `std_radix_getlessspecific`;
* `getnextbest_covering`: the search of `std_radix_getnextbest`;
* `covering_routes`: they agree.
-/

namespace SonicUtils.Radix

open PtrTree BitTrie

variable {rtt s : Rtt} {t l r : RtTree} {m : PrefixMap HeadId} {k : List Bool} {rth : HeadId} {fuel : Nat}
  {x : Node NodeId HeadId} {fs : List (Frame (Node NodeId HeadId))}

/-- The value of the longest bound prefix that is a proper prefix of `k`, none if there
is none. -/
def PrefixMap.IsCovering {κ : Type} (m : PrefixMap κ) (k : List Bool) : Option κ → Prop
  | none => ∀ k', k' <+: k → k' ≠ k → m k' = none
  | some v => ∃ k', m k' = some v ∧ k' <+: k ∧ k' ≠ k ∧
      ∀ k'', k'' <+: k → k'' ≠ k → m k'' ≠ none → k''.length ≤ k'.length

section

variable {κ : Type} {live : PrefixMap κ} {ks : List (List Bool)} {v : κ}

/-- Of the bound proper prefixes the covering one is the longest. -/
theorem PrefixMap.covering_first (order : ks.Pairwise fun a b => b.length < a.length)
    (mem : ∀ k', k' ∈ ks ↔ live k' ≠ none ∧ k' <+: k ∧ k' ≠ k) : live.IsCovering k (live.first ks) := by
  cases ks with
  | nil =>
    intro k' covers ne
    by_contra bound
    exact List.not_mem_nil ((mem k').mpr ⟨bound, covers, ne⟩)
  | cons k' ks =>
    obtain ⟨bound, covers, ne⟩ := (mem k').mp List.mem_cons_self
    obtain ⟨v, bound⟩ := Option.ne_none_iff_exists'.mp bound
    have found : live.first (k' :: ks) = some v := bound
    rw [found]
    refine ⟨k', bound, covers, ne, fun k'' covers'' ne'' bound'' => ?_⟩
    cases List.mem_cons.mp ((mem k'').mpr ⟨bound'', covers'', ne''⟩) with
    | inl same => rw [same]
    | inr later => exact ((List.pairwise_cons.mp order).1 k'' later).le

/-- A bound key is the longest of its own bound prefixes, and the covering one comes second. -/
theorem PrefixMap.Prefixes.covering (h : live.Prefixes k ks) (bound : live k = some v) :
    ∃ rest, ks = k :: rest ∧ live.IsCovering k (live.first rest) := by
  have listed : k ∈ ks := (h.mem k).mpr ⟨by simp [bound], List.prefix_refl k⟩
  obtain ⟨rest, rfl⟩ := longest_first h.order listed fun k' inside => ((h.mem k').mp inside).2.length_le
  refine ⟨rest, rfl, covering_first (List.pairwise_cons.mp h.order).2 fun k' => ?_⟩
  constructor
  · intro later
    obtain ⟨bound', covers⟩ := (h.mem k').mp (List.mem_cons_of_mem k later)
    exact ⟨bound', covers, (h.tail later).2⟩
  · rintro ⟨bound', covers, ne⟩
    exact (List.mem_cons.mp ((h.mem k').mpr ⟨bound', covers⟩)).resolve_left ne

end

/-! ## `std_radix_getparent` and `std_radix_getlessspecific` -/

/-- The climb to the first node with a head. -/
def Rtt.firstHead (rtt : Rtt) : Nat → Option NodeId → Except Fault (Option HeadId)
  | _, none => return none
  | 0, some _ => throw .noReturn
  | fuel + 1, some rtn => do
    let n ← rtt.node rtn
    match n.rtnRth with
    | some rth => return some rth
    | none => firstHead rtt fuel n.rtnParent

/-- `std_radix_getparent`. -/
def stdRadixGetparent (rtt : Rtt) (rth : HeadId) : Except Fault (Option HeadId) := do
  rtt.validateHandle
  let rtn ← deref (rtt.heads rth).rthRtn
  let n ← rtt.node rtn
  rtt.firstHead Rtt.pathFuel n.rtnParent

/-- `std_radix_getlessspecific`. -/
def stdRadixGetlessspecific (rtt : Rtt) (rth : HeadId) : Except Fault (Option HeadId) := do
  rtt.validateHandle
  check ((rtt.heads rth).rthRtn.isSome)
  let rtn ← deref (rtt.heads rth).rthRtn
  let n ← rtt.node rtn
  rtt.firstHead Rtt.pathFuel n.rtnParent

theorem firstHead_spec (linked : Linked rtt.mem none (plug fs (.node x l r))) (enough : fs.length < fuel) :
    rtt.firstHead fuel (up fs) = .ok (((fs.map Frame.node).find? fun z => z.2.val.isSome).bind fun z => z.2.val) := by
  induction fs generalizing fuel x l r with
  | nil => cases fuel <;> rfl
  | cons f fs ih =>
    obtain ⟨l', r', fill⟩ := exists_fill f (.node x l r)
    obtain ⟨n, live, holds⟩ := holds_above linked
    rw [plug_cons, fill] at linked
    rw [List.length_cons] at enough
    obtain ⟨fuel, rfl⟩ : ∃ n, fuel = n + 1 := ⟨fuel - 1, by omega⟩
    have enough' : fs.length < fuel := by omega
    have above := ih linked enough'
    have parent : n.rtnParent = up fs := by
      rw [holds.parent]
      cases f with
      | mk side z other => cases side <;> rfl
    rw [up_cons, Rtt.firstHead, node_of live, ok_bind, List.map_cons, List.find?_cons]
    cases val : f.node.2.val with
    | none =>
      rw [holds.rth, val]
      simpa [parent] using above
    | some rth =>
      rw [holds.rth, val]
      simp [val]

/-! ## What is above a node -/

/-- The bindings of prefixes of `k` are at the node for `k` and at those above it. -/
theorem covering_iff (trie : Trie [] (plug fs (.node x l r))) {k' : List Bool} {v : HeadId} (proper : k' ≠ x.2.stem) :
    (k', v) ∈ entries (plug fs (.node x l r)) ∧ k' <+: x.2.stem ↔ ∃ f ∈ fs, f.node.2.val = some v ∧ f.node.2.stem = k' := by
  obtain ⟨below, above, _⟩ := trie_plug.mp trie
  have up_ {f : Frame (Node NodeId HeadId)} (hf : f ∈ fs) : f.node.2.stem ++ [f.side] <+: x.2.stem :=
    (above.frame hf).1.trans below.1
  constructor
  · rintro ⟨bound, covers⟩
    have astray {f : Frame (Node NodeId HeadId)} (hf : f ∈ fs) : (k', v) ∉ entries f.other := by
      intro beside
      have way := up_ hf
      have other := ((above.frame hf).2.key_extends beside).trans covers
      exact not_both_sides way other
    have here {f : Frame (Node NodeId HeadId)} (hf : f ∈ fs) (own_ : (k', v) ∈ own f.node) :
        ∃ f ∈ fs, f.node.2.val = some v ∧ f.node.2.stem = k' := ⟨f, hf, mem_own.mp own_⟩
    rw [entries_plug, List.mem_append, List.mem_append] at bound
    obtain (before | inside) | after := bound
    · obtain ⟨f, hf, own_ | ⟨_, beside⟩⟩ := mem_before before
      · exact here hf own_
      · exact absurd beside (astray hf)
    · exact absurd ((covers.eq_of_length_le (below.root_extends_key inside).length_le)) proper
    · obtain ⟨f, hf, _, beside⟩ := mem_after after
      exact absurd beside (astray hf)
  · rintro ⟨f, hf, val, rfl⟩
    refine ⟨mem_entries.mpr ⟨f.node, ?_, mem_own.mpr ⟨val, rfl⟩⟩, (List.prefix_append _ _).trans (up_ hf)⟩
    rw [mem_nodes_plug]
    exact .inr (List.mem_flatMap.mpr ⟨f, hf, by simp⟩)

/-- The first head above a node is that of the covering prefix. -/
theorem first_covering (stored : m.StoredIn (plug fs (.node x l r))) (trie : Trie [] (plug fs (.node x l r))) :
    m.IsCovering x.2.stem (((fs.map Frame.node).find? fun z => z.2.val.isSome).bind fun z => z.2.val) := by
  obtain ⟨below, above, _⟩ := trie_plug.mp trie
  have proper {f : Frame (Node NodeId HeadId)} (hf : f ∈ fs) : f.node.2.stem ≠ x.2.stem := by
    intro same
    have shorter := above.stem_lt hf
    have longer := below.1.length_le
    rw [same] at shorter
    omega
  have bound_iff (k' : List Bool) (covers : k' <+: x.2.stem) (ne : k' ≠ x.2.stem) (v : HeadId) :
      m k' = some v ↔ ∃ f ∈ fs, f.node.2.val = some v ∧ f.node.2.stem = k' := by
    rw [stored k' v, ← covering_iff trie ne]
    exact ⟨fun bound => ⟨bound, covers⟩, And.left⟩
  let zs := (fs.map Frame.node).filter fun z => z.2.val.isSome
  have value : ∀ z ∈ zs, m z.2.stem = z.2.val := by
    intro z hz
    obtain ⟨path, some_⟩ := List.mem_filter.mp hz
    obtain ⟨f, hf, rfl⟩ := List.mem_map.mp path
    obtain ⟨v, val⟩ := Option.isSome_iff_exists.mp some_
    rw [val]
    exact (bound_iff _ ((List.prefix_append _ _).trans ((above.frame hf).1.trans below.1)) (proper hf) v).mpr ⟨f, hf, val, rfl⟩
  have order : (zs.map fun z => z.2.stem).Pairwise fun a b => b.length < a.length :=
    List.pairwise_map.mpr (above.decreasing.filter _)
  have covering : m.IsCovering x.2.stem (m.first (zs.map fun z => z.2.stem)) := by
    refine PrefixMap.covering_first order fun k' => ?_
    rw [List.mem_map]
    constructor
    · rintro ⟨z, hz, rfl⟩
      obtain ⟨path, some_⟩ := List.mem_filter.mp hz
      obtain ⟨f, hf, rfl⟩ := List.mem_map.mp path
      refine ⟨?_, (List.prefix_append _ _).trans ((above.frame hf).1.trans below.1), proper hf⟩
      rw [value _ hz]
      exact Option.isSome_iff_ne_none.mp some_
    · rintro ⟨bound, covers, ne⟩
      obtain ⟨v, bound⟩ := Option.ne_none_iff_exists'.mp bound
      obtain ⟨f, hf, val, rfl⟩ := (bound_iff k' covers ne v).mp bound
      exact ⟨f.node, List.mem_filter.mpr ⟨List.mem_map_of_mem hf, by simp [val]⟩, rfl⟩
  have same : ((fs.map Frame.node).find? fun z => z.2.val.isSome).bind (fun z => z.2.val) =
      m.first (zs.map fun z => z.2.stem) := by
    rw [find?_eq_head?]
    change zs.head?.bind _ = _
    cases split : zs with
    | nil => rfl
    | cons z zs' => exact (value z (split ▸ List.mem_cons_self)).symm
  rw [same]
  exact covering

/-- The climb from a stored head. -/
theorem getparent_covering (rep : Represents rtt t) (ready : Ready rtt) (stored : m.StoredIn t) (bound : m k = some rth) :
    ∃ found, m.IsCovering k found ∧ stdRadixGetparent rtt rth = .ok found ∧
      stdRadixGetlessspecific rtt rth = .ok found := by
  obtain ⟨x, hx, own_⟩ := mem_entries.mp ((stored k rth).mp bound)
  obtain ⟨val, stem⟩ := mem_own.mp own_
  dsimp only at val stem
  subst stem
  have deep := rep.depth ready
  obtain ⟨fs, l, r, rfl⟩ := exists_plug hx
  obtain ⟨⟨n, live, holds⟩, attached⟩ := holds_at rep.linked
  have place := (attached rth val).1
  have short := length_add_height fs (.node x l r)
  have enough : fs.length < Rtt.pathFuel := by omega
  have climbs := firstHead_spec rep.linked enough
  have parent : n.rtnParent = up fs := holds.parent
  refine ⟨_, first_covering stored rep.trie, ?_, ?_⟩
  · rw [stdRadixGetparent, ready.validate, ok_bind, place, deref_some, ok_bind, node_of live, ok_bind, parent, climbs]
  · rw [stdRadixGetlessspecific, ready.validate, ok_bind, place, Option.isSome_some, check_of rfl, ok_bind, deref_some,
      ok_bind, node_of live, ok_bind, parent, climbs]

theorem PrefixMap.IsCovering.unique {κ : Type} {m : PrefixMap κ} {v w : Option κ} (hv : m.IsCovering k v)
    (hw : m.IsCovering k w) : v = w := by
  have one {a b : κ} (ha : m.IsCovering k (some a)) (hb : m.IsCovering k (some b)) : a = b := by
    obtain ⟨p, bound, covers, ne, longest⟩ := ha
    obtain ⟨q, bound', covers', ne', longest'⟩ := hb
    have le := longest q covers' ne' (by simp [bound'])
    have ge := longest' p covers ne (by simp [bound])
    have same : p = q := (List.prefix_of_prefix_length_le covers covers' ge).eq_of_length_le le
    subst same
    exact Option.some.inj (bound.symm.trans bound')
  have neither {a : κ} (ha : m.IsCovering k (some a)) (none_ : m.IsCovering k none) : False := by
    obtain ⟨p, bound, covers, ne, _⟩ := ha
    rw [none_ p covers ne] at bound
    cases bound
  cases v with
  | none =>
    cases w with
    | none => rfl
    | some b => exact (neither hw hv).elim
  | some a =>
    cases w with
    | none => exact (neither hv hw).elim
    | some b => rw [one hv hw]

/-! ## `std_radix_getbest` and `std_radix_getnextbest` -/

theorem alive_settled (rep : Represents rtt t) (settled : Settled rtt) {z : Node NodeId HeadId} (inside : z ∈ nodes t) :
    alive rtt z = z.2.val ∧ (rtt.nodes z.1).any RtNode.marked = false := by
  obtain ⟨_, ⟨n, live, holds⟩, _⟩ := rep.linked.holds inside
  have plain := settled.not_marked live
  rw [alive, live, Option.bind_some, Option.any_some, plain]
  exact ⟨holds.rth, rfl⟩

/-- The search for a stored prefix meets it first, and then the covering one. -/
theorem getnextbest_covering (rep : Represents rtt t) (stored : m.StoredIn t) (settled : Settled rtt)
    (bound : m k = some rth) (ap : Addr) (key : ap.bits k.length = k) :
    ∃ found, m.IsCovering k found ∧ stdRadixGetbest rtt (some ap) k.length = .ok (some rth, rtt) ∧
      stdRadixGetnextbest rtt (some ap) k.length = .ok (found, rtt) := by
  have entry := (stored k rth).mp bound
  have valid : k.length ≤ rtt.rttMaxaddrlen := by
    obtain ⟨x, hx, own_⟩ := mem_entries.mp entry
    have stem : x.2.stem = k := (mem_own.mp own_).2
    rw [← stem]
    exact rep.bounded x hx
  obtain ⟨ap', s, path, same, way, best, next⟩ := getbest_matches rep settled.ready ap valid
  rw [convertKey_none settled.convert] at same
  obtain ⟨rfl, rfl⟩ := Prod.mk.inj same
  obtain ⟨prefixes, here⟩ := way.prefixes rep.trie stored
  rw [key] at prefixes
  obtain ⟨rest, split, covering⟩ := prefixes.covering bound
  cases hms : path.filter (Matches ap k.length) with
  | nil =>
    rw [hms] at split
    cases split
  | cons z zs =>
    rw [hms] at split here
    obtain ⟨stem, rfl⟩ := List.cons.inj split
    dsimp only at stem
    have value {z' : Node NodeId HeadId} (hz' : z' ∈ z :: zs) : alive rtt z' = m z'.2.stem := by
      obtain ⟨inside, v, val, own_⟩ := here z' hz'
      rw [(alive_settled rep settled inside).1, val, own_]
    have plain := (alive_settled rep settled (here z List.mem_cons_self).1).2
    refine ⟨_, covering, ?_, ?_⟩
    · rw [best, hms, found, value List.mem_cons_self, stem, bound]
    · rw [next, hms, foundNext, plain]
      cases zs with
      | nil => rfl
      | cons z' zs =>
        have second := value (List.mem_cons_of_mem z List.mem_cons_self)
        simp only [Bool.false_eq_true, if_false, found, second]
        rfl

/-! ## The address of a head -/

/-- The heads have their addresses as keys, or none. -/
def OwnKeys (S : Set HeadId) (rtt : Rtt) : Prop :=
  ∀ h ∈ S, (rtt.heads h).rdxRthAddr = none ∨ (rtt.heads h).rdxRthAddr = (rtt.heads h).rthAddr

theorem OwnKeys.write {S : Set HeadId} {f : RtHead → RtHead} (own : OwnKeys S rtt)
    (keeps : rth ∈ S → (f (rtt.heads rth)).rdxRthAddr = none ∨
      (f (rtt.heads rth)).rdxRthAddr = (f (rtt.heads rth)).rthAddr) : OwnKeys S (rtt.writeHead rth f) := by
  intro h inside
  rw [heads_writeHead]
  split
  · rename_i same
    subst same
    exact keeps inside
  · exact own h inside

theorem ownKeys_releaseHead {S : Set HeadId} (own : OwnKeys S rtt) (v : Option HeadId) : OwnKeys S (rtt.releaseHead v) := by
  cases v with
  | none => exact own
  | some h =>
    have parted : OwnKeys S (rtt.writeHead h fun a => { a with rdxRthAddr := none }) := own.write fun _ => .inl rfl
    unfold Rtt.releaseHead Rtt.usrFree
    dsimp only
    split
    · exact parted
    · exact parted

theorem closed_ownKeys (S : Set HeadId) : Closed (OwnKeys S) :=
  ⟨fun own _ _ _ _ => own, fun own _ => own, fun own v => ownKeys_releaseHead own v, fun own _ _ => own⟩

theorem ownKeys_remove {S : Set HeadId} (own : OwnKeys S rtt) : Ensures (stdRadixRemove rtt rth) (OwnKeys S) := by
  have closed : ClosedRemove (OwnKeys S) := ⟨closed_ownKeys S, fun own _ _ _ _ => own⟩
  unfold stdRadixRemove
  apply Ensures.any
  intro _
  apply Ensures.any
  intro rn
  apply Ensures.any
  intro n
  split
  · apply Ensures.bind (P := OwnKeys S)
    · exact ensures_write fun n' _ => own
    · exact fun m own => .check fun _ => .pure own
  · have counted : OwnKeys S rtt.countRemove.dropRoute := own
    apply Ensures.bind (closed.removeNode counted)
    rintro ⟨_, _, m⟩ own
    dsimp only at own ⊢
    split
    · apply Ensures.any
      intro cl
      have listed : OwnKeys S { m with rttClhead := cl } := own
      exact .pure (listed.write fun inside => own rth inside)
    · exact .pure own

theorem ownKeys_insert {S : Set HeadId} {bitlen : Nat} {mem : Allocs} (own : OwnKeys (S \ {rth}) rtt)
    (raw : rtt.rttConvert = none) (fair : mem.Fair rtt) :
    Ensures (stdRadixInsert rtt rth bitlen mem) fun r => OwnKeys S r.2 := by
  have closed : ClosedInsert (OwnKeys S) Set.univ rth :=
    ⟨closed_ownKeys S, fun own _ _ _ _ _ => own, fun own _ _ _ => own, fun own _ _ => own,
      fun own _ => own.write fun inside => own rth inside⟩
  have keyed : Ensures (insertKey rtt rth mem.key) fun r => OwnKeys S r.2 ∧ r.2.nodes = rtt.nodes := by
    unfold insertKey
    rw [raw]
    refine .check fun _ => .pure ⟨fun h inside => ?_, rfl⟩
    dsimp only
    rw [heads_writeHead]
    split
    · exact .inr rfl
    · rename_i other
      exact own h ⟨inside, other⟩
  unfold stdRadixInsert
  apply Ensures.bind keyed
  rintro ⟨done, m⟩ ⟨own', nodes⟩
  dsimp only at own' nodes ⊢
  split
  · exact .pure own'
  · apply Ensures.any
    intro _
    have debug : OwnKeys S (insertDebug m rth bitlen).2 ∧ (insertDebug m rth bitlen).2.nodes = m.nodes := by
      unfold insertDebug clearLinks
      split
      · have dated : OwnKeys S (m.writeHead rth fun h => { h with rthRtn := none, rthVersion := 0 }) :=
          own'.write fun inside => own' rth inside
        have flagged : OwnKeys S ((m.writeHead rth fun h => { h with rthRtn := none, rthVersion := 0 }).writeHead rth
            fun h => { h with rdclFlags := 0 }) := dated.write fun inside => dated rth inside
        dsimp only
        split
        · exact ⟨flagged, rfl⟩
        · exact ⟨dated, rfl⟩
      · exact ⟨own', rfl⟩
    split
    · exact .pure debug.1
    · have unused (i : NodeId) (given : mem.add = some i ∨ mem.new = some i) :
          i ∈ Set.univ ∧ (insertDebug m rth bitlen).2.nodes i = none := by
        rw [debug.2, nodes]
        exact ⟨Set.mem_univ i, fair.unused i given⟩
      have counted : OwnKeys S (insertDebug m rth bitlen).2.countInsert := debug.1
      refine (closed.insertTree counted bitlen unused fair.apart).mono fun r attempt => ?_
      cases attempt with
      | inl added =>
        obtain ⟨m', own, rfl⟩ := added
        exact own
      | inr kept => exact kept.1

theorem Allocs.Succeed.fair {mem : Allocs} (alloc : mem.Succeed rtt) : mem.Fair rtt := by
  obtain ⟨add, new, hadd, hnew, fresh⟩ := alloc
  constructor
  · intro i given
    cases given with
    | inl given =>
      cases hadd.symm.trans given
      exact fresh.freeAdd
    | inr given =>
      cases hnew.symm.trans given
      exact fresh.freeNew
  · intro i given same
    cases hadd.symm.trans given
    cases hnew.symm.trans same
    exact fresh.apart rfl

/-- The address of a stored head is its key. -/
theorem Reachable.ownKeys (reached : Reachable rtt m) : OwnKeys {h | ∃ k, m k = some h} rtt := by
  induction reached with
  | create => exact fun h ⟨k, bound⟩ => by cases bound
  | configure _ _ _ _ ih => exact ih
  | fill rth h _ unused ih =>
    exact OwnKeys.write ih fun ⟨k, bound⟩ => absurd bound (unused k)
  | @insert rtt rtt' m rth ap bitlen mem res before unused _ _ alloc run ih =>
    have own : OwnKeys ({h | ∃ k, m.insert (ap.bits bitlen) rth k = some h} \ {rth}) rtt := by
      rintro h ⟨⟨k, bound⟩, other⟩
      apply ih h
      rw [PrefixMap.insert_apply] at bound
      split at bound
      · exact absurd (Option.some.inj bound).symm other
      · exact ⟨k, bound⟩
    exact (ownKeys_insert own before.stores.1.convert (Allocs.Succeed.fair alloc)).of_ok _ run
  | @remove rtt rtt' m rth k _ _ run ih =>
    have kept := (ownKeys_remove ih).of_ok _ run
    rintro h ⟨k', bound⟩
    apply kept h
    refine ⟨k', ?_⟩
    unfold PrefixMap.unbind at bound
    rw [Function.update_apply] at bound
    split at bound
    · cases bound
    · exact bound

theorem stored_address (reached : Reachable rtt m) (bound : m k = some rth) :
    ∃ ap, (rtt.heads rth).rthAddr = some ap ∧ ap.bits k.length = k := by
  obtain ⟨_, t, rep, stored⟩ := reached.stores
  obtain ⟨x, hx, own_⟩ := mem_entries.mp ((stored k rth).mp bound)
  obtain ⟨val, stem⟩ := mem_own.mp own_
  obtain ⟨_, _, attached⟩ := rep.linked.holds hx
  obtain ⟨_, ap, key, bits⟩ := attached rth val
  dsimp only at stem
  rw [stem] at bits
  refine ⟨ap, ?_, bits⟩
  cases reached.ownKeys rth ⟨k, bound⟩ with
  | inl none_ =>
    rw [none_] at key
    cases key
  | inr same => rw [← same, key]

/-! ## The routes -/

/-- **The covering prefix.** For a stored head, `std_radix_getbest` with its address and
length returns it, and `std_radix_getparent`, `std_radix_getlessspecific` and
`std_radix_getnextbest` all return the head of the longest stored prefix that is a proper
prefix of its own, or NULL. The address is that of the head or any with the same prefix. -/
theorem covering_routes (reached : Reachable rtt m) (bound : m k = some rth) :
    (∃ ap, (rtt.heads rth).rthAddr = some ap ∧ ap.bits k.length = k) ∧
    ∃ found, m.IsCovering k found ∧ stdRadixGetparent rtt rth = .ok found ∧
      stdRadixGetlessspecific rtt rth = .ok found ∧
      ∀ ap, ap.bits k.length = k → stdRadixGetbest rtt (some ap) k.length = .ok (some rth, rtt) ∧
        stdRadixGetnextbest rtt (some ap) k.length = .ok (found, rtt) := by
  obtain ⟨settled, t, rep, stored⟩ := reached.stores
  obtain ⟨found, covering, parent, less⟩ := getparent_covering rep settled.ready stored bound
  refine ⟨stored_address reached bound, found, covering, parent, less, fun ap key => ?_⟩
  obtain ⟨found', covering', best, next⟩ := getnextbest_covering rep stored settled bound ap key
  rw [covering.unique covering']
  exact ⟨best, next⟩

theorem covering_routes_ten :
    ∃ found, tenMap.IsCovering (ten.bits 8) found ∧ stdRadixGetparent tenTable 0 = .ok found :=
  have ⟨_, found, covering, parent, _⟩ := covering_routes reachable_ten (k := ten.bits 8) rfl
  ⟨found, covering, parent⟩

end SonicUtils.Radix
