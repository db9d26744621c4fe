import SonicUtils.Radical.Counters
import SonicUtils.Radix.Pending

/-!
# Removals that are put off

A removal of a locked node only marks it. What the lookups return in a table with such
nodes, against the table from which they had been removed at once.

* `removeAll_spec`: the table from which they are removed;
* `deferred_removal_iff`: when each lookup returns the same in both.
-/

namespace SonicUtils.Radical.Acts

open Radix PtrTree BitTrie Runs

variable {rtt m s : Rtt} {t t' : RtTree} {q : List Bool} {h : HeadId} {hs : List HeadId} {bitlen : Nat}

/-- The table as it would be if nobody had locked a node, and none were marked. -/
def unlockedTable (rtt : Rtt) : Rtt :=
  rtt.mapNodes fun _ n => { n with rtnLock := 0, rtnFlags := n.rtnFlags &&& ~~~ deleBit }

/-- `std_radix_remove` of the heads, one after the other. -/
def removeAll (rtt : Rtt) (hs : List HeadId) : Except Fault Rtt := hs.foldlM stdRadixRemove rtt

/-- No node is locked or marked. -/
def Unheld (m : Rtt) : Prop := ∀ i n, m.nodes i = some n → n.rtnLock = 0 ∧ n.marked = false

/-- What lookups depend on besides the trie. -/
structure SameKeys (rtt m : Rtt) : Prop where
  setup : SameSetup rtt m
  temp : m.temp = rtt.temp

theorem SameKeys.trans (a : SameKeys rtt m) (b : SameKeys m s) : SameKeys rtt s :=
  ⟨a.setup.trans b.setup, b.temp.trans a.temp⟩

theorem SameKeys.convertKey (same : SameKeys rtt m) (addr : Addr) : (m.convertKey addr).1 = (rtt.convertKey addr).1 := by
  unfold Rtt.convertKey Rtt.keyBytes
  rw [same.setup.convert, same.setup.len, same.temp]
  cases rtt.rttConvert with
  | none => rfl
  | some convert => rfl

theorem SameKeys.getexactKey (same : SameKeys rtt m) (addr : Addr) : getexactKey m addr = getexactKey rtt addr := by
  unfold SonicUtils.Radix.getexactKey
  rw [same.setup.debug, same.convertKey]

/-! ## Removals at once -/

theorem unmarked (flags : UInt8) : bitTest (flags &&& ~~~ deleBit) deleBit = false := by
  have zero : flags &&& ~~~ deleBit &&& deleBit = 0 := by
    rw [UInt8.and_assoc]
    have apart : ~~~ deleBit &&& deleBit = 0 := by decide
    rw [apart, UInt8.and_zero]
  simp [bitTest, zero]

theorem unheld_unlockedTable (rtt : Rtt) : Unheld (unlockedTable rtt) := by
  intro i n live
  rw [unlockedTable, nodes_mapNodes] at live
  obtain ⟨n', _, rfl⟩ := Option.map_eq_some_iff.mp live
  exact ⟨rfl, unmarked n'.rtnFlags⟩

theorem Unheld.lockfree (unheld : Unheld m) : Lockfree m := fun i n live => (unheld i n live).1

theorem standing_unlockedTable (standing : Standing rtt t) : Standing (unlockedTable rtt) t where
  rep := standing.rep.mapNodes fun _ _ _ _ holds => holds.marks _ _ _
  ready := ⟨standing.ready.magic, standing.ready.fits⟩
  guarded := (unheld_unlockedTable rtt).lockfree.guarded
  full i live := by
    apply standing.full i
    intro free
    rw [unlockedTable, nodes_mapNodes, free] at live
    exact live rfl

theorem closed_temp (temp : Addr) : ClosedRemove fun m => m.temp = temp where
  link same _ _ _ _ := same
  root same _ := same
  release same v := by
    cases v with
    | none => exact same
    | some h =>
      unfold Rtt.releaseHead Rtt.usrFree
      dsimp only
      split
      · exact same
      · exact same
  free same _ _ := same
  unbind same _ _ _ _ := same

/-- The end of `std_radix_remove`, when the node has been removed. -/
theorem remove_calm {i : NodeId} {n : RtNode} {next : Option NodeId} {dir : Option WalkDir} {m' : Rtt} (ready : Ready m)
    (place : (m.heads h).rthRtn = some i) (live : m.nodes i = some n) (calm : n.rtnLock = 0)
    (run : stdRadixRemoveNode m.countRemove i = .ok (next, dir, m')) :
    Ensures (stdRadixRemove m h) (fun s => SameTree m' s ∧ SameKeys m' s) ∧
      (m'.rttRadicalused = false → stdRadixRemove m h = .ok m') := by
  have place' : (m.countRemove.heads h).rthRtn = some i := place
  have live' : m.countRemove.nodes i = some n := live
  have unfolded : stdRadixRemove m h =
      (if m'.rttRadicalused && m'.rttClhead.islinked (.item h) then do
        let cl ← m'.rttClhead.remove (.item h)
        return { m' with rttClhead := cl }.writeHead h fun h => { h with rdclFlags := h.rdclFlags &&& ~~~ rdclIncl }
      else return m') := by
    unfold stdRadixRemove
    simp only [ready.validate, ok_bind, place', deref_some, node_of live', calm, ne_eq, not_true_eq_false, if_false, run]
  rw [unfolded]
  constructor
  · split
    · apply Ensures.any
      intro cl
      have listed : SameTree m' { m' with rttClhead := cl } := .of_heads (fun _ _ => rfl) rfl
      exact .pure ⟨listed.trans (sameTree_writeHead (.inr fun _ => ⟨rfl, rfl⟩)), ⟨rfl, rfl, rfl, rfl, rfl, rfl, rfl⟩, rfl⟩
    · exact .pure ⟨.of_heads (fun _ _ => rfl) rfl, .refl m', rfl⟩
  · intro plain
    rw [plain]
    rfl

/-- **A removal at once** takes the binding of the head away. -/
theorem remove_at_once (standing : Standing m t) (unheld : Unheld m) (bound : (q, h) ∈ entries t) :
    Ensures (stdRadixRemove m h) (fun s => (∃ t', Standing s t' ∧ ∀ e, e ∈ entries t' ↔ e ∈ entries t ∧ e ≠ (q, h)) ∧
      Unheld s ∧ SameKeys m s) ∧
    (m.rttRadicalused = false → ∃ s, stdRadixRemove m h = .ok s) := by
  obtain ⟨x, hx, own_⟩ := mem_entries.mp bound
  obtain ⟨val, rfl⟩ := mem_own.mp own_
  obtain ⟨fs, l, r, rfl⟩ := exists_plug hx
  obtain ⟨⟨n, live, holds⟩, att⟩ := holds_at standing.rep.linked
  have place := (att h val).1
  have counted : Standing m.countRemove (plug fs (.node x l r)) := standing.congr (.of_heads (fun _ _ => rfl) rfl)
  have keys : SameKeys m m.countRemove := ⟨⟨rfl, rfl, rfl, rfl, rfl, rfl, rfl⟩, rfl⟩
  have live' : m.countRemove.nodes x.1 = some n := live
  obtain ⟨next, dir, m', _, run, _, removed⟩ := removeNode_spec counted.rep
    (fun n here => (unheld x.1 n here).1) counted.guarded val
  obtain ⟨ends, total⟩ := remove_calm standing.ready place live (unheld x.1 n live).1 run
  have linkless : Linkless fun n : RtNode => (n.rtnLock, n.rtnFlags) :=
    ⟨fun _ _ => rfl, fun _ _ => rfl, fun _ _ => rfl, fun _ _ => rfl⟩
  have footprint : Footprint (fun n : RtNode => (n.rtnLock, n.rtnFlags)) ∅ ∅ m.countRemove m' :=
    (footprint_removeNode linkless).of_ok _ run
  have unheld' : Unheld m' := by
    intro i n' here
    rcases footprint.nodes i n' here with new | ⟨n, old, same⟩
    · cases new
    · obtain ⟨calm, plain⟩ := unheld i n old
      obtain ⟨lock, flags⟩ := Prod.mk.inj same
      refine ⟨lock.trans calm, ?_⟩
      rw [RtNode.marked] at plain ⊢
      rw [flags, plain]
  have temp : m'.temp = m.temp := by
    have dropped : m.countRemove.dropRoute.temp = m.temp := rfl
    exact ((closed_temp m.temp).removeNode dropped).of_ok _ run
  have keys' : SameKeys m m' := keys.trans ⟨removed.still.setup, temp⟩
  obtain ⟨q, h', t', head, bound', standing', rest⟩ :=
    ((counted.removeNode live').of_ok _ run).resolve_left fun bare => by
      have own_ := holds.rth.trans val
      cases own_.symm.trans bare.1
  obtain rfl := Option.some.inj (head.symm.trans (holds.rth.trans val))
  obtain rfl := standing.rep.one_key bound' bound
  refine ⟨ends.mono ?_, fun plain => ⟨m', total (keys'.setup.radical.trans plain)⟩⟩
  rintro s ⟨same, keys''⟩
  refine ⟨⟨t', standing'.congr same, rest⟩, ?_, keys'.trans keys''⟩
  intro i n' here
  exact unheld' i n' (same.nodes ▸ here)

/-- **Removals at once** take the bindings of the heads away, and no other ones. -/
theorem removeAll_spec (standing : Standing m t) (unheld : Unheld m) (once : hs.Nodup) (bound : ∀ h ∈ hs, ∃ q, (q, h) ∈ entries t) :
    Ensures (removeAll m hs) (fun s => (∃ t', Standing s t' ∧ ∀ e, e ∈ entries t' ↔ e ∈ entries t ∧ e.2 ∉ hs) ∧
      Unheld s ∧ SameKeys m s) ∧
    (m.rttRadicalused = false → ∃ s, removeAll m hs = .ok s) := by
  induction hs generalizing m t with
  | nil => exact ⟨.pure ⟨⟨t, standing, fun e => by simp⟩, unheld, .refl m, rfl⟩, fun _ => ⟨m, rfl⟩⟩
  | cons h hs ih =>
    obtain ⟨new, once'⟩ := List.nodup_cons.mp once
    obtain ⟨q, here⟩ := bound h List.mem_cons_self
    obtain ⟨first, returns⟩ := remove_at_once standing unheld here
    -- what is left after the first one
    have rest {m' : Rtt} (run : stdRadixRemove m h = .ok m') : SameKeys m m' ∧
        Ensures (removeAll m' hs) (fun s => (∃ t', Standing s t' ∧ ∀ e, e ∈ entries t' ↔ e ∈ entries t ∧ e.2 ∉ h :: hs) ∧
          Unheld s ∧ SameKeys m' s) ∧ (m'.rttRadicalused = false → ∃ s, removeAll m' hs = .ok s) := by
      obtain ⟨⟨t', standing', left⟩, unheld', keys⟩ := first.of_ok _ run
      have bound' : ∀ h' ∈ hs, ∃ q, (q, h') ∈ entries t' := by
        intro h' later
        obtain ⟨q', here'⟩ := bound h' (List.mem_cons_of_mem h later)
        refine ⟨q', (left _).mpr ⟨here', fun same => ?_⟩⟩
        obtain ⟨_, rfl⟩ := Prod.mk.inj same
        exact new later
      obtain ⟨all, returns'⟩ := ih standing' unheld' once' bound'
      refine ⟨keys, all.mono fun s ⟨⟨t'', standing'', left'⟩, others⟩ => ⟨⟨t'', standing'', fun e => ?_⟩, others⟩, returns'⟩
      rw [left', left, List.mem_cons, not_or, and_assoc]
      refine and_congr_right fun listed => and_congr_left fun _ => not_congr ⟨fun same => by rw [same], ?_⟩
      rintro rfl
      rw [standing.rep.one_key here listed]
    constructor
    · constructor
      intro s run
      rw [removeAll, List.foldlM_cons] at run
      cases one : stdRadixRemove m h with
      | error e =>
        rw [one] at run
        cases run
      | ok m' =>
        rw [one, ok_bind] at run
        obtain ⟨keys, all, _⟩ := rest one
        obtain ⟨tree, unheld', keys'⟩ := all.of_ok _ run
        exact ⟨tree, unheld', keys.trans keys'⟩
    · intro plain
      obtain ⟨m', one⟩ := returns plain
      obtain ⟨keys, _, returns'⟩ := rest one
      obtain ⟨s, run⟩ := returns' (keys.setup.radical.trans plain)
      refine ⟨s, ?_⟩
      rw [removeAll, List.foldlM_cons, one, ok_bind]
      exact run

/-! ## What the lookups return -/

/-- The prefix is stored, with the head. -/
def Binds (rtt : Rtt) (q : List Bool) (h : HeadId) : Prop :=
  ∃ i n ap, rtt.nodes i = some n ∧ n.rtnRth = some h ∧ (rtt.heads h).rdxRthAddr = some ap ∧ ap.bits n.rtnBit = q

theorem binds_iff (standing : Standing rtt t) : Binds rtt q h ↔ (q, h) ∈ entries t := by
  constructor
  · rintro ⟨i, n, ap, live, head, key, rfl⟩
    obtain ⟨_, ap', key', bound⟩ := standing.attached live head
    obtain rfl := Option.some.inj (key.symm.trans key')
    exact bound
  · intro bound
    obtain ⟨x, hx, own_⟩ := mem_entries.mp bound
    obtain ⟨val, rfl⟩ := mem_own.mp own_
    obtain ⟨_, ⟨n, live, holds⟩, att⟩ := standing.rep.linked.holds hx
    obtain ⟨_, ap, key, stem⟩ := att h val
    exact ⟨x.1, n, ap, live, holds.rth.trans val, key, by rw [holds.bit, stem]⟩

/-- Both calls return, and what is seen of what they return is the same iff `cond` holds. -/
def SameIff {α β : Type} (a b : Except Fault (α × Rtt)) (see : α → β) (cond : Prop) : Prop :=
  ∃ x y m m', a = .ok (x, m) ∧ b = .ok (y, m') ∧ (see x = see y ↔ cond)

/-- What the caller of `std_radix_getbestandprev` gets, who had `prev` in `*lessbest`. -/
def withPrev (prev : Option HeadId) (r : Option HeadId × Option (Option HeadId)) : Option HeadId × Option HeadId :=
  (r.1, r.2.getD prev)

theorem live_unheld (unheld : Unheld s) (m : PrefixMap HeadId) : s.live m = m := by
  have calm (h : HeadId) : s.pending h = false := by
    unfold Rtt.pending
    split
    · rfl
    · rename_i i _
      cases live : s.nodes i with
      | none => rfl
      | some n => exact (unheld i n live).2
  funext k
  unfold Rtt.live PrefixMap.filter
  cases m k with
  | none => rfl
  | some h => simp [Option.filter, calm h]

theorem second_unbound {live : PrefixMap HeadId} (unbound : ∀ k, live k = none) (ks : List (List Bool)) :
    live.second ks = none := by
  match ks with
  | [] => rfl
  | [_] => rfl
  | k₁ :: k₂ :: _ => simp [PrefixMap.second, unbound]

/-- `*lessbest` differs besides where the one tree is empty and the other is not. -/
theorem withPrev_same_iff {best best' second second' prev : Option HeadId} (bare : rtt.rttRoot = none → s.rttRoot = none)
    (none_ : s.rttRoot = none → second = none ∧ second' = none) :
    withPrev prev (best, lessbest rtt second) = withPrev prev (best', lessbest s second') ↔
      best = best' ∧ second = second' ∧ (prev = none ∨ rtt.rttRoot = none ∨ s.rttRoot ≠ none) := by
  unfold withPrev lessbest
  rw [Prod.mk.injEq]
  refine and_congr_right fun _ => ?_
  cases root' : s.rttRoot with
  | none =>
    obtain ⟨rfl, rfl⟩ := none_ root'
    cases root : rtt.rttRoot with
    | none => simp
    | some i => simp [eq_comm]
  | some j =>
    cases root : rtt.rttRoot with
    | none => cases root'.symm.trans (bare root)
    | some i => simp

/-- The bindings of `m` that are live are those of a table without the marked ones. -/
theorem live_stored {m : PrefixMap HeadId} (standing : Standing rtt t) (stored : m.StoredIn t)
    (all : ∀ h, h ∈ hs ↔ h ∈ rtt.stored ∧ rtt.pending h = true) (left : ∀ e, e ∈ entries t' ↔ e ∈ entries t ∧ e.2 ∉ hs) :
    (rtt.live m).StoredIn t' := by
  intro k v
  rw [left, ← stored k v, all, Rtt.live, PrefixMap.filter, Option.filter_eq_some_iff]
  refine and_congr_right fun bound => ?_
  have inside : v ∈ rtt.stored := standing.stored_iff.mpr ⟨k, (stored k v).mp bound⟩
  cases rtt.pending v with
  | false => simp
  | true => simp [inside]

theorem root_of_unbound {m : PrefixMap HeadId} (standing : Standing rtt t) (stored : m.StoredIn t) :
    rtt.rttRoot = none ↔ ∀ k, m k = none := by
  rw [standing.rep.root, root_eq_none]
  constructor
  · rintro rfl k
    apply Option.eq_none_iff_forall_ne_some.mpr
    intro v bound
    simpa using (stored k v).mp bound
  · intro unbound
    apply standing.rep.trie.eq_nil
    intro e listed
    have bound := (stored e.1 e.2).mpr listed
    rw [unbound] at bound
    cases bound

/-- **Removals that are put off.** Some nodes are marked; `s` is the table from which the
heads of these nodes had been removed at once. `std_radix_getexact` returns the same in both.
The other lookups do iff the marked bindings do not show in the way they take. -/
theorem deferred_removal_iff {s₀ : Rtt} {as : List Act} (start : Start s₀) (run : Run Step s₀ as rtt)
    (valid : bitlen ≤ rtt.rttMaxaddrlen) (once : hs.Nodup) (all : ∀ h, h ∈ hs ↔ h ∈ rtt.stored ∧ rtt.pending h = true) :
    ∃ m : PrefixMap HeadId, (∀ q h, m q = some h ↔ Binds rtt q h) ∧
      (rtt.rttRadicalused = false → ∃ s, removeAll (unlockedTable rtt) hs = .ok s) ∧
      ∀ s, removeAll (unlockedTable rtt) hs = .ok s →
        (∀ addr, SameIff (stdRadixGetexact rtt (some addr) bitlen) (stdRadixGetexact s (some addr) bitlen) id True) ∧
        (∀ addr, SameIff (stdRadixGetbest rtt (some addr) bitlen) (stdRadixGetbest s (some addr) bitlen) id
          (m.BestUnshown (rtt.live m) ((rtt.convertKey addr).1.bits bitlen))) ∧
        (∀ addr, SameIff (stdRadixGetnextbest rtt (some addr) bitlen) (stdRadixGetnextbest s (some addr) bitlen) id
          (m.SecondUnshown (rtt.live m) ((rtt.convertKey addr).1.bits bitlen))) ∧
        (∀ addr prev, SameIff (stdRadixGetbestandprev rtt (some addr) bitlen)
          (stdRadixGetbestandprev s (some addr) bitlen) (withPrev prev)
          (m.BestUnshown (rtt.live m) ((rtt.convertKey addr).1.bits bitlen) ∧
            m.SecondUnshown (rtt.live m) ((rtt.convertKey addr).1.bits bitlen) ∧
            (prev = none ∨ (∀ k, m k = none) ∨ ∃ k, rtt.live m k ≠ none))) ∧
        (∀ addr, SameIff (stdRadixGetnext rtt (some addr) bitlen) (stdRadixGetnext s (some addr) bitlen) id
          (m.Unshown (rtt.live m) (rtt.convertKey addr).1.bit ((rtt.convertKey addr).1.bits bitlen))) ∧
        SameIff (stdRadixGetnext rtt none bitlen) (stdRadixGetnext s none bitlen) id (m.FirstUnshown (rtt.live m)) := by
  obtain ⟨t, used⟩ := start.inUse.run run
  have standing := used.toStanding
  have stored := PrefixMap.storedIn_ofEntries standing.rep.trie
  have bound : ∀ h ∈ hs, ∃ q, (q, h) ∈ entries t := fun h listed => standing.stored_iff.mp ((all h).mp listed).1
  obtain ⟨spec, total⟩ := removeAll_spec (standing_unlockedTable standing) (unheld_unlockedTable rtt) once bound
  refine ⟨.ofEntries (entries t), fun q h => (stored q h).trans (binds_iff standing).symm, total, fun s removed => ?_⟩
  generalize PrefixMap.ofEntries (entries t) = m at stored
  obtain ⟨⟨t', standing', left⟩, unheld, keys⟩ := spec.of_ok _ removed
  have same : SameKeys rtt (unlockedTable rtt) := ⟨⟨rfl, rfl, rfl, rfl, rfl, rfl, rfl⟩, rfl⟩
  have keys := same.trans keys
  have stored' := live_stored standing stored all left
  have valid' : bitlen ≤ s.rttMaxaddrlen := keys.setup.len ▸ valid
  have part : (rtt.live m).Part m := live_part
  have unique := StoredIn.once standing.rep stored
  have bests (addr : Addr) := getbest_first standing stored addr valid
  have bests' (addr : Addr) := getbest_first standing' stored' addr valid'
  simp only [live_unheld unheld, keys.convertKey] at bests'
  refine ⟨fun addr => ?_, fun addr => ?_, fun addr => ?_, fun addr prev => ?_, fun addr => ?_, ?_⟩
  · obtain ⟨after, exact_⟩ := getexact_live standing stored addr valid
    obtain ⟨after', exact'⟩ := getexact_live standing' stored' addr valid'
    rw [live_unheld unheld, keys.getexactKey] at exact'
    exact ⟨_, _, after, after', exact_, exact', iff_of_true rfl trivial⟩
  · obtain ⟨ks, after, prefixes, best, _⟩ := bests addr
    obtain ⟨ks', after', prefixes', best', _⟩ := bests' addr
    exact ⟨_, _, after, after', best, best', PrefixMap.first_same_iff part prefixes prefixes'⟩
  · obtain ⟨ks, after, prefixes, _, next⟩ := bests addr
    obtain ⟨ks', after', prefixes', _, next'⟩ := bests' addr
    exact ⟨_, _, after, after', next, next', PrefixMap.second_same_iff part prefixes prefixes'⟩
  · obtain ⟨ks, after, prefixes, best, next⟩ := bests addr
    obtain ⟨ks', after', prefixes', best', next'⟩ := bests' addr
    have both : stdRadixGetbestandprev rtt (some addr) bitlen =
        .ok (((rtt.live m).first ks, lessbest rtt ((rtt.live m).second ks)), after) := by
      rw [getbestandprev_eq valid, best, next]
      rfl
    have both' : stdRadixGetbestandprev s (some addr) bitlen =
        .ok (((rtt.live m).first ks', lessbest s ((rtt.live m).second ks')), after') := by
      rw [getbestandprev_eq valid', best', next']
      rfl
    refine ⟨_, _, after, after', both, both', ?_⟩
    have root := root_of_unbound standing stored
    have root' := root_of_unbound standing' stored'
    have bound_iff : (∃ k, rtt.live m k ≠ none) ↔ s.rttRoot ≠ none := by
      rw [ne_eq, root', not_forall]
    rw [← PrefixMap.first_same_iff part prefixes prefixes', ← PrefixMap.second_same_iff part prefixes prefixes', ← root,
      bound_iff]
    refine withPrev_same_iff (fun bare => ?_) fun bare => ?_
    · exact root'.mpr fun k => part.none (root.mp bare k)
    · exact ⟨second_unbound (root'.mp bare) ks, second_unbound (root'.mp bare) ks'⟩
  · obtain ⟨x, after, next, finds⟩ := getnext_finds standing stored addr valid
    obtain ⟨x', after', next', finds'⟩ := getnext_finds standing' stored' addr valid'
    rw [keys.convertKey] at finds'
    exact ⟨_, _, after, after', next, next', PrefixMap.found_same_iff part unique finds finds'⟩
  · obtain ⟨x, next, first⟩ := getnext_isFirst standing stored valid
    obtain ⟨x', next', first'⟩ := getnext_isFirst standing' stored' valid'
    exact ⟨_, _, rtt, s, next, next', PrefixMap.first_of_all_same_iff part unique first first'⟩

theorem deferred_removal_iff_pending : ∃ (m : PrefixMap HeadId) (s : Rtt),
    (∀ q h, m q = some h ↔ Binds pendingTable q h) ∧ removeAll (unlockedTable pendingTable) [0] = .ok s ∧
    SameIff (stdRadixGetnext pendingTable none 0) (stdRadixGetnext s none 0) id (m.FirstUnshown (pendingTable.live m)) := by
  have all : ∀ h, h ∈ [0] ↔ h ∈ pendingTable.stored ∧ pendingTable.pending h = true := by
    intro h
    rw [List.mem_singleton]
    constructor
    · rintro rfl
      exact ⟨⟨0, _, rfl, rfl⟩, rfl⟩
    · exact fun both => stored_pending both.1
  obtain ⟨m, binds, total, spec⟩ :=
    deferred_removal_iff start_default pending_run (Nat.zero_le pendingTable.rttMaxaddrlen) (List.nodup_singleton 0) all
  obtain ⟨s, removed⟩ := total rfl
  exact ⟨m, s, binds, removed, (spec s removed).2.2.2.2.2⟩

/-- The node of 128.0.0.0/1 in `halfTable`. -/
def halfNode : RtNode := (halfTable.nodes 1).getD .zero

/-- `halfTable` in a walk, when the head of 128.0.0.0/1 has been removed. -/
def markedTable : Rtt :=
  match stdRadixRemove (halfTable.setNode 1 (rnLock halfNode)) 1 with
  | .ok rtt => rtt
  | .error _ => halfTable

/-- `halfTable` without 128.0.0.0/1. -/
def withoutHalf : Rtt :=
  match removeAll (unlockedTable markedTable) [1] with
  | .ok rtt => rtt
  | .error _ => halfTable

theorem node_default {i : NodeId} (other : i ≠ 0) : defaultTable.nodes i = none := by
  change (Function.update (fun _ => none) 0 _ : NodeId → Option RtNode) i = none
  simp [other]

theorem step_half : Step defaultTable (.insert 1 1) halfTable := by
  have unused : 1 ∉ defaultTable.stored := by
    rintro ⟨i, n, live, head⟩
    by_cases same : i = 0
    · subst same
      obtain rfl := Option.some.inj live
      cases head
    · cases live.symm.trans (node_default same)
  have fair : Allocs.Fair ⟨none, some 1, some 2⟩ defaultTable := by
    refine ⟨fun i given => ?_, by decide⟩
    apply node_default
    rintro rfl
    rcases given with add | new
    · cases add
    · cases new
  exact .insert unused (by decide) fair rfl

theorem marked_run : Run Step freshTable [.insert 0 0, .insert 1 1, .lock 1, .remove 1] markedTable := by
  have locked : Run Step freshTable [.insert 0 0, .insert 1 1, .lock 1] (halfTable.setNode 1 (rnLock halfNode)) :=
    .snoc (.snoc (.snoc .nil step_default) step_half) (.lock rfl nofun)
  exact .snoc locked (.remove ⟨1, _, rfl, rfl⟩ rfl)

theorem stored_marked {h : HeadId} (stored : h ∈ markedTable.stored) (pending : markedTable.pending h = true) : h = 1 := by
  obtain ⟨i, n, live, head⟩ := stored
  by_cases one : i = 1
  · subst one
    obtain rfl := Option.some.inj live
    exact (Option.some.inj head).symm
  · by_cases zero : i = 0
    · subst zero
      obtain rfl := Option.some.inj live
      obtain rfl := Option.some.inj head
      cases pending
    · have none : markedTable.nodes i = none := by
        change (Function.update (Function.update (Function.update (Function.update (Function.update (Function.update
          (fun _ => none) 0 _) 1 _) 1 _) 0 _) 1 _) 1 _ : NodeId → Option RtNode) i = none
        simp [one, zero]
      cases live.symm.trans none

/-- The head of 128.0.0.0/1 is marked, and the one of the default route is not found for
128.0.0.0, though it would be if the first one had been removed at once. -/
theorem marked_hides : ¬ ∀ (s₀ : Rtt) (as : List Act) (rtt : Rtt) (hs : List HeadId) (s : Rtt), Start s₀ →
    Run Step s₀ as rtt → hs.Nodup → (∀ h, h ∈ hs ↔ h ∈ rtt.stored ∧ rtt.pending h = true) →
    removeAll (unlockedTable rtt) hs = .ok s → ∀ addr, ∀ bitlen ≤ rtt.rttMaxaddrlen,
    SameIff (stdRadixGetbest rtt (some addr) bitlen) (stdRadixGetbest s (some addr) bitlen) id True := by
  intro claim
  have all : ∀ h, h ∈ [1] ↔ h ∈ markedTable.stored ∧ markedTable.pending h = true := by
    intro h
    rw [List.mem_singleton]
    constructor
    · rintro rfl
      exact ⟨⟨1, _, rfl, rfl⟩, rfl⟩
    · exact fun both => stored_marked both.1 both.2
  obtain ⟨x, y, _, _, here, there, same⟩ := claim freshTable _ markedTable [1] withoutHalf start_default marked_run
    (List.nodup_singleton 1) all rfl half 8 (by decide)
  have hidden : stdRadixGetbest markedTable (some half) 8 = .ok (none, markedTable) := rfl
  have default_ : stdRadixGetbest withoutHalf (some half) 8 = .ok (some 0, withoutHalf) := rfl
  cases hidden.symm.trans here
  cases default_.symm.trans there
  exact nomatch same.mpr trivial

end SonicUtils.Radical.Acts
