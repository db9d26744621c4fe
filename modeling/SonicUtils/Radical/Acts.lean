import SonicUtils.Lib.Runs
import SonicUtils.Radical.Members
import SonicUtils.Radix.Standing

/-!
# Runs of a table

What is done to a table from outside of version walks and from their callbacks, and
what the walks themselves do: a node is locked before `walk_fn` is called for its head
and unlocked afterwards, and a marked node that is not locked is removed on the way up.

* `Step`, `Effect`, `step_effect`: what a step does to the trie and to `rtt_routes`;
* `versionwalk_run`: a call of `std_radix_versionwalk` is a run.
-/

namespace SonicUtils.Radical.Acts

open Radix PtrTree BitTrie LinkedList Dll Runs

variable {rtt rtt' s s' : Rtt} {rth h : HeadId} {rtn i : NodeId} {n : RtNode} {t t' : RtTree} {q : List Bool}

inductive Act
  | fill (rth : HeadId)
  | insert (rth : HeadId) (bitlen : Nat)
  | append (rth : HeadId)
  | remove (rth : HeadId)
  | setversion (rth : HeadId)
  | lock (rtn : NodeId)
  | unlock (rtn : NodeId)
  | reap (rtn : NodeId)

/-- A step that is a call of a function, or that the user makes. -/
def Act.outside : Act → Bool
  | .lock _ | .unlock _ | .reap _ => false
  | _ => true

/-- The steps of a table. A head that is in no node may be filled in, with zero flags. -/
inductive Step : Rtt → Act → Rtt → Prop
  | fill {rtt : Rtt} {rth : HeadId} (h : RtHead) :
      rth ∉ rtt.stored → h.rdclFlags = 0 → Step rtt (.fill rth) (rtt.writeHead rth fun _ => h)
  | insert {rtt rtt' : Rtt} {rth : HeadId} {bitlen : Nat} {mem : Allocs} {res : Option HeadId} :
      rth ∉ rtt.stored → bitlen ≤ rtt.rttMaxaddrlen → mem.Fair rtt →
      stdRadixInsert rtt rth bitlen mem = .ok (res, rtt') → Step rtt (.insert rth bitlen) rtt'
  | append {rtt rtt' : Rtt} {rth : HeadId} {ver : Version} :
      rtt.rttRadicalused = true → rth ∈ rtt.stored →
      stdRadicalAppendtochangelist rtt rth = .ok (ver, rtt') → Step rtt (.append rth) rtt'
  | remove {rtt rtt' : Rtt} {rth : HeadId} :
      rth ∈ rtt.stored → stdRadixRemove rtt rth = .ok rtt' → Step rtt (.remove rth) rtt'
  | setversion {rtt rtt' : Rtt} {rth : HeadId} {fuel : Nat} {ver : Version} :
      rth ∈ rtt.stored → stdRadixSetversion rtt rth fuel = .ok (ver, rtt') → Step rtt (.setversion rth) rtt'
  | lock {rtt : Rtt} {rtn : NodeId} {n : RtNode} :
      rtt.nodes rtn = some n → n.rtnRth ≠ none → Step rtt (.lock rtn) (rtt.setNode rtn (rnLock n))
  | unlock {rtt : Rtt} {rtn : NodeId} {n : RtNode} :
      rtt.nodes rtn = some n → n.rtnRth ≠ none → Step rtt (.unlock rtn) (rtt.setNode rtn (rnUnlock n))
  | reap {rtt rtt' : Rtt} {rtn : NodeId} {n : RtNode} {next : Option NodeId} {dir : Option WalkDir} :
      rtt.nodes rtn = some n → n.removable = true → stdRadixRemoveNode rtt rtn = .ok (next, dir, rtt') →
      Step rtt (.reap rtn) rtt'

variable {act : Act}

/-- The trie is what the table stores, and its nodes have been counted. -/
structure InUse (rtt : Rtt) (t : RtTree) : Prop extends Standing rtt t where
  booked : Booked rtt.rttRoutes rtt

/-- What a step does to the trie, and to `rtt_routes`. -/
inductive Effect (rtt s : Rtt) (t : RtTree) : Act → RtTree → Prop
  | kept {act : Act} : s.rttRoutes = rtt.rttRoutes → s.stored = rtt.stored → Effect rtt s t act t
  | added {rth : HeadId} {bitlen : Nat} {q : List Bool} {t' : RtTree} :
      (∀ h, (q, h) ∉ entries t) → (∀ e, e ∈ entries t' ↔ e = (q, rth) ∨ e ∈ entries t) →
      s.rttRoutes = rtt.rttRoutes + 1 → Effect rtt s t (.insert rth bitlen) t'
  | replaced {rth h : HeadId} {bitlen : Nat} {q : List Bool} {t' : RtTree} :
      q.length = bitlen → HasKey rtt rth q → (q, h) ∈ entries t → rtt.pending h = true →
      (∀ e, e ∈ entries t' ↔ e = (q, rth) ∨ e ∈ entries t ∧ e ≠ (q, h)) →
      s.rttRoutes = rtt.rttRoutes + 1 → Effect rtt s t (.insert rth bitlen) t'
  | removed {act : Act} {h : HeadId} {q : List Bool} {t' : RtTree} :
      act = .remove h ∨ (∃ i n, act = .reap i ∧ rtt.nodes i = some n ∧ n.rtnRth = some h) →
      (q, h) ∈ entries t → (∀ e, e ∈ entries t' ↔ e ∈ entries t ∧ e ≠ (q, h)) →
      s.rttRoutes = rtt.rttRoutes - 1 → Effect rtt s t act t'
  | again {i : NodeId} {n : RtNode} :
      rtt.nodes i = some n → n.rtnRth = none → s.rttRoutes = rtt.rttRoutes - 1 → s.stored = rtt.stored →
      Effect rtt s t (.reap i) t

theorem InUse.congr (u : InUse rtt t) (same : SameTree rtt s) : InUse s t := by
  refine ⟨u.toStanding.congr same, ?_⟩
  rw [same.routes]
  exact same.booked u.booked

theorem InUse.touch (u : InUse rtt t) (live : rtt.nodes i = some n) (f : RtNode → RtNode)
    (keeps : ∀ a k lab, RtNode.Holds a k lab → (f a).Holds k lab)
    (calm : n.rtnRth = none → n.rtnLock = 0 → (f n).rtnLock = 0) : InUse (rtt.setNode i (f n)) t :=
  ⟨u.toStanding.touch live f keeps calm, u.booked.setNode live⟩

theorem stored_setNode {n' : RtNode} (live : rtt.nodes i = some n) (same : n'.rtnRth = n.rtnRth) :
    (rtt.setNode i n').stored = rtt.stored := by
  ext h
  constructor
  · rintro ⟨j, a, here, head⟩
    rw [nodes_setNode] at here
    split at here
    · obtain rfl := Option.some.inj here
      exact ⟨i, n, live, same.symm.trans head⟩
    · exact ⟨j, a, here, head⟩
  · rintro ⟨j, a, here, head⟩
    by_cases mine : j = i
    · subst mine
      obtain rfl := Option.some.inj (live.symm.trans here)
      exact ⟨j, n', by rw [nodes_setNode, if_pos rfl], same.trans head⟩
    · exact ⟨j, a, by rw [nodes_setNode, if_neg mine, here], head⟩

/-- A node is removed, or had no head and is counted once more. -/
theorem InUse.removeNode (u : InUse rtt t) (live : rtt.nodes i = some n) :
    Ensures (stdRadixRemoveNode rtt i) fun r =>
      (n.rtnRth = none ∧ r.2.2 = rtt.dropRoute) ∨
        ∃ q h t', n.rtnRth = some h ∧ (q, h) ∈ entries t ∧ InUse r.2.2 t' ∧
          (∀ e, e ∈ entries t' ↔ e ∈ entries t ∧ e ≠ (q, h)) ∧ r.2.2.rttRoutes = rtt.rttRoutes - 1 := by
  apply ((u.toStanding.removeNode live).and (booked_remove u.booked)).mono
  rintro ⟨next, dir, s⟩ ⟨bare | ⟨q, h, t', head, bound, standing, rest⟩, booked⟩
  · exact .inl bare
  · dsimp only at standing booked ⊢
    have routes := booked.routes
    rw [← routes] at booked
    exact .inr ⟨q, h, t', head, bound, ⟨standing, booked⟩, rest, routes⟩

theorem stored_of_entries (a : Standing rtt t) (b : Standing s t) : s.stored = rtt.stored := by
  ext h
  rw [a.stored_iff, b.stored_iff]

/-! ## Functions of the change list -/

theorem sameTree_setList (cl : Dll HeadId) : SameTree rtt (setList rtt cl) := .of_heads (fun _ _ => rfl) rfl

theorem sameTree_relist (f : Dll HeadId → Except Fault (Dll HeadId)) : Ensures (relist rtt f) (SameTree rtt) :=
  .any fun cl => .pure (sameTree_setList cl)

theorem sameTree_append : Ensures (stdRadicalAppendtochangelist rtt rth) fun r => SameTree rtt r.2 := by
  apply Ensures.check
  intro _
  apply Ensures.check
  intro _
  apply Ensures.bind (P := SameTree rtt)
  · unfold unlinkIf
    split
    · exact sameTree_relist _
    · exact .pure (.of_heads (fun _ _ => rfl) rfl)
  · intro m off
    apply Ensures.bind (sameTree_relist _)
    intro m' on
    have placed := off.trans on
    have flagged : SameTree m' (setIncl m' rth) := sameTree_writeHead (.inr fun _ => ⟨rfl, rfl⟩)
    have dated (ver : Version) : SameTree m' (setVersion { setIncl m' rth with rttVersion := ver } rth ver) := by
      have counted : SameTree (setIncl m' rth) { setIncl m' rth with rttVersion := ver } := .of_heads (fun _ _ => rfl) rfl
      exact (flagged.trans counted).trans (sameTree_writeHead (.inr fun _ => ⟨rfl, rfl⟩))
    refine .pure ?_
    dsimp only
    split
    · exact (placed.trans (dated _)).trans (.of_heads (fun _ _ => rfl) rfl)
    · exact placed.trans (dated _)

/-! ## What a step does -/

/-- What `std_radix_remove` leaves, when `n` is the node `i` of `rth`: the node is marked,
or it is removed, and the head comes off the list if it is on it. -/
inductive Removal (rtt : Rtt) (rth : HeadId) (i : NodeId) (n : RtNode) : Rtt → Prop
  | deferred : n.rtnLock ≠ 0 →
      Removal rtt rth i n (rtt.countRemove.setNode i { n with rtnFlags := n.rtnFlags ||| deleBit })
  | unlisted {next dir m} : stdRadixRemoveNode rtt.countRemove i = .ok (next, dir, m) →
      (m.rttRadicalused = true → linked m rth = false) → Removal rtt rth i n m
  | listed {next dir m cl} : stdRadixRemoveNode rtt.countRemove i = .ok (next, dir, m) → linked m rth = true →
      m.rttClhead.remove (.item rth) = .ok cl →
      Removal rtt rth i n ((setList m cl).writeHead rth fun h => { h with rdclFlags := h.rdclFlags &&& ~~~ rdclIncl })

theorem remove_cases : Ensures (stdRadixRemove rtt rth) fun s =>
    ∃ i n, (rtt.heads rth).rthRtn = some i ∧ rtt.nodes i = some n ∧ Removal rtt rth i n s := by
  apply Ensures.any
  intro _
  dsimp only
  cases place : (rtt.heads rth).rthRtn with
  | none =>
    constructor
    intro _ run
    rw [show (rtt.countRemove.heads rth).rthRtn = none from place] at run
    cases run
  | some i =>
    rw [show (rtt.countRemove.heads rth).rthRtn = some i from place, deref_some, ok_bind]
    apply ensures_node
    intro n live
    split
    · rename_i locked
      rw [write_of _ live, ok_bind]
      exact .check fun _ => .pure ⟨i, n, rfl, live, .deferred locked⟩
    · apply Ensures.bind (P := fun r => stdRadixRemoveNode rtt.countRemove i = .ok r) ⟨fun _ run => run⟩
      rintro ⟨next, dir, m⟩ removed
      dsimp only
      split
      · rename_i both
        have on : linked m rth = true := (Bool.and_eq_true_iff.mp both).2
        apply Ensures.bind (P := fun cl => m.rttClhead.remove (.item rth) = .ok cl) ⟨fun _ run => run⟩
        intro cl dropped
        exact .pure ⟨i, n, rfl, live, .listed removed on dropped⟩
      · rename_i off
        refine .pure ⟨i, n, rfl, live, .unlisted removed fun used => ?_⟩
        simpa [used, linked] using off

/-- What the writes of `std_radix_setversion` keep, it keeps. -/
theorem setversion_keeps {I : Rtt → Prop} {fuel : Nat}
    (start : I ({ rtt with rttVersion := rtt.rttVersion + 1 }.writeHead rth fun h =>
      { h with rthVersion := rtt.rttVersion + 1 }))
    (raise : ∀ m i n ver, I m → m.nodes i = some n → I (m.setNode i { n with rtnVersion := ver }))
    (wrap : ∀ m : Rtt, I m → I { m with rttNwraps := m.rttNwraps + 1 }) :
    Ensures (stdRadixSetversion rtt rth fuel) fun r => I r.2 := by
  apply Ensures.any
  intro _
  apply Ensures.any
  intro i
  have raised (ver : Version) (from_ : Option NodeId) {m : Rtt} (h : I m) :
      Ensures (Loop.loop .noReturn (raiseTurn ver) fuel (from_, m)) I := by
    apply Ensures.loop (K := fun s => I s.2)
    · rintro ⟨at_, m⟩ h
      cases at_ with
      | none => exact .pure h
      | some i =>
        apply Ensures.bind (P := I)
        · apply ensures_write
          intro n live
          exact raise m i n ver h live
        · intro m' h'
          exact .any fun n => .pure h'
    · exact h
  apply Ensures.bind (raised _ _ start)
  intro m h
  refine .pure ?_
  dsimp only
  split
  · exact wrap m h
  · exact h

theorem Effect.of_same {m : Rtt} (effect : Effect rtt m t act t') (routes : s.rttRoutes = m.rttRoutes)
    (stored : s.stored = m.stored) : Effect rtt s t act t' := by
  cases effect with
  | kept same same' => exact .kept (routes.trans same) (stored.trans same')
  | added free rest up => exact .added free rest (routes.trans up)
  | replaced len key bound marked rest up => exact .replaced len key bound marked rest (routes.trans up)
  | removed how bound rest down => exact .removed how bound rest (routes.trans down)
  | again live bare down same => exact .again live bare (routes.trans down) (stored.trans same)

theorem InUse.insert_effect {bitlen : Nat} {mem : Allocs} (u : InUse rtt t) (unused : rth ∉ rtt.stored)
    (valid : bitlen ≤ rtt.rttMaxaddrlen) (fair : mem.Fair rtt) :
    Ensures (stdRadixInsert rtt rth bitlen mem) fun r => ∃ t', InUse r.2 t' ∧ Effect rtt r.2 t (.insert rth bitlen) t' := by
  apply ((u.toStanding.insert unused valid fair).and (booked_insertion u.toStanding unused valid fair u.booked)).mono
  rintro ⟨res, s⟩ ⟨⟨t', standing, entered⟩, booked⟩
  dsimp only at standing entered booked ⊢
  have used {d : UInt64} (counted : Booked d s) : InUse s t' := ⟨standing, counted.routes.symm ▸ counted⟩
  cases entered with
  | failed =>
    rcases booked with ⟨done, _⟩ | ⟨_, booked⟩
    · cases done
    · exact ⟨t, used booked, .kept booked.routes (stored_of_entries u.toStanding standing)⟩
  | present q h len key bound calm =>
    rcases booked with ⟨done, _⟩ | ⟨_, booked⟩
    · obtain rfl := Option.some.inj done
      exact absurd (u.stored_iff.mpr ⟨q, bound⟩) unused
    · exact ⟨t, used booked, .kept booked.routes (stored_of_entries u.toStanding standing)⟩
  | added q t' len key free rest =>
    rcases booked with ⟨_, booked⟩ | ⟨other, _⟩
    · exact ⟨t', used booked, .added free rest booked.routes⟩
    · exact absurd rfl other
  | replaced q h t' len key bound marked rest =>
    rcases booked with ⟨_, booked⟩ | ⟨other, _⟩
    · exact ⟨t', used booked, .replaced len key bound marked rest booked.routes⟩
    · exact absurd rfl other

theorem InUse.remove_effect (u : InUse rtt t) (stored : rth ∈ rtt.stored) :
    Ensures (stdRadixRemove rtt rth) fun s => ∃ t', InUse s t' ∧ Effect rtt s t (.remove rth) t' := by
  apply remove_cases.mono
  rintro s ⟨i, n, place, live, removal⟩
  have counted : InUse rtt.countRemove t := u.congr (.of_heads (fun _ _ => rfl) rfl)
  have head := u.head_of stored place live
  have carried {next : Option NodeId} {dir : Option WalkDir} {m : Rtt}
      (removed : stdRadixRemoveNode rtt.countRemove i = .ok (next, dir, m)) :
      ∃ t', InUse m t' ∧ Effect rtt m t (.remove rth) t' := by
    rcases (counted.removeNode live).of_ok _ removed with ⟨bare, _⟩ | ⟨q, h, t', own, bound, used, rest, routes⟩
    · cases bare.symm.trans head
    · obtain rfl := Option.some.inj (own.symm.trans head)
      exact ⟨t', used, .removed (.inl rfl) bound rest routes⟩
  cases removal with
  | deferred locked =>
    have touched := counted.touch live (fun n => { n with rtnFlags := n.rtnFlags ||| deleBit })
      (fun a k lab holds => holds.marks _ _ _) fun _ calm => calm
    have same : (rtt.countRemove.setNode i { n with rtnFlags := n.rtnFlags ||| deleBit }).stored = rtt.countRemove.stored :=
      stored_setNode live rfl
    exact ⟨t, touched, .kept rfl same⟩
  | unlisted removed _ => exact carried removed
  | @listed next dir m cl removed _ _ =>
    obtain ⟨t', used, effect⟩ := carried removed
    have flagged : SameTree (setList m cl) ((setList m cl).writeHead rth fun h =>
        { h with rdclFlags := h.rdclFlags &&& ~~~ rdclIncl }) := sameTree_writeHead (.inr fun _ => ⟨rfl, rfl⟩)
    have same := (sameTree_setList cl).trans flagged
    exact ⟨t', used.congr same, effect.of_same same.routes same.stored⟩

theorem InUse.setversion_kept {fuel : Nat} (u : InUse rtt t) : Ensures (stdRadixSetversion rtt rth fuel) fun r =>
    InUse r.2 t ∧ r.2.rttRoutes = rtt.rttRoutes ∧ r.2.stored = rtt.stored := by
  have counted : SameTree rtt { rtt with rttVersion := rtt.rttVersion + 1 } := .of_heads (fun _ _ => rfl) rfl
  have version : SameTree { rtt with rttVersion := rtt.rttVersion + 1 }
      ({ rtt with rttVersion := rtt.rttVersion + 1 }.writeHead rth fun h =>
        { h with rthVersion := rtt.rttVersion + 1 }) := sameTree_writeHead (.inr fun _ => ⟨rfl, rfl⟩)
  have dated := counted.trans version
  apply setversion_keeps (I := fun m => InUse m t ∧ m.rttRoutes = rtt.rttRoutes ∧ m.stored = rtt.stored)
  · exact ⟨u.congr dated, dated.routes, dated.stored⟩
  · rintro m i n ver ⟨used, routes, stored⟩ live
    have touched := used.touch live (fun n => { n with rtnVersion := ver })
      (fun a k lab holds => holds.marks _ _ _) fun _ calm => calm
    have same : (m.setNode i { n with rtnVersion := ver }).stored = m.stored := stored_setNode live rfl
    exact ⟨touched, routes, same.trans stored⟩
  · rintro m ⟨used, routes, stored⟩
    exact ⟨used.congr (.of_heads (fun _ _ => rfl) rfl), routes, stored⟩

/-- **What a step does.** -/
theorem step_effect (u : InUse rtt t) (step : Step rtt act s) : ∃ t', InUse s t' ∧ Effect rtt s t act t' := by
  have kept {act : Act} {s : Rtt} (same : SameTree rtt s) : ∃ t', InUse s t' ∧ Effect rtt s t act t' :=
    ⟨t, u.congr same, .kept same.routes same.stored⟩
  cases step with
  | fill h unused _ => exact kept (sameTree_writeHead (.inl unused))
  | insert unused valid fair run => exact (u.insert_effect unused valid fair).of_ok _ run
  | append _ _ run => exact kept (sameTree_append.of_ok _ run)
  | remove stored run => exact (u.remove_effect stored).of_ok _ run
  | setversion stored run =>
    obtain ⟨used, routes, same⟩ := u.setversion_kept.of_ok _ run
    exact ⟨t, used, .kept routes same⟩
  | @lock i n live head =>
    have touched := u.touch live rnLock (fun a k lab holds => holds.marks _ _ _) fun bare _ => absurd bare head
    exact ⟨t, touched, .kept rfl (stored_setNode live rfl)⟩
  | @unlock i n live head =>
    have touched := u.touch live rnUnlock (fun a k lab holds => holds.marks _ _ _) fun bare _ => absurd bare head
    exact ⟨t, touched, .kept rfl (stored_setNode live rfl)⟩
  | @reap s i n next dir live _ run =>
    rcases (u.removeNode live).of_ok _ run with ⟨bare, rfl⟩ | ⟨q, h, t', own, bound, used, rest, routes⟩
    · obtain ⟨count, balance, routes⟩ := u.booked
      have standing : Standing rtt.dropRoute t :=
        ⟨u.rep.congr rfl rfl fun _ _ => ⟨rfl, fun _ _ => rfl⟩, ⟨u.ready.magic, u.ready.fits⟩, u.guarded, u.full⟩
      exact ⟨t, ⟨standing, count, balance, rfl⟩, .again live bare rfl rfl⟩
    · exact ⟨t', used, .removed (.inr ⟨i, n, rfl, live, own⟩) bound rest routes⟩

/-- The node of a head whose removal is pending. -/
theorem pending_node (u : InUse rtt t) (bound : (q, h) ∈ entries t) (marked : rtt.pending h = true) :
    ∃ i n ap, rtt.nodes i = some n ∧ n.marked = true ∧ n.rtnRth = some h ∧ n.rtnBit = q.length ∧
      (rtt.heads h).rdxRthAddr = some ap ∧ ap.bits q.length = q := by
  obtain ⟨x, hx, own⟩ := mem_entries.mp bound
  obtain ⟨val, rfl⟩ := mem_own.mp own
  obtain ⟨k, ⟨n, live, holds⟩, att⟩ := u.rep.linked.holds hx
  obtain ⟨place, ap, key, stem⟩ := att h val
  have mark : n.marked = true := (pending_of place live).symm.trans marked
  exact ⟨x.1, n, ap, live, mark, holds.rth.trans val, holds.bit, key, stem⟩

/-- What a step keeps, a run keeps. -/
theorem InUse.run {as : List Act} (u : InUse rtt t) (run : Run Step rtt as s) : ∃ t', InUse s t' := by
  apply run.invariant (I := fun m => ∃ t', InUse m t')
  · rintro m act m' ⟨t', used⟩ step
    obtain ⟨t'', used', _⟩ := step_effect used step
    exact ⟨t'', used'⟩
  · exact ⟨t, u⟩

/-- A table of `std_radix_create`, with the settings of its user. The memory of heads is
zero, as far as the flags go. -/
inductive Start : Rtt → Prop
  | create {heads : HeadId → RtHead} (maxaddrlen : Nat) (rmfree : Bool) (junk : Addr)
      (convert : Option (Addr → Addr → Nat → Addr)) (debug radicalused carused : Bool) :
      maxaddrlen ≤ 65528 → (∀ h, (heads h).rdclFlags = 0) →
      Start { stdRadixCreate maxaddrlen rmfree heads junk with
        rttConvert := convert, rttDebug := debug, rttRadicalused := radicalused, rttCarused := carused }

theorem Start.inUse (start : Start rtt) : InUse rtt .nil := by
  cases start with
  | create maxaddrlen rmfree junk convert debug radicalused carused fits _ =>
    refine ⟨⟨⟨rfl, trivial, List.nodup_nil, trivial, by simp⟩, ⟨rfl, fits⟩, ?_, ?_⟩, ⟨∅, ?_, rfl⟩, UInt64.sub_self 0, rfl⟩
    · intro i n live
      cases live
    · intro i live
      exact absurd rfl live
    · simp [stdRadixCreate]

/-! ## Calls of `std_radix_versionwalk` -/

/-- The one node that is locked, if any is, is locked once. -/
structure Held (o : Option NodeId) (m : Rtt) : Prop where
  once : ∀ i, o = some i → ∃ n, m.nodes i = some n ∧ n.rtnLock = 1
  others : ∀ i n, o ≠ some i → m.nodes i = some n → n.rtnLock = 0

variable {o : Option NodeId}

theorem Held.of_nodes (held : Held o rtt) (same : s.nodes = rtt.nodes) : Held o s :=
  ⟨fun i here => same ▸ held.once i here, fun i n off live => held.others i n off (same ▸ live)⟩

theorem Held.setNode {n' : RtNode} (held : Held o rtt) (live : rtt.nodes i = some n) (same : n'.rtnLock = n.rtnLock) :
    Held o (rtt.setNode i n') := by
  constructor
  · intro j here
    obtain ⟨a, live', one⟩ := held.once j here
    obtain ⟨b, live'', same'⟩ := lasting_setNode live same j a live'
    exact ⟨b, live'', same'.trans one⟩
  · intro j a off here
    rw [nodes_setNode] at here
    split at here
    · rename_i mine
      obtain rfl := Option.some.inj here
      rw [same]
      exact held.others i n (mine ▸ off) live
    · exact held.others j a off here

theorem closed_held : Closed (Held o) where
  link held live _ _ _ := held.setNode live rfl
  root held _ := held.of_nodes rfl
  release held _ := held.of_nodes nodes_releaseHead
  free {m i n} held live calm := by
    have other : o ≠ some i := by
      intro here
      obtain ⟨a, live', one⟩ := held.once i here
      obtain rfl := Option.some.inj (live.symm.trans live')
      rw [calm] at one
      cases one
    refine ⟨fun j here => ?_, fun j a off here => ?_⟩
    · have apart : j ≠ i := fun same => other (same ▸ here)
      rw [nodes_freeNode, if_neg apart]
      exact held.once j here
    · rw [nodes_freeNode] at here
      split at here
      · cases here
      · exact held.others j a off here

theorem held_removeNode (held : Held o rtt) : Ensures (stdRadixRemoveNode rtt i) fun r => Held o r.2.2 := by
  have closed : ClosedRemove (Held o) := ⟨closed_held, fun held live _ _ _ => held.setNode live rfl⟩
  exact closed.removeNode (held.of_nodes rfl)

theorem held_insert {bitlen : Nat} {mem : Allocs} (held : Held o rtt) (fair : mem.Fair rtt) :
    Ensures (stdRadixInsert rtt rth bitlen mem) fun r => Held o r.2 := by
  have closed : ClosedInsert (Held o) Set.univ rth := by
    refine ⟨closed_held, fun {m i} held _ free bit v _ => ⟨fun j here => ?_, fun j a off here => ?_⟩,
      fun held _ live _ => held.setNode live rfl, fun held live _ => held.setNode live rfl, fun held _ => held.of_nodes rfl⟩
    · have apart : j ≠ i := by
        rintro rfl
        obtain ⟨a, live, _⟩ := held.once j here
        cases live.symm.trans free
      rw [nodes_addNode, if_neg apart]
      exact held.once j here
    · rw [nodes_addNode] at here
      split at here
      · obtain rfl := Option.some.inj here
        rfl
      · exact held.others j a off here
  unfold stdRadixInsert
  apply Ensures.bind (insertKey_aside mem.key)
  rintro ⟨keyed, m⟩ ⟨_, nodes⟩
  dsimp only at nodes ⊢
  split
  · exact .pure (held.of_nodes nodes)
  · apply Ensures.any
    intro _
    have nodes' := (nodes_insertDebug m rth bitlen).trans nodes
    split
    · exact .pure (held.of_nodes nodes')
    · have unused : ∀ i, mem.add = some i ∨ mem.new = some i → (insertDebug m rth bitlen).2.nodes i = none := by
        rw [nodes']
        exact fair.unused
      have attempt := closed.insertTree ((held.of_nodes nodes').of_nodes rfl) bitlen
        (fun i hi => ⟨Set.mem_univ i, unused i hi⟩) fair.apart
      refine attempt.mono fun r result => ?_
      rcases result with ⟨m', kept, rfl⟩ | ⟨kept, _⟩
      · exact kept.of_nodes rfl
      · exact kept

/-- Only walks lock and unlock nodes. -/
theorem Held.step (held : Held o rtt) (step : Step rtt act s) (outside : act.outside = true) : Held o s := by
  cases step with
  | fill h _ _ => exact held.of_nodes rfl
  | insert _ _ fair run => exact (held_insert held fair).of_ok _ run
  | append _ _ run => exact held.of_nodes (sameTree_append.of_ok _ run).nodes
  | @remove s rth stored run =>
    obtain ⟨i, n, _, live, removal⟩ := remove_cases.of_ok _ run
    have counted : Held o rtt.countRemove := held.of_nodes rfl
    cases removal with
    | deferred _ => exact counted.setNode live rfl
    | unlisted removed _ => exact (held_removeNode counted).of_ok _ removed
    | listed removed _ _ => exact ((held_removeNode counted).of_ok _ removed).of_nodes rfl
  | @setversion s rth fuel ver stored run =>
    have done : Ensures (stdRadixSetversion rtt rth fuel) fun r => Held o r.2 :=
      setversion_keeps (held.of_nodes rfl) (fun _ _ _ _ held live => held.setNode live rfl) fun _ held => held.of_nodes rfl
    exact done.of_ok _ run
  | lock _ _ => cases outside
  | unlock _ _ => cases outside
  | reap _ _ _ => cases outside

theorem held_none (free : Lockfree rtt) : Held none rtt := ⟨nofun, fun i n _ live => free i n live⟩

theorem Held.lock (held : Held none rtt) (live : rtt.nodes i = some n) : Held (some i) (rtt.setNode i (rnLock n)) := by
  constructor
  · intro j here
    obtain rfl := Option.some.inj here
    have calm := held.others i n nofun live
    exact ⟨rnLock n, by rw [nodes_setNode, if_pos rfl], by rw [rnLock, calm]; rfl⟩
  · intro j a off here
    have other : j ≠ i := fun same => off (by rw [same])
    rw [nodes_setNode, if_neg other] at here
    exact held.others j a nofun here

theorem Held.unlock (held : Held (some i) rtt) (live : rtt.nodes i = some n) :
    Held none (rtt.setNode i (rnUnlock n)) := by
  refine ⟨nofun, fun j a _ here => ?_⟩
  rw [nodes_setNode] at here
  split at here
  · obtain rfl := Option.some.inj here
    obtain ⟨b, live', one⟩ := held.once i rfl
    obtain rfl := Option.some.inj (live.symm.trans live')
    rw [rnUnlock, one]
    rfl
  · rename_i other
    exact held.others j a (fun same => other (Option.some.inj same).symm) here

/-- A callback that does what can be done from outside of walks, wherever it is called. -/
def Obeys (walkFn : WalkFn) (rtt : Rtt) : Prop :=
  ∀ as a i n rth, Run Step rtt as a → a.nodes i = some n → n.rtnRth = some rth → n.rtnLock ≠ 0 →
    Ensures (walkFn rth a) fun r => ∃ bs, Run (fun m act m' => Step m act m' ∧ act.outside = true) a bs r.2

/-- The table of a walk has been reached by steps, and no node is locked. -/
def Walked (rtt m : Rtt) : Prop := (∃ as, Run Step rtt as m) ∧ Held none m

theorem Walked.reap {m : Rtt} (walked : Walked rtt m) (live : m.nodes i = some n) (removable : n.removable = true) :
    Ensures (stdRadixRemoveNode m i) fun r => Walked rtt r.2.2 := by
  obtain ⟨⟨as, run⟩, held⟩ := walked
  constructor
  rintro ⟨next, dir, m'⟩ removed
  exact ⟨⟨_, .snoc run (.reap live removable removed)⟩, (held_removeNode held).of_ok _ removed⟩

theorem Walked.visit (u : InUse rtt t) {walkFn : Option WalkFn} (obeys : ∀ f, walkFn = some f → Obeys f rtt)
    {minVer maxVer : Version} {w : Walk} (walked : Walked rtt w.rtt) (live : w.rtt.nodes i = some n) :
    Ensures (versionVisit walkFn minVer maxVer w i n) fun w' => Walked rtt w'.rtt := by
  unfold versionVisit
  split
  · rename_i rth f head
    dsimp only
    split
    · obtain ⟨⟨as, run⟩, held⟩ := walked
      rw [write_of _ live, ok_bind]
      have locked : Run Step rtt (as ++ [.lock i]) (w.rtt.setNode i (rnLock n)) :=
        .snoc run (.lock live (by simp [head]))
      have held' := held.lock live
      obtain ⟨a, here, one⟩ := held'.once i rfl
      have mine : a = rnLock n := by
        rw [nodes_setNode, if_pos rfl] at here
        exact (Option.some.inj here).symm
      have answer := obeys f rfl _ _ i a rth locked here (by rw [mine]; exact head) (by rw [one]; decide)
      apply Ensures.bind (P := fun w' : Walk => ∃ bs, Run (fun m act m' => Step m act m' ∧ act.outside = true)
        (w.rtt.setNode i (rnLock n)) bs w'.rtt)
      · apply Ensures.bind answer
        rintro ⟨stop, m⟩ back
        exact .pure back
      · rintro w' ⟨bs, back⟩
        have held'' : Held (some i) w'.rtt := back.invariant (fun held step => held.step step.1 step.2) held'
        have there := locked.append (back.mono fun step => step.1)
        apply Ensures.bind (P := fun m => Walked rtt m)
        · apply ensures_write
          intro b live'
          obtain ⟨t', used⟩ := u.run there
          have head' : b.rtnRth ≠ none := by
            intro bare
            obtain ⟨b', live'', one⟩ := held''.once i rfl
            obtain rfl := Option.some.inj (live'.symm.trans live'')
            rw [used.guarded i b live' bare] at one
            cases one
          exact ⟨⟨_, .snoc there (.unlock live' head')⟩, held''.unlock live'⟩
        · exact fun m walked => .pure walked
    · exact .pure walked
  · exact .pure walked

theorem Walked.turn (u : InUse rtt t) {walkFn : Option WalkFn} (obeys : ∀ f, walkFn = some f → Obeys f rtt)
    {minVer maxVer : Version} {w : Walk} (walked : Walked rtt w.rtt) :
    Ensures (versionTurn walkFn minVer maxVer w) fun next =>
      next.elim (fun w' => Walked rtt w'.rtt) fun w' => Walked rtt w'.rtt := by
  unfold versionTurn
  split
  · exact .pure walked
  · rename_i i _
    apply ensures_node
    intro n live
    split
    · exact .pure walked
    · split
      · split
        · exact .pure walked
        · apply Ensures.bind (walked.visit u obeys live)
          intro w' walked'
          apply Ensures.any
          intro n'
          refine .pure ?_
          unfold Walk.goDown
          split <;> exact walked'
      · refine .pure ?_
        unfold Walk.goRight
        split <;> exact walked
      · split
        · rename_i removable
          apply Ensures.bind (walked.reap live removable)
          rintro ⟨next, dir, m⟩ walked'
          exact .pure walked'
        · split
          · exact .pure walked
          · exact .any fun p => .pure walked

/-- **A call of `std_radix_versionwalk`** is a run. -/
theorem versionwalk_run (u : InUse rtt t) (free : Lockfree rtt) {walkFn : Option WalkFn}
    (obeys : ∀ f, walkFn = some f → Obeys f rtt) (start : Option HeadId) (cnt : Int32) (minVer maxVer : Version)
    (fuel : Nat) :
    Ensures (stdRadixVersionwalk rtt start walkFn cnt minVer maxVer fuel) fun r =>
      (∃ as, Run Step rtt as r.2.2) ∧ Lockfree r.2.2 := by
  have free_of {m : Rtt} (walked : Walked rtt m) : (∃ as, Run Step rtt as m) ∧ Lockfree m :=
    ⟨walked.1, fun i n live => walked.2.others i n nofun live⟩
  have here : Walked rtt rtt := ⟨⟨[], .nil⟩, held_none free⟩
  unfold stdRadixVersionwalk
  apply Ensures.any
  intro _
  split
  · exact .pure (free_of here)
  · rename_i w started
    have same : w.rtt = rtt := by
      unfold walkStart at started
      split at started
      · obtain rfl := Option.some.inj started
        rfl
      · split at started
        · cases started
        · obtain rfl := Option.some.inj started
          rfl
    apply Ensures.bind (Ensures.loop (K := fun w => Walked rtt w.rtt) (fun w walked => walked.turn u obeys) fuel
      (same.symm ▸ here))
    intro w' walked
    split
    · exact .pure (free_of walked)
    · apply Ensures.bind (P := Walked rtt)
      · apply Ensures.loop (K := fun s => Walked rtt s.2)
        · rintro ⟨y, m⟩ walked
          unfold versionClimbTurn
          split
          · rename_i same
            cases same
            exact .pure walked
          · rename_i same
            cases same
            apply ensures_node
            intro n live
            split
            · rename_i removable
              apply Ensures.bind (walked.reap live removable)
              rintro ⟨next, dir, m'⟩ walked'
              exact .pure walked'
            · exact .pure walked
        · exact walked
      · intro m walked'
        exact .any fun n => .pure (free_of walked')

end SonicUtils.Radical.Acts
