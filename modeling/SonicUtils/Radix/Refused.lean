import SonicUtils.Radix.DebugFlag
import SonicUtils.Radix.Starved
import SonicUtils.Radix.WalkRemoval

/-!
# Insertions that fail

`std_radix_insert` returns NULL when an allocation fails, the third one after the first
node has been counted and linked to its head. The tree is as it was.

* `SameView.answers`: tables whose lookups cannot differ;
* `failed_insert`: an insertion that fails leaves such a table.
-/

namespace SonicUtils.Radix

variable {rtt rtt' m d p : Rtt} {rth : HeadId} {i : NodeId} {n : RtNode} {bitlen : Nat} {mem : Allocs}

/-! ## Lookups -/

/-- A call of one of the lookups. -/
def Call.Looks : Call → Prop
  | .getexact _ _ | .getbest _ _ | .getbestandprev _ _ | .getnextbest _ _ | .getnext _ _ => True
  | _ => False

/-- What calls return that are made one after the other. -/
def answers (rtt : Rtt) : List Call → Except Fault (List Value)
  | [] => return []
  | c :: cs => do
    let (v, rtt) ← c.perform rtt
    return v :: (← answers rtt cs)

/-- The same tree in the same set-up, with a buffer that is the same past its end, where no
conversion writes. -/
structure SameView (d p : Rtt) : Prop extends Alike d p where
  root : p.rttRoot = d.rttRoot
  magic : p.rttMagic = d.rttMagic
  len : p.rttMaxaddrlen = d.rttMaxaddrlen
  debug : p.rttDebug = d.rttDebug
  convert : p.rttConvert = d.rttConvert
  junk : ∀ i, d.keyBytes ≤ i → p.temp i = d.temp i
  inside : ∀ convert, d.rttConvert = some convert → Inside convert d.rttMaxaddrlen

theorem SameView.validate_eq (v : SameView d p) : p.validateHandle = d.validateHandle := by
  rw [Rtt.validateHandle, Rtt.validateHandle, v.magic]

theorem SameView.convertKey (v : SameView d p) (addr : Addr) :
    (p.convertKey addr).1 = (d.convertKey addr).1 ∧ SameView (d.convertKey addr).2 (p.convertKey addr).2 := by
  cases some_ : d.rttConvert with
  | none =>
    rw [convertKey_none some_, convertKey_none (v.convert.trans some_)]
    exact ⟨rfl, v⟩
  | some convert =>
    have zeroed : p.made convert addr = d.made convert addr := by
      have bytes : p.keyBytes = d.keyBytes := by rw [Rtt.keyBytes, Rtt.keyBytes, v.len]
      have buffers : (fun i => if i < p.keyBytes then 0 else p.temp i) = fun i => if i < d.keyBytes then 0 else d.temp i := by
        funext i
        rw [bytes]
        split
        · rfl
        · rename_i past
          exact v.junk i (Nat.le_of_not_lt past)
      rw [Rtt.made, Rtt.made, buffers, v.len]
    rw [convertKey_some some_, convertKey_some (v.convert.trans some_), zeroed]
    exact ⟨rfl, ⟨v.nodes, v.keys⟩, v.root, v.magic, v.len, v.debug, v.convert, fun _ _ => rfl, v.inside⟩

/-- What two lookups return, and that lookups cannot tell the tables apart that they leave. -/
def SameAnswer {α : Type} (r r' : α × Rtt) : Prop := r.1 = r'.1 ∧ SameView r.2 r'.2

theorem SameView.getbest (v : SameView d p) (addr : Option Addr) :
    Agree SameAnswer (stdRadixGetbest d addr bitlen) (stdRadixGetbest p addr bitlen) := by
  cases addr with
  | none => exact .pure ⟨rfl, v⟩
  | some addr =>
    obtain ⟨key, after⟩ := v.convertKey addr
    unfold stdRadixGetbest
    simp only [key, after.validate_eq, after.root, after.debug, after.len]
    apply Agree.same
    intro _
    split
    · exact .pure ⟨rfl, after⟩
    · cases (d.convertKey addr).2.rttRoot with
      | none => exact .pure ⟨rfl, after⟩
      | some root => exact after.atBest root ⟨rfl, after⟩ fun n => .pure ⟨rfl, after⟩

theorem SameView.getbestandprev (v : SameView d p) (addr : Option Addr) :
    Agree SameAnswer (stdRadixGetbestandprev d addr bitlen) (stdRadixGetbestandprev p addr bitlen) := by
  cases addr with
  | none => exact .pure ⟨rfl, v⟩
  | some addr =>
    obtain ⟨key, after⟩ := v.convertKey addr
    unfold stdRadixGetbestandprev
    simp only [key, after.validate_eq, after.root, after.debug, after.len, after.secondBest_eq]
    apply Agree.same
    intro _
    split
    · exact .pure ⟨rfl, after⟩
    · cases (d.convertKey addr).2.rttRoot with
      | none => exact .pure ⟨rfl, after⟩
      | some root =>
        apply after.atBest root ⟨rfl, after⟩
        intro n
        split
        · exact .pure ⟨rfl, after⟩
        · exact .same fun _ => .pure ⟨rfl, after⟩

theorem SameView.getnextbest (v : SameView d p) (addr : Option Addr) :
    Agree SameAnswer (stdRadixGetnextbest d addr bitlen) (stdRadixGetnextbest p addr bitlen) := by
  cases addr with
  | none => exact .pure ⟨rfl, v⟩
  | some addr =>
    obtain ⟨key, after⟩ := v.convertKey addr
    unfold stdRadixGetnextbest
    simp only [key, after.validate_eq, after.root, after.debug, after.len, after.secondBest_eq]
    apply Agree.same
    intro _
    split
    · exact .pure ⟨rfl, after⟩
    · cases (d.convertKey addr).2.rttRoot with
      | none => exact .pure ⟨rfl, after⟩
      | some root =>
        apply after.atBest root ⟨rfl, after⟩
        intro n
        split
        · exact .pure ⟨rfl, after⟩
        · exact .same fun _ => .pure ⟨rfl, after⟩

theorem SameView.getnext (v : SameView d p) (dest : Option Addr) :
    Agree SameAnswer (stdRadixGetnext d dest bitlen) (stdRadixGetnext p dest bitlen) := by
  cases dest with
  | none =>
    unfold stdRadixGetnext
    simp only [v.validate_eq, v.root, v.debug, v.len, v.rthFrom_eq]
    apply Agree.same
    intro _
    split
    · exact .pure ⟨rfl, v⟩
    · cases d.rttRoot with
      | none => exact .pure ⟨rfl, v⟩
      | some root => exact .same fun start => .same fun _ => .pure ⟨rfl, v⟩
  | some addr =>
    obtain ⟨key, after⟩ := v.convertKey addr
    unfold stdRadixGetnext
    simp only [key, after.validate_eq, after.root, after.debug, after.len, after.nextStart_eq, after.rthFrom_eq]
    apply Agree.same
    intro _
    split
    · exact .pure ⟨rfl, after⟩
    · cases (d.convertKey addr).2.rttRoot with
      | none => exact .pure ⟨rfl, after⟩
      | some root => exact .same fun start => .same fun _ => .pure ⟨rfl, after⟩

/-- What comes after the debug section of `std_radix_getexact`. -/
theorem SameView.getexactDebug (v : SameView d p) (addr : Option Addr) (bitlen : Nat) :
    ∃ early key d' p', getexactDebug d addr bitlen = (early, key, d') ∧ getexactDebug p addr bitlen = (early, key, p') ∧
      SameView d' p' := by
  unfold Radix.getexactDebug
  rw [v.debug]
  cases d.rttDebug with
  | false => exact ⟨_, _, _, _, rfl, rfl, v⟩
  | true =>
    cases addr with
    | none => exact ⟨_, _, _, _, rfl, rfl, v⟩
    | some addr =>
      obtain ⟨key, after⟩ := v.convertKey addr
      simp only [key, after.len, if_true]
      exact ⟨_, _, _, _, rfl, rfl, after⟩

theorem SameView.getexact (v : SameView d p) (addr : Option Addr) :
    Agree SameAnswer (stdRadixGetexact d addr bitlen) (stdRadixGetexact p addr bitlen) := by
  obtain ⟨early, key, d', p', here, there, after⟩ := v.getexactDebug addr bitlen
  unfold stdRadixGetexact
  rw [v.validate_eq, here, there]
  apply Agree.same
  intro _
  simp only [after.root, after.descend_eq, after.node_eq]
  split
  · exact .pure ⟨rfl, after⟩
  · cases d'.rttRoot with
    | none => exact .pure ⟨rfl, after⟩
    | some root =>
      apply Agree.same
      intro ap
      apply Agree.same
      intro rtn
      cases live : d'.nodes rtn with
      | none =>
        rw [node_freed live]
        exact .fails .freed
      | some n =>
        simp only [node_of live, ok_bind]
        split
        · exact .pure ⟨rfl, after⟩
        · cases head : n.rtnRth with
          | none => exact .pure ⟨rfl, after⟩
          | some rth =>
            simp only [after.headAddr_eq live head]
            apply Agree.same
            intro his
            split
            · exact .pure ⟨rfl, after⟩
            · split
              · exact .pure ⟨rfl, after⟩
              · exact .pure ⟨rfl, after⟩

theorem SameView.call (v : SameView d p) {c : Call} (looks : c.Looks) :
    Agree SameAnswer (c.perform d) (c.perform p) := by
  have told {α : Type} {a b : Except Fault (α × Rtt)} (f : α → Value) (same : Agree SameAnswer a b) :
      Agree SameAnswer (a >>= fun r => pure (f r.1, r.2)) (b >>= fun r => pure (f r.1, r.2)) :=
    same.bind fun r r' ⟨equal, view⟩ => .pure ⟨by rw [equal], view⟩
  cases c with
  | getexact addr bitlen => exact told _ (v.getexact addr)
  | getbest addr bitlen => exact told _ (v.getbest addr)
  | getbestandprev addr bitlen => exact told (fun r => .two r.1 r.2) (v.getbestandprev addr)
  | getnextbest addr bitlen => exact told _ (v.getnextbest addr)
  | getnext dest bitlen => exact told _ (v.getnext dest)
  | fill | insert | remove | setversion => exact looks.elim

/-- **Lookups** of tables that lookups cannot tell apart. -/
theorem SameView.answers (v : SameView d p) {calls : List Call} (look : ∀ c ∈ calls, c.Looks) :
    answers p calls = answers d calls := by
  induction calls generalizing d p with
  | nil => rfl
  | cons c cs ih =>
    obtain ⟨looks, rest⟩ := List.forall_mem_cons.mp look
    have same := v.call looks
    unfold Radix.answers
    generalize c.perform d = here at same ⊢
    generalize c.perform p = there at same ⊢
    cases same with
    | fails e => rfl
    | gives related =>
      obtain ⟨equal, view⟩ := related
      simp only [ok_bind, ← equal, ih view rest]

/-! ## The insertion -/

/-- What `std_radix_insert` has left of the table `rtt` when it has changed no more than the
fields of its own head, the buffer, and counters of calls. -/
structure Spared (rth : HeadId) (rtt m : Rtt) : Prop where
  nodes : m.nodes = rtt.nodes
  root : m.rttRoot = rtt.rttRoot
  magic : m.rttMagic = rtt.rttMagic
  len : m.rttMaxaddrlen = rtt.rttMaxaddrlen
  debug : m.rttDebug = rtt.rttDebug
  convert : m.rttConvert = rtt.rttConvert
  junk : ∀ i, rtt.keyBytes ≤ i → m.temp i = rtt.temp i
  inodes : m.rttInodes = rtt.rttInodes
  routes : m.rttRoutes = rtt.rttRoutes
  balance : m.rttNmalloc - m.rttNfree = rtt.rttNmalloc - rtt.rttNfree
  heads : ∀ h, h ≠ rth → m.heads h = rtt.heads h

theorem Spared.refl (rth : HeadId) (rtt : Rtt) : Spared rth rtt rtt :=
  ⟨rfl, rfl, rfl, rfl, rfl, rfl, fun _ _ => rfl, rfl, rfl, rfl, fun _ _ => rfl⟩

theorem Spared.writeHead (s : Spared rth rtt m) (f : RtHead → RtHead) : Spared rth rtt (m.writeHead rth f) := by
  refine ⟨s.nodes, s.root, s.magic, s.len, s.debug, s.convert, s.junk, s.inodes, s.routes, s.balance, fun h other => ?_⟩
  rw [heads_writeHead, if_neg other]
  exact s.heads h other

theorem Spared.view (s : Spared rth rtt m) (unused : rth ∉ rtt.stored)
    (inside : ∀ convert, rtt.rttConvert = some convert → Inside convert rtt.rttMaxaddrlen) : SameView rtt m := by
  refine ⟨⟨s.nodes, fun h stored => ?_⟩, s.root, s.magic, s.len, s.debug, s.convert, s.junk, inside⟩
  have other : h ≠ rth := fun same => unused (same ▸ stored)
  rw [s.heads h other]

theorem spared_convertKey (inside : ∀ convert, rtt.rttConvert = some convert → Inside convert rtt.rttMaxaddrlen)
    (addr : Addr) : Spared rth rtt (rtt.convertKey addr).2 := by
  cases some_ : rtt.rttConvert with
  | none =>
    rw [convertKey_none some_]
    exact .refl rth rtt
  | some convert =>
    rw [convertKey_some some_]
    refine ⟨rfl, rfl, rfl, rfl, rfl, rfl, fun i far => ?_, rfl, rfl, rfl, fun _ _ => rfl⟩
    have past : ¬i < rtt.keyBytes := Nat.not_lt.mpr far
    have kept := inside convert some_ addr (fun i => if i < rtt.keyBytes then 0 else rtt.temp i) i far
    rwa [if_neg past] at kept

theorem spared_insertKey (inside : ∀ convert, rtt.rttConvert = some convert → Inside convert rtt.rttMaxaddrlen)
    (key : Option Addr) : Ensures (insertKey rtt rth key) fun r => Spared rth rtt r.2 := by
  unfold insertKey
  split
  · rename_i addr _ _
    have converted : Spared rth rtt (rtt.convertKey addr).2 := spared_convertKey inside addr
    dsimp only
    split
    · split
      · exact .pure converted
      · apply Ensures.pure
        dsimp only
        exact converted.writeHead _
    · apply Ensures.check
      intro _
      apply Ensures.check
      intro _
      exact .pure converted
  · apply Ensures.check
    intro _
    apply Ensures.pure
    dsimp only
    exact (Spared.refl rth rtt).writeHead _

theorem spared_insertDebug (s : Spared rth rtt m) (bitlen : Nat) : Spared rth rtt (insertDebug m rth bitlen).2 := by
  unfold insertDebug
  split
  · have cleared := s.writeHead fun h => { h with rthRtn := none, rthVersion := 0 }
    unfold clearLinks
    dsimp only
    split
    · obtain ⟨nodes, root, magic, len, debug, convert, junk, inodes, routes, balance, heads⟩ :=
        cleared.writeHead fun h => { h with rdclFlags := 0 }
      exact ⟨nodes, root, magic, len, debug, convert, junk, inodes, routes, balance, heads⟩
    · exact cleared
  · exact s

/-- If NULL is returned, the table has been spared. -/
def Refuses (rth : HeadId) (rtt : Rtt) (r : Option HeadId × Rtt) : Prop := r.1 = none → Spared rth rtt r.2

theorem insertAttach_returns : Ensures (insertAttach m rth i n) fun r => r.1 ≠ none := by
  unfold insertAttach
  split
  · rename_i taken
    refine .pure fun none_ => ?_
    have head : n.rtnRth = none := none_
    simp [head] at taken
  · exact .any fun _ => .any fun _ => .pure (Option.some_ne_none rth)

theorem insertBelow_returns {ap : Addr} {dbit : Nat} {add : NodeId} :
    Ensures (insertBelow m rth ap bitlen dbit i add) fun r => r.1 ≠ none := by
  refine .any fun _ => .any fun _ => .any fun _ => ?_
  split
  · exact .any fun _ => .any fun _ => .pure (Option.some_ne_none rth)
  · exact .any fun _ => .any fun _ => .pure (Option.some_ne_none rth)

theorem insertAbove_returns {new : NodeId} {prev : Option NodeId} :
    Ensures (insertAbove m rth i new prev) fun r => r.1 ≠ none :=
  .any fun _ => .any fun _ => .any fun _ => .any fun _ => .any fun _ => .pure (Option.some_ne_none rth)

theorem insertAt_refuses (s : Spared rth rtt m) {ap his : Addr} {dbit : Nat} {prev add new : Option NodeId}
    (unused : ∀ i, add = some i → m.nodes i = none) :
    Ensures (insertAt m rth ap his bitlen dbit i prev add new) (Refuses rth rtt) := by
  have returned {c : Except Fault (Option HeadId × Rtt)} (some_ : Ensures c fun r => r.1 ≠ none) :
      Ensures c (Refuses rth rtt) := some_.mono fun r given none_ => absurd none_ given
  apply Ensures.any
  intro n
  split
  · exact returned insertAttach_returns
  · cases add with
    | none => exact .pure fun _ => s
    | some add =>
      dsimp only
      split
      · exact returned insertBelow_returns
      · split
        · split
          · exact .any fun _ => returned insertAbove_returns
          · exact .any fun _ => returned insertAbove_returns
        · cases new with
          | none =>
            refine .pure fun _ => ?_
            obtain ⟨nodes, root, magic, len, debug, convert, junk, inodes, routes, balance, heads⟩ :=
              s.writeHead fun h => { h with rthRtn := some add }
            refine ⟨?_, root, magic, len, debug, convert, junk, ?_, routes, ?_, heads⟩
            · rw [← s.nodes]
              funext j
              rw [nodes_freeNode]
              split
              · rename_i mine
                rw [mine, unused add rfl]
              · rename_i other
                rw [nodes_writeHead, nodes_addNode, if_neg other]
            · change m.rttInodes + 1 - 1 = rtt.rttInodes
              rw [← s.inodes]
              grind
            · change m.rttNmalloc + 1 - (m.rttNfree + 1) = _
              rw [← s.balance]
              grind
          | some new =>
            apply Ensures.any
            intro _
            split
            · exact .any fun _ => returned insertAbove_returns
            · exact .any fun _ => returned insertAbove_returns

theorem insertTree_refuses (s : Spared rth rtt m) (unused : ∀ i, mem.add = some i → m.nodes i = none) :
    Ensures (insertTree m rth bitlen mem) (Refuses rth rtt) := by
  have counted : Spared rth rtt m.countInsert := by
    obtain ⟨nodes, root, magic, len, debug, convert, junk, inodes, routes, balance, heads⟩ := s
    exact ⟨nodes, root, magic, len, debug, convert, junk, inodes, routes, balance, heads⟩
  unfold insertTree
  dsimp only
  split
  · split
    · exact .pure fun _ => counted
    · exact .pure nofun
  · apply Ensures.any
    intro addr
    unfold insertInto
    refine .any fun _ => .any fun _ => .any fun _ => .any fun _ => .any fun _ => .any fun _ => ?_
    exact insertAt_refuses counted unused

/-- **An insertion that fails** leaves the tree and its counters as they were, and every
lookup after it returns what it would have returned before. -/
theorem failed_insert (unused : rth ∉ rtt.stored) (fair : mem.Fair rtt)
    (inside : ∀ convert, rtt.rttConvert = some convert → Inside convert rtt.rttMaxaddrlen)
    (run : stdRadixInsert rtt rth bitlen mem = .ok (none, rtt')) :
    rtt'.rttRoot = rtt.rttRoot ∧ rtt'.nodes = rtt.nodes ∧ rtt'.rttInodes = rtt.rttInodes ∧
      rtt'.rttRoutes = rtt.rttRoutes ∧ rtt'.rttNmalloc - rtt'.rttNfree = rtt.rttNmalloc - rtt.rttNfree ∧
      ∀ calls : List Call, (∀ c ∈ calls, c.Looks) → answers rtt' calls = answers rtt calls := by
  have refuses : Ensures (stdRadixInsert rtt rth bitlen mem) (Refuses rth rtt) := by
    apply Ensures.bind (spared_insertKey inside mem.key)
    rintro ⟨keyed, m⟩ spared
    dsimp only
    split
    · exact .pure fun _ => spared
    · apply Ensures.any
      intro _
      have debugged := spared_insertDebug spared bitlen
      generalize insertDebug m rth bitlen = r at debugged ⊢
      obtain ⟨early, m'⟩ := r
      dsimp only at debugged ⊢
      split
      · exact .pure fun _ => debugged
      · apply insertTree_refuses debugged
        intro i given
        rw [debugged.nodes]
        exact fair.unused i (.inl given)
  have spared : Spared rth rtt rtt' := refuses.of_ok _ run rfl
  exact ⟨spared.root, spared.nodes, spared.inodes, spared.routes, spared.balance,
    fun calls look => (spared.view unused inside).answers look⟩

/-- `freshTable` with 128.0.0.0/1, the head 1. -/
def upperTable : Rtt :=
  match stdRadixInsert freshTable 1 1 ⟨none, some 0, none⟩ with
  | .ok (_, rtt) => rtt
  | .error _ => freshTable

/-- `upperTable` after an insertion of 0.0.0.0/1, the head 0, for which there is memory for
one node and not for two. -/
def refusedTable : Rtt :=
  match stdRadixInsert upperTable 0 1 ⟨none, some 1, none⟩ with
  | .ok (_, rtt) => rtt
  | .error _ => freshTable

theorem failed_insert_upper :
    refusedTable.rttRoot = upperTable.rttRoot ∧ refusedTable.nodes = upperTable.nodes ∧
      refusedTable.rttInodes = upperTable.rttInodes ∧ refusedTable.rttRoutes = upperTable.rttRoutes ∧
      refusedTable.rttNmalloc - refusedTable.rttNfree = upperTable.rttNmalloc - upperTable.rttNfree ∧
      ∀ calls : List Call, (∀ c ∈ calls, c.Looks) → answers refusedTable calls = answers upperTable calls := by
  have nodes (i : NodeId) (other : i ≠ 0) : upperTable.nodes i = none := by
    change (Function.update (fun _ => none) 0 _ : NodeId → Option RtNode) i = none
    simp [other]
  have unused : 0 ∉ upperTable.stored := by
    rintro ⟨i, n, live, head⟩
    by_cases same : i = 0
    · subst same
      obtain rfl := Option.some.inj live
      cases head
    · cases (nodes i same).symm.trans live
  have fair : Allocs.Fair ⟨none, some 1, none⟩ upperTable := by
    refine ⟨fun i given => ?_, nofun⟩
    rcases given with given | given
    · obtain rfl := Option.some.inj given
      exact nodes 1 (by decide)
    · cases given
  have inside : ∀ convert, upperTable.rttConvert = some convert → Inside convert upperTable.rttMaxaddrlen := nofun
  have run : stdRadixInsert upperTable 0 1 ⟨none, some 1, none⟩ = .ok (none, refusedTable) := rfl
  exact failed_insert unused fair inside run

end SonicUtils.Radix
