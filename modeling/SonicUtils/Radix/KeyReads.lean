import SonicUtils.Radix.Standing

/-!
# What is read of a key

The indices of the bytes that lookups and insertions read of the key that they are given,
or of `temp`, in the order of the reads. Where the key is compared with that of a head,
the same bytes are read of both.

* `Sized`: what bounds them;
* `backtrackReads_iff`: the comparisons, which read a byte too many at a node of full length;
* `getbestReads_iff`, `getexactReads_iff`, `getnextReads_inside`, `insertReads_inside`.
-/

namespace SonicUtils.Radix

open PtrTree BitTrie

/-- The reads after `c`, if it succeeds. -/
def thenReads {α : Type} (c : Except Fault α) (f : α → List Nat) : List Nat :=
  match c with
  | .ok a => f a
  | .error _ => []

/-- The reads of `rdx_compare_address`. -/
def compareReads (ap1 ap2 : Addr) (tbyte : Nat) (tbit : UInt8) : List Nat :=
  let mask := ~~~ (tbit ||| (tbit - 1))
  tbyte :: if (ap1 tbyte ^^^ ap2 tbyte) &&& mask != 0 then [] else List.range tbyte

/-- The reads of the loop over `dbit`. -/
def diffReads (ap ap2 : Addr) (bits2chk : Nat) : Nat → Nat → List Nat
  | 0, _ => []
  | fuel + 1, dbit =>
    if dbit < bits2chk then
      let i := rnByte dbit
      i :: if ap i != ap2 i then [] else diffReads ap ap2 bits2chk fuel ((dbit + 8) % 2 ^ 16)
    else []

namespace Rtt

/-- The reads of the searches down the tree. -/
def descendReads (rtt : Rtt) (ap : Addr) (more : RtNode → Bool) : Nat → NodeId → List Nat
  | 0, _ => []
  | fuel + 1, rtn =>
    thenReads (rtt.node rtn) fun n =>
      if more n then
        rnByte n.rtnBit ::
          if bitTest (ap (rnByte n.rtnBit)) n.rtnTbit then
            match n.rtnRight with
            | none => []
            | some right => descendReads rtt ap more fuel right
          else
            match n.rtnLeft with
            | none => []
            | some left => descendReads rtt ap more fuel left
      else []

/-- The reads of the way back. -/
def backtrackReads (rtt : Rtt) (addr : Addr) (bitlen : Nat) : Nat → Option NodeId → List Nat
  | _, none => []
  | 0, some _ => []
  | fuel + 1, some rtn =>
    thenReads (rtt.node rtn) fun n =>
      if n.rtnBit > bitlen then backtrackReads rtt addr bitlen fuel n.rtnParent
      else
        match n.rtnRth with
        | none => backtrackReads rtt addr bitlen fuel n.rtnParent
        | some rth =>
          thenReads (rtt.headAddr rth) fun his =>
            compareReads addr his (rnByte n.rtnBit) n.rtnTbit ++
              if rdxCompareAddress addr his (rnByte n.rtnBit) n.rtnTbit then
                backtrackReads rtt addr bitlen fuel n.rtnParent
              else []

end Rtt

open Rtt

/-- The reads of the three lookups of best prefixes: `rest` reads on, from the node of
the best one. -/
def bestReads (rtt : Rtt) (addr : Addr) (bitlen : Nat) (rest : Rtt → Addr → Option NodeId → List Nat) : List Nat :=
  let (addr, rtt) := rtt.convertKey addr
  thenReads rtt.validateHandle fun _ =>
    if rtt.rttDebug ∧ bitlen > rtt.rttMaxaddrlen then []
    else
      match rtt.rttRoot with
      | none => []
      | some rtn =>
        rtt.descendReads addr (fun n => n.rtnBit < bitlen) pathFuel rtn ++
          thenReads (rtt.descend addr (fun n => n.rtnBit < bitlen) pathFuel rtn) fun rtn =>
            rtt.backtrackReads addr bitlen pathFuel (some rtn) ++
              thenReads (rtt.backtrack addr bitlen pathFuel (some rtn)) (rest rtt addr)

/-- The reads of the search for the second best. -/
def secondReads (bitlen : Nat) (rtt : Rtt) (addr : Addr) : Option NodeId → List Nat
  | none => []
  | some rtn =>
    thenReads (rtt.node rtn) fun n =>
      if n.marked then [] else rtt.backtrackReads addr bitlen pathFuel n.rtnParent

def getbestReads (rtt : Rtt) (addr : Addr) (bitlen : Nat) : List Nat :=
  bestReads rtt addr bitlen fun _ _ _ => []

def getbestandprevReads (rtt : Rtt) (addr : Addr) (bitlen : Nat) : List Nat :=
  bestReads rtt addr bitlen (secondReads bitlen)

def getnextbestReads (rtt : Rtt) (addr : Addr) (bitlen : Nat) : List Nat :=
  bestReads rtt addr bitlen (secondReads bitlen)

/-- The key that `std_radix_getexact` works on. -/
def getexactKey (rtt : Rtt) (addr : Addr) : Addr := if rtt.rttDebug then (rtt.convertKey addr).1 else addr

def getexactReads (rtt : Rtt) (addr : Addr) (bitlen : Nat) : List Nat :=
  thenReads rtt.validateHandle fun _ =>
    let (early, addr, rtt) := getexactDebug rtt (some addr) bitlen
    if early then []
    else
      match rtt.rttRoot with
      | none => []
      | some rtn =>
        thenReads (deref addr) fun ap =>
          rtt.descendReads ap (fun n => n.rtnBit < bitlen) pathFuel rtn ++
            thenReads (rtt.descend ap (fun n => n.rtnBit < bitlen) pathFuel rtn) fun rtn =>
              thenReads (rtt.node rtn) fun n =>
                if n.rtnBit ≠ bitlen then []
                else
                  match n.rtnRth with
                  | none => []
                  | some rth =>
                    thenReads (rtt.headAddr rth) fun his => compareReads ap his (rnByte n.rtnBit) n.rtnTbit

/-- The reads of the search that `std_radix_getnext` and `std_radix_insert` share; `rest`
reads on, from the node that it ends at and the first difference. -/
def searchReads (rtt : Rtt) (ap : Addr) (bitlen : Nat) (rtn : NodeId)
    (rest : NodeId → RtNode → Addr → Nat → List Nat) : List Nat :=
  rtt.descendReads ap (fun n => n.rtnBit < bitlen || n.rtnRth = none) pathFuel rtn ++
    thenReads (rtt.descend ap (fun n => n.rtnBit < bitlen || n.rtnRth = none) pathFuel rtn) fun rtn =>
      thenReads (rtt.node rtn) fun n =>
        thenReads (deref n.rtnRth >>= rtt.headAddr) fun his =>
          diffReads ap his (min n.rtnBit bitlen) diffFuel 0 ++
            thenReads (firstDiff ap his (min n.rtnBit bitlen) diffFuel 0) (rest rtn n his)

def getnextReads (rtt : Rtt) (dest : Option Addr) (bitlen : Nat) : List Nat :=
  match dest with
  | none => []
  | some ap =>
    let (ap, rtt) := rtt.convertKey ap
    thenReads rtt.validateHandle fun _ =>
      if rtt.rttDebug ∧ bitlen > rtt.rttMaxaddrlen then []
      else
        match rtt.rttRoot with
        | none => []
        | some rtn =>
          searchReads rtt ap bitlen rtn fun _ n _ dbit =>
            if dbit ≥ min n.rtnBit bitlen then [] else [rnByte dbit]

/-- The reads of the first section of `std_radix_insert`: of `temp`, to copy it or to
compare it with the key of the head. -/
def insertKeyReads (rtt : Rtt) (rth : HeadId) (key : Option Addr) : List Nat :=
  match rtt.rttConvert, (rtt.heads rth).rthAddr with
  | some _, some _ =>
    match (rtt.heads rth).rdxRthAddr, key with
    | none, none => []
    | _, _ => List.range rtt.keyBytes
  | _, _ => []

/-- The reads of `insertAt`: at the end, below, or above `rtn`. -/
def insertAtReads (rtt : Rtt) (bitlen dbit : Nat) (rtn : NodeId) (add new : Option NodeId) : List Nat :=
  thenReads (rtt.node rtn) fun n =>
    if dbit = bitlen ∧ n.rtnBit = bitlen then []
    else
      match add with
      | none => []
      | some _ =>
        if n.rtnBit = dbit then [rnByte n.rtnBit]
        else if dbit = bitlen then [rnByte bitlen]
        else
          match new with
          | none => []
          | some _ => [rnByte dbit]

def insertReads (rtt : Rtt) (rth : HeadId) (bitlen : Nat) (mem : Allocs) : List Nat :=
  insertKeyReads rtt rth mem.key ++
    thenReads (insertKey rtt rth mem.key) fun (keyed, rtt) =>
      if !keyed then []
      else
        thenReads rtt.validateHandle fun _ =>
          let (early, rtt) := insertDebug rtt rth bitlen
          if early then []
          else
            match rtt.rttRoot with
            | none => []
            | some root =>
              thenReads (rtt.headAddr rth) fun addr =>
                searchReads rtt addr bitlen root fun rtn n _ dbit =>
                  let dbit := min dbit (min n.rtnBit bitlen)
                  thenReads (rtt.climbWhile (fun p => p.rtnBit ≥ dbit) pathFuel rtn) fun (rtn, _) =>
                    insertAtReads rtt bitlen dbit rtn mem.add mem.new

/-- All reads are of the first `bytes` bytes. -/
def InBytes (bytes : Nat) (reads : List Nat) : Prop := ∀ i ∈ reads, i < bytes

/-- All bits of a key are asked for, these are whole bytes, and the way down that the bits
of the key choose ends at a node of full length. -/
def Overruns (rtt : Rtt) (key : Addr) (bitlen : Nat) : Prop :=
  bitlen = rtt.rttMaxaddrlen ∧ 8 ∣ bitlen ∧
    ∃ root rtn n, rtt.rttRoot = some root ∧ rtt.descend key (fun _ => true) pathFuel root = .ok rtn ∧
      rtt.nodes rtn = some n ∧ n.rtnBit = bitlen

/-- How long the prefixes of nodes are: those of full length are leaves with a head. -/
structure Sized (rtt : Rtt) : Prop where
  bound : ∀ i n, rtt.nodes i = some n → n.rtnBit ≤ rtt.rttMaxaddrlen
  bare : ∀ i n, rtt.nodes i = some n → n.rtnRth = none → n.rtnBit < rtt.rttMaxaddrlen
  leaf : ∀ i n, rtt.nodes i = some n → n.rtnBit = rtt.rttMaxaddrlen → n.rtnLeft = none ∧ n.rtnRight = none
  above : ∀ i n p m, rtt.nodes i = some n → n.rtnParent = some p → rtt.nodes p = some m → m.rtnBit < rtt.rttMaxaddrlen

variable {rtt m : Rtt} {t : RtTree} {ap his addr : Addr} {bitlen bytes fuel : Nat} {i rtn : NodeId} {n : RtNode}
  {reads : List Nat} {x : Node NodeId HeadId} {l r : RtTree}

/-- A node below another has a longer prefix. -/
theorem Represents.longer (rep : Represents rtt t) {fs : List (Frame (Node NodeId HeadId))}
    (whole : t = plug fs (.node x l r)) (below : l ≠ .nil ∨ r ≠ .nil) : x.2.stem.length < rtt.rttMaxaddrlen := by
  subst whole
  obtain ⟨_, _, left, right⟩ := (trie_plug.mp rep.trie).1
  have under {y : Node NodeId HeadId} (b : Bool) (inside : y ∈ nodes l ∨ y ∈ nodes r)
      (extends_ : x.2.stem ++ [b] <+: y.2.stem) : x.2.stem.length < rtt.rttMaxaddrlen := by
    have hy : y ∈ nodes (plug fs (.node x l r)) := by
      apply mem_nodes_plug.mpr
      rcases inside with inside | inside <;> simp [inside]
    have bounded := rep.bounded y hy
    have longer := extends_.length_le
    rw [List.length_append, List.length_singleton] at longer
    omega
  rcases below with below | below
  · cases l with
    | nil => exact absurd rfl below
    | node y yl yr =>
      have top : y ∈ nodes (.node y yl yr) := by simp
      exact under false (.inl top) (left.stem_extends top)
  · cases r with
    | nil => exact absurd rfl below
    | node y yl yr =>
      have top : y ∈ nodes (.node y yl yr) := by simp
      exact under true (.inr top) (right.stem_extends top)

theorem Standing.sized (s : Standing rtt t) : Sized rtt := by
  have leaf (i : NodeId) (n : RtNode) (live : rtt.nodes i = some n) (full : n.rtnBit = rtt.rttMaxaddrlen) :
      n.rtnLeft = none ∧ n.rtnRight = none := by
    obtain ⟨fs, x, l, r, whole, _, holds⟩ := s.place live
    have bit := holds.bit
    have empty : ¬(l ≠ .nil ∨ r ≠ .nil) := fun below => by
      have longer := s.rep.longer whole below
      omega
    rw [not_or, not_not, not_not] at empty
    rw [holds.left, holds.right, empty.1, empty.2]
    exact ⟨rfl, rfl⟩
  refine ⟨fun i n live => ?_, fun i n live bare => ?_, leaf, fun i n p m live parent above => ?_⟩
  · obtain ⟨fs, x, l, r, rfl, _, holds⟩ := s.place live
    rw [holds.bit]
    exact s.rep.bounded x (mem_nodes_plug.mpr (.inl (by simp)))
  · obtain ⟨fs, x, l, r, rfl, _, holds⟩ := s.place live
    obtain ⟨_, two, _⟩ := (trie_plug.mp s.rep.trie).1
    rw [holds.bit]
    exact s.rep.longer rfl (.inl (two (holds.rth.symm.trans bare)).1)
  · obtain ⟨fs, x, l, r, rfl, _, holds⟩ := s.place live
    cases fs with
    | nil => cases holds.parent.symm.trans parent
    | cons f fs =>
      obtain ⟨m', here, pholds⟩ := holds_above s.rep.linked
      obtain rfl : f.node.1 = p := Option.some.inj (holds.parent.symm.trans parent)
      obtain rfl := Option.some.inj (above.symm.trans here)
      have bound : m.rtnBit ≤ rtt.rttMaxaddrlen := by
        rw [pholds.bit]
        exact s.rep.bounded f.node (mem_nodes_plug.mpr (.inr (by simp)))
      by_contra long
      obtain ⟨left, right⟩ := leaf _ m above (by omega)
      rw [pholds.left] at left
      rw [pholds.right] at right
      cases side : f.side with
      | false => simp [Frame.links, side] at left
      | true => simp [Frame.links, side] at right

theorem Sized.congr (sized : Sized rtt) (nodes : m.nodes = rtt.nodes) (len : m.rttMaxaddrlen = rtt.rttMaxaddrlen) :
    Sized m := by
  constructor
  all_goals rw [nodes, len]
  · exact sized.bound
  · exact sized.bare
  · exact sized.leaf
  · exact sized.above

/-! ## Reads in general -/

@[simp] theorem inBytes_nil : InBytes bytes [] := nofun

@[simp] theorem inBytes_append {more : List Nat} : InBytes bytes (reads ++ more) ↔ InBytes bytes reads ∧ InBytes bytes more :=
  List.forall_mem_append

@[simp] theorem inBytes_cons {i : Nat} : InBytes bytes (i :: reads) ↔ i < bytes ∧ InBytes bytes reads := List.forall_mem_cons

theorem inBytes_thenReads {α : Type} {c : Except Fault α} {f : α → List Nat} (each : ∀ a, c = .ok a → InBytes bytes (f a)) :
    InBytes bytes (thenReads c f) := by
  cases c with
  | error e => exact inBytes_nil
  | ok a => exact each a rfl

theorem thenReads_ok {α : Type} {c : Except Fault α} {a : α} (run : c = .ok a) (f : α → List Nat) :
    thenReads c f = f a := by
  rw [run, thenReads]

theorem node_eq_ok : rtt.node rtn = .ok n ↔ rtt.nodes rtn = some n := by
  constructor
  · intro run
    cases live : rtt.nodes rtn with
    | none =>
      rw [Rtt.node, live] at run
      cases run
    | some a =>
      rw [node_of live] at run
      rw [Except.ok.inj run]
  · exact node_of

theorem byte_inside {b : Nat} (short : b < rtt.rttMaxaddrlen) : rnByte b < rtt.keyBytes := by
  rw [rnByte_eq, Rtt.keyBytes]
  omega

/-- The byte behind the last bit is in the key unless that ends with a whole byte. -/
theorem byte_behind : rnByte rtt.rttMaxaddrlen < rtt.keyBytes ↔ ¬8 ∣ rtt.rttMaxaddrlen := by
  rw [rnByte_eq, Rtt.keyBytes]
  omega

theorem compare_inside {tbyte : Nat} {tbit : UInt8} : InBytes bytes (compareReads ap his tbyte tbit) ↔ tbyte < bytes := by
  unfold compareReads
  rw [inBytes_cons, and_iff_left_iff_imp]
  intro small
  split
  · exact inBytes_nil
  · intro i hi
    exact (List.mem_range.mp hi).trans small

theorem diff_inside {bits2chk : Nat} (room : bits2chk ≤ rtt.rttMaxaddrlen) (fuel dbit : Nat) :
    InBytes rtt.keyBytes (diffReads ap his bits2chk fuel dbit) := by
  induction fuel generalizing dbit with
  | zero => exact inBytes_nil
  | succ fuel ih =>
    rw [diffReads]
    split
    · refine inBytes_cons.mpr ⟨byte_inside (by omega), ?_⟩
      split
      · exact inBytes_nil
      · exact ih _
    · exact inBytes_nil

/-! ## Searches down -/

theorem descend_inside {more : RtNode → Bool}
    (short : ∀ i n, rtt.nodes i = some n → more n = true → n.rtnBit < rtt.rttMaxaddrlen) (fuel : Nat) (rtn : NodeId) :
    InBytes rtt.keyBytes (rtt.descendReads ap more fuel rtn) := by
  induction fuel generalizing rtn with
  | zero => exact inBytes_nil
  | succ fuel ih =>
    rw [Rtt.descendReads]
    apply inBytes_thenReads
    intro n live
    split
    · rename_i go
      refine inBytes_cons.mpr ⟨byte_inside (short rtn n (node_eq_ok.mp live) go), ?_⟩
      split
      · cases n.rtnRight with
        | none => exact inBytes_nil
        | some right => exact ih right
      · cases n.rtnLeft with
        | none => exact inBytes_nil
        | some left => exact ih left
    · exact inBytes_nil

/-- A search for all bits of a key is not stopped by their number. -/
theorem descend_full (sized : Sized rtt) (ap : Addr) (fuel : Nat) (rtn : NodeId) :
    rtt.descend ap (fun n => n.rtnBit < rtt.rttMaxaddrlen) fuel rtn = rtt.descend ap (fun _ => true) fuel rtn := by
  induction fuel generalizing rtn with
  | zero => rfl
  | succ fuel ih =>
    cases live : rtt.nodes rtn with
    | none =>
      simp only [Rtt.descend, Rtt.node, live]
      rfl
    | some n =>
      simp only [Rtt.descend, node_of live, ok_bind]
      by_cases short : n.rtnBit < rtt.rttMaxaddrlen
      · simp only [short, decide_true, if_true, ih]
      · have bound := sized.bound rtn n live
        obtain ⟨left, right⟩ := sized.leaf rtn n live (by omega)
        simp [short, left, right]

theorem descend_nodes (same : m.nodes = rtt.nodes) (ap : Addr) (more : RtNode → Bool) (fuel : Nat) (rtn : NodeId) :
    m.descend ap more fuel rtn = rtt.descend ap more fuel rtn := by
  induction fuel generalizing rtn with
  | zero => rfl
  | succ fuel ih => simp only [Rtt.descend, Rtt.node, same, ih]

theorem descend_live {more : RtNode → Bool} {y : NodeId} (run : rtt.descend ap more fuel rtn = .ok y) :
    ∃ n, rtt.nodes y = some n := by
  induction fuel generalizing rtn with
  | zero => cases run
  | succ fuel ih =>
    cases live : rtt.nodes rtn with
    | none =>
      simp only [Rtt.descend, Rtt.node, live] at run
      cases run
    | some n =>
      have here (stop : (.ok rtn : Except Fault NodeId) = .ok y) : ∃ n, rtt.nodes y = some n := by
        cases stop
        exact ⟨n, live⟩
      simp only [Rtt.descend, node_of live, ok_bind] at run
      split at run
      · split at run
        · split at run
          · exact here run
          · exact ih run
        · split at run
          · exact here run
          · exact ih run
      · exact here run

/-- The heads of nodes have keys. -/
def Readable (rtt : Rtt) : Prop := ∀ i n h, rtt.nodes i = some n → n.rtnRth = some h → ∃ his, rtt.headAddr h = .ok his

theorem Standing.readable (s : Standing rtt t) : Readable rtt := by
  intro i n h live head
  obtain ⟨_, his, key, _⟩ := s.attached live head
  exact ⟨his, by rw [Rtt.headAddr, key, deref_some]⟩

/-! ## Comparisons on the way back -/

/-- Above a node the prefixes are shorter than a key. -/
theorem backtrack_inside (sized : Sized rtt) (ap : Addr) (bitlen fuel : Nat) {prev : Option NodeId}
    (above : ∀ p m, prev = some p → rtt.nodes p = some m → m.rtnBit < rtt.rttMaxaddrlen) :
    InBytes rtt.keyBytes (rtt.backtrackReads ap bitlen fuel prev) := by
  induction fuel generalizing prev with
  | zero => cases prev <;> exact inBytes_nil
  | succ fuel ih =>
    cases prev with
    | none => exact inBytes_nil
    | some p =>
      rw [Rtt.backtrackReads]
      apply inBytes_thenReads
      intro n live
      have live' := node_eq_ok.mp live
      have up : InBytes rtt.keyBytes (rtt.backtrackReads ap bitlen fuel n.rtnParent) :=
        ih fun q m parent at_ => sized.above p n q m live' parent at_
      split
      · exact up
      · split
        · exact up
        · apply inBytes_thenReads
          intro his _
          refine inBytes_append.mpr ⟨compare_inside.mpr (byte_inside (above p n rfl live')), ?_⟩
          split
          · exact up
          · exact inBytes_nil

/-- **The comparisons.** From a node up they read inside the key unless the node is of full
length, all bits are asked for, and these are whole bytes. -/
theorem backtrackReads_iff (sized : Sized rtt) (readable : Readable rtt) (live : rtt.nodes rtn = some n)
    (valid : bitlen ≤ rtt.rttMaxaddrlen) (ap : Addr) (fuel : Nat) :
    InBytes rtt.keyBytes (rtt.backtrackReads ap bitlen (fuel + 1) (some rtn)) ↔
      ¬(bitlen = rtt.rttMaxaddrlen ∧ 8 ∣ bitlen ∧ n.rtnBit = bitlen) := by
  have bound := sized.bound rtn n live
  have up : InBytes rtt.keyBytes (rtt.backtrackReads ap bitlen fuel n.rtnParent) :=
    backtrack_inside sized ap bitlen fuel fun q m parent at_ => sized.above rtn n q m live parent at_
  rw [Rtt.backtrackReads, thenReads_ok (node_of live)]
  split
  · exact iff_of_true up (by omega)
  · rename_i reached
    cases head : n.rtnRth with
    | none =>
      have short := sized.bare rtn n live head
      exact iff_of_true up (by omega)
    | some rth =>
      obtain ⟨his, key⟩ := readable rtn n rth live head
      have rest : InBytes rtt.keyBytes (if rdxCompareAddress ap his (rnByte n.rtnBit) n.rtnTbit then
          rtt.backtrackReads ap bitlen fuel n.rtnParent else []) := by
        split
        · exact up
        · exact inBytes_nil
      simp only [thenReads_ok key, inBytes_append, compare_inside, and_iff_left rest]
      rcases bound.eq_or_lt with full | short
      · rw [full, byte_behind]
        have all : bitlen = rtt.rttMaxaddrlen := by omega
        simp [all]
      · exact iff_of_true (byte_inside short) (by omega)

/-! ## Lookups -/

theorem Overruns.congr (nodes : m.nodes = rtt.nodes) (root : m.rttRoot = rtt.rttRoot)
    (len : m.rttMaxaddrlen = rtt.rttMaxaddrlen) : Overruns m ap bitlen ↔ Overruns rtt ap bitlen := by
  simp only [Overruns, nodes, root, len, descend_nodes nodes]

/-- Where the search for the bits ends tells whether a lookup overruns the key. -/
theorem overruns_iff (sized : Sized rtt) {root : NodeId} (top : rtt.rttRoot = some root) :
    Overruns rtt ap bitlen ↔ bitlen = rtt.rttMaxaddrlen ∧ 8 ∣ bitlen ∧
      ∃ rtn n, rtt.descend ap (fun n => n.rtnBit < bitlen) Rtt.pathFuel root = .ok rtn ∧
        rtt.nodes rtn = some n ∧ n.rtnBit = bitlen := by
  unfold Overruns
  apply and_congr_right
  rintro rfl
  apply and_congr_right
  intro _
  rw [descend_full sized]
  constructor
  · rintro ⟨root', rtn, n, top', rest⟩
    obtain rfl := Option.some.inj (top.symm.trans top')
    exact ⟨rtn, n, rest⟩
  · rintro ⟨rtn, n, rest⟩
    exact ⟨root, rtn, n, top, rest⟩

/-- The searches for the bits of a key, and what is read from there. -/
theorem descended_iff (sized : Sized rtt) (valid : bitlen ≤ rtt.rttMaxaddrlen) {root : NodeId} (top : rtt.rttRoot = some root)
    {rest : NodeId → List Nat}
    (at_end : ∀ rtn n, rtt.nodes rtn = some n →
      (InBytes rtt.keyBytes (rest rtn) ↔ ¬(bitlen = rtt.rttMaxaddrlen ∧ 8 ∣ bitlen ∧ n.rtnBit = bitlen))) :
    InBytes rtt.keyBytes (rtt.descendReads ap (fun n => n.rtnBit < bitlen) Rtt.pathFuel root ++
      thenReads (rtt.descend ap (fun n => n.rtnBit < bitlen) Rtt.pathFuel root) rest) ↔ ¬Overruns rtt ap bitlen := by
  have way : InBytes rtt.keyBytes (rtt.descendReads ap (fun n => n.rtnBit < bitlen) Rtt.pathFuel root) := by
    apply descend_inside
    intro i n _ more
    exact (of_decide_eq_true more).trans_le valid
  rw [inBytes_append, and_iff_right way, overruns_iff sized top]
  cases run : rtt.descend ap (fun n => n.rtnBit < bitlen) Rtt.pathFuel root with
  | error e =>
    refine iff_of_true inBytes_nil ?_
    rintro ⟨_, _, rtn, n, end_, _⟩
    cases end_
  | ok rtn =>
    obtain ⟨n, live⟩ := descend_live run
    rw [thenReads, at_end rtn n live]
    apply not_congr
    apply and_congr_right
    intro _
    apply and_congr_right
    intro _
    constructor
    · exact fun full => ⟨rtn, n, rfl, live, full⟩
    · rintro ⟨_, n', ⟨⟩, live', full⟩
      obtain rfl := Option.some.inj (live.symm.trans live')
      exact full

/-- The table when a key has been converted. -/
theorem Standing.converted (s : Standing rtt t) (addr : Addr) : ∃ ap m, rtt.convertKey addr = (ap, m) ∧ Standing m t ∧
    m.nodes = rtt.nodes ∧ m.rttRoot = rtt.rttRoot ∧ m.rttMaxaddrlen = rtt.rttMaxaddrlen ∧ m.rttDebug = rtt.rttDebug := by
  obtain ⟨temp, after⟩ := convertKey_temp rtt addr
  obtain ⟨ap, m, key⟩ : ∃ ap m, rtt.convertKey addr = (ap, m) := ⟨_, _, rfl⟩
  rw [key] at after
  dsimp only at after
  subst after
  exact ⟨ap, _, key, s.congr (.of_heads (fun _ _ => rfl) rfl), rfl, rfl, rfl, rfl⟩

theorem bestReads_iff (s : Standing rtt t) (valid : bitlen ≤ rtt.rttMaxaddrlen) (addr : Addr)
    {rest : Rtt → Addr → Option NodeId → List Nat}
    (fine : ∀ m ap best, Standing m t → m.rttMaxaddrlen = rtt.rttMaxaddrlen → InBytes m.keyBytes (rest m ap best)) :
    InBytes rtt.keyBytes (bestReads rtt addr bitlen rest) ↔ ¬Overruns rtt (rtt.convertKey addr).1 bitlen := by
  obtain ⟨ap, m, key, s', nodes, root, len, _⟩ := s.converted addr
  have bytes : rtt.keyBytes = m.keyBytes := by rw [Rtt.keyBytes, Rtt.keyBytes, len]
  have checked : ¬(m.rttDebug = true ∧ bitlen > m.rttMaxaddrlen) := by omega
  simp only [bestReads, key, thenReads_ok s'.ready.validate, if_neg checked, bytes]
  rw [← Overruns.congr nodes root len]
  cases top : m.rttRoot with
  | none =>
    refine iff_of_true inBytes_nil ?_
    rintro ⟨_, _, root', _, _, top', _⟩
    cases top.symm.trans top'
  | some root =>
    apply descended_iff s'.sized (len ▸ valid) top
    intro rtn n live
    rw [inBytes_append, ← backtrackReads_iff s'.sized s'.readable live (len ▸ valid) ap (Rtt.pathFuel - 1)]
    exact and_iff_left (inBytes_thenReads fun best _ => fine m ap best s' len)

theorem secondReads_inside (s : Standing rtt t) (bitlen : Nat) (ap : Addr) (best : Option NodeId) :
    InBytes rtt.keyBytes (secondReads bitlen rtt ap best) := by
  cases best with
  | none => exact inBytes_nil
  | some rtn =>
    rw [secondReads]
    apply inBytes_thenReads
    intro n live
    split
    · exact inBytes_nil
    · apply backtrack_inside s.sized
      intro p m parent at_
      exact s.sized.above rtn n p m (node_eq_ok.mp live) parent at_

theorem getbestReads_iff (s : Standing rtt t) (valid : bitlen ≤ rtt.rttMaxaddrlen) (addr : Addr) :
    InBytes rtt.keyBytes (getbestReads rtt addr bitlen) ↔ ¬Overruns rtt (rtt.convertKey addr).1 bitlen :=
  bestReads_iff s valid addr fun _ _ _ _ _ => inBytes_nil

theorem getbestandprevReads_iff (s : Standing rtt t) (valid : bitlen ≤ rtt.rttMaxaddrlen) (addr : Addr) :
    InBytes rtt.keyBytes (getbestandprevReads rtt addr bitlen) ↔ ¬Overruns rtt (rtt.convertKey addr).1 bitlen :=
  bestReads_iff s valid addr fun _ ap best s' _ => secondReads_inside s' bitlen ap best

theorem getnextbestReads_iff (s : Standing rtt t) (valid : bitlen ≤ rtt.rttMaxaddrlen) (addr : Addr) :
    InBytes rtt.keyBytes (getnextbestReads rtt addr bitlen) ↔ ¬Overruns rtt (rtt.convertKey addr).1 bitlen :=
  bestReads_iff s valid addr fun _ ap best s' _ => secondReads_inside s' bitlen ap best

/-- A lookup whose key is converted in the debug section only. -/
theorem Standing.debugged (s : Standing rtt t) (addr : Addr) (valid : bitlen ≤ rtt.rttMaxaddrlen) :
    ∃ m, getexactDebug rtt (some addr) bitlen = (false, some (getexactKey rtt addr), m) ∧ Standing m t ∧
      m.nodes = rtt.nodes ∧ m.rttRoot = rtt.rttRoot ∧ m.rttMaxaddrlen = rtt.rttMaxaddrlen := by
  obtain ⟨ap, m, key, s', nodes, root, len, _⟩ := s.converted addr
  unfold getexactDebug getexactKey
  cases rtt.rttDebug with
  | false => exact ⟨rtt, rfl, s, rfl, rfl, rfl⟩
  | true =>
    refine ⟨m, ?_, s', nodes, root, len⟩
    have fits : ¬bitlen > m.rttMaxaddrlen := by omega
    simp [key, fits]

theorem getexactReads_iff (s : Standing rtt t) (valid : bitlen ≤ rtt.rttMaxaddrlen) (addr : Addr) :
    InBytes rtt.keyBytes (getexactReads rtt addr bitlen) ↔ ¬Overruns rtt (getexactKey rtt addr) bitlen := by
  obtain ⟨m, debug, s', nodes, root, len⟩ := s.debugged addr valid
  have bytes : rtt.keyBytes = m.keyBytes := by rw [Rtt.keyBytes, Rtt.keyBytes, len]
  simp only [getexactReads, thenReads_ok s.ready.validate, debug, Bool.false_eq_true, if_false, bytes]
  rw [← Overruns.congr nodes root len]
  cases top : m.rttRoot with
  | none =>
    refine iff_of_true inBytes_nil ?_
    rintro ⟨_, _, root', _, _, top', _⟩
    cases top.symm.trans top'
  | some root =>
    simp only [thenReads_ok (deref_some _)]
    apply descended_iff s'.sized (len ▸ valid) top
    intro rtn n live
    have bound := s'.sized.bound rtn n live
    rw [thenReads_ok (node_of live)]
    split
    · rename_i other
      exact iff_of_true inBytes_nil fun full => other full.2.2
    · rename_i same
      rw [not_not] at same
      cases head : n.rtnRth with
      | none =>
        have short := s'.sized.bare rtn n live head
        exact iff_of_true inBytes_nil (by omega)
      | some rth =>
        obtain ⟨his, key⟩ := s'.readable rtn n rth live head
        simp only [thenReads_ok key, compare_inside]
        rcases bound.eq_or_lt with full | short
        · have all : bitlen = m.rttMaxaddrlen := by omega
          rw [full, byte_behind, all]
          simp
        · exact iff_of_true (byte_inside short) (by omega)

/-! ## Searches for the first difference -/

theorem searchReads_inside (sized : Sized rtt) (valid : bitlen ≤ rtt.rttMaxaddrlen) (ap : Addr) (root : NodeId)
    {rest : NodeId → RtNode → Addr → Nat → List Nat}
    (fine : ∀ rtn n his dbit, rtt.nodes rtn = some n → InBytes rtt.keyBytes (rest rtn n his dbit)) :
    InBytes rtt.keyBytes (searchReads rtt ap bitlen root rest) := by
  refine inBytes_append.mpr ⟨?_, ?_⟩
  · apply descend_inside
    intro i n live more
    rw [Bool.or_eq_true, decide_eq_true_eq, decide_eq_true_eq] at more
    rcases more with short | bare
    · exact short.trans_le valid
    · exact sized.bare i n live bare
  · apply inBytes_thenReads
    intro rtn _
    apply inBytes_thenReads
    intro n live
    apply inBytes_thenReads
    intro his _
    refine inBytes_append.mpr ⟨diff_inside (by omega) _ _, inBytes_thenReads fun dbit _ => ?_⟩
    exact fine rtn n his dbit (node_eq_ok.mp live)

theorem getnextReads_inside (s : Standing rtt t) (valid : bitlen ≤ rtt.rttMaxaddrlen) (dest : Option Addr) :
    InBytes rtt.keyBytes (getnextReads rtt dest bitlen) := by
  cases dest with
  | none => exact inBytes_nil
  | some addr =>
    obtain ⟨ap, m, key, s', _, _, len, _⟩ := s.converted addr
    have bytes : rtt.keyBytes = m.keyBytes := by rw [Rtt.keyBytes, Rtt.keyBytes, len]
    simp only [getnextReads, key, bytes]
    apply inBytes_thenReads
    intro _ _
    split
    · exact inBytes_nil
    · cases m.rttRoot with
      | none => exact inBytes_nil
      | some root =>
        apply searchReads_inside s'.sized (len ▸ valid)
        intro rtn n his dbit _
        split
        · exact inBytes_nil
        · exact inBytes_cons.mpr ⟨byte_inside (by omega), inBytes_nil⟩

/-- A climb ends where it starts, or at a node that it has passed by. -/
theorem climbWhile_at {above : RtNode → Bool} {y : NodeId} {prev : Option NodeId}
    (run : rtt.climbWhile above fuel rtn = .ok (y, prev)) : y = rtn ∨ ∃ n, rtt.nodes y = some n ∧ above n = true := by
  induction fuel generalizing rtn with
  | zero => cases run
  | succ fuel ih =>
    cases live : rtt.nodes rtn with
    | none =>
      simp only [Rtt.climbWhile, Rtt.node, live] at run
      cases run
    | some n =>
      simp only [Rtt.climbWhile, node_of live, ok_bind] at run
      cases parent : n.rtnParent with
      | none =>
        rw [parent] at run
        cases run
        exact .inl rfl
      | some p =>
        rw [parent] at run
        cases above' : rtt.nodes p with
        | none =>
          simp only [Rtt.node, above'] at run
          cases run
        | some m =>
          simp only [node_of above', ok_bind] at run
          split at run
          · rename_i passed
            rcases ih run with rfl | further
            · exact .inr ⟨m, above', passed⟩
            · exact .inr further
          · cases run
            exact .inl rfl

theorem insertAtReads_inside (sized : Sized rtt) (valid : bitlen ≤ rtt.rttMaxaddrlen) {dbit : Nat} (short : dbit ≤ bitlen)
    (live : rtt.nodes rtn = some n) (long : dbit ≤ n.rtnBit) (add new : Option NodeId) :
    InBytes rtt.keyBytes (insertAtReads rtt bitlen dbit rtn add new) := by
  have bound := sized.bound rtn n live
  have one {b : Nat} (inside : b < rtt.rttMaxaddrlen) : InBytes rtt.keyBytes [rnByte b] :=
    inBytes_cons.mpr ⟨byte_inside inside, inBytes_nil⟩
  unfold insertAtReads
  rw [thenReads_ok (node_of live)]
  split
  · exact inBytes_nil
  · cases add with
    | none => exact inBytes_nil
    | some add =>
      dsimp only
      split
      · exact one (by omega)
      · split
        · exact one (by omega)
        · cases new with
          | none => exact inBytes_nil
          | some new => exact one (by omega)

theorem insertKeyReads_inside (rth : HeadId) (key : Option Addr) :
    InBytes rtt.keyBytes (insertKeyReads rtt rth key) := by
  have all : InBytes rtt.keyBytes (List.range rtt.keyBytes) := fun _ inside => List.mem_range.mp inside
  unfold insertKeyReads
  split
  · split
    · exact inBytes_nil
    · exact all
  · exact inBytes_nil

/-- Whatever head is given, and whatever the allocators give. -/
theorem insertReads_inside (s : Standing rtt t) (valid : bitlen ≤ rtt.rttMaxaddrlen) (rth : HeadId) (mem : Allocs) :
    InBytes rtt.keyBytes (insertReads rtt rth bitlen mem) := by
  refine inBytes_append.mpr ⟨insertKeyReads_inside rth mem.key, inBytes_thenReads ?_⟩
  rintro ⟨keyed, m₀⟩ run
  rcases (insertKey_primed s.ready valid mem.key).of_ok _ run with ⟨unset, _⟩ | ⟨set, ap, primed, _⟩
  · dsimp only at unset
    subst unset
    exact inBytes_nil
  · dsimp only at set primed
    subst set
    obtain ⟨m, debug, primed'⟩ := insertDebug_primed primed valid
    have sized : Sized m := s.sized.congr primed'.nodes primed'.setup.len
    have bytes : rtt.keyBytes = m.keyBytes := by rw [Rtt.keyBytes, Rtt.keyBytes, primed'.setup.len]
    simp only [Bool.not_true, Bool.false_eq_true, if_false, debug, bytes]
    apply inBytes_thenReads
    intro _ _
    cases m.rttRoot with
    | none => exact inBytes_nil
    | some root =>
      apply inBytes_thenReads
      intro addr _
      apply searchReads_inside sized (primed'.setup.len ▸ valid)
      intro rtn n his dbit live
      apply inBytes_thenReads
      rintro ⟨y, prev⟩ climb
      have here : ∃ n', m.nodes y = some n' ∧ min dbit (min n.rtnBit bitlen) ≤ n'.rtnBit := by
        rcases climbWhile_at climb with rfl | ⟨n', live', above⟩
        · exact ⟨n, live, by omega⟩
        · exact ⟨n', live', of_decide_eq_true above⟩
      obtain ⟨n', live', long⟩ := here
      exact insertAtReads_inside sized (primed'.setup.len ▸ valid) (by omega) live' long mem.add mem.new

end SonicUtils.Radix
