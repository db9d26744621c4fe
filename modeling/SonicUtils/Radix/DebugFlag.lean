import SonicUtils.Radix.Runs
import SonicUtils.Radix.TwinSteps

/-!
# What the debug flag changes

The same calls are made on two tables that differ in `rtt_debug`. Nothing shows
which is which, as long as a head has no version when it is inserted and the
conversion of keys leaves those of exact lookups as they are.

* `debug_flag_unseen`;
* `debug_flag_seen`: the calls that tell the two tables apart.
-/

namespace SonicUtils.Radix

open Loop

/-- A call of one of the functions, and what the memory and the loops are given in it.
In `fill` the user writes to a head. -/
inductive Call
  | fill (rth : HeadId) (head : RtHead)
  | insert (rth : HeadId) (bitlen : Nat) (mem : Allocs)
  | remove (rth : HeadId)
  | setversion (rth : HeadId) (fuel : Nat)
  | getexact (addr : Option Addr) (bitlen : Nat)
  | getbest (addr : Option Addr) (bitlen : Nat)
  | getbestandprev (addr : Option Addr) (bitlen : Nat)
  | getnextbest (addr : Option Addr) (bitlen : Nat)
  | getnext (dest : Option Addr) (bitlen : Nat)

/-- What a call returns. -/
inductive Value
  | void
  | head (rth : Option HeadId)
  | two (best : Option HeadId) (lessbest : Option (Option HeadId))
  | version (ver : Version)
  deriving DecidableEq

def Call.perform (rtt : Rtt) : Call → Except Fault (Value × Rtt)
  | .fill rth head => return (.void, rtt.writeHead rth fun _ => head)
  | .insert rth bitlen mem => do
    let (res, rtt) ← stdRadixInsert rtt rth bitlen mem
    return (.head res, rtt)
  | .remove rth => return (.void, ← stdRadixRemove rtt rth)
  | .setversion rth fuel => do
    let (ver, rtt) ← stdRadixSetversion rtt rth fuel
    return (.version ver, rtt)
  | .getexact addr bitlen => do
    let (res, rtt) ← stdRadixGetexact rtt addr bitlen
    return (.head res, rtt)
  | .getbest addr bitlen => do
    let (res, rtt) ← stdRadixGetbest rtt addr bitlen
    return (.head res, rtt)
  | .getbestandprev addr bitlen => do
    let ((best, lessbest), rtt) ← stdRadixGetbestandprev rtt addr bitlen
    return (.two best lessbest, rtt)
  | .getnextbest addr bitlen => do
    let (res, rtt) ← stdRadixGetnextbest rtt addr bitlen
    return (.head res, rtt)
  | .getnext dest bitlen => do
    let (res, rtt) ← stdRadixGetnext rtt dest bitlen
    return (.head res, rtt)

/-- How the functions are to be called. -/
def Call.Legal (rtt : Rtt) : Call → Prop
  | .fill rth _ => rth ∉ rtt.stored
  | .insert rth bitlen _ => rth ∉ rtt.stored ∧ bitlen ≤ rtt.rttMaxaddrlen
  | .remove rth | .setversion rth _ => rth ∈ rtt.stored
  | .getexact _ bitlen | .getbest _ bitlen | .getbestandprev _ bitlen | .getnextbest _ bitlen | .getnext _ bitlen =>
    bitlen ≤ rtt.rttMaxaddrlen

/-- A call whose debug section only checks. -/
def Call.Unaffected (rtt : Rtt) : Call → Prop
  | .insert rth _ _ => (rtt.heads rth).rthVersion = 0
  | .getexact addr bitlen => ∃ ap, addr = some ap ∧ (rtt.convertKey ap).1.bits bitlen = ap.bits bitlen
  | _ => True

/-- A table before its first use. -/
def newTable (debug : Bool) (maxaddrlen : Nat) (rmfree : Bool) (convert : Option (Addr → Addr → Nat → Addr))
    (radicalused carused : Bool) (heads : HeadId → RtHead) (junk : Addr) : Rtt :=
  { (stdRadixCreate maxaddrlen rmfree heads junk).configure debug radicalused carused with rttConvert := convert }

/-- Two tables after the same calls, of which each meets `P`, one with `rtt_debug`
and one without. -/
inductive SideBySide (P : Rtt → Call → Prop) : Rtt → Rtt → Prop
  | create {maxaddrlen : Nat} {rmfree : Bool} {convert : Option (Addr → Addr → Nat → Addr)} {radicalused carused : Bool}
      {heads : HeadId → RtHead} {junk : Addr} :
      (∀ f, convert = some f → Inside f maxaddrlen) →
      SideBySide P (newTable true maxaddrlen rmfree convert radicalused carused heads junk)
        (newTable false maxaddrlen rmfree convert radicalused carused heads junk)
  | call {d p d' p' : Rtt} {v w : Value} (c : Call) :
      SideBySide P d p → c.Legal d → P d c → c.perform d = .ok (v, d') → c.perform p = .ok (w, p') →
      SideBySide P d' p'

variable {H : Set HeadId} {d p d' p' : Rtt} {rth : HeadId} {bitlen : Nat}

/-! ## The heads of the tree -/

/-- Bits and masks stay, and no node gets another head than `rth`. -/
def Rehead (rth : HeadId) (n n' : RtNode) : Prop :=
  n'.rtnBit = n.rtnBit ∧ n'.rtnTbit = n.rtnTbit ∧
    (n'.rtnRth = n.rtnRth ∨ n'.rtnRth = none ∨ n'.rtnRth = some rth)

def Blank (rth : HeadId) (_ : NodeId) (n : RtNode) : Prop :=
  n.rtnTbit = rnBit n.rtnBit ∧ (n.rtnRth = none ∨ n.rtnRth = some rth)

theorem Rehead.of_same {n n' : RtNode} (bit : n'.rtnBit = n.rtnBit) (tbit : n'.rtnTbit = n.rtnTbit)
    (same : n'.rtnRth = n.rtnRth) : Rehead rth n n' := ⟨bit, tbit, .inl same⟩

theorem rehead_attaching (rth : HeadId) : Attaching (Rehead rth) (Blank rth) Set.univ rth where
  refl _ := .of_same rfl rfl rfl
  trans := by
    rintro a b c ⟨bit, tbit, first⟩ ⟨bit', tbit', second⟩
    refine ⟨bit'.trans bit, tbit'.trans tbit, ?_⟩
    rcases second with same | other
    · rw [same]
      exact first
    · exact .inr other
  keep := by
    rintro i a b ⟨mask, first⟩ ⟨bit, tbit, second⟩
    refine ⟨by rw [tbit, bit, mask], ?_⟩
    rcases second with same | other
    · rw [same]
      exact first
    · exact other
  left _ _ := .of_same rfl rfl rfl
  right _ _ := .of_same rfl rfl rfl
  parent _ _ := .of_same rfl rfl rfl
  fresh _ _ _ _ mine := ⟨rfl, mine⟩
  dated _ _ _ := .inr fun _ => .of_same rfl rfl rfl
  attach _ _ := ⟨rfl, rfl, .inr (.inr rfl)⟩

theorem Masked.change (masked : Masked d) (change : Change (Rehead rth) (Blank rth) H d d') : Masked d' := by
  intro i n' live
  rcases change.nodes i n' live with ⟨mask, _⟩ | ⟨n, old, bit, tbit, _⟩
  · exact mask
  · rw [bit, tbit]
    exact masked i n old

theorem stored_change (change : Change (Rehead rth) (Blank rth) H d d') : d'.stored ⊆ insert rth d.stored := by
  rintro h ⟨i, n', live, mine⟩
  by_cases same : h = rth
  · exact .inl same
  · have other : ¬ (n'.rtnRth = none ∨ n'.rtnRth = some rth) := by
      rintro (none | his)
      · cases mine.symm.trans none
      · exact same (Option.some.inj (mine.symm.trans his))
    rcases change.nodes i n' live with ⟨_, new⟩ | ⟨n, old, _, _, kept⟩
    · exact absurd new other
    · exact .inr ⟨i, n, old, (kept.resolve_right other) ▸ mine⟩

/-- `std_radix_setversion` changes no bit, mask or head of a node. -/
theorem rehead_setversion {fuel : Nat} : Ensures (stdRadixSetversion d rth fuel) fun r =>
    ∀ i n', r.2.nodes i = some n' → ∃ n, d.nodes i = some n ∧ n'.rtnBit = n.rtnBit ∧ n'.rtnTbit = n.rtnTbit ∧
      n'.rtnRth = n.rtnRth := by
  have climb (ver : Version) (fuel : Nat) (rtn : Option NodeId) (m : Rtt) :
      Ensures (loop .noReturn (raiseTurn ver) fuel (rtn, m)) fun m' =>
        ∀ i n', m'.nodes i = some n' → ∃ n, m.nodes i = some n ∧ n'.rtnBit = n.rtnBit ∧ n'.rtnTbit = n.rtnTbit ∧
          n'.rtnRth = n.rtnRth := by
    induction fuel generalizing rtn m with
    | zero => exact ⟨fun _ run => by cases run⟩
    | succ fuel ih =>
      cases rtn with
      | none => exact .pure fun i n live => ⟨n, live, rfl, rfl, rfl⟩
      | some rtn =>
        simp only [loop, raiseTurn, bind_assoc]
        apply Ensures.bind (P := fun m₁ => ∀ i n', m₁.nodes i = some n' → ∃ n, m.nodes i = some n ∧
          n'.rtnBit = n.rtnBit ∧ n'.rtnTbit = n.rtnTbit ∧ n'.rtnRth = n.rtnRth)
        · apply ensures_write
          intro n live i n' live'
          rw [nodes_setNode] at live'
          split at live'
          · subst i
            obtain rfl := Option.some.inj live'
            exact ⟨n, live, rfl, rfl, rfl⟩
          · exact ⟨n', live', rfl, rfl, rfl⟩
        · intro m₁ first
          apply Ensures.any
          intro n
          apply (ih n.rtnParent m₁).mono
          intro m₂ rest i n₂ live
          obtain ⟨n₁, live₁, bit, tbit, rth⟩ := rest i n₂ live
          obtain ⟨n₀, live₀, bit', tbit', rth'⟩ := first i n₁ live₁
          exact ⟨n₀, live₀, bit.trans bit', tbit.trans tbit', rth.trans rth'⟩
  apply Ensures.any
  intro _
  apply Ensures.any
  intro rtn
  apply Ensures.bind (climb _ fuel _ _)
  intro m same
  apply Ensures.pure
  dsimp only
  split
  · exact same
  · exact same

/-! ## Calls -/

/-- Between two calls. -/
def Level (d p : Rtt) : Prop := Twins d.stored d p ∧ Masked d

theorem Level.of_nodes (masked : Masked d) (nodes : d'.nodes = d.nodes) (h : Twins d.stored d' p') : Level d' p' := by
  have stored : d'.stored = d.stored := by
    unfold Rtt.stored
    rw [nodes]
  refine ⟨stored ▸ h, ?_⟩
  unfold Masked
  rwa [nodes]

theorem Level.insert (h : Level d p) (loose : rth ∉ d.stored) (fresh : (d.heads rth).rthVersion = 0)
    (valid : bitlen ≤ d.rttMaxaddrlen) (mem : Allocs) :
    Agree (fun r r' => r.1 = r'.1 ∧ Level r.2 r'.2) (stdRadixInsert d rth bitlen mem)
      (stdRadixInsert p rth bitlen mem) := by
  obtain ⟨twins, masked⟩ := h
  have change : Ensures (stdRadixInsert d rth bitlen mem) fun r => Change (Rehead rth) (Blank rth) Set.univ d r.2 :=
    change_insert (rehead_attaching rth) (Set.mem_univ rth) fun i _ => Set.mem_univ i
  apply ((twins.insert loose fresh valid mem).ensures change).mono
  rintro r r' ⟨⟨same, after⟩, changed⟩
  refine ⟨same, ?_⟩
  rcases after with after | ⟨after, nodes⟩
  · exact ⟨after.mono (stored_change changed), masked.change changed⟩
  · exact .of_nodes masked nodes after

theorem Level.remove (h : Level d p) (mine : rth ∈ d.stored) :
    Agree Level (stdRadixRemove d rth) (stdRadixRemove p rth) := by
  obtain ⟨twins, masked⟩ := h
  have change : Ensures (stdRadixRemove d rth) (Change (Rehead rth) (Blank rth) Set.univ d) :=
    change_remove (rehead_attaching rth).toMoves (fun _ _ => ⟨rfl, rfl, .inr (.inl rfl)⟩)
      fun _ => .of_same rfl rfl rfl
  apply ((twins.remove mine).ensures change).mono
  rintro d' p' ⟨after, changed⟩
  refine ⟨after.mono ?_, masked.change changed⟩
  apply (stored_change changed).trans
  rw [Set.insert_eq_of_mem mine]

theorem Level.setversion (h : Level d p) (mine : rth ∈ d.stored) (fuel : Nat) :
    Agree (fun r r' => r.1 = r'.1 ∧ Level r.2 r'.2) (stdRadixSetversion d rth fuel) (stdRadixSetversion p rth fuel) := by
  obtain ⟨twins, masked⟩ := h
  apply ((twins.setversion mine fuel).ensures rehead_setversion).mono
  rintro r r' ⟨⟨same, after⟩, nodes⟩
  refine ⟨same, after.mono ?_, ?_⟩
  · rintro h ⟨i, n', live, his⟩
    obtain ⟨n, old, _, _, kept⟩ := nodes i n' live
    exact ⟨i, n, old, kept ▸ his⟩
  · intro i n' live
    obtain ⟨n, old, bit, tbit, _⟩ := nodes i n' live
    rw [bit, tbit]
    exact masked i n old

theorem Level.fill (h : Level d p) (head : RtHead) :
    Level (d.writeHead rth fun _ => head) (p.writeHead rth fun _ => head) := by
  obtain ⟨⟨⟨temp, places, flags, rfl, junk, same⟩, debug, inside, unlisted⟩, masked⟩ := h
  refine ⟨⟨⟨temp, Function.update places rth head.rthRtn, Function.update flags rth head.rdclFlags, ?_, junk,
    fun i hi => ?_⟩, debug, inside, unlisted⟩, masked⟩
  · simp only [Rtt.writeHead, Rtt.disguise, Rtt.mk.injEq, true_and]
    funext i
    by_cases here : i = rth
    · subst here
      simp
    · simp [here]
  · rw [heads_writeHead]
    by_cases here : i = rth
    · simp [here]
    · rw [if_neg here, Function.update_of_ne here]
      exact same i hi

theorem Level.call (h : Level d p) (c : Call) (legal : c.Legal d) (plain : c.Unaffected d) :
    Agree (fun r r' => r.1 = r'.1 ∧ Level r.2 r'.2) (c.perform d) (c.perform p) := by
  have looked {α : Type} (value : α → Value) {a b : Except Fault (α × Rtt)} (same : Agree (SameLookup d.stored d) a b) :
      Agree (fun r r' => r.1 = r'.1 ∧ Level r.2 r'.2) (do let r ← a; return (value r.1, r.2))
        (do let r ← b; return (value r.1, r.2)) := by
    apply same.bind
    rintro r r' ⟨res, after, nodes⟩
    exact .pure ⟨by rw [res], .of_nodes h.2 nodes after⟩
  cases c with
  | fill rth head => exact .pure ⟨rfl, h.fill head⟩
  | insert rth bitlen mem =>
    apply (h.insert legal.1 plain legal.2 mem).bind
    rintro r r' ⟨res, after⟩
    exact .pure ⟨by rw [res], after⟩
  | remove rth =>
    apply (h.remove legal).bind
    intro d' p' after
    exact .pure ⟨rfl, after⟩
  | setversion rth fuel =>
    apply (h.setversion legal fuel).bind
    rintro r r' ⟨res, after⟩
    exact .pure ⟨by rw [res], after⟩
  | getexact addr bitlen =>
    obtain ⟨ap, rfl, same⟩ := plain
    exact looked .head (h.1.getexact h.2 ap legal same)
  | getbest addr bitlen => exact looked .head (h.1.getbest addr legal)
  | getbestandprev addr bitlen => exact looked (fun v => .two v.1 v.2) (h.1.getbestandprev addr legal)
  | getnextbest addr bitlen => exact looked .head (h.1.getnextbest addr legal)
  | getnext dest bitlen => exact looked .head (h.1.getnext dest legal)

theorem SideBySide.level (h : SideBySide Call.Unaffected d p) : Level d p := by
  induction h with
  | create inside =>
    exact ⟨⟨⟨_, _, _, rfl, fun _ _ => rfl, fun _ _ => rfl⟩, rfl, inside, fun _ => ⟨rfl, rfl⟩⟩, fun i n live => by cases live⟩
  | call c _ legal plain run run' ih =>
    have agree := ih.call c legal plain
    rw [run, run'] at agree
    cases agree with
    | gives related => exact related.2

/-- **The debug flag does not show.** -/
theorem debug_flag_unseen (h : SideBySide Call.Unaffected d p) :
    (∀ c : Call, c.Legal d → c.Unaffected d → Agree (fun r r' => r.1 = r'.1) (c.perform d) (c.perform p)) ∧
    ∀ rth ∈ d.stored, (d.heads rth).rthVersion = (p.heads rth).rthVersion := by
  have level := h.level
  refine ⟨fun c legal plain => ?_, fun rth _ => level.1.version_eq.symm⟩
  exact (level.call c legal plain).mono fun _ _ related => related.1

/-! ## Calls that tell the tables apart -/

/-- The table after the calls. -/
def performAll (rtt : Rtt) : List Call → Rtt
  | [] => rtt
  | c :: rest =>
    match c.perform rtt with
    | .ok (_, rtt) => performAll rtt rest
    | .error _ => rtt

/-- A conversion that turns every bit. -/
def flip : Addr → Addr → Nat → Addr :=
  fun addr buf len i => if i < (len + 7) / 8 then ~~~ addr i else buf i

theorem inside_flip : Inside flip 32 := by
  intro addr buf i far
  unfold flip
  rw [if_neg (Nat.not_lt.mpr far)]

/-- A table, and heads with the key 10.0.0.0. -/
def tenHeads (debug : Bool) (convert : Option (Addr → Addr → Nat → Addr)) : Rtt :=
  newTable debug 32 false convert false false (fun _ => ⟨none, some ten, 0, none, 0, 0⟩) fun _ => 0

def insertTen : Call := .insert 0 8 ⟨some fun _ => 0, some 0, some 1⟩

theorem legal_insertTen {convert : Option (Addr → Addr → Nat → Addr)} : insertTen.Legal (tenHeads true convert) := by
  have valid : 8 ≤ 32 := by decide
  refine ⟨?_, valid⟩
  rintro ⟨i, n, live, _⟩
  cases live

def flipped (debug : Bool) : Rtt := performAll (tenHeads debug (some flip)) [insertTen]

theorem sideBySide_flipped {P : Rtt → Call → Prop} (fine : P (tenHeads true (some flip)) insertTen) :
    SideBySide P (flipped true) (flipped false) := by
  have new : SideBySide P (tenHeads true (some flip)) (tenHeads false (some flip)) := by
    apply SideBySide.create
    intro f same
    exact Option.some.inj same ▸ inside_flip
  exact .call insertTen new legal_insertTen fine rfl rfl

theorem debug_flag_unseen_flipped : Agree (fun r r' => r.1 = r'.1)
    ((Call.getbest (some ten) 8).perform (flipped true)) ((Call.getbest (some ten) 8).perform (flipped false)) :=
  have fine : Call.Unaffected (tenHeads true (some flip)) insertTen := rfl
  have valid : 8 ≤ 32 := by decide
  (debug_flag_unseen (sideBySide_flipped fine)).1 (.getbest (some ten) 8) valid trivial

def reinserted (debug : Bool) (calls : Nat) : Rtt :=
  performAll (tenHeads debug none) ([insertTen, .setversion 0 2, .remove 0, insertTen].take calls)

theorem debug_flag_seen :
    (∃ d p, SideBySide (fun _ _ => True) d p ∧ (Call.getexact (some ten) 8).Legal d ∧
      ∃ d' p', (Call.getexact (some ten) 8).perform d = .ok (.head (some 0), d') ∧
        (Call.getexact (some ten) 8).perform p = .ok (.head none, p')) ∧
    ∃ d p, SideBySide (fun _ _ => True) d p ∧ 0 ∈ d.stored ∧
      (d.heads 0).rthVersion = 0 ∧ (p.heads 0).rthVersion = 1 := by
  have valid : 8 ≤ 32 := by decide
  constructor
  · exact ⟨flipped true, flipped false, sideBySide_flipped trivial, valid, _, _, rfl, rfl⟩
  · have new : SideBySide (fun _ _ => True) (tenHeads true none) (tenHeads false none) := by
      apply SideBySide.create
      intro f same
      cases same
    have bound : 0 ∈ (reinserted true 1).stored := ⟨0, _, rfl, rfl⟩
    have bound' : 0 ∈ (reinserted true 2).stored := ⟨0, _, rfl, rfl⟩
    have gone : 0 ∉ (reinserted true 3).stored := by
      rintro ⟨i, n, live, _⟩
      by_cases here : i = 0
      · subst here
        cases live
      · have nodes : ∃ a b, (reinserted true 3).nodes = Function.update (Function.update (Function.update
            (fun _ => none) 0 a) 0 b) 0 none := ⟨_, _, rfl⟩
        obtain ⟨a, b, nodes⟩ := nodes
        have none : (reinserted true 3).nodes i = none := by
          simp [nodes, here]
        cases none.symm.trans live
    have first : SideBySide (fun _ _ => True) (reinserted true 1) (reinserted false 1) :=
      .call insertTen new legal_insertTen trivial rfl rfl
    have second : SideBySide (fun _ _ => True) (reinserted true 2) (reinserted false 2) :=
      .call (.setversion 0 2) first bound trivial rfl rfl
    have third : SideBySide (fun _ _ => True) (reinserted true 3) (reinserted false 3) :=
      .call (.remove 0) second bound' trivial rfl rfl
    have fourth : SideBySide (fun _ _ => True) (reinserted true 4) (reinserted false 4) :=
      .call insertTen third ⟨gone, valid⟩ trivial rfl rfl
    exact ⟨_, _, fourth, ⟨0, _, rfl, rfl⟩, rfl, rfl⟩

end SonicUtils.Radix
