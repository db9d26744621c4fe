import SonicUtils.Radix.Footprint
import SonicUtils.Radix.Twins

/-!
# The same operations on twins

The debug sections hold more than checks: `std_radix_getexact` converts its key
in one, and `std_radix_insert` clears the version of its head in another.

* `Twins.insert`, `Twins.remove`, `Twins.setversion`: twins stay twins;
* `Twins.getbest` and the like: lookups return the same.
-/

namespace SonicUtils.Radix

open Loop

variable {S : Set HeadId} {d p : Rtt} {rtn : NodeId} {rth : HeadId} {addr : Addr} {bitlen : Nat}

/-! ## Keys and the fields of a head -/

theorem Twins.head_eq (h : Twins S d p) (i : HeadId) :
    ∃ place flags, p.heads i = { d.heads i with rthRtn := place, rdclFlags := flags } := by
  obtain ⟨_, places, flags, rfl, _, _⟩ := h.alike
  exact ⟨places i, flags i, rfl⟩

theorem Twins.rthRtn_eq (h : Twins S d p) (mine : rth ∈ S) : (p.heads rth).rthRtn = (d.heads rth).rthRtn := by
  obtain ⟨_, _, _, rfl, _, same⟩ := h.alike
  exact same rth mine

theorem Twins.version_eq (h : Twins S d p) : (p.heads rth).rthVersion = (d.heads rth).rthVersion := by
  obtain ⟨_, _, same⟩ := h.head_eq rth
  rw [same]

/-- What `rtt_convert` makes of a key. -/
def Rtt.made (rtt : Rtt) (convert : Addr → Addr → Nat → Addr) (addr : Addr) : Addr :=
  convert addr (fun i => if i < rtt.keyBytes then 0 else rtt.temp i) rtt.rttMaxaddrlen

theorem convertKey_some {rtt : Rtt} {convert : Addr → Addr → Nat → Addr} (some : rtt.rttConvert = some convert) :
    rtt.convertKey addr = (rtt.made convert addr, { rtt with temp := rtt.made convert addr }) := by
  unfold Rtt.convertKey
  split
  · rename_i none
    cases some.symm.trans none
  · rename_i other
    cases some.symm.trans other
    rfl

/-- The conversion of a key in one table only. -/
theorem Twins.converted (h : Twins S d p) (addr : Addr) : Twins S (d.convertKey addr).2 p := by
  cases hc : d.rttConvert with
  | none =>
    rw [convertKey_none hc]
    exact h
  | some convert =>
    obtain ⟨temp, places, flags, rfl, junk, same⟩ := h.alike
    rw [convertKey_some hc]
    refine ⟨⟨temp, places, flags, rfl, fun i far => ?_, same⟩, h.debug, h.inside, h.unlisted⟩
    have past : ¬ i < d.keyBytes := Nat.not_lt.mpr far
    have kept := h.inside convert hc addr (fun i => if i < d.keyBytes then 0 else d.temp i) i far
    rw [if_neg past] at kept
    exact (junk i far).trans kept.symm

theorem Twins.convertKey (h : Twins S d p) (addr : Addr) :
    (p.convertKey addr).1 = (d.convertKey addr).1 ∧ Twins S (d.convertKey addr).2 (p.convertKey addr).2 := by
  obtain ⟨temp, places, flags, rfl, junk, same⟩ := h.alike
  cases hc : d.rttConvert with
  | none =>
    have hc' : (d.disguise temp places flags).rttConvert = none := hc
    rw [convertKey_none hc, convertKey_none hc']
    exact ⟨rfl, h⟩
  | some convert =>
    have hc' : (d.disguise temp places flags).rttConvert = some convert := hc
    have zeroed : (fun i => if i < d.keyBytes then 0 else temp i) = fun i => if i < d.keyBytes then 0 else d.temp i := by
      funext i
      split
      · rfl
      · exact junk i (by omega)
    have made : (d.disguise temp places flags).made convert addr = d.made convert addr :=
      congrArg (fun buf => convert addr buf d.rttMaxaddrlen) zeroed
    rw [convertKey_some hc, convertKey_some hc', made]
    exact ⟨rfl, ⟨_, places, flags, rfl, fun _ _ => rfl, same⟩, h.debug, h.inside, h.unlisted⟩

/-! ## Insertions -/

/-- An insertion returns the same. The head is then in both trees, or no node
has changed. -/
def SameInsert (S : Set HeadId) (d : Rtt) (rth : HeadId) (r r' : Option HeadId × Rtt) : Prop :=
  r.1 = r'.1 ∧ (Twins (insert rth S) r.2 r'.2 ∨ Twins S r.2 r'.2 ∧ r.2.nodes = d.nodes)

theorem Twins.insertAttach (h : Twins S d p) (n : RtNode) :
    Agree (SameInsert S d rth) (insertAttach d rth rtn n) (insertAttach p rth rtn n) := by
  unfold SonicUtils.Radix.insertAttach
  split
  · exact .pure ⟨rfl, .inr ⟨h, rfl⟩⟩
  · apply Agree.bind ((h.releaseHead n.rtnRth).write _)
    intro d₁ p₁ h₁
    apply Agree.bind ((h₁.place rth rtn).write _)
    intro d₂ p₂ h₂
    exact .pure ⟨rfl, .inl h₂.addRoute⟩

theorem Twins.insertBelow (h : Twins (insert rth S) d p) (dbit : Nat) (add : NodeId) (d₀ : Rtt) :
    Agree (SameInsert S d₀ rth) (insertBelow d rth addr bitlen dbit rtn add)
      (insertBelow p rth addr bitlen dbit rtn add) := by
  apply Agree.same
  intro _
  apply Agree.bind (h.write _)
  intro d₁ p₁ h₁
  rw [h₁.node_eq]
  apply Agree.same
  intro n
  have finish (d₂ p₂ : Rtt) (h₂ : Twins (insert rth S) d₂ p₂) :
      Agree (SameInsert S d₀ rth) (pure (some rth, d₂.addRoute)) (pure (some rth, p₂.addRoute)) :=
    .pure ⟨rfl, .inl h₂.addRoute⟩
  dsimp only
  split
  · exact .same fun _ => .bind (h₁.write _) finish
  · exact .same fun _ => .bind (h₁.write _) finish

theorem Twins.insertAbove (h : Twins (insert rth S) d p) (new : NodeId) (prev : Option NodeId) (d₀ : Rtt) :
    Agree (SameInsert S d₀ rth) (insertAbove d rth rtn new prev) (insertAbove p rth rtn new prev) := by
  apply Agree.bind (h.write _)
  intro d₁ p₁ h₁
  rw [h₁.node_eq]
  apply Agree.same
  intro n
  apply Agree.bind (h₁.write _)
  intro d₂ p₂ h₂
  apply Agree.bind (h₂.write _)
  intro d₃ p₃ h₃
  apply Agree.bind (h₃.replaceChild ..)
  intro d₄ p₄ h₄
  exact .pure ⟨rfl, .inl h₄.addRoute⟩

theorem Twins.insertAt (h : Twins S d p) (his : Addr) (dbit : Nat) (prev add new : Option NodeId) :
    Agree (SameInsert S d rth) (insertAt d rth addr his bitlen dbit rtn prev add new)
      (insertAt p rth addr his bitlen dbit rtn prev add new) := by
  unfold SonicUtils.Radix.insertAt
  rw [h.node_eq]
  apply Agree.same
  intro n
  split
  · exact h.insertAttach n
  · cases add with
    | none => exact .pure ⟨rfl, .inr ⟨h, rfl⟩⟩
    | some add =>
      have added := (h.addNode (i := add) (.ofBit bitlen (some rth))).place rth add
      dsimp only
      split
      · exact added.insertBelow ..
      · have above (new : NodeId) (d₁ p₁ : Rtt) (h₁ : Twins (insert rth S) d₁ p₁) :
            Agree (SameInsert S d rth) (SonicUtils.Radix.insertAbove d₁ rth rtn new prev)
              (SonicUtils.Radix.insertAbove p₁ rth rtn new prev) := h₁.insertAbove ..
        split
        · split
          · exact .bind (added.write _) (above add)
          · exact .bind (added.write _) (above add)
        · cases new with
          | none => exact .pure ⟨rfl, .inl added.freeNode⟩
          | some new =>
            apply Agree.bind ((added.addNode _).write _)
            intro d₁ p₁ h₁
            split
            · exact .bind (h₁.write _) (above new)
            · exact .bind (h₁.write _) (above new)

theorem Twins.insertTree (h : Twins S d p) (mem : Allocs) :
    Agree (SameInsert S d rth) (insertTree d rth bitlen mem) (insertTree p rth bitlen mem) := by
  have counted := h.countInsert
  unfold SonicUtils.Radix.insertTree
  simp only [counted.setup.2.1, counted.headAddr_eq]
  cases d.countInsert.rttRoot with
  | none =>
    cases mem.add with
    | none => exact .pure ⟨rfl, .inr ⟨counted, rfl⟩⟩
    | some add =>
      have added := (counted.addNode (i := add) (.ofBit bitlen (some rth))).place rth add
      exact .pure ⟨rfl, .inl (added.setRoot (some add)).addRoute⟩
  | some root =>
    apply Agree.same
    intro addr
    unfold insertInto
    simp only [counted.searches.descend_eq, counted.node_eq, counted.headAddr_eq, counted.searches.climbWhile_eq]
    apply Agree.same
    intro _
    apply Agree.same
    intro _
    apply Agree.same
    intro _
    apply Agree.same
    intro _
    apply Agree.same
    intro _
    apply Agree.same
    intro _
    exact counted.insertAt ..

theorem heads_convertKey (rtt : Rtt) (addr : Addr) : (rtt.convertKey addr).2.heads = rtt.heads := by
  unfold Rtt.convertKey
  split <;> rfl

theorem nodes_convertKey (rtt : Rtt) (addr : Addr) : (rtt.convertKey addr).2.nodes = rtt.nodes := by
  unfold Rtt.convertKey
  split <;> rfl

theorem maxaddrlen_convertKey (rtt : Rtt) (addr : Addr) :
    (rtt.convertKey addr).2.rttMaxaddrlen = rtt.rttMaxaddrlen := by
  unfold Rtt.convertKey
  split <;> rfl

/-- What the first section of an insertion leaves alone. -/
structure Keyed (rth : HeadId) (d d' : Rtt) : Prop where
  nodes : d'.nodes = d.nodes
  version : (d'.heads rth).rthVersion = (d.heads rth).rthVersion
  maxaddrlen : d'.rttMaxaddrlen = d.rttMaxaddrlen

theorem Twins.insertKey (h : Twins S d p) (key : Option Addr) :
    Agree (fun r r' => r.1 = r'.1 ∧ Twins S r.2 r'.2 ∧ Keyed rth d r.2)
      (insertKey d rth key) (insertKey p rth key) := by
  obtain ⟨place, flags, same⟩ := h.head_eq rth
  have setup : p.rttConvert = d.rttConvert := by
    obtain ⟨_, _, _, rfl, _, _⟩ := h.alike
    rfl
  have still (addr : Option Addr) : Keyed rth d (d.writeHead rth fun h => { h with rdxRthAddr := addr }) :=
    ⟨rfl, by rw [heads_writeHead, if_pos rfl], rfl⟩
  unfold SonicUtils.Radix.insertKey
  rw [setup, same]
  dsimp only
  cases hc : d.rttConvert with
  | none =>
    apply Agree.same
    intro _
    exact .pure ⟨rfl, h.setKey rth _, still _⟩
  | some convert =>
    cases (d.heads rth).rthAddr with
    | none =>
      apply Agree.same
      intro _
      exact .pure ⟨rfl, h.setKey rth _, still _⟩
    | some addr =>
      obtain ⟨temp, after⟩ := h.convertKey addr
      obtain ⟨place', flags', same'⟩ := after.head_eq rth
      have bytes : (p.convertKey addr).2.keyBytes = (d.convertKey addr).2.keyBytes := by
        unfold Rtt.keyBytes
        rw [after.setup.2.2.1]
      have kept : Keyed rth d (d.convertKey addr).2 :=
        ⟨nodes_convertKey d addr, by rw [heads_convertKey], maxaddrlen_convertKey d addr⟩
      dsimp only
      rw [temp, bytes, same']
      dsimp only
      cases ((d.convertKey addr).2.heads rth).rdxRthAddr with
      | none =>
        cases key with
        | none => exact .pure ⟨rfl, after, kept⟩
        | some junk =>
          have copied := (after.setKey rth (some fun i => if i < (d.convertKey addr).2.keyBytes then
            (d.convertKey addr).1 i else junk i)).writeHead rth (fun h => { h with magic := rtRthAddrMagic })
              (fun _ _ _ => rfl) fun _ => rfl
          simp only [Rtt.writeHead, Function.update_idem, Function.update_self] at copied
          refine .pure ⟨rfl, copied, kept.nodes, ?_, kept.maxaddrlen⟩
          rw [heads_writeHead, if_pos rfl]
          exact kept.version
      | some his =>
        apply Agree.same
        intro _
        apply Agree.same
        intro _
        exact .pure ⟨rfl, after, kept⟩

theorem clearLinks_unlisted (rth : HeadId)
    (unlisted : ∀ h, d.rttClhead.dllNext (.item h) = none ∧ d.rttClhead.dllBack (.item h) = none) :
    clearLinks d rth = d ∨ clearLinks d rth = d.writeHead rth fun h => { h with rdclFlags := 0 } := by
  unfold clearLinks
  split
  · right
    have next : d.rttClhead.setNext (.item rth) none = d.rttClhead := by
      unfold LinkedList.Dll.setNext
      rw [← (unlisted rth).1, Function.update_eq_self]
    have back : d.rttClhead.setBack (.item rth) none = d.rttClhead := by
      unfold LinkedList.Dll.setBack
      rw [← (unlisted rth).2, Function.update_eq_self]
    have links : ((d.writeHead rth fun h => { h with rdclFlags := 0 }).rttClhead.setNext (.item rth) none).setBack
        (.item rth) none = d.rttClhead := by
      change (d.rttClhead.setNext (.item rth) none).setBack (.item rth) none = _
      rw [next, back]
    dsimp only
    rw [links]
    rfl
  · exact .inl rfl

/-- A head in no tree may get another node and other flags in one table only. -/
theorem Twins.scratch (h : Twins S d p) (loose : rth ∉ S) {f : RtHead → RtHead}
    (keep : ∀ place flags, { f (d.heads rth) with rthRtn := place, rdclFlags := flags } =
      { d.heads rth with rthRtn := place, rdclFlags := flags }) : Twins S (d.writeHead rth f) p := by
  obtain ⟨temp, places, flags, rfl, junk, same⟩ := h.alike
  refine ⟨⟨temp, places, flags, ?_, junk, fun i hi => ?_⟩, h.debug, h.inside, h.unlisted⟩
  · simp only [Rtt.writeHead, Rtt.disguise, Rtt.mk.injEq, true_and]
    funext i
    by_cases here : i = rth
    · subst here
      rw [Function.update_self]
      exact (keep _ _).symm
    · rw [Function.update_of_ne here]
  · rw [heads_writeHead, if_neg]
    · exact same i hi
    · rintro rfl
      exact loose hi

/-- The debug section of an insertion writes to fields of a head that is in no
tree, and they matter only if the head comes with a version. -/
theorem Twins.insertDebug (h : Twins S d p) (loose : rth ∉ S) (fresh : (d.heads rth).rthVersion = 0)
    (valid : bitlen ≤ d.rttMaxaddrlen) :
    ∃ d', insertDebug d rth bitlen = (false, d') ∧ SonicUtils.Radix.insertDebug p rth bitlen = (false, p) ∧
      Twins S d' p ∧ d'.nodes = d.nodes := by
  let d₁ := d.writeHead rth fun h => { h with rthRtn := none, rthVersion := 0 }
  have first : Twins S d₁ p := h.scratch loose fun _ _ => by simp [fresh]
  have plain : p.rttDebug = false := h.setup.2.2.2.2.2
  have cleared : Twins S (clearLinks d₁ rth) p ∧ (clearLinks d₁ rth).nodes = d.nodes ∧
      (clearLinks d₁ rth).rttMaxaddrlen = d.rttMaxaddrlen := by
    rcases clearLinks_unlisted rth first.unlisted with same | same
    · rw [same]
      exact ⟨first, rfl, rfl⟩
    · rw [same]
      exact ⟨first.scratch loose fun _ _ => rfl, rfl, rfl⟩
  refine ⟨clearLinks d₁ rth, ?_, ?_, cleared.1, cleared.2.1⟩
  · unfold SonicUtils.Radix.insertDebug
    rw [if_pos h.debug]
    dsimp only
    rw [cleared.2.2, decide_eq_false (Nat.not_lt.mpr valid)]
  · unfold SonicUtils.Radix.insertDebug
    rw [plain]
    rfl

theorem Twins.insert (h : Twins S d p) (loose : rth ∉ S) (fresh : (d.heads rth).rthVersion = 0)
    (valid : bitlen ≤ d.rttMaxaddrlen) (mem : Allocs) :
    Agree (SameInsert S d rth) (stdRadixInsert d rth bitlen mem) (stdRadixInsert p rth bitlen mem) := by
  apply Agree.bind (h.insertKey mem.key)
  rintro ⟨keyed, d₁⟩ ⟨keyed', p₁⟩ ⟨rfl, h₁, kept⟩
  dsimp only at h₁ kept ⊢
  split
  · exact .pure ⟨rfl, .inr ⟨h₁, kept.nodes⟩⟩
  · rw [h₁.validate_eq]
    apply Agree.same
    intro _
    obtain ⟨d₂, debug, plain, h₂, nodes⟩ :=
      h₁.insertDebug loose (kept.version.trans fresh) (kept.maxaddrlen ▸ valid)
    rw [debug, plain]
    apply (h₂.insertTree mem).mono
    rintro r r' ⟨res, after⟩
    refine ⟨res, after.imp_right fun ⟨twins, same⟩ => ⟨twins, ?_⟩⟩
    rw [same, nodes, kept.nodes]

/-! ## Removals -/

theorem Twins.removeBrancher (h : Twins S d p) (rn : NodeId) :
    Agree (fun r r' => r.1 = r'.1 ∧ r.2.1 = r'.2.1 ∧ Twins S r.2.2 r'.2.2) (removeBrancher d rn)
      (removeBrancher p rn) := by
  unfold SonicUtils.Radix.removeBrancher
  rw [h.node_eq]
  apply Agree.same
  intro n
  apply Agree.same
  intro _
  apply Agree.same
  intro _
  have promote (child : NodeId) (next ret : Option NodeId) (dir : WalkDir) :
      Agree (fun r r' => r.1 = r'.1 ∧ r.2.1 = r'.2.1 ∧ Twins S r.2.2 r'.2.2)
        (do
          let rtt ← d.write child fun m => { m with rtnParent := n.rtnParent }
          let rtt ← rtt.replaceChild n.rtnParent rn next false
          return (ret, some dir, (rtt.releaseHead n.rtnRth).freeNode rn))
        (do
          let rtt ← p.write child fun m => { m with rtnParent := n.rtnParent }
          let rtt ← rtt.replaceChild n.rtnParent rn next false
          return (ret, some dir, (rtt.releaseHead n.rtnRth).freeNode rn)) := by
    apply Agree.bind (h.write _)
    intro d₁ p₁ h₁
    apply Agree.bind (h₁.replaceChild ..)
    intro d₂ p₂ h₂
    exact .pure ⟨rfl, rfl, (h₂.releaseHead _).freeNode⟩
  split
  · exact .same fun child => promote child _ _ _
  · exact .same fun child => promote child _ _ _

theorem Twins.removeNode (h : Twins S d p) (rn : NodeId) :
    Agree (fun r r' => r.1 = r'.1 ∧ r.2.1 = r'.2.1 ∧ Twins S r.2.2 r'.2.2) (stdRadixRemoveNode d rn)
      (stdRadixRemoveNode p rn) := by
  unfold stdRadixRemoveNode
  rw [h.node_eq]
  apply Agree.same
  intro n
  apply Agree.same
  intro _
  have released := h.dropRoute.releaseHead n.rtnRth
  dsimp only
  split
  · apply Agree.bind (released.write _)
    intro d₁ p₁ h₁
    exact .pure ⟨rfl, rfl, h₁⟩
  · split
    · have pruned := released.freeNode (i := rn)
      cases n.rtnParent with
      | none => exact .pure ⟨rfl, rfl, pruned.setRoot none⟩
      | some prev =>
        dsimp only
        rw [pruned.node_eq]
        apply Agree.same
        intro q
        apply Agree.bind (pruned.replaceChild ..)
        intro d₁ p₁ h₁
        split
        · exact .pure ⟨rfl, rfl, h₁⟩
        · exact h₁.removeBrancher prev
    · exact h.dropRoute.removeBrancher rn

theorem Twins.remove (h : Twins S d p) (mine : rth ∈ S) :
    Agree (Twins S) (stdRadixRemove d rth) (stdRadixRemove p rth) := by
  have counted := h.countRemove
  unfold stdRadixRemove
  simp only [h.validate_eq, counted.rthRtn_eq mine, counted.node_eq]
  apply Agree.same
  intro _
  apply Agree.same
  intro rn
  apply Agree.same
  intro n
  split
  · apply Agree.bind (counted.write _)
    intro d₁ p₁ h₁
    rw [h₁.setup.2.2.2.1]
    apply Agree.same
    intro _
    exact .pure h₁
  · apply Agree.bind (counted.removeNode rn)
    rintro ⟨_, _, d₁⟩ ⟨_, _, p₁⟩ ⟨_, _, h₁⟩
    have off : d₁.rttClhead.islinked (.item rth) = false := by
      have next : d₁.rttClhead.dllNext (.item rth) = none := (h₁.unlisted rth).1
      simp [LinkedList.Dll.islinked, next]
    have off' : p₁.rttClhead.islinked (.item rth) = false := by
      obtain ⟨_, _, _, rfl, _, _⟩ := h₁.alike
      exact off
    simp only [off, off', Bool.and_false, Bool.false_eq_true, if_false]
    exact .pure h₁

/-! ## Versions -/

theorem Twins.setversion (h : Twins S d p) (mine : rth ∈ S) (fuel : Nat) :
    Agree (fun r r' => r.1 = r'.1 ∧ Twins S r.2 r'.2) (stdRadixSetversion d rth fuel)
      (stdRadixSetversion p rth fuel) := by
  have version : p.rttVersion = d.rttVersion := by
    obtain ⟨_, _, _, rfl, _, _⟩ := h.alike
    rfl
  have climb (ver : Version) (fuel : Nat) (rtn : Option NodeId) (d p : Rtt) (h : Twins S d p) :
      Agree (Twins S) (loop .noReturn (raiseTurn ver) fuel (rtn, d)) (loop .noReturn (raiseTurn ver) fuel (rtn, p)) := by
    induction fuel generalizing rtn d p with
    | zero => exact .fails .noReturn
    | succ fuel ih =>
      cases rtn with
      | none => exact .pure h
      | some rtn =>
        simp only [loop, raiseTurn, bind_assoc]
        apply Agree.bind (h.write _)
        intro d₁ p₁ h₁
        rw [h₁.node_eq]
        apply Agree.same
        intro n
        exact ih n.rtnParent d₁ p₁ h₁
  unfold stdRadixSetversion
  rw [h.validate_eq]
  apply Agree.same
  intro _
  rw [h.rthRtn_eq mine]
  apply Agree.same
  intro rtn
  rw [version]
  have stamped : Twins S { d with rttVersion := d.rttVersion + 1 } { p with rttVersion := d.rttVersion + 1 } :=
    h.map (fun rtt => { rtt with rttVersion := d.rttVersion + 1 }) (fun _ _ _ => rfl) ⟨rfl, rfl, rfl, rfl, rfl⟩
      fun _ => rfl
  have dated := stamped.writeHead rth (fun h => { h with rthVersion := d.rttVersion + 1 }) (fun _ _ _ => rfl)
    fun _ => rfl
  apply Agree.bind (climb _ fuel _ _ _ dated)
  intro d₁ p₁ h₁
  apply Agree.pure
  refine ⟨rfl, ?_⟩
  split
  · exact h₁.map (fun rtt => { rtt with rttNwraps := rtt.rttNwraps + 1 }) (fun _ _ _ => rfl)
      ⟨rfl, rfl, rfl, rfl, rfl⟩ fun _ => rfl
  · exact h₁

/-! ## Lookups -/

theorem Twins.unchecked (h : Twins S d p) : ¬ (p.rttDebug = true ∧ bitlen > p.rttMaxaddrlen) := by
  rw [h.setup.2.2.2.2.2]
  simp

theorem in_range (valid : bitlen ≤ d.rttMaxaddrlen) : ¬ (d.rttDebug = true ∧ bitlen > d.rttMaxaddrlen) := by
  rintro ⟨_, long⟩
  omega

/-- What two lookups return, and that they leave twins. -/
def SameLookup {α : Type} (S : Set HeadId) (d : Rtt) (r r' : α × Rtt) : Prop :=
  r.1 = r'.1 ∧ Twins S r.2 r'.2 ∧ r.2.nodes = d.nodes

theorem Twins.getbest (h : Twins S d p) (addr : Option Addr) (valid : bitlen ≤ d.rttMaxaddrlen) :
    Agree (SameLookup S d) (stdRadixGetbest d addr bitlen) (stdRadixGetbest p addr bitlen) := by
  cases addr with
  | none => exact .pure ⟨rfl, h, rfl⟩
  | some addr =>
    obtain ⟨key, after⟩ := h.convertKey addr
    have nodes := nodes_convertKey d addr
    have valid' : bitlen ≤ (d.convertKey addr).2.rttMaxaddrlen := by rwa [maxaddrlen_convertKey]
    unfold stdRadixGetbest
    simp only [key, after.validate_eq, after.setup.2.1, if_neg after.unchecked, if_neg (in_range valid')]
    apply Agree.same
    intro _
    cases (d.convertKey addr).2.rttRoot with
    | none => exact .pure ⟨rfl, after, nodes⟩
    | some root => exact after.searches.atBest root ⟨rfl, after, nodes⟩ fun n => .pure ⟨rfl, after, nodes⟩

theorem Twins.getbestandprev (h : Twins S d p) (addr : Option Addr) (valid : bitlen ≤ d.rttMaxaddrlen) :
    Agree (SameLookup S d) (stdRadixGetbestandprev d addr bitlen) (stdRadixGetbestandprev p addr bitlen) := by
  cases addr with
  | none => exact .pure ⟨rfl, h, rfl⟩
  | some addr =>
    obtain ⟨key, after⟩ := h.convertKey addr
    have nodes := nodes_convertKey d addr
    have valid' : bitlen ≤ (d.convertKey addr).2.rttMaxaddrlen := by rwa [maxaddrlen_convertKey]
    unfold stdRadixGetbestandprev
    simp only [key, after.validate_eq, after.setup.2.1, after.searches.secondBest_eq, if_neg after.unchecked,
      if_neg (in_range valid')]
    apply Agree.same
    intro _
    cases (d.convertKey addr).2.rttRoot with
    | none => exact .pure ⟨rfl, after, nodes⟩
    | some root =>
      apply after.searches.atBest root ⟨rfl, after, nodes⟩
      intro n
      split
      · exact .pure ⟨rfl, after, nodes⟩
      · exact .same fun _ => .pure ⟨rfl, after, nodes⟩

theorem Twins.getnextbest (h : Twins S d p) (addr : Option Addr) (valid : bitlen ≤ d.rttMaxaddrlen) :
    Agree (SameLookup S d) (stdRadixGetnextbest d addr bitlen) (stdRadixGetnextbest p addr bitlen) := by
  cases addr with
  | none => exact .pure ⟨rfl, h, rfl⟩
  | some addr =>
    obtain ⟨key, after⟩ := h.convertKey addr
    have nodes := nodes_convertKey d addr
    have valid' : bitlen ≤ (d.convertKey addr).2.rttMaxaddrlen := by rwa [maxaddrlen_convertKey]
    unfold stdRadixGetnextbest
    simp only [key, after.validate_eq, after.setup.2.1, after.searches.secondBest_eq, if_neg after.unchecked,
      if_neg (in_range valid')]
    apply Agree.same
    intro _
    cases (d.convertKey addr).2.rttRoot with
    | none => exact .pure ⟨rfl, after, nodes⟩
    | some root =>
      apply after.searches.atBest root ⟨rfl, after, nodes⟩
      intro n
      split
      · exact .pure ⟨rfl, after, nodes⟩
      · exact .same fun _ => .pure ⟨rfl, after, nodes⟩

theorem Twins.getnext (h : Twins S d p) (dest : Option Addr) (valid : bitlen ≤ d.rttMaxaddrlen) :
    Agree (SameLookup S d) (stdRadixGetnext d dest bitlen) (stdRadixGetnext p dest bitlen) := by
  cases dest with
  | none =>
    unfold stdRadixGetnext
    simp only [h.validate_eq, h.setup.2.1, h.searches.rthFrom_eq, if_neg h.unchecked, if_neg (in_range valid)]
    apply Agree.same
    intro _
    cases d.rttRoot with
    | none => exact .pure ⟨rfl, h, rfl⟩
    | some root =>
      apply Agree.same
      intro start
      exact .same fun _ => .pure ⟨rfl, h, rfl⟩
  | some addr =>
    obtain ⟨key, after⟩ := h.convertKey addr
    have nodes := nodes_convertKey d addr
    have valid' : bitlen ≤ (d.convertKey addr).2.rttMaxaddrlen := by rwa [maxaddrlen_convertKey]
    unfold stdRadixGetnext
    simp only [key, after.validate_eq, after.setup.2.1, after.searches.nextStart_eq, after.searches.rthFrom_eq,
      if_neg after.unchecked, if_neg (in_range valid')]
    apply Agree.same
    intro _
    cases (d.convertKey addr).2.rttRoot with
    | none => exact .pure ⟨rfl, after, nodes⟩
    | some root =>
      apply Agree.same
      intro start
      exact .same fun _ => .pure ⟨rfl, after, nodes⟩

/-- The mask of a node is that of its bit. -/
def Masked (rtt : Rtt) : Prop := ∀ i n, rtt.nodes i = some n → n.rtnTbit = rnBit n.rtnBit

/-- A search looks at the first `bitlen` bits of its key only. -/
theorem descend_congr (masked : Masked d) {a b : Addr} (same : a.bits bitlen = b.bits bitlen) (fuel : Nat)
    (rtn : NodeId) : d.descend a (fun n => n.rtnBit < bitlen) fuel rtn =
      d.descend b (fun n => n.rtnBit < bitlen) fuel rtn := by
  induction fuel generalizing rtn with
  | zero => rfl
  | succ fuel ih =>
    cases live : d.nodes rtn with
    | none =>
      simp only [Rtt.descend, Rtt.node, live]
      rfl
    | some n =>
      simp only [Rtt.descend, node_of live, ok_bind]
      by_cases more : n.rtnBit < bitlen
      · have bit : a.bit n.rtnBit = b.bit n.rtnBit := (bits_eq_iff a b bitlen).mp same _ more
        unfold Addr.bit at bit
        simp only [masked rtn n live, bit, ih]
      · simp [more]

theorem Twins.getexact (h : Twins S d p) (masked : Masked d) (addr : Addr) (valid : bitlen ≤ d.rttMaxaddrlen)
    (same : (d.convertKey addr).1.bits bitlen = addr.bits bitlen) :
    Agree (SameLookup S d) (stdRadixGetexact d (some addr) bitlen) (stdRadixGetexact p (some addr) bitlen) := by
  have after := h.converted addr
  have nodes := nodes_convertKey d addr
  have masked' : Masked (d.convertKey addr).2 := by
    unfold Masked
    rwa [nodes]
  have debug : getexactDebug d (some addr) bitlen = (false, some (d.convertKey addr).1, (d.convertKey addr).2) := by
    unfold getexactDebug
    rw [if_pos h.debug]
    dsimp only
    rw [maxaddrlen_convertKey, decide_eq_false (Nat.not_lt.mpr valid)]
  have plain : getexactDebug p (some addr) bitlen = (false, some addr, p) := by
    unfold getexactDebug
    rw [h.setup.2.2.2.2.2]
    rfl
  unfold stdRadixGetexact
  rw [h.validate_eq, debug, plain]
  apply Agree.same
  intro _
  simp only [Bool.false_eq_true, if_false, after.setup.2.1, deref_some, ok_bind, after.searches.descend_eq, after.node_eq,
    after.headAddr_eq, descend_congr masked' same]
  cases (d.convertKey addr).2.rttRoot with
  | none => exact .pure ⟨rfl, after, nodes⟩
  | some root =>
    apply Agree.same
    intro rtn
    cases live : (d.convertKey addr).2.nodes rtn with
    | none =>
      simp only [Rtt.node, live]
      exact .fails .freed
    | some n =>
      simp only [node_of live, ok_bind]
      split
      · exact .pure ⟨rfl, after, nodes⟩
      · rename_i here
        have here : n.rtnBit = bitlen := not_not.mp here
        cases n.rtnRth with
        | none => exact .pure ⟨rfl, after, nodes⟩
        | some rth =>
          apply Agree.same
          intro his
          have compare : rdxCompareAddress (d.convertKey addr).1 his (rnByte n.rtnBit) n.rtnTbit =
              rdxCompareAddress addr his (rnByte n.rtnBit) n.rtnTbit := by
            rw [masked' rtn n live, here, Bool.eq_iff_iff, ← not_iff_not, Bool.not_eq_true, Bool.not_eq_true,
              rdxCompareAddress_eq_false, rdxCompareAddress_eq_false, ← bits_eq_iff, ← bits_eq_iff, same]
          rw [compare]
          split
          · exact .pure ⟨rfl, after, nodes⟩
          · split
            · exact .pure ⟨rfl, after, nodes⟩
            · exact .pure ⟨rfl, after, nodes⟩

end SonicUtils.Radix
