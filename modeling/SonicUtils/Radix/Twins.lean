import SonicUtils.Radix.Alike
import SonicUtils.Radix.Footprint
import SonicUtils.Radix.Walk

/-!
# Tables with and without their debug checks

Two tables on which the same operations are carried out, one with `rtt_debug`
set and one without. They are twins: beside the flag they may differ in the
buffer, and in what their heads hold while they are in no tree.

* `Twins.searches`: what is read is the same;
* `Twins.map`, `Twins.place`: what is written leaves twins.
-/

namespace SonicUtils.Radix

open Loop

/-- A conversion that writes into its buffer only. -/
def Inside (convert : Addr → Addr → Nat → Addr) (maxaddrlen : Nat) : Prop :=
  ∀ addr buf i, (maxaddrlen + 7) / 8 ≤ i → convert addr buf maxaddrlen i = buf i

/-- The table without its debug checks, and with other buffer contents, nodes and
flags of its heads. -/
def Rtt.disguise (rtt : Rtt) (temp : Addr) (places : HeadId → Option NodeId) (flags : HeadId → UInt32) : Rtt :=
  { rtt with
    rttDebug := false
    temp := temp
    heads := fun h => { rtt.heads h with rthRtn := places h, rdclFlags := flags h } }

/-- `d` checks and `p` does not. The heads in `S` know the same nodes. -/
structure Twins (S : Set HeadId) (d p : Rtt) : Prop where
  alike : ∃ temp places flags, p = d.disguise temp places flags ∧
    (∀ i, d.keyBytes ≤ i → temp i = d.temp i) ∧ ∀ h ∈ S, places h = (d.heads h).rthRtn
  debug : d.rttDebug = true
  inside : ∀ convert, d.rttConvert = some convert → Inside convert d.rttMaxaddrlen
  unlisted : ∀ h, d.rttClhead.dllNext (.item h) = none ∧ d.rttClhead.dllBack (.item h) = none

variable {S T : Set HeadId} {d p d' p' : Rtt} {i rtn : NodeId} {rth : HeadId}

theorem Twins.mono (h : Twins T d p) (sub : S ⊆ T) : Twins S d p := by
  obtain ⟨temp, places, flags, look, junk, same⟩ := h.alike
  exact ⟨⟨temp, places, flags, look, junk, fun i hi => same i (sub hi)⟩, h.debug, h.inside, h.unlisted⟩

/-! ## Reads -/

section Reads

variable (h : Twins S d p)

include h

theorem Twins.setup : p.rttMagic = d.rttMagic ∧ p.rttRoot = d.rttRoot ∧ p.rttMaxaddrlen = d.rttMaxaddrlen ∧
    p.rttRmfree = d.rttRmfree ∧ p.nodes = d.nodes ∧ p.rttDebug = false := by
  obtain ⟨_, _, _, rfl, _, _⟩ := h.alike
  exact ⟨rfl, rfl, rfl, rfl, rfl, rfl⟩

theorem Twins.headAddr_eq (i : HeadId) : p.headAddr i = d.headAddr i := by
  obtain ⟨_, _, _, rfl, _, _⟩ := h.alike
  rfl

theorem Twins.validate_eq : p.validateHandle = d.validateHandle := by
  obtain ⟨_, _, _, rfl, _, _⟩ := h.alike
  rfl

/-- The searches do the same in both. -/
theorem Twins.searches : Alike d p := by
  obtain ⟨_, _, _, rfl, _, _⟩ := h.alike
  exact ⟨rfl, fun _ _ => rfl⟩

theorem Twins.node_eq (i : NodeId) : p.node i = d.node i := h.searches.node_eq i

end Reads

/-! ## Writes -/

/-- What the writes that follow keep. -/
structure Steady (d d' : Rtt) : Prop where
  debug : d'.rttDebug = d.rttDebug
  convert : d'.rttConvert = d.rttConvert
  maxaddrlen : d'.rttMaxaddrlen = d.rttMaxaddrlen
  temp : d'.temp = d.temp
  clhead : d'.rttClhead = d.rttClhead

theorem Steady.inside (steady : Steady d d') (h : Twins S d p) (convert : Addr → Addr → Nat → Addr)
    (some_ : d'.rttConvert = some convert) : Inside convert d'.rttMaxaddrlen := by
  rw [steady.maxaddrlen]
  exact h.inside convert (steady.convert ▸ some_)

theorem Twins.map (h : Twins S d p) (g : Rtt → Rtt)
    (comm : ∀ temp places flags, g (d.disguise temp places flags) = (g d).disguise temp places flags)
    (steady : Steady d (g d)) (keep : ∀ i, ((g d).heads i).rthRtn = (d.heads i).rthRtn) :
    Twins S (g d) (g p) := by
  obtain ⟨temp, places, flags, rfl, junk, same⟩ := h.alike
  refine ⟨⟨temp, places, flags, comm .., fun i hi => ?_, fun i hi => ?_⟩, ?_, steady.inside h, ?_⟩
  · rw [steady.temp]
    exact junk i (by rwa [Rtt.keyBytes, ← steady.maxaddrlen])
  · rw [keep]
    exact same i hi
  · rw [steady.debug, h.debug]
  · rw [steady.clhead]
    exact h.unlisted

theorem Twins.setNode (h : Twins S d p) (n : RtNode) : Twins S (d.setNode i n) (p.setNode i n) :=
  h.map (fun rtt => rtt.setNode i n) (fun _ _ _ => rfl) ⟨rfl, rfl, rfl, rfl, rfl⟩ fun _ => rfl

theorem Twins.addNode (h : Twins S d p) (n : RtNode) : Twins S (d.addNode i n) (p.addNode i n) :=
  h.map (fun rtt => rtt.addNode i n) (fun _ _ _ => rfl) ⟨rfl, rfl, rfl, rfl, rfl⟩ fun _ => rfl

theorem Twins.freeNode (h : Twins S d p) : Twins S (d.freeNode i) (p.freeNode i) :=
  h.map (fun rtt => rtt.freeNode i) (fun _ _ _ => rfl) ⟨rfl, rfl, rfl, rfl, rfl⟩ fun _ => rfl

theorem Twins.addRoute (h : Twins S d p) : Twins S d.addRoute p.addRoute :=
  h.map Rtt.addRoute (fun _ _ _ => rfl) ⟨rfl, rfl, rfl, rfl, rfl⟩ fun _ => rfl

theorem Twins.dropRoute (h : Twins S d p) : Twins S d.dropRoute p.dropRoute :=
  h.map Rtt.dropRoute (fun _ _ _ => rfl) ⟨rfl, rfl, rfl, rfl, rfl⟩ fun _ => rfl

theorem Twins.countInsert (h : Twins S d p) : Twins S d.countInsert p.countInsert :=
  h.map Rtt.countInsert (fun _ _ _ => rfl) ⟨rfl, rfl, rfl, rfl, rfl⟩ fun _ => rfl

theorem Twins.countRemove (h : Twins S d p) : Twins S d.countRemove p.countRemove :=
  h.map Rtt.countRemove (fun _ _ _ => rfl) ⟨rfl, rfl, rfl, rfl, rfl⟩ fun _ => rfl

theorem Twins.setRoot (h : Twins S d p) (rtn : Option NodeId) : Twins S (d.setRoot rtn) (p.setRoot rtn) :=
  h.map (fun rtt => rtt.setRoot rtn) (fun _ _ _ => rfl) ⟨rfl, rfl, rfl, rfl, rfl⟩ fun _ => rfl

theorem Twins.usrFree (h : Twins S d p) : Twins S d.usrFree p.usrFree := by
  refine h.map Rtt.usrFree (fun _ _ _ => ?_) ?_ fun _ => ?_
  · unfold Rtt.usrFree
    cases hd : d.rttRmfree <;> simp [Rtt.disguise, hd]
  · unfold Rtt.usrFree
    split <;> exact ⟨rfl, rfl, rfl, rfl, rfl⟩
  · unfold Rtt.usrFree
    split <;> rfl

/-- A write to fields of a head that are the same in twins. -/
theorem Twins.writeHead (h : Twins S d p) (rth : HeadId) (f : RtHead → RtHead)
    (comm : ∀ a place flags, f { a with rthRtn := place, rdclFlags := flags } =
      { f a with rthRtn := place, rdclFlags := flags })
    (keep : ∀ a, (f a).rthRtn = a.rthRtn) : Twins S (d.writeHead rth f) (p.writeHead rth f) := by
  refine h.map (fun rtt => rtt.writeHead rth f) (fun temp places flags => ?_) ⟨rfl, rfl, rfl, rfl, rfl⟩ fun i => ?_
  · simp only [Rtt.writeHead, Rtt.disguise, Rtt.mk.injEq, true_and]
    funext i
    by_cases same : i = rth
    · subst same
      simp only [Function.update_self]
      exact comm ..
    · simp [same]
  · rw [heads_writeHead]
    split
    · rename_i same
      rw [keep, same]
    · rfl

theorem Twins.setKey (h : Twins S d p) (rth : HeadId) (key : Option Addr) :
    Twins S (d.writeHead rth fun h => { h with rdxRthAddr := key })
      (p.writeHead rth fun h => { h with rdxRthAddr := key }) :=
  h.writeHead rth (fun h => { h with rdxRthAddr := key }) (fun _ _ _ => rfl) fun _ => rfl

/-- The node of a head is written, so that it is the same from now on. -/
theorem Twins.place (h : Twins S d p) (rth : HeadId) (rtn : NodeId) :
    Twins (insert rth S) (d.writeHead rth fun h => { h with rthRtn := some rtn })
      (p.writeHead rth fun h => { h with rthRtn := some rtn }) := by
  obtain ⟨temp, places, flags, rfl, junk, same⟩ := h.alike
  refine ⟨⟨temp, Function.update places rth (some rtn), flags, ?_, junk, fun i hi => ?_⟩, h.debug,
    h.inside, h.unlisted⟩
  · simp only [Rtt.writeHead, Rtt.disguise, Rtt.mk.injEq, true_and]
    funext i
    by_cases here : i = rth
    · subst here
      simp
    · simp [here]
  · rw [heads_writeHead]
    by_cases here : i = rth
    · simp [here]
    · rw [if_neg here, Function.update_of_ne here]
      exact same i (hi.resolve_left here)

theorem Twins.write (h : Twins S d p) (f : RtNode → RtNode) : Agree (Twins S) (d.write i f) (p.write i f) := by
  unfold Rtt.write
  rw [h.node_eq]
  apply Agree.same
  intro n
  exact .pure (h.setNode _)

theorem Twins.releaseHead (h : Twins S d p) (v : Option HeadId) : Twins S (d.releaseHead v) (p.releaseHead v) := by
  cases v with
  | none => exact h
  | some rth =>
    exact (h.setKey rth none).usrFree

theorem Twins.replaceChild (h : Twins S d p) (prev : Option NodeId) (old : NodeId) (new : Option NodeId)
    (rightFirst : Bool) : Agree (Twins S) (d.replaceChild prev old new rightFirst)
      (p.replaceChild prev old new rightFirst) := by
  cases prev with
  | none => exact .pure (h.setRoot new)
  | some prev =>
    simp only [Rtt.replaceChild, h.node_eq]
    apply Agree.same
    intro n
    split
    · split
      · exact h.write _
      · exact .same fun _ => h.write _
    · split
      · exact h.write _
      · exact .same fun _ => h.write _

end SonicUtils.Radix
