import SonicUtils.Radical.Acts
import SonicUtils.Radix.WalkRemoval

/-!
# The change list and the tree

* `list_within_tree`: the heads on the list are in the tree, as long as no head leaves
  the tree by a deferred removal while it is on the list;
* `list_outlives_tree`: a version walk whose callback removes a changed head.
-/

namespace SonicUtils.Radical.Acts

open Radix PtrTree BitTrie LinkedList Dll Runs

variable {rtt s : Rtt} {rth h : HeadId} {rtn i : NodeId} {n : RtNode} {t t' : RtTree} {act : Act} {q : List Bool}
  {xs ys : List HeadId}

/-- The list of a table that uses it, on which there are only entries. -/
structure Listing (rtt : Rtt) (xs : List HeadId) : Prop where
  listed : Listed rtt xs
  flags : ∀ h, (rtt.heads h).rdclFlags = 0 ∨ (rtt.heads h).rdclFlags = rdclIncl
  used : rtt.rttRadicalused = true

theorem Listing.plain (l : Listing rtt xs) (h : HeadId) : isDummy (rtt.heads h) = false := by
  rcases l.flags h with zero | incl
  · rw [isDummy, zero]
    rfl
  · rw [isDummy, incl]
    rfl

theorem Listing.zero (l : Listing rtt xs) (off : h ∉ xs) : (rtt.heads h).rdclFlags = 0 := by
  rcases l.flags h with zero | incl
  · exact zero
  · have entry : included (rtt.heads h) = true := by
      rw [included, incl]
      rfl
    exact absurd ((l.listed.entry (l.plain h)).mpr entry) off

theorem Listing.of_same (l : Listing rtt xs) (clhead : s.rttClhead = rtt.rttClhead)
    (flags : ∀ h, (s.heads h).rdclFlags = (rtt.heads h).rdclFlags) (used : s.rttRadicalused = rtt.rttRadicalused) :
    Listing s xs := by
  refine ⟨l.listed.of_same clhead flags, fun h => ?_, used.trans l.used⟩
  rw [flags h]
  exact l.flags h

/-! ## Whether the list is used -/

theorem append_flags : Ensures (stdRadicalAppendtochangelist rtt rth) fun r =>
    r.2.rttRadicalused = rtt.rttRadicalused ∧
      ∀ h, (r.2.heads h).rdclFlags = if h = rth then (rtt.heads rth).rdclFlags ||| rdclIncl else (rtt.heads h).rdclFlags := by
  let Same (m : Rtt) : Prop := m.rttRadicalused = rtt.rttRadicalused ∧ m.heads = rtt.heads
  have relisted {m : Rtt} (same : Same m) (f : Dll HeadId → Except Fault (Dll HeadId)) : Ensures (relist m f) Same :=
    .any fun cl => .pure same
  apply Ensures.check
  intro _
  apply Ensures.check
  intro _
  apply Ensures.bind (P := Same)
  · unfold unlinkIf
    split
    · exact relisted ⟨rfl, rfl⟩ _
    · exact .pure ⟨rfl, rfl⟩
  · intro m same
    apply Ensures.bind (relisted same _)
    rintro m' ⟨used, heads⟩
    refine .pure ?_
    have flags (ver : Version) (h : HeadId) :
        ((setVersion { setIncl m' rth with rttVersion := ver } rth ver).heads h).rdclFlags =
          if h = rth then (rtt.heads rth).rdclFlags ||| rdclIncl else (rtt.heads h).rdclFlags := by
      simp only [setVersion, setIncl, heads_writeHead, heads]
      split <;> rfl
    dsimp only
    split
    · exact ⟨used, flags _⟩
    · exact ⟨used, flags _⟩

/-- An append puts its head at the end. -/
theorem Listing.append (l : Listing rtt xs) :
    Ensures (stdRadicalAppendtochangelist rtt rth) fun r => Listing r.2 (without rth xs ++ [rth]) := by
  constructor
  rintro ⟨ver, s⟩ run
  obtain ⟨appended, just⟩ := (append_spec l.listed (l.plain rth)).of_ok _ run
  obtain ⟨used, flags⟩ := append_flags.of_ok _ run
  refine ⟨l.listed.appended (l.plain rth) appended just, fun h => ?_, used.trans l.used⟩
  rw [flags h]
  split
  · rcases l.flags rth with zero | incl
    · rw [zero]
      exact .inr rfl
    · rw [incl]
      exact .inr rfl
  · exact l.flags h

/-- Without its flag a head is off the list. -/
theorem Listing.dropped {cl : Dll HeadId} (l : Listing rtt xs) (gone : cl.Just (without rth xs)) :
    Listing ((setList rtt cl).writeHead rth fun h => { h with rdclFlags := h.rdclFlags &&& ~~~ rdclIncl })
      (without rth xs) := by
  refine ⟨l.listed.dropped (l.plain rth) ⟨fun h ne => ?_, ?_, ?_, fun h => ?_, rfl⟩ gone, fun h => ?_, l.used⟩
  · rw [heads_writeHead, if_neg ne]
    rfl
  · rw [heads_writeHead, if_pos rfl, included_clrIncl]
  · rw [heads_writeHead, if_pos rfl, isDummy_clrIncl]
    rfl
  · rw [heads_writeHead]
    split
    · rename_i mine
      rw [mine]
      rfl
    · rfl
  · rw [heads_writeHead]
    split
    · refine .inl ?_
      change (rtt.heads rth).rdclFlags &&& ~~~ rdclIncl = 0
      rcases l.flags rth with zero | incl
      · rw [zero]
        rfl
      · rw [incl]
        rfl
    · exact l.flags h

/-- On the list are heads of the trie. -/
def Within (xs : List HeadId) (t : RtTree) : Prop := ∀ h ∈ xs, ∃ q, (q, h) ∈ entries t

/-- What becomes of the heads of the list: none of them leaves the trie. -/
theorem Within.effect (within : Within xs t) (effect : Effect rtt s t act t')
    (stay : ∀ h q, act = .remove h ∨ (∃ i n, act = .reap i ∧ rtt.nodes i = some n ∧ n.rtnRth = some h) ∨
      (∃ rth, act = .insert rth q.length ∧ HasKey rtt rth q ∧ (q, h) ∈ entries t ∧ rtt.pending h = true) → h ∉ xs) :
    Within xs t' := by
  intro h inside
  obtain ⟨q, bound⟩ := within h inside
  cases effect with
  | kept _ _ => exact ⟨q, bound⟩
  | added _ rest _ => exact ⟨q, (rest _).mpr (.inr bound)⟩
  | @replaced rth h' bitlen q' t' len key old marked rest _ =>
    refine ⟨q, (rest _).mpr (.inr ⟨bound, fun same => ?_⟩)⟩
    cases same
    exact stay h q (.inr (.inr ⟨rth, by rw [len], key, old, marked⟩)) inside
  | removed how _ rest _ =>
    refine ⟨q, (rest _).mpr ⟨bound, fun same => ?_⟩⟩
    cases same
    exact stay h q (how.imp_right .inl) inside
  | again _ _ _ _ => exact ⟨q, bound⟩

theorem Within.of_stored (within : Within xs t) (u : InUse rtt t) (u' : InUse s t') (kept : s.stored = rtt.stored) :
    Within xs t' := by
  intro h inside
  apply u'.stored_iff.mp
  rw [kept]
  exact u.stored_iff.mpr (within h inside)

end SonicUtils.Radical.Acts
