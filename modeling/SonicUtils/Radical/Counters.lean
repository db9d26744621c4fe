import SonicUtils.Radical.Acts
import SonicUtils.Radix.WalkRemoval

/-!
# What the counters of a table say

* `counters_follow`: the counters of nodes are right in every run, and that of routes
  as long as no step counts a route that it does not change;
* `replacement_counted`: a head that takes the place of one whose removal is pending.
-/

namespace SonicUtils.Radical.Acts

open Radix PtrTree BitTrie Runs

variable {rtt s : Rtt} {rth h : HeadId} {t t' : RtTree} {act : Act} {q : List Bool} {e : Entry HeadId}

/-- The insertion is not at the prefix of a head whose removal is pending, and a marked
node that a walk removes has a head. -/
def Accounted (rtt : Rtt) : Act → Prop
  | .insert rth bitlen => ∀ q i n h ap, q.length = bitlen → HasKey rtt rth q →
      rtt.nodes i = some n → n.marked = true → n.rtnRth = some h → n.rtnBit = bitlen →
      (rtt.heads h).rdxRthAddr = some ap → ap.bits bitlen ≠ q
  | .reap rtn => ∀ n, rtt.nodes rtn = some n → n.rtnRth ≠ none
  | _ => True

theorem nodup_entries {stem : List Bool} (trie : Trie stem t) : (entries t).Nodup :=
  (sorted_entries trie).imp fun {a b} (less : a.1 < b.1) (same : a = b) => less.ne (congrArg Prod.fst same)

theorem length_entries {stem stem' : List Bool} (trie : Trie stem t) (trie' : Trie stem' t') (new : e ∉ entries t)
    (rest : ∀ a, a ∈ entries t' ↔ a = e ∨ a ∈ entries t) : (entries t').length = (entries t).length + 1 := by
  have perm : (entries t').Perm (e :: entries t) := by
    rw [List.perm_ext_iff_of_nodup (nodup_entries trie') (List.nodup_cons.mpr ⟨new, nodup_entries trie⟩)]
    intro a
    rw [rest, List.mem_cons]
  rw [perm.length_eq, List.length_cons]

/-- A step that is accounted for counts the heads of the tree. -/
theorem routes_step (u : InUse rtt t) (u' : InUse s t') (effect : Effect rtt s t act t') (accounted : Accounted rtt act)
    (routes : rtt.rttRoutes = .ofNat (entries t).length) : s.rttRoutes = .ofNat (entries t').length := by
  cases effect with
  | kept same _ => rw [same, routes]
  | added free rest up =>
    rw [up, routes, length_entries u.rep.trie u'.rep.trie (free _) rest, UInt64.ofNat_add]
    rfl
  | replaced len key bound marked _ _ =>
    obtain ⟨i, n, ap, live, mark, head, bit, addr, stem⟩ := pending_node u bound marked
    exact absurd (len ▸ stem) (accounted _ i n _ ap len key live mark head (bit.trans len) addr)
  | @removed act h q t' _ bound rest down =>
    have back (a : Entry HeadId) : a ∈ entries t ↔ a = (q, h) ∨ a ∈ entries t' := by
      rw [rest]
      by_cases same : a = (q, h)
      · simp [same, bound]
      · simp [same]
    have gone : (q, h) ∉ entries t' := fun there => ((rest _).mp there).2 rfl
    have longer := length_entries u'.rep.trie u.rep.trie gone back
    rw [down, routes, longer, UInt64.ofNat_add]
    grind
  | again live bare _ _ => exact absurd bare (accounted _ live)

/-- **The counters.** In every run `rtt_inodes` is the number of nodes in the tree, and
the difference of `rtt_nmalloc` and `rtt_nfree`; if all steps are accounted for,
`rtt_routes` is the number of heads in it. -/
theorem counters_follow {s₀ : Rtt} (start : Start s₀) :
    (∀ as s, Run Step s₀ as s → ∃ t, Represents s t ∧ s.rttInodes = .ofNat (nodes t).length ∧
      s.rttNmalloc - s.rttNfree = s.rttInodes) ∧
    ∀ as s, Run (fun m act m' => Step m act m' ∧ Accounted m act) s₀ as s →
      ∃ t, Represents s t ∧ s.rttRoutes = .ofNat (entries t).length := by
  constructor
  · intro as s run
    obtain ⟨t, used⟩ := start.inUse.run run
    obtain ⟨⟨live, mem_live, card⟩, balance, _⟩ := used.booked
    refine ⟨t, used.rep, ?_, balance⟩
    have same : live = (ids t).toFinset := by
      ext i
      rw [mem_live, List.mem_toFinset, used.live_iff]
    rw [card, same, List.toFinset_card_of_nodup used.rep.distinct, ids, List.length_map]
  · intro as s run
    have kept : ∃ t, InUse s t ∧ s.rttRoutes = .ofNat (entries t).length := by
      apply run.invariant (I := fun m => ∃ t, InUse m t ∧ m.rttRoutes = .ofNat (entries t).length)
      · rintro m act m' ⟨t, used, routes⟩ ⟨step, accounted⟩
        obtain ⟨t', used', effect⟩ := step_effect used step
        exact ⟨t', used', routes_step used used' effect accounted routes⟩
      · refine ⟨.nil, start.inUse, ?_⟩
        cases start
        rfl
    obtain ⟨t, used, routes⟩ := kept
    exact ⟨t, used.rep, routes⟩

theorem start_default : Start freshTable := .create 32 true (fun _ => 0) none false false false (by decide) fun _ => rfl

theorem not_stored_fresh (h : HeadId) : h ∉ freshTable.stored := by
  rintro ⟨i, n, live, _⟩
  cases live

theorem step_default : Step freshTable (.insert 0 0) defaultTable := by
  have fair : Allocs.Fair ⟨none, some 0, some 1⟩ freshTable := ⟨fun _ _ => rfl, by decide⟩
  exact .insert (not_stored_fresh 0) (by decide) fair rfl

theorem counters_follow_default :
    (∃ t, Represents defaultTable t ∧ defaultTable.rttInodes = .ofNat (nodes t).length ∧
      defaultTable.rttNmalloc - defaultTable.rttNfree = defaultTable.rttInodes) ∧
    ∃ t, Represents defaultTable t ∧ defaultTable.rttRoutes = .ofNat (entries t).length := by
  have both := counters_follow start_default
  refine ⟨both.1 _ _ (.snoc .nil step_default), both.2 _ _ (.snoc .nil ⟨step_default, ?_⟩)⟩
  intro q i n h ap _ _ live
  cases live

/-! ## A route that is counted twice -/

/-- A callback that removes its head and inserts the head 1 for the default route. -/
def replacing : WalkFn := fun rth rtt => do
  let rtt ← stdRadixRemove rtt rth
  let (_, rtt) ← stdRadixInsert rtt 1 0 ⟨none, none, none⟩
  return (0, rtt)

/-- `defaultTable` in the callback, when the default route has been removed. -/
def pendingTable : Rtt :=
  match stdRadixRemove (defaultTable.setNode 0 (rnLock (.ofBit 0 (some 0)))) 0 with
  | .ok rtt => rtt
  | .error _ => defaultTable

/-- `defaultTable` after a walk with `replacing`. -/
def replacedTable : Rtt :=
  match stdRadixVersionwalk defaultTable none (some replacing) 0 0 0 20 with
  | .ok (_, _, rtt) => rtt
  | .error _ => defaultTable

theorem pending_run : Run Step freshTable [.insert 0 0, .lock 0, .remove 0] pendingTable := by
  have locked : Run Step freshTable [.insert 0 0, .lock 0] (defaultTable.setNode 0 (rnLock (.ofBit 0 (some 0)))) :=
    .snoc (.snoc .nil step_default) (.lock rfl nofun)
  exact .snoc locked (.remove ⟨0, _, rfl, rfl⟩ rfl)

theorem stored_pending {h : HeadId} (stored : h ∈ pendingTable.stored) : h = 0 := by
  obtain ⟨i, n, live, head⟩ := stored
  by_cases same : i = 0
  · subst same
    obtain rfl := Option.some.inj live
    exact (Option.some.inj head).symm
  · have none : pendingTable.nodes i = none := by
      change (Function.update (Function.update (Function.update (fun _ => none) 0 _) 0 _) 0 _ : NodeId → Option RtNode) i = none
      simp [same]
    cases live.symm.trans none

theorem replaced_run : Run Step freshTable [.insert 0 0, .lock 0, .remove 0, .insert 1 0, .unlock 0] replacedTable := by
  have unused : 1 ∉ pendingTable.stored := fun stored => nomatch stored_pending stored
  have fair : Allocs.Fair ⟨none, none, none⟩ pendingTable := ⟨nofun, nofun⟩
  exact .snoc (.snoc pending_run (.insert unused (Nat.zero_le _) fair rfl)) (.unlock rfl nofun)

/-- The tree of `replacedTable` is one node. -/
theorem replaced_tree (rep : Represents replacedTable t) : ∃ lab, t = .node (0, lab) .nil .nil := by
  cases t with
  | nil => cases rep.root
  | node x l r =>
    have linked : Linked replacedTable.mem none (plug [] (.node x l r)) := rep.linked
    obtain ⟨⟨n, live, holds⟩, _⟩ := holds_at linked
    have top : x.1 = 0 := (Option.some.inj rep.root).symm
    rw [top] at live
    obtain rfl := Option.some.inj live
    have left : l = .nil := root_eq_none.mp holds.left.symm
    have right : r = .nil := root_eq_none.mp holds.right.symm
    exact ⟨x.2, by rw [left, right, ← top]⟩

/-- The callback replaces the default route, and the table then counts two routes. -/
theorem replacement_counted :
    ¬ ∀ s₀ as s, Start s₀ → Run Step s₀ as s → ∃ t, Represents s t ∧ s.rttInodes = .ofNat (nodes t).length ∧
      s.rttNmalloc - s.rttNfree = s.rttInodes ∧
      ((∀ i n, s.nodes i = some n → n.marked = false) → s.rttRoutes = .ofNat (entries t).length) := by
  intro claim
  have calm (i : NodeId) (n : RtNode) (live : replacedTable.nodes i = some n) : n.marked = false := by
    obtain ⟨t, used⟩ := start_default.inUse.run replaced_run
    obtain ⟨lab, rfl⟩ := replaced_tree used.rep
    have inside := used.full i (by rw [live]; nofun)
    obtain rfl : i = 0 := by simpa [ids] using inside
    obtain rfl := Option.some.inj live
    rfl
  obtain ⟨t, rep, _, _, routes⟩ := claim _ _ _ start_default replaced_run
  have two : (2 : UInt64) = .ofNat (entries t).length := routes calm
  obtain ⟨lab, rfl⟩ := replaced_tree rep
  cases val : lab.val with
  | none => simp [own, val] at two
  | some h => simp [own, val] at two

end SonicUtils.Radical.Acts
