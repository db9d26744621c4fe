import Mathlib.Data.Fintype.EquivFin
import SonicUtils.Lib.Runs
import SonicUtils.RbTree.Queries
import SonicUtils.RbTree.Removal

/-!
# Runs of a red-black tree

A tree is created and then used by insertions and removals, in any order.

* `Sound`: what every run keeps;
* `sound_insert`, `sound_remove`: the two steps, on the stored data;
* `red_black`: the tree is balanced, and no call fails;
* `ordered_multiset`: the tree as an ordered multiset.
-/

namespace SonicUtils.RbTree

open PtrTree RedBlack Loop Compare Runs

variable {δ : Type} {rbtt rbtt' : Rbtt δ} {t t' : Cells δ} {compare : δ → δ → Int} {data : δ}

/-- A call, with what it returns. -/
inductive Call (δ : Type)
  | insert (data : δ) (done : Bool)
  | remove (data : δ) (result : Option δ)

namespace Call

/-- The datum that the call has added. -/
def given : Call δ → List δ
  | .insert data true => [data]
  | _ => []

/-- The datum that the call has taken out. -/
def taken : Call δ → List δ
  | .remove _ (some data) => [data]
  | _ => []

/-- The call reports that it has done nothing. -/
def idle : Call δ → Prop
  | .insert _ done => done = false
  | .remove _ result => result = none

end Call

/-- An address that `rbtt_malloc` may give: none where it fails. -/
def Fresh (rbtt : Rbtt δ) (z : Option NodeId) : Prop := ∀ i, z = some i → rbtt.nodes i = none

inductive Step : Rbtt δ → Call δ → Rbtt δ → Prop
  | insert {rbtt rbtt' : Rbtt δ} {data : δ} {done : Bool} (z : Option NodeId) : Fresh rbtt z →
      Returns (rbtt.stdRbtreeInsert data z) (rbtt', done) → Step rbtt (.insert data done) rbtt'
  | remove {rbtt rbtt' : Rbtt δ} {data : δ} {result : Option δ} :
      Returns (rbtt.stdRbtreeRemove data) (rbtt', result) → Step rbtt (.remove data result) rbtt'

/-- The table holds the tree, its nodes are all that is allocated, and it has
counted them. -/
structure Sound (rbtt : Rbtt δ) (t : Cells δ) : Prop extends Ordered rbtt t where
  live : ∀ i n, rbtt.nodes i = some n → i ∈ ids t
  numinodes : rbtt.rbttNuminodes = UInt64.ofNat (stored t).length
  allocated : rbtt.rbttNuminodes = rbtt.rbttNummallocs - rbtt.rbttNumfrees

theorem sound_create (compare : δ → δ → Int) : Sound (stdRbtreeCreate compare) .nil where
  holds := ⟨rfl, trivial, List.nodup_nil⟩
  magic := rfl
  nil := rfl
  balanced := ⟨0, .nil⟩
  sorted := List.Pairwise.nil
  live := by simp [stdRbtreeCreate]
  numinodes := rfl
  allocated := by simp [stdRbtreeCreate]

/-- What a call does to the stored data. -/
inductive Change (compare : δ → δ → Int) : List δ → Call δ → List δ → Prop
  | added (a b : List δ) (data : δ) : Change compare (a ++ b) (.insert data true) (a ++ data :: b)
  | failed (l : List δ) (data : δ) : Change compare l (.insert data false) l
  | removed {a b : List δ} {data e : δ} : compare data e = 0 →
      Change compare (a ++ e :: b) (.remove data (some e)) (a ++ b)
  | absent {l : List δ} {data : δ} : (∀ e ∈ l, compare data e ≠ 0) → Change compare l (.remove data none) l

theorem Change.perm {l l' : List δ} {call : Call δ} (h : Change compare l call l') :
    (l' ++ call.taken).Perm (l ++ call.given) := by
  cases h with
  | added a b data =>
    simp only [Call.taken, Call.given, List.append_nil]
    exact List.perm_middle.trans (List.perm_append_singleton _ _).symm
  | failed => exact .refl _
  | removed =>
    simp only [Call.taken, Call.given, List.append_nil]
    exact (List.perm_append_singleton _ _).trans List.perm_middle.symm
  | absent => exact .refl _

/-! ## Insertion -/

/-- The table with the new node in memory. -/
theorem ordered_alloc {i : NodeId} (h : Ordered rbtt t) (fresh : rbtt.nodes i = none) (n : RbNode δ) :
    let rbtt' := { rbtt with
      nodes := Function.update rbtt.nodes i (some n)
      rbttNummallocs := rbtt.rbttNummallocs + 1 }
    Ordered rbtt' t ∧ i ∉ ids t := by
  have out : i ∉ ids t := by
    intro mem
    obtain ⟨x, hx, rfl⟩ := List.mem_map.mp mem
    obtain ⟨k, held⟩ := h.holds.linked.holds hx
    cases fresh.symm.trans held
  refine ⟨⟨⟨h.holds.top, ?_, h.holds.distinct⟩, h.magic, h.nil, h.balanced, h.sorted⟩, out⟩
  apply linked_only h.holds.linked
  intro j hj
  exact Function.update_of_ne (ne_of_mem_of_not_mem hj out) _ _

theorem sound_insert (order : TotalPreorder rbtt.rbttCompare) (h : Sound rbtt t) (data : δ) {z : Option NodeId}
    (fresh : Fresh rbtt z) :
    ∃ rbtt' t', Returns (rbtt.stdRbtreeInsert data z) (rbtt', z.isSome) ∧ Sound rbtt' t' ∧
      rbtt'.rbttCompare = rbtt.rbttCompare ∧ (z = none → rbtt' = rbtt) ∧
      Change rbtt.rbttCompare (stored t) (.insert data z.isSome) (stored t') := by
  have valid : rbtt.validateHandle = .ok () := check_of h.magic
  cases z with
  | none =>
    refine ⟨rbtt, t, .of_ok fun _ => ?_, h, rfl, fun _ => rfl, .failed _ _⟩
    rw [Rbtt.stdRbtreeInsert, valid]
    rfl
  | some i =>
    let rbtt₁ := { rbtt with
      nodes := Function.update rbtt.nodes i (some ⟨none, none, none, .black, data⟩)
      rbttNummallocs := rbtt.rbttNummallocs + 1 }
    obtain ⟨ordered, out⟩ : Ordered rbtt₁ t ∧ i ∉ ids t := ordered_alloc h.toOrdered (fresh i rfl) _
    have order₁ : TotalPreorder rbtt₁.rbttCompare := order
    have live : rbtt₁.nodes i = some ⟨none, none, none, .black, data⟩ := Function.update_self ..
    obtain ⟨rbtt', t', run, ordered', added, rest, keep⟩ := insertNode_spec order₁ ordered live out
    have compare_ : rbtt'.rest.rbttCompare = rbtt.rbttCompare := rest ▸ rfl
    have numinodes : rbtt'.rest.rbttNuminodes = rbtt.rbttNuminodes + 1 := rest ▸ rfl
    have nummallocs : rbtt'.rest.rbttNummallocs = rbtt.rbttNummallocs + 1 := rest ▸ rfl
    have numfrees : rbtt'.rest.rbttNumfrees = rbtt.rbttNumfrees := rest ▸ rfl
    obtain ⟨a, b, before_, after_, _, _⟩ := added.split
    have first : stored t = a.map Prod.snd ++ b.map Prod.snd := by rw [stored, before_, List.map_append]
    have last : stored t' = a.map Prod.snd ++ data :: b.map Prod.snd := by
      rw [stored, after_, List.map_append, List.map_cons]
    refine ⟨rbtt', t', ?_, ⟨ordered', ?_, ?_, ?_⟩, compare_, by simp, ?_⟩
    · apply Returns.bind (.of_ok fun _ => valid)
      apply Returns.bind run
      exact .of_ok fun _ => rfl
    · intro j n held
      by_contra outside
      have mem (e : NodeId × δ) (he : e ∈ a ∨ e = (i, data) ∨ e ∈ b) : e ∈ items t' := by
        rw [after_, List.mem_append, List.mem_cons]
        exact he
      have other : j ≠ i := by
        rintro rfl
        exact outside (mem_ids_iff.mpr ⟨(j, data), mem _ (.inr (.inl rfl)), rfl⟩)
      rw [keep j outside] at held
      have old : rbtt.nodes j = some n := (Function.update_of_ne other _ _).symm.trans held
      obtain ⟨e, he, rfl⟩ := mem_ids_iff.mp (h.live j n old)
      rw [before_, List.mem_append] at he
      exact outside (mem_ids_iff.mpr ⟨e, mem e (he.imp_right .inr), rfl⟩)
    · have length : (stored t').length = (stored t).length + 1 := by simp [first, last]; omega
      rw [length, UInt64.ofNat_add, ← h.numinodes]
      exact numinodes
    · have counted := h.allocated
      change rbtt'.rest.rbttNuminodes = rbtt'.rest.rbttNummallocs - rbtt'.rest.rbttNumfrees
      rw [numinodes, nummallocs, numfrees, counted]
      grind
    · rw [first, last]
      exact .added _ _ _

/-! ## Removal -/

theorem sound_remove (order : TotalPreorder rbtt.rbttCompare) (h : Sound rbtt t) (data : δ) :
    ∃ rbtt' t' result, Returns (rbtt.stdRbtreeRemove data) (rbtt', result) ∧ Sound rbtt' t' ∧
      rbtt'.rbttCompare = rbtt.rbttCompare ∧ (result = none → rbtt' = rbtt) ∧
      Change rbtt.rbttCompare (stored t) (.remove data result) (stored t') := by
  have spot := spot_descend order h.toOrdered data
  have search := getexactNode_spec h.toOrdered data
  generalize (descend (exactWay rbtt.rbttCompare data) [] t).1 = fs at spot
  generalize (descend (exactWay rbtt.rbttCompare data) [] t).2 = s at spot search
  cases s with
  | nil =>
    exact ⟨rbtt, t, none, Returns.bind search (.of_ok fun _ => rfl), h, rfl, fun _ => rfl, .absent (spot.absent order)⟩
  | node x l r =>
    obtain rfl := spot.whole
    obtain ⟨rbtt₁, t', run, ordered', items', core, ⟨n, live, datum⟩, keep⟩ := removeNode_spec h.toOrdered
    have compare_ : rbtt₁.core.rbttCompare = rbtt.rbttCompare := core ▸ rfl
    have numinodes : rbtt₁.core.rbttNuminodes = rbtt.rbttNuminodes - 1 := core ▸ rfl
    have nummallocs : rbtt₁.core.rbttNummallocs = rbtt.rbttNummallocs := core ▸ rfl
    have numfrees : rbtt₁.core.rbttNumfrees = rbtt.rbttNumfrees := core ▸ rfl
    have out : x.1 ∉ ids t' := (rest_apart h.holds.distinct items').1
    let rbtt' := { rbtt₁ with
      nodes := Function.update rbtt₁.nodes x.1 none
      rbttNumfrees := rbtt₁.rbttNumfrees + 1 }
    have holds' : Holds rbtt' t' := ⟨ordered'.holds.top, linked_only ordered'.holds.linked fun i hi =>
      Function.update_of_ne (ne_of_mem_of_not_mem hi out) _ _, ordered'.holds.distinct⟩
    have first := congrArg (List.map Prod.snd) (items_at fs x l r)
    have last := congrArg (List.map Prod.snd) items'
    rw [List.map_append, List.map_cons] at first
    rw [List.map_append] at last
    refine ⟨rbtt', t', some x.2.2, ?_, ⟨⟨holds', ordered'.magic, ordered'.nil, ordered'.balanced, ordered'.sorted⟩, ?_, ?_, ?_⟩,
      compare_, by simp, ?_⟩
    · apply Returns.bind search
      apply Returns.bind run
      apply Returns.bind (.of_ok fun _ => node_of live)
      rw [← datum]
      exact .of_ok fun _ => rfl
    · intro j n held
      by_cases other : j = x.1
      · have gone : rbtt'.nodes x.1 = none := Function.update_self ..
        rw [other, gone] at held
        cases held
      · have here : rbtt₁.nodes j = some n := (Function.update_of_ne other _ _).symm.trans held
        have inside : j ∈ ids (plug fs (.node x l r)) := by
          by_contra outside
          rw [keep j outside] at here
          exact outside (h.live j n here)
        obtain ⟨e, he, rfl⟩ := mem_ids_iff.mp inside
        refine mem_ids_iff.mpr ⟨e, ?_, rfl⟩
        rw [items_at, List.mem_append, List.mem_cons] at he
        rw [items', List.mem_append]
        cases he with
        | inl left => exact .inl left
        | inr rest =>
          cases rest with
          | inl same => exact absurd (congrArg Prod.fst same) other
          | inr right => exact .inr right
    · have length : (stored (plug fs (.node x l r))).length = (stored t').length + 1 := by
        rw [stored, stored, first, last]
        simp
        omega
      have counted := h.numinodes
      rw [length, UInt64.ofNat_add] at counted
      change rbtt₁.core.rbttNuminodes = _
      rw [numinodes, counted]
      grind
    · have counted := h.allocated
      change rbtt₁.core.rbttNuminodes = rbtt₁.core.rbttNummallocs - (rbtt₁.core.rbttNumfrees + 1)
      rw [numinodes, nummallocs, numfrees, counted]
      grind
    · rw [stored, stored, first, last]
      exact .removed (spot.equal x l r rfl)

/-! ## Runs -/

theorem step_sound {call : Call δ} (order : TotalPreorder rbtt.rbttCompare) (h : Sound rbtt t)
    (step : Step rbtt call rbtt') :
    ∃ t', Sound rbtt' t' ∧ rbtt'.rbttCompare = rbtt.rbttCompare ∧ (call.idle → rbtt' = rbtt) ∧
      Change rbtt.rbttCompare (stored t) call (stored t') := by
  cases step with
  | insert z fresh run =>
    obtain ⟨after, t', run', sound, compare_, same, change⟩ := sound_insert order h _ fresh
    obtain ⟨rfl, rfl⟩ := Prod.mk.inj (run.unique run')
    refine ⟨t', sound, compare_, fun idle => same ?_, change⟩
    simpa [Call.idle] using idle
  | remove run =>
    obtain ⟨after, t', result, run', sound, compare_, same, change⟩ := sound_remove order h _
    obtain ⟨rfl, rfl⟩ := Prod.mk.inj (run.unique run')
    exact ⟨t', sound, compare_, same, change⟩

theorem run_sound {calls : List (Call δ)} (order : TotalPreorder compare)
    (run : Run Step (stdRbtreeCreate compare) calls rbtt) :
    ∃ t, Sound rbtt t ∧ rbtt.rbttCompare = compare ∧
      (stored t ++ calls.flatMap Call.taken).Perm (calls.flatMap Call.given) := by
  have start : ∃ t, Sound (stdRbtreeCreate compare) t ∧ (stdRbtreeCreate compare).rbttCompare = compare ∧
      (stored t ++ [].flatMap Call.taken).Perm ([].flatMap Call.given) := ⟨.nil, sound_create compare, rfl, .refl _⟩
  apply run.invariant_trace _ start
  intro calls rbtt call rbtt' ⟨t, sound, compare_, perm⟩ step
  obtain ⟨t', sound', same, _, change⟩ := step_sound (compare_ ▸ order) sound step
  refine ⟨t', sound', same.trans compare_, ?_⟩
  simp only [List.flatMap_append, List.flatMap_singleton]
  calc (stored t' ++ (calls.flatMap Call.taken ++ call.taken)).Perm
        (stored t' ++ call.taken ++ calls.flatMap Call.taken) := by
        rw [List.append_assoc]
        exact List.perm_append_comm.append_left _
    _ |>.Perm (stored t ++ call.given ++ calls.flatMap Call.taken) := change.perm.append_right _
    _ |>.Perm (stored t ++ calls.flatMap Call.taken ++ call.given) := by
        rw [List.append_assoc, List.append_assoc]
        exact List.perm_append_comm.append_left _
    _ |>.Perm (calls.flatMap Call.given ++ call.given) := perm.append_right _

theorem exists_fresh (h : Sound rbtt t) : ∃ i, Fresh rbtt (some i) := by
  obtain ⟨i, outside⟩ := Infinite.exists_notMem_finset (ids t).toFinset
  refine ⟨i, ?_⟩
  intro j same
  obtain rfl := Option.some.inj same
  cases held : rbtt.nodes i with
  | none => rfl
  | some n => exact absurd (List.mem_toFinset.mpr (h.live i n held)) outside

/-- Any data can be inserted one after the other. -/
theorem exists_run_insert (order : TotalPreorder compare) (l : List δ) :
    ∃ rbtt, Run Step (stdRbtreeCreate compare) (l.map fun data => .insert data true) rbtt := by
  induction l using List.reverseRecOn with
  | nil => exact ⟨_, .nil⟩
  | append_singleton l data ih =>
    obtain ⟨rbtt, run⟩ := ih
    obtain ⟨t, sound, rfl, _⟩ := run_sound order run
    obtain ⟨i, fresh⟩ := exists_fresh sound
    obtain ⟨rbtt', _, run', _⟩ := sound_insert order sound data fresh
    rw [List.map_append, List.map_singleton]
    exact ⟨rbtt', .snoc run (.insert (some i) fresh run')⟩

/-- No call of a function that changes the tree fails. -/
theorem calls_return (order : TotalPreorder rbtt.rbttCompare) (h : Sound rbtt t) :
    (∀ data z, Fresh rbtt z → ∃ rbtt' done, Returns (rbtt.stdRbtreeInsert data z) (rbtt', done)) ∧
      ∀ data, ∃ rbtt' result, Returns (rbtt.stdRbtreeRemove data) (rbtt', result) := by
  constructor
  · intro data z fresh
    obtain ⟨rbtt', _, run, _⟩ := sound_insert order h data fresh
    exact ⟨rbtt', _, run⟩
  · intro data
    obtain ⟨rbtt', _, result, run, _⟩ := sound_remove order h data
    exact ⟨rbtt', result, run⟩

/-- Every table of a run holds a red-black tree, with a black sentinel, and the
next call does not go wrong. -/
theorem red_black {calls : List (Call δ)} (order : TotalPreorder compare)
    (run : Run Step (stdRbtreeCreate compare) calls rbtt) :
    (∃ t, Holds rbtt t ∧ (∃ m, Rb Cell.color .black m t) ∧ rbtt.nil.rbtColor = .black ∧
        t.height ≤ 2 * Nat.log 2 (t.numNodes + 1)) ∧
      (∀ data z, Fresh rbtt z → ∃ rbtt' done, Returns (rbtt.stdRbtreeInsert data z) (rbtt', done)) ∧
      ∀ data, ∃ rbtt' result, Returns (rbtt.stdRbtreeRemove data) (rbtt', result) := by
  obtain ⟨t, sound, compare_, _⟩ := run_sound order run
  obtain ⟨m, balanced⟩ := sound.balanced
  exact ⟨⟨t, sound.holds, ⟨m, balanced⟩, sound.nil, balanced.height_le⟩, calls_return (compare_ ▸ order) sound⟩

theorem red_black_ul : ∃ (rbtt : Rbtt (UInt64 × Nat)) (t : Cells (UInt64 × Nat)),
    rbtt.rbttCompare = Rbtt.stdRbtreeCompareUl Prod.fst ∧ Holds rbtt t ∧ (∃ m, Rb Cell.color .black m t) ∧
      t.height ≤ 2 * Nat.log 2 (t.numNodes + 1) := by
  have order : TotalPreorder (Rbtt.stdRbtreeCompareUl (Prod.fst : UInt64 × Nat → UInt64)) := totalPreorder_threeWay _
  obtain ⟨rbtt, run⟩ := exists_run_insert order [(2, 0), (1, 1), (2, 2)]
  obtain ⟨_, _, compare_, _⟩ := run_sound order run
  obtain ⟨⟨t, holds, balanced, _, height⟩, _⟩ := red_black order run
  exact ⟨rbtt, t, compare_, holds, balanced, height⟩

/-- The tree is an ordered multiset: what has been added and not been taken out. -/
theorem ordered_multiset {calls : List (Call δ)} (order : TotalPreorder compare)
    (run : Run Step (stdRbtreeCreate compare) calls rbtt) :
    ∃ t, Holds rbtt t ∧ Ascending compare (stored t) ∧
      (stored t ++ calls.flatMap Call.taken).Perm (calls.flatMap Call.given) ∧
      rbtt.rbttNuminodes = UInt64.ofNat (stored t).length ∧
      rbtt.rbttNuminodes = rbtt.rbttNummallocs - rbtt.rbttNumfrees ∧
      (∀ call rbtt', Step rbtt call rbtt' → (call.idle → rbtt' = rbtt) ∧
        ∃ t', Holds rbtt' t' ∧ Change compare (stored t) call (stored t')) ∧
      (∀ data z, Fresh rbtt z → ∃ rbtt', Step rbtt (.insert data z.isSome) rbtt') ∧
      (∀ data, ∃ rbtt' result, Step rbtt (.remove data result) rbtt') ∧
      ∀ data, ∃ found, Returns (rbtt.stdRbtreeGetexact data) found ∧
        (∀ e, found = some e → e ∈ stored t ∧ compare data e = 0) ∧
        (found = none → ∀ e ∈ stored t, compare data e ≠ 0) := by
  obtain ⟨t, sound, rfl, perm⟩ := run_sound order run
  refine ⟨t, sound.holds, sound.sorted, perm, sound.numinodes, sound.allocated, ?_, ?_, ?_, ?_⟩
  · intro call rbtt' step
    obtain ⟨t', sound', _, same, change⟩ := step_sound order sound step
    exact ⟨same, t', sound'.holds, change⟩
  · intro data z fresh
    obtain ⟨rbtt', _, run', _⟩ := sound_insert order sound data fresh
    exact ⟨rbtt', .insert z fresh run'⟩
  · intro data
    obtain ⟨rbtt', _, result, run', _⟩ := sound_remove order sound data
    exact ⟨rbtt', result, .remove run'⟩
  · intro data
    exact getexact_found order sound.toOrdered data

/-- Three data with two keys. -/
theorem ordered_multiset_ul : ∃ (rbtt : Rbtt (UInt64 × Nat)) (t : Cells (UInt64 × Nat)), Holds rbtt t ∧
    Ascending (Rbtt.stdRbtreeCompareUl Prod.fst) (stored t) ∧ (stored t).Perm [(2, 0), (1, 1), (2, 2)] := by
  have order : TotalPreorder (Rbtt.stdRbtreeCompareUl (Prod.fst : UInt64 × Nat → UInt64)) := totalPreorder_threeWay _
  obtain ⟨rbtt, run⟩ := exists_run_insert order [(2, 0), (1, 1), (2, 2)]
  obtain ⟨t, holds, sorted, perm, _⟩ := ordered_multiset order run
  refine ⟨rbtt, t, holds, sorted, ?_⟩
  simpa [Call.taken, Call.given] using perm

end SonicUtils.RbTree
