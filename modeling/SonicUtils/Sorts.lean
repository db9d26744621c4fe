import SonicUtils.LinkedList.Sorted
import SonicUtils.MergeSort.Sorting
import SonicUtils.RbTree.Ascending
import SonicUtils.RbTree.Chunks

/-!
# Three ways to sort

The red-black tree, the list of `std_dll_init_sort` and `std_merge_sort` put the same
elements in the same order, those that compare equal too: the order of their arrival.

* `arrivals`: what the calls have left in a tree, in the order of its arrival;
* `insert_behind`: a new datum goes in behind its equals;
* `tree_sorted`: in every run a tree holds the stable sort of its arrivals;
* `sorts_agree`: the three agree.
-/

namespace SonicUtils.Sorts

open Loop Compare Merge PtrTree Runs RbTree

/-! ## The tree -/

section

variable {δ : Type} {rbtt rbtt' : Rbtt δ} {t t' : Cells δ} {compare : δ → δ → Int} {data : δ} {i : NodeId}

/-- A new datum goes in behind those that are not greater. -/
theorem insert_behind (order : TotalPreorder rbtt.rbttCompare) (h : Sound rbtt t) (data : δ)
    (fresh : rbtt.nodes i = none) :
    ∃ rbtt' t' a b, Returns (rbtt.stdRbtreeInsert data (some i)) (rbtt', true) ∧ Holds rbtt' t' ∧ stored t = a ++ b ∧
      stored t' = a ++ data :: b ∧ ∀ e ∈ b, rbtt.rbttCompare data e < 0 := by
  let k : RbNode δ := ⟨none, none, none, .black, data⟩
  let rbtt₁ := { rbtt with
    nodes := Function.update rbtt.nodes i (some k)
    rbttNummallocs := rbtt.rbttNummallocs + 1 }
  obtain ⟨ordered, out⟩ : Ordered rbtt₁ t ∧ i ∉ ids t := ordered_alloc h.toOrdered fresh k
  have order₁ : TotalPreorder rbtt₁.rbttCompare := order
  have live : rbtt₁.nodes i = some k := Function.update_self ..
  obtain ⟨rbtt', t', run, ordered', added, _⟩ := insertNode_spec order₁ ordered live out
  obtain ⟨a, b, before, after, _, above⟩ := added.split
  refine ⟨rbtt', t', a.map Prod.snd, b.map Prod.snd, ?_, ordered'.holds, ?_, ?_, ?_⟩
  · apply Returns.bind (.of_ok fun _ => check_of h.magic)
    exact Returns.bind run (.of_ok fun _ => rfl)
  · rw [stored, before, List.map_append]
  · rw [stored, after, List.map_append, List.map_cons]
  · rw [List.forall_mem_map]
    exact above

theorem equals_append (e : δ) (a b : List δ) : equals compare e (a ++ b) = equals compare e a ++ equals compare e b :=
  List.filter_append ..

theorem equals_filter (e : δ) (p : δ → Bool) (l : List δ) :
    equals compare e (l.filter p) = (equals compare e l).filter p :=
  @keyed_filter δ δ compare id e p l

/-- A new datum is the last one of its class. -/
theorem stably_insert (order : TotalPreorder compare) {ins a b : List δ} (h : StablySorted compare ins (a ++ b))
    (ascending : Ascending compare (a ++ data :: b)) (above : ∀ e ∈ b, compare data e < 0) :
    StablySorted compare (ins ++ [data]) (a ++ data :: b) := by
  refine ⟨ascending, fun e => ?_⟩
  have inserted : equals compare e (a ++ data :: b) = equals compare e (a ++ b) ++ equals compare e [data] :=
    @keyed_insert δ δ compare id order data a b above e
  rw [inserted, h.stable, equals_append]

variable [DecidableEq δ]

/-- What a call leaves of the data, in the order of their arrival. -/
def arrive (l : List δ) : Call δ → List δ
  | .insert data true => l ++ [data]
  | .remove _ (some data) => l.erase data
  | _ => l

def arrivals (calls : List (Call δ)) : List δ := calls.foldl arrive []

/-- No datum is inserted that is there already. -/
def Anew (calls : List (Call δ)) : Prop :=
  ∀ before data after, calls = before ++ .insert data true :: after → data ∉ arrivals before

theorem arrivals_snoc (calls : List (Call δ)) (call : Call δ) :
    arrivals (calls ++ [call]) = arrive (arrivals calls) call := by
  rw [arrivals, List.foldl_append]
  rfl

theorem Anew.init {calls : List (Call δ)} {call : Call δ} (h : Anew (calls ++ [call])) : Anew calls :=
  fun before data after split => h before data (after ++ [call]) (by rw [split, List.append_assoc]; rfl)

/-- The tree holds the stable sort of what has come and not gone. -/
structure TreeSorted (rbtt : Rbtt δ) (t : Cells δ) (ins : List δ) : Prop where
  sound : Sound rbtt t
  perm : (stored t).Perm ins
  nodup : ins.Nodup
  sorted : StablySorted rbtt.rbttCompare ins (stored t)

theorem TreeSorted.insert (order : TotalPreorder rbtt.rbttCompare) {ins : List δ} (h : TreeSorted rbtt t ins)
    (new : data ∉ ins) {done : Bool} {z : Option NodeId} (fresh : Fresh rbtt z)
    (run : Returns (rbtt.stdRbtreeInsert data z) (rbtt', done)) :
    ∃ t', TreeSorted rbtt' t' (arrive ins (.insert data done)) ∧ rbtt'.rbttCompare = rbtt.rbttCompare := by
  obtain ⟨_, t', run', sound, compare_, same, _⟩ := sound_insert order h.sound data fresh
  obtain ⟨rfl, rfl⟩ := Prod.mk.inj (run.unique run')
  cases z with
  | none =>
    obtain rfl := same rfl
    exact ⟨t, h, rfl⟩
  | some i =>
    obtain ⟨_, t'', a, b, run'', holds, before, after, above⟩ := insert_behind order h.sound data (fresh i rfl)
    obtain ⟨rfl, _⟩ := Prod.mk.inj (run.unique run'')
    obtain rfl := holds_unique sound.holds holds
    have ascending : Ascending rbtt'.rbttCompare (stored t') := sound.sorted
    rw [compare_, after] at ascending
    refine ⟨t', ⟨sound, ?_, ?_, ?_⟩, compare_⟩
    · rw [after]
      exact List.perm_middle.trans (((before ▸ h.perm).cons data).trans (List.perm_append_singleton data ins).symm)
    · exact (List.perm_append_singleton data ins).nodup_iff.mpr (List.nodup_cons.mpr ⟨new, h.nodup⟩)
    · rw [compare_, after]
      exact stably_insert order (before ▸ h.sorted) ascending above

theorem TreeSorted.remove (order : TotalPreorder rbtt.rbttCompare) {ins : List δ} (h : TreeSorted rbtt t ins)
    {result : Option δ} (run : Returns (rbtt.stdRbtreeRemove data) (rbtt', result)) :
    ∃ t', TreeSorted rbtt' t' (arrive ins (.remove data result)) ∧ rbtt'.rbttCompare = rbtt.rbttCompare := by
  obtain ⟨_, t', _, run', sound, compare_, same, change⟩ := sound_remove order h.sound data
  obtain ⟨rfl, rfl⟩ := Prod.mk.inj (run.unique run')
  generalize before : stored t = l at change
  generalize after : stored t' = l' at change
  cases change with
  | absent _ =>
    obtain rfl := same rfl
    exact ⟨t, h, rfl⟩
  | @removed a b _ e _ =>
    have distinct := h.perm.nodup_iff.mpr h.nodup
    have gone : stored t' = (stored t).erase e := by
      rw [before] at distinct ⊢
      rw [List.nodup_middle, List.nodup_cons, List.mem_append] at distinct
      rw [after, List.erase_append_right _ fun mem => distinct.1 (.inl mem), List.erase_cons_head]
    refine ⟨t', ⟨sound, gone ▸ h.perm.erase e, h.nodup.erase e, ?_, fun e' => ?_⟩, compare_⟩
    · exact sound.sorted
    · rw [compare_, gone, distinct.erase_eq_filter, arrive, h.nodup.erase_eq_filter, equals_filter, equals_filter,
        h.sorted.stable]

/-- In every run the tree holds the stable sort of its arrivals. -/
theorem tree_sorted (order : TotalPreorder compare) {calls : List (Call δ)}
    (run : Run Step (stdRbtreeCreate compare) calls rbtt) (anew : Anew calls) :
    ∃ t, TreeSorted rbtt t (arrivals calls) ∧ rbtt.rbttCompare = compare := by
  induction run with
  | nil => exact ⟨.nil, ⟨sound_create compare, .refl _, List.nodup_nil, List.Pairwise.nil, fun _ => rfl⟩, rfl⟩
  | snoc _ step ih =>
    obtain ⟨t, h, same⟩ := ih anew.init
    rw [arrivals_snoc]
    cases step with
    | @insert _ data done z fresh run =>
      cases done with
      | true =>
        obtain ⟨t', h', same'⟩ := h.insert (same ▸ order) (anew _ data [] rfl) fresh run
        exact ⟨t', h', same'.trans same⟩
      | false =>
        obtain ⟨_, _, run', _, _, kept, _⟩ := sound_insert (same ▸ order) h.sound data fresh
        obtain ⟨rfl, failed⟩ := Prod.mk.inj (run.unique run')
        have none_ : z = none := Option.isNone_iff_eq_none.mp (by simpa using failed.symm)
        obtain rfl := kept none_
        exact ⟨t, h, same⟩
    | remove run =>
      obtain ⟨t', h', same'⟩ := h.remove (same ▸ order) run
      exact ⟨t', h', same'.trans same⟩

/-! ### Insertions only -/

theorem arrivals_inserts (l : List δ) : arrivals (l.map fun data => .insert data true) = l := by
  induction l using List.reverseRecOn with
  | nil => rfl
  | append_singleton l data ih => rw [List.map_append, List.map_singleton, arrivals_snoc, ih, arrive]

theorem anew_inserts {l : List δ} (nodup : l.Nodup) : Anew (l.map fun data => .insert data true) := by
  intro before data after split
  obtain ⟨first, rest, rfl, rfl, tail⟩ := List.map_eq_append_iff.mp split
  obtain ⟨e, rest, rfl, here, _⟩ := List.map_eq_cons_iff.mp tail
  obtain rfl := (Call.insert.inj here).1
  rw [arrivals_inserts]
  rw [List.nodup_append] at nodup
  exact fun mem => nodup.2.2 e mem e List.mem_cons_self rfl

end

/-! ## The three of them -/

section

open LinkedList LinkedList.Dll MergeSort

variable {ι κ σ γ : Type} [DecidableEq ι] {compare : κ → κ → Int} {field : DllRef ι → κ} {ins : List ι} {d : Dll ι}

/-- The items by their fields. -/
def compareItems (compare : κ → κ → Int) (field : DllRef ι → κ) (i j : ι) : Int :=
  compare (fieldOf field i) (fieldOf field j)

/-- **The three sorts agree.** A sorted list and a tree to which the same items have
come in the same order, whatever else has come and gone, are iterated and walked in
the order in which `std_merge_sort` puts an array of these items. -/
theorem sorts_agree (order : TotalPreorder compare) (list : SortedRun compare d field ins) {calls : List (Call ι)}
    {rbtt : Rbtt ι} (tree : Run Step (stdRbtreeCreate (compareItems compare field)) calls rbtt) (anew : Anew calls)
    (arrived : arrivals calls = ins) {u : User γ ι} (copies : Copies u) (compares : Compares u (compareItems compare field))
    {s : Buffers γ ι} (array : s.array = ins) (tmp : s.tmpArray.length = ins.length) (small : ins.length ≤ 2 ^ 30) :
    ∃ s', Returns (u.stdMergeSort ins.length s) s' ∧ Returns d.forward (s'.array.map .item) ∧
      ∀ (f : WalkFn σ ι) (user : σ), ∃ user', Returns (rbtt.stdRbtreeRwalk f user) (user', s'.array) := by
  have order' : TotalPreorder (compareItems compare field) := order.on (fieldOf field)
  obtain ⟨xs, inOrder⟩ := list.inOrder order
  have listed : StablySorted (compareItems compare field) ins xs :=
    ⟨inOrder.ascending, fun e => inOrder.stable (fieldOf field e)⟩
  obtain ⟨t, h, same⟩ := tree_sorted order' tree anew
  have walked := h.sorted
  rw [same, arrived] at walked
  obtain ⟨s', returns, sorts⟩ := mergeSort_spec copies compares.chooses (show ins.length ≤ 2 ^ 30 + 1 by omega)
    (congrArg List.length array) tmp
  rw [array] at sorts
  have merged : StablySorted (compareItems compare field) ins s'.array :=
    ⟨sorts.ascending order', fun e => sorts.stable order' e⟩
  obtain rfl := merged.unique order' listed
  refine ⟨s', returns, forward_spec inOrder.stands, fun f user => ?_⟩
  have whole := merged.unique order' walked
  obtain ⟨user', walks⟩ := rwalk_spec h.sound.toOrdered f user
  exact ⟨user', whole ▸ walks⟩

/-- Three items with the fields 5, 0 and 5. -/
theorem sorts_agree_three : ∃ (field : DllRef Nat → Nat) (d : Dll Nat) (rbtt : Rbtt Nat) (s' : Buffers Nat Nat),
    SortedRun threeWay d field [0, 1, 2] ∧
      Returns ((counted (fieldOf field)).stdMergeSort 3 ⟨0, [0, 1, 2], [0, 0, 0]⟩) s' ∧
      Returns d.forward (s'.array.map .item) ∧
      ∃ user', Returns (rbtt.stdRbtreeRwalk (fun _ user => (0, user)) ()) (user', s'.array) := by
  let field : DllRef Nat → Nat := fun p => if p = .item 1 then 0 else 5
  have order : TotalPreorder (threeWay : Nat → Nat → Int) := totalPreorder_threeWay id
  have none_ : InOrder threeWay (init : Dll Nat).initHead field [] [] := .init _ _
  obtain ⟨d₁, xs₁, run₁, one⟩ := none_.insert order (show 0 ∉ [] by decide)
  obtain ⟨d₂, xs₂, run₂, two⟩ := one.insert order (show 1 ∉ [0] by decide)
  obtain ⟨d₃, xs₃, run₃, three⟩ := two.insert order (show 2 ∉ [0, 1] by decide)
  have list : SortedRun threeWay d₃ field [0, 1, 2] :=
    .insert (.insert (.insert (.init _ field) (by decide) run₁) (by decide) run₂) (by decide) run₃
  obtain ⟨rbtt, tree⟩ := exists_run_insert (order.on (fieldOf field)) [0, 1, 2]
  have compares : Compares (counted (fieldOf field)) (compareItems threeWay field) := by
    intro context l i j x y hi hj
    simp only [counted, Int.toNat_natCast, hi, hj, compareItems]
  obtain ⟨s', returns, forward, walks⟩ := sorts_agree order list tree (anew_inserts (by decide)) (arrivals_inserts _)
    (copies_counted (fieldOf field)) compares (s := ⟨0, [0, 1, 2], [0, 0, 0]⟩) rfl rfl (by decide)
  exact ⟨field, d₃, rbtt, s', list, returns, forward, walks (fun _ user => (0, user)) ()⟩

end

end SonicUtils.Sorts
