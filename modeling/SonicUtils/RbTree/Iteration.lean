import SonicUtils.RbTree.Runs

/-!
# Ordered searches and the iteration over a red-black tree

* `ordered_searches`: what the searches find if no two keys are equal;
* `iterates_iff`: `std_rbtree_getfirst` and then `std_rbtree_getnext` again and
  again visit every datum if no two keys are equal, and only then. The next
  datum is searched by its key, so equal data have the same next datum.
-/

namespace SonicUtils.RbTree

open PtrTree RedBlack Loop Compare Runs

variable {δ : Type} {rbtt : Rbtt δ} {t : Cells δ} {compare : δ → δ → Int} {data d e : δ} {l a b : List δ}
  {m o : Option δ}

/-! ## Searches -/

theorem Cut.next (order : TotalPreorder compare) (h : Cut compare data l a m b) :
    l.find? (fun e => compare data e ≤ 0) = m.or b.head? := by
  rw [h.whole, find_split]
  · cases m <;> rfl
  · intro e he
    have less := (order.flip _ _).mp (h.less e he)
    simpa using less
  · intro e he
    rw [List.mem_append, Option.mem_toList] at he
    cases he with
    | inl here => simp [h.equal e here]
    | inr later => simpa using Int.le_of_lt (h.more e later)

theorem Cut.prev (order : TotalPreorder compare) (h : Cut compare data l a m b) :
    l.reverse.find? (fun e => compare e data ≤ 0) = m.or a.getLast? := by
  rw [h.whole, List.reverse_append, List.reverse_append, List.append_assoc, find_split]
  · cases m <;> simp
  · intro e he
    have more := (order.flip _ _).mp (h.more e (List.mem_reverse.mp he))
    simpa using more
  · intro e he
    rw [List.mem_append, List.mem_reverse, List.mem_reverse, Option.mem_toList] at he
    cases he with
    | inl here => simp [order.eq_comm.mp (h.equal e here)]
    | inr earlier => simpa using Int.le_of_lt (h.less e earlier)

theorem Cut.following (order : TotalPreorder compare) (h : Cut compare data l a m b) :
    l.find? (fun e => compare data e < 0) = b.head? := by
  rw [h.whole, ← List.append_assoc, find_split]
  · intro e he
    rw [List.mem_append, Option.mem_toList] at he
    cases he with
    | inl earlier =>
      have less := (order.flip _ _).mp (h.less e earlier)
      simpa using Int.le_of_lt less
    | inr here => simp [h.equal e here]
  · intro e he
    simpa using h.more e he

/-- The searches give the least and the greatest stored data of their kinds. -/
theorem ordered_searches {calls : List (Call δ)} (order : TotalPreorder compare)
    (run : Run Step (stdRbtreeCreate compare) calls rbtt) :
    ∃ t, Holds rbtt t ∧ (stored t ++ calls.flatMap Call.taken).Perm (calls.flatMap Call.given) ∧
      (Distinct compare (stored t) → ∀ data, ∃ first next prev following,
      (Returns rbtt.stdRbtreeGetfirst first ∧ Least compare (stored t) (fun _ => True) first) ∧
      (Returns (rbtt.stdRbtreeGetexactornext data) next ∧
        Least compare (stored t) (fun e => compare data e ≤ 0) next) ∧
      (Returns (rbtt.stdRbtreeGetexactorprev data) prev ∧
        Greatest compare (stored t) (fun e => compare e data ≤ 0) prev) ∧
      Returns (rbtt.stdRbtreeGetnext data) following ∧
        Least compare (stored t) (fun e => compare data e < 0) following) := by
  obtain ⟨t, sound, rfl, perm⟩ := run_sound order run
  refine ⟨t, sound.holds, perm, ?_⟩
  intro distinct data
  obtain ⟨a, m, b, cut, next, prev, following⟩ := searches_spec order sound.toOrdered distinct data
  rw [← cut.next order] at next
  rw [← cut.prev order] at prev
  rw [← cut.following order] at following
  have first := getfirst_spec sound.toOrdered
  have sorted : Ascending rbtt.rbttCompare (stored t) := sound.sorted
  have head := sorted.least_find order fun _ => True
  have all : (stored t).find? (fun _ => decide True) = (stored t).head? := by
    cases stored t <;> rfl
  rw [all] at head
  exact ⟨_, _, _, _, ⟨first, head⟩, ⟨next, sorted.least_find order _⟩, ⟨prev, sorted.greatest_find order _⟩,
    following, sorted.least_find order _⟩

/-- Searches among 2, 4 and 9. -/
theorem ordered_searches_ul : ∃ (rbtt : Rbtt (UInt64 × Nat)) (following prev : Option (UInt64 × Nat)),
    Returns (rbtt.stdRbtreeGetnext (4, 8)) following ∧ Returns (rbtt.stdRbtreeGetexactorprev (3, 8)) prev ∧
      Least (Rbtt.stdRbtreeCompareUl Prod.fst) [(4, 0), (9, 1), (2, 2)]
        (fun e => Rbtt.stdRbtreeCompareUl Prod.fst (4, 8) e < 0) following ∧
      Greatest (Rbtt.stdRbtreeCompareUl Prod.fst) [(4, 0), (9, 1), (2, 2)]
        (fun e => Rbtt.stdRbtreeCompareUl Prod.fst e (3, 8) ≤ 0) prev := by
  have order : TotalPreorder (Rbtt.stdRbtreeCompareUl (Prod.fst : UInt64 × Nat → UInt64)) := totalPreorder_threeWay _
  obtain ⟨rbtt, run⟩ := exists_run_insert order [(4, 0), (9, 1), (2, 2)]
  obtain ⟨t, holds, perm, searches⟩ := ordered_searches order run
  have three : (stored t).Perm [(4, 0), (9, 1), (2, 2)] := by simpa [Call.taken, Call.given] using perm
  have distinct := Distinct.of_perm order three (by unfold Distinct; decide)
  obtain ⟨_, _, _, following, _, _, _, next, least⟩ := searches distinct (4, 8)
  obtain ⟨_, _, prev, _, _, _, ⟨before_, greatest⟩, _⟩ := searches distinct (3, 8)
  exact ⟨rbtt, following, prev, next, before_, least.congr fun _ => three.mem_iff, greatest.congr fun _ => three.mem_iff⟩

/-! ## The iteration -/

/-- The data from `o` on, up to NULL. -/
inductive Visits (rbtt : Rbtt δ) : Option δ → List δ → Prop
  | done : Visits rbtt none []
  | next {d : δ} {o : Option δ} {l : List δ} : Returns (rbtt.stdRbtreeGetnext d) o → Visits rbtt o l →
      Visits rbtt (some d) (d :: l)

/-- The data from `std_rbtree_getfirst` on, up to NULL. -/
def Iterates (rbtt : Rbtt δ) (l : List δ) : Prop := ∃ o, Returns rbtt.stdRbtreeGetfirst o ∧ Visits rbtt o l

theorem Visits.unique (h : Visits rbtt o a) (h' : Visits rbtt o b) : a = b := by
  induction h generalizing b with
  | done =>
    cases h'
    rfl
  | next first _ ih =>
    cases h' with
    | next first' rest' =>
      obtain rfl := first.unique first'
      rw [ih rest']

theorem Visits.drop (h : Visits rbtt o (a ++ b)) : ∃ o', Visits rbtt o' b := by
  induction a generalizing o with
  | nil => exact ⟨o, h⟩
  | cons d a ih =>
    cases h with
    | next _ rest => exact ih rest

/-- Equal data have the same place in the order. -/
theorem compare_congr (order : TotalPreorder compare) (same : compare d e = 0) (x : δ) :
    (compare d x = 0 ↔ compare e x = 0) ∧ (compare d x < 0 ↔ compare e x < 0) := by
  have back := order.eq_comm.mp same
  have forth := order.trans d e x (by omega)
  have around := order.trans e d x (by omega)
  have down := fun le => order.trans x d e le (by omega)
  have up_ := fun le => order.trans x e d le (by omega)
  have flipD := order.flip d x
  have flipE := order.flip e x
  have flipD' := order.flip x d
  have flipE' := order.flip x e
  omega

/-- The search by key cannot tell equal data apart. -/
theorem getnext_congr (order : TotalPreorder rbtt.rbttCompare) (same : rbtt.rbttCompare d e = 0) :
    rbtt.stdRbtreeGetnext d = rbtt.stdRbtreeGetnext e := by
  have classes := compare_congr order same
  have exact_ : rbtt.getexactTurn d = rbtt.getexactTurn e := by
    funext x
    cases x with
    | none => rfl
    | some x => simp only [Rbtt.getexactTurn, (classes _).1, (classes _).2]
  have nearest_ : rbtt.nearestTurn true d = rbtt.nearestTurn true e := by
    funext x
    cases x with
    | none => rfl
    | some x => simp only [Rbtt.nearestTurn, (classes _).1, (classes _).2]
  funext fuel
  simp only [Rbtt.stdRbtreeGetnext, Rbtt.getexactNode, Rbtt.getexactornextNode, Rbtt.nearestNode, exact_, nearest_]

/-- Of equal data, only one is visited. -/
theorem Visits.distinct (order : TotalPreorder rbtt.rbttCompare) (h : Visits rbtt o l) :
    Distinct rbtt.rbttCompare l := by
  induction h with
  | done => exact List.Pairwise.nil
  | @next d o l first rest ih =>
    refine List.pairwise_cons.mpr ⟨?_, ih⟩
    intro e he same
    obtain ⟨a, b, rfl⟩ := List.append_of_mem he
    obtain ⟨o', rest'⟩ := rest.drop
    cases rest' with
    | next again last =>
      rw [← getnext_congr order same] at again
      obtain rfl := first.unique again
      have length := congrArg List.length (rest.unique last)
      simp at length
      omega

theorem visits_suffix (order : TotalPreorder rbtt.rbttCompare) (h : Ordered rbtt t)
    (distinct : Distinct rbtt.rbttCompare (stored t)) (split : stored t = a ++ b) : Visits rbtt b.head? b := by
  induction b generalizing a with
  | nil => exact .done
  | cons d b ih =>
    obtain ⟨a', m, b', cut, _, _, following⟩ := searches_spec order h distinct d
    have sorted : Ascending rbtt.rbttCompare (stored t) := h.sorted
    have strict := sorted.strictly distinct
    rw [split, List.pairwise_append, List.pairwise_cons] at strict
    obtain ⟨_, ⟨later, _⟩, earlier⟩ := strict
    have tail : b'.head? = b.head? := by
      rw [← cut.following order, split, List.append_cons, find_split]
      · intro e he
        rw [List.mem_append, List.mem_singleton] at he
        cases he with
        | inl before_ =>
          have less := (order.flip _ _).mp (earlier e before_ d List.mem_cons_self)
          simpa using Int.le_of_lt less
        | inr here => simp [here, order.refl d]
      · intro e he
        simpa using later e he
    rw [tail] at following
    exact .next following (ih (by rw [split, List.append_cons]))

theorem iterates_stored (order : TotalPreorder rbtt.rbttCompare) (h : Ordered rbtt t)
    (distinct : Distinct rbtt.rbttCompare (stored t)) : Iterates rbtt (stored t) :=
  ⟨_, getfirst_spec h, visits_suffix order h distinct (List.nil_append _).symm⟩

/-- The iteration visits all stored data in their order if no two of them are
equal, and only then. -/
theorem iterates_iff {calls : List (Call δ)} (order : TotalPreorder compare)
    (run : Run Step (stdRbtreeCreate compare) calls rbtt) :
    ∃ t, Holds rbtt t ∧ (stored t ++ calls.flatMap Call.taken).Perm (calls.flatMap Call.given) ∧
      ((∃ l, Iterates rbtt l ∧ l.Perm (stored t) ∧ Ascending compare l) ↔ Distinct compare (stored t)) := by
  obtain ⟨t, sound, rfl, perm⟩ := run_sound order run
  refine ⟨t, sound.holds, perm, ?_, ?_⟩
  · intro ⟨l, ⟨o, _, visits⟩, visited, _⟩
    exact .of_perm order visited.symm (visits.distinct order)
  · intro distinct
    exact ⟨stored t, iterates_stored order sound.toOrdered distinct, .refl _, sound.sorted⟩

/-- Two data with one key. -/
theorem iterates_iff_ul : ∃ (rbtt : Rbtt (UInt64 × Nat)) (t : Cells (UInt64 × Nat)), Holds rbtt t ∧
    ((∃ l, Iterates rbtt l ∧ l.Perm (stored t) ∧ Ascending (Rbtt.stdRbtreeCompareUl Prod.fst) l) ↔
      Distinct (Rbtt.stdRbtreeCompareUl Prod.fst) (stored t)) := by
  have order : TotalPreorder (Rbtt.stdRbtreeCompareUl (Prod.fst : UInt64 × Nat → UInt64)) := totalPreorder_threeWay _
  obtain ⟨rbtt, run⟩ := exists_run_insert order [(7, 0), (7, 1)]
  obtain ⟨t, holds, _, same⟩ := iterates_iff order run
  exact ⟨rbtt, t, holds, same⟩

/-- After the insertion of two data with one key the iteration does not visit both. -/
theorem equal_keys : ∃ (rbtt : Rbtt (UInt64 × Nat)) (t : Cells (UInt64 × Nat)),
    Run Step (stdRbtreeCreate (Rbtt.stdRbtreeCompareUl Prod.fst)) [.insert (7, 0) true, .insert (7, 1) true] rbtt ∧
      Holds rbtt t ∧ (stored t).Perm [(7, 0), (7, 1)] ∧ ¬∃ l, Iterates rbtt l ∧ l.Perm (stored t) := by
  have order : TotalPreorder (Rbtt.stdRbtreeCompareUl (Prod.fst : UInt64 × Nat → UInt64)) := totalPreorder_threeWay _
  obtain ⟨rbtt, run⟩ := exists_run_insert order [(7, 0), (7, 1)]
  obtain ⟨t, sound, compare_, perm⟩ := run_sound order run
  have both : (stored t).Perm [(7, 0), (7, 1)] := by simpa [Call.taken, Call.given] using perm
  refine ⟨rbtt, t, run, sound.holds, both, ?_⟩
  rintro ⟨l, ⟨o, _, visits⟩, visited⟩
  rw [← compare_] at order
  have distinct := Distinct.of_perm order (visited.trans both).symm (visits.distinct order)
  rw [compare_] at distinct
  have different := List.rel_of_pairwise_cons distinct List.mem_cons_self
  exact different (by decide)

end SonicUtils.RbTree
