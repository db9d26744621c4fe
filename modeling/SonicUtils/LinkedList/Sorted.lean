import SonicUtils.Lib.Compare
import SonicUtils.LinkedList.Sequence

/-!
# Sorted lists

The list of `std_dll_init_sort`, whose items `std_dll_insert` puts in their place.

* `insertLoop_spec`, `insert_spec`: a new item goes in behind the last one that is
  not greater;
* `sorted_insertion`: in every run the items are sorted, and those with equal fields
  stand in the order of their insertion.
-/

namespace SonicUtils.LinkedList.Dll

open Loop Compare

variable {ι κ : Type} {d d' : Dll ι} {xs as bs ins : List ι} {new : ι} {compare : κ → κ → Int} {field : DllRef ι → κ}

/-- `std_compare_int_function`. -/
def stdCompareIntFunction (current node : Int32) : Int := threeWay current node

/-- `std_compare_uint32_function`. -/
def stdCompareUint32Function (current node : UInt32) : Int := threeWay current node

/-- `std_compare_binary_function`, on the `len` bytes. -/
def stdCompareBinaryFunction (current node : List UInt8) : Int := threeWay current node

theorem totalPreorder_stdCompareFunctions : TotalPreorder stdCompareIntFunction ∧
    TotalPreorder stdCompareUint32Function ∧ TotalPreorder stdCompareBinaryFunction :=
  ⟨totalPreorder_threeWay id, totalPreorder_threeWay id, totalPreorder_threeWay id⟩

/-- `compare` on the fields at `offset` of two items. -/
def compareAt (compare : κ → κ → Int) (field : DllRef ι → κ) (p q : DllRef ι) : Int := compare (field p) (field q)

variable [DecidableEq ι]

/-- A list of `std_dll_init_sort` after some operations, the fields, and the items on
the list in the order of their insertion. Only the field of an item that is not on the
list is written. -/
inductive SortedRun (compare : κ → κ → Int) : Dll ι → (DllRef ι → κ) → List ι → Prop
  | init (d : Dll ι) (field : DllRef ι → κ) : SortedRun compare d.initHead field []
  | write {d : Dll ι} {field : DllRef ι → κ} {ins : List ι} {i : ι} (k : κ) :
      SortedRun compare d field ins → i ∉ ins → SortedRun compare d (Function.update field (.item i) k) ins
  | insert {d d' : Dll ι} {field : DllRef ι → κ} {ins : List ι} {new : ι} : SortedRun compare d field ins → new ∉ ins →
      Returns (d.insert (some (compareAt compare field)) (.item new)) d' → SortedRun compare d' field (ins ++ [new])
  | remove {d d' : Dll ι} {field : DllRef ι → κ} {ins : List ι} {i : ι} : SortedRun compare d field ins → i ∈ ins →
      d.remove (.item i) = .ok d' → SortedRun compare d' field (ins.erase i)

/-- The place of the new item. -/
structure Placed (compare : κ → κ → Int) (field : DllRef ι → κ) (d d' : Dll ι) (xs : List ι) (new : ι) (as bs : List ι) :
    Prop where
  split : xs = as ++ bs
  inserted : Inserted d d' as bs new
  before : ∀ a ∈ as, ¬compareAt compare field (.item new) (.item a) < 0
  after : ∀ b ∈ bs.head?, compareAt compare field (.item new) (.item b) < 0

theorem StandsFor.insert_behind {a : ι} (h : StandsFor d (as ++ a :: bs)) (fresh : new ∉ as ++ a :: bs) :
    ∃ d', d.insertafter (.item a) (.item new) = .ok d' ∧ Inserted d d' (as ++ [a]) bs new := by
  rw [List.append_cons] at h fresh
  obtain ⟨d', run, inserted⟩ := h.insertafter fresh
  have here : rear (as ++ [a]) = .item a := by simp [rear]
  rw [here] at run
  exact ⟨d', run, inserted⟩

/-- The walk goes on from `a`, which is not greater than the new item. -/
theorem insertLoop_spec {a : ι} (h : StandsFor d (as ++ a :: bs)) (fresh : new ∉ as ++ a :: bs)
    (before : ∀ x ∈ as ++ [a], ¬compareAt compare field (.item new) (.item x) < 0) :
    ∃ d' as' bs', Ends .noReturn (d.insertTurn (compareAt compare field) (.item new)) (.item a) d' ∧
      Placed compare field d d' (as ++ a :: bs) new as' bs' := by
  obtain ⟨d', run, inserted⟩ := h.insert_behind fresh
  have next := h.next_item
  induction bs generalizing as a d' with
  | nil =>
    have ends : d.dllNext (.item a) = some .tail := next
    refine ⟨d', as ++ [a], [], .done ?_, List.append_cons .., inserted, before, by simp⟩
    rw [insertTurn, if_pos ends, run]
    rfl
  | cons b bs ih =>
    have follows : d.dllNext (.item a) = some (.item b) := next
    have more : ¬d.dllNext (.item a) = some .tail := by simp [follows]
    by_cases less : compareAt compare field (.item new) (.item b) < 0
    · refine ⟨d', as ++ [a], b :: bs, .done ?_, List.append_cons .., inserted, before, by simpa using less⟩
      rw [insertTurn, if_neg more, follows, deref_some, ok_bind, if_pos less, run]
      rfl
    · have turn : d.insertTurn (compareAt compare field) (.item new) (.item a) = .ok (.inl (.item b)) := by
        rw [insertTurn, if_neg more, follows, deref_some, ok_bind, if_neg less, pure_eq_ok]
      rw [List.append_cons] at h fresh ⊢
      obtain ⟨d'', run', inserted'⟩ := h.insert_behind fresh
      have before' : ∀ x ∈ as ++ [a] ++ [b], ¬compareAt compare field (.item new) (.item x) < 0 := by
        intro x hx
        cases List.mem_append.mp hx with
        | inl old => exact before x old
        | inr last => exact List.mem_singleton.mp last ▸ less
      obtain ⟨d₃, as', bs', ends, placed⟩ := ih h fresh before' d'' run' inserted' h.next_item
      exact ⟨d₃, as', bs', .head turn ends, placed⟩

variable (compare field) in
/-- A new item goes in between those that are not greater and those that are. -/
theorem insert_spec (h : StandsFor d xs) (fresh : new ∉ xs) :
    ∃ d' as bs, Returns (d.insert (some (compareAt compare field)) (.item new)) d' ∧
      Placed compare field d d' xs new as bs := by
  have next := h.next_head
  cases xs with
  | nil =>
    have first : d.getfirst = none := getnext_of next
    obtain ⟨d', run, inserted⟩ := @StandsFor.insertafter _ d [] [] new _ h fresh
    refine ⟨d', [], [], .of_ok fun fuel => ?_, rfl, inserted, by simp, by simp⟩
    rw [insert, if_pos first]
    exact run
  | cons b bs =>
    have first : d.getfirst = some (.item b) := getnext_of next
    have some_ : ¬d.getfirst = none := by simp [first]
    have follows : d.dllNext .head = some (.item b) := next
    by_cases less : compareAt compare field (.item new) (.item b) < 0
    · obtain ⟨d', run, inserted⟩ := @StandsFor.insertafter _ d [] (b :: bs) new _ h fresh
      refine ⟨d', [], b :: bs, .of_ok fun fuel => ?_, rfl, inserted, by simp, by simpa using less⟩
      rw [insert, if_neg some_, follows, deref_some, ok_bind, if_pos less]
      exact run
    · have before : ∀ x ∈ [] ++ [b], ¬compareAt compare field (.item new) (.item x) < 0 := by
        simpa using less
      obtain ⟨d', as, bs', ends, placed⟩ := @insertLoop_spec _ _ d [] bs new compare field _ b h fresh before
      refine ⟨d', as, bs', ?_, placed⟩
      have run : d.insert (some (compareAt compare field)) (.item new) =
          fun fuel => loop .noReturn (d.insertTurn (compareAt compare field) (.item new)) fuel (.item b) := by
        funext fuel
        rw [insert, if_neg some_, follows, deref_some, ok_bind, if_neg less]
      rw [run]
      exact ends

/-- The field of an item. -/
def fieldOf (field : DllRef ι → κ) (i : ι) : κ := field (.item i)

/-- The items `ins`, in the order of their insertion, are on the list, sorted. -/
structure InOrder (compare : κ → κ → Int) (d : Dll ι) (field : DllRef ι → κ) (ins xs : List ι) : Prop where
  stands : StandsFor d xs
  perm : xs.Perm ins
  ascending : Ascending (fun i j => compare (fieldOf field i) (fieldOf field j)) xs
  stable : ∀ k, keyed compare (fieldOf field) k xs = keyed compare (fieldOf field) k ins

namespace InOrder

omit [DecidableEq ι] in
theorem nodup (h : InOrder compare d field ins xs) : ins.Nodup := h.perm.nodup_iff.mp h.stands.distinct

theorem init (d : Dll ι) (field : DllRef ι → κ) : InOrder compare d.initHead field [] [] :=
  ⟨(initHead_kept d).stands, .refl [], List.Pairwise.nil, fun _ => rfl⟩

/-- The field of an item that is not on the list does not matter. -/
theorem write (h : InOrder compare d field ins xs) {i : ι} (off : i ∉ ins) (k : κ) :
    InOrder compare d (Function.update field (.item i) k) ins xs := by
  have keeps : ∀ j ∈ ins, fieldOf (Function.update field (.item i) k) j = fieldOf field j := by
    intro j hj
    have other : DllRef.item j ≠ .item i := fun same => off (DllRef.item.inj same ▸ hj)
    exact Function.update_of_ne other ..
  have keeps' : ∀ j ∈ xs, fieldOf (Function.update field (.item i) k) j = fieldOf field j :=
    fun j hj => keeps j (h.perm.mem_iff.mp hj)
  refine ⟨h.stands, h.perm, ?_, fun k' => ?_⟩
  · apply h.ascending.imp_of_mem
    intro a b ha hb le
    simp only [keeps' a ha, keeps' b hb]
    exact le
  · rw [keyed_congr keeps', keyed_congr keeps, h.stable]

theorem insert (order : TotalPreorder compare) (h : InOrder compare d field ins xs) (off : new ∉ ins) :
    ∃ d' ys, Returns (d.insert (some (compareAt compare field)) (.item new)) d' ∧
      InOrder compare d' field (ins ++ [new]) ys := by
  have fresh : new ∉ xs := fun on => off (h.perm.mem_iff.mp on)
  obtain ⟨d', as, bs, returns, placed⟩ := insert_spec compare field h.stands fresh
  have split := placed.split
  subst split
  have total := order.on (fieldOf field)
  have behind : Ascending (fun i j => compare (fieldOf field i) (fieldOf field j)) bs :=
    (List.pairwise_append.mp h.ascending).2.1
  have after := behind.greater total placed.after
  refine ⟨d', as ++ new :: bs, returns, placed.inserted.stands, ?_, h.ascending.insert total placed.before after, ?_⟩
  · exact List.perm_middle.trans ((h.perm.cons new).trans (List.perm_append_singleton new ins).symm)
  · intro k
    rw [keyed_insert order after, h.stable, keyed_append]

theorem remove (h : InOrder compare d field ins xs) {i : ι} (on : i ∈ ins) :
    ∃ d', d.remove (.item i) = .ok d' ∧ InOrder compare d' field (ins.erase i) (xs.erase i) := by
  obtain ⟨as, bs, split⟩ := List.append_of_mem (h.perm.mem_iff.mpr on)
  have distinct := h.stands.distinct
  have gone : xs.erase i = as ++ bs := by
    rw [split] at distinct ⊢
    have notBefore : i ∉ as := by
      rw [List.nodup_middle, List.nodup_cons, List.mem_append] at distinct
      exact fun inA => distinct.1 (.inl inA)
    rw [List.erase_append_right _ notBefore, List.erase_cons_head]
  have stands := h.stands
  rw [split] at stands
  obtain ⟨d', run, removed⟩ := stands.remove
  refine ⟨d', run, gone ▸ removed.stands, h.perm.erase i, h.ascending.sublist List.erase_sublist, fun k => ?_⟩
  rw [distinct.erase_eq_filter, h.nodup.erase_eq_filter, keyed_filter, keyed_filter, h.stable]

end InOrder

theorem SortedRun.inOrder (order : TotalPreorder compare) (h : SortedRun compare d field ins) :
    ∃ xs, InOrder compare d field ins xs := by
  induction h with
  | init d field => exact ⟨[], .init d field⟩
  | write k _ off ih =>
    obtain ⟨xs, h⟩ := ih
    exact ⟨xs, h.write off k⟩
  | insert _ off run ih =>
    obtain ⟨xs, h⟩ := ih
    obtain ⟨d'', ys, run', h'⟩ := h.insert order off
    have same := run.unique run'
    exact ⟨ys, same ▸ h'⟩
  | remove _ on run ih =>
    obtain ⟨xs, h⟩ := ih
    obtain ⟨d'', run', h'⟩ := h.remove on
    have same := Except.ok.inj (run.symm.trans run')
    exact ⟨_, same ▸ h'⟩

/-- In every run the iteration gives the items sorted, of equal ones the one that was
inserted first before the others, and the next operation is carried out. -/
theorem sorted_insertion (order : TotalPreorder compare) (h : SortedRun compare d field ins) :
    ∃ xs, Returns d.forward (xs.map .item) ∧ xs.Perm ins ∧
      Ascending (fun i j => compare (fieldOf field i) (fieldOf field j)) xs ∧
      (∀ k, keyed compare (fieldOf field) k xs = keyed compare (fieldOf field) k ins) ∧
      (∀ new ∉ ins, ∃ d', Returns (d.insert (some (compareAt compare field)) (.item new)) d') ∧
      ∀ i ∈ ins, ∃ d', d.remove (.item i) = .ok d' := by
  obtain ⟨xs, h⟩ := h.inOrder order
  refine ⟨xs, forward_spec h.stands, h.perm, h.ascending, h.stable, fun new off => ?_, fun i on => ?_⟩
  · obtain ⟨d', _, returns, _⟩ := h.insert order off
    exact ⟨d', returns⟩
  · obtain ⟨d', run, _⟩ := h.remove on
    exact ⟨d', run⟩

/-- Three items with the fields 5, 0 and 5. -/
theorem sorted_insertion_three : ∃ (d : Dll Nat) (field : DllRef Nat → Int32) (xs : List Nat),
    SortedRun stdCompareIntFunction d field [0, 1, 2] ∧ Returns d.forward (xs.map .item) ∧ xs.Perm [0, 1, 2] ∧
      Ascending (fun i j => stdCompareIntFunction (fieldOf field i) (fieldOf field j)) xs ∧
      keyed stdCompareIntFunction (fieldOf field) 5 xs = [0, 2] := by
  let field : DllRef Nat → Int32 := fun p => if p = .item 1 then 0 else 5
  have order := totalPreorder_stdCompareFunctions.1
  have none_ : InOrder stdCompareIntFunction (init : Dll Nat).initHead field [] [] := .init _ _
  obtain ⟨d₁, xs₁, run₁, one⟩ := none_.insert order (show 0 ∉ [] by decide)
  obtain ⟨d₂, xs₂, run₂, two⟩ := one.insert order (show 1 ∉ [0] by decide)
  obtain ⟨d₃, xs₃, run₃, three⟩ := two.insert order (show 2 ∉ [0, 1] by decide)
  have reached : SortedRun stdCompareIntFunction d₃ field [0, 1, 2] :=
    .insert (.insert (.insert (.init _ field) (by decide) run₁) (by decide) run₂) (by decide) run₃
  obtain ⟨xs, forward, perm, ascending, stable, _⟩ := sorted_insertion order reached
  exact ⟨d₃, field, xs, reached, forward, perm, ascending, (stable 5).trans (by decide)⟩

end SonicUtils.LinkedList.Dll
