import SonicUtils.Lib.Chain
import SonicUtils.LinkedList.Dll

/-!
# The sequence that a list stands for

From the first item to the last one the pointers of a list give a sequence of
distinct items, and the pointers back give it in reverse. Insertions and
removals change it at the place that they name.

* `StandsFor.insertafter`, `StandsFor.insertbefore`, `StandsFor.remove`;
* `list_stands_for`: the lists of all runs.
-/

namespace SonicUtils.LinkedList

open Loop Chain

namespace Dll

variable {ι : Type} {d d' : Dll ι} {xs as bs : List ι} {a i new : ι} {p q : DllRef ι}
  {l₁ l₂ : List (DllRef ι)}

/-- All nodes of a list, its own two included. -/
def full (xs : List ι) : List (DllRef ι) := .head :: (xs.map .item ++ [.tail])

/-- The items `xs`, in this order. -/
structure StandsFor (d : Dll ι) (xs : List ι) : Prop where
  linked : Linked d.dllNext d.dllBack (full xs)
  distinct : xs.Nodup

theorem nodup_full (distinct : xs.Nodup) : (full xs).Nodup := by
  have items : (xs.map DllRef.item).Nodup := distinct.map fun _ _ => DllRef.item.inj
  simp [full, List.nodup_append, items]

theorem item_mem_full : .item i ∈ full xs ↔ i ∈ xs := by simp [full]

/-- The node before the items `bs`, when `as` are the items up to there. -/
def rear (as : List ι) : DllRef ι := (as.getLast?.map .item).getD .head

/-- The node after the items `as`, when `bs` are the items from there on. -/
def front (bs : List ι) : DllRef ι := (bs.head?.map .item).getD .tail

/-- A list falls apart in two, between two neighbours. -/
theorem full_append (as bs : List ι) :
    ∃ l₁ l₂, (.head :: as.map .item : List (DllRef ι)) = l₁ ++ [rear as] ∧
      bs.map .item ++ [.tail] = front bs :: l₂ ∧ full (as ++ bs) = l₁ ++ rear as :: front bs :: l₂ := by
  have left : ∃ l₁, (.head :: as.map .item : List (DllRef ι)) = l₁ ++ [rear as] := by
    rcases List.eq_nil_or_concat as with rfl | ⟨as, a, rfl⟩
    · exact ⟨[], rfl⟩
    · exact ⟨.head :: as.map .item, by simp [rear]⟩
  have right : ∃ l₂, (bs.map .item ++ [.tail] : List (DllRef ι)) = front bs :: l₂ := by
    cases bs with
    | nil => exact ⟨[], rfl⟩
    | cons b bs => exact ⟨_, rfl⟩
  obtain ⟨l₁, left⟩ := left
  obtain ⟨l₂, right⟩ := right
  refine ⟨l₁, l₂, left, right, ?_⟩
  rw [full, List.map_append, List.append_assoc, right, ← List.cons_append, left, List.append_assoc]
  rfl

theorem full_between (i : ι) (left : (.head :: as.map .item : List (DllRef ι)) = l₁ ++ [rear as])
    (right : bs.map .item ++ [.tail] = front bs :: l₂) :
    full (as ++ i :: bs) = l₁ ++ rear as :: .item i :: front bs :: l₂ := by
  have apart : full (as ++ i :: bs) = (.head :: as.map .item) ++ .item i :: (bs.map .item ++ [.tail]) := by
    simp [full]
  rw [apart, left, right, List.append_assoc]
  rfl

/-! ## Places in the sequence -/

/-- The pointers of the item are as they were. -/
def KeepsItem (d d' : Dll ι) (i : ι) : Prop :=
  d'.dllNext (.item i) = d.dllNext (.item i) ∧ d'.dllBack (.item i) = d.dllBack (.item i)

/-- `new` comes between `as` and `bs`, and nothing else changes. -/
structure Inserted (d d' : Dll ι) (as bs : List ι) (new : ι) : Prop where
  stands : StandsFor d' (as ++ new :: bs)
  keeps : ∀ i, i ≠ new → i ∉ as ++ bs → KeepsItem d d' i

theorem Inserted.of_linked (h : StandsFor d (as ++ bs)) (fresh : new ∉ as ++ bs)
    (split : full (as ++ bs) = l₁ ++ rear as :: front bs :: l₂)
    (left : (.head :: as.map .item : List (DllRef ι)) = l₁ ++ [rear as])
    (right : bs.map .item ++ [.tail] = front bs :: l₂)
    (linked : Linked d'.dllNext d'.dllBack (l₁ ++ rear as :: .item new :: front bs :: l₂))
    (keeps : ∀ y ∉ .item new :: (l₁ ++ rear as :: front bs :: l₂),
      d'.dllNext y = d.dllNext y ∧ d'.dllBack y = d.dllBack y) : Inserted d d' as bs new := by
  have whole := full_between new left right
  refine ⟨⟨whole ▸ linked, ?_⟩, fun i ne off => keeps (.item i) ?_⟩
  · rw [List.nodup_middle, List.nodup_cons]
    exact ⟨fresh, h.distinct⟩
  · rw [← split, List.mem_cons, item_mem_full]
    simp [ne, off]

/-- `i` is gone from between `as` and `bs`, and nothing else changes. -/
structure Removed (d d' : Dll ι) (as bs : List ι) (i : ι) : Prop where
  stands : StandsFor d' (as ++ bs)
  off : d'.dllNext (.item i) = none ∧ d'.dllBack (.item i) = none
  keeps : ∀ j ∉ as ++ i :: bs, KeepsItem d d' j

theorem StandsFor.next_item (h : StandsFor d (as ++ i :: bs)) : d.dllNext (.item i) = some (front bs) := by
  obtain ⟨l₁, l₂, _, _, split⟩ := full_append (as ++ [i]) bs
  have linked := h.linked
  rw [List.append_cons, split] at linked
  simpa [rear] using linked.next_of

theorem StandsFor.back_item (h : StandsFor d (as ++ i :: bs)) : d.dllBack (.item i) = some (rear as) := by
  obtain ⟨l₁, l₂, _, _, split⟩ := full_append as (i :: bs)
  have linked := h.linked
  rw [split] at linked
  exact linked.back_of

theorem StandsFor.next_head (h : StandsFor d xs) : d.dllNext .head = some (front xs) := by
  obtain ⟨l₁, l₂, _, _, split⟩ := full_append [] xs
  have linked := h.linked
  rw [← List.nil_append xs, split] at linked
  exact linked.next_of

theorem StandsFor.back_tail (h : StandsFor d xs) : d.dllBack .tail = some (rear xs) := by
  obtain ⟨l₁, l₂, _, _, split⟩ := full_append xs []
  have linked := h.linked
  rw [← List.append_nil xs, split] at linked
  exact linked.back_of

variable [DecidableEq ι]

theorem dllNext_setNext (v : Option (DllRef ι)) :
    (d.setNext p v).dllNext q = if q = p then v else d.dllNext q := Function.update_apply ..

theorem dllBack_setBack (v : Option (DllRef ι)) :
    (d.setBack p v).dllBack q = if q = p then v else d.dllBack q := Function.update_apply ..

@[simp] theorem dllBack_setNext (v : Option (DllRef ι)) : (d.setNext p v).dllBack = d.dllBack := rfl

@[simp] theorem dllNext_setBack (v : Option (DllRef ι)) : (d.setBack p v).dllNext = d.dllNext := rfl

/-! ## Four pointers -/

theorem insertafter_spec (linked : Linked d.dllNext d.dllBack (l₁ ++ p :: q :: l₂))
    (distinct : (l₁ ++ p :: q :: l₂).Nodup) {x : DllRef ι} (fresh : x ∉ l₁ ++ p :: q :: l₂) :
    ∃ d', d.insertafter p x = .ok d' ∧ Linked d'.dllNext d'.dllBack (l₁ ++ p :: x :: q :: l₂) ∧
      ∀ y ∉ x :: (l₁ ++ p :: q :: l₂), d'.dllNext y = d.dllNext y ∧ d'.dllBack y = d.dllBack y := by
  have next := linked.next_of
  have xp : x ≠ p := fun same => fresh (by simp [same])
  have xq : x ≠ q := fun same => fresh (by simp [same])
  let d' := ((((d.setNext x (some q)).setBack x (some p)).setBack q (some x)).setNext p (some x))
  have run : d.insertafter p x = .ok d' := by
    simp [insertafter, next, dllNext_setNext, xp.symm, d']
  refine ⟨d', run, linked.insert distinct fresh ?_ ?_ ?_ ?_ ?_ ?_, ?_⟩
  · simp [d', dllNext_setNext]
  · simp [d', dllNext_setNext, xp]
  · intro y yp yx
    simp [d', dllNext_setNext, yp, yx]
  · simp [d', dllBack_setBack, xq]
  · simp [d', dllBack_setBack]
  · intro y yq yx
    simp [d', dllBack_setBack, yq, yx]
  · intro y off
    simp only [List.mem_cons, List.mem_append, not_or] at off
    obtain ⟨yx, _, yp, yq, _⟩ := off
    simp [d', dllNext_setNext, dllBack_setBack, yx, yp, yq]

theorem insertbefore_spec (linked : Linked d.dllNext d.dllBack (l₁ ++ p :: q :: l₂))
    (distinct : (l₁ ++ p :: q :: l₂).Nodup) {x : DllRef ι} (fresh : x ∉ l₁ ++ p :: q :: l₂) :
    ∃ d', d.insertbefore q x = .ok d' ∧ Linked d'.dllNext d'.dllBack (l₁ ++ p :: x :: q :: l₂) ∧
      ∀ y ∉ x :: (l₁ ++ p :: q :: l₂), d'.dllNext y = d.dllNext y ∧ d'.dllBack y = d.dllBack y := by
  have back := linked.back_of
  have xp : x ≠ p := fun same => fresh (by simp [same])
  have xq : x ≠ q := fun same => fresh (by simp [same])
  let d' := ((((d.setNext x (some q)).setBack x (some p)).setNext p (some x)).setBack q (some x))
  have run : d.insertbefore q x = .ok d' := by
    simp [insertbefore, back, dllBack_setBack, xq.symm, d']
  refine ⟨d', run, linked.insert distinct fresh ?_ ?_ ?_ ?_ ?_ ?_, ?_⟩
  · simp [d', dllNext_setNext]
  · simp [d', dllNext_setNext, xp]
  · intro y yp yx
    simp [d', dllNext_setNext, yp, yx]
  · simp [d', dllBack_setBack, xq]
  · simp [d', dllBack_setBack]
  · intro y yq yx
    simp [d', dllBack_setBack, yq, yx]
  · intro y off
    simp only [List.mem_cons, List.mem_append, not_or] at off
    obtain ⟨yx, _, yp, yq, _⟩ := off
    simp [d', dllNext_setNext, dllBack_setBack, yx, yp, yq]

theorem remove_spec {x : DllRef ι} (linked : Linked d.dllNext d.dllBack (l₁ ++ p :: x :: q :: l₂))
    (distinct : (l₁ ++ p :: x :: q :: l₂).Nodup) :
    ∃ d', d.remove x = .ok d' ∧ Linked d'.dllNext d'.dllBack (l₁ ++ p :: q :: l₂) ∧
      (d'.dllNext x = none ∧ d'.dllBack x = none) ∧
      ∀ y ∉ l₁ ++ p :: x :: q :: l₂, d'.dllNext y = d.dllNext y ∧ d'.dllBack y = d.dllBack y := by
  have back : d.dllBack x = some p := linked.back_of
  have next : d.dllNext x = some q := by
    have split : Linked d.dllNext d.dllBack ((l₁ ++ [p]) ++ x :: q :: l₂) := by simpa using linked
    exact split.next_of
  have apart := distinct
  simp only [List.nodup_append, List.nodup_cons, List.mem_cons, not_or] at apart
  obtain ⟨_, ⟨⟨px, pq, _⟩, ⟨xq, _⟩, _⟩, _⟩ := apart
  let d' := (((d.setNext p (some q)).setBack q (some p)).setBack x none).setNext x none
  have run : d.remove x = .ok d' := by simp [remove, back, next, d']
  refine ⟨d', run, linked.remove distinct ?_ ?_ ?_ ?_, ?_, ?_⟩
  · simp [d', dllNext_setNext, px]
  · intro y yp yx
    simp [d', dllNext_setNext, yp, yx]
  · simp [d', dllBack_setBack, Ne.symm xq]
  · intro y yq yx
    simp [d', dllBack_setBack, yq, yx]
  · simp [d', dllNext_setNext, dllBack_setBack]
  · intro y off
    simp only [List.mem_cons, List.mem_append, not_or] at off
    obtain ⟨_, yp, yx, yq, _⟩ := off
    simp [d', dllNext_setNext, dllBack_setBack, yx, yp, yq]

theorem StandsFor.insertafter (h : StandsFor d (as ++ bs)) (fresh : new ∉ as ++ bs) :
    ∃ d', d.insertafter (rear as) (.item new) = .ok d' ∧ Inserted d d' as bs new := by
  obtain ⟨l₁, l₂, left, right, split⟩ := full_append as bs
  have unlinked : DllRef.item new ∉ full (as ++ bs) := mt item_mem_full.mp fresh
  obtain ⟨d', run, linked, keeps⟩ :=
    insertafter_spec (split ▸ h.linked) (split ▸ nodup_full h.distinct) (split ▸ unlinked)
  exact ⟨d', run, .of_linked h fresh split left right linked keeps⟩

theorem StandsFor.insertbefore (h : StandsFor d (as ++ bs)) (fresh : new ∉ as ++ bs) :
    ∃ d', d.insertbefore (front bs) (.item new) = .ok d' ∧ Inserted d d' as bs new := by
  obtain ⟨l₁, l₂, left, right, split⟩ := full_append as bs
  have unlinked : DllRef.item new ∉ full (as ++ bs) := mt item_mem_full.mp fresh
  obtain ⟨d', run, linked, keeps⟩ :=
    insertbefore_spec (split ▸ h.linked) (split ▸ nodup_full h.distinct) (split ▸ unlinked)
  exact ⟨d', run, .of_linked h fresh split left right linked keeps⟩

theorem StandsFor.remove (h : StandsFor d (as ++ i :: bs)) :
    ∃ d', d.remove (.item i) = .ok d' ∧ Removed d d' as bs i := by
  obtain ⟨l₁, l₂, left, right, split⟩ := full_append as bs
  have whole := full_between i left right
  obtain ⟨d', run, linked, off, keeps⟩ := remove_spec (whole ▸ h.linked) (whole ▸ nodup_full h.distinct)
  have distinct := h.distinct
  rw [List.nodup_middle, List.nodup_cons] at distinct
  refine ⟨d', run, ⟨split ▸ linked, distinct.2⟩, off, fun j out => keeps (.item j) ?_⟩
  rw [← whole, item_mem_full]
  exact out

/-! ## Iteration -/

/-- `std_dll_getfirst`, then `std_dll_getnext` until it returns NULL. -/
def forward (d : Dll ι) (fuel : Nat) : Except Fault (List (DllRef ι)) :=
  loop .noReturn (collectTurn d.getnext) fuel (d.getfirst, [])

/-- `std_dll_getlast`, then `std_dll_getprev` until it returns NULL. -/
def backward (d : Dll ι) (fuel : Nat) : Except Fault (List (DllRef ι)) :=
  loop .noReturn (collectTurn d.getprev) fuel (d.getlast, [])

theorem getnext_of {bs : List ι} (next : d.dllNext p = some (front bs)) :
    d.getnext p = bs.head?.map .item := by
  cases bs <;> simp [getnext, next, front]

theorem getprev_of {as : List ι} (back : d.dllBack p = some (rear as)) :
    d.getprev p = as.getLast?.map .item := by
  rcases List.eq_nil_or_concat as with rfl | ⟨as, a, rfl⟩ <;> simp [getprev, back, rear]

/-- From first to last. -/
theorem forward_spec (h : StandsFor d xs) : Returns d.forward (xs.map .item) := by
  have first : d.getfirst = (xs.map DllRef.item).head? := by
    rw [List.head?_map, ← getnext_of h.next_head]
    rfl
  have at_ {as bs : List ι} {i : ι} (split : xs = as ++ i :: bs) :
      d.getnext (.item i) = bs.head?.map .item := getnext_of (split ▸ h : StandsFor d _).next_item
  have chain : (xs.map DllRef.item).IsChain fun p q => d.getnext p = some q := by
    rw [List.isChain_map]
    apply List.isChain_iff_forall_rel_of_append_cons_cons.mpr
    intro i j as bs split
    exact at_ split
  have last : ∀ p ∈ (xs.map DllRef.item).getLast?, d.getnext p = none := by
    rcases List.eq_nil_or_concat xs with rfl | ⟨as, i, rfl⟩
    · simp
    · simpa using at_ (List.concat_eq_append ..)
  have all : Ends Fault.noReturn _ _ _ := collect chain last []
  rw [← first] at all
  exact all

/-- From last to first. -/
theorem backward_spec (h : StandsFor d xs) : Returns d.backward (xs.reverse.map .item) := by
  have first : d.getlast = (xs.reverse.map DllRef.item).head? := by
    rw [List.head?_map, List.head?_reverse, ← getprev_of h.back_tail]
    rfl
  have at_ {as bs : List ι} {i : ι} (split : xs = as ++ i :: bs) :
      d.getprev (.item i) = as.getLast?.map .item := getprev_of (split ▸ h : StandsFor d _).back_item
  have chain : (xs.reverse.map DllRef.item).IsChain fun p q => d.getprev p = some q := by
    rw [List.isChain_map, List.isChain_reverse]
    apply List.isChain_iff_forall_rel_of_append_cons_cons.mpr
    intro i j as bs split
    have back := at_ (split.trans (List.append_cons as i (j :: bs)))
    simpa using back
  have last : ∀ p ∈ (xs.reverse.map DllRef.item).getLast?, d.getprev p = none := by
    cases xs with
    | nil => simp
    | cons i bs => simpa using at_ (List.nil_append (i :: bs)).symm
  have all : Ends Fault.noReturn _ _ _ := collect chain last []
  rw [← first] at all
  exact all

/-! ## Runs -/

/-- An operation on a list of `std_dll_init`, so that `compare` is NULL. -/
inductive Op (ι : Type)
  | insert (new : ι)
  | insertatfront (new : ι)
  | insertatback (new : ι)
  | insertafter (after new : ι)
  | insertbefore (before new : ι)
  | remove (item : ι)

namespace Op

def run (d : Dll ι) : Op ι → Except Fault (Dll ι)
  | insert new => d.insert none (.item new) 0
  | insertatfront new => d.insertatfront (.item new)
  | insertatback new => d.insertatback (.item new)
  | insertafter after new => d.insertafter (.item after) (.item new)
  | insertbefore before new => d.insertbefore (.item before) (.item new)
  | remove item => d.remove (.item item)

def brings : Op ι → List ι
  | insert new => [new]
  | insertatfront new => [new]
  | insertatback new => [new]
  | insertafter _ new => [new]
  | insertbefore _ new => [new]
  | remove _ => []

/-- From which sequence to which one the operation is meant to lead. -/
inductive Takes : Op ι → List ι → List ι → Prop
  | insert {xs : List ι} {new : ι} (fresh : new ∉ xs) : Takes (.insert new) xs (xs ++ [new])
  | insertatfront {xs : List ι} {new : ι} (fresh : new ∉ xs) : Takes (.insertatfront new) xs (new :: xs)
  | insertatback {xs : List ι} {new : ι} (fresh : new ∉ xs) : Takes (.insertatback new) xs (xs ++ [new])
  | insertafter {as bs : List ι} {after new : ι} (fresh : new ∉ as ++ after :: bs) :
      Takes (.insertafter after new) (as ++ after :: bs) (as ++ after :: new :: bs)
  | insertbefore {as bs : List ι} {before new : ι} (fresh : new ∉ as ++ before :: bs) :
      Takes (.insertbefore before new) (as ++ before :: bs) (as ++ new :: before :: bs)
  | remove {as bs : List ι} {item : ι} : Takes (.remove item) (as ++ item :: bs) (as ++ bs)

end Op

/-- A list after some operations, the sequence that they should have led to,
and the items inserted since `std_dll_init`. -/
inductive Reachable : Dll ι → List ι → List ι → Prop
  | init (d : Dll ι) : Reachable d.initHead [] []
  | step {d d' : Dll ι} {op : Op ι} {xs ys ever : List ι} (before : Reachable d xs ever) (takes : op.Takes xs ys)
      (run : op.run d = .ok d') : Reachable d' ys (op.brings ++ ever)

/-- Unlinked items have null pointers, unless they were never on the list. -/
structure Kept (d : Dll ι) (xs ever : List ι) : Prop where
  stands : StandsFor d xs
  inserted : ∀ i ∈ xs, i ∈ ever
  off : ∀ i ∈ ever, i ∉ xs → d.dllNext (.item i) = none ∧ d.dllBack (.item i) = none

theorem initHead_kept (d : Dll ι) : Kept d.initHead [] [] := by
  refine ⟨⟨?_, List.nodup_nil⟩, by simp, by simp⟩
  simp [full, Linked, initHead, dllNext_setNext, dllBack_setBack]

variable {ever ys : List ι}

omit [DecidableEq ι] in
theorem Kept.inserted_at (h : Kept d (as ++ bs) ever) (new : Inserted d d' as bs i) :
    Kept d' (as ++ i :: bs) (i :: ever) := by
  refine ⟨new.stands, fun j hj => ?_, fun j hj out => ?_⟩
  · have place : j = i ∨ j ∈ as ++ bs := by
      simp only [List.mem_append, List.mem_cons] at hj ⊢
      tauto
    rcases place with rfl | old
    · exact List.mem_cons_self
    · exact List.mem_cons_of_mem i (h.inserted j old)
  · simp only [List.mem_append, List.mem_cons, not_or] at out
    have other : j ∉ as ++ bs := by simp [out]
    have before : j ∈ ever := (List.mem_cons.mp hj).resolve_left out.2.1
    obtain ⟨next, back⟩ := new.keeps j out.2.1 other
    rw [next, back]
    exact h.off j before other

theorem Kept.removed (h : Kept d (as ++ i :: bs) ever) (gone : Removed d d' as bs i) :
    Kept d' (as ++ bs) ever := by
  refine ⟨gone.stands, fun j hj => h.inserted j ?_, fun j hj out => ?_⟩
  · simp only [List.mem_append, List.mem_cons] at hj ⊢
    tauto
  · by_cases same : j = i
    · exact same ▸ gone.off
    · have other : j ∉ as ++ i :: bs := by simpa [same] using out
      obtain ⟨next, back⟩ := gone.keeps j other
      rw [next, back]
      exact h.off j hj other

/-- The operation is carried out, and leads where it is meant to. -/
theorem Kept.step {op : Op ι} (h : Kept d xs ever) (takes : op.Takes xs ys) :
    ∃ d', op.run d = .ok d' ∧ Kept d' ys (op.brings ++ ever) := by
  cases takes with
  | insert fresh | insertatback fresh =>
    have split : xs ++ [] = xs := List.append_nil xs
    rw [← split] at fresh h
    obtain ⟨d', run, new⟩ := h.stands.insertbefore fresh
    exact ⟨d', run, h.inserted_at new⟩
  | insertatfront fresh =>
    rw [← List.nil_append xs] at fresh h
    obtain ⟨d', run, new⟩ := h.stands.insertafter fresh
    exact ⟨d', run, h.inserted_at new⟩
  | insertafter fresh =>
    rw [List.append_cons] at fresh h
    obtain ⟨d', run, new⟩ := h.stands.insertafter fresh
    have kept := h.inserted_at new
    rw [List.append_assoc] at kept
    simp only [rear, List.getLast?_concat, Option.map_some, Option.getD_some] at run
    exact ⟨d', run, kept⟩
  | insertbefore fresh =>
    obtain ⟨d', run, new⟩ := h.stands.insertbefore fresh
    exact ⟨d', run, h.inserted_at new⟩
  | remove =>
    obtain ⟨d', run, gone⟩ := h.stands.remove
    exact ⟨d', run, h.removed gone⟩

theorem Reachable.kept (h : Reachable d xs ever) : Kept d xs ever := by
  induction h with
  | init d => exact initHead_kept d
  | step _ takes run ih =>
    obtain ⟨d', run', kept⟩ := ih.step takes
    rw [run] at run'
    cases run'
    exact kept

theorem Kept.islinked_iff (h : Kept d xs ever) (i : ι) : i ∈ xs ↔ i ∈ ever ∧ d.islinked (.item i) := by
  constructor
  · intro hi
    refine ⟨h.inserted i hi, ?_⟩
    obtain ⟨as, bs, rfl⟩ := List.append_of_mem hi
    simp [islinked, h.stands.next_item, h.stands.back_item]
  · intro ⟨hi, linked⟩
    by_contra out
    simp [islinked, h.off i hi out] at linked

/-- In every run the list stands for the sequence that the operations describe:
both iterations give it, `std_dll_islinked` tells its items from the others that
were once inserted, and the next operation leads to the sequence it should. -/
theorem list_stands_for (h : Reachable d xs ever) :
    xs.Nodup ∧ Returns d.forward (xs.map .item) ∧ Returns d.backward (xs.reverse.map .item) ∧
      (∀ i, i ∈ xs ↔ i ∈ ever ∧ d.islinked (.item i)) ∧
      ∀ op ys, Op.Takes op xs ys → ∃ d', op.run d = .ok d' ∧
        Returns d'.forward (ys.map .item) ∧ Returns d'.backward (ys.reverse.map .item) := by
  have kept := h.kept
  refine ⟨kept.stands.distinct, forward_spec kept.stands, backward_spec kept.stands,
    kept.islinked_iff, fun op ys takes => ?_⟩
  obtain ⟨d', run, after⟩ := kept.step takes
  exact ⟨d', run, forward_spec after.stands, backward_spec after.stands⟩

/-- Of three items one is removed again. -/
theorem list_stands_for_two : ∃ d : Dll Nat, Reachable d [2, 3] [3, 2, 1] ∧
    Returns d.forward [.item 2, .item 3] ∧ ¬ d.islinked (.item 1) := by
  have insert : Op.Takes (.insert 1) [] [1] := .insert (by simp)
  have atfront : Op.Takes (.insertatfront 2) [1] [2, 1] := .insertatfront (by simp)
  have after : Op.Takes (.insertafter 2 3) [2, 1] [2, 3, 1] := @Op.Takes.insertafter _ [] [1] 2 3 (by simp)
  have remove : Op.Takes (.remove 1) [2, 3, 1] [2, 3] := @Op.Takes.remove _ [2, 3] [] 1
  obtain ⟨d₁, run₁, one⟩ := (initHead_kept (init : Dll Nat)).step insert
  obtain ⟨d₂, run₂, two⟩ := one.step atfront
  obtain ⟨d₃, run₃, three⟩ := two.step after
  obtain ⟨d₄, run₄, _⟩ := three.step remove
  have reached : Reachable d₄ [2, 3] [3, 2, 1] :=
    .step (.step (.step (.step (.init init) insert run₁) atfront run₂) after run₃) remove run₄
  obtain ⟨_, forward, _, linked, _⟩ := list_stands_for reached
  exact ⟨d₄, reached, forward, fun on => by simpa using (linked 1).mpr ⟨by simp, on⟩⟩

end Dll

end SonicUtils.LinkedList
