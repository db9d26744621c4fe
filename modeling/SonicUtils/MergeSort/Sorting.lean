import Mathlib.Data.List.Induction
import SonicUtils.Lib.Merge
import SonicUtils.MergeSort.Model

/-!
# `std_merge_sort` sorts

* `mergeLoop_spec`, `restLoop_spec`, `backLoop_spec`: the loops;
* `mergeArrays_spec`: two sorted parts of the array are merged;
* `divideNSort_spec`: a part of the array is sorted;
* `stable_sort`: so is the whole array, and no index is outside of it.
-/

namespace SonicUtils.MergeSort

open Loop Merge Compare

variable {γ α : Type} {u : User γ α} {choose : α → α → Bool → Prop} {s : Buffers γ α}

theorem trap_bind {β β' : Type} (b : β) (f : β → Except Trap β') : (Except.ok b >>= f) = f b := rfl

theorem trap_pure {β : Type} (b : β) : (pure b : Except Trap β) = .ok b := rfl

theorem int_of {z : Int} (low : -2 ^ 31 ≤ z) (high : z < 2 ^ 31) : int z = .ok z := if_pos ⟨low, high⟩

theorem inside_of {l : List α} {i : Nat} (less : i < l.length) : inside l (i : Int) = .ok () :=
  if_pos ⟨Int.natCast_nonneg i, Int.ofNat_lt.mpr less⟩

/-- `copy_func` copies one element. -/
def Copies (u : User γ α) : Prop :=
  ∀ context (dst src : List α) (j i : Nat) (a : α), j < dst.length → src[i]? = some a →
    ∃ context', u.copyFunc context dst j src i = (dst.set j a, context')

/-- `cmp_func` decides which of two elements comes first. -/
def Chooses (u : User γ α) (choose : α → α → Bool → Prop) : Prop :=
  ∀ context (l : List α) (i j : Nat) (x y : α), l[i]? = some x → l[j]? = some y →
    choose x y (decide ((u.cmpFunc context l i l j).1 ≤ 0))

theorem lt_of_getElem? {l : List α} {i : Nat} {a : α} (here : l[i]? = some a) : i < l.length :=
  (List.getElem?_eq_some_iff.mp here).1

theorem cmp_spec (chooses : Chooses u choose) {i j : Nat} {x y : α} (hi : s.array[i]? = some x)
    (hj : s.array[j]? = some y) :
    ∃ c context, u.cmp s i j = .ok (c, { s with context := context }) ∧ choose x y (decide (c ≤ 0)) := by
  refine ⟨_, (u.cmpFunc s.context s.array i s.array j).2, ?_, chooses s.context s.array i j x y hi hj⟩
  rw [User.cmp, inside_of (lt_of_getElem? hi), inside_of (lt_of_getElem? hj)]
  rfl

/-- An element is added behind those that are already in the scratch array. -/
theorem copyOut_spec (copies : Copies u) {T w T' : List α} {i : Nat} {a t : α} (here : s.array[i]? = some a)
    (tmp : s.tmpArray = T ++ (w ++ t :: T')) :
    ∃ context, u.copyOut s (T.length + w.length : Nat) i =
      .ok ⟨context, s.array, T ++ ((w ++ [a]) ++ T')⟩ := by
  have room : T.length + w.length < s.tmpArray.length := by
    simp [tmp]
  obtain ⟨context, run⟩ := copies s.context s.tmpArray s.array (T.length + w.length) i a room here
  refine ⟨context, ?_⟩
  rw [User.copyOut, inside_of room, inside_of (lt_of_getElem? here)]
  simp only [trap_bind, run]
  simp [tmp, trap_pure]

theorem copyBack_spec (copies : Copies u) {A B : List α} {i : Nat} {a o : α} (here : s.tmpArray[i]? = some a)
    (place : s.array = A ++ o :: B) (same : A.length = i) :
    ∃ context, u.copyBack s i i = .ok ⟨context, A ++ a :: B, s.tmpArray⟩ := by
  have room : i < s.array.length := by
    simp [place, ← same]
  obtain ⟨context, run⟩ := copies s.context s.array s.tmpArray i i a room here
  refine ⟨context, ?_⟩
  rw [User.copyBack, inside_of room, inside_of (lt_of_getElem? here)]
  simp only [trap_bind, run]
  simp [place, ← same, trap_pure]

/-! ## The loops -/

/-- The arrays are not longer than their indices reach. -/
structure Small (s : Buffers γ α) : Prop where
  array : s.array.length ≤ 2 ^ 31 - 1
  tmpArray : s.tmpArray.length = s.array.length

theorem Small.tmp (small : Small s) : s.tmpArray.length ≤ 2 ^ 31 - 1 := by
  rw [small.tmpArray]
  exact small.array

/-- An index is counted up. -/
theorem int_succ {l : List α} {i : Nat} (less : i < l.length) (small : l.length ≤ 2 ^ 31 - 1) :
    int ((i : Int) + 1) = .ok ((i + 1 : Nat) : Int) := int_of (by omega) (by omega)

/-- The part `r` has replaced the part `t` of the scratch array. -/
theorem Small.copied {T w t r T' : List α} (small : Small s) (context : γ) (tmp : s.tmpArray = T ++ (w ++ (t ++ T')))
    (room : t.length = r.length) : Small (⟨context, s.array, T ++ ((w ++ r) ++ T')⟩ : Buffers γ α) := by
  refine ⟨small.array, ?_⟩
  have same := small.tmpArray
  simp only [tmp, List.length_append] at same ⊢
  omega

/-- The elements `r` of the array are added to the scratch array. -/
theorem restLoop_spec (copies : Copies u) {A r B T w t T' : List α} {i k : Nat} {last : Int}
    (array : s.array = A ++ (r ++ B)) (tmp : s.tmpArray = T ++ (w ++ (t ++ T'))) (room : t.length = r.length)
    (hi : i = A.length) (hk : k = T.length + w.length) (hlast : last = A.length + r.length - 1) (small : Small s) :
    ∃ context, Ends .noReturn (u.restTurn last) (s, (i : Int), (k : Int))
      (⟨context, s.array, T ++ ((w ++ r) ++ T')⟩, ((k + r.length : Nat) : Int)) := by
  induction r generalizing s A w t i k with
  | nil =>
    have none_ : t = [] := List.length_eq_zero_iff.mp room
    have finished : ¬(i : Int) ≤ last := by
      simp only [List.length_nil] at hlast
      omega
    refine ⟨s.context, .done ?_⟩
    rw [User.restTurn, if_neg finished, List.append_nil, List.length_nil, Nat.add_zero]
    rw [none_, List.nil_append] at tmp
    rw [← tmp]
    rfl
  | cons a r ih =>
    obtain ⟨t₀, t, rfl⟩ := List.exists_cons_of_length_eq_add_one room
    have here : s.array[i]? = some a := by simp [array, hi]
    obtain ⟨context, run⟩ := copyOut_spec copies here tmp
    have less : i < s.array.length := lt_of_getElem? here
    have less' : k < s.tmpArray.length := by
      simp only [tmp, List.length_append, List.length_cons]
      omega
    have within : (i : Int) ≤ last := by
      simp only [List.length_cons] at hlast
      omega
    have turn : u.restTurn last (s, (i : Int), (k : Int)) = .ok (.inl
        (⟨context, s.array, T ++ ((w ++ [a]) ++ (t ++ T'))⟩, ((i + 1 : Nat) : Int), ((k + 1 : Nat) : Int))) := by
      rw [← hk] at run
      simp only [User.restTurn, if_pos within, run, trap_bind, int_succ less small.array,
        int_succ less' small.tmp, trap_pure]
      rfl
    have small' := small.copied (t := [t₀]) (r := [a]) context tmp rfl
    obtain ⟨context', ends⟩ := @ih ⟨context, s.array, T ++ ((w ++ [a]) ++ (t ++ T'))⟩ (A ++ [a]) (w ++ [a]) t (i + 1) (k + 1)
      (by simp [array]) rfl (by simpa using room) (by simp [hi]) (by simp [hk, Nat.add_assoc])
      (by simp only [hlast, List.length_append, List.length_cons, List.length_nil]; omega) small'
    refine ⟨context', .head turn ?_⟩
    have whole : w ++ [a] ++ r = w ++ a :: r := by simp
    have count : k + 1 + r.length = k + (a :: r).length := by
      rw [List.length_cons]
      omega
    rw [whole, count] at ends
    exact ends

/-- Two adjacent parts `xs` and `ys` of the array, of which `xr` and `yr` are still to be
merged, and the scratch array with what has been merged so far. -/
structure Stage (P xs ys S T T' : List α) (xr yr w : List α) (m : User.Merging γ α) : Prop where
  array : m.s.array = P ++ (xs ++ (ys ++ S))
  left : ∃ xd, xs = xd ++ xr ∧ m.left = ((P.length + xd.length : Nat) : Int)
  mid : ∃ yd, ys = yd ++ yr ∧ m.mid = ((P.length + xs.length + yd.length : Nat) : Int)
  currPos : m.currPos = ((T.length + w.length : Nat) : Int)
  tmp : ∃ t, m.s.tmpArray = T ++ (w ++ (t ++ T')) ∧ t.length = xr.length + yr.length
  small : Small m.s

section Stage

variable {P xs ys S T T' xr yr w : List α} {m : User.Merging γ α} {x y : α}

theorem Stage.at_left (h : Stage P xs ys S T T' (x :: xr) yr w m) :
    ∃ i : Nat, m.left = i ∧ m.s.array[i]? = some x ∧ i < P.length + xs.length := by
  obtain ⟨xd, split, left⟩ := h.left
  refine ⟨_, left, ?_, ?_⟩
  · simp [h.array, split]
  · simp [split]

theorem Stage.at_mid (h : Stage P xs ys S T T' xr (y :: yr) w m) :
    ∃ j : Nat, m.mid = j ∧ m.s.array[j]? = some y ∧ j < P.length + xs.length + ys.length := by
  obtain ⟨yd, split, mid⟩ := h.mid
  refine ⟨_, mid, ?_, ?_⟩
  · have behind : (P ++ xs).length ≤ P.length + xs.length + yd.length := by
      rw [List.length_append]
      omega
    rw [h.array, split, ← List.append_assoc P, List.getElem?_append_right behind]
    simp
  · simp [split]

/-- One element goes into the scratch array. -/
theorem Stage.copy (copies : Copies u) (h : Stage P xs ys S T T' xr yr w m) {i : Nat} {a : α} (context : γ)
    (here : m.s.array[i]? = some a) (more : 0 < xr.length + yr.length) :
    ∃ s', u.copyOut { m.s with context := context } m.currPos i = .ok s' ∧ s'.array = m.s.array ∧ Small s' ∧
      int (m.currPos + 1) = .ok ((T.length + (w ++ [a]).length : Nat) : Int) ∧
      ∃ t, s'.tmpArray = T ++ ((w ++ [a]) ++ (t ++ T')) ∧ t.length + 1 = xr.length + yr.length := by
  obtain ⟨t, tmp, room⟩ := h.tmp
  obtain ⟨t₀, t, rfl⟩ : ∃ t₀ t', t = t₀ :: t' := by
    cases t with
    | nil =>
      simp only [List.length_nil] at room
      omega
    | cons t₀ t => exact ⟨t₀, t, rfl⟩
  obtain ⟨context', run⟩ := @copyOut_spec _ _ _ { m.s with context := context } copies _ _ _ _ _ _ here tmp
  have less : T.length + w.length < m.s.tmpArray.length := by
    simp only [tmp, List.length_append, List.length_cons]
    omega
  refine ⟨⟨context', m.s.array, T ++ ((w ++ [a]) ++ (t ++ T'))⟩, ?_, rfl, ⟨h.small.array, ?_⟩, ?_, t, rfl, room⟩
  · rw [h.currPos]
    exact run
  · have same := h.small.tmpArray
    simp only [tmp, List.length_append, List.length_cons] at same
    simp only [List.length_append, List.length_cons, List.length_nil]
    omega
  · rw [h.currPos, int_succ less h.small.tmp, List.length_append]
    rfl

/-- One turn of the loop takes the first element of one of the parts. -/
theorem Stage.turn (copies : Copies u) (chooses : Chooses u choose) (h : Stage P xs ys S T T' (x :: xr) (y :: yr) w m)
    {leftEnd right : Int} (hl : leftEnd = P.length + xs.length - 1)
    (hr : right = P.length + xs.length + ys.length - 1) :
    (∃ m', u.mergeTurn leftEnd right m = .ok (.inl m') ∧ choose x y true ∧
        Stage P xs ys S T T' xr (y :: yr) (w ++ [x]) m') ∨
      ∃ m', u.mergeTurn leftEnd right m = .ok (.inl m') ∧ choose x y false ∧
        Stage P xs ys S T T' (x :: xr) yr (w ++ [y]) m' := by
  obtain ⟨i, left, hereX, lessX⟩ := h.at_left
  obtain ⟨j, mid, hereY, lessY⟩ := h.at_mid
  obtain ⟨xd, splitX, left'⟩ := h.left
  obtain ⟨yd, splitY, mid'⟩ := h.mid
  have goes : m.left ≤ leftEnd ∧ m.mid ≤ right := by omega
  obtain ⟨c, context, compares, chosen⟩ := cmp_spec chooses hereX hereY
  rw [← left, ← mid] at compares
  by_cases le : c ≤ 0
  · obtain ⟨s', run, array, small, pos, t, tmp, room⟩ := h.copy copies context hereX (by simp only [List.length_cons]; omega)
    rw [← left] at run
    have next : int (m.left + 1) = .ok ((i + 1 : Nat) : Int) := by
      rw [left]
      exact int_succ (lt_of_getElem? hereX) h.small.array
    refine .inl ⟨⟨s', ((i + 1 : Nat) : Int), m.mid, ((T.length + (w ++ [x]).length : Nat) : Int)⟩, ?_, ?_, ?_⟩
    · simp only [User.mergeTurn, if_pos goes, compares, trap_bind, if_pos le, run, next, pos]
      rfl
    · simpa [le] using chosen
    · refine ⟨array.trans h.array, ⟨xd ++ [x], by simp [splitX], ?_⟩, ⟨yd, splitY, mid'⟩, rfl, ⟨t, tmp, ?_⟩, small⟩
      · simp only [List.length_append, List.length_cons, List.length_nil]
        omega
      · simp only [List.length_cons] at room ⊢
        omega
  · obtain ⟨s', run, array, small, pos, t, tmp, room⟩ := h.copy copies context hereY (by simp only [List.length_cons]; omega)
    rw [← mid] at run
    have next : int (m.mid + 1) = .ok ((j + 1 : Nat) : Int) := by
      rw [mid]
      exact int_succ (lt_of_getElem? hereY) h.small.array
    refine .inr ⟨⟨s', m.left, ((j + 1 : Nat) : Int), ((T.length + (w ++ [y]).length : Nat) : Int)⟩, ?_, ?_, ?_⟩
    · simp only [User.mergeTurn, if_pos goes, compares, trap_bind, if_neg le, run, next, pos]
      rfl
    · simpa [le] using chosen
    · refine ⟨array.trans h.array, ⟨xd, splitX, left'⟩, ⟨yd ++ [y], by simp [splitY], ?_⟩, rfl, ⟨t, tmp, ?_⟩, small⟩
      · simp only [List.length_append, List.length_cons, List.length_nil]
        omega
      · simp only [List.length_cons] at room ⊢
        omega

theorem Stage.finished (h : Stage P xs ys S T T' xr yr w m) {leftEnd right : Int}
    (hl : leftEnd = P.length + xs.length - 1) (hr : right = P.length + xs.length + ys.length - 1)
    (used : xr = [] ∨ yr = []) : u.mergeTurn leftEnd right m = .ok (.inr m) := by
  obtain ⟨xd, splitX, left⟩ := h.left
  obtain ⟨yd, splitY, mid⟩ := h.mid
  have ends : ¬(m.left ≤ leftEnd ∧ m.mid ≤ right) := by
    cases used with
    | inl used =>
      rw [used, List.append_nil] at splitX
      rw [left, hl, splitX]
      omega
    | inr used =>
      rw [used, List.append_nil] at splitY
      rw [mid, hr, splitY]
      omega
  rw [User.mergeTurn, if_neg ends, trap_pure]

/-- The loop ends when one of the parts is used up. -/
theorem mergeLoop_spec (copies : Copies u) (chooses : Chooses u choose) {leftEnd right : Int}
    (h : Stage P xs ys S T T' xr yr w m) (hl : leftEnd = P.length + xs.length - 1)
    (hr : right = P.length + xs.length + ys.length - 1) :
    ∃ m' xr' yr' v, Ends .noReturn (u.mergeTurn leftEnd right) m m' ∧ Stage P xs ys S T T' xr' yr' (w ++ v) m' ∧
      (xr' = [] ∨ yr' = []) ∧ ∀ zs, Merges choose xr' yr' zs → Merges choose xr yr (v ++ zs) := by
  induction count : xr.length + yr.length generalizing xr yr w m with
  | zero =>
    have none_ : xr = [] := List.length_eq_zero_iff.mp (by omega)
    refine ⟨m, xr, yr, [], .done (h.finished hl hr (.inl none_)), ?_, .inl none_, fun zs merges => merges⟩
    rw [List.append_nil]
    exact h
  | succ n ih =>
    by_cases finished : xr = [] ∨ yr = []
    · refine ⟨m, xr, yr, [], .done (h.finished hl hr finished), ?_, finished, fun zs merges => merges⟩
      rw [List.append_nil]
      exact h
    · obtain ⟨x, xr, rfl⟩ := List.exists_cons_of_ne_nil (not_or.mp finished).1
      obtain ⟨y, yr, rfl⟩ := List.exists_cons_of_ne_nil (not_or.mp finished).2
      simp only [List.length_cons] at count
      cases h.turn copies chooses hl hr with
      | inl took =>
        obtain ⟨m', turn, chosen, h'⟩ := took
        obtain ⟨m'', xr', yr', v, ends, h'', finished, merges⟩ := ih h' (by simp only [List.length_cons]; omega)
        refine ⟨m'', xr', yr', x :: v, .head turn ends, ?_, finished, fun zs rest => .left chosen (merges zs rest)⟩
        rw [List.append_cons]
        exact h''
      | inr took =>
        obtain ⟨m', turn, chosen, h'⟩ := took
        obtain ⟨m'', xr', yr', v, ends, h'', finished, merges⟩ := ih h' (by simp only [List.length_cons]; omega)
        refine ⟨m'', xr', yr', y :: v, .head turn ends, ?_, finished, fun zs rest => .right chosen (merges zs rest)⟩
        rw [List.append_cons]
        exact h''

/-- Before the first turn nothing has been merged. -/
theorem Stage.start {left mid : Int} (array : s.array = P ++ (xs ++ (ys ++ S))) (hl : left = P.length)
    (hm : mid = P.length + xs.length) (small : Small s) :
    ∃ T T', T.length = P.length ∧ Stage P xs ys S T T' xs ys [] (⟨s, left, mid, left⟩ : User.Merging γ α) := by
  have same := small.tmpArray
  simp only [array, List.length_append] at same
  have hT : (s.tmpArray.take P.length).length = P.length := by
    rw [List.length_take]
    omega
  refine ⟨s.tmpArray.take P.length, (s.tmpArray.drop P.length).drop (xs.length + ys.length), hT, array, ⟨[], rfl, ?_⟩,
    ⟨[], rfl, ?_⟩, ?_, ⟨(s.tmpArray.drop P.length).take (xs.length + ys.length), ?_, ?_⟩, small⟩
  · simpa using hl
  · simpa using hm
  · rw [hT]
    simpa using hl
  · rw [List.nil_append, List.take_append_drop, List.take_append_drop]
  · rw [List.length_take, List.length_drop]
    omega

/-- What is left of the two parts goes into the scratch array, too. -/
theorem Stage.rests (copies : Copies u) (h : Stage P xs ys S T T' xr yr w m) {leftEnd right : Int}
    (hl : leftEnd = P.length + xs.length - 1) (hr : right = P.length + xs.length + ys.length - 1) :
    ∃ b c, Ends .noReturn (u.restTurn leftEnd) (m.s, m.left, m.currPos) b ∧
      Ends .noReturn (u.restTurn right) (b.1, m.mid, b.2) c ∧ c.1.array = m.s.array ∧
      c.1.tmpArray = T ++ ((w ++ xr ++ yr) ++ T') ∧ Small c.1 := by
  obtain ⟨xd, splitX, hleft⟩ := h.left
  obtain ⟨yd, splitY, hmid⟩ := h.mid
  obtain ⟨r, tmp, room⟩ := h.tmp
  obtain ⟨rx, ry, rfl, hrx⟩ : ∃ rx ry, r = rx ++ ry ∧ rx.length = xr.length := by
    refine ⟨r.take xr.length, r.drop xr.length, (List.take_append_drop ..).symm, ?_⟩
    rw [List.length_take]
    omega
  rw [List.append_assoc rx] at tmp
  rw [List.length_append] at room
  have lastX : leftEnd = ((P ++ xd).length : Int) + xr.length - 1 := by
    simp only [hl, splitX, List.length_append]
    omega
  have lastY : right = ((P ++ (xs ++ yd)).length : Int) + yr.length - 1 := by
    simp only [hr, splitY, List.length_append]
    omega
  obtain ⟨context, first⟩ := restLoop_spec copies (A := P ++ xd) (r := xr) (B := ys ++ S)
    (by simp [h.array, splitX]) tmp hrx (List.length_append ..).symm rfl lastX h.small
  have small := h.small.copied context tmp hrx
  obtain ⟨context', second⟩ := restLoop_spec copies (s := ⟨context, m.s.array, T ++ ((w ++ xr) ++ (ry ++ T'))⟩)
    (A := P ++ (xs ++ yd)) (r := yr) (B := S) (i := P.length + xs.length + yd.length)
    (by simp [h.array, splitY]) rfl (by omega) (by simp [Nat.add_assoc]) rfl lastY small
  rw [← hmid, List.length_append, ← Nat.add_assoc] at second
  rw [← hleft, ← h.currPos] at first
  exact ⟨_, _, first, second, rfl, rfl, small.copied context' rfl (by omega)⟩

end Stage

/-- The part `d` of the scratch array is copied back, from its end. -/
theorem backLoop_spec (copies : Copies u) {A d o B T T' : List α} {index right n : Int}
    (array : s.array = A ++ (o ++ B)) (tmp : s.tmpArray = T ++ (d ++ T')) (room : o.length = d.length)
    (same : T.length = A.length) (hright : right = A.length + d.length - 1) (hn : n = index + d.length)
    (low : 0 ≤ index) (high : n < 2 ^ 31) (small : Small s) :
    ∃ context, Ends .noReturn (u.backTurn n) (s, index, right) ⟨context, A ++ (d ++ B), s.tmpArray⟩ := by
  induction d using List.reverseRecOn generalizing s o B T' index right with
  | nil =>
    have none_ : o = [] := List.length_eq_zero_iff.mp room
    have finished : ¬index < n := by
      simp only [List.length_nil] at hn
      omega
    refine ⟨s.context, .done ?_⟩
    rw [User.backTurn, if_neg finished, List.nil_append, trap_pure]
    rw [none_, List.nil_append] at array
    rw [← array]
  | append_singleton d a ih =>
    rw [List.length_append, List.length_singleton] at room hright hn
    obtain ⟨o, b, rfl⟩ : ∃ o' b, o = o' ++ [b] := by
      cases List.eq_nil_or_concat o with
      | inl none_ => simp [none_] at room
      | inr some_ =>
        obtain ⟨o', b, split⟩ := some_
        exact ⟨o', b, split.trans List.concat_eq_append⟩
    rw [List.length_append, List.length_singleton] at room
    have position : right = ((A ++ o).length : Nat) := by
      rw [List.length_append]
      omega
    have place : s.array = (A ++ o) ++ b :: B := by simp [array]
    have here : s.tmpArray[(A ++ o).length]? = some a := by
      have count : (A ++ o).length = (T ++ d).length := by
        rw [List.length_append, List.length_append]
        omega
      rw [count, tmp]
      simp
    obtain ⟨context, run⟩ := copyBack_spec copies here place rfl
    have turn : u.backTurn n (s, index, right) =
        .ok (.inl (⟨context, (A ++ o) ++ a :: B, s.tmpArray⟩, index + 1, right - 1)) := by
      have less := small.array
      have bound := lt_of_getElem? here
      rw [small.tmpArray] at bound
      rw [← position] at run
      simp only [User.backTurn, if_pos (show index < n by omega), run, trap_bind,
        int_of (show -2 ^ 31 ≤ right - 1 by omega) (by omega), int_of (show -2 ^ 31 ≤ index + 1 by omega) (by omega),
        trap_pure]
    have small' : Small (⟨context, (A ++ o) ++ a :: B, s.tmpArray⟩ : Buffers γ α) := by
      have same := small.tmpArray
      have less := small.array
      simp only [place, List.length_append, List.length_cons] at same less
      constructor
      · simpa only [List.length_append, List.length_cons] using less
      · simpa only [List.length_append, List.length_cons] using same
    obtain ⟨context', ends⟩ := @ih ⟨context, (A ++ o) ++ a :: B, s.tmpArray⟩ o (a :: B) (a :: T') (index + 1) (right - 1)
      (by simp) (by simp [tmp]) (by omega) (by omega) (by omega) (by omega) small'
    refine ⟨context', .head turn ?_⟩
    have whole : d ++ a :: B = d ++ [a] ++ B := by simp
    rw [whole] at ends
    exact ends

/-- The loops, one after the other. -/
theorem mergeArrays_eq {left mid right : Int} (low : 0 ≤ left) (first : left ≤ mid) (second : mid ≤ right + 1)
    (high : right < 2 ^ 31 - 1) :
    u.stdMergeSortMergeArrays left mid right s = fun fuel =>
      loop .noReturn (u.mergeTurn (mid - 1) right) fuel ⟨s, left, mid, left⟩ >>= fun m =>
        loop .noReturn (u.restTurn (mid - 1)) fuel (m.s, m.left, m.currPos) >>= fun b =>
          loop .noReturn (u.restTurn right) fuel (b.1, m.mid, b.2) >>= fun c =>
            loop .noReturn (u.backTurn (right - left + 1)) fuel (c.1, 0, right) := by
  funext fuel
  simp only [User.stdMergeSortMergeArrays, int_of (show -2 ^ 31 ≤ mid - 1 by omega) (by omega),
    int_of (show -2 ^ 31 ≤ right - left by omega) (by omega),
    int_of (show -2 ^ 31 ≤ right - left + 1 by omega) (by omega), trap_bind]

/-- Two parts of the array are merged. -/
theorem mergeArrays_spec (copies : Copies u) (chooses : Chooses u choose) {P xs ys S : List α} {left mid right : Int}
    (array : s.array = P ++ (xs ++ (ys ++ S))) (hl : left = P.length) (hm : mid = P.length + xs.length)
    (hr : right = P.length + xs.length + ys.length - 1) (small : Small s) :
    ∃ zs context tmpArray, Returns (u.stdMergeSortMergeArrays left mid right s) ⟨context, P ++ (zs ++ S), tmpArray⟩ ∧
      Merges choose xs ys zs ∧ tmpArray.length = s.tmpArray.length := by
  have whole := small.array
  simp only [array, List.length_append] at whole
  have hle : mid - 1 = P.length + xs.length - 1 := by rw [hm]
  obtain ⟨T, T', hT, start⟩ := Stage.start array hl hm small
  obtain ⟨m, xr, yr, v, merging, h, used, merges⟩ := mergeLoop_spec copies chooses start hle hr
  rw [List.nil_append] at h
  have merged : Merges choose xs ys (v ++ xr ++ yr) := by
    rw [List.append_assoc]
    apply merges
    cases used with
    | inl used => exact used ▸ .restRight yr
    | inr used =>
      rw [used, List.append_nil]
      exact .restLeft xr
  obtain ⟨b, c, first, second, kept, filled, small'⟩ := h.rests copies hle hr
  -- the way back
  have room : (xs ++ ys).length = (v ++ xr ++ yr).length := merged.perm.length_eq.symm
  have count : ((v ++ xr ++ yr).length : Int) = xs.length + ys.length := by
    rw [← room, List.length_append]
    omega
  have array' : c.1.array = P ++ ((xs ++ ys) ++ S) := by
    rw [kept, h.array, List.append_assoc]
  have last : right = P.length + ((v ++ xr ++ yr).length : Int) - 1 := by omega
  obtain ⟨context, back⟩ := backLoop_spec copies array' filled room hT last
    (show right - left + 1 = 0 + ((v ++ xr ++ yr).length : Int) by omega) (Int.le_refl 0) (by omega) small'
  refine ⟨v ++ xr ++ yr, context, c.1.tmpArray, ?_, merged, ?_⟩
  · rw [mergeArrays_eq (by omega) (by omega) (by omega) (by omega)]
    have backs := second.bind (g := fun fuel (c : Buffers γ α × Int) =>
      loop .noReturn (u.backTurn (right - left + 1)) fuel (c.1, 0, right)) back
    have rests := first.bind (g := fun fuel (b : Buffers γ α × Int) =>
      loop .noReturn (u.restTurn right) fuel (b.1, m.mid, b.2) >>= fun c =>
        loop .noReturn (u.backTurn (right - left + 1)) fuel (c.1, 0, right)) backs
    exact merging.bind rests
  · exact small'.tmpArray.trans ((congrArg List.length (kept.trans (h.array.trans array.symm))).trans small.tmpArray.symm)

theorem exists_halves {d : List α} (two : 2 ≤ d.length) : ∃ xs ys, d = xs ++ ys ∧ xs.length = (d.length - 1) / 2 + 1 := by
  refine ⟨d.take ((d.length - 1) / 2 + 1), d.drop ((d.length - 1) / 2 + 1), (List.take_append_drop ..).symm, ?_⟩
  rw [List.length_take]
  omega

/-- The two halves are sorted, and merged then. -/
theorem divideNSort_halves {left right mid : Int} (more : left < right) (low : 0 ≤ left) (fits : right + left < 2 ^ 31)
    (middle : (right + left).tdiv 2 = mid) (inside : mid < right) :
    (fun fuel => u.stdMergeSortDivideNSort left right s (fuel + 1)) = fun fuel =>
      u.stdMergeSortDivideNSort left mid s fuel >>= fun s =>
        u.stdMergeSortDivideNSort (mid + 1) right s fuel >>= fun s =>
          u.stdMergeSortMergeArrays left (mid + 1) right s fuel := by
  subst middle
  funext fuel
  have above : 0 ≤ (right + left).tdiv 2 := Int.tdiv_nonneg (by omega) (by decide)
  rw [User.stdMergeSortDivideNSort, if_pos more, int_of (by omega) fits]
  simp only [trap_bind, int_of (show -2 ^ 31 ≤ (right + left).tdiv 2 + 1 by omega) (by omega)]

/-- A part of the array is sorted, if an `int` holds the sum of two indices in it. -/
theorem divideNSort_spec (copies : Copies u) (chooses : Chooses u choose) {P d S : List α} {left right : Int}
    (array : s.array = P ++ (d ++ S)) (hl : left = P.length) (hr : right = P.length + d.length - 1)
    (fits : right ≤ 2 ^ 30) (small : s.array.length ≤ 2 ^ 31 - 1) (same : s.tmpArray.length = s.array.length) :
    ∃ d' context tmpArray, Returns (u.stdMergeSortDivideNSort left right s) ⟨context, P ++ (d' ++ S), tmpArray⟩ ∧
      Sorts choose d d' ∧ tmpArray.length = s.tmpArray.length := by
  induction count : d.length using Nat.strongRecOn generalizing s P d S left right with
  | ind n ih =>
    by_cases short : n ≤ 1
    · have finished : ¬left < right := by omega
      refine ⟨d, s.context, s.tmpArray, .of_succ (.of_ok fun fuel => ?_), .short (by omega), rfl⟩
      rw [User.stdMergeSortDivideNSort, if_neg finished, trap_pure, ← array]
    · have whole := congrArg List.length array
      simp only [List.length_append] at whole
      obtain ⟨xs, ys, rfl, hxs⟩ := exists_halves (d := d) (by omega)
      rw [count] at hxs
      rw [List.length_append] at count hr whole
      have middle : (right + left).tdiv 2 = P.length + xs.length - 1 := by
        rw [Int.tdiv_eq_ediv_of_nonneg (by omega), hxs]
        omega
      rw [List.append_assoc] at array
      obtain ⟨xs', context₁, tmp₁, first, sortsX, same₁⟩ :=
        ih xs.length (by omega) array hl middle (by omega) small same rfl
      have countX : xs'.length = xs.length := sortsX.perm.length_eq
      have array₁ : P ++ (xs' ++ (ys ++ S)) = P ++ xs' ++ (ys ++ S) := (List.append_assoc ..).symm
      have length₁ : (P ++ (xs' ++ (ys ++ S))).length = s.array.length := by
        simp only [array, List.length_append, countX]
      obtain ⟨ys', context₂, tmp₂, second, sortsY, same₂⟩ :=
        @ih ys.length (by omega) ⟨context₁, P ++ (xs' ++ (ys ++ S)), tmp₁⟩ (P ++ xs') ys S
          ((right + left).tdiv 2 + 1) right array₁ (by rw [middle, List.length_append]; omega)
          (by rw [hr, List.length_append]; omega) fits (length₁ ▸ small) (same₁.trans (same.trans length₁.symm)) rfl
      have countY : ys'.length = ys.length := sortsY.perm.length_eq
      have array₂ : P ++ xs' ++ (ys' ++ S) = P ++ (xs' ++ (ys' ++ S)) := List.append_assoc ..
      have length₂ : (P ++ xs' ++ (ys' ++ S)).length = s.array.length := by
        simp only [array, List.length_append, countX, countY, Nat.add_assoc]
      have small₂ : Small (⟨context₂, P ++ xs' ++ (ys' ++ S), tmp₂⟩ : Buffers γ α) :=
        ⟨length₂ ▸ small, (same₂.trans same₁).trans (same.trans length₂.symm)⟩
      have hm₂ : (right + left).tdiv 2 + 1 = P.length + xs'.length := by
        rw [middle, countX]
        omega
      have hr₂ : right = P.length + xs'.length + ys'.length - 1 := by
        rw [countX, countY]
        omega
      obtain ⟨zs, context₃, tmp₃, third, merges, same₃⟩ := mergeArrays_spec copies chooses array₂ hl hm₂ hr₂ small₂
      refine ⟨zs, context₃, tmp₃, .of_succ ?_, .halves sortsX sortsY merges, same₃.trans (same₂.trans same₁)⟩
      rw [divideNSort_halves (by omega) (by omega) (by omega) rfl (by omega)]
      exact first.bind (second.bind third)

theorem mergeSort_spec (copies : Copies u) (chooses : Chooses u choose) {n : Nat} (small : n ≤ 2 ^ 30 + 1)
    (array : s.array.length = n) (tmp : s.tmpArray.length = n) :
    ∃ s', Returns (u.stdMergeSort n s) s' ∧ Sorts choose s.array s'.array := by
  have last : ((n : Int) - 1) = ([] : List α).length + (s.array.length : Int) - 1 := by
    rw [array, List.length_nil]
    omega
  obtain ⟨d', context, tmpArray, runs, sorts, -⟩ := @divideNSort_spec _ _ u choose s copies chooses [] s.array [] 0
    (n - 1) (List.append_nil _).symm rfl last (by omega) (by omega) (tmp.trans array.symm)
  rw [List.append_nil, List.nil_append] at runs
  have run : u.stdMergeSort n s = fun fuel => u.stdMergeSortDivideNSort 0 (n - 1) s fuel := by
    funext fuel
    rw [User.stdMergeSort, int_of (by omega) (by omega), trap_bind]
  rw [run]
  exact ⟨_, runs, sorts⟩

/-- `cmp_func` compares two elements. -/
def Compares (u : User γ α) (compare : α → α → Int) : Prop :=
  ∀ context (l : List α) (i j : Nat) (x y : α), l[i]? = some x → l[j]? = some y →
    (u.cmpFunc context l i l j).1 = compare x y

theorem Compares.chooses {compare : α → α → Int} (h : Compares u compare) : Chooses u (Stably compare) := by
  intro context l i j x y hi hj
  rw [Stably, h context l i j x y hi hj, decide_eq_true_iff]

/-- No index is outside of the two arrays, whatever `cmp_func` says, and the array is
permuted. -/
theorem stable_sort (u : User γ α) (copies : Copies u) (s : Buffers γ α) (n : Nat) (small : n ≤ 2 ^ 30)
    (array : s.array.length = n) (tmp : s.tmpArray.length = n) :
    ∃ s', Returns (u.stdMergeSort n s) s' ∧ s'.array.Perm s.array ∧
      ∀ compare, Compares u compare → TotalPreorder compare →
        Ascending compare s'.array ∧ ∀ e, equals compare e s'.array = equals compare e s.array := by
  have any : Chooses u fun _ _ _ => True := fun _ _ _ _ _ _ _ _ => trivial
  obtain ⟨s', returns, sorts⟩ := mergeSort_spec copies any (by omega) array tmp
  refine ⟨s', returns, sorts.perm, fun compare compares order => ?_⟩
  obtain ⟨s'', returns', sorts'⟩ := mergeSort_spec copies compares.chooses (by omega) array tmp
  have same := returns.unique returns'
  subst same
  exact ⟨sorts'.ascending order, fun e => sorts'.stable order e⟩

/-- Lists with a copy function that counts its calls. -/
def counted (key : α → Nat) : User Nat α where
  cmpFunc context a i b j :=
    match a[i.toNat]?, b[j.toNat]? with
    | some x, some y => (threeWay (key x) (key y), context)
    | _, _ => (0, context)
  copyFunc context dst j src i :=
    match src[i.toNat]? with
    | some a => (dst.set j.toNat a, context + 1)
    | none => (dst, context)

theorem copies_counted (key : α → Nat) : Copies (counted key) := by
  intro context dst src j i a _ here
  refine ⟨context + 1, ?_⟩
  simp only [counted, Int.toNat_natCast, here]

theorem stable_sort_counted :
    ∃ s' : Buffers Nat (Nat × Nat),
      Returns ((counted Prod.fst).stdMergeSort 3 ⟨0, [(2, 0), (1, 1), (2, 2)], [(0, 0), (0, 0), (0, 0)]⟩) s' ∧
      s'.array.Perm [(2, 0), (1, 1), (2, 2)] ∧ Ascending (fun a b => threeWay a.1 b.1) s'.array ∧
      ∀ e, equals (fun a b => threeWay a.1 b.1) e s'.array =
        equals (fun a b => threeWay a.1 b.1) e [(2, 0), (1, 1), (2, 2)] := by
  have compares : Compares (counted (Prod.fst : Nat × Nat → Nat)) fun a b => threeWay a.1 b.1 := by
    intro context l i j x y hi hj
    simp only [counted, Int.toNat_natCast, hi, hj]
  obtain ⟨s', returns, perm, sorted⟩ := stable_sort (counted Prod.fst) (copies_counted Prod.fst)
    ⟨0, [(2, 0), (1, 1), (2, 2)], [(0, 0), (0, 0), (0, 0)]⟩ 3 (by decide) rfl rfl
  exact ⟨s', returns, perm, sorted _ compares (totalPreorder_threeWay Prod.fst)⟩

end SonicUtils.MergeSort
