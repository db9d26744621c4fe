import Mathlib.Data.List.Pairwise

/-!
# Three-way comparisons

A compare function as C programs have it: it gives a negative number, zero or a
positive number.

* `TotalPreorder`: what a search or a sort expects of it;
* `threeWay`: the compare function of a linear order;
* `Ascending`: a list that is sorted by it;
* `Least`: the least element of some kind, if there is one;
* `Ascending.insert`, `keyed_insert`: where a new element goes in behind its equals.
-/

namespace SonicUtils.Compare

variable {α : Type} {compare : α → α → Int} {a b c : α} {l : List α}

structure TotalPreorder (compare : α → α → Int) : Prop where
  flip : ∀ a b, compare a b < 0 ↔ 0 < compare b a
  trans : ∀ a b c, compare a b ≤ 0 → compare b c ≤ 0 → compare a c ≤ 0

namespace TotalPreorder

theorem eq_comm (h : TotalPreorder compare) : compare a b = 0 ↔ compare b a = 0 := by
  have forth := h.flip a b
  have back := h.flip b a
  omega

theorem refl (h : TotalPreorder compare) (a : α) : compare a a = 0 := by
  have self := h.flip a a
  omega

theorem not_lt (h : TotalPreorder compare) : ¬compare a b < 0 ↔ compare b a ≤ 0 := by
  have forth := h.flip a b
  omega

theorem lt_of_lt_of_le (h : TotalPreorder compare) (first : compare a b < 0) (next : compare b c ≤ 0) :
    compare a c < 0 := by
  have back := h.trans b c a next
  have forth := h.flip a b
  have around := h.flip a c
  omega

theorem lt_of_le_of_lt (h : TotalPreorder compare) (first : compare a b ≤ 0) (next : compare b c < 0) :
    compare a c < 0 := by
  have back := h.trans c a b
  have forth := h.flip b c
  have around := h.flip a c
  omega

end TotalPreorder

def threeWay {κ : Type} [LT κ] [DecidableEq κ] [DecidableLT κ] (a b : κ) : Int :=
  if a = b then 0 else if a < b then -1 else 1

theorem totalPreorder_threeWay {κ : Type} [LT κ] [LE κ] [DecidableEq κ] [DecidableLT κ] [Std.IsLinearOrder κ]
    [Std.LawfulOrderLT κ] (key : α → κ) : TotalPreorder fun a b => threeWay (key a) (key b) := by
  unfold threeWay
  constructor
  · intro a b
    grind
  · intro a b c
    grind

/-- Equal elements may stand in any order. -/
def Ascending (compare : α → α → Int) (l : List α) : Prop := l.Pairwise fun a b => compare a b ≤ 0

/-- No two elements are equal. -/
def Distinct (compare : α → α → Int) (l : List α) : Prop := l.Pairwise fun a b => compare a b ≠ 0

theorem Ascending.strictly (h : Ascending compare l) (distinct : Distinct compare l) :
    l.Pairwise fun a b => compare a b < 0 := by
  have both := h.and distinct
  exact both.imp fun ⟨le, ne⟩ => by omega

theorem Distinct.of_perm {l' : List α} (order : TotalPreorder compare) (perm : l.Perm l')
    (distinct : Distinct compare l') : Distinct compare l :=
  (perm.pairwise_iff fun different => mt order.eq_comm.mpr different).mpr distinct

/-- The least element that has the property, up to equal ones. -/
def Least (compare : α → α → Int) (l : List α) (p : α → Prop) : Option α → Prop
  | none => ∀ b ∈ l, ¬p b
  | some a => a ∈ l ∧ p a ∧ ∀ b ∈ l, p b → compare a b ≤ 0

/-- The greatest one. -/
def Greatest (compare : α → α → Int) : List α → (α → Prop) → Option α → Prop := Least fun a b => compare b a

/-- The elements that have the property are the last ones. -/
theorem find_split {p : α → Bool} {first last : List α} (no : ∀ a ∈ first, p a = false)
    (yes : ∀ a ∈ last, p a = true) : (first ++ last).find? p = last.head? := by
  have none_ : first.find? p = none := by simpa using no
  rw [List.find?_append, none_, Option.none_or]
  cases last with
  | nil => rfl
  | cons a last => exact List.find?_cons_of_pos (yes a List.mem_cons_self)

theorem Ascending.least_find (h : Ascending compare l) (order : TotalPreorder compare) (p : α → Prop)
    [DecidablePred p] : Least compare l p (l.find? fun a => p a) := by
  induction l with
  | nil => simp [Least]
  | cons a l ih =>
    obtain ⟨first, rest⟩ := List.pairwise_cons.mp h
    by_cases here : p a
    · have self := order.refl a
      rw [List.find?_cons_of_pos (by simpa using here)]
      refine ⟨List.mem_cons_self, here, ?_⟩
      intro b hb _
      cases hb with
      | head => omega
      | tail _ mem => exact first b mem
    · rw [List.find?_cons_of_neg (by simpa using here)]
      have below := ih rest
      cases found : l.find? fun a => p a with
      | none =>
        rw [found] at below
        rw [Least, List.forall_mem_cons]
        exact ⟨here, below⟩
      | some b =>
        rw [found] at below
        obtain ⟨mem, has, least⟩ := below
        refine ⟨List.mem_cons_of_mem _ mem, has, ?_⟩
        intro c hc pc
        cases hc with
        | head => exact absurd pc here
        | tail _ mem => exact least c mem pc

theorem TotalPreorder.mirror (h : TotalPreorder compare) : TotalPreorder fun a b => compare b a :=
  ⟨fun a b => h.flip b a, fun a b c first next => h.trans c b a next first⟩

theorem Least.congr {l' : List α} {p : α → Prop} {o : Option α} (same : ∀ a, a ∈ l ↔ a ∈ l')
    (h : Least compare l p o) : Least compare l' p o := by
  cases o with
  | none => exact fun b hb => h b ((same b).mpr hb)
  | some a => exact ⟨(same a).mp h.1, h.2.1, fun b hb => h.2.2 b ((same b).mpr hb)⟩

theorem Ascending.greatest_find (h : Ascending compare l) (order : TotalPreorder compare) (p : α → Prop)
    [DecidablePred p] : Greatest compare l p (l.reverse.find? fun a => p a) := by
  have back : Ascending (fun a b => compare b a) l.reverse := List.pairwise_reverse.mpr h
  exact (back.least_find order.mirror p).congr fun _ => List.mem_reverse

/-! ## Insertion -/

/-- What comes behind the new element is greater. -/
theorem Ascending.greater {new : α} {bs : List α} (order : TotalPreorder compare) (h : Ascending compare bs)
    (after : ∀ b ∈ bs.head?, compare new b < 0) : ∀ b ∈ bs, compare new b < 0 := by
  cases bs with
  | nil => simp
  | cons b bs =>
    have less : compare new b < 0 := after b rfl
    intro c hc
    cases hc with
    | head => exact less
    | tail _ mem => exact order.lt_of_lt_of_le less ((List.pairwise_cons.mp h).1 c mem)

theorem Ascending.insert {new : α} {as bs : List α} (order : TotalPreorder compare) (h : Ascending compare (as ++ bs))
    (before : ∀ a ∈ as, ¬compare new a < 0) (after : ∀ b ∈ bs, compare new b < 0) :
    Ascending compare (as ++ new :: bs) := by
  obtain ⟨first, last, across⟩ := List.pairwise_append.mp h
  refine List.pairwise_append.mpr ⟨first, List.pairwise_cons.mpr ⟨fun b hb => Int.le_of_lt (after b hb), last⟩, ?_⟩
  intro a ha b hb
  cases hb with
  | head =>
    have notLess := before a ha
    have flip := order.flip new a
    omega
  | tail _ mem => exact across a ha b mem

variable {κ : Type} {order : κ → κ → Int} {key : α → κ}

theorem TotalPreorder.on (h : TotalPreorder order) (key : α → κ) : TotalPreorder fun a b => order (key a) (key b) :=
  ⟨fun a b => h.flip (key a) (key b), fun a b c => h.trans (key a) (key b) (key c)⟩

/-- The elements whose key is equal to `k`, in their order. -/
def keyed (order : κ → κ → Int) (key : α → κ) (k : κ) (l : List α) : List α := l.filter fun a => order k (key a) = 0

theorem keyed_append (k : κ) (as bs : List α) :
    keyed order key k (as ++ bs) = keyed order key k as ++ keyed order key k bs := List.filter_append ..

theorem keyed_filter (k : κ) (p : α → Bool) (l : List α) :
    keyed order key k (l.filter p) = (keyed order key k l).filter p := by
  rw [keyed, keyed, List.filter_filter, List.filter_filter]
  congr
  funext a
  exact Bool.and_comm ..

theorem keyed_congr {key' : α → κ} (same : ∀ a ∈ l, key' a = key a) (k : κ) :
    keyed order key' k l = keyed order key k l :=
  List.filter_congr fun a ha => by rw [same a ha]

/-- A new element that stands before greater ones is the last one of its kind. -/
theorem keyed_insert (h : TotalPreorder order) {new : α} {as bs : List α}
    (after : ∀ b ∈ bs, order (key new) (key b) < 0) (k : κ) :
    keyed order key k (as ++ new :: bs) = keyed order key k (as ++ bs) ++ keyed order key k [new] := by
  rw [List.append_cons, keyed_append, keyed_append, keyed_append, List.append_assoc, List.append_assoc]
  by_cases here : order k (key new) = 0
  · have none_ : keyed order key k bs = [] := by
      rw [keyed, List.filter_eq_nil_iff]
      intro b hb same
      have equal : order k (key b) = 0 := by simpa using same
      have back : order (key b) k ≤ 0 := Int.le_of_eq (h.eq_comm.mp equal)
      have le := h.trans _ _ _ back (Int.le_of_eq here)
      have less := (h.flip _ _).mp (after b hb)
      omega
    rw [none_, List.append_nil, List.nil_append]
  · have none_ : keyed order key k [new] = [] := List.filter_cons_of_neg (by simpa using here)
    rw [none_, List.append_nil, List.nil_append]

end SonicUtils.Compare
