import Mathlib.Data.List.Sort
import SonicUtils.Lib.TrieOrder
import SonicUtils.Radix.PrefixMap

/-!
# What lookups find among marked bindings

`m` has the bindings of a table and `live` those that are not marked. A lookup that goes
by all bindings finds what it would find among the live ones under conditions on the two.

* `Finds`, `finds_same_iff`: the walk to the next prefix;
* `Prefixes`, `first_same_iff`, `second_same_iff`: the longest prefixes of a key.
-/

namespace SonicUtils.Radix.PrefixMap

open BitTrie

variable {κ : Type} {m live : PrefixMap κ} {a : Nat → Bool} {q p p' k k' : List Bool} {x x' : Option (List Bool)}
  {ks ks' : List (List Bool)}

/-- The first bound prefix that extends `p`. -/
structure Least (m : PrefixMap κ) (p k : List Bool) : Prop where
  bound : m k ≠ none
  ext : p <+: k
  least : ∀ k', m k' ≠ none → p <+: k' → ¬ k' < k

/-- The first bound prefix that is greater than `q`. -/
structure Next (m : PrefixMap κ) (q k : List Bool) : Prop where
  bound : m k ≠ none
  after : q < k
  least : ∀ k', m k' ≠ none → q < k' → ¬ k' < k

/-- The bound prefix that a way down from `q` comes to, which takes the bits of `a`
wherever it can. -/
structure Below (m : PrefixMap κ) (a : Nat → Bool) (q k : List Bool) : Prop where
  bound : m k ≠ none
  ext : q <+: k
  first : ∀ k', m k' ≠ none → q <+: k' → k' <+: k → k' = k
  follows : ∀ s b, q <+: s → s ++ [b] <+: k → b ≠ a s.length → ∀ k', s ++ [a s.length] <+: k' → m k' = none

/-- `m.Misses q`, with the prefix that the search for `q` ends at. -/
structure MissesAt (m : PrefixMap κ) (q p : List Bool) : Prop where
  bound : m p ≠ none
  way : p ++ [true] <+: q
  lacks : ∀ k', p ++ [true] <+: k' → m k' = none
  left : ∃ k', p ++ [false] <+: k' ∧ m k' ≠ none

theorem misses_iff : m.Misses q ↔ ∃ p, m.MissesAt q p := by
  constructor
  · rintro ⟨p, bound, way, lacks, left⟩
    exact ⟨p, bound, way, lacks, left⟩
  · rintro ⟨p, at_⟩
    exact ⟨p, at_.bound, at_.way, at_.lacks, at_.left⟩

/-! ## The walk to the next prefix -/

/-- Where `std_radix_getnext` ends that looks for `q`, with an address that goes on as `a`:
below `q` if it is not bound itself, on the left if the search is misled, and else at the
next prefix. -/
inductive Finds (m : PrefixMap κ) (a : Nat → Bool) (q : List Bool) : Option (List Bool) → Prop
  | below {k : List Bool} : m q = none → m.Below a q k → Finds m a q (some k)
  | back {p k : List Bool} : m.MissesAt q p → m.Least (p ++ [false]) k → Finds m a q (some k)
  | next {k : List Bool} : (m q = none → ∀ k', q <+: k' → m k' = none) → ¬ m.Misses q → m.Next q k →
      Finds m a q (some k)
  | last : ¬ m.Misses q → (∀ k', q < k' → m k' = none) → Finds m a q none

theorem Least.unique (h : m.Least p k) (h' : m.Least p k') : k = k' :=
  eq_of_le_of_ge (not_lt.mp (h.least k' h'.bound h'.ext)) (not_lt.mp (h'.least k h.bound h.ext))

theorem Next.unique (h : m.Next q k) (h' : m.Next q k') : k = k' :=
  eq_of_le_of_ge (not_lt.mp (h.least k' h'.bound h'.after)) (not_lt.mp (h'.least k h.bound h.after))

theorem Below.unique (h : m.Below a q k) (h' : m.Below a q k') : k = k' := by
  rcases extends_or_part k k' with short | long | ⟨s, b, way, way'⟩
  · exact h'.first k h.bound h.ext short
  · exact (h.first k' h'.bound h'.ext long).symm
  · exfalso
    have stem : q <+: s := by
      have down : s <+: k := (List.prefix_append _ _).trans way
      rcases extends_or_part q s with short | long | ⟨u, c, left, right⟩
      · exact short
      · rcases long.length_le.eq_or_lt with same | longer
        · rw [long.eq_of_length same]
        · have here : s ++ [b] <+: q := List.prefix_of_prefix_length_le way h.ext (by simp; omega)
          exact (not_both_sides (here.trans h'.ext) way').elim
      · exact (not_both_sides (left.trans h.ext) (right.trans down)).elim
    by_cases taken : b = a s.length
    · have other : (!b) ≠ a s.length := by simp [← taken]
      have none_ := h'.follows s (!b) stem way' other k (taken ▸ way)
      exact h.bound none_
    · have other : (!b) = a s.length := (Bool.eq_not_of_ne (Ne.symm taken)).symm
      have none_ := h.follows s b stem way taken k' (other ▸ way')
      exact h'.bound none_

theorem MissesAt.unique (h : m.MissesAt q p) (h' : m.MissesAt q p') : p = p' := by
  have not_longer {p p' : List Bool} (h : m.MissesAt q p) (h' : m.MissesAt q p') : p'.length ≤ p.length := by
    by_contra longer
    have way : p ++ [true] <+: p' :=
      List.prefix_of_prefix_length_le h.way ((List.prefix_append _ _).trans h'.way) (by simp; omega)
    exact h'.bound (h.lacks p' way)
  have short := (List.prefix_append p [true]).trans h.way
  have short' := (List.prefix_append p' [true]).trans h'.way
  exact (List.prefix_of_prefix_length_le short short' (not_longer h' h)).eq_of_length_le (not_longer h h')

/-- A search that is misled is not one for a prefix of a bound one. -/
theorem MissesAt.none_below (h : m.MissesAt q p) (ext : q <+: k) : m k = none := h.lacks k (h.way.trans ext)

theorem Below.after (h : m.Below a q k) (unbound : m q = none) : q < k := by
  rcases h.ext.length_le.eq_or_lt with same | longer
  · exact absurd (h.ext.eq_of_length same ▸ unbound) h.bound
  · exact lt_of_longer h.ext longer

theorem MissesAt.before (h : m.MissesAt q p) (ext : p ++ [false] <+: k) : k < q := lt_of_parts ext h.way

theorem Finds.unique (h : m.Finds a q x) (h' : m.Finds a q x') : x = x' := by
  cases h with
  | below unbound here =>
    cases h' with
    | below _ here' => rw [here.unique here']
    | back misses _ => exact absurd (misses.none_below here.ext) here.bound
    | next none_ _ _ => exact absurd (none_ unbound _ here.ext) here.bound
    | last _ none_ => exact absurd (none_ _ (here.after unbound)) here.bound
  | back misses here =>
    cases h' with
    | below _ here' => exact absurd (misses.none_below here'.ext) here'.bound
    | back misses' here' =>
      obtain rfl := misses.unique misses'
      rw [here.unique here']
    | next _ straight _ => exact absurd (misses_iff.mpr ⟨_, misses⟩) straight
    | last straight _ => exact absurd (misses_iff.mpr ⟨_, misses⟩) straight
  | next none_ straight here =>
    cases h' with
    | below unbound here' => exact absurd (none_ unbound _ here'.ext) here'.bound
    | back misses _ => exact absurd (misses_iff.mpr ⟨_, misses⟩) straight
    | next _ _ here' => rw [here.unique here']
    | last _ none_ => exact absurd (none_ _ here.after) here.bound
  | last straight none_ =>
    cases h' with
    | below unbound here => exact absurd (none_ _ (here.after unbound)) here.bound
    | back misses _ => exact absurd (misses_iff.mpr ⟨_, misses⟩) straight
    | next _ _ here => exact absurd (none_ _ here.after) here.bound
    | last _ _ => rfl

/-- The marked bindings do not show in what the walk finds: it finds a live one or none, is
misled by a live one or not at all, where it would not be without them, and goes no other
way if `q` itself is marked. -/
inductive Unshown (m live : PrefixMap κ) (a : Nat → Bool) (q : List Bool) : Prop
  | below {k : List Bool} : m q = none → m.Below a q k → live k ≠ none → Unshown m live a q
  | back {p k : List Bool} : m.MissesAt q p → m.Least (p ++ [false]) k → live p ≠ none → live k ≠ none →
      Unshown m live a q
  | next {k : List Bool} : (m q = none → ∀ k', q <+: k' → m k' = none) → ¬ m.Misses q → m.Next q k → live k ≠ none →
      ¬ live.Misses q → (live q = none → (∃ k', q <+: k' ∧ live k' ≠ none) → live.Below a q k) → Unshown m live a q
  | last : ¬ m.Misses q → (∀ k', q < k' → m k' = none) → ¬ live.Misses q → Unshown m live a q

/-- Every live binding is one of `m`. -/
def Part (live m : PrefixMap κ) : Prop := ∀ k v, live k = some v → m k = some v

theorem Part.bound (part : live.Part m) (h : live k ≠ none) : m k ≠ none := by
  obtain ⟨v, hv⟩ := Option.ne_none_iff_exists'.mp h
  simp [part k v hv]

theorem Part.none (part : live.Part m) (h : m k = none) : live k = none := by
  by_contra bound
  exact part.bound bound h

theorem Part.below (part : live.Part m) (h : m.Below a q k) (bound : live k ≠ Option.none) : live.Below a q k where
  bound := bound
  ext := h.ext
  first k' bound' := h.first k' (part.bound bound')
  follows s b stem way other k' ext := part.none (h.follows s b stem way other k' ext)

theorem Part.least (part : live.Part m) (h : m.Least p k) (bound : live k ≠ Option.none) : live.Least p k where
  bound := bound
  ext := h.ext
  least k' bound' := h.least k' (part.bound bound')

theorem Part.next (part : live.Part m) (h : m.Next q k) (bound : live k ≠ Option.none) : live.Next q k where
  bound := bound
  after := h.after
  least k' bound' := h.least k' (part.bound bound')

/-- If the marked bindings do not show, one walk is one among the live bindings. -/
theorem Unshown.finds (part : live.Part m) (h : m.Unshown live a q) :
    ∃ x, m.Finds a q x ∧ live.Finds a q x ∧ ∀ k, x = some k → live k ≠ none := by
  cases h with
  | below unbound here bound =>
    refine ⟨_, .below unbound here, .below (part.none unbound) (part.below here bound), ?_⟩
    rintro _ ⟨⟩
    exact bound
  | back misses here bound bound' =>
    have misses' : live.MissesAt q _ :=
      ⟨bound, misses.way, fun k' ext => part.none (misses.lacks k' ext), _, here.ext, bound'⟩
    refine ⟨_, .back misses here, .back misses' (part.least here bound'), ?_⟩
    rintro _ ⟨⟩
    exact bound'
  | @next k none_ straight here bound straight' stays =>
    have found : live.Finds a q (some k) := by
      by_cases passed : live q = none ∧ ∃ k', q <+: k' ∧ live k' ≠ none
      · exact .below passed.1 (stays passed.1 passed.2)
      · refine .next (fun unbound k' ext => ?_) straight' (part.next here bound)
        by_contra bound'
        exact passed ⟨unbound, k', ext, bound'⟩
    refine ⟨_, .next none_ straight here, found, ?_⟩
    rintro _ ⟨⟩
    exact bound
  | last straight none_ straight' =>
    exact ⟨none, .last straight none_, .last straight' fun k' after => part.none (none_ k' after), nofun⟩

/-- Walks that end at the same live prefix, or both at none. -/
theorem finds_same_iff (part : live.Part m) (h : m.Finds a q x) (h' : live.Finds a q x') :
    (x = x' ∧ ∀ k, x = some k → live k ≠ none) ↔ m.Unshown live a q := by
  constructor
  · rintro ⟨rfl, bound⟩
    cases h with
    | below unbound here => exact .below unbound here (bound _ rfl)
    | @back p k misses here =>
      refine .back misses here ?_ (bound _ rfl)
      have less := misses.before here.ext
      cases h' with
      | below unbound here' => exact absurd (here'.after unbound) less.asymm
      | back misses' here' =>
        obtain rfl := part_unique (c := true) (d := true) misses.way here.ext misses'.way here'.ext
        exact misses'.bound
      | next _ _ here' => exact absurd here'.after less.asymm
    | next none_ straight here =>
      cases h' with
      | below unbound here' =>
        have straight' : ¬ live.Misses q := by
          intro misses
          obtain ⟨p, misses⟩ := misses_iff.mp misses
          exact here'.bound (misses.none_below here'.ext)
        exact .next none_ straight here (bound _ rfl) straight' fun _ _ => here'
      | back misses here' => exact absurd (misses.before here'.ext) here.after.asymm
      | next none' straight' here' =>
        refine .next none_ straight here (bound _ rfl) straight' fun unbound below => ?_
        obtain ⟨k', ext, bound'⟩ := below
        exact absurd (none' unbound k' ext) bound'
    | last straight none_ =>
      cases h' with
      | last straight' _ => exact .last straight none_ straight'
  · intro unshown
    obtain ⟨y, found, found', bound⟩ := unshown.finds part
    obtain rfl := h.unique found
    exact ⟨found.unique found |>.trans (found'.unique h'), bound⟩

theorem Finds.bound (h : m.Finds a q (some k)) : m k ≠ none := by
  cases h with
  | below _ here => exact here.bound
  | back _ here => exact here.bound
  | next _ _ here => exact here.bound

/-- No value is bound twice. -/
def Once (m : PrefixMap κ) : Prop := ∀ k k' v, m k = some v → m k' = some v → k = k'

/-- The values that the walks find are the same under the same conditions. -/
theorem found_same_iff (part : live.Part m) (once : m.Once) (h : m.Finds a q x) (h' : live.Finds a q x') :
    x.bind m = x'.bind live ↔ m.Unshown live a q := by
  rw [← finds_same_iff part h h']
  constructor
  · intro same
    cases x with
    | none =>
      cases x' with
      | none => exact ⟨rfl, nofun⟩
      | some k' => exact absurd same.symm h'.bound
    | some k =>
      cases x' with
      | none => exact absurd same h.bound
      | some k' =>
        obtain ⟨v, hv⟩ := Option.ne_none_iff_exists'.mp h'.bound
        have here : m k = some v := same.trans hv
        obtain rfl := once k k' v here (part k' v hv)
        refine ⟨rfl, ?_⟩
        rintro _ ⟨⟩
        exact h'.bound
  · rintro ⟨rfl, bound⟩
    cases x with
    | none => rfl
    | some k =>
      obtain ⟨v, hv⟩ := Option.ne_none_iff_exists'.mp (bound k rfl)
      rw [Option.bind_some, Option.bind_some, hv, part k v hv]

/-- The first bound prefix of all, none if there is none. -/
def IsFirst (m : PrefixMap κ) : Option (List Bool) → Prop
  | none => ∀ k, m k = none
  | some k => m.Least [] k

/-- The first bound prefix of all is live, if there is one. -/
def FirstUnshown (m live : PrefixMap κ) : Prop := ∀ k, m.Least [] k → live k ≠ none

theorem first_of_all_same_iff (part : live.Part m) (once : m.Once) (h : m.IsFirst x) (h' : live.IsFirst x') :
    x.bind m = x'.bind live ↔ m.FirstUnshown live := by
  cases x with
  | none =>
    cases x' with
    | none => exact iff_of_true rfl fun k here => absurd (h k) here.bound
    | some k' => exact absurd (part.none (h k')) h'.bound
  | some k =>
    have here : m.Least [] k := h
    obtain ⟨v, hv⟩ := Option.ne_none_iff_exists'.mp here.bound
    constructor
    · intro same
      cases x' with
      | none => exact absurd same here.bound
      | some k' =>
        have bound : live k' = some v := same.symm.trans hv
        obtain rfl := once k k' v hv (part k' v bound)
        intro k' here'
        rw [← here.unique here', bound]
        nofun
    · intro unshown
      have bound := unshown k here
      have here' := part.least here bound
      cases x' with
      | none => exact absurd (h' k) bound
      | some k' =>
        obtain rfl := here'.unique h'
        obtain ⟨w, hw⟩ := Option.ne_none_iff_exists'.mp bound
        rw [Option.bind_some, Option.bind_some, hw, part k w hw]

/-! ## The longest prefixes -/

/-- The bound prefixes of `q`, the longest first. -/
structure Prefixes (m : PrefixMap κ) (q : List Bool) (ks : List (List Bool)) : Prop where
  order : ks.Pairwise fun a b => b.length < a.length
  mem : ∀ k, k ∈ ks ↔ m k ≠ none ∧ k <+: q

theorem Prefixes.unique (h : m.Prefixes q ks) (h' : m.Prefixes q ks') : ks = ks' := by
  have irrefl : Std.Irrefl fun a b : List Bool => b.length < a.length := ⟨fun _ => lt_irrefl _⟩
  have asymm : Std.Antisymm fun a b : List Bool => b.length < a.length := ⟨fun _ _ less more => absurd less more.asymm⟩
  exact h.order.eq_of_mem_iff h'.order fun k => (h.mem k).trans (h'.mem k).symm

theorem Prefixes.part (h : m.Prefixes q ks) (part : live.Part m) :
    live.Prefixes q (ks.filter fun k => (live k).isSome) := by
  refine ⟨h.order.filter _, fun k => ?_⟩
  rw [List.mem_filter, h.mem, Option.isSome_iff_ne_none]
  constructor
  · rintro ⟨⟨_, ext⟩, bound⟩
    exact ⟨bound, ext⟩
  · rintro ⟨bound, ext⟩
    exact ⟨⟨part.bound bound, ext⟩, bound⟩

/-- A prefix that comes later is one of those that come before. -/
theorem Prefixes.tail (h : m.Prefixes q (k :: ks)) (later : k' ∈ ks) : k' <+: k ∧ k' ≠ k := by
  have less := (List.pairwise_cons.mp h.order).1 k' later
  have ext := ((h.mem k).mp List.mem_cons_self).2
  have ext' := ((h.mem k').mp (List.mem_cons_of_mem k later)).2
  refine ⟨List.prefix_of_prefix_length_le ext' ext less.le, ?_⟩
  rintro rfl
  exact lt_irrefl _ less

/-- A longest one comes first. -/
theorem longest_first (order : ks.Pairwise fun a b => b.length < a.length) (listed : k ∈ ks)
    (longest : ∀ k' ∈ ks, k'.length ≤ k.length) : ∃ rest, ks = k :: rest := by
  cases ks with
  | nil => cases listed
  | cons k₁ rest =>
    cases List.mem_cons.mp listed with
    | inl same => exact ⟨rest, by rw [same]⟩
    | inr later =>
      have less := (List.pairwise_cons.mp order).1 k later
      exact absurd (longest k₁ List.mem_cons_self) (Nat.not_le.mpr less)

/-- What is found of the longest prefix: nothing if it is marked. -/
def first (live : PrefixMap κ) (ks : List (List Bool)) : Option κ := ks.head?.bind live

/-- What is found of the second one: nothing if one of the two is marked. -/
def second (live : PrefixMap κ) : List (List Bool) → Option κ
  | k₁ :: k₂ :: _ => (live k₁).bind fun _ => live k₂
  | _ => none

/-- The longest bound prefix of `q` is live, or none is. -/
def BestUnshown (m live : PrefixMap κ) (q : List Bool) : Prop :=
  (∀ k, k <+: q → live k = none) ∨
    ∃ k, live k ≠ none ∧ k <+: q ∧ ∀ k', k' <+: q → m k' ≠ none → k' <+: k

/-- The two longest bound prefixes of `q` are live, or at most one is. -/
def SecondUnshown (m live : PrefixMap κ) (q : List Bool) : Prop :=
  (∀ k k', k <+: q → live k ≠ none → k' <+: q → live k' ≠ none → k = k') ∨
    ∃ k₁ k₂, live k₁ ≠ none ∧ live k₂ ≠ none ∧ k₁ <+: q ∧ k₂ <+: k₁ ∧ k₂ ≠ k₁ ∧
      ∀ k', k' <+: q → m k' ≠ none → k' = k₁ ∨ k' <+: k₂

/-- Nothing is found of the longest one only if there is none. -/
theorem first_eq_none (h : live.Prefixes q ks) : live.first ks = none ↔ ∀ k, k <+: q → live k = none := by
  cases ks with
  | nil =>
    refine iff_of_true rfl fun k ext => ?_
    by_contra bound
    exact List.not_mem_nil ((h.mem k).mpr ⟨bound, ext⟩)
  | cons k ks =>
    obtain ⟨bound, ext⟩ := (h.mem k).mp List.mem_cons_self
    exact iff_of_false bound fun none_ => bound (none_ k ext)

theorem first_same_iff (part : live.Part m) (h : m.Prefixes q ks) (h' : live.Prefixes q ks') :
    live.first ks = live.first ks' ↔ m.BestUnshown live q := by
  obtain rfl := h'.unique (h.part part)
  by_cases top : ∃ k rest, ks = k :: rest ∧ live k ≠ none
  · obtain ⟨k, rest, rfl, bound⟩ := top
    obtain ⟨v, hv⟩ := Option.ne_none_iff_exists'.mp bound
    have ext := ((h.mem k).mp List.mem_cons_self).2
    refine iff_of_true (by simp [first, hv]) (.inr ⟨k, bound, ext, fun k' ext' bound' => ?_⟩)
    cases List.mem_cons.mp ((h.mem k').mpr ⟨bound', ext'⟩) with
    | inl same => rw [same]
    | inr later => exact (h.tail later).1
  · have nothing : live.first ks = none := by
      cases ks with
      | nil => rfl
      | cons k rest =>
        by_contra bound
        exact top ⟨k, rest, rfl, bound⟩
    rw [nothing, eq_comm, first_eq_none h']
    constructor
    · exact .inl
    · rintro (none_ | ⟨k, bound, ext, longest⟩)
      · exact none_
      · have listed := (h.mem k).mpr ⟨part.bound bound, ext⟩
        obtain ⟨rest, rfl⟩ := longest_first h.order listed fun k' listed' =>
          (longest k' ((h.mem k').mp listed').2 ((h.mem k').mp listed').1).length_le
        exact absurd ⟨k, rest, rfl, bound⟩ top

/-- Nothing is found of the second one only if there is no second one. -/
theorem second_eq_none (h : live.Prefixes q ks) :
    live.second ks = none ↔ ∀ k k', k <+: q → live k ≠ none → k' <+: q → live k' ≠ none → k = k' := by
  match ks, h with
  | [], h =>
    refine iff_of_true rfl fun k k' ext bound _ _ => ?_
    exact absurd ((h.mem k).mpr ⟨bound, ext⟩) List.not_mem_nil
  | [k₁], h =>
    refine iff_of_true rfl fun k k' ext bound ext' bound' => ?_
    have one := (h.mem k).mpr ⟨bound, ext⟩
    have other := (h.mem k').mpr ⟨bound', ext'⟩
    rw [List.mem_singleton] at one other
    exact one.trans other.symm
  | k₁ :: k₂ :: ks, h =>
    obtain ⟨bound₁, ext₁⟩ := (h.mem k₁).mp List.mem_cons_self
    obtain ⟨bound₂, ext₂⟩ := (h.mem k₂).mp (List.mem_cons_of_mem k₁ List.mem_cons_self)
    obtain ⟨v, hv⟩ := Option.ne_none_iff_exists'.mp bound₁
    refine iff_of_false (by simpa [second, hv] using bound₂) fun same => ?_
    exact (h.tail List.mem_cons_self).2 (same k₂ k₁ ext₂ bound₂ ext₁ bound₁)

/-- The two longest ones come first. -/
theorem Prefixes.two {k₁ k₂ : List Bool} (h : m.Prefixes q ks) (listed₁ : k₁ ∈ ks) (listed₂ : k₂ ∈ ks)
    (under : k₂ <+: k₁) (other : k₂ ≠ k₁) (longest : ∀ k' ∈ ks, k' = k₁ ∨ k' <+: k₂) :
    ∃ rest, ks = k₁ :: k₂ :: rest := by
  obtain ⟨rest, rfl⟩ : ∃ rest, ks = k₁ :: rest := by
    refine longest_first h.order listed₁ fun k' listed => ?_
    cases longest k' listed with
    | inl same => rw [same]
    | inr short => exact (short.trans under).length_le
  obtain ⟨rest', rfl⟩ : ∃ rest', rest = k₂ :: rest' := by
    refine longest_first (List.pairwise_cons.mp h.order).2 ((List.mem_cons.mp listed₂).resolve_left other) fun k' later => ?_
    have short := (longest k' (List.mem_cons_of_mem k₁ later)).resolve_left (h.tail later).2
    exact short.length_le
  exact ⟨rest', rfl⟩

theorem second_same_iff (part : live.Part m) (h : m.Prefixes q ks) (h' : live.Prefixes q ks') :
    live.second ks = live.second ks' ↔ m.SecondUnshown live q := by
  obtain rfl := h'.unique (h.part part)
  by_cases both : ∃ k₁ k₂ rest, ks = k₁ :: k₂ :: rest ∧ live k₁ ≠ none ∧ live k₂ ≠ none
  · obtain ⟨k₁, k₂, rest, rfl, bound₁, bound₂⟩ := both
    obtain ⟨v₁, hv₁⟩ := Option.ne_none_iff_exists'.mp bound₁
    obtain ⟨v₂, hv₂⟩ := Option.ne_none_iff_exists'.mp bound₂
    have under := h.tail List.mem_cons_self
    have ext₁ := ((h.mem k₁).mp List.mem_cons_self).2
    have ext₂ := under.1.trans ext₁
    refine iff_of_true (by simp [second, hv₁, hv₂])
      (.inr ⟨k₁, k₂, bound₁, bound₂, ext₁, under.1, under.2, fun k' ext' bound' => ?_⟩)
    cases List.mem_cons.mp ((h.mem k').mpr ⟨bound', ext'⟩) with
    | inl same => exact .inl same
    | inr later =>
      cases List.mem_cons.mp later with
      | inl same => exact .inr (by rw [same])
      | inr later =>
        have less := (List.pairwise_cons.mp (List.pairwise_cons.mp h.order).2).1 k' later
        exact .inr (List.prefix_of_prefix_length_le ext' ext₂ less.le)
  · have nothing : live.second ks = none := by
      match ks, both with
      | [], _ => rfl
      | [_], _ => rfl
      | k₁ :: k₂ :: rest, both =>
        by_contra some_
        cases top : live k₁ with
        | none => simp [second, top] at some_
        | some v => exact both ⟨k₁, k₂, rest, rfl, by simp [top], by simpa [second, top] using some_⟩
    rw [nothing, eq_comm, second_eq_none h']
    constructor
    · exact .inl
    · rintro (few | ⟨k₁, k₂, bound₁, bound₂, ext₁, under, other, longest⟩)
      · exact few
      · have listed₁ := (h.mem k₁).mpr ⟨part.bound bound₁, ext₁⟩
        have listed₂ := (h.mem k₂).mpr ⟨part.bound bound₂, under.trans ext₁⟩
        obtain ⟨rest, rfl⟩ := h.two listed₁ listed₂ under other fun k' listed =>
          longest k' ((h.mem k').mp listed).2 ((h.mem k').mp listed).1
        exact absurd ⟨k₁, k₂, rest, rfl, bound₁, bound₂⟩ both

end SonicUtils.Radix.PrefixMap
