import Mathlib.Data.Set.Card
import SonicUtils.Lib.BitTrie

/-!
# What a radix table is for

A finite map from prefixes, which are bit strings, to values. The order of
prefixes is the lexicographic one, a prefix before its extensions.
-/

namespace SonicUtils.Radix

open BitTrie

abbrev PrefixMap (κ : Type) := List Bool → Option κ

namespace PrefixMap

variable {κ : Type}

def empty : PrefixMap κ := fun _ => none

def bind (m : PrefixMap κ) (k : List Bool) (v : κ) : PrefixMap κ := Function.update m k (some v)

def unbind (m : PrefixMap κ) (k : List Bool) : PrefixMap κ := Function.update m k none

/-- A binding is added unless the prefix has one. -/
def insert (m : PrefixMap κ) (k : List Bool) (v : κ) : PrefixMap κ :=
  if (m k).isSome then m else m.bind k v

/-- No prefix is bound to the value. -/
def Unused (m : PrefixMap κ) (v : κ) : Prop := ∀ k, m k ≠ some v

/-- The prefix is bound, of at most `n` bits, and a prefix of `a`. -/
def Qualifies (m : PrefixMap κ) (a : Nat → Bool) (n : Nat) (k : List Bool) : Prop :=
  (∃ v, m k = some v) ∧ k.length ≤ n ∧ Covers k a

/-- The value of the longest prefix that qualifies, none if there is none. -/
def IsBest (m : PrefixMap κ) (a : Nat → Bool) (n : Nat) : Option κ → Prop
  | none => ∀ k, ¬ m.Qualifies a n k
  | some v => ∃ k, m k = some v ∧ m.Qualifies a n k ∧
      ∀ k', m.Qualifies a n k' → k'.length ≤ k.length

/-- The value of the least bound prefix that is greater than `k`, none if there
is none. -/
def IsNext (m : PrefixMap κ) (k : List Bool) : Option κ → Prop
  | none => ∀ k' v, m k' = some v → ¬ k < k'
  | some v => ∃ k₁, m k₁ = some v ∧ k < k₁ ∧ ∀ k' v', m k' = some v' → k < k' → ¬ k' < k₁

/-- Some bound prefix of `k` goes on in `k` with a set bit; of the bound prefixes
that extend it, some go on with a clear bit and none with a set one. -/
def Misses (m : PrefixMap κ) (k : List Bool) : Prop :=
  ∃ p, m p ≠ none ∧ p ++ [true] <+: k ∧ (∀ k', p ++ [true] <+: k' → m k' = none) ∧
    ∃ k', p ++ [false] <+: k' ∧ m k' ≠ none

/-- The bindings of values that satisfy `p`. -/
def filter (m : PrefixMap κ) (p : κ → Bool) : PrefixMap κ := fun k => (m k).filter p

/-- The values of the map, each once, in the order of their prefixes. -/
structure ListedBy (m : PrefixMap κ) (vs : List κ) : Prop where
  once : vs.Nodup
  ordered : ∃ es : List (Entry κ), es.map Prod.snd = vs ∧ (es.Pairwise fun a b => a.1 < b.1) ∧
    ∀ k v, m k = some v ↔ (k, v) ∈ es

/-- The trie holds the bindings of the map. -/
def StoredIn {τ : Type} (m : PrefixMap κ) (t : BinaryTree (Node τ κ)) : Prop :=
  ∀ k v, m k = some v ↔ (k, v) ∈ entries t

/-- The bindings of a list. -/
def ofEntries (es : List (Entry κ)) : PrefixMap κ := fun k => (es.find? fun e => e.1 = k).map Prod.snd

variable {τ : Type} {m : PrefixMap κ} {t t' : BinaryTree (Node τ κ)} {k : List Bool} {v : κ}

theorem unused_empty : (empty : PrefixMap κ).Unused v := fun _ => by simp [PrefixMap.empty]

theorem insert_apply (k' : List Bool) :
    m.insert k v k' = if k' = k ∧ m k = none then some v else m k' := by
  cases hk : m k with
  | none =>
    by_cases same : k' = k <;> simp [PrefixMap.insert, PrefixMap.bind, hk, same]
  | some w => simp [PrefixMap.insert, hk]

theorem unbind_insert (absent : m k = none) : (m.insert k v).unbind k = m := by
  funext k'
  by_cases same : k' = k
  · simp [PrefixMap.unbind, same, absent]
  · simp [PrefixMap.unbind, same, insert_apply]

theorem Unused.insert {w : κ} (h : m.Unused v) (ne : w ≠ v) : (m.insert k w).Unused v := by
  intro k'
  rw [insert_apply]
  split
  · simpa using ne
  · exact h k'

theorem Unused.key {k' : List Bool} (h : m.Unused v) (bound : m.insert k v k' = some v) : k' = k := by
  rw [insert_apply] at bound
  split at bound
  · rename_i new
    exact new.1
  · exact absurd bound (h k')

theorem StoredIn.empty : (empty : PrefixMap κ).StoredIn (.nil : BinaryTree (Node τ κ)) := by
  intro k v
  simp [PrefixMap.empty]

/-- A trie of the same bindings and one new one. -/
theorem StoredIn.insert (h : m.StoredIn t) (free : ∀ w, (k, w) ∉ entries t)
    (bound : ∀ e, e ∈ entries t' ↔ e = (k, v) ∨ e ∈ entries t) : (m.insert k v).StoredIn t' := by
  have none : m k = none := by
    apply Option.eq_none_iff_forall_ne_some.mpr
    intro w hw
    exact free w ((h k w).mp hw)
  intro k' w
  rw [bound, ← h k' w]
  by_cases same : k' = k
  · subst same
    simp [PrefixMap.insert, PrefixMap.bind, none, eq_comm]
  · simp [PrefixMap.insert, PrefixMap.bind, none, same]

theorem StoredIn.keep (h : m.StoredIn t) {w : κ} (bound : (k, w) ∈ entries t) :
    (m.insert k v).StoredIn t := by
  have same : m.insert k v = m := by simp [PrefixMap.insert, (h k w).mpr bound]
  rwa [same]

theorem StoredIn.unbind {s : List Bool} (h : m.StoredIn t) (trie : Trie s t) (here : (k, v) ∈ entries t)
    (bound : ∀ e, e ∈ entries t' ↔ e ∈ entries t ∧ e ≠ (k, v)) : (m.unbind k).StoredIn t' := by
  intro k' w
  rw [bound, ← h k' w]
  by_cases same : k' = k
  · subst same
    simp only [PrefixMap.unbind, Function.update_self, reduceCtorEq, false_iff, not_and, not_not]
    intro hw
    rw [entries_functional trie ((h k' w).mp hw) here]
  · simp [PrefixMap.unbind, same]

theorem StoredIn.unused_iff (h : m.StoredIn t) : m.Unused v ↔ ∀ k, (k, v) ∉ entries t :=
  forall_congr' fun k => not_congr (h k v)

theorem storedIn_ofEntries {s : List Bool} (trie : Trie s t) : (ofEntries (entries t)).StoredIn t := by
  intro k v
  unfold ofEntries
  rw [Option.map_eq_some_iff]
  constructor
  · rintro ⟨e, find, rfl⟩
    have key : e.1 = k := by simpa using List.find?_some find
    rw [← key]
    exact List.mem_of_find?_eq_some find
  · intro bound
    obtain ⟨e, find⟩ := Option.isSome_iff_exists.mp
      (List.find?_isSome (p := fun e : Entry κ => decide (e.1 = k)).mpr ⟨(k, v), bound, by simp⟩)
    have key : e.1 = k := by simpa using List.find?_some find
    have here : (k, e.2) ∈ entries t := key ▸ List.mem_of_find?_eq_some find
    exact ⟨e, find, entries_functional trie here bound⟩

theorem ListedBy.filter {vs : List κ} (h : m.ListedBy vs) (p : κ → Bool) :
    (m.filter p).ListedBy (vs.filter p) := by
  obtain ⟨once, es, rfl, order, all⟩ := h
  refine ⟨once.filter p, es.filter fun e => p e.2, ?_, order.filter _, fun k v => ?_⟩
  · rw [List.filter_map]
    rfl
  · rw [PrefixMap.filter, Option.filter_eq_some_iff, all, List.mem_filter]

theorem ListedBy.card {vs : List κ} (h : m.ListedBy vs) : {k | m k ≠ none}.ncard = vs.length := by
  obtain ⟨_, es, rfl, order, all⟩ := h
  have keys : (es.map Prod.fst).Nodup := (List.pairwise_map.mpr order).imp fun less => less.ne
  have same : {k | m k ≠ none} = ((es.map Prod.fst).toFinset : Set (List Bool)) := by
    ext k
    simp only [Set.mem_ofPred_eq, Option.ne_none_iff_exists', List.coe_toFinset, List.mem_map, Prod.exists]
    constructor
    · rintro ⟨v, bound⟩
      exact ⟨k, v, (all k v).mp bound, rfl⟩
    · rintro ⟨k', v, listed, rfl⟩
      exact ⟨v, (all k' v).mpr listed⟩
  rw [same, Set.ncard_coe_finset, List.toFinset_card_of_nodup keys, List.length_map, List.length_map]

end PrefixMap

end SonicUtils.Radix
