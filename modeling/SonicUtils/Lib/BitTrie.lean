import Mathlib.Data.Bool.Basic
import Mathlib.Data.List.Lex
import SonicUtils.Lib.PtrTree

/-!
# Compressed binary tries

Every node has a stem, a bit string; the stems below a node extend its stem by
a clear bit on the left and by a set bit on the right. A node may bind a value
to its stem, and a node that does not has two children. A node also carries a
tag, such as its address.

* `trie_plug`: a filled trie is a trie in each of its two parts;
* `sorted_entries`: the preorder of a trie is the lexicographic order;
* `on_path`: a binding of a prefix of `a` is on the way that the bits of `a` take.
-/

namespace SonicUtils.BitTrie

open PtrTree

structure Label (κ : Type) where
  stem : List Bool
  val : Option κ

variable {τ κ : Type}

abbrev Node (τ κ : Type) := τ × Label κ

/-- The stem of the root extends `s`. -/
def Trie : List Bool → BinaryTree (Node τ κ) → Prop
  | _, .nil => True
  | s, .node x l r =>
    s <+: x.2.stem ∧ (x.2.val = none → l ≠ .nil ∧ r ≠ .nil) ∧
      Trie (x.2.stem ++ [false]) l ∧ Trie (x.2.stem ++ [true]) r

theorem Trie.stem_extends {s : List Bool} {t : BinaryTree (Node τ κ)} (h : Trie s t)
    {x : Node τ κ} (hx : x ∈ nodes t) : s <+: x.2.stem := by
  induction t generalizing s with
  | nil => simp at hx
  | node y l r ihl ihr =>
    obtain ⟨above, _, left, right⟩ := h
    rcases List.mem_cons.mp hx with rfl | below
    · exact above
    · rcases List.mem_append.mp below with inl | inr
      · exact above.trans ((List.prefix_append _ _).trans (ihl left inl))
      · exact above.trans ((List.prefix_append _ _).trans (ihr right inr))

theorem Trie.root_extends {s : List Bool} {x : Node τ κ} {l r : BinaryTree (Node τ κ)}
    (h : Trie s (.node x l r)) {y : Node τ κ} (hy : y ∈ nodes (.node x l r)) :
    x.2.stem <+: y.2.stem := by
  have here : Trie x.2.stem (.node x l r) := ⟨List.prefix_refl _, h.2⟩
  exact here.stem_extends hy

theorem Trie.shorten {s s' : List Bool} {t : BinaryTree (Node τ κ)} (h : Trie s t) (p : s' <+: s) :
    Trie s' t := by
  cases t with
  | nil => trivial
  | node x l r => exact ⟨p.trans h.1, h.2⟩

/-! ## Bindings -/

abbrev Entry (κ : Type) := List Bool × κ

def own (x : Node τ κ) : List (Entry κ) := x.2.val.toList.map fun v => (x.2.stem, v)

/-- The bindings of a trie in preorder. -/
def entries : BinaryTree (Node τ κ) → List (Entry κ)
  | .nil => []
  | .node x l r => own x ++ (entries l ++ entries r)

@[simp] theorem entries_nil : entries (.nil : BinaryTree (Node τ κ)) = [] := rfl

@[simp] theorem entries_node (x : Node τ κ) (l r : BinaryTree (Node τ κ)) :
    entries (.node x l r) = own x ++ (entries l ++ entries r) := rfl

@[simp] theorem mem_own {x : Node τ κ} {e : Entry κ} :
    e ∈ own x ↔ x.2.val = some e.2 ∧ x.2.stem = e.1 := by
  simp only [own, List.mem_map, Option.mem_toList]
  constructor
  · rintro ⟨v, hv, rfl⟩
    exact ⟨hv, rfl⟩
  · rintro ⟨hv, hs⟩
    exact ⟨e.2, hv, by rw [hs]⟩

theorem mem_entries {t : BinaryTree (Node τ κ)} {e : Entry κ} :
    e ∈ entries t ↔ ∃ x ∈ nodes t, e ∈ own x := by
  induction t with
  | nil => simp
  | node x l r ihl ihr =>
    simp only [entries_node, nodes_node, List.mem_append, List.mem_cons, ihl, ihr]
    constructor
    · rintro (h | ⟨y, hy, h⟩ | ⟨y, hy, h⟩)
      · exact ⟨x, .inl rfl, h⟩
      · exact ⟨y, .inr (.inl hy), h⟩
      · exact ⟨y, .inr (.inr hy), h⟩
    · rintro ⟨y, rfl | hy | hy, h⟩
      · exact .inl h
      · exact .inr (.inl ⟨y, hy, h⟩)
      · exact .inr (.inr ⟨y, hy, h⟩)

theorem entries_eq_flatMap (t : BinaryTree (Node τ κ)) : entries t = (nodes t).flatMap own := by
  induction t with
  | nil => rfl
  | node x l r ihl ihr => simp [ihl, ihr]

theorem Trie.key_extends {s : List Bool} {t : BinaryTree (Node τ κ)} (h : Trie s t)
    {e : Entry κ} (he : e ∈ entries t) : s <+: e.1 := by
  obtain ⟨x, hx, own⟩ := mem_entries.mp he
  exact (mem_own.mp own).2 ▸ h.stem_extends hx

theorem Trie.root_extends_key {s : List Bool} {x : Node τ κ} {l r : BinaryTree (Node τ κ)}
    (h : Trie s (.node x l r)) {e : Entry κ} (he : e ∈ entries (.node x l r)) : x.2.stem <+: e.1 := by
  obtain ⟨z, hz, here⟩ := mem_entries.mp he
  exact (mem_own.mp here).2 ▸ h.root_extends hz

/-- A leaf has a binding, so every trie has one. -/
theorem Trie.entries_ne_nil {s : List Bool} {t : BinaryTree (Node τ κ)} (h : Trie s t)
    (ne : t ≠ .nil) : entries t ≠ [] := by
  induction t generalizing s with
  | nil => exact absurd rfl ne
  | node x l r ihl _ =>
    obtain ⟨_, two, left, _⟩ := h
    cases hv : x.2.val with
    | none => simp [own, hv, ihl left (two hv).1]
    | some v => simp [own, hv]

/-! ## Order -/

theorem lt_append_cons (s a : List Bool) (b : Bool) : s < s ++ b :: a := by
  have tail : ([] : List Bool) < b :: a := List.nil_lt_cons b a
  have longer : s ++ [] < s ++ b :: a := List.append_left_lt tail
  rwa [List.append_nil] at longer

theorem clear_lt_set (s a b : List Bool) : s ++ false :: a < s ++ true :: b := by
  apply List.append_left_lt
  exact List.cons_lt_cons_iff.mpr (.inl (by decide))

/-- The bindings of a trie, in preorder, are in lexicographic order. -/
theorem sorted_entries {s : List Bool} {t : BinaryTree (Node τ κ)} (h : Trie s t) :
    (entries t).Pairwise fun a b => a.1 < b.1 := by
  induction t generalizing s with
  | nil => simp
  | node x l r ihl ihr =>
    obtain ⟨_, _, left, right⟩ := h
    have after_own {e : Entry κ} (b : Bool) (he : x.2.stem ++ [b] <+: e.1) : x.2.stem < e.1 := by
      obtain ⟨tail, he⟩ := he
      simpa [← he] using lt_append_cons x.2.stem tail b
    rw [entries_node, List.pairwise_append, List.pairwise_append]
    refine ⟨?_, ⟨ihl left, ihr right, ?_⟩, ?_⟩
    · cases hv : x.2.val <;> simp [own, hv]
    · intro a ha b hb
      obtain ⟨c, hc⟩ := left.key_extends ha
      obtain ⟨d, hd⟩ := right.key_extends hb
      simpa [← hc, ← hd] using clear_lt_set x.2.stem c d
    · intro a ha b hb
      rw [← (mem_own.mp ha).2]
      rcases List.mem_append.mp hb with inl | inr
      · exact after_own false (left.key_extends inl)
      · exact after_own true (right.key_extends inr)

/-- A key has one binding. -/
theorem entries_functional {s : List Bool} {t : BinaryTree (Node τ κ)} (h : Trie s t)
    {k : List Bool} {v w : κ} (hv : (k, v) ∈ entries t) (hw : (k, w) ∈ entries t) : v = w := by
  have order : ((entries t).map Prod.fst).Pairwise (· < ·) :=
    List.pairwise_map.mpr (sorted_entries h)
  have keys : ((entries t).map Prod.fst).Nodup := order.imp fun lt => lt.ne
  exact (Prod.mk.inj (List.inj_on_of_nodup_map keys hv hw rfl)).2

/-! ## Tries with a hole -/

/-- What the stems in the hole extend. -/
def stemAbove : List (Frame (Node τ κ)) → List Bool
  | [] => []
  | f :: _ => f.node.2.stem ++ [f.side]

def TrieAbove : List (Frame (Node τ κ)) → Prop
  | [] => True
  | f :: fs =>
    stemAbove fs <+: f.node.2.stem ∧ (f.node.2.val = none → f.other ≠ .nil) ∧
      Trie (f.node.2.stem ++ [!f.side]) f.other ∧ TrieAbove fs

/-- The hole may be left empty. -/
def MayBeEmpty : List (Frame (Node τ κ)) → Prop
  | [] => True
  | f :: _ => f.node.2.val ≠ none

theorem trie_fill {s : List Bool} {f : Frame (Node τ κ)} {t : BinaryTree (Node τ κ)} :
    Trie s (f.fill t) ↔ Trie (f.node.2.stem ++ [f.side]) t ∧ s <+: f.node.2.stem ∧
      (f.node.2.val = none → f.other ≠ .nil) ∧ Trie (f.node.2.stem ++ [!f.side]) f.other ∧
      (t = .nil → f.node.2.val ≠ none) := by
  cases f with
  | mk side x other =>
    cases side <;> simp only [Frame.fill, Trie, Bool.not_false, Bool.not_true] <;> tauto

theorem trie_plug {fs : List (Frame (Node τ κ))} {t : BinaryTree (Node τ κ)} :
    Trie [] (plug fs t) ↔ Trie (stemAbove fs) t ∧ TrieAbove fs ∧ (t = .nil → MayBeEmpty fs) := by
  induction fs generalizing t with
  | nil => simp [stemAbove, TrieAbove, MayBeEmpty]
  | cons f fs ih =>
    have full : f.fill t ≠ .nil := fill_ne_nil f t
    rw [plug_cons, ih, trie_fill]
    simp only [stemAbove, TrieAbove, MayBeEmpty, full, false_implies]
    tauto

/-- The bindings before and after the hole in preorder. -/
def entriesBefore : List (Frame (Node τ κ)) → List (Entry κ)
  | [] => []
  | f :: fs => entriesBefore fs ++ (own f.node ++ if f.side then entries f.other else [])

def entriesAfter : List (Frame (Node τ κ)) → List (Entry κ)
  | [] => []
  | f :: fs => (if f.side then [] else entries f.other) ++ entriesAfter fs

theorem entries_plug (fs : List (Frame (Node τ κ))) (t : BinaryTree (Node τ κ)) :
    entries (plug fs t) = entriesBefore fs ++ entries t ++ entriesAfter fs := by
  induction fs generalizing t with
  | nil => simp [entriesBefore, entriesAfter]
  | cons f fs ih =>
    rw [plug_cons, ih]
    cases f with
    | mk side x other => cases side <;> simp [Frame.fill, entriesBefore, entriesAfter]

theorem mem_entries_fill {f : Frame (Node τ κ)} {t : BinaryTree (Node τ κ)} {e : Entry κ} :
    e ∈ entries (f.fill t) ↔ e ∈ entries t ∨ e ∈ own f.node ∨ e ∈ entries f.other := by
  cases f with
  | mk side x other =>
    cases side <;> simp only [Frame.fill, entries_node, List.mem_append] <;> tauto

/-! ## Ways down -/

/-- The way to the hole takes the bits of `a`. -/
def Follows (a : Nat → Bool) (fs : List (Frame (Node τ κ))) : Prop :=
  ∀ f ∈ fs, f.side = a f.node.2.stem.length

/-- `k` is a prefix of the bits `a`. -/
def Covers (k : List Bool) (a : Nat → Bool) : Prop := ∀ i (h : i < k.length), k[i] = a i

theorem Covers.shorten {k m : List Bool} {a : Nat → Bool} (h : Covers m a) (p : k <+: m) :
    Covers k a := by
  intro i hi
  rw [p.getElem hi]
  exact h i (hi.trans_le p.length_le)

theorem Covers.next_bit {k s : List Bool} {b : Bool} {a : Nat → Bool} (h : Covers k a)
    (p : s ++ [b] <+: k) : a s.length = b := by
  have here := (h.shorten p) s.length (by simp)
  simpa using here.symm

/-- A binding of a prefix of `a` is at a node that the way down passes, or at
or below its end. -/
theorem on_path {a : Nat → Bool} {fs : List (Frame (Node τ κ))} {t : BinaryTree (Node τ κ)}
    (trie : TrieAbove fs) (follows : Follows a fs) {e : Entry κ} (covers : Covers e.1 a)
    (he : e ∈ entries (plug fs t)) : (∃ f ∈ fs, e ∈ own f.node) ∨ e ∈ entries t := by
  induction fs generalizing t with
  | nil => exact .inr he
  | cons f fs ih =>
    obtain ⟨_, _, other, above⟩ := trie
    rcases ih above (fun g hg => follows g (by simp [hg])) he with ⟨g, hg, mem⟩ | inside
    · exact .inl ⟨g, by simp [hg], mem⟩
    · have way := follows f (by simp)
      have astray : e ∉ entries f.other := by
        intro mem
        have bit := covers.next_bit (other.key_extends mem)
        rw [← way] at bit
        cases hs : f.side <;> simp [hs] at bit
      have split : e ∈ own f.node ∨ e ∈ entries t := by
        cases f with
        | mk side x sibling =>
          cases side <;> simpa [Frame.fill, -mem_own, astray] using inside
      exact split.imp (fun mem => ⟨f, by simp, mem⟩) id

/-- Below the end of a way down, because it is long enough or because there is
no child to go on to, no binding of a prefix of `a` is found. -/
theorem own_of_covers {a : Nat → Bool} {s : List Bool} {x : Node τ κ} {l r : BinaryTree (Node τ κ)}
    {m : Nat} (trie : Trie s (.node x l r))
    (stop : m ≤ x.2.stem.length ∨ (if a x.2.stem.length then r else l) = .nil) {e : Entry κ}
    (covers : Covers e.1 a) (short : e.1.length ≤ m) (he : e ∈ entries (.node x l r)) :
    e ∈ own x := by
  obtain ⟨_, _, left, right⟩ := trie
  have below {b : Bool} (p : x.2.stem ++ [b] <+: e.1) :
      a x.2.stem.length = b ∧ ¬ m ≤ x.2.stem.length := by
    have longer := p.length_le
    simp only [List.length_append, List.length_singleton] at longer
    exact ⟨covers.next_bit p, by omega⟩
  rcases List.mem_append.mp he with here | inside
  · exact here
  · exfalso
    rcases List.mem_append.mp inside with inl | inr
    · obtain ⟨bit, long⟩ := below (left.key_extends inl)
      have gone := stop.resolve_left long
      simp only [bit, Bool.false_eq_true, if_false] at gone
      simp [gone] at inl
    · obtain ⟨bit, long⟩ := below (right.key_extends inr)
      have gone := stop.resolve_left long
      simp only [bit, if_true] at gone
      simp [gone] at inr

/-- The stems above the hole get shorter on the way up. -/
theorem TrieAbove.stem_lt {fs : List (Frame (Node τ κ))} (trie : TrieAbove fs)
    {f : Frame (Node τ κ)} (hf : f ∈ fs) : f.node.2.stem.length < (stemAbove fs).length := by
  induction fs with
  | nil => simp at hf
  | cons g fs ih =>
    obtain ⟨above, _, _, rest⟩ := trie
    have longer := above.length_le
    simp only [stemAbove, List.length_append, List.length_singleton]
    rcases List.mem_cons.mp hf with rfl | hf
    · omega
    · have := ih rest hf
      omega

theorem TrieAbove.decreasing {fs : List (Frame (Node τ κ))} (trie : TrieAbove fs) :
    (fs.map Frame.node).Pairwise fun a b => b.2.stem.length < a.2.stem.length := by
  induction fs with
  | nil => simp
  | cons f fs ih =>
    obtain ⟨above, _, _, rest⟩ := trie
    have longer := above.length_le
    rw [List.map_cons, List.pairwise_cons]
    refine ⟨fun y hy => ?_, ih rest⟩
    obtain ⟨g, hg, rfl⟩ := List.mem_map.mp hy
    have := rest.stem_lt hg
    omega

/-! ## Depth -/

theorem Trie.height_le {s : List Bool} {t : BinaryTree (Node τ κ)} (h : Trie s t) {m : Nat}
    (bounded : ∀ x ∈ nodes t, x.2.stem.length ≤ m) (hs : s.length ≤ m + 1) :
    t.height + s.length ≤ m + 1 := by
  induction t generalizing s with
  | nil => simpa using hs
  | node x l r ihl ihr =>
    obtain ⟨above, _, left, right⟩ := h
    have here := bounded x (by simp)
    have longer := above.length_le
    have hl := ihl left (fun y hy => bounded y (by simp [hy])) (by simp; omega)
    have hr := ihr right (fun y hy => bounded y (by simp [hy])) (by simp; omega)
    simp only [List.length_append, List.length_singleton] at hl hr
    simp only [BinaryTree.height]
    omega

end SonicUtils.BitTrie
