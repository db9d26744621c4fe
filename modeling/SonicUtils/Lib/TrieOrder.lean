import SonicUtils.Lib.BitTrie

/-!
# Order in compressed binary tries

Where the bindings of a trie with a hole stand against a bit string `q`.

* `before_lt`, `lt_after`: around a hole on the way of `q`;
* `lt_of_clear`, `lt_of_set`: beside the way of `q`;
* `labels_unique`: the bindings determine the labels of the nodes.
-/

namespace SonicUtils.BitTrie

open PtrTree

variable {τ κ : Type} {fs gs : List (Frame (Node τ κ))} {f : Frame (Node τ κ)} {e : Entry κ}
  {q s : List Bool}

/-! ## Strings -/

theorem lt_of_longer {a b : List Bool} (p : a <+: b) (longer : a.length < b.length) : a < b := by
  obtain ⟨tail, rfl⟩ := p
  cases tail with
  | nil => simp at longer
  | cons b tail => exact lt_append_cons a tail b

theorem lt_of_parts {a b : List Bool} (clear : s ++ [false] <+: a) (set : s ++ [true] <+: b) :
    a < b := by
  obtain ⟨u, rfl⟩ := clear
  obtain ⟨v, rfl⟩ := set
  simpa using clear_lt_set s u v

theorem not_both {k : List Bool} (clear : s ++ [false] <+: k) (set : s ++ [true] <+: k) : False :=
  lt_irrefl k (lt_of_parts clear set)

theorem not_both_sides {k : List Bool} {b : Bool} (way : s ++ [b] <+: k) (other : s ++ [!b] <+: k) : False := by
  cases b with
  | false => exact not_both way other
  | true => exact not_both other way

/-- One string extends the other, or they part. -/
theorem extends_or_part (a b : List Bool) :
    a <+: b ∨ b <+: a ∨ ∃ s c, s ++ [c] <+: a ∧ s ++ [!c] <+: b := by
  induction a generalizing b with
  | nil => exact .inl List.nil_prefix
  | cons x a ih =>
    cases b with
    | nil => exact .inr (.inl List.nil_prefix)
    | cons y b =>
      by_cases same : y = x
      · subst same
        rcases ih b with short | long | ⟨s, c, here, there⟩
        · exact .inl (List.cons_prefix_cons.mpr ⟨rfl, short⟩)
        · exact .inr (.inl (List.cons_prefix_cons.mpr ⟨rfl, long⟩))
        · exact .inr (.inr ⟨y :: s, c, List.cons_prefix_cons.mpr ⟨rfl, here⟩, List.cons_prefix_cons.mpr ⟨rfl, there⟩⟩)
      · have other : y = !x := Bool.eq_not_of_ne same
        exact .inr (.inr ⟨[], x, by simp, by simp [other]⟩)

/-- Two strings part once. -/
theorem part_unique {a b p : List Bool} {c d : Bool} (ha : s ++ [c] <+: a) (hb : s ++ [!c] <+: b) (ha' : p ++ [d] <+: a)
    (hb' : p ++ [!d] <+: b) : s = p := by
  have not_longer {s p : List Bool} {c d : Bool} (ha : s ++ [c] <+: a) (hb : s ++ [!c] <+: b) (ha' : p ++ [d] <+: a)
      (hb' : p ++ [!d] <+: b) : p.length ≤ s.length := by
    by_contra longer
    have way : s ++ [c] <+: p :=
      List.prefix_of_prefix_length_le ha ((List.prefix_append _ _).trans ha') (by simp; omega)
    exact not_both_sides (way.trans ((List.prefix_append _ _).trans hb')) hb
  have short : s <+: a := (List.prefix_append _ _).trans ha
  have short' : p <+: a := (List.prefix_append _ _).trans ha'
  exact (List.prefix_of_prefix_length_le short short' (not_longer ha' hb' ha hb)).eq_of_length_le
    (not_longer ha hb ha' hb')

theorem not_lt_of_extends {a b : List Bool} (p : a <+: b) : ¬ b < a := by
  rcases p.length_le.eq_or_lt with same | longer
  · rw [p.eq_of_length same]
    exact lt_irrefl b
  · exact (lt_of_longer p longer).asymm

/-- What is between a string and one that extends it extends it too. -/
theorem extends_of_between {a b k : List Bool} (ext : a <+: b) (low : a < k) (high : ¬ b < k) : a <+: k := by
  induction a generalizing b k with
  | nil => exact List.nil_prefix
  | cons x a ih =>
    obtain ⟨tail, rfl⟩ := ext
    cases k with
    | nil => cases low
    | cons y k =>
      rw [List.cons_append, List.cons_lt_cons_iff, not_or] at high
      rcases List.cons_lt_cons_iff.mp low with first | ⟨rfl, low'⟩
      · exact absurd first high.1
      · have rest := ih (List.prefix_append a tail) low' fun less => high.2 ⟨rfl, less⟩
        exact List.cons_prefix_cons.mpr ⟨rfl, rest⟩

theorem not_beyond (b : Bool) : ¬ s ++ [b] <+: s := by
  intro p
  have longer := p.length_le
  rw [List.length_append, List.length_singleton] at longer
  omega

/-! ## Around a hole -/

theorem mem_before (h : e ∈ entriesBefore fs) :
    ∃ f ∈ fs, e ∈ own f.node ∨ (f.side = true ∧ e ∈ entries f.other) := by
  induction fs with
  | nil => simp [entriesBefore] at h
  | cons f fs ih =>
    simp only [entriesBefore, List.mem_append] at h
    rcases h with above | here | beside
    · obtain ⟨g, hg, spot⟩ := ih above
      exact ⟨g, by simp [hg], spot⟩
    · exact ⟨f, by simp, .inl here⟩
    · cases hs : f.side with
      | false => simp [hs] at beside
      | true => exact ⟨f, by simp, .inr ⟨hs, by simpa [hs] using beside⟩⟩

theorem mem_after (h : e ∈ entriesAfter fs) : ∃ f ∈ fs, f.side = false ∧ e ∈ entries f.other := by
  induction fs with
  | nil => simp [entriesAfter] at h
  | cons f fs ih =>
    simp only [entriesAfter, List.mem_append] at h
    rcases h with beside | above
    · cases hs : f.side with
      | false => exact ⟨f, by simp, hs, by simpa [hs] using beside⟩
      | true => simp [hs] at beside
    · obtain ⟨g, hg, spot⟩ := ih above
      exact ⟨g, by simp [hg], spot⟩

theorem entriesBefore_append : entriesBefore (gs ++ fs) = entriesBefore fs ++ entriesBefore gs := by
  induction gs with
  | nil => simp [entriesBefore]
  | cons g gs ih => simp [entriesBefore, ih]

theorem TrieAbove.frame (above : TrieAbove fs) (hf : f ∈ fs) :
    f.node.2.stem ++ [f.side] <+: stemAbove fs ∧ Trie (f.node.2.stem ++ [!f.side]) f.other := by
  induction fs with
  | nil => simp at hf
  | cons g fs ih =>
    obtain ⟨stem, _, other, rest⟩ := above
    rcases List.mem_cons.mp hf with rfl | hf
    · exact ⟨List.prefix_refl _, other⟩
    · obtain ⟨way, trie⟩ := ih rest hf
      exact ⟨way.trans (stem.trans (List.prefix_append _ _)), trie⟩

/-- The node of a frame on the way of `q`. -/
theorem own_lt (way : f.node.2.stem ++ [f.side] <+: q) (he : e ∈ own f.node) : e.1 < q := by
  obtain ⟨_, stem⟩ := mem_own.mp he
  rw [← stem]
  have longer := way.length_le
  simp only [List.length_append, List.length_singleton] at longer
  exact lt_of_longer ((List.prefix_append _ _).trans way) (by omega)

theorem other_lt (trie : Trie (f.node.2.stem ++ [!f.side]) f.other) (side : f.side = true)
    (way : f.node.2.stem ++ [f.side] <+: q) (he : e ∈ entries f.other) : e.1 < q := by
  rw [side] at trie way
  exact lt_of_parts (trie.key_extends he) way

theorem lt_other (trie : Trie (f.node.2.stem ++ [!f.side]) f.other) (side : f.side = false)
    (way : f.node.2.stem ++ [f.side] <+: q) (he : e ∈ entries f.other) : q < e.1 := by
  rw [side] at trie way
  exact lt_of_parts way (trie.key_extends he)

theorem before_lt (above : TrieAbove fs) (way : stemAbove fs <+: q) (he : e ∈ entriesBefore fs) :
    e.1 < q := by
  obtain ⟨f, hf, spot⟩ := mem_before he
  obtain ⟨step, trie⟩ := above.frame hf
  rcases spot with here | ⟨side, beside⟩
  · exact own_lt (step.trans way) here
  · exact other_lt trie side (step.trans way) beside

/-- A binding that goes on from the stem above a hole is in the hole. -/
theorem mem_of_way {t : BinaryTree (Node τ κ)} (above : TrieAbove fs) (ext : stemAbove fs <+: e.1)
    (he : e ∈ entries (plug fs t)) : e ∈ entries t := by
  have apart {f : Frame (Node τ κ)} (hf : f ∈ fs) (he : e ∈ entries f.other) : False := by
    obtain ⟨step, other⟩ := above.frame hf
    have way := step.trans ext
    exact not_both_sides way (other.key_extends he)
  rw [entries_plug, List.mem_append, List.mem_append] at he
  rcases he with (early | here) | late
  · obtain ⟨f, hf, own | ⟨_, beside⟩⟩ := mem_before early
    · exfalso
      have longer := (above.frame hf).1.length_le
      have shorter := ext.length_le
      rw [← (mem_own.mp own).2] at shorter
      simp only [List.length_append, List.length_singleton] at longer
      omega
    · exact (apart hf beside).elim
  · exact here
  · obtain ⟨f, hf, _, beside⟩ := mem_after late
    exact (apart hf beside).elim

/-- A binding that extends the stem of a node is at or below it. -/
theorem mem_of_extends {x : Node τ κ} {l r : BinaryTree (Node τ κ)}
    (trie : Trie [] (plug fs (.node x l r))) (ext : x.2.stem <+: e.1)
    (he : e ∈ entries (plug fs (.node x l r))) : e ∈ entries (.node x l r) := by
  obtain ⟨below, above, _⟩ := trie_plug.mp trie
  exact mem_of_way above (below.1.trans ext) he

/-- Only the way down to a node has shorter stems that it extends. -/
theorem on_way {x y : Node τ κ} {l r : BinaryTree (Node τ κ)} (trie : Trie [] (plug fs (.node x l r)))
    (hy : y ∈ nodes (plug fs (.node x l r))) (ext : y.2.stem <+: x.2.stem) :
    y = x ∨ ∃ f ∈ fs, f.node = y := by
  obtain ⟨⟨stem, _, left, right⟩, above, _⟩ := trie_plug.mp trie
  rcases mem_nodes_plug.mp hy with within | outside
  · simp only [nodes_node, List.mem_cons, List.mem_append] at within
    rcases within with rfl | inl | inr
    · exact .inl rfl
    · exact absurd ((left.stem_extends inl).trans ext) (not_beyond _)
    · exact absurd ((right.stem_extends inr).trans ext) (not_beyond _)
  · right
    obtain ⟨f, hf, here⟩ := List.mem_flatMap.mp outside
    rcases List.mem_cons.mp here with rfl | beside
    · exact ⟨f, hf, rfl⟩
    · obtain ⟨step, other⟩ := above.frame hf
      have way := step.trans stem
      exact (not_both_sides way ((other.stem_extends beside).trans ext)).elim

/-- Nodes whose stems extend that of a node are at or below it. -/
theorem below_of_extends {x y : Node τ κ} {l r : BinaryTree (Node τ κ)} (trie : Trie [] (plug fs (.node x l r)))
    (hy : y ∈ nodes (plug fs (.node x l r))) (ext : x.2.stem <+: y.2.stem) : y ∈ nodes (.node x l r) := by
  obtain ⟨⟨stem, _⟩, above, _⟩ := trie_plug.mp trie
  rcases mem_nodes_plug.mp hy with within | outside
  · exact within
  · obtain ⟨f, hf, here⟩ := List.mem_flatMap.mp outside
    obtain ⟨step, other⟩ := above.frame hf
    have way := step.trans (stem.trans ext)
    rcases List.mem_cons.mp here with rfl | beside
    · exact absurd way (not_beyond _)
    · exact (not_both_sides way (other.stem_extends beside)).elim

/-! ## A binding more or less -/

theorem bound_of_split {t : BinaryTree (Node τ κ)} {e₀ : Entry κ} {before after es : List (Entry κ)}
    (trie : Trie s t) (old : entries t = before ++ e₀ :: after) (new : es = before ++ after) (e : Entry κ) :
    e ∈ es ↔ e ∈ entries t ∧ e ≠ e₀ := by
  have distinct : (entries t).Nodup := (sorted_entries trie).imp fun lt same => by simp [same] at lt
  rw [old, List.nodup_middle, List.nodup_cons] at distinct
  rw [old, new]
  constructor
  · intro kept
    refine ⟨?_, fun same => distinct.1 (same ▸ kept)⟩
    simp only [List.mem_append, List.mem_cons] at kept ⊢
    tauto
  · rintro ⟨listed, ne⟩
    simp only [List.mem_append, List.mem_cons] at listed ⊢
    tauto

theorem entries_at (fs : List (Frame (Node τ κ))) {x : Node τ κ} {l r : BinaryTree (Node τ κ)} {v : κ}
    (val : x.2.val = some v) :
    entries (plug fs (.node x l r)) =
      entriesBefore fs ++ (x.2.stem, v) :: (entries l ++ entries r ++ entriesAfter fs) := by
  simp [entries_plug, own, val]

/-! ## One trie for the bindings -/

/-- Two strings that part after `s` have no longer prefix in common. -/
theorem common_prefix {p a b : List Bool} (pa : p <+: a) (pb : p <+: b) (clear : s ++ [false] <+: a)
    (set : s ++ [true] <+: b) : p <+: s := by
  rcases le_or_gt p.length s.length with short | long
  · exact List.prefix_of_prefix_length_le pa ((List.prefix_append s [false]).trans clear) short
  · have step : s ++ [false] <+: p := List.prefix_of_prefix_length_le clear pa (by simp; omega)
    exact (not_both (step.trans pb) set).elim

variable {t t' l r : BinaryTree (Node τ κ)} {x x' : Node τ κ}

/-- The stem of the root is the longest common prefix of all keys. -/
theorem Trie.root_longest (h : Trie s (.node x l r)) {p : List Bool}
    (all : ∀ e ∈ entries (.node x l r), p <+: e.1) : p <+: x.2.stem := by
  obtain ⟨_, two, left, right⟩ := h
  cases hv : x.2.val with
  | some v => exact all (x.2.stem, v) (List.mem_append_left _ (mem_own.mpr ⟨hv, rfl⟩))
  | none =>
    obtain ⟨a, ha⟩ := List.exists_mem_of_ne_nil _ (left.entries_ne_nil (two hv).1)
    obtain ⟨b, hb⟩ := List.exists_mem_of_ne_nil _ (right.entries_ne_nil (two hv).2)
    exact common_prefix (all a (by simp [ha])) (all b (by simp [hb])) (left.key_extends ha)
      (right.key_extends hb)

/-- The bindings of a key are at the root, on its left or on its right. -/
theorem Trie.mem_cases (h : Trie s (.node x l r)) (he : e ∈ entries (.node x l r)) :
    (e ∈ own x ∧ x.2.stem = e.1) ∨ (e ∈ entries l ∧ x.2.stem ++ [false] <+: e.1) ∨
      (e ∈ entries r ∧ x.2.stem ++ [true] <+: e.1) := by
  obtain ⟨_, _, left, right⟩ := h
  rcases List.mem_append.mp he with here | below
  · exact .inl ⟨here, (mem_own.mp here).2⟩
  · rcases List.mem_append.mp below with inl | inr
    · exact .inr (.inl ⟨inl, left.key_extends inl⟩)
    · exact .inr (.inr ⟨inr, right.key_extends inr⟩)

theorem Trie.val_iff (h : Trie s (.node x l r)) {v : κ} :
    x.2.val = some v ↔ (x.2.stem, v) ∈ entries (.node x l r) := by
  constructor
  · intro val
    exact List.mem_append_left _ (mem_own.mpr ⟨val, rfl⟩)
  · intro he
    rcases h.mem_cases he with ⟨here, _⟩ | ⟨_, way⟩ | ⟨_, way⟩
    · exact (mem_own.mp here).1
    · exact absurd way (not_beyond false)
    · exact absurd way (not_beyond true)

theorem Trie.mem_left_iff (h : Trie s (.node x l r)) :
    e ∈ entries l ↔ e ∈ entries (.node x l r) ∧ x.2.stem ++ [false] <+: e.1 := by
  constructor
  · intro inl
    exact ⟨by simp [inl], h.2.2.1.key_extends inl⟩
  · intro ⟨he, way⟩
    rcases h.mem_cases he with ⟨_, stem⟩ | ⟨inl, _⟩ | ⟨_, set⟩
    · exact absurd (stem ▸ way) (not_beyond false)
    · exact inl
    · exact (not_both way set).elim

theorem Trie.mem_right_iff (h : Trie s (.node x l r)) :
    e ∈ entries r ↔ e ∈ entries (.node x l r) ∧ x.2.stem ++ [true] <+: e.1 := by
  constructor
  · intro inr
    exact ⟨by simp [inr], h.2.2.2.key_extends inr⟩
  · intro ⟨he, way⟩
    rcases h.mem_cases he with ⟨_, stem⟩ | ⟨_, clear⟩ | ⟨inr, _⟩
    · exact absurd (stem ▸ way) (not_beyond true)
    · exact (not_both clear way).elim
    · exact inr

/-- A trie without bindings is empty. -/
theorem Trie.eq_nil (h : Trie s t) (none : ∀ e, e ∉ entries t) : t = .nil := by
  by_contra ne
  obtain ⟨e, he⟩ := List.exists_mem_of_ne_nil _ (h.entries_ne_nil ne)
  exact none e he

theorem labels_unique {s' : List Bool} (h : Trie s t) (h' : Trie s' t')
    (same : ∀ e, e ∈ entries t ↔ e ∈ entries t') : t.map Prod.snd = t'.map Prod.snd := by
  induction t generalizing s s' t' with
  | nil =>
    have empty := h'.eq_nil fun e he => by simpa using (same e).mpr he
    rw [empty]
  | node x l r ihl ihr =>
    cases t' with
    | nil => cases h.eq_nil fun e he => by simpa using (same e).mp he
    | node x' l' r' =>
      have stem : x.2.stem = x'.2.stem := by
        have down := h'.root_longest fun e he => h.root_extends_key ((same e).mpr he)
        have back := h.root_longest fun e he => h'.root_extends_key ((same e).mp he)
        exact down.eq_of_length_le back.length_le
      have val : x.2.val = x'.2.val := by
        apply Option.ext
        intro v
        rw [h.val_iff, h'.val_iff, same, stem]
      have label : x.2 = x'.2 := by
        cases hx : x.2
        cases hx' : x'.2
        simp_all
      have left := ihl h.2.2.1 h'.2.2.1 fun e => by rw [h.mem_left_iff, h'.mem_left_iff, same, stem]
      have right := ihr h.2.2.2 h'.2.2.2 fun e => by rw [h.mem_right_iff, h'.mem_right_iff, same, stem]
      rw [BinaryTree.map, BinaryTree.map, label, left, right]

/-! ## Height -/

/-- The nodes on one way are no more than the height. -/
theorem Trie.path_le_height (h : Trie s t) (p : List Bool) :
    ((nodes t).filter fun x => x.2.stem <+: p).length ≤ t.height := by
  induction t generalizing s with
  | nil => exact Nat.zero_le _
  | node x l r ihl ihr =>
    obtain ⟨_, _, left, right⟩ := h
    have shortL := ihl left
    have shortR := ihr right
    have one_side : (nodes l).filter (fun y => y.2.stem <+: p) = [] ∨ (nodes r).filter (fun y => y.2.stem <+: p) = [] := by
      by_contra both
      obtain ⟨someL, someR⟩ := not_or.mp both
      obtain ⟨y, hy⟩ := List.exists_mem_of_ne_nil _ someL
      obtain ⟨z, hz⟩ := List.exists_mem_of_ne_nil _ someR
      rw [List.mem_filter, decide_eq_true_eq] at hy hz
      exact not_both ((left.stem_extends hy.1).trans hy.2) ((right.stem_extends hz.1).trans hz.2)
    have here : ((nodes (.node x l r)).filter fun y => y.2.stem <+: p).length ≤
        ((nodes l).filter fun y => y.2.stem <+: p).length + ((nodes r).filter fun y => y.2.stem <+: p).length + 1 := by
      rw [nodes_node, List.filter_cons, List.filter_append]
      split <;> simp
    rw [BinaryTree.height]
    rcases one_side with none_ | none_
    · rw [none_, List.length_nil] at here
      omega
    · rw [none_, List.length_nil] at here
      omega

/-- Bound prefixes of one string are no more than the height. -/
theorem Trie.keys_le_height (h : Trie s t) {ks : List (List Bool)} {p : List Bool} (distinct : ks.Nodup)
    (bound : ∀ k ∈ ks, k <+: p ∧ ∃ v, (k, v) ∈ entries t) : ks.length ≤ t.height := by
  have inside : ks ⊆ ((nodes t).filter fun x => x.2.stem <+: p).map fun x => x.2.stem := by
    intro k hk
    obtain ⟨below, v, entry⟩ := bound k hk
    obtain ⟨x, hx, own⟩ := mem_entries.mp entry
    obtain ⟨_, rfl⟩ := mem_own.mp own
    exact List.mem_map_of_mem (List.mem_filter.mpr ⟨hx, decide_eq_true below⟩)
  have few := (List.subperm_of_subset distinct inside).length_le
  rw [List.length_map] at few
  exact few.trans (h.path_le_height p)

end SonicUtils.BitTrie
