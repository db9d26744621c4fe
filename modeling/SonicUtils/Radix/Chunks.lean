import SonicUtils.Radix.Sweep
import SonicUtils.Radix.Runs

/-!
# Walks in chunks

A call of `std_radix_walk` ends at the node where the loop is next. If it has used
up its count at a node with a left child, that is the left child, whose head has
not been visited; but a walk from a head starts behind it.

* `Post`: a head, with what its walk goes on with;
* `next_post`: the walk gets to the next head;
* `Visited`: what the calls of a walk visit together;
* `chunks_iff`: when that is what one call visits.
-/

namespace SonicUtils.Radix

open PtrTree BitTrie Loop

variable {rtt : Rtt} {t l r s : RtTree} {x : Node NodeId HeadId} {fs : List (Frame (Node NodeId HeadId))}
  {dir : WalkDir} {i : NodeId} {h : HeadId}

/-- A head and the left subtree of its node. -/
abbrev Post := HeadId × RtTree

/-- The heads of a tree in preorder. -/
def posts : RtTree → List Post
  | .nil => []
  | .node x l r => (x.2.val.toList.map fun h => (h, l)) ++ (posts l ++ posts r)

/-- Those after the hole. -/
def postsAfter : List (Frame (Node NodeId HeadId)) → List Post
  | [] => []
  | f :: fs => (if f.side then [] else posts f.other) ++ postsAfter fs

def heads (R : List Post) : List HeadId := R.map Prod.fst

@[simp] theorem heads_nil : heads [] = [] := rfl

@[simp] theorem heads_cons (s : Post) (R : List Post) : heads (s :: R) = s.1 :: heads R := rfl

@[simp] theorem heads_append (R S : List Post) : heads (R ++ S) = heads R ++ heads S := List.map_append

@[simp] theorem length_heads (R : List Post) : (heads R).length = R.length := List.length_map _

theorem heads_posts (t : RtTree) : heads (posts t) = (entries t).map Prod.snd := by
  induction t with
  | nil => rfl
  | node x l r ihl ihr =>
    cases val : x.2.val <;> simp [posts, entries, own, val, ihl, ihr]

theorem posts_ne_nil {stem : List Bool} (trie : Trie stem t) (some_ : t ≠ .nil) : posts t ≠ [] := by
  induction t generalizing stem with
  | nil => exact absurd rfl some_
  | node x l r ihl _ =>
    cases val : x.2.val with
    | some h => simp [posts, val]
    | none =>
      obtain ⟨_, bare, left, _⟩ := trie
      have inside := ihl left (bare val).1
      simp [posts, val, inside]

/-! ## One call -/

/-- A walk is at a node, and those heads are left to visit. -/
inductive Stand (t : RtTree) : WalkDir → NodeId → List Post → Prop
  | down {fs : List (Frame (Node NodeId HeadId))} {x : Node NodeId HeadId} {l r : RtTree} :
      plug fs (.node x l r) = t → Stand t .walkDown x.1 (posts (.node x l r) ++ postsAfter fs)
  | right {fs : List (Frame (Node NodeId HeadId))} {x : Node NodeId HeadId} {l r : RtTree} :
      plug fs (.node x l r) = t → Stand t .walkRight x.1 (posts r ++ postsAfter fs)
  | up {fs : List (Frame (Node NodeId HeadId))} {x : Node NodeId HeadId} {l r : RtTree} :
      plug fs (.node x l r) = t → Stand t .walkUp x.1 (postsAfter fs)

/-- The walk comes to the next head, or to its end. -/
inductive NextPost (rtt : Rtt) (t : RtTree) (w : Walk) : List Post → Prop
  | ended {w' : Walk} : Ends .noReturn (walkTurn (some passive)) w (none, w') → w'.calls = w.calls → w'.rtt = rtt →
      NextPost rtt t w []
  | visit {fs : List (Frame (Node NodeId HeadId))} {x : Node NodeId HeadId} {l r : RtTree} {h : HeadId} :
      plug fs (.node x l r) = t → x.2.val = some h →
      Leads (walkTurn (some passive)) w ⟨w.lcnt, .walkDown, some x.1, rtt, w.calls⟩ →
      NextPost rtt t w ((h, l) :: (posts l ++ (posts r ++ postsAfter fs)))

theorem NextPost.move {w w' : Walk} {R : List Post} (turn : walkTurn (some passive) w = .ok (.inl w'))
    (same : w'.lcnt = w.lcnt ∧ w'.calls = w.calls) (next : NextPost rtt t w' R) : NextPost rtt t w R := by
  cases next with
  | ended ends calls table => exact .ended (.head turn ends) (calls.trans same.2) table
  | visit place head leads => exact .visit place head (.head turn (same.1 ▸ same.2 ▸ leads))

variable {lcnt : UInt64} {calls : List HeadId}

theorem next_here {h : HeadId} (val : x.2.val = some h) :
    NextPost rtt (plug fs (.node x l r)) ⟨lcnt, .walkDown, some x.1, rtt, calls⟩
      (posts (.node x l r) ++ postsAfter fs) := by
  have all : posts (.node x l r) ++ postsAfter fs = (h, l) :: (posts l ++ (posts r ++ postsAfter fs)) := by
    simp [posts, val]
  rw [all]
  exact .visit rfl val (.refl _)

theorem next_down (rep : Represents rtt (plug fs (.node x l r))) (more : lcnt ≠ 0) :
    NextPost rtt (plug fs (.node x l r)) ⟨lcnt, .walkDown, some x.1, rtt, calls⟩
      (posts (.node x l r) ++ postsAfter fs) := by
  induction l generalizing fs x r with
  | nil =>
    cases val : x.2.val with
    | some h => exact next_here val
    | none =>
      have trie := (trie_plug.mp rep.trie).1
      exact absurd rfl (trie.2.1 val).1
  | node y yl yr ihl _ =>
    cases val : x.2.val with
    | some h => exact next_here val
    | none =>
      have below : Represents rtt (plug (⟨false, x, r⟩ :: fs) (.node y yl yr)) := rep
      apply NextPost.move (walk_down rep more calls val) ⟨rfl, rfl⟩
      simpa [posts, val, postsAfter, Frame.fill, enter] using ihl below

/-- From a node to the right, or up if there is nothing. -/
theorem next_enter (rep : Represents rtt (plug fs (.node x l r))) (more : lcnt ≠ 0)
    (up_ : NextPost rtt (plug fs (.node x l r)) ⟨lcnt, .walkUp, some x.1, rtt, calls⟩ (postsAfter fs)) :
    NextPost rtt (plug fs (.node x l r)) ⟨lcnt, .walkRight, some x.1, rtt, calls⟩ (posts r ++ postsAfter fs) := by
  apply NextPost.move (walk_right rep more calls) ⟨rfl, rfl⟩
  cases r with
  | nil => exact up_
  | node y yl yr =>
    have below : Represents rtt (plug (⟨true, x, l⟩ :: fs) (.node y yl yr)) := rep
    exact next_down below more

theorem next_up (rep : Represents rtt (plug fs (.node x l r))) (more : lcnt ≠ 0) :
    NextPost rtt (plug fs (.node x l r)) ⟨lcnt, .walkUp, some x.1, rtt, calls⟩ (postsAfter fs) := by
  induction fs generalizing x l r with
  | nil =>
    obtain ⟨⟨n, live, holds⟩, _⟩ := holds_at rep.linked
    have parent : n.rtnParent = none := holds.parent
    refine .ended (.done ?_) rfl rfl
    simp [walkTurn, node_of live, more, parent]
  | cons f fs ih =>
    apply NextPost.move (walk_up rep more calls) ⟨rfl, rfl⟩
    cases f with
    | mk side y o =>
      cases side with
      | false =>
        have above : Represents rtt (plug fs (.node y (.node x l r) o)) := rep
        exact next_enter above more (ih above)
      | true =>
        have above : Represents rtt (plug fs (.node y o (.node x l r))) := rep
        exact ih above

theorem next_post {R : List Post} (rep : Represents rtt t) (stand : Stand t dir i R) (more : lcnt ≠ 0) :
    NextPost rtt t ⟨lcnt, dir, some i, rtt, calls⟩ R := by
  cases stand with
  | down place =>
    subst place
    exact next_down rep more
  | right place =>
    subst place
    exact next_enter rep more (next_up rep more)
  | up place =>
    subst place
    exact next_up rep more

/-- What a call returns that stops at a head. -/
def Post.result : Post → Option HeadId
  | (h, .nil) => some h
  | (_, .node y _ _) => y.2.val

/-- How a call ends that may visit `n` of the heads that are left: it has visited all,
or it stops at the last one. -/
inductive Halt (t : RtTree) (R : List Post) (n : Nat) : Option HeadId → Prop
  | finished : R.length < n → Halt t R n none
  | cut {fs : List (Frame (Node NodeId HeadId))} {x : Node NodeId HeadId} {l r : RtTree} {h : HeadId} :
      plug fs (.node x l r) = t → x.2.val = some h → R[n - 1]? = some (h, l) →
      R.drop n = posts l ++ (posts r ++ postsAfter fs) → Halt t R n (Post.result (h, l))

theorem Halt.cons {R : List Post} {n : Nat} {res : Option HeadId} (p : Post) (halt : Halt t R n res) (more : n ≠ 0) :
    Halt t (p :: R) (n + 1) res := by
  cases halt with
  | finished few => exact .finished (by simpa using few)
  | cut place head here rest =>
    obtain ⟨k, rfl⟩ := Nat.exists_eq_succ_of_ne_zero more
    exact .cut place head (by simpa using here) (by simpa using rest)

/-- A call visits as many heads as its count says. -/
theorem chunk_spec {R : List Post} (rep : Represents rtt t) (stand : Stand t dir i R) (more : lcnt ≠ 0) :
    ∃ res w, Ends .noReturn (walkTurn (some passive)) ⟨lcnt, dir, some i, rtt, calls⟩ (res, w) ∧
      Halt t R lcnt.toNat res ∧ w.calls = calls ++ heads (R.take lcnt.toNat) ∧ w.rtt = rtt := by
  induction R generalizing dir i lcnt calls with
  | nil =>
    have next : NextPost rtt t ⟨lcnt, dir, some i, rtt, calls⟩ [] := next_post rep stand more
    cases next with
    | ended ends same table => exact ⟨none, _, ends, .finished (toNat_pos more), by simp [same], table⟩
  | cons p R ih =>
    have next : NextPost rtt t ⟨lcnt, dir, some i, rtt, calls⟩ (p :: R) := next_post rep stand more
    cases next with
    | @visit fs x l r h place head leads =>
      subst place
      have go := leads.trans (.single (walk_visit rep more calls head))
      have left := toNat_pred more
      have positive := toNat_pos more
      by_cases stops : lcnt - 1 = 0
      · rw [stops, UInt64.toNat_zero] at left
        have one : lcnt.toNat = 1 := by omega
        refine ⟨Post.result (h, l),
          ⟨0, (enter l (.walkRight, some x.1)).1, (enter l (.walkRight, some x.1)).2, rtt, calls ++ [h]⟩, ?_, ?_, ?_, rfl⟩
        · rw [stops] at go
          apply go.ends (.done _)
          cases l with
          | nil =>
            obtain ⟨⟨n, live, holds⟩, _⟩ := holds_at rep.linked
            simp [enter, walkTurn, node_of live, holds.rth, head, Post.result]
          | node y yl yr =>
            have below : Linked rtt.mem none (plug (⟨false, x, r⟩ :: fs) (.node y yl yr)) := rep.linked
            obtain ⟨⟨n, live, holds⟩, _⟩ := holds_at below
            simp [enter, walkTurn, node_of live, holds.rth, Post.result]
        · rw [one]
          exact .cut rfl head rfl rfl
        · simp [one]
      · obtain ⟨dir', i', entered, stand'⟩ : ∃ dir i, enter l (.walkRight, some x.1) = (dir, some i) ∧
            Stand (plug fs (.node x l r)) dir i (posts l ++ (posts r ++ postsAfter fs)) := by
          cases l with
          | nil => exact ⟨_, _, rfl, .right rfl⟩
          | node y yl yr => exact ⟨_, _, rfl, @Stand.down _ (⟨false, x, r⟩ :: fs) y yl yr rfl⟩
        rw [entered] at go
        obtain ⟨res, w, ends, halt, calls', table⟩ := ih stand' stops
        have count : lcnt.toNat = (lcnt - 1).toNat + 1 := by omega
        have more' : (lcnt - 1).toNat ≠ 0 := Nat.ne_of_gt (toNat_pos stops)
        refine ⟨res, w, go.ends ends, ?_, ?_, table⟩
        · rw [count]
          exact halt.cons _ more'
        · rw [calls', count]
          simp

/-- The heads that are left for a walk from a head, or from NULL. -/
inductive LeftFrom (t : RtTree) : Option HeadId → List Post → Prop
  | start : LeftFrom t none (posts t)
  | behind {fs : List (Frame (Node NodeId HeadId))} {x : Node NodeId HeadId} {l r : RtTree} {h : HeadId} :
      plug fs (.node x l r) = t → x.2.val = some h → LeftFrom t (some h) (posts r ++ postsAfter fs)

theorem call_spec {R : List Post} {rth : Option HeadId} (rep : Represents rtt t) (settled : Settled rtt)
    (left : LeftFrom t rth R) (cnt : Int32) :
    ∃ res, Returns (stdRadixWalk rtt rth (some passive) cnt) (res, heads (R.take (walkCount cnt).toNat), rtt) ∧
      Halt t R (walkCount cnt).toNat res := by
  have loop_ {dir : WalkDir} {rtn : Option NodeId} {res : Option HeadId} {w : Walk}
      (begins : walkStart rtt rth cnt = some ⟨walkCount cnt, dir, rtn, rtt, []⟩)
      (ends : Ends .noReturn (walkTurn (some passive)) ⟨walkCount cnt, dir, rtn, rtt, []⟩ (res, w))
      (calls : w.calls = heads (R.take (walkCount cnt).toNat)) (table : w.rtt = rtt) :
      Returns (stdRadixWalk rtt rth (some passive) cnt) (res, heads (R.take (walkCount cnt).toNat), rtt) := by
    obtain ⟨enough, run⟩ := ends
    refine ⟨enough, fun fuel more => ?_⟩
    simp only [stdRadixWalk, settled.ready.validate, ok_bind, begins, run fuel more, calls, table, pure_eq_ok]
  cases left with
  | start =>
    cases t with
    | nil =>
      have empty : rtt.rttRoot = none := rep.root
      have ends : Ends .noReturn (walkTurn (some passive)) ⟨walkCount cnt, .walkDown, rtt.rttRoot, rtt, []⟩
          (none, ⟨walkCount cnt, .walkDown, none, rtt, []⟩) := .done (by rw [empty]; rfl)
      exact ⟨none, loop_ rfl ends (by simp [posts]) rfl, .finished (toNat_pos (walkCount_ne_zero cnt))⟩
    | node x l r =>
      have stand : Stand (.node x l r) .walkDown x.1 (posts (.node x l r) ++ postsAfter []) := .down rfl
      rw [postsAfter, List.append_nil] at stand
      obtain ⟨res, w, ends, halt, calls, table⟩ := @chunk_spec _ _ _ _ _ [] _ rep stand (walkCount_ne_zero cnt)
      rw [← rep.root_node] at ends
      exact ⟨res, loop_ rfl ends calls table, halt⟩
  | @behind fs x l r h place head =>
    have stand : Stand t .walkRight x.1 (posts r ++ postsAfter fs) := .right place
    obtain ⟨res, w, ends, halt, calls, table⟩ := @chunk_spec _ _ _ _ _ [] _ rep stand (walkCount_ne_zero cnt)
    subst place
    have rtn : (rtt.heads h).rthRtn = some x.1 := ((holds_at rep.linked).2 h head).1
    refine ⟨res, loop_ ?_ ends calls table, halt⟩
    simp [walkStart, rtn]

/-! ## One call after the other -/

/-- Calls with the counts `cnts`, each from the head that the one before has returned,
up to NULL, with the heads that they visit. -/
inductive Session (rtt : Rtt) : (Nat → Int32) → Option HeadId → List HeadId → Prop
  | last {cnts : Nat → Int32} {rth : Option HeadId} {hs : List HeadId} :
      Returns (stdRadixWalk rtt rth (some passive) (cnts 0)) (none, hs, rtt) → Session rtt cnts rth hs
  | more {cnts : Nat → Int32} {rth : Option HeadId} {h : HeadId} {hs rest : List HeadId} :
      Returns (stdRadixWalk rtt rth (some passive) (cnts 0)) (some h, hs, rtt) →
      Session rtt (fun i => cnts (i + 1)) (some h) rest → Session rtt cnts rth (hs ++ rest)

theorem Session.unique {cnts : Nat → Int32} {rth : Option HeadId} {hs hs' : List HeadId}
    (run : Session rtt cnts rth hs) (run' : Session rtt cnts rth hs') : hs = hs' := by
  induction run generalizing hs' with
  | last call =>
    cases run' with
    | last call' =>
      cases call.unique call'
      rfl
    | more call' _ => cases call.unique call'
  | more call _ ih =>
    cases run' with
    | last call' => cases call.unique call'
    | more call' rest' =>
      cases call.unique call'
      rw [ih rest']

/-- How many heads are visited up to the call `j`. -/
def reach (cnts : Nat → Int32) : Nat → Nat
  | 0 => (walkCount (cnts 0)).toNat
  | j + 1 => reach cnts j + (walkCount (cnts (j + 1))).toNat

theorem reach_succ (cnts : Nat → Int32) (j : Nat) :
    reach cnts (j + 1) = (walkCount (cnts 0)).toNat + reach (fun i => cnts (i + 1)) j := by
  induction j with
  | zero => rfl
  | succ j ih => rw [reach, ih, reach, Nat.add_assoc]

theorem reach_pos (cnts : Nat → Int32) (j : Nat) : 1 ≤ reach cnts j := by
  induction j with
  | zero => exact toNat_pos (walkCount_ne_zero _)
  | succ j ih => exact Nat.le_add_right_of_le ih

/-- The call `j` stops at a head whose node has the left subtree `l`. -/
def Cut (R : List Post) (cnts : Nat → Int32) (j : Nat) (l : RtTree) : Prop :=
  ∃ h, R[reach cnts j - 1]? = some (h, l) ∧ l ≠ .nil

/-- No head is left for a walk from what is returned at the head `p` with the left
subtree. -/
def Idle (R : List Post) (p : Nat) : RtTree → Prop
  | .nil => False
  | .node y yl _ => y.2.val = none ∨ R.length = p + 1 + (posts yl).length

/-- All heads are visited, or the call `j` is the first one that stops at a head whose
node has a left subtree. -/
inductive Visited (R : List Post) (cnts : Nat → Int32) : List HeadId → Prop
  | all : (∀ j l, ¬Cut R cnts j l) → Visited R cnts (heads R)
  | lost {j : Nat} {l : RtTree} {W : List HeadId} : Cut R cnts j l → (∀ i < j, ∀ l', ¬Cut R cnts i l') →
      reach cnts j < R.length → W.Sublist (heads (R.drop (reach cnts j + 1))) → (W = [] ↔ Idle R (reach cnts j) l) →
      Visited R cnts (heads (R.take (reach cnts j)) ++ W)

variable {R : List Post} {cnts : Nat → Int32} {hs V : List HeadId}

theorem Cut.lt {j : Nat} (cut : Cut R cnts j l) : reach cnts j ≤ R.length := by
  obtain ⟨h, here, _⟩ := cut
  obtain ⟨less, _⟩ := List.getElem?_eq_some_iff.mp here
  have positive := reach_pos cnts j
  omega

theorem Visited.sublist (v : Visited R cnts V) : V.Sublist (heads R) := by
  cases v with
  | all => exact .refl _
  | @lost j l W cut first more part idle =>
    have split : heads R = heads (R.take (reach cnts j)) ++ heads (R.drop (reach cnts j)) := by
      rw [← heads_append, List.take_append_drop]
    rw [split]
    have skip : (R.drop (reach cnts j + 1)).Sublist (R.drop (reach cnts j)) :=
      List.drop_sublist_drop_left R (Nat.le_succ _)
    exact (part.trans (skip.map Prod.fst)).append_left _

theorem Visited.eq_nil_iff (v : Visited R cnts V) : V = [] ↔ R = [] := by
  constructor
  · intro none_
    cases v with
    | all => exact List.map_eq_nil_iff.mp none_
    | @lost j l W cut first more part idle =>
      have taken := List.map_eq_nil_iff.mp (List.append_eq_nil_iff.mp none_).1
      have positive := reach_pos cnts j
      cases List.take_eq_nil_iff.mp taken with
      | inl zero => omega
      | inr empty => exact empty
  · rintro rfl
    simpa using v.sublist

/-- A call that stops at a head without a left subtree loses nothing. -/
theorem Visited.resume {h : HeadId} (here : R[(walkCount (cnts 0)).toNat - 1]? = some (h, .nil))
    (v : Visited (R.drop (walkCount (cnts 0)).toNat) (fun i => cnts (i + 1)) V) :
    Visited R cnts (heads (R.take (walkCount (cnts 0)).toNat) ++ V) := by
  have zero (l : RtTree) : ¬Cut R cnts 0 l := by
    intro ⟨h', there, some_⟩
    rw [reach, here] at there
    cases there
    exact some_ rfl
  have later (j : Nat) (l : RtTree) : Cut R cnts (j + 1) l ↔
      Cut (R.drop (walkCount (cnts 0)).toNat) (fun i => cnts (i + 1)) j l := by
    have positive := reach_pos (fun i => cnts (i + 1)) j
    simp only [Cut, reach_succ, List.getElem?_drop]
    rw [Nat.add_sub_assoc positive]
  cases v with
  | all none_ =>
    rw [← heads_append, List.take_append_drop]
    refine .all ?_
    intro j l
    cases j with
    | zero => exact zero l
    | succ j => exact mt (later j l).mp (none_ j l)
  | @lost j l W cut first more part idle =>
    have whole : heads (R.take (walkCount (cnts 0)).toNat) ++
        (heads ((R.drop (walkCount (cnts 0)).toNat).take (reach (fun i => cnts (i + 1)) j)) ++ W) =
          heads (R.take (reach cnts (j + 1))) ++ W := by
      rw [reach_succ, List.take_add, heads_append, List.append_assoc]
    rw [whole]
    rw [List.length_drop] at more
    refine .lost ((later j l).mpr cut) ?_ ?_ ?_ ?_
    · intro i less l'
      cases i with
      | zero => exact zero l'
      | succ i => exact mt (later i l').mp (first i (by omega) l')
    · rw [reach_succ]
      omega
    · rw [reach_succ, Nat.add_assoc, ← List.drop_drop]
      exact part
    · rw [idle, reach_succ]
      cases l with
      | nil => rfl
      | node y yl yr =>
        have positive := reach_pos (fun i => cnts (i + 1)) j
        simp only [Idle, List.length_drop]
        exact or_congr_right (by omega)

theorem session_visited {rth : Option HeadId} (rep : Represents rtt t) (settled : Settled rtt) (left : LeftFrom t rth R)
    (cnts : Nat → Int32) : ∃ V, Session rtt cnts rth V ∧ Visited R cnts V := by
  induction len : R.length using Nat.strongRecOn generalizing R rth cnts with
  | ind n ih =>
    obtain ⟨res, call, halt⟩ := call_spec rep settled left (cnts 0)
    have positive := toNat_pos (walkCount_ne_zero (cnts 0))
    cases halt with
    | finished few =>
      refine ⟨_, .last call, ?_⟩
      rw [List.take_of_length_le (Nat.le_of_lt few)]
      refine .all ?_
      intro j l cut
      have enough := cut.lt
      cases j with
      | zero => exact absurd enough (Nat.not_le.mpr few)
      | succ j =>
        rw [reach_succ] at enough
        omega
    | @cut fs x l r h place head here rest =>
      obtain ⟨less, _⟩ := List.getElem?_eq_some_iff.mp here
      cases l with
      | nil =>
        have behind : LeftFrom t (some h) (R.drop (walkCount (cnts 0)).toNat) := by
          rw [rest]
          exact .behind place head
        have shorter : (R.drop (walkCount (cnts 0)).toNat).length < n := by
          rw [List.length_drop]
          omega
        obtain ⟨V, session, visited⟩ := ih _ shorter behind (fun i => cnts (i + 1)) rfl
        exact ⟨_, .more call session, visited.resume here⟩
      | node y yl yr =>
        have cut : Cut R cnts 0 (.node y yl yr) := ⟨h, here, by simp⟩
        have first (i : Nat) (none_ : i < 0) (l' : RtTree) : ¬Cut R cnts i l' := absurd none_ (Nat.not_lt_zero i)
        have more : reach cnts 0 < R.length := by
          have trie := (trie_plug.mp (place ▸ rep.trie)).1
          have below := List.length_pos_of_ne_nil (posts_ne_nil trie.2.2.1 (by simp))
          have lengths := congrArg List.length rest
          rw [List.length_drop, List.length_append] at lengths
          rw [reach]
          omega
        cases val : y.2.val with
        | none =>
          have result : Post.result (h, .node y yl yr) = none := val
          rw [result] at call
          have visited : Visited R cnts (heads (R.take (reach cnts 0)) ++ []) :=
            .lost cut first more (List.nil_sublist _) (by simp [Idle, val])
          rw [List.append_nil] at visited
          exact ⟨_, .last call, visited⟩
        | some h' =>
          have result : Post.result (h, .node y yl yr) = some h' := val
          rw [result] at call
          have place' : plug (⟨false, x, r⟩ :: fs) (.node y yl yr) = t := place
          have behind := LeftFrom.behind place' val
          have next : R.drop (walkCount (cnts 0)).toNat =
              (h', yl) :: (posts yl ++ (posts yr ++ postsAfter (⟨false, x, r⟩ :: fs))) := by
            rw [rest]
            simp [posts, val, postsAfter]
          have after_ : R.drop ((walkCount (cnts 0)).toNat + 1) =
              posts yl ++ (posts yr ++ postsAfter (⟨false, x, r⟩ :: fs)) := by
            rw [← List.drop_drop, next]
            rfl
          have lengths := congrArg List.length next
          rw [List.length_drop, List.length_cons, List.length_append] at lengths
          obtain ⟨V, session, visited⟩ := ih _ (by omega) behind (fun i => cnts (i + 1)) rfl
          refine ⟨_, .more call session, .lost cut first more ?_ ?_⟩
          · rw [reach, after_, heads_append]
            exact visited.sublist.trans (List.sublist_append_right _ _)
          · rw [visited.eq_nil_iff, Idle, reach, val]
            rw [← List.length_eq_zero_iff]
            simp only [reduceCtorEq, false_or]
            omega

/-! ## All that one call visits -/

/-- The calls lose nothing: none of them stops at a head whose node has a left
subtree. With 2³² heads or more one call does not visit all; it visits what the
calls do if the first such stop is after 2³² - 1 heads and no head is left then. -/
def Lossless (R : List Post) (cnts : Nat → Int32) : Prop :=
  (R.length < 2 ^ 32 ∧ ∀ j l, ¬Cut R cnts j l) ∨
    ∃ j l, Cut R cnts j l ∧ (∀ i < j, ∀ l', ¬Cut R cnts i l') ∧ reach cnts j = 2 ^ 32 - 1 ∧ Idle R (reach cnts j) l

theorem Cut.unique {j : Nat} {l' : RtTree} (cut : Cut R cnts j l) (cut' : Cut R cnts j l') : l = l' := by
  obtain ⟨h, here, _⟩ := cut
  obtain ⟨h', here', _⟩ := cut'
  cases here.symm.trans here'
  rfl

/-- Heads that are lost do not come later. -/
theorem lost_iff {p n : Nat} {W : List HeadId} (once : (heads R).Nodup) (more : p < R.length)
    (part : W.Sublist (heads (R.drop (p + 1)))) :
    heads (R.take p) ++ W = heads (R.take n) ↔ p = n ∧ W = [] := by
  constructor
  · intro same
    have lengths := congrArg List.length same
    simp only [List.length_append, length_heads, List.length_take] at lengths
    have notMore : p ≤ n := by omega
    obtain ⟨k, rfl⟩ := Nat.exists_eq_add_of_le notMore
    rw [List.take_add, heads_append] at same
    have rest := List.append_cancel_left same
    cases k with
    | zero => exact ⟨rfl, by simpa using rest⟩
    | succ k =>
      -- the next head is in none of them
      rw [List.drop_eq_getElem_cons more, List.take_succ_cons, heads_cons] at rest
      have again : (R[p]).1 ∈ heads (R.drop (p + 1)) := part.subset (rest ▸ List.mem_cons_self)
      rw [← List.take_append_drop p R, List.drop_eq_getElem_cons more, heads_append, heads_cons,
        List.nodup_append, List.nodup_cons] at once
      exact absurd again once.2.1.1
  · rintro ⟨rfl, rfl⟩
    exact List.append_nil _

theorem Visited.lossless_iff (once : (heads R).Nodup) (v : Visited R cnts V) :
    V = heads (R.take (2 ^ 32 - 1)) ↔ Lossless R cnts := by
  cases v with
  | all none_ =>
    constructor
    · intro same
      have lengths := congrArg List.length same
      simp only [length_heads, List.length_take] at lengths
      exact .inl ⟨by omega, none_⟩
    · intro keeps
      cases keeps with
      | inl few => rw [List.take_of_length_le (Nat.le_sub_one_of_lt few.1)]
      | inr lost =>
        obtain ⟨j, l, cut, _⟩ := lost
        exact absurd cut (none_ j l)
  | @lost j l W cut first more part idle =>
    rw [lost_iff once more part, idle]
    constructor
    · intro ⟨limit, rest⟩
      exact .inr ⟨j, l, cut, first, limit, rest⟩
    · intro keeps
      cases keeps with
      | inl few => exact absurd cut (few.2 j l)
      | inr lost =>
        obtain ⟨j', l', cut', first', limit, rest⟩ := lost
        obtain rfl : j = j' := by
          have notLess : ¬j' < j := fun less => first j' less l' cut'
          have notMore : ¬j < j' := fun less => first' j less l cut
          omega
        obtain rfl := cut.unique cut'
        exact ⟨limit, rest⟩

/-- **The calls of a walk** visit what one call with the count 0 visits if they lose
nothing, and only then. -/
theorem chunks_iff {m : PrefixMap HeadId} (reachable : Reachable rtt m) (cnts : Nat → Int32) :
    ∃ t, Represents rtt t ∧ m.StoredIn t ∧
      ((∃ hs res, Session rtt cnts none hs ∧ Returns (stdRadixWalk rtt none (some passive) 0) (res, hs, rtt)) ↔
        Lossless (posts t) cnts) := by
  obtain ⟨settled, t, rep, stored⟩ := reachable.stores
  have once : (heads (posts t)).Nodup := by
    rw [heads_posts]
    exact (listedBy_entries rep stored).once
  obtain ⟨V, session, visited⟩ := session_visited rep settled .start cnts
  obtain ⟨res, walk, _⟩ := call_spec rep settled .start 0
  have limit : (walkCount 0).toNat = 2 ^ 32 - 1 := rfl
  rw [limit] at walk
  refine ⟨t, rep, stored, ?_⟩
  rw [← visited.lossless_iff once]
  constructor
  · intro ⟨hs, res', session', walk'⟩
    rw [session.unique session']
    exact congrArg (fun r => r.2.1) (walk'.unique walk)
  · intro same
    rw [← same] at walk
    exact ⟨V, res, session, walk⟩

theorem chunks_iff_ten : ∃ t, Represents tenTable t ∧ tenMap.StoredIn t ∧
    ((∃ hs res, Session tenTable (fun _ => 1) none hs ∧
      Returns (stdRadixWalk tenTable none (some passive) 0) (res, hs, tenTable)) ↔ Lossless (posts t) fun _ => 1) :=
  chunks_iff reachable_ten fun _ => 1

/-- `tenTable` after the insertion of the head 1 for 10.0.0.0/16. -/
def nestedTable : Rtt :=
  match stdRadixInsert tenTable 1 16 ⟨none, some 2, some 3⟩ with
  | .ok (_, rtt) => rtt
  | .error _ => tenTable

theorem reachable_nested : Reachable nestedTable (tenMap.insert (ten.bits 16) 1) := by
  have unused : tenMap.Unused 1 := by
    intro k
    simp only [tenMap, PrefixMap.insert_apply]
    split <;> simp [PrefixMap.empty]
  have alloc : Allocs.Succeed ⟨none, some 2, some 3⟩ tenTable := ⟨2, 3, rfl, rfl, rfl, rfl, by decide⟩
  have run : stdRadixInsert tenTable 1 16 ⟨none, some 2, some 3⟩ = .ok (some 1, nestedTable) := rfl
  exact .insert reachable_ten unused rfl (by decide) alloc run

theorem returns_walk {rth : Option HeadId} {cnt : Int32} {w w' : Walk} {res : Option HeadId} {hs : List HeadId}
    (begins : walkStart nestedTable rth cnt = some w)
    (run : loop .noReturn (walkTurn (some passive)) 20 w = .ok (res, w')) (calls : w'.calls = hs)
    (table : w'.rtt = nestedTable) :
    Returns (stdRadixWalk nestedTable rth (some passive) cnt) (res, hs, nestedTable) := by
  obtain ⟨enough, runs⟩ := Ends.of_ok run
  have magic : nestedTable.validateHandle = .ok () := rfl
  refine ⟨enough, fun fuel more => ?_⟩
  simp only [stdRadixWalk, magic, ok_bind, begins, runs fuel more, calls, table, pure_eq_ok]

/-- One head a call: the head 1 is returned by the first call and then left out. -/
theorem walk_loses_head : Reachable nestedTable (tenMap.insert (ten.bits 16) 1) ∧
    Session nestedTable (fun _ => 1) none [0] ∧
    ∃ res, Returns (stdRadixWalk nestedTable none (some passive) 0) (res, [0, 1], nestedTable) := by
  have first : Returns (stdRadixWalk nestedTable none (some passive) 1) (some 1, [0], nestedTable) :=
    returns_walk rfl rfl rfl rfl
  have second : Returns (stdRadixWalk nestedTable (some 1) (some passive) 1) (none, [], nestedTable) :=
    returns_walk rfl rfl rfl rfl
  have whole : Returns (stdRadixWalk nestedTable none (some passive) 0) (none, [0, 1], nestedTable) :=
    returns_walk rfl rfl rfl rfl
  have session : Session nestedTable (fun _ => 1) none ([0] ++ []) := .more first (.last second)
  exact ⟨reachable_nested, session, none, whole⟩

end SonicUtils.Radix
