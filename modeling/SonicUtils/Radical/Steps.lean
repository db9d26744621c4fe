import SonicUtils.Lib.Precedence
import SonicUtils.Lib.Runs
import SonicUtils.Radical.Members

/-!
# Runs of a change list

A table with a change list is used from outside of its walks and from their
callbacks. A walk is taken apart at its calls of `walk_fn`: it is in progress from
one call on, whatever happens then, until the callback returns.

* `Step`, `Effect`, `step_effect`: what a step does to the list;
* `walkchangelist_run`: a call of `std_radical_walkchangelist` is a run.
-/

namespace SonicUtils.Radical

open Radix LinkedList Dll Runs Precedence

variable {rtt rtt' : Rtt} {m h rth : HeadId} {xs ys as cs : List HeadId}

/-- A call of `walk_fn` for `rth` that has not returned, in a walk of `marker`. -/
structure Visit where
  marker : HeadId
  rth : HeadId
  ver : Version
  maxnodes : Int32
  maxVer : Version

/-- The table, and the calls that have not returned, the last one first. -/
structure State where
  rtt : Rtt
  visits : List Visit

inductive Event
  | fill (rth : HeadId)
  | insert (rth : HeadId)
  | append (rth : HeadId)
  | remove (rth : HeadId)
  | construct (m : HeadId)
  | constructafter (after m : HeadId)
  | destruct (m : HeadId)
  | walk (m : HeadId)
  | returned (m rth : HeadId) (cbretval : Int32)

/-- The marker that is placed, moved or taken away. -/
def Event.marks : Event → Option HeadId
  | .construct m | .constructafter _ m | .destruct m | .walk m | .returned m _ _ => some m
  | _ => none

/-- The head that comes to the end. -/
def Event.appends : Event → Option HeadId
  | .append rth => some rth
  | _ => none

/-- The head is no entry, nor the marker of a walk in progress. -/
structure Spare (s : State) (m : HeadId) : Prop where
  entry : included (s.rtt.heads m) = false
  idle : ∀ v ∈ s.visits, v.marker ≠ m

/-- The state when a walk of `m` has come to a stop. -/
def stopped (visits : List Visit) (m : HeadId) (maxVer : Version) : Stop → State
  | .call rth ver w => ⟨w.rtt, ⟨m, rth, ver, w.maxnodes, maxVer⟩ :: visits⟩
  | .done rtt => ⟨rtt, visits⟩

/-- A head may be filled in with zero flags while it is neither an entry nor a
marker. -/
inductive Step : State → Event → State → Prop
  | fill {rtt vs rth} (h : RtHead) :
      (rtt.heads rth).rdclFlags = 0 → h.rdclFlags = 0 →
      Step ⟨rtt, vs⟩ (.fill rth) ⟨rtt.writeHead rth fun _ => h, vs⟩
  | insert {rtt vs rth bitlen mem res rtt'} :
      (rtt.heads rth).rdclFlags = 0 → mem.Fair rtt → stdRadixInsert rtt rth bitlen mem = .ok (res, rtt') →
      Step ⟨rtt, vs⟩ (.insert rth) ⟨rtt', vs⟩
  | append {rtt vs rth ver rtt'} :
      isDummy (rtt.heads rth) = false → stdRadicalAppendtochangelist rtt rth = .ok (ver, rtt') →
      Step ⟨rtt, vs⟩ (.append rth) ⟨rtt', vs⟩
  | remove {rtt vs rth rtt'} :
      isDummy (rtt.heads rth) = false → stdRadixRemove rtt rth = .ok rtt' → Step ⟨rtt, vs⟩ (.remove rth) ⟨rtt', vs⟩
  | construct {rtt vs m rtt'} :
      Spare ⟨rtt, vs⟩ m → stdRadicalWalkconstructor rtt m = .ok rtt' → Step ⟨rtt, vs⟩ (.construct m) ⟨rtt', vs⟩
  | constructafter {rtt vs after m rtt'} :
      Spare ⟨rtt, vs⟩ m → stdRadicalWalkconstructorafter rtt after m = .ok rtt' →
      Step ⟨rtt, vs⟩ (.constructafter after m) ⟨rtt', vs⟩
  | destruct {rtt vs m rtt'} :
      Spare ⟨rtt, vs⟩ m → stdRadicalWalkdestructor rtt m = .ok rtt' → Step ⟨rtt, vs⟩ (.destruct m) ⟨rtt', vs⟩
  | walk {rtt vs m maxnodes maxVer w stop} :
      Spare ⟨rtt, vs⟩ m → listStart rtt m maxnodes = .ok w → ComesTo m maxVer w stop →
      Step ⟨rtt, vs⟩ (.walk m) (stopped vs m maxVer stop)
  | leave {rtt v vs cbretval rtt'} :
      afterCall v.marker v.rth v.ver cbretval v.maxnodes rtt = .ok (.inr rtt') →
      Step ⟨rtt, v :: vs⟩ (.returned v.marker v.rth cbretval) ⟨rtt', vs⟩
  | goOn {rtt v vs cbretval w stop} :
      afterCall v.marker v.rth v.ver cbretval v.maxnodes rtt = .ok (.inl w) → ComesTo v.marker v.maxVer w stop →
      Step ⟨rtt, v :: vs⟩ (.returned v.marker v.rth cbretval) (stopped vs v.marker v.maxVer stop)

/-- On the list are `xs`, and the walks in progress have markers of their own. -/
structure Sound (s : State) (xs : List HeadId) : Prop where
  listed : Listed s.rtt xs
  marked : ∀ v ∈ s.visits, isDummy (s.rtt.heads v.marker) = true
  other : ∀ v ∈ s.visits, v.rth ≠ v.marker
  nested : s.visits.Pairwise fun v v' => v.marker ≠ v'.marker

/-! ## What a step does -/

/-- The marker `m` passes other markers, and in the second case an entry. -/
inductive Passes (rtt : Rtt) (m : HeadId) : List HeadId → Option HeadId → List HeadId → Prop
  | markers {as es : List HeadId} (ds : List HeadId) :
      (∀ d ∈ ds, isDummy (rtt.heads d) = true) → Passes rtt m (as ++ m :: (ds ++ es)) none (as ++ ds ++ m :: es)
  | entry {as ds es : List HeadId} {rth : HeadId} :
      (∀ d ∈ ds, isDummy (rtt.heads d) = true) → isDummy (rtt.heads rth) = false →
      Passes rtt m (as ++ m :: (ds ++ rth :: es)) (some rth) (as ++ ds ++ rth :: m :: es)

/-- Nothing that the list depends on has changed. -/
structure Idle (rtt rtt' : Rtt) (xs : List HeadId) : Prop where
  flags : ∀ h, (rtt'.heads h).rdclFlags = (rtt.heads h).rdclFlags
  versions : ∀ h ∈ xs, (rtt'.heads h).rthVersion = (rtt.heads h).rthVersion
  version : rtt'.rttVersion = rtt.rttVersion

/-- The list `xs` of `rtt` becomes that of `s`. -/
inductive Effect (rtt : Rtt) (s : State) (xs : List HeadId) : Event → List HeadId → Prop
  | idle {ev : Event} : ev.marks = none → ev.appends = none → Idle rtt s.rtt xs → Effect rtt s xs ev xs
  | append {rth : HeadId} :
      isDummy (rtt.heads rth) = false → Appended rth rtt s.rtt →
      Effect rtt s xs (.append rth) (without rth xs ++ [rth])
  | remove {rth : HeadId} :
      isDummy (rtt.heads rth) = false → Dropped rth rtt s.rtt → Effect rtt s xs (.remove rth) (without rth xs)
  | place {ev : Event} {m : HeadId} {ys : List HeadId} :
      ev = .construct m ∨ (∃ after, ev = .constructafter after m) ∨ ev = .destruct m ∧ m ∉ ys →
      included (rtt.heads m) = false → Marking m rtt s.rtt → without m ys = without m xs → Effect rtt s xs ev ys
  | pass {ev : Event} {m : HeadId} {passed : Option HeadId} {ys : List HeadId} :
      ev = .walk m ∨ (∃ rth r, ev = .returned m rth r ∧ 0 ≤ r) → isDummy (rtt.heads m) = true →
      Marking m rtt s.rtt → Passes rtt m xs passed ys →
      (∀ rth, passed = some rth ↔ ∃ v ∈ s.visits, v.marker = m ∧ v.rth = rth) → Effect rtt s xs ev ys
  | back {m rth : HeadId} {r : Int32} {as cs bs es : List HeadId} :
      r < 0 → isDummy (rtt.heads m) = true → xs = as ++ m :: cs → as ++ cs = bs ++ rth :: es →
      Marking m rtt s.rtt → Effect rtt s xs (.returned m rth r) (bs ++ m :: rth :: es)

theorem Passes.without_eq {passed : Option HeadId} (p : Passes rtt m xs passed ys) (distinct : xs.Nodup)
    (distinct' : ys.Nodup) : without m ys = without m xs := by
  cases p with
  | markers ds _ =>
    rw [without_around distinct, without_around distinct', List.append_assoc]
  | @entry as ds es rth _ _ =>
    have split : as ++ ds ++ rth :: m :: es = (as ++ ds ++ [rth]) ++ m :: es := by simp
    rw [without_around distinct, split, without_around (split ▸ distinct')]
    simp

theorem Passes.mem {passed : Option HeadId} (p : Passes rtt m xs passed ys) : m ∈ ys := by
  cases p <;> simp

/-- A stop between two calls, with the marker put back. -/
theorem Stopped.passes {start : Rtt} {stop : Stop} (stops : Stopped m start as cs stop) (carried : Carried m rtt start)
    (vs : List Visit) (maxVer : Version) :
    ∃ passed ys, Passes rtt m (as ++ m :: cs) passed ys ∧ Carried m rtt (stopped vs m maxVer stop).rtt ∧
      (stopped vs m maxVer stop).rtt.rttClhead.Just ys ∧
      ((stopped vs m maxVer stop).visits = vs ∧ passed = none ∨
        ∃ v, (stopped vs m maxVer stop).visits = v :: vs ∧ v.marker = m ∧ passed = some v.rth ∧
          isDummy (rtt.heads v.rth) = false) := by
  cases stops with
  | done ds es split dummies just carried' =>
    subst split
    have dummies' (d : HeadId) (hd : d ∈ ds) : isDummy (rtt.heads d) = true := (carried.isDummy d) ▸ dummies d hd
    exact ⟨none, _, .markers ds dummies', carried.trans carried', just, .inl ⟨rfl, rfl⟩⟩
  | @call ds es rth ver w split dummies plain just carried' =>
    subst split
    have dummies' (d : HeadId) (hd : d ∈ ds) : isDummy (rtt.heads d) = true := (carried.isDummy d) ▸ dummies d hd
    have plain' : isDummy (rtt.heads rth) = false := (carried.isDummy rth) ▸ plain
    exact ⟨some rth, _, .entry dummies' plain', carried.trans carried', just, .inr ⟨_, rfl, rfl, rfl, plain'⟩⟩

/-- The walks in progress keep markers of their own. -/
theorem Sound.of_listed {s s' : State} (sound : Sound s xs) (listed : Listed s'.rtt ys) (same : s'.visits = s.visits)
    (dummy : ∀ v ∈ s.visits, isDummy (s'.rtt.heads v.marker) = isDummy (s.rtt.heads v.marker)) : Sound s' ys := by
  refine ⟨listed, fun v hv => ?_, fun v hv => sound.other v (same ▸ hv), same ▸ sound.nested⟩
  rw [same] at hv
  rw [dummy v hv]
  exact sound.marked v hv

/-- A head with zero flags is filled in or inserted. -/
theorem Sound.beside {s s' : State} {ev : Event} (sound : Sound s xs) (zero : (s.rtt.heads rth).rdclFlags = 0)
    (beside : Beside rth s.rtt s'.rtt) (same : s'.visits = s.visits) (unmarked : ev.marks = none)
    (old : ev.appends = none) :
    Sound s' xs ∧ Effect s.rtt s' xs ev xs := by
  have off : rth ∉ xs := by
    rw [sound.listed.flagged rth]
    simp [included, isDummy, zero]
  refine ⟨sound.of_listed (sound.listed.of_same beside.clhead beside.flags) same fun v _ => ?_, .idle unmarked old ?_⟩
  · rw [isDummy, beside.flags v.marker, ← isDummy]
  · exact ⟨beside.flags, fun h inside => beside.versions h fun mine => off (mine ▸ inside), beside.version⟩

/-- The marker that a step places, moves or takes away is not an entry. -/
theorem Sound.marking {s s' : State} (sound : Sound s xs) (spare : Spare s m) (marking : Marking m s.rtt s'.rtt)
    (same : s'.visits = s.visits) (just : s'.rtt.rttClhead.Just ys) (order : without m ys = without m xs)
    (own : m ∈ ys ↔ isDummy (s'.rtt.heads m) = true) : Sound s' ys :=
  sound.of_listed (sound.listed.marked marking spare.entry just order own) same fun v hv =>
    marking.isDummy (spare.idle v hv)

/-- A walk goes on to a stop, from where its marker is between `as` and `cs`. -/
theorem Sound.stop {vs : List Visit} {stop : Stop} {start : Rtt} {ev : Event}
    (sound : Sound ⟨rtt, vs⟩ (as ++ m :: cs)) (spare : Spare ⟨rtt, vs⟩ m) (dummy : isDummy (rtt.heads m) = true)
    (carried : Carried m rtt start) (stops : Stopped m start as cs stop) (maxVer : Version)
    (how : ev = .walk m ∨ ∃ rth r, ev = .returned m rth r ∧ 0 ≤ r) :
    ∃ ys, Sound (stopped vs m maxVer stop) ys ∧ Effect rtt (stopped vs m maxVer stop) (as ++ m :: cs) ev ys := by
  obtain ⟨passed, ys, passes, carried', just, visits⟩ := stops.passes carried vs maxVer
  have order := passes.without_eq sound.listed.just.distinct just.distinct
  have own : m ∈ ys ↔ isDummy ((stopped vs m maxVer stop).rtt.heads m) = true := by
    rw [carried'.isDummy, dummy]
    simp [passes.mem]
  have listed := sound.listed.marked carried'.marking spare.entry just order own
  refine ⟨ys, ⟨listed, ?_, ?_, ?_⟩, .pass how dummy carried'.marking passes ?_⟩
  · intro v hv
    rw [carried'.isDummy]
    rcases visits with ⟨same, _⟩ | ⟨w, same, mine, _⟩
    · exact sound.marked v (same ▸ hv)
    · rw [same] at hv
      rcases List.mem_cons.mp hv with rfl | old
      · exact mine ▸ dummy
      · exact sound.marked v old
  · intro v hv
    rcases visits with ⟨same, _⟩ | ⟨w, same, mine, _, plain⟩
    · exact sound.other v (same ▸ hv)
    · rw [same] at hv
      rcases List.mem_cons.mp hv with rfl | old
      · intro both
        rw [both, mine, dummy] at plain
        cases plain
      · exact sound.other v old
  · rcases visits with ⟨same, _⟩ | ⟨w, same, mine, _⟩
    · rw [same]
      exact sound.nested
    · rw [same]
      exact .cons (fun v hv both => spare.idle v hv (both.symm.trans mine)) sound.nested
  · intro rth
    rcases visits with ⟨same, none⟩ | ⟨w, same, mine, some, _⟩
    · rw [none, same]
      refine ⟨nofun, ?_⟩
      rintro ⟨v, hv, mine, _⟩
      exact absurd mine (spare.idle v hv)
    · rw [some, same]
      constructor
      · intro called
        exact ⟨w, List.mem_cons_self, mine, Option.some.inj called⟩
      · rintro ⟨v, hv, mine', rfl⟩
        rcases List.mem_cons.mp hv with rfl | old
        · rfl
        · exact absurd mine' (spare.idle v old)

theorem Listed.spare (listed : Listed rtt xs) (dummy : isDummy (rtt.heads m) = true) :
    included (rtt.heads m) = false := by
  by_contra entry
  rw [listed.apart m (by simpa using entry)] at dummy
  cases dummy

/-- Without the walk that is in progress last. -/
theorem Sound.outer {v : Visit} {vs : List Visit} (sound : Sound ⟨rtt, v :: vs⟩ xs) :
    Sound ⟨rtt, vs⟩ xs ∧ Spare ⟨rtt, vs⟩ v.marker ∧ ∃ as cs, xs = as ++ v.marker :: cs := by
  obtain ⟨listed, marked, other, nested⟩ := sound
  obtain ⟨apart, nested'⟩ := List.pairwise_cons.mp nested
  have dummy := marked v List.mem_cons_self
  have plain := listed.spare dummy
  refine ⟨⟨listed, fun w hw => marked w (List.mem_cons_of_mem v hw), fun w hw => other w (List.mem_cons_of_mem v hw),
    nested'⟩, ⟨plain, fun w hw => (apart w hw).symm⟩, ?_⟩
  exact List.append_of_mem ((listed.marker plain).mpr dummy)

/-- **What a step does.** -/
theorem step_effect {s s' : State} {ev : Event} (sound : Sound s xs) (step : Step s ev s') :
    ∃ ys, Sound s' ys ∧ Effect s.rtt s' xs ev ys := by
  have listed := sound.listed
  cases step with
  | @fill rtt vs rth h zero zero' =>
    have beside : Beside rth rtt (rtt.writeHead rth fun _ => h) := by
      refine ⟨fun i => ?_, fun i ne => ?_, rfl, rfl⟩
      · rw [heads_writeHead]
        split
        · rename_i same
          rw [same, zero, zero']
        · rfl
      · rw [heads_writeHead, if_neg ne]
    exact ⟨xs, sound.beside zero beside rfl rfl rfl⟩
  | @insert rtt vs rth bitlen mem res rtt' zero fair run =>
    have beside := (insert_spec listed zero fair).of_ok _ run
    exact ⟨xs, sound.beside zero beside rfl rfl rfl⟩
  | @append rtt vs rth ver rtt' plain run =>
    obtain ⟨appended, just⟩ := (append_spec listed plain).of_ok _ run
    refine ⟨_, sound.of_listed (listed.appended plain appended just) rfl fun v hv => ?_, .append plain appended⟩
    have other : v.marker ≠ rth := by
      rintro rfl
      rw [sound.marked v hv] at plain
      cases plain
    rw [isDummy, appended.flags v.marker other, ← isDummy]
  | @remove rtt vs rth rtt' plain run =>
    rcases (remove_spec listed).of_ok _ run with aside | ⟨dropped, just⟩
    · have same (h : HeadId) : isDummy (rtt'.heads h) = isDummy (rtt.heads h) := by
        rw [isDummy, aside.flags h, ← isDummy]
      refine ⟨xs, sound.of_listed (listed.of_same aside.clhead aside.flags) rfl fun v _ => same v.marker, ?_⟩
      exact .idle rfl rfl ⟨aside.flags, fun h _ => aside.versions h, aside.version⟩
    · refine ⟨_, sound.of_listed (listed.dropped plain dropped just) rfl fun v hv => ?_, .remove plain dropped⟩
      have other : v.marker ≠ rth := by
        rintro rfl
        rw [sound.marked v hv] at plain
        cases plain
      rw [isDummy, dropped.flags v.marker other, ← isDummy]
  | @construct rtt vs m rtt' spare run =>
    obtain ⟨rtt'', run', marking, dummy, just⟩ := construct_spec listed spare.entry
    obtain rfl := Except.ok.inj (run'.symm.trans run)
    have order : without m (m :: without m xs) = without m xs := by simp [without]
    exact ⟨_, sound.marking spare marking rfl just order (by simp [dummy]), .place (.inl rfl) spare.entry marking order⟩
  | @constructafter rtt vs after m rtt' spare run =>
    obtain ⟨marking, dummy, as, cs, split, just⟩ := (constructafter_spec listed).of_ok _ run
    have whole : as ++ after :: m :: cs = (as ++ [after]) ++ m :: cs := by simp
    have order : without m (as ++ after :: m :: cs) = without m xs := by
      rw [whole, without_around (whole ▸ just.distinct), split]
      simp
    exact ⟨_, sound.marking spare marking rfl just order (by simp [dummy]),
      .place (.inr (.inl ⟨after, rfl⟩)) spare.entry marking order⟩
  | @destruct rtt vs m rtt' spare run =>
    obtain ⟨rtt'', run', marking, dummy, just⟩ := destruct_spec listed
    obtain rfl := Except.ok.inj (run'.symm.trans run)
    have order : without m (without m xs) = without m xs := without_off not_mem_without
    exact ⟨_, sound.marking spare marking rfl just order (by simp [dummy, not_mem_without]),
      .place (.inr (.inr ⟨rfl, not_mem_without⟩)) spare.entry marking order⟩
  | walk spare start comes =>
    obtain ⟨dummy, carried, as, cs, rfl, first, just⟩ := (listStart_spec listed).of_ok _ start
    have off := (List.nodup_cons.mp (List.nodup_middle.mp listed.just.distinct)).1
    exact sound.stop spare dummy carried (comesTo_spec comes just off first) _ (.inl rfl)
  | @leave rtt v vs cbretval rtt' run =>
    obtain ⟨sound', spare, as, cs, rfl⟩ := sound.outer
    have dummy := sound.marked v List.mem_cons_self
    obtain ⟨carried, place⟩ := (afterCall_spec listed.just (sound.other v List.mem_cons_self)).of_ok _ run
    rcases place with ⟨positive, just⟩ | ⟨negative, bs, es, split, just⟩
    · refine ⟨_, sound'.marking spare carried.marking rfl just rfl ?_, ?_⟩
      · simp [carried.isDummy, dummy]
      · have stays : Passes rtt v.marker (as ++ v.marker :: ([] ++ cs)) none (as ++ [] ++ v.marker :: cs) :=
          .markers [] (by simp)
        rw [List.append_nil, List.nil_append] at stays
        refine .pass (.inr ⟨v.rth, cbretval, rfl, positive⟩) dummy carried.marking stays fun rth => ⟨?_, ?_⟩
        · intro none_
          cases none_
        · rintro ⟨w, hw, mine, _⟩
          exact absurd mine (spare.idle w hw)
    · have order : without v.marker (bs ++ v.marker :: v.rth :: es) = without v.marker (as ++ v.marker :: cs) := by
        rw [without_around just.distinct, without_around listed.just.distinct, split]
      refine ⟨_, sound'.marking spare carried.marking rfl just order ?_, .back negative dummy rfl split carried.marking⟩
      simp [carried.isDummy, dummy]
  | @goOn rtt v vs cbretval w stop run comes =>
    obtain ⟨sound', spare, as, cs, rfl⟩ := sound.outer
    have dummy := sound.marked v List.mem_cons_self
    have other := sound.other v List.mem_cons_self
    obtain ⟨rfl, carried, first, just⟩ := (afterCall_spec listed.just other).of_ok _ run
    have off := (List.nodup_cons.mp (List.nodup_middle.mp listed.just.distinct)).1
    exact sound'.stop spare dummy carried (comesTo_spec comes just off first) _ (.inr ⟨v.rth, 0, rfl, Int32.le_refl 0⟩)

/-- A step of a marker leaves the list as it is, but for the marker. -/
theorem Effect.marking {s : State} {ev : Event} (effect : Effect rtt s xs ev ys) (listed : Listed rtt xs)
    (distinct : ys.Nodup) (marks : ev.marks = some m) :
    included (rtt.heads m) = false ∧ Marking m rtt s.rtt ∧ without m ys = without m xs := by
  cases effect with
  | idle none _ _ =>
    rw [none] at marks
    cases marks
  | append _ _ => cases marks
  | remove _ _ => cases marks
  | place how spare marking same =>
    rcases how with rfl | ⟨_, rfl⟩ | ⟨rfl, _⟩ <;>
    · cases marks
      exact ⟨spare, marking, same⟩
  | pass how dummy marking passes _ =>
    rcases how with rfl | ⟨_, _, rfl, _⟩ <;>
    · cases marks
      exact ⟨listed.spare dummy, marking, passes.without_eq listed.just.distinct distinct⟩
  | back _ dummy split whole marking =>
    cases marks
    subst split
    refine ⟨listed.spare dummy, marking, ?_⟩
    rw [without_around distinct, without_around listed.just.distinct, whole]

/-! ## Runs -/

/-- A table of `std_radix_create` whose change list is used, and no walk of it. The
memory of heads is zero, as far as the flags go. -/
inductive Start : State → Prop
  | create {heads : HeadId → RtHead} (maxaddrlen : Nat) (rmfree : Bool) (junk : Addr)
      (convert : Option (Addr → Addr → Nat → Addr)) (debug carused : Bool) :
      (∀ h, (heads h).rdclFlags = 0) →
      Start ⟨{ stdRadixCreate maxaddrlen rmfree heads junk with
        rttConvert := convert, rttDebug := debug, rttRadicalused := true, rttCarused := carused }, []⟩

theorem Start.sound {s : State} (start : Start s) : Sound s [] := by
  cases start with
  | create maxaddrlen rmfree junk convert debug carused zero =>
    have unflagged (h : HeadId) (flags : (h' : HeadId) → RtHead) (none : (flags h).rdclFlags = 0) :
        included (flags h) = false ∧ isDummy (flags h) = false := by
      simp [included, isDummy, none]
    refine ⟨⟨just_init, fun h => ?_, fun h entry => ?_⟩, List.forall_mem_nil _, List.forall_mem_nil _, .nil⟩
    · simp [stdRadixCreate, unflagged h _ (zero h)]
    · exact (unflagged h _ (zero h)).2

/-- A callback of the walk `m` of `s`: whatever state of the walk it is called in, it does
what other steps do, and returns with its own call as the last one in progress. -/
def Obeys (walkFn : ListFn) (s : State) (m : HeadId) : Prop :=
  ∀ evs a v r b, Run Step s evs ⟨a, v :: s.visits⟩ → v.marker = m → walkFn v.rth a = .ok (r, b) →
    ∃ evs, Run Step ⟨a, v :: s.visits⟩ evs ⟨b, v :: s.visits⟩

/-- **A call of `std_radical_walkchangelist`** is a run. -/
theorem walkchangelist_run {vs : List Visit} {walkFn : ListFn} (spare : Spare ⟨rtt, vs⟩ m)
    (obeys : Obeys walkFn ⟨rtt, vs⟩ m) (maxnodes : Int32) (maxVer : Version) (fuel : Nat) :
    Ensures (stdRadicalWalkchangelist rtt m walkFn maxnodes maxVer fuel) fun r =>
      ∃ evs, Run Step ⟨rtt, vs⟩ evs ⟨r.2, vs⟩ := by
  -- wherever the walk stops from here on, it has got there by a run
  let Gets (w : ListWalk) : Prop :=
    ∀ stop, ComesTo m maxVer w stop → ∃ evs, Run Step ⟨rtt, vs⟩ evs (stopped vs m maxVer stop)
  have started : Ensures (listStart rtt m maxnodes) Gets :=
    ⟨fun w start stop comes => ⟨_, .snoc .nil (.walk spare start comes)⟩⟩
  apply Ensures.bind started
  intro w gets
  apply Ensures.loop (K := fun s => Gets s.2)
  · rintro ⟨r, w⟩ gets
    unfold listTurn
    apply Ensures.bind (P := fun next => beforeCall m maxVer w = .ok next) ⟨fun _ run => run⟩
    rintro (w' | ⟨rth, ver, w'⟩ | rtt') run
    · exact .pure fun stop comes => gets stop (.again run comes)
    · obtain ⟨evs, called⟩ := gets _ (.stop run)
      apply Ensures.bind (P := fun next => walkFn rth w'.rtt = .ok next) ⟨fun _ run => run⟩
      rintro ⟨cbretval, b⟩ answer
      obtain ⟨evs', meanwhile⟩ := obeys _ _ _ _ _ called rfl answer
      have inside := called.append meanwhile
      apply Ensures.bind (P := fun next => afterCall m rth ver cbretval w'.maxnodes b = .ok next) ⟨fun _ run => run⟩
      rintro (w'' | rtt'') after
      · exact .pure fun stop comes => ⟨_, .snoc inside (.goOn after comes)⟩
      · exact .pure ⟨_, .snoc inside (.leave after)⟩
    · exact .pure (gets _ (.stop run))
  · exact gets

end SonicUtils.Radical
