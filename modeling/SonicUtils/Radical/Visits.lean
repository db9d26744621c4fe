import SonicUtils.Radical.Order

/-!
# What a walk of a change list visits

A callback of `std_radical_walkchangelist` that returns 0, appends heads and removes
heads, and notes what it does.

* `Does`, `Polite`: what the callback may do;
* `Course`: where a walk stands while `walk_fn` runs, `Course.does` what that changes;
* `changelist_walk`: a walk up to the version of the table visits the entries that it
  finds there, and leaves the others to the next one.
-/

namespace SonicUtils.Radical

open Radix LinkedList Dll Loop

variable {rtt a b : Rtt} {m h rth : HeadId} {maxVer : Version} {bs rest news old ds es : List HeadId}

/-! ## Callbacks with data -/

/-- A callback with data of its own, which `ap` gives it. -/
abbrev DataFn (σ : Type) := HeadId → σ → Rtt → Except Fault (Int32 × σ × Rtt)

/-- `listTurn`, where the callback has data. -/
def listTurnWith {σ : Type} (dummy : HeadId) (maxVer : Version) (walkFn : DataFn σ) (s : σ × Int32 × ListWalk) :
    Except Fault ((σ × Int32 × ListWalk) ⊕ (σ × Int32 × Rtt)) := do
  match ← beforeCall dummy maxVer s.2.2 with
  | .inl w => return .inl (s.1, s.2.1, w)
  | .inr (.done rtt) => return .inr (s.1, s.2.1, rtt)
  | .inr (.call rth ver w) =>
    let (cbretval, c, rtt) ← walkFn rth s.1 w.rtt
    match ← afterCall dummy rth ver cbretval w.maxnodes rtt with
    | .inl w => return .inl (c, cbretval, w)
    | .inr rtt => return .inr (c, cbretval, rtt)

/-- `std_radical_walkchangelist`: the data, `*cbretval` and the table. -/
def walkchangelistWith {σ : Type} (rtt : Rtt) (dummy : HeadId) (walkFn : DataFn σ) (c : σ) (maxnodes : Int32)
    (maxVer : Version) (fuel : Nat) : Except Fault (σ × Int32 × Rtt) := do
  loop .noReturn (listTurnWith dummy maxVer walkFn) fuel (c, 0, ← listStart rtt dummy maxnodes)

/-- A callback without data. -/
def withUnit (walkFn : ListFn) : DataFn Unit := fun rth _ a => (walkFn rth a).map fun r => (r.1, (), r.2)

theorem listTurnWith_unit (dummy : HeadId) (maxVer : Version) (walkFn : ListFn) (s : Int32 × ListWalk) :
    listTurnWith dummy maxVer (withUnit walkFn) ((), s) =
      (listTurn dummy maxVer walkFn s).map (Sum.map (Prod.mk ()) (Prod.mk ())) := by
  unfold listTurnWith listTurn
  cases beforeCall dummy maxVer s.2 with
  | error e => rfl
  | ok next =>
    rcases next with w | ⟨rth, ver, w⟩ | rtt
    · rfl
    · cases called : walkFn rth w.rtt with
      | error e => simp [withUnit, called, Except.map, bind, Except.bind]
      | ok r =>
        cases after : afterCall dummy rth ver r.1 w.maxnodes r.2 with
        | error e => simp [withUnit, called, after, Except.map, bind, Except.bind]
        | ok next =>
          cases next <;> simp [withUnit, called, after, Except.map, bind, Except.bind, pure, Except.pure]
    · rfl

/-- Without data it is the same walk. -/
theorem walkchangelistWith_unit (rtt : Rtt) (dummy : HeadId) (walkFn : ListFn) (maxnodes : Int32) (maxVer : Version)
    (fuel : Nat) :
    (walkchangelistWith rtt dummy (withUnit walkFn) () maxnodes maxVer fuel).map Prod.snd =
      stdRadicalWalkchangelist rtt dummy walkFn maxnodes maxVer fuel := by
  have loops (s : Int32 × ListWalk) : (loop Fault.noReturn (listTurnWith dummy maxVer (withUnit walkFn)) fuel ((), s)).map
      Prod.snd = loop .noReturn (listTurn dummy maxVer walkFn) fuel s := by
    induction fuel generalizing s with
    | zero => rfl
    | succ fuel ih =>
      rw [loop, loop, listTurnWith_unit]
      cases listTurn dummy maxVer walkFn s with
      | error e => rfl
      | ok next =>
        cases next with
        | inl t => exact ih t
        | inr r => rfl
  unfold walkchangelistWith stdRadicalWalkchangelist
  cases listStart rtt dummy maxnodes with
  | error e => rfl
  | ok w => exact loops (0, w)

/-- What a callback notes: the call for `rth`, an append with its version, a removal,
and one that is put off because the node is locked. -/
inductive Note
  | visit (rth : HeadId)
  | append (rth : HeadId) (ver : Version)
  | remove (rth : HeadId)
  | putOff (rth : HeadId)
  deriving DecidableEq, Repr

/-- The note of a removal, when the table is `rtt` after it. -/
def removal (rtt : Rtt) (rth : HeadId) : Note := if linked rtt rth then .putOff rth else .remove rth

/-- From `rtt` to `rtt'` heads are appended and removed. -/
inductive Does : Rtt → List Note → Rtt → Prop
  | nil {rtt : Rtt} : Does rtt [] rtt
  | append {a b c : Rtt} {rth : HeadId} {ver : Version} {notes : List Note} :
      isDummy (a.heads rth) = false → stdRadicalAppendtochangelist a rth = .ok (ver, b) → Does b notes c →
      Does a (.append rth ver :: notes) c
  | remove {a b c : Rtt} {rth : HeadId} {notes : List Note} :
      isDummy (a.heads rth) = false → stdRadixRemove a rth = .ok b → Does b notes c → Does a (removal b rth :: notes) c

def visited (log : List Note) : List HeadId :=
  log.filterMap fun
    | .visit rth => some rth
    | _ => none

/-- The head has been appended. -/
def Anew (log : List Note) (h : HeadId) : Prop := ∃ ver, .append h ver ∈ log

/-- It has been appended or removed. -/
def Gone (log : List Note) (h : HeadId) : Prop := Anew log h ∨ .remove h ∈ log

/-- The active entries among `xs`. -/
def active (rtt : Rtt) (xs : List HeadId) : List HeadId := xs.filter fun h => !isDummy (rtt.heads h)

/-- The entries `old` are visited, in their order and each once, but for those that were
appended or removed before. -/
structure Visits (old : List HeadId) (log : List Note) : Prop where
  inOrder : (visited log).Sublist old
  missed : ∀ h ∈ old, h ∉ visited log → Gone log h
  due : ∀ before h, (before ++ [.visit h]) <+: log → ¬Gone before h

/-! ## While `walk_fn` runs -/

/-- A walk has its marker behind `bs`, the entries of `rest` are still to be visited, and
`news` have been appended since it began. -/
structure Course (m : HeadId) (maxVer : Version) (old : List HeadId) (a : Rtt) (log : List Note)
    (bs rest news : List HeadId) : Prop where
  listed : Listed a (bs ++ m :: (rest ++ news))
  marker : isDummy (a.heads m) = true
  plain : ∀ h ∈ old, isDummy (a.heads h) = false
  recent : maxVer ≤ a.rttVersion
  appended : ∀ h ∈ news, isDummy (a.heads h) = false ∧ maxVer < (a.heads h).rthVersion ∧ Anew log h
  stays : ∀ h ∈ bs ++ rest, ¬Anew log h
  due : ∀ h ∈ rest, isDummy (a.heads h) = false → (a.heads h).rthVersion ≤ maxVer ∧ .remove h ∉ log
  inOrder : (visited log ++ active a rest).Sublist old
  missed : ∀ h ∈ old, h ∉ visited log → h ∉ rest → Gone log h
  before : ∀ before h, (before ++ [.visit h]) <+: log → ¬Gone before h

theorem visited_append (log notes : List Note) : visited (log ++ notes) = visited log ++ visited notes :=
  List.filterMap_append ..

theorem anew_append {log notes : List Note} : Anew (log ++ notes) h ↔ Anew log h ∨ Anew notes h := by
  simp [Anew, exists_or]

theorem gone_append {log notes : List Note} : Gone (log ++ notes) h ↔ Gone log h ∨ Gone notes h := by
  rw [Gone, Gone, Gone, anew_append, List.mem_append]
  tauto

theorem gone_anew {rth : HeadId} {ver : Version} : Gone [.append rth ver] h ↔ h = rth := by
  simp [Gone, Anew]

theorem gone_remove : Gone [.remove rth] h ↔ h = rth := by
  simp [Gone, Anew]

theorem not_gone_putOff : ¬Gone [.putOff rth] h := by
  simp [Gone, Anew]

theorem active_congr (same : ∀ h, isDummy (b.heads h) = isDummy (a.heads h)) (xs : List HeadId) :
    active b xs = active a xs := List.filter_congr fun h _ => by rw [same h]

theorem append_version (rtt : Rtt) (rth : HeadId) :
    Ensures (stdRadicalAppendtochangelist rtt rth) fun r => r.1 = r.2.rttVersion := by
  unfold stdRadicalAppendtochangelist
  apply Ensures.check
  intro _
  apply Ensures.check
  intro _
  apply Ensures.any
  intro _
  apply Ensures.any
  intro a
  apply Ensures.pure
  dsimp only
  split <;> rfl

theorem Appended.isDummy (appended : Appended rth a b) (h : HeadId) : isDummy (b.heads h) = isDummy (a.heads h) := by
  by_cases mine : h = rth
  · rw [mine, appended.plain]
  · rw [Radical.isDummy, appended.flags h mine, ← Radical.isDummy]

theorem Dropped.isDummy (dropped : Dropped rth a b) (h : HeadId) : isDummy (b.heads h) = isDummy (a.heads h) := by
  by_cases mine : h = rth
  · rw [mine, dropped.plain]
  · rw [Radical.isDummy, dropped.flags h mine, ← Radical.isDummy]

theorem active_marker {xs : List HeadId} (marker : isDummy (a.heads h) = true) : active a (h :: xs) = active a xs := by
  simp [active, marker]

theorem active_entry {xs : List HeadId} (plain : isDummy (a.heads h) = false) : active a (h :: xs) = h :: active a xs := by
  simp [active, plain]

theorem active_dummies (dummies : ∀ d ∈ ds, isDummy (a.heads d) = true) (xs : List HeadId) :
    active a (ds ++ xs) = active a xs := by
  have none_ : active a ds = [] := List.filter_eq_nil_iff.mpr fun d hd => by simp [dummies d hd]
  rw [active, List.filter_append, ← active, ← active, none_, List.nil_append]

/-- The list up to its first entry. -/
theorem split_dummies (a : Rtt) (xs : List HeadId) : ∃ ds es, xs = ds ++ es ∧ (∀ d ∈ ds, isDummy (a.heads d) = true) ∧
    ∀ e ∈ es.head?, isDummy (a.heads e) = false := by
  induction xs with
  | nil => exact ⟨[], [], rfl, by simp, by simp⟩
  | cons x xs ih =>
    cases dummy : isDummy (a.heads x) with
    | false => exact ⟨[], x :: xs, rfl, by simp, by simpa using dummy⟩
    | true =>
      obtain ⟨ds, es, split, dummies, plain⟩ := ih
      exact ⟨x :: ds, es, by rw [split]; rfl, List.forall_mem_cons.mpr ⟨dummy, dummies⟩, plain⟩

namespace Course

variable {log notes : List Note} {bs' rest' news' : List HeadId}

/-- The callback makes a note, and heads are taken off the list. -/
theorem note (c : Course m maxVer old a log bs rest news) {n : Note} (quiet : visited [n] = [])
    (same : ∀ h, isDummy (b.heads h) = isDummy (a.heads h)) (listed : Listed b (bs' ++ m :: (rest' ++ news')))
    (recent : maxVer ≤ b.rttVersion)
    (appended : ∀ h ∈ news', isDummy (b.heads h) = false ∧ maxVer < (b.heads h).rthVersion ∧ Anew (log ++ [n]) h)
    (fewer : bs' ⊆ bs) (sub : rest'.Sublist rest) (versions : ∀ h ∈ rest', (b.heads h).rthVersion = (a.heads h).rthVersion)
    (keeps : ∀ h ∈ bs' ++ rest', ¬Gone [n] h) (gone : ∀ h ∈ rest, h ∉ rest' → Gone [n] h) :
    Course m maxVer old b (log ++ [n]) bs' rest' news' := by
  have visits : visited (log ++ [n]) = visited log := by rw [visited_append, quiet, List.append_nil]
  refine ⟨listed, (same m).trans c.marker, fun h hh => (same h).trans (c.plain h hh), recent, appended, ?_, ?_, ?_, ?_, ?_⟩
  · intro h hh
    have place : h ∈ bs ++ rest := by
      rw [List.mem_append] at hh ⊢
      exact hh.imp (fun inB => fewer inB) fun inR => sub.subset inR
    rw [anew_append]
    exact not_or.mpr ⟨c.stays h place, fun new => keeps h hh (.inl new)⟩
  · intro h hh plain
    obtain ⟨le, notRemoved⟩ := c.due h (sub.subset hh) ((same h).symm.trans plain)
    refine ⟨(versions h hh).symm ▸ le, ?_⟩
    rw [List.mem_append]
    exact not_or.mpr ⟨notRemoved, fun removed => keeps h (List.mem_append_right _ hh) (.inr removed)⟩
  · rw [visits, active_congr same]
    exact (List.Sublist.append_left (sub.filter _) _).trans c.inOrder
  · intro h hh unseen off
    rw [visits] at unseen
    rw [gone_append]
    by_cases inside : h ∈ rest
    · exact .inr (gone h inside off)
    · exact .inl (c.missed h hh unseen inside)
  · intro before h start
    cases List.prefix_concat_iff.mp start with
    | inl whole =>
      have last : Note.visit h = n := by
        have same := (List.append_inj' whole rfl).2
        exact List.head_eq_of_cons_eq same
      rw [← last] at quiet
      cases quiet
    | inr start => exact c.before before h start

/-- **An append of the callback.** -/
theorem append {ver : Version} (c : Course m maxVer old a log bs rest news) (plain : isDummy (a.heads rth) = false)
    (run : stdRadicalAppendtochangelist a rth = .ok (ver, b)) (nowrap : ver ≠ 0) :
    Course m maxVer old b (log ++ [.append rth ver]) (without rth bs) (without rth rest) (without rth news ++ [rth]) := by
  obtain ⟨appended, just⟩ := (append_spec c.listed plain).of_ok _ run
  have other : m ≠ rth := by
    rintro rfl
    rw [c.marker] at plain
    cases plain
  have order : without rth (bs ++ m :: (rest ++ news)) ++ [rth] =
      without rth bs ++ m :: (without rth rest ++ (without rth news ++ [rth])) := by
    simp [without, other]
  have same := appended.isDummy
  have date : ver = b.rttVersion := (append_version a rth).of_ok _ run
  have listed := c.listed.appended plain appended just
  rw [order] at listed
  have later : a.rttVersion < b.rttVersion := by
    rw [date, appended.version] at nowrap
    rw [appended.version]
    grind
  have above : maxVer < b.rttVersion := UInt64.lt_of_le_of_lt c.recent later
  refine c.note rfl same listed (UInt64.le_of_lt above) ?_ (List.filter_subset_self bs) List.filter_sublist ?_ ?_ ?_
  · intro h hh
    rw [List.mem_append, mem_without, List.mem_singleton] at hh
    cases hh with
    | inl old =>
      obtain ⟨plain', new, anew⟩ := c.appended h old.1
      refine ⟨(same h).trans plain', ?_, anew_append.mpr (.inl anew)⟩
      rw [appended.versions h old.2]
      exact new
    | inr mine =>
      subst mine
      refine ⟨(same h).trans plain, ?_, anew_append.mpr (.inr ⟨ver, List.mem_singleton_self _⟩)⟩
      rw [appended.last]
      exact above
  · intro h hh
    exact appended.versions h (mem_without.mp hh).2
  · intro h hh
    rw [gone_anew]
    cases List.mem_append.mp hh with
    | inl inB => exact (mem_without.mp inB).2
    | inr inR => exact (mem_without.mp inR).2
  · intro h inside off
    rw [gone_anew]
    by_contra ne
    exact off (mem_without.mpr ⟨inside, ne⟩)

/-- **A removal of the callback.** -/
theorem remove (c : Course m maxVer old a log bs rest news) (plain : isDummy (a.heads rth) = false)
    (run : stdRadixRemove a rth = .ok b) :
    (∀ h, isDummy (b.heads h) = isDummy (a.heads h)) ∧ ∃ bs' rest' news',
      Course m maxVer old b (log ++ [removal b rth]) bs' rest' news' ∧ rest'.Sublist rest := by
  have other : m ≠ rth := by
    rintro rfl
    rw [c.marker] at plain
    cases plain
  have order : without rth (bs ++ m :: (rest ++ news)) = without rth bs ++ m :: (without rth rest ++ without rth news) := by
    simp [without, other]
  -- what is known of the flags, the versions and the list
  obtain ⟨same, versions, version, place⟩ : (∀ h, isDummy (b.heads h) = isDummy (a.heads h)) ∧
      (∀ h, (b.heads h).rthVersion = (a.heads h).rthVersion) ∧ b.rttVersion = a.rttVersion ∧
      (Listed b (bs ++ m :: (rest ++ news)) ∨ Listed b (without rth (bs ++ m :: (rest ++ news)))) := by
    cases (remove_spec c.listed).of_ok _ run with
    | inl aside =>
      refine ⟨fun h => ?_, aside.versions, aside.version, .inl (c.listed.of_same aside.clhead aside.flags)⟩
      rw [isDummy, aside.flags h, ← isDummy]
    | inr gone =>
      obtain ⟨dropped, just⟩ := gone
      exact ⟨dropped.isDummy, dropped.versions, dropped.version, .inr (c.listed.dropped plain dropped just)⟩
  have recent : maxVer ≤ b.rttVersion := version ▸ c.recent
  refine ⟨same, ?_⟩
  cases on : linked b rth with
  | true =>
    have listed : Listed b (bs ++ m :: (rest ++ news)) := by
      cases place with
      | inl listed => exact listed
      | inr listed => exact absurd ((listed.linked_iff rth).mp on) not_mem_without
    have note_ : removal b rth = .putOff rth := if_pos on
    rw [note_]
    refine ⟨bs, rest, news, c.note rfl same listed recent ?_ (List.Subset.refl bs) (.refl rest) (fun h _ => versions h)
      (fun _ _ => not_gone_putOff) fun h inside off => absurd inside off, .refl rest⟩
    intro h hh
    obtain ⟨plain', new, anew⟩ := c.appended h hh
    exact ⟨(same h).trans plain', (versions h).symm ▸ new, anew_append.mpr (.inl anew)⟩
  | false =>
    have listed : Listed b (without rth (bs ++ m :: (rest ++ news))) := by
      cases place with
      | inl listed =>
        have off : rth ∉ bs ++ m :: (rest ++ news) := by
          rw [← listed.linked_iff, on]
          exact Bool.false_ne_true
        rw [without_off off]
        exact listed
      | inr listed => exact listed
    have note_ : removal b rth = .remove rth := if_neg (by simp [on])
    rw [order] at listed
    rw [note_]
    refine ⟨_, _, _, c.note rfl same listed recent ?_ (List.filter_subset_self bs) List.filter_sublist
      (fun h _ => versions h) ?_ ?_, List.filter_sublist⟩
    · intro h hh
      obtain ⟨plain', new, anew⟩ := c.appended h (mem_without.mp hh).1
      exact ⟨(same h).trans plain', (versions h).symm ▸ new, anew_append.mpr (.inl anew)⟩
    · intro h hh
      rw [gone_remove]
      cases List.mem_append.mp hh with
      | inl inB => exact (mem_without.mp inB).2
      | inr inR => exact (mem_without.mp inR).2
    · intro h inside off
      rw [gone_remove]
      by_contra ne
      exact off (mem_without.mpr ⟨inside, ne⟩)

/-- **What the callback does** leaves the walk on its course. -/
theorem does (c : Course m maxVer old a log bs rest news) (does : Does a notes b) (steady : ∀ h, .append h 0 ∉ notes) :
    ∃ bs' rest' news', Course m maxVer old b (log ++ notes) bs' rest' news' ∧
      (active b rest').Sublist (active a rest) := by
  induction does generalizing log bs rest news with
  | nil =>
    rw [List.append_nil]
    exact ⟨bs, rest, news, c, .refl _⟩
  | @append a b _ rth ver notes plain run _ ih =>
    have nowrap : ver ≠ 0 := fun zero => steady rth (zero ▸ List.mem_cons_self)
    obtain ⟨bs', rest', news', c', fewer⟩ := ih (c.append plain run nowrap) fun h inside =>
      steady h (List.mem_cons_of_mem _ inside)
    rw [← List.append_cons] at c'
    obtain ⟨appended, _⟩ := (append_spec c.listed plain).of_ok _ run
    rw [active_congr appended.isDummy] at fewer
    exact ⟨bs', rest', news', c', fewer.trans (List.filter_sublist.filter _)⟩
  | @remove a b _ rth notes plain run _ ih =>
    obtain ⟨same, bs₁, rest₁, news₁, c₁, sub⟩ := c.remove plain run
    obtain ⟨bs', rest', news', c', fewer⟩ := ih c₁ fun h inside => steady h (List.mem_cons_of_mem _ inside)
    rw [← List.append_cons] at c'
    rw [active_congr same] at fewer
    exact ⟨bs', rest', news', c', fewer.trans (sub.filter _)⟩

/-! ## Between two calls -/

/-- The marker goes to another place, and nothing else changes. -/
theorem moved (c : Course m maxVer old a log bs rest news) (carried : Carried m a b)
    (just : b.rttClhead.Just (bs' ++ m :: (rest' ++ news))) (split : bs ++ rest = bs' ++ rest') :
    Listed b (bs' ++ m :: (rest' ++ news)) := by
  apply c.listed.marked carried.marking (c.listed.spare c.marker) just
  · rw [without_around just.distinct, without_around c.listed.just.distinct, ← List.append_assoc, ← split,
      List.append_assoc]
  · simp [carried.isDummy, c.marker]

/-- The walk passes other markers. -/
theorem pass (c : Course m maxVer old a log bs (ds ++ rest) news) (dummies : ∀ d ∈ ds, isDummy (a.heads d) = true)
    (carried : Carried m a b) (just : b.rttClhead.Just (bs ++ ds ++ m :: (rest ++ news))) :
    Course m maxVer old b log (bs ++ ds) rest news := by
  have same := carried.isDummy
  have versions (h : HeadId) (plain : isDummy (a.heads h) = false) : (b.heads h).rthVersion = (a.heads h).rthVersion := by
    apply carried.versions
    rintro rfl
    rw [c.marker] at plain
    cases plain
  have skipped := active_dummies dummies rest
  refine ⟨c.moved carried just (List.append_assoc ..).symm, (same m).trans c.marker,
    fun h hh => (same h).trans (c.plain h hh), carried.version ▸ c.recent, ?_, ?_, ?_, ?_, ?_, c.before⟩
  · intro h hh
    obtain ⟨plain, new, anew⟩ := c.appended h hh
    exact ⟨(same h).trans plain, (versions h plain).symm ▸ new, anew⟩
  · intro h hh
    rw [List.append_assoc] at hh
    exact c.stays h hh
  · intro h hh plain
    rw [same] at plain
    rw [versions h plain]
    exact c.due h (List.mem_append_right _ hh) plain
  · rw [active_congr same, ← skipped]
    exact c.inOrder
  · intro h hh unseen off
    apply c.missed h hh unseen
    rw [List.mem_append]
    refine not_or.mpr ⟨fun inD => ?_, off⟩
    have dummy := dummies h inD
    rw [c.plain h hh] at dummy
    cases dummy

/-- The walk visits the next entry. -/
theorem visit (c : Course m maxVer old a log bs (ds ++ rth :: rest) news)
    (dummies : ∀ d ∈ ds, isDummy (a.heads d) = true) (plain : isDummy (a.heads rth) = false)
    (carried : Carried m a b) (just : b.rttClhead.Just (bs ++ ds ++ [rth] ++ m :: (rest ++ news))) :
    Course m maxVer old b (log ++ [.visit rth]) (bs ++ ds ++ [rth]) rest news := by
  have same := carried.isDummy
  have versions (h : HeadId) (plain : isDummy (a.heads h) = false) : (b.heads h).rthVersion = (a.heads h).rthVersion := by
    apply carried.versions
    rintro rfl
    rw [c.marker] at plain
    cases plain
  have anew {h : HeadId} : Anew (log ++ [.visit rth]) h ↔ Anew log h := by simp [Anew]
  have visits : visited (log ++ [.visit rth]) = visited log ++ [rth] := visited_append ..
  have first : active a (ds ++ rth :: rest) = rth :: active a rest := by
    rw [active_dummies dummies]
    exact List.filter_cons_of_pos (by simp [plain])
  have split : bs ++ (ds ++ rth :: rest) = bs ++ ds ++ [rth] ++ rest := by simp
  refine ⟨c.moved carried just split, (same m).trans c.marker,
    fun h hh => (same h).trans (c.plain h hh), carried.version ▸ c.recent, ?_, ?_, ?_, ?_, ?_, ?_⟩
  · intro h hh
    obtain ⟨plain, new, old⟩ := c.appended h hh
    exact ⟨(same h).trans plain, (versions h plain).symm ▸ new, anew.mpr old⟩
  · intro h hh
    rw [← split] at hh
    exact fun new => c.stays h hh (anew.mp new)
  · intro h hh plain
    rw [same] at plain
    obtain ⟨le, notRemoved⟩ := c.due h (by simp [hh]) plain
    exact ⟨(versions h plain).symm ▸ le, by simpa using notRemoved⟩
  · rw [visits, active_congr same, ← List.append_cons, ← first]
    exact c.inOrder
  · intro h hh unseen off
    rw [visits, List.mem_append, List.mem_singleton, not_or] at unseen
    rw [gone_append]
    refine .inl (c.missed h hh unseen.1 ?_)
    rw [List.mem_append, List.mem_cons]
    refine not_or.mpr ⟨fun inD => ?_, not_or.mpr ⟨unseen.2, off⟩⟩
    have dummy := dummies h inD
    rw [c.plain h hh] at dummy
    cases dummy
  · intro before h start
    cases List.prefix_concat_iff.mp start with
    | inl whole =>
      obtain ⟨rfl, last⟩ := List.append_inj' whole rfl
      have mine : h = rth := by simpa using last
      subst mine
      exact not_or.mpr ⟨c.stays h (by simp), (c.due h (by simp) plain).2⟩
    | inr start => exact c.before before h start

end Course

/-! ## The loop -/

section Loop

variable {walkFn : DataFn (List Note)} {log : List Note} {w : ListWalk} {r : Int32}

/-- The loop skips markers. -/
theorem skim {xs : List HeadId} (just : w.rtt.rttClhead.Just (bs ++ (ds ++ xs))) (first : w.tRth = (ds ++ xs).head?)
    (dummies : ∀ d ∈ ds, isDummy (w.rtt.heads d) = true) :
    Leads (listTurnWith m maxVer walkFn) (log, r, w) (log, r, { w with tRth := xs.head? }) := by
  induction ds generalizing bs w with
  | nil =>
    rw [List.nil_append] at first
    rw [← first]
    exact .refl _
  | cons d ds ih =>
    have here : w.tRth = some d := first
    obtain ⟨dummy, dummies'⟩ := List.forall_mem_cons.mp dummies
    have turn : listTurnWith m maxVer walkFn (log, r, w) = .ok (.inl (log, r, { w with tRth := (ds ++ xs).head? })) := by
      have before : beforeCall m maxVer w = .ok (.inl { w with tRth := (ds ++ xs).head? }) := by
        simp only [beforeCall, here, dummy, next_of just]
        rfl
      rw [listTurnWith, before]
      rfl
    refine .head turn (@ih (bs ++ [d]) { w with tRth := (ds ++ xs).head? } ?_ rfl dummies')
    rw [← List.append_cons]
    exact just

/-- After a call that returns 0 the walk goes on behind its marker, if `maxnodes` allows. -/
theorem afterCall_zero (rth : HeadId) (ver : Version) (maxnodes : Int32) {cs : List HeadId}
    (just : b.rttClhead.Just (bs ++ m :: cs)) :
    maxnodes - 1 = 0 ∧ afterCall m rth ver 0 maxnodes b = .ok (.inr (setVersion b m ver)) ∨
      maxnodes - 1 ≠ 0 ∧ ∃ b', afterCall m rth ver 0 maxnodes b = .ok (.inl ⟨cs.head?, maxnodes - 1, b'⟩) ∧
        Carried m b b' ∧ b'.rttClhead.Just (bs ++ cs) := by
  have dated : (setVersion b m ver).rttClhead.Just (bs ++ m :: cs) := just
  by_cases last : maxnodes - 1 = 0
  · refine .inl ⟨last, ?_⟩
    simp [afterCall, last]
  · obtain ⟨cl, run, gone⟩ := dated.remove
    have off : unlink (setVersion b m ver) m = .ok (setList (setVersion b m ver) cl) := relist_of _ run
    refine .inr ⟨last, setList (setVersion b m ver) cl, ?_, (carried_setVersion ver).trans (carried_setList cl), gone⟩
    simp [afterCall, last, off, next_of dated]

/-- The loop stops before the heads of later versions. -/
theorem beforeCall_over (just : w.rtt.rttClhead.Just (bs ++ news)) (off : m ∉ bs ++ news) (first : w.tRth = news.head?)
    (beyond : ∀ e ∈ news.head?, isDummy (w.rtt.heads e) = false ∧ maxVer < (w.rtt.heads e).rthVersion) :
    ∃ b, beforeCall m maxVer w = .ok (.inr (.done b)) ∧ Carried m w.rtt b ∧ b.rttClhead.Just (bs ++ m :: news) := by
  cases news with
  | nil =>
    have none_ : w.tRth = none := first
    rw [List.append_nil] at just off
    obtain ⟨cl, run, just'⟩ := just.insertatback off
    have placed : relist (setVersion w.rtt m w.rtt.rttVersion) (fun cl => cl.insertatback (.item m)) = .ok (setList _ cl) :=
      relist_of _ run
    refine ⟨_, ?_, (carried_setVersion w.rtt.rttVersion).trans (carried_setList cl), just'⟩
    simp [beforeCall, none_, placed]
  | cons e news =>
    have some_ : w.tRth = some e := first
    obtain ⟨plain, later⟩ := beyond e rfl
    obtain ⟨cl, run, just'⟩ := just.insertbefore off
    have placed : relist (setVersion w.rtt m maxVer) (fun cl => cl.insertbefore (.item e) (.item m)) = .ok (setList _ cl) :=
      relist_of _ run
    refine ⟨_, ?_, (carried_setVersion maxVer).trans (carried_setList cl), just'⟩
    simp [beforeCall, some_, plain, later, placed]

/-- The loop calls `walk_fn` for the next entry. -/
theorem beforeCall_visit {e : HeadId} {cs : List HeadId} (just : w.rtt.rttClhead.Just (bs ++ e :: cs))
    (off : m ∉ bs ++ e :: cs) (first : w.tRth = some e) (plain : isDummy (w.rtt.heads e) = false)
    (le : (w.rtt.heads e).rthVersion ≤ maxVer) :
    ∃ b, beforeCall m maxVer w = .ok (.inr (.call e (w.rtt.heads e).rthVersion { w with rtt := b })) ∧
      Carried m w.rtt b ∧ b.rttClhead.Just (bs ++ e :: m :: cs) := by
  obtain ⟨cl, run, just'⟩ := just.insertafter off
  have placed : relist w.rtt (fun cl => cl.insertafter (.item e) (.item m)) = .ok (setList w.rtt cl) := relist_of _ run
  have notLater : ¬maxVer < (w.rtt.heads e).rthVersion := UInt64.not_lt.mpr le
  refine ⟨_, ?_, carried_setList cl, just'⟩
  simp [beforeCall, first, plain, notLater, placed]

/-- The walk that has begun with `w₀` calls `walk_fn` for `rth`, with these notes and this
table. -/
def Calls (m : HeadId) (maxVer : Version) (walkFn : DataFn (List Note)) (w₀ : ListWalk) (rth : HeadId)
    (log : List Note) (a : Rtt) : Prop :=
  ∃ r w ver w', Leads (listTurnWith m maxVer walkFn) ([], 0, w₀) (log, r, w) ∧
    beforeCall m maxVer w = .ok (.inr (.call rth ver w')) ∧ w'.rtt = a

/-- Whenever it is called, `walk_fn` appends and removes heads, notes that and returns 0. -/
def Polite (rtt : Rtt) (m : HeadId) (maxVer : Version) (walkFn : DataFn (List Note)) : Prop :=
  ∀ w₀ rth log a, listStart rtt m 0 = .ok w₀ → Calls m maxVer walkFn w₀ rth log a →
    ∃ notes b, walkFn rth log a = .ok (0, log ++ .visit rth :: notes, b) ∧ Does a notes b

/-- None of its appends makes the version wrap. -/
def NeverWraps (rtt : Rtt) (m : HeadId) (maxVer : Version) (walkFn : DataFn (List Note)) : Prop :=
  ∀ w₀ rth log a, listStart rtt m 0 = .ok w₀ → Calls m maxVer walkFn w₀ rth log a →
    ∀ r notes b, walkFn rth log a = .ok (r, log ++ notes, b) → ∀ h, .append h 0 ∉ notes

/-- A walk between two calls: its marker is out of the list, where `a` has it. -/
structure Gap (m : HeadId) (maxVer : Version) (old : List HeadId) (a : Rtt) (w : ListWalk) (log : List Note)
    (bs rest news : List HeadId) : Prop where
  course : Course m maxVer old a log bs rest news
  carried : Carried m a w.rtt
  just : w.rtt.rttClhead.Just (bs ++ (rest ++ news))
  first : w.tRth = (rest ++ news).head?
  left : (active a rest).length ≤ w.maxnodes.toBitVec.toNat

theorem Gap.version (g : Gap m maxVer old a w log bs rest news) (plain : isDummy (a.heads h) = false) :
    (w.rtt.heads h).rthVersion = (a.heads h).rthVersion := by
  apply g.carried.versions
  rintro rfl
  rw [g.course.marker] at plain
  cases plain

/-- The loop goes on past markers. -/
theorem Gap.skims (walkFn : DataFn (List Note)) (g : Gap m maxVer old a w log bs (ds ++ es) news)
    (dummies : ∀ d ∈ ds, isDummy (a.heads d) = true) :
    Leads (listTurnWith m maxVer walkFn) (log, 0, w) (log, 0, { w with tRth := (es ++ news).head? }) ∧
      w.rtt.rttClhead.Just (bs ++ ds ++ (es ++ news)) ∧ m ∉ bs ++ ds ++ (es ++ news) := by
  have dummies' : ∀ d ∈ ds, isDummy (w.rtt.heads d) = true := fun d hd => (g.carried.isDummy d).trans (dummies d hd)
  have just : w.rtt.rttClhead.Just (bs ++ (ds ++ (es ++ news))) := by
    rw [← List.append_assoc ds]
    exact g.just
  have first : w.tRth = (ds ++ (es ++ news)).head? := by
    rw [← List.append_assoc]
    exact g.first
  refine ⟨skim just first dummies', by rwa [List.append_assoc], ?_⟩
  have distinct := (List.nodup_cons.mp (List.nodup_middle.mp g.course.listed.just.distinct)).1
  simpa using distinct

/-- The loop ends where no entry is left. -/
theorem Gap.over (g : Gap m maxVer old a w log bs (ds ++ []) news) (dummies : ∀ d ∈ ds, isDummy (a.heads d) = true) :
    ∃ b, Ends .noReturn (listTurnWith m maxVer walkFn) (log, 0, w) (log, 0, b) ∧
      Course m maxVer old b log (bs ++ ds) [] news := by
  obtain ⟨skims, just, off⟩ := g.skims walkFn dummies
  have beyond : ∀ e ∈ news.head?, isDummy (w.rtt.heads e) = false ∧ maxVer < (w.rtt.heads e).rthVersion := by
    intro e he
    obtain ⟨plain, new, _⟩ := g.course.appended e (List.mem_of_mem_head? he)
    exact ⟨(g.carried.isDummy e).trans plain, (g.version plain).symm ▸ new⟩
  obtain ⟨b, before, carried, just'⟩ :=
    @beforeCall_over m maxVer (bs ++ ds) news { w with tRth := news.head? } just off rfl beyond
  have turn : listTurnWith m maxVer walkFn (log, 0, { w with tRth := ([] ++ news).head? }) = .ok (.inr (log, 0, b)) := by
    rw [listTurnWith, List.nil_append, before]
    rfl
  exact ⟨b, skims.ends (.done turn), g.course.pass dummies (g.carried.trans carried) just'⟩

/-- At an entry there is a call, after which fewer ones are left. -/
theorem Gap.call {w₀ : ListWalk} {e : HeadId} (polite : Polite rtt m maxVer walkFn)
    (steady : NeverWraps rtt m maxVer walkFn) (start : listStart rtt m 0 = .ok w₀)
    (reach : Leads (listTurnWith m maxVer walkFn) ([], 0, w₀) (log, 0, w))
    (g : Gap m maxVer old a w log bs (ds ++ e :: es) news) (dummies : ∀ d ∈ ds, isDummy (a.heads d) = true)
    (plain : isDummy (a.heads e) = false) :
    ∃ b notes c bs' rest' news',
      beforeCall m maxVer { w with tRth := some e } = .ok (.inr (.call e (w.rtt.heads e).rthVersion ⟨some e, w.maxnodes, b⟩)) ∧
      walkFn e log b = .ok (0, log ++ .visit e :: notes, c) ∧
      Course m maxVer old c (log ++ .visit e :: notes) bs' rest' news' ∧
      (active c rest').length < (active a (ds ++ e :: es)).length := by
  obtain ⟨skims, just, off⟩ := g.skims walkFn dummies
  have le : (w.rtt.heads e).rthVersion ≤ maxVer := by
    rw [g.version plain]
    exact (g.course.due e (by simp) plain).1
  obtain ⟨b, before, carried, just'⟩ := @beforeCall_visit m maxVer (bs ++ ds)
    { w with tRth := some e } e (es ++ news) just off rfl ((g.carried.isDummy e).trans plain) le
  have calls : Calls m maxVer walkFn w₀ e log b := ⟨0, _, _, _, reach.trans skims, before, rfl⟩
  obtain ⟨notes, c, answer, does⟩ := polite w₀ e log b start calls
  have never : ∀ h, .append h 0 ∉ notes := fun h inside =>
    steady w₀ e log b start calls 0 _ c answer h (List.mem_cons_of_mem _ inside)
  rw [List.append_cons] at just'
  obtain ⟨bs', rest', news', course, fewer⟩ :=
    (g.course.visit dummies plain (g.carried.trans carried) just').does does never
  rw [← List.append_cons] at course
  rw [active_congr (g.carried.trans carried).isDummy] at fewer
  have size : (active a (ds ++ e :: es)).length = (active a es).length + 1 := by
    rw [active_dummies dummies, active, List.filter_cons_of_pos (by simp [plain]), List.length_cons, ← active]
  exact ⟨b, notes, c, bs', rest', news', before, answer, course, size ▸ Nat.lt_succ_of_le fewer.length_le⟩

/-- **One call more.** The loop ends, and no entry is left, or it goes on with fewer ones. -/
theorem Gap.turn {w₀ : ListWalk} (polite : Polite rtt m maxVer walkFn) (steady : NeverWraps rtt m maxVer walkFn)
    (start : listStart rtt m 0 = .ok w₀) (reach : Leads (listTurnWith m maxVer walkFn) ([], 0, w₀) (log, 0, w))
    (g : Gap m maxVer old a w log bs rest news) :
    (∃ log' b bs' rest' news', Ends .noReturn (listTurnWith m maxVer walkFn) (log, 0, w) (log', 0, b) ∧
      Course m maxVer old b log' bs' rest' news' ∧ active b rest' = []) ∨
    ∃ c w' log' bs' rest' news', Leads (listTurnWith m maxVer walkFn) (log, 0, w) (log', 0, w') ∧
      Gap m maxVer old c w' log' bs' rest' news' ∧ (active c rest').length < (active a rest).length := by
  obtain ⟨ds, es, rfl, dummies, plain⟩ := split_dummies a rest
  cases es with
  | nil =>
    obtain ⟨b, ends, course⟩ := g.over dummies
    exact .inl ⟨log, b, _, [], news, ends, course, rfl⟩
  | cons e es =>
    obtain ⟨b, notes, c, bs', rest', news', before, answer, course, less⟩ :=
      g.call polite steady start reach dummies (plain e rfl)
    have skims := (g.skims walkFn dummies).1
    have left := g.left
    cases afterCall_zero e (w.rtt.heads e).rthVersion w.maxnodes course.listed.just with
    | inl last =>
      obtain ⟨one, after⟩ := last
      have budget : w.maxnodes.toBitVec.toNat = 1 := by
        have bits : w.maxnodes.toBitVec - 1#32 = 0#32 := congrArg Int32.toBitVec one
        bv_omega
      have turn : listTurnWith m maxVer walkFn (log, 0, { w with tRth := (e :: es ++ news).head? }) =
          .ok (.inr (log ++ .visit e :: notes, 0, setVersion c m (w.rtt.heads e).rthVersion)) := by
        rw [listTurnWith, List.cons_append, List.head?_cons, before]
        simp [answer, after]
      have ended : Course m maxVer old (setVersion c m (w.rtt.heads e).rthVersion) (log ++ .visit e :: notes)
          (bs' ++ []) rest' news' := by
        have here : Course m maxVer old c (log ++ .visit e :: notes) bs' ([] ++ rest') news' := course
        apply here.pass (by simp) (carried_setVersion _)
        rw [List.append_nil]
        exact course.listed.just
      refine .inl ⟨_, _, _, _, _, skims.ends (.done turn), ended, ?_⟩
      have none_ : active c rest' = [] := List.length_eq_zero_iff.mp (by omega)
      rw [active_congr (carried_setVersion _).isDummy, none_]
    | inr goesOn =>
      obtain ⟨more, c', after, carried, just⟩ := goesOn
      have budget : (w.maxnodes - 1).toBitVec.toNat + 1 = w.maxnodes.toBitVec.toNat := by
        have bits : (w.maxnodes - 1).toBitVec = w.maxnodes.toBitVec - 1#32 := rfl
        rw [bits]
        bv_omega
      have turn : listTurnWith m maxVer walkFn (log, 0, { w with tRth := (e :: es ++ news).head? }) =
          .ok (.inl (log ++ .visit e :: notes, 0, ⟨(rest' ++ news').head?, w.maxnodes - 1, c'⟩)) := by
        rw [listTurnWith, List.cons_append, List.head?_cons, before]
        simp [answer, after]
      have gap : Gap m maxVer old c ⟨(rest' ++ news').head?, w.maxnodes - 1, c'⟩ (log ++ .visit e :: notes)
          bs' rest' news' := ⟨course, carried, just, rfl, by dsimp only; omega⟩
      exact .inr ⟨c, _, _, bs', rest', news', skims.trans (.single turn), gap, less⟩

/-- **The loop ends**, and then no entry is left to be visited. -/
theorem Gap.ends {w₀ : ListWalk} (polite : Polite rtt m maxVer walkFn) (steady : NeverWraps rtt m maxVer walkFn)
    (start : listStart rtt m 0 = .ok w₀) (reach : Leads (listTurnWith m maxVer walkFn) ([], 0, w₀) (log, 0, w))
    (g : Gap m maxVer old a w log bs rest news) :
    ∃ log' b bs' rest' news', Ends .noReturn (listTurnWith m maxVer walkFn) (log, 0, w) (log', 0, b) ∧
      Course m maxVer old b log' bs' rest' news' ∧ active b rest' = [] := by
  induction count : (active a rest).length using Nat.strongRecOn generalizing a w log bs rest news with
  | ind n ih =>
    rcases g.turn polite steady start reach with ended | ⟨c, w', log', bs', rest', news', leads, gap, less⟩
    · exact ended
    · obtain ⟨log₂, b, bs₂, rest₂, news₂, ends, ended, none_⟩ := ih _ (count ▸ less) (reach.trans leads) gap rfl
      exact ⟨log₂, b, bs₂, rest₂, news₂, leads.ends ends, ended, none_⟩

end Loop

/-- `listAppended` with the marker 7, when the next version is `ver`. -/
def markedTable (ver : Version) : Rtt :=
  match stdRadicalWalkconstructor { listAppended with rttVersion := ver - 1 } 7 with
  | .ok rtt => rtt
  | .error _ => listAppended

theorem listed_appended : Listed listAppended [0] := by
  have fair : Allocs.Fair ⟨none, some 0, some 1⟩ listTable := ⟨fun _ _ => rfl, by decide⟩
  have inserted : stdRadixInsert listTable 0 8 ⟨none, some 0, some 1⟩ = .ok (some 0, listInserted) := rfl
  have appended : stdRadicalAppendtochangelist listInserted 0 = .ok (1, listAppended) := rfl
  have empty : Listed listTable [] := start_list.sound.listed
  have beside := (insert_spec empty rfl fair).of_ok _ inserted
  have empty' : Listed listInserted [] := empty.of_same beside.clhead beside.flags
  obtain ⟨last, just⟩ := (append_spec empty' rfl).of_ok _ appended
  exact empty'.appended rfl last just

end SonicUtils.Radical
