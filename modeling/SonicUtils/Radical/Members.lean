import Mathlib.Data.UInt
import SonicUtils.LinkedList.Members
import SonicUtils.Radical.Model
import SonicUtils.Radix.Starved

/-!
# What is on a change list

The flags of a head say whether it is on the list, as an entry or as a marker.

* `construct_spec`, `constructafter_spec`, `destruct_spec`: markers;
* `append_spec`, `remove_spec`, `insert_spec`: entries;
* `comesTo_spec`, `afterCall_spec`: walks, between two calls of `walk_fn`.
-/

namespace SonicUtils.Radical

open Radix LinkedList Dll

variable {rtt rtt' : Rtt} {m h rth : HeadId} {xs ys as cs : List HeadId} {f b c : UInt32}

/-! ## Flags -/

theorem or_apart (apart : c &&& b = 0) : (f ||| c) &&& b = f &&& b := by
  apply UInt32.toBitVec_inj.mp
  have bits := congrArg UInt32.toBitVec apart
  ext i hi
  have bit := congrArg (fun z : BitVec 32 => z[i]) bits
  simp at bit ⊢
  grind

theorem and_apart (apart : c &&& b = 0) : (f &&& ~~~ c) &&& b = f &&& b := by
  apply UInt32.toBitVec_inj.mp
  have bits := congrArg UInt32.toBitVec apart
  ext i hi
  have bit := congrArg (fun z : BitVec 32 => z[i]) bits
  simp at bit ⊢
  grind

theorem or_same : (f ||| b) &&& b = b := by
  apply UInt32.toBitVec_inj.mp
  ext i hi
  simp only [UInt32.toBitVec_and, UInt32.toBitVec_or, BitVec.getElem_and, BitVec.getElem_or]
  grind

theorem and_same : (f &&& ~~~ b) &&& b = 0 := by
  apply UInt32.toBitVec_inj.mp
  ext i hi
  simp

@[simp] theorem included_setDummy (a : RtHead) :
    included { a with rdclFlags := a.rdclFlags ||| rdclDummy } = included a := by
  simp [included, or_apart (c := rdclDummy) (b := rdclIncl) rfl]

@[simp] theorem isDummy_setDummy (a : RtHead) : isDummy { a with rdclFlags := a.rdclFlags ||| rdclDummy } = true := by
  have bit : rdclDummy ≠ 0 := by decide
  simp [isDummy, or_same, bit]

@[simp] theorem included_clrDummy (a : RtHead) :
    included { a with rdclFlags := a.rdclFlags &&& ~~~ rdclDummy } = included a := by
  simp [included, and_apart (c := rdclDummy) (b := rdclIncl) rfl]

@[simp] theorem isDummy_clrDummy (a : RtHead) :
    isDummy { a with rdclFlags := a.rdclFlags &&& ~~~ rdclDummy } = false := by
  simp [isDummy, and_same]

@[simp] theorem included_setIncl (a : RtHead) : included { a with rdclFlags := a.rdclFlags ||| rdclIncl } = true := by
  have bit : rdclIncl ≠ 0 := by decide
  simp [included, or_same, bit]

@[simp] theorem isDummy_setIncl (a : RtHead) :
    isDummy { a with rdclFlags := a.rdclFlags ||| rdclIncl } = isDummy a := by
  simp [isDummy, or_apart (c := rdclIncl) (b := rdclDummy) rfl]

@[simp] theorem included_clrIncl (a : RtHead) :
    included { a with rdclFlags := a.rdclFlags &&& ~~~ rdclIncl } = false := by
  simp [included, and_same]

@[simp] theorem isDummy_clrIncl (a : RtHead) :
    isDummy { a with rdclFlags := a.rdclFlags &&& ~~~ rdclIncl } = isDummy a := by
  simp [isDummy, and_apart (c := rdclIncl) (b := rdclDummy) rfl]

/-- On the list are `xs`, and the flags say so. -/
structure Listed (rtt : Rtt) (xs : List HeadId) : Prop where
  just : rtt.rttClhead.Just xs
  flagged : ∀ h, h ∈ xs ↔ included (rtt.heads h) = true ∨ isDummy (rtt.heads h) = true
  apart : ∀ h, included (rtt.heads h) = true → isDummy (rtt.heads h) = false

theorem Listed.entry (l : Listed rtt xs) (plain : isDummy (rtt.heads h) = false) :
    h ∈ xs ↔ included (rtt.heads h) = true := by
  rw [l.flagged h, plain]
  simp

theorem Listed.marker (l : Listed rtt xs) (spare : included (rtt.heads m) = false) :
    m ∈ xs ↔ isDummy (rtt.heads m) = true := by
  rw [l.flagged m, spare]
  simp

theorem Listed.linked_iff (l : Listed rtt xs) (h : HeadId) : linked rtt h = true ↔ h ∈ xs := l.just.islinked_iff h

/-! ## Lists without a head -/

/-- The list without `m`. -/
def without (m : HeadId) (xs : List HeadId) : List HeadId := xs.filter (· ≠ m)

theorem without_off (off : m ∉ xs) : without m xs = xs :=
  List.filter_eq_self.mpr fun a ha => by
    have other : a ≠ m := fun same => off (same ▸ ha)
    simpa using other

theorem without_around (distinct : (as ++ m :: cs).Nodup) : without m (as ++ m :: cs) = as ++ cs := by
  have off := (List.nodup_cons.mp (List.nodup_middle.mp distinct)).1
  have left : without m as = as := without_off fun ha => off (by simp [ha])
  have right : without m cs = cs := without_off fun ha => off (by simp [ha])
  calc without m (as ++ m :: cs) = without m as ++ without m cs := by simp [without]
    _ = as ++ cs := by rw [left, right]

theorem mem_without : h ∈ without m xs ↔ h ∈ xs ∧ h ≠ m := by simp [without]

theorem not_mem_without : m ∉ without m xs := by simp [without]

@[simp] theorem clhead_setList (cl : Dll HeadId) : (setList rtt cl).rttClhead = cl := rfl

@[simp] theorem clhead_setVersion (ver : Version) : (setVersion rtt h ver).rttClhead = rtt.rttClhead := rfl

theorem relist_of (rtt : Rtt) {f : Dll HeadId → Except Fault (Dll HeadId)} {cl : Dll HeadId} (run : f rtt.rttClhead = .ok cl) :
    relist rtt f = .ok (setList rtt cl) := by
  simp [relist, run]

/-- The removal of a head, if it is linked. -/
theorem unlink_linked (just : rtt.rttClhead.Just xs) :
    ∃ cl, unlinkIf (linked rtt m) rtt m = .ok (setList rtt cl) ∧ cl.Just (without m xs) := by
  by_cases inside : m ∈ xs
  · have on : linked rtt m = true := (just.islinked_iff m).mpr inside
    obtain ⟨as, cs, rfl⟩ := List.append_of_mem inside
    obtain ⟨cl, run, gone⟩ := just.remove
    refine ⟨cl, ?_, (without_around just.distinct).symm ▸ gone⟩
    simp [unlinkIf, on, unlink, relist, run]
  · have off : linked rtt m = false := Bool.eq_false_iff.mpr (mt (just.islinked_iff m).mp inside)
    rw [without_off inside]
    exact ⟨rtt.rttClhead, by simp [unlinkIf, off, setList], just⟩

/-! ## Markers -/

/-- Nothing has changed but the list, and the flags and the version of the marker `m`. -/
structure Marking (m : HeadId) (rtt rtt' : Rtt) : Prop where
  flags : ∀ h ≠ m, (rtt'.heads h).rdclFlags = (rtt.heads h).rdclFlags
  entry : included (rtt'.heads m) = included (rtt.heads m)
  versions : ∀ h ≠ m, (rtt'.heads h).rthVersion = (rtt.heads h).rthVersion
  version : rtt'.rttVersion = rtt.rttVersion

theorem Marking.trans {rtt'' : Rtt} (a : Marking m rtt rtt') (b : Marking m rtt' rtt'') : Marking m rtt rtt'' where
  flags h ne := (b.flags h ne).trans (a.flags h ne)
  entry := b.entry.trans a.entry
  versions h ne := (b.versions h ne).trans (a.versions h ne)
  version := b.version.trans a.version

theorem Marking.of_heads (heads : rtt'.heads = rtt.heads) (version : rtt'.rttVersion = rtt.rttVersion) :
    Marking m rtt rtt' := ⟨fun _ _ => by rw [heads], by rw [heads], fun _ _ => by rw [heads], version⟩

theorem marking_writeHead {g : RtHead → RtHead} (entry : ∀ a, included (g a) = included a) :
    Marking m rtt (rtt.writeHead m g) := by
  refine ⟨fun h ne => ?_, ?_, fun h ne => ?_, rfl⟩
  · rw [heads_writeHead, if_neg ne]
  · rw [heads_writeHead, if_pos rfl, entry]
  · rw [heads_writeHead, if_neg ne]

theorem included_setVersion (ver : Version) (a : RtHead) : included { a with rthVersion := ver } = included a := rfl

theorem isDummy_setVersion (ver : Version) (h : HeadId) :
    isDummy ((setVersion rtt m ver).heads h) = isDummy (rtt.heads h) := by
  rw [setVersion, heads_writeHead]
  split
  · rename_i same
    rw [same]
    rfl
  · rfl

theorem Marking.included (a : Marking m rtt rtt') (h : HeadId) :
    included (rtt'.heads h) = included (rtt.heads h) := by
  by_cases same : h = m
  · rw [same, a.entry]
  · rw [Radical.included, a.flags h same, ← Radical.included]

theorem Marking.isDummy (a : Marking m rtt rtt') {h : HeadId} (ne : h ≠ m) :
    isDummy (rtt'.heads h) = isDummy (rtt.heads h) := by
  rw [Radical.isDummy, a.flags h ne, ← Radical.isDummy]

/-- The marker is on the new list if its flag says so. -/
theorem Listed.marked (l : Listed rtt xs) (a : Marking m rtt rtt') (spare : included (rtt.heads m) = false)
    (just : rtt'.rttClhead.Just ys) (same : without m ys = without m xs)
    (own : m ∈ ys ↔ isDummy (rtt'.heads m) = true) : Listed rtt' ys := by
  refine ⟨just, fun h => ?_, fun h entry => ?_⟩
  · by_cases mine : h = m
    · subst mine
      rw [own, a.included, spare]
      simp
    · have members : h ∈ ys ↔ h ∈ xs := by
        have left : h ∈ ys ↔ h ∈ without m ys := by simp [mem_without, mine]
        rw [left, same, mem_without]
        simp [mine]
      rw [members, l.flagged h, a.included, a.isDummy mine]
  · rw [a.included] at entry
    have other : h ≠ m := by
      rintro rfl
      rw [spare] at entry
      cases entry
    rw [a.isDummy other]
    exact l.apart h entry

theorem marking_placed {cl cl' : Dll HeadId} {ver : Version} {up : Int} :
    Marking m rtt (inUse (setVersion (setList (setDummy (setList rtt cl) m) cl') m ver) up) := by
  have off : Marking m rtt (setList rtt cl) := .of_heads rfl rfl
  have flag : Marking m (setList rtt cl) (setDummy (setList rtt cl) m) := marking_writeHead included_setDummy
  have on : Marking m (setDummy (setList rtt cl) m) (setList (setDummy (setList rtt cl) m) cl') := .of_heads rfl rfl
  exact ((off.trans flag).trans on).trans ((marking_writeHead (included_setVersion ver)).trans (.of_heads rfl rfl))

theorem isDummy_placed {cl cl' : Dll HeadId} {ver : Version} {up : Int} :
    isDummy ((inUse (setVersion (setList (setDummy (setList rtt cl) m) cl') m ver) up).heads m) = true := by
  have flag : isDummy ((setDummy (setList rtt cl) m).heads m) = true := by
    rw [setDummy, heads_writeHead, if_pos rfl, isDummy_setDummy]
  exact (isDummy_setVersion ver m).trans flag

theorem construct_spec (l : Listed rtt xs) (spare : included (rtt.heads m) = false) :
    ∃ rtt', stdRadicalWalkconstructor rtt m = .ok rtt' ∧ Marking m rtt rtt' ∧
      isDummy (rtt'.heads m) = true ∧ rtt'.rttClhead.Just (m :: without m xs) := by
  have drop : (isDummy (rtt.heads m) && linked rtt m) = linked rtt m := by
    cases on : linked rtt m with
    | false => simp
    | true => simp [(l.marker spare).mp ((l.linked_iff m).mp on)]
  obtain ⟨cl, off, just⟩ := unlink_linked (m := m) l.just
  obtain ⟨cl', run, just'⟩ := just.insertatfront not_mem_without
  let placed := inUse (setVersion (setList (setDummy (setList rtt cl) m) cl') m 0) 1
  refine ⟨placed, ?_, marking_placed, isDummy_placed, just'⟩
  rw [stdRadicalWalkconstructor, drop, off, ok_bind, relist_of (setDummy (setList rtt cl) m) run]
  rfl

/-- A list cannot get an item after one that is not on it. -/
theorem insertafter_off (rtt : Rtt) (off : rtt.rttClhead.dllNext (.item m) = none) :
    ∃ e, relist rtt (fun cl => cl.insertafter (.item m) (.item m)) = .error e := by
  refine ⟨.nullPointer, ?_⟩
  simp [relist, Dll.insertafter, Dll.setNext, Dll.setBack, off, deref]
  rfl

theorem constructafter_spec (l : Listed rtt xs) :
    Ensures (stdRadicalWalkconstructorafter rtt h m) fun rtt' =>
      Marking m rtt rtt' ∧ isDummy (rtt'.heads m) = true ∧
        ∃ as cs, without m xs = as ++ h :: cs ∧ rtt'.rttClhead.Just (as ++ h :: m :: cs) := by
  unfold stdRadicalWalkconstructorafter
  apply Ensures.check
  intro _
  apply Ensures.check
  intro on
  obtain ⟨cl, off, just⟩ := unlink_linked (m := m) l.just
  rw [off, ok_bind]
  by_cases same : h = m
  · subst same
    obtain ⟨e, fails⟩ := insertafter_off (setDummy (setList rtt cl) h) (just.off h not_mem_without).1
    constructor
    intro rtt' run
    rw [fails] at run
    cases run
  · have inside : h ∈ without m xs := mem_without.mpr ⟨(l.linked_iff h).mp on, same⟩
    have fresh : m ∉ without m xs := not_mem_without
    obtain ⟨as, cs, split⟩ := List.append_of_mem inside
    rw [split] at just fresh
    obtain ⟨cl', run, just'⟩ := just.insertafter fresh
    rw [relist_of (setDummy (setList rtt cl) m) run, ok_bind]
    exact .pure ⟨marking_placed, isDummy_placed, as, cs, split, just'⟩

theorem destruct_spec (l : Listed rtt xs) :
    ∃ rtt', stdRadicalWalkdestructor rtt m = .ok rtt' ∧ Marking m rtt rtt' ∧
      isDummy (rtt'.heads m) = false ∧ rtt'.rttClhead.Just (without m xs) := by
  have just : (clrDummy rtt m).rttClhead.Just xs := l.just
  obtain ⟨cl, off, gone⟩ := unlink_linked (m := m) just
  let ended := inUse (setList (clrDummy rtt m) cl) (-1)
  refine ⟨ended, ?_, ?_, ?_, gone⟩
  · simp only [stdRadicalWalkdestructor, off, ok_bind]
    rfl
  · have flag : Marking m rtt (clrDummy rtt m) := marking_writeHead included_clrDummy
    exact flag.trans (.of_heads rfl rfl)
  · have flag : isDummy ((clrDummy rtt m).heads m) = false := by
      rw [clrDummy, heads_writeHead, if_pos rfl, isDummy_clrDummy]
    exact flag

/-! ## Entries -/

/-- A table with the same list and the same flags. -/
theorem Listed.of_same (l : Listed rtt xs) (clhead : rtt'.rttClhead = rtt.rttClhead)
    (flags : ∀ h, (rtt'.heads h).rdclFlags = (rtt.heads h).rdclFlags) : Listed rtt' xs := by
  refine ⟨clhead.symm ▸ l.just, fun h => ?_, fun h => ?_⟩
  · rw [included, isDummy, flags h, ← included, ← isDummy]
    exact l.flagged h
  · rw [included, isDummy, flags h, ← included, ← isDummy]
    exact l.apart h

/-- `rth` has come to the end of the list. -/
structure Appended (rth : HeadId) (rtt rtt' : Rtt) : Prop where
  flags : ∀ h ≠ rth, (rtt'.heads h).rdclFlags = (rtt.heads h).rdclFlags
  entry : included (rtt'.heads rth) = true
  plain : isDummy (rtt'.heads rth) = isDummy (rtt.heads rth)
  versions : ∀ h ≠ rth, (rtt'.heads h).rthVersion = (rtt.heads h).rthVersion
  last : (rtt'.heads rth).rthVersion = rtt'.rttVersion
  version : rtt'.rttVersion = rtt.rttVersion + 1

theorem append_spec (l : Listed rtt xs) (plain : isDummy (rtt.heads rth) = false) :
    Ensures (stdRadicalAppendtochangelist rtt rth) fun r =>
      Appended rth rtt r.2 ∧ r.2.rttClhead.Just (without rth xs ++ [rth]) := by
  unfold stdRadicalAppendtochangelist
  apply Ensures.check
  intro _
  apply Ensures.check
  intro _
  have on : included (rtt.heads rth) = linked rtt rth := by
    rw [Bool.eq_iff_iff, l.linked_iff, l.entry plain]
  obtain ⟨cl, off, just⟩ := unlink_linked (m := rth) l.just
  obtain ⟨cl', run, just'⟩ := just.insertatback not_mem_without
  rw [on, off, ok_bind, relist_of (setList rtt cl) run, ok_bind]
  let raised : Rtt := { setIncl (setList (setList rtt cl) cl') rth with rttVersion := rtt.rttVersion + 1 }
  have appended : Appended rth rtt (setVersion raised rth (rtt.rttVersion + 1)) := by
    have heads (h : HeadId) : (setVersion raised rth (rtt.rttVersion + 1)).heads h =
        if h = rth then
          { rtt.heads rth with
            rdclFlags := (rtt.heads rth).rdclFlags ||| rdclIncl, rthVersion := rtt.rttVersion + 1 }
        else rtt.heads h := by
      simp only [setVersion, raised, setIncl, heads_writeHead]
      split <;> rfl
    refine ⟨fun h ne => ?_, ?_, ?_, fun h ne => ?_, ?_, rfl⟩
    · rw [heads, if_neg ne]
    · rw [heads, if_pos rfl]
      exact included_setIncl (rtt.heads rth)
    · rw [heads, if_pos rfl]
      exact isDummy_setIncl (rtt.heads rth)
    · rw [heads, if_neg ne]
    · rw [heads, if_pos rfl]
      rfl
  refine .pure ?_
  change Appended rth rtt (if rtt.rttVersion + 1 = 0 then _ else _) ∧
    (if rtt.rttVersion + 1 = 0 then _ else _ : Rtt).rttClhead.Just _
  split
  · exact ⟨⟨appended.flags, appended.entry, appended.plain, appended.versions, appended.last, appended.version⟩, just'⟩
  · exact ⟨appended, just'⟩

theorem Listed.appended (l : Listed rtt xs) (plain : isDummy (rtt.heads rth) = false) (a : Appended rth rtt rtt')
    (just : rtt'.rttClhead.Just (without rth xs ++ [rth])) : Listed rtt' (without rth xs ++ [rth]) := by
  refine ⟨just, fun h => ?_, fun h entry => ?_⟩
  · by_cases mine : h = rth
    · simp [mine, a.entry]
    · rw [included, isDummy, a.flags h mine, ← included, ← isDummy, ← l.flagged h]
      simp [mem_without, mine]
  · by_cases mine : h = rth
    · rw [mine, a.plain, plain]
    · rw [included, a.flags h mine, ← included] at entry
      rw [isDummy, a.flags h mine, ← isDummy]
      exact l.apart h entry

/-- `rth` is no longer on the list. -/
structure Dropped (rth : HeadId) (rtt rtt' : Rtt) : Prop where
  flags : ∀ h ≠ rth, (rtt'.heads h).rdclFlags = (rtt.heads h).rdclFlags
  entry : included (rtt'.heads rth) = false
  plain : isDummy (rtt'.heads rth) = isDummy (rtt.heads rth)
  versions : ∀ h, (rtt'.heads h).rthVersion = (rtt.heads h).rthVersion
  version : rtt'.rttVersion = rtt.rttVersion

theorem Listed.dropped (l : Listed rtt xs) (plain : isDummy (rtt.heads rth) = false) (a : Dropped rth rtt rtt')
    (just : rtt'.rttClhead.Just (without rth xs)) : Listed rtt' (without rth xs) := by
  refine ⟨just, fun h => ?_, fun h entry => ?_⟩
  · rw [mem_without]
    by_cases mine : h = rth
    · simp [mine, a.entry, a.plain, plain]
    · rw [included, isDummy, a.flags h mine, ← included, ← isDummy, ← l.flagged h]
      simp [mine]
  · have other : h ≠ rth := by
      rintro rfl
      rw [a.entry] at entry
      cases entry
    rw [included, a.flags h other, ← included] at entry
    rw [isDummy, a.flags h other, ← isDummy]
    exact l.apart h entry

theorem remove_spec (l : Listed rtt xs) :
    Ensures (stdRadixRemove rtt rth) fun rtt' =>
      Aside rtt rtt' ∨ Dropped rth rtt rtt' ∧ rtt'.rttClhead.Just (without rth xs) := by
  unfold stdRadixRemove
  apply Ensures.any
  intro _
  apply Ensures.any
  intro rn
  apply Ensures.any
  intro n
  split
  · apply Ensures.bind (P := Aside rtt)
    · apply ensures_write
      intro n' _
      exact ⟨fun _ => rfl, fun _ => rfl, rfl, rfl⟩
    · intro m aside
      exact .check fun _ => .pure (.inl aside)
  · apply Ensures.bind aside_remove
    rintro ⟨_, _, m⟩ kept
    have aside : Aside rtt m := ⟨kept.flags, kept.versions, kept.clhead, kept.version⟩
    dsimp only
    split
    · rename_i linked
      have on : m.rttClhead.islinked (.item rth) = true := by simp_all
      have listed := l.of_same aside.clhead aside.flags
      obtain ⟨as, cs, rfl⟩ := List.append_of_mem ((listed.just.islinked_iff rth).mp on)
      obtain ⟨cl, run, gone⟩ := listed.just.remove
      rw [run, ok_bind]
      refine .pure (.inr ⟨⟨fun h ne => ?_, ?_, ?_, fun h => ?_, aside.version⟩, ?_⟩)
      · rw [heads_writeHead, if_neg ne]
        exact aside.flags h
      · rw [heads_writeHead, if_pos rfl]
        exact included_clrIncl (m.heads rth)
      · rw [heads_writeHead, if_pos rfl]
        have plain : isDummy (m.heads rth) = isDummy (rtt.heads rth) := by rw [isDummy, aside.flags rth, ← isDummy]
        exact (isDummy_clrIncl (m.heads rth)).trans plain
      · rw [heads_writeHead]
        split
        · rename_i same
          rw [same]
          exact aside.versions rth
        · exact aside.versions h
      · rw [without_around l.just.distinct]
        exact gone
    · exact .pure (.inl aside)

/-- Only the version of `rth` may have changed, and no flag has. -/
structure Beside (rth : HeadId) (rtt rtt' : Rtt) : Prop where
  flags : ∀ h, (rtt'.heads h).rdclFlags = (rtt.heads h).rdclFlags
  versions : ∀ h ≠ rth, (rtt'.heads h).rthVersion = (rtt.heads h).rthVersion
  clhead : rtt'.rttClhead = rtt.rttClhead
  version : rtt'.rttVersion = rtt.rttVersion

theorem Beside.trans {rtt'' : Rtt} (a : Beside rth rtt rtt') (b : Beside rth rtt' rtt'') : Beside rth rtt rtt'' where
  flags h := (b.flags h).trans (a.flags h)
  versions h ne := (b.versions h ne).trans (a.versions h ne)
  clhead := b.clhead.trans a.clhead
  version := b.version.trans a.version

theorem Beside.of_aside (a : Aside rtt rtt') : Beside rth rtt rtt' :=
  ⟨a.flags, fun h _ => a.versions h, a.clhead, a.version⟩

theorem insertKey_aside (key : Option Addr) :
    Ensures (insertKey rtt rth key) fun r => Aside rtt r.2 ∧ r.2.nodes = rtt.nodes := by
  have temp (temp : Addr) : Aside rtt { rtt with temp := temp } := ⟨fun _ => rfl, fun _ => rfl, rfl, rfl⟩
  unfold insertKey
  split
  · rename_i addr _ _
    obtain ⟨t, after⟩ := convertKey_temp rtt addr
    dsimp only
    rw [after]
    split
    · split
      · exact .pure ⟨temp t, rfl⟩
      · refine .pure ⟨(temp t).trans ?_, rfl⟩
        dsimp only
        apply aside_writeHead
        · exact fun _ => rfl
        · exact fun _ => rfl
    · exact .check fun _ => .check fun _ => .pure ⟨temp t, rfl⟩
  · refine .check fun _ => .pure ⟨?_, rfl⟩
    dsimp only
    apply aside_writeHead
    · exact fun _ => rfl
    · exact fun _ => rfl

theorem nodes_insertDebug (rtt : Rtt) (rth : HeadId) (bitlen : Nat) :
    (insertDebug rtt rth bitlen).2.nodes = rtt.nodes := by
  unfold insertDebug clearLinks
  split
  · dsimp only
    split <;> rfl
  · rfl

/-- The links and the flags that are cleared are those of a head that is not on the list. -/
theorem insertDebug_beside (bitlen : Nat) (l : Listed rtt xs) (zero : (rtt.heads rth).rdclFlags = 0) :
    Beside rth rtt (insertDebug rtt rth bitlen).2 := by
  have off : rth ∉ xs := by
    rw [l.flagged rth]
    simp [included, isDummy, zero]
  obtain ⟨next, back⟩ := l.just.off rth off
  have unlinked : unlinkHead rtt.rttClhead rth = rtt.rttClhead := by
    have one : Function.update rtt.rttClhead.dllNext (.item rth) none = rtt.rttClhead.dllNext := by
      rw [← next, Function.update_eq_self]
    have two : Function.update rtt.rttClhead.dllBack (.item rth) none = rtt.rttClhead.dllBack := by
      rw [← back, Function.update_eq_self]
    rw [unlinkHead, Dll.setBack, Dll.setNext, one, two]
  unfold insertDebug
  split
  · have dated : Beside rth rtt (rtt.writeHead rth fun h => { h with rthRtn := none, rthVersion := 0 }) := by
      refine ⟨fun h => ?_, fun h ne => ?_, rfl, rfl⟩
      · rw [heads_writeHead]
        split
        · rename_i same
          rw [same]
        · rfl
      · rw [heads_writeHead, if_neg ne]
    refine dated.trans ?_
    dsimp only
    unfold clearLinks
    split
    · refine ⟨fun h => ?_, fun h ne => ?_, unlinked, rfl⟩
      · dsimp only
        rw [heads_writeHead]
        split
        · rename_i same
          rw [same, heads_writeHead, if_pos rfl]
          exact zero.symm
        · rfl
      · dsimp only
        rw [heads_writeHead, if_neg ne]
    · exact ⟨fun _ => rfl, fun _ _ => rfl, rfl, rfl⟩
  · exact ⟨fun _ => rfl, fun _ _ => rfl, rfl, rfl⟩

/-- An insertion of a head whose flags are zero leaves the list alone. -/
theorem insert_spec {bitlen : Nat} {mem : Allocs} (l : Listed rtt xs) (zero : (rtt.heads rth).rdclFlags = 0)
    (fair : mem.Fair rtt) : Ensures (stdRadixInsert rtt rth bitlen mem) fun r => Beside rth rtt r.2 := by
  unfold stdRadixInsert
  apply Ensures.bind (insertKey_aside mem.key)
  rintro ⟨keyed, m⟩ ⟨aside, nodes⟩
  dsimp only at aside nodes ⊢
  split
  · exact .pure (.of_aside aside)
  · apply Ensures.any
    intro _
    have zero' : (m.heads rth).rdclFlags = 0 := by rw [aside.flags rth, zero]
    have debug := (Beside.of_aside aside).trans (insertDebug_beside bitlen
      (l.of_same aside.clhead aside.flags) zero')
    have nodes' := (nodes_insertDebug m rth bitlen).trans nodes
    split
    · exact .pure debug
    · have unused : ∀ i, mem.add = some i ∨ mem.new = some i → (insertDebug m rth bitlen).2.nodes i = none := by
        rw [nodes']
        exact fair.unused
      exact (aside_insert unused fair.apart).mono fun r kept => debug.trans (.of_aside kept)

/-! ## Walks -/

/-- Nothing has changed but the list and the version of the marker `m`. -/
structure Carried (m : HeadId) (rtt rtt' : Rtt) : Prop where
  flags : ∀ h, (rtt'.heads h).rdclFlags = (rtt.heads h).rdclFlags
  versions : ∀ h ≠ m, (rtt'.heads h).rthVersion = (rtt.heads h).rthVersion
  version : rtt'.rttVersion = rtt.rttVersion

theorem Carried.trans {rtt'' : Rtt} (a : Carried m rtt rtt') (b : Carried m rtt' rtt'') : Carried m rtt rtt'' where
  flags h := (b.flags h).trans (a.flags h)
  versions h ne := (b.versions h ne).trans (a.versions h ne)
  version := b.version.trans a.version

theorem Carried.isDummy (a : Carried m rtt rtt') (h : HeadId) : isDummy (rtt'.heads h) = isDummy (rtt.heads h) := by
  rw [Radical.isDummy, a.flags h, ← Radical.isDummy]

theorem Carried.marking (a : Carried m rtt rtt') : Marking m rtt rtt' :=
  ⟨fun h _ => a.flags h, by rw [included, a.flags m, ← included], a.versions, a.version⟩

theorem carried_setList (cl : Dll HeadId) : Carried m rtt (setList rtt cl) :=
  ⟨fun _ => rfl, fun _ _ => rfl, rfl⟩

theorem carried_setVersion (ver : Version) : Carried m rtt (setVersion rtt m ver) := by
  refine ⟨fun h => ?_, fun h ne => ?_, rfl⟩
  · rw [setVersion, heads_writeHead]
    split
    · rename_i same
      rw [same]
    · rfl
  · rw [setVersion, heads_writeHead, if_neg ne]

/-- From `w` the loop goes on to `stop`. -/
inductive ComesTo (m : HeadId) (maxVer : Version) : ListWalk → Stop → Prop
  | stop {w : ListWalk} {stop : Stop} : beforeCall m maxVer w = .ok (.inr stop) → ComesTo m maxVer w stop
  | again {w w' : ListWalk} {stop : Stop} :
      beforeCall m maxVer w = .ok (.inl w') → ComesTo m maxVer w' stop → ComesTo m maxVer w stop

/-- Where a walk stops that has its marker out of the list, between `as` and `cs`. -/
inductive Stopped (m : HeadId) (rtt : Rtt) (as cs : List HeadId) : Stop → Prop
  | done (ds es : List HeadId) {rtt' : Rtt} :
      cs = ds ++ es → (∀ d ∈ ds, isDummy (rtt.heads d) = true) → rtt'.rttClhead.Just (as ++ ds ++ m :: es) →
      Carried m rtt rtt' → Stopped m rtt as cs (.done rtt')
  | call (ds es : List HeadId) {rth : HeadId} {ver : Version} {w : ListWalk} :
      cs = ds ++ rth :: es → (∀ d ∈ ds, isDummy (rtt.heads d) = true) → isDummy (rtt.heads rth) = false →
      w.rtt.rttClhead.Just (as ++ ds ++ rth :: m :: es) → Carried m rtt w.rtt →
      Stopped m rtt as cs (.call rth ver w)

theorem next_of (just : rtt.rttClhead.Just (as ++ h :: cs)) : next rtt h = cs.head? := by
  rw [next, just.getnext]
  cases cs <;> rfl

theorem beforeCall_spec {maxVer : Version} {w : ListWalk} (just : w.rtt.rttClhead.Just (as ++ cs))
    (off : m ∉ as ++ cs) (first : w.tRth = cs.head?) :
    Ensures (beforeCall m maxVer w) fun r =>
      match r with
      | .inl w' => ∃ d cs', cs = d :: cs' ∧ isDummy (w.rtt.heads d) = true ∧ w'.rtt = w.rtt ∧ w'.tRth = cs'.head?
      | .inr stop => Stopped m w.rtt as cs stop := by
  unfold beforeCall
  cases cs with
  | nil =>
    rw [List.head?_nil] at first
    rw [List.append_nil] at just off
    obtain ⟨cl, run, just'⟩ := just.insertatback off
    simp only [first]
    rw [relist_of (setVersion w.rtt m w.rtt.rttVersion) run, ok_bind]
    refine .pure (.done [] [] rfl (by simp) ?_ ((carried_setVersion _).trans (carried_setList cl)))
    simpa using just'
  | cons d cs =>
    rw [List.head?_cons] at first
    simp only [first]
    split
    · rename_i dummy
      exact .pure ⟨d, cs, rfl, dummy, rfl, next_of just⟩
    · rename_i plain
      split
      · obtain ⟨cl, run, just'⟩ := just.insertbefore off
        rw [relist_of (setVersion w.rtt m maxVer) run, ok_bind]
        refine .pure (.done [] (d :: cs) rfl (by simp) ?_ ((carried_setVersion _).trans (carried_setList cl)))
        simpa using just'
      · obtain ⟨cl, run, just'⟩ := just.insertafter off
        rw [relist_of _ run, ok_bind]
        refine .pure (.call [] cs rfl (by simp) (by simpa using plain) ?_ (carried_setList cl))
        simpa using just'

/-- **Between two calls** a walk only passes markers. -/
theorem comesTo_spec {maxVer : Version} {w : ListWalk} {stop : Stop} (comes : ComesTo m maxVer w stop)
    (just : w.rtt.rttClhead.Just (as ++ cs)) (off : m ∉ as ++ cs) (first : w.tRth = cs.head?) :
    Stopped m w.rtt as cs stop := by
  induction comes generalizing as cs with
  | stop run => exact (beforeCall_spec just off first).of_ok _ run
  | @again w w' stop run _ ih =>
    obtain ⟨d, cs', rfl, dummy, same, first'⟩ := (beforeCall_spec just off first).of_ok _ run
    rw [List.append_cons] at just off
    have later := ih (same ▸ just) off first'
    rw [same] at later
    cases later with
    | done ds es split dummies just' carried =>
      refine .done (d :: ds) es (by rw [split]; rfl) ?_ (by simpa using just') carried
      exact fun e he => (List.mem_cons.mp he).elim (fun same => same ▸ dummy) (dummies e)
    | call ds es split dummies plain just' carried =>
      refine .call (d :: ds) es (by rw [split]; rfl) ?_ plain (by simpa using just') carried
      exact fun e he => (List.mem_cons.mp he).elim (fun same => same ▸ dummy) (dummies e)

theorem listStart_spec {maxnodes : Int32} (l : Listed rtt xs) :
    Ensures (listStart rtt m maxnodes) fun w =>
      isDummy (rtt.heads m) = true ∧ Carried m rtt w.rtt ∧
        ∃ as cs, xs = as ++ m :: cs ∧ w.tRth = cs.head? ∧ w.rtt.rttClhead.Just (as ++ cs) := by
  unfold listStart
  apply Ensures.check
  intro dummy
  apply Ensures.check
  intro on
  obtain ⟨as, cs, rfl⟩ := List.append_of_mem ((l.linked_iff m).mp on)
  obtain ⟨cl, run, gone⟩ := l.just.remove
  have off : unlink rtt m = .ok (setList rtt cl) := relist_of _ run
  rw [off, ok_bind]
  exact .pure ⟨dummy, carried_setList cl, as, cs, rfl, next_of l.just, gone⟩

/-- After a call the marker goes before its head if the result is negative, out of the
list if the walk goes on, and stays where it is otherwise. -/
theorem afterCall_spec {ver : Version} {cbretval maxnodes : Int32} (just : rtt.rttClhead.Just (as ++ m :: cs))
    (ne : rth ≠ m) :
    Ensures (afterCall m rth ver cbretval maxnodes rtt) fun r =>
      match r with
      | .inl w => cbretval = 0 ∧ Carried m rtt w.rtt ∧ w.tRth = cs.head? ∧ w.rtt.rttClhead.Just (as ++ cs)
      | .inr rtt' => Carried m rtt rtt' ∧
          (0 ≤ cbretval ∧ rtt'.rttClhead.Just (as ++ m :: cs) ∨
            cbretval < 0 ∧ ∃ bs es, as ++ cs = bs ++ rth :: es ∧ rtt'.rttClhead.Just (bs ++ m :: rth :: es)) := by
  unfold afterCall
  let dated := if cbretval ≥ 0 then setVersion rtt m ver else rtt
  have carried : Carried m rtt dated := by
    unfold dated
    split
    · exact carried_setVersion ver
    · exact ⟨fun _ => rfl, fun _ _ => rfl, rfl⟩
  have same : dated.rttClhead = rtt.rttClhead := by
    unfold dated
    split <;> rfl
  rw [← same] at just
  obtain ⟨cl, run, gone⟩ := just.remove
  have off : unlink dated m = .ok (setList dated cl) := relist_of _ run
  have fresh := (List.nodup_cons.mp (List.nodup_middle.mp just.distinct)).1
  change Ensures (if cbretval ≠ 0 then _ else _) _
  split
  · split
    · rename_i negative
      apply Ensures.check
      intro on
      have inside : rth ∈ as ++ cs := by
        have whole := (just.islinked_iff rth).mp on
        simp only [List.mem_append, List.mem_cons] at whole ⊢
        tauto
      obtain ⟨bs, es, split⟩ := List.append_of_mem inside
      rw [split] at gone fresh
      obtain ⟨cl', run', just'⟩ := gone.insertbefore fresh
      change Ensures (unlink dated m >>= _) _
      rw [off, ok_bind, relist_of (setList dated cl) run', ok_bind]
      exact .pure ⟨carried.trans ((carried_setList cl).trans (carried_setList cl')), .inr ⟨negative, bs, es, split, just'⟩⟩
    · rename_i positive
      exact .pure ⟨carried, .inl ⟨Int32.not_lt.mp positive, just⟩⟩
  · rename_i zero
    have zero : cbretval = 0 := Decidable.not_not.mp zero
    dsimp only
    split
    · exact .pure ⟨carried, .inl ⟨Int32.le_of_eq zero.symm, just⟩⟩
    · change Ensures (unlink dated m >>= _) _
      rw [off, ok_bind]
      exact .pure ⟨zero, carried.trans (carried_setList cl), next_of just, gone⟩

end SonicUtils.Radical
