import SonicUtils.Config.Model
import SonicUtils.Transfer.Syscall

/-!
# Directories

`std_dir_iterate` of `std_directory.cpp`. A callback answers from all that has
happened so far, and memory does not run out.

* `PostOrder`: a finite tree, and the order in which it is to be visited;
* `upTo`: the visit that ends with the first answer that says so;
* `readAll_follows`: the loop does this visit, or its calls are not the beginning
  of any visit;
* `iterate_iff`: for which trees and callbacks it is the visit.
-/

namespace SonicUtils.Directory

open SonicUtils.Config (Bytes)
open SonicUtils.Transfer (Errno StdError stdErr stdErrMk stdErrOk)
open Loop

/-- `std_dir_file_TYPE_t`. -/
inductive FileType
  | dir
  | file
  | link
  | other
  deriving DecidableEq, Repr

def dtDir : UInt8 := 4
def dtReg : UInt8 := 8
def dtLnk : UInt8 := 10

/-- `struct dirent`. -/
structure Dirent where
  name : Bytes
  dType : UInt8
  deriving DecidableEq, Repr

/-- What `opendir` finds at a path, with the entries in the order of `readdir_r`. -/
structure FileSystem where
  opendir : Bytes → Except Errno (List Dirent)

/-- A directory is opened, or the callback is called. -/
inductive Event
  | opened (path : Bytes)
  | called (name : Bytes) (type : FileType)
  deriving DecidableEq, Repr

/-- The answer to the last call, from everything up to it. -/
abbrev Callback := List Event → Bool

def enoent : Errno := 2

/-- `std_dir_init`. -/
def stdDirInit (fs : FileSystem) (entName : Bytes) : Except StdError (List Dirent) :=
  match fs.opendir entName with
  | .ok d => .ok d
  | .error errno => if errno = enoent then .error (stdErrMk 6 7 0) else .error (stdErr .fail errno)

/-- The type that `std_dir_iterate` makes of `d_type`. -/
def typeOf (dType : UInt8) : FileType :=
  let t := FileType.other
  let t := if dType &&& dtLnk ≠ 0 then .link else t
  let t := if dType &&& dtReg ≠ 0 then .file else t
  if dType &&& dtDir ≠ 0 then .dir else t

def dot : Bytes := [0x2e]
def dotDot : Bytes := [0x2e, 0x2e]

def pathOf (entName name : Bytes) : Bytes := entName ++ 0x2f :: name

/-- What is done with an entry that is taken for a directory. Its error, or success, is
dropped. -/
def descend (iterate : Bytes → List Event → Except Fault (StdError × List Event)) (t : FileType) (recurse : Bool)
    (pathname : Bytes) (log : List Event) : Except Fault (List Event) :=
  if t = .dir ∧ recurse = true then (·.2) <$> iterate pathname log else pure log

/-- The loop of `std_dir_iterate`, which calls itself through `iterate`. -/
def readAll (cb : Callback) (iterate : Bytes → List Event → Except Fault (StdError × List Event)) (entName : Bytes)
    (recurse : Bool) : List Dirent → List Event → Except Fault (List Event)
  | [], log => return log
  | result :: rest, log => do
    let t := typeOf result.dType
    if t = .dir ∧ result.name = dot then readAll cb iterate entName recurse rest log
    else if t = .dir ∧ result.name = dotDot then readAll cb iterate entName recurse rest log
    else
      let pathname := pathOf entName result.name
      let log ← descend iterate t recurse pathname log
      let log := log ++ [.called pathname t]
      if cb log then readAll cb iterate entName recurse rest log else return log

def stdDirIterate (fs : FileSystem) (cb : Callback) (recurse : Bool) :
    Nat → Bytes → List Event → Except Fault (StdError × List Event)
  | 0, _, _ => throw .noReturn
  | fuel + 1, entName, log =>
    let log := log ++ [.opened entName]
    match stdDirInit fs entName with
    | .error rc => return (rc, log)
    | .ok h => (stdErrOk, ·) <$> readAll cb (stdDirIterate fs cb recurse fuel) entName recurse h log

/-! ## The visit of a tree -/

/-- A subdirectory is entered, or an entry is reported; how far the entry is below the
directory that the visit is of. -/
inductive Visit
  | enter (path : Bytes)
  | entry (path : Bytes) (dType : UInt8) (depth : Nat)
  deriving DecidableEq, Repr

def Visit.deeper : Visit → Visit
  | enter path => .enter path
  | entry path dType depth => .entry path dType (depth + 1)

/-- The type that an entry has. -/
def ownType (dType : UInt8) : FileType :=
  if dType = dtDir then .dir else if dType = dtReg then .file else if dType = dtLnk then .link else .other

/-- A directory is reported after what is in it, which can be opened. Nothing else can but
what a link leads to. -/
inductive PostOrder (fs : FileSystem) : Bytes → List Dirent → List Visit → Prop
  | nil {path : Bytes} : PostOrder fs path [] []
  | dots {path : Bytes} {d : Dirent} {ds : List Dirent} {vs : List Visit} :
      d.dType = dtDir → d.name = dot ∨ d.name = dotDot → PostOrder fs path ds vs → PostOrder fs path (d :: ds) vs
  | dir {path : Bytes} {d : Dirent} {ds es : List Dirent} {inner vs : List Visit} :
      d.dType = dtDir → d.name ≠ dot → d.name ≠ dotDot → fs.opendir (pathOf path d.name) = .ok es →
      PostOrder fs (pathOf path d.name) es inner → PostOrder fs path ds vs →
      PostOrder fs path (d :: ds)
        (.enter (pathOf path d.name) :: (inner.map Visit.deeper ++ .entry (pathOf path d.name) d.dType 0 :: vs))
  | leaf {path : Bytes} {d : Dirent} {ds : List Dirent} {vs : List Visit} :
      d.dType ≠ dtDir → d.name ≠ dot → d.name ≠ dotDot →
      (d.dType ≠ dtLnk → ∃ errno, fs.opendir (pathOf path d.name) = .error errno) → PostOrder fs path ds vs →
      PostOrder fs path (d :: ds) (.entry (pathOf path d.name) d.dType 0 :: vs)

/-- The visit, with the own type of each entry, up to the first answer that ends it. -/
def upTo (cb : Callback) : List Event → List Visit → List Event
  | log, [] => log
  | log, .enter path :: vs => upTo cb (log ++ [.opened path]) vs
  | log, .entry path dType _ :: vs =>
    let log := log ++ [.called path (ownType dType)]
    if cb log then upTo cb log vs else log

/-- No answer ends the visit. -/
def goesOn (cb : Callback) : List Event → List Visit → Bool
  | _, [] => true
  | log, .enter path :: vs => goesOn cb (log ++ [.opened path]) vs
  | log, .entry path dType _ :: vs =>
    let log := log ++ [.called path (ownType dType)]
    cb log && goesOn cb log vs

/-- The bits of the type are those of a directory or of a regular file, or none of the bits
that are looked at is set. -/
def Plain (dType : UInt8) : Prop := dType = dtDir ∨ dType = dtReg ∨ dType &&& 14 = 0

/-- All entries that are to be reported are plain, and if the visit is ended, then by one
that is right in the directory. -/
def PlainlyVisited (cb : Callback) : List Event → List Visit → Prop
  | _, [] => True
  | log, .enter path :: vs => PlainlyVisited cb (log ++ [.opened path]) vs
  | log, .entry path dType depth :: vs =>
    let log := log ++ [.called path (ownType dType)]
    Plain dType ∧ if cb log then PlainlyVisited cb log vs else depth = 0

instance (dType : UInt8) : Decidable (Plain dType) :=
  inferInstanceAs (Decidable (_ ∨ _))

variable {fs : FileSystem} {cb : Callback} {log log' : List Event} {vs ws : List Visit} {path : Bytes} {dType : UInt8}

theorem typeOf_eq_iff (dType : UInt8) : typeOf dType = ownType dType ↔ Plain dType := by
  have all : (List.range 256).all (fun n => decide (typeOf (.ofNat n) = ownType (.ofNat n) ↔
      UInt8.ofNat n = dtDir ∨ UInt8.ofNat n = dtReg ∨ UInt8.ofNat n &&& 14 = 0)) = true := by
    decide +kernel
  have here := of_decide_eq_true (List.all_eq_true.mp all dType.toNat (List.mem_range.mpr dType.toNat_lt))
  rwa [UInt8.ofNat_toNat] at here

theorem upTo_extends (cb : Callback) (log : List Event) (vs : List Visit) : log <+: upTo cb log vs := by
  induction vs generalizing log with
  | nil => exact List.prefix_rfl
  | cons v vs ih =>
    cases v with
    | enter path => exact (List.prefix_append _ _).trans (ih _)
    | entry path dType depth =>
      rw [upTo]
      split
      · exact (List.prefix_append _ _).trans (ih _)
      · exact List.prefix_append _ _

theorem upTo_append (cb : Callback) (log : List Event) (vs ws : List Visit) :
    upTo cb log (vs ++ ws) = if goesOn cb log vs then upTo cb (upTo cb log vs) ws else upTo cb log vs := by
  induction vs generalizing log with
  | nil => rfl
  | cons v vs ih =>
    cases v with
    | enter path => exact ih _
    | entry path dType depth =>
      rw [List.cons_append]
      by_cases on : cb (log ++ [.called path (ownType dType)]) = true
      · simp only [upTo, goesOn, on, if_true, Bool.true_and, ih]
      · simp [upTo, goesOn, on]

/-- How deep the entries are makes no difference to the visit. -/
theorem upTo_deeper (cb : Callback) (log : List Event) (vs ws : List Visit) :
    upTo cb log (vs.map Visit.deeper ++ ws) = upTo cb log (vs ++ ws) := by
  induction vs generalizing log with
  | nil => rfl
  | cons v vs ih =>
    cases v with
    | enter path => exact ih _
    | entry path dType depth => simp only [List.map_cons, Visit.deeper, List.cons_append, upTo, ih]

/-- An entry that is deeper does not end the visit. -/
theorem plainlyVisited_deeper : PlainlyVisited cb log (vs.map Visit.deeper ++ ws) ↔
    PlainlyVisited cb log vs ∧ goesOn cb log vs = true ∧ PlainlyVisited cb (upTo cb log vs) ws := by
  induction vs generalizing log with
  | nil => simp [PlainlyVisited, goesOn, upTo]
  | cons v vs ih =>
    cases v with
    | enter path => exact ih
    | entry path dType depth =>
      simp only [List.map_cons, Visit.deeper, List.cons_append, PlainlyVisited, upTo, goesOn]
      by_cases on : cb (log ++ [.called path (ownType dType)]) = true
      · simp [on, ih, and_assoc]
      · simp [on]

/-! ## The visit of the code -/

/-- The calls are those of the visit, or they are not the beginning of any visit that
begins with this one. -/
def Follows (cb : Callback) (log : List Event) (vs : List Visit) (log' : List Event) : Prop :=
  PlainlyVisited cb log vs ∧ log' = upTo cb log vs ∨
    ¬ PlainlyVisited cb log vs ∧ ∀ ws, ¬ log' <+: upTo cb log (vs ++ ws)

theorem Follows.enter (h : Follows cb (log ++ [.opened path]) vs log') : Follows cb log (.enter path :: vs) log' := h

/-- An entry whose type is told, and the rest after it. -/
theorem Follows.entry (plain : Plain dType)
    (rest : if cb (log ++ [.called path (ownType dType)]) then Follows cb (log ++ [.called path (ownType dType)]) vs log'
      else log' = log ++ [.called path (ownType dType)]) : Follows cb log (.entry path dType 0 :: vs) log' := by
  unfold Follows at rest ⊢
  by_cases on : cb (log ++ [.called path (ownType dType)]) = true
  · simp only [on, if_true] at rest
    simp only [List.cons_append, PlainlyVisited, upTo, on, if_true]
    simpa [plain] using rest
  · rw [if_neg on] at rest
    simp [PlainlyVisited, upTo, on, plain, rest]

/-- An entry where something else happens. -/
theorem Follows.strays {event : Event} {depth : Nat} (odd : ¬ Plain dType) (other : event ≠ .called path (ownType dType))
    (happens : log ++ [event] <+: log') : Follows cb log (.entry path dType depth :: vs) log' := by
  refine .inr ⟨fun visited => odd visited.1, fun ws same => ?_⟩
  have told : log ++ [.called path (ownType dType)] <+: upTo cb log (.entry path dType depth :: vs ++ ws) := by
    rw [List.cons_append, upTo]
    split
    · exact upTo_extends _ _ _
    · exact List.prefix_rfl
  have both := List.prefix_of_prefix_length_le (happens.trans same) told (by simp)
  have last := (List.prefix_append_right_inj log).mp both
  exact other (by simpa using last)

/-- After what is in a directory there is at least one more event. -/
theorem Follows.append {mid : List Event} {event : Event} (inner : Follows cb log vs mid) (more : mid ++ [event] <+: log')
    (rest : goesOn cb log vs = true → mid = upTo cb log vs → Follows cb mid ws log') :
    Follows cb log (vs.map Visit.deeper ++ ws) log' := by
  have extends_ := (List.prefix_append mid [event]).trans more
  obtain ⟨plain, reached⟩ | ⟨odd, off⟩ := inner
  · by_cases on : goesOn cb log vs = true
    · have after := rest on reached
      unfold Follows at after ⊢
      simp only [plainlyVisited_deeper, List.append_assoc, upTo_deeper, upTo_append cb log vs, on, plain, if_true,
        true_and, ← reached]
      exact after
    · refine .inr ⟨fun visited => on (plainlyVisited_deeper.mp visited).2.1, fun rest_ same => ?_⟩
      rw [List.append_assoc, upTo_deeper, upTo_append, if_neg on, ← reached] at same
      have longer := (more.trans same).length_le
      rw [List.length_append, List.length_singleton] at longer
      omega
  · refine .inr ⟨fun visited => odd (plainlyVisited_deeper.mp visited).1, fun rest_ same => ?_⟩
    rw [List.append_assoc, upTo_deeper] at same
    exact off _ (extends_.trans same)

/-- What the loop over some entries returns, with fuel enough. -/
def Reads (fs : FileSystem) (cb : Callback) (path : Bytes) (ds : List Dirent) (log log' : List Event) : Prop :=
  Returns (fun fuel => readAll cb (stdDirIterate fs cb true fuel) path true ds log) log'

variable {d : Dirent} {ds es : List Dirent} {mid : List Event}

theorem Reads.skip (skipped : typeOf d.dType = .dir) (dots : d.name = dot ∨ d.name = dotDot)
    (rest : Reads fs cb path ds log log') : Reads fs cb path (d :: ds) log log' := by
  unfold Reads
  simp only [readAll]
  obtain dots | dots := dots
  · simp only [skipped, dots, and_self, if_true]
    exact rest
  · have other : dotDot ≠ dot := by decide
    simp only [skipped, dots, other, and_false, and_self, if_true, if_false]
    exact rest

/-- An entry is reported after what is done with it as a directory. -/
theorem Reads.call (apart : d.name ≠ dot) (apart' : d.name ≠ dotDot)
    (sub : Returns (fun fuel => descend (stdDirIterate fs cb true fuel) (typeOf d.dType) true (pathOf path d.name) log) mid)
    (rest : if cb (mid ++ [.called (pathOf path d.name) (typeOf d.dType)]) then
        Reads fs cb path ds (mid ++ [.called (pathOf path d.name) (typeOf d.dType)]) log'
      else log' = mid ++ [.called (pathOf path d.name) (typeOf d.dType)]) : Reads fs cb path (d :: ds) log log' := by
  unfold Reads
  simp only [readAll, apart, apart', and_false, if_false]
  apply Returns.bind sub
  by_cases on : cb (mid ++ [.called (pathOf path d.name) (typeOf d.dType)]) = true
  · rw [if_pos on] at rest
    simp only [if_pos on]
    exact rest
  · rw [if_neg on] at rest
    simp only [if_neg on]
    exact .of_ok fun _ => congrArg Except.ok rest.symm

theorem iterate_opened (opens : fs.opendir path = .ok es) (reads : Reads fs cb path es (log ++ [.opened path]) log') :
    Returns (fun fuel => stdDirIterate fs cb true fuel path log) (stdErrOk, log') := by
  apply Returns.of_succ
  simp only [stdDirIterate, stdDirInit, opens]
  exact Returns.bind reads (.of_ok fun _ => rfl)

theorem iterate_unopened {errno : Errno} (fails : fs.opendir path = .error errno) :
    ∃ rc, Returns (fun fuel => stdDirIterate fs cb true fuel path log) (rc, log ++ [.opened path]) := by
  obtain ⟨rc, init⟩ : ∃ rc, stdDirInit fs path = .error rc := by
    rw [stdDirInit, fails]
    by_cases absent : errno = enoent
    · exact ⟨_, if_pos absent⟩
    · exact ⟨_, if_neg absent⟩
  refine ⟨rc, .of_succ (.of_ok fun fuel => ?_)⟩
  rw [stdDirIterate, init]
  rfl

theorem descend_dir {rc : StdError} {type : FileType} (dir : type = .dir)
    (run : Returns (fun fuel => stdDirIterate fs cb true fuel path log) (rc, log')) :
    Returns (fun fuel => descend (stdDirIterate fs cb true fuel) type true path log) log' := by
  simp only [descend, dir, and_self, if_true]
  exact Returns.bind run (.of_ok fun _ => rfl)

theorem descend_leaf {type : FileType} (leaf : type ≠ .dir) :
    Returns (fun fuel => descend (stdDirIterate fs cb true fuel) type true path log) log :=
  .of_ok fun _ => if_neg fun both => leaf both.1

/-- The rest of the loop, after the callback has been called. -/
theorem goes_on_follows (on : ∀ log, ∃ log', Reads fs cb path ds log log' ∧ log <+: log' ∧ Follows cb log vs log')
    (log : List Event) : ∃ log', log <+: log' ∧
      (if cb log then Reads fs cb path ds log log' else log' = log) ∧
        if cb log then Follows cb log vs log' else log' = log := by
  by_cases yes : cb log = true
  · obtain ⟨log', reads, further, follows⟩ := on log
    exact ⟨log', further, by rwa [if_pos yes], by rwa [if_pos yes]⟩
  · exact ⟨log, List.prefix_rfl, by rw [if_neg yes], by rw [if_neg yes]⟩

/-- The loop follows the visit of the entries. -/
theorem readAll_follows (tree : PostOrder fs path ds vs) (log : List Event) :
    ∃ log', Reads fs cb path ds log log' ∧ log <+: log' ∧ Follows cb log vs log' := by
  induction tree generalizing log with
  | nil => exact ⟨log, .of_ok fun _ => rfl, List.prefix_rfl, .inl ⟨trivial, rfl⟩⟩
  | dots dir dots _ ih =>
    obtain ⟨log', reads, further, follows⟩ := ih log
    have type : typeOf dtDir = .dir := by decide
    exact ⟨log', reads.skip (by rw [dir, type]) dots, further, follows⟩
  | @dir path d ds es inner vs dir apart apart' opens _ _ ihInner ihRest =>
    have type : typeOf d.dType = .dir := by
      rw [dir]
      decide
    have own : ownType d.dType = .dir := by
      rw [dir]
      decide
    obtain ⟨mid, reads, further, follows⟩ := ihInner (log ++ [.opened (pathOf path d.name)])
    obtain ⟨log', more, reads', follows'⟩ := goes_on_follows ihRest (mid ++ [.called (pathOf path d.name) .dir])
    refine ⟨log', .call apart apart' (descend_dir type (iterate_opened opens reads)) (by rwa [type]), ?_, ?_⟩
    · exact (List.prefix_append _ _).trans (further.trans ((List.prefix_append _ _).trans more))
    · apply Follows.enter
      apply Follows.append follows more
      intro _ _
      exact .entry (.inl dir) (by rwa [own])
  | @leaf path d ds vs other apart apart' closed _ ih =>
    by_cases plain : Plain d.dType
    · have type : typeOf d.dType = ownType d.dType := (typeOf_eq_iff _).mpr plain
      have leaf : typeOf d.dType ≠ .dir := by
        rw [type, ownType, if_neg other]
        split
        · decide
        · split <;> decide
      obtain ⟨log', more, reads, follows⟩ := goes_on_follows ih (log ++ [.called (pathOf path d.name) (typeOf d.dType)])
      refine ⟨log', .call apart apart' (descend_leaf leaf) reads, (List.prefix_append _ _).trans more, ?_⟩
      rw [type] at follows
      exact .entry plain follows
    · have wrong : typeOf d.dType ≠ ownType d.dType := fun same => plain ((typeOf_eq_iff _).mp same)
      by_cases asDir : typeOf d.dType = .dir
      · have noLink : d.dType ≠ dtLnk := by
          intro link
          rw [link] at asDir
          exact absurd asDir (by decide)
        obtain ⟨errno, fails⟩ := closed noLink
        obtain ⟨rc, run⟩ := iterate_unopened fails
        obtain ⟨log', more, reads, _⟩ := goes_on_follows ih
          (log ++ [.opened (pathOf path d.name)] ++ [.called (pathOf path d.name) (typeOf d.dType)])
        have begins := (List.prefix_append _ _).trans more
        refine ⟨log', .call apart apart' (descend_dir asDir run) reads, (List.prefix_append _ _).trans begins, ?_⟩
        exact .strays plain Event.noConfusion begins
      · obtain ⟨log', more, reads, _⟩ := goes_on_follows ih (log ++ [.called (pathOf path d.name) (typeOf d.dType)])
        refine ⟨log', .call apart apart' (descend_leaf asDir) reads, (List.prefix_append _ _).trans more, ?_⟩
        exact .strays plain (fun same => wrong (Event.called.inj same).2) more

/-- The visit of a tree is done, and succeeds. -/
def Iterates (fs : FileSystem) (cb : Callback) (entName : Bytes) (vs : List Visit) : Prop :=
  Returns (fun fuel => stdDirIterate fs cb true fuel entName []) (stdErrOk, upTo cb [.opened entName] vs)

theorem Iterates.plainly {entName : Bytes} (iterates : Iterates fs cb entName vs)
    (opens : fs.opendir entName = .ok es) (tree : PostOrder fs entName es vs) :
    PlainlyVisited cb [.opened entName] vs := by
  obtain ⟨log', reads, _, follows⟩ := readAll_follows tree [.opened entName]
  cases (iterate_opened opens reads).unique iterates
  obtain ⟨plain, _⟩ | ⟨_, off⟩ := follows
  · exact plain
  · have same := off []
    rw [List.append_nil] at same
    exact absurd List.prefix_rfl same

/-- **When the calls are those of the visit.** -/
theorem iterate_iff {entName : Bytes} {entries : List Dirent} (cb : Callback) (opens : fs.opendir entName = .ok entries)
    (tree : PostOrder fs entName entries vs) :
    Iterates fs cb entName vs ↔ PlainlyVisited cb [.opened entName] vs := by
  constructor
  · exact fun iterates => iterates.plainly opens tree
  · intro plain
    obtain ⟨log', reads, _, ⟨_, rfl⟩ | ⟨odd, _⟩⟩ := readAll_follows tree [.opened entName]
    · exact iterate_opened opens reads
    · exact absurd plain odd

/-- The directory `d`, and a file in `d/s`. -/
def smallTree (top : List Dirent) : FileSystem where
  opendir path :=
    if path = [0x64] then .ok top
    else if path = [0x64, 0x2f, 0x73] then .ok [⟨dot, dtDir⟩, ⟨dotDot, dtDir⟩, ⟨[0x66], dtReg⟩]
    else .error enoent

def subdirectory : Dirent := ⟨[0x73], dtDir⟩
def symlink : Dirent := ⟨[0x6c], dtLnk⟩

/-- The visit of `d` with `d/s` in it. -/
def smallVisit : List Visit :=
  [.enter [0x64, 0x2f, 0x73], .entry [0x64, 0x2f, 0x73, 0x2f, 0x66] dtReg 1, .entry [0x64, 0x2f, 0x73] dtDir 0]

theorem smallTree_subdirectory : PostOrder (smallTree [subdirectory]) [0x64] [subdirectory] smallVisit := by
  have within : PostOrder (smallTree [subdirectory]) (pathOf [0x64] subdirectory.name)
      [⟨dot, dtDir⟩, ⟨dotDot, dtDir⟩, ⟨[0x66], dtReg⟩] [.entry [0x64, 0x2f, 0x73, 0x2f, 0x66] dtReg 0] :=
    .dots rfl (.inl rfl) (.dots rfl (.inr rfl) (.leaf (by decide) (by decide) (by decide) (fun _ => ⟨enoent, rfl⟩) .nil))
  have dots : subdirectory.name ≠ dot ∧ subdirectory.name ≠ dotDot := by decide
  have opens : (smallTree [subdirectory]).opendir (pathOf [0x64] subdirectory.name) = .ok _ := rfl
  exact .dir rfl dots.1 dots.2 opens within .nil

theorem smallTree_symlink :
    PostOrder (smallTree [symlink]) [0x64] [symlink] [.entry [0x64, 0x2f, 0x6c] dtLnk 0] :=
  .leaf (by decide) (by decide) (by decide) (fun other => absurd rfl other) .nil

theorem iterate_small_tree :
    (smallTree [subdirectory]).opendir [0x64] = .ok [subdirectory] ∧
      PostOrder (smallTree [subdirectory]) [0x64] [subdirectory] smallVisit ∧
      (Iterates (smallTree [subdirectory]) (fun _ => true) [0x64] smallVisit ↔
        PlainlyVisited (fun _ => true) [.opened [0x64]] smallVisit) :=
  ⟨rfl, smallTree_subdirectory, iterate_iff _ rfl smallTree_subdirectory⟩

/-- A link is reported as a file, and an answer in `d/s` that ends the visit does not. -/
theorem link_not_told_nor_stop_heard :
    ¬ Iterates (smallTree [symlink]) (fun _ => true) [0x64] [.entry [0x64, 0x2f, 0x6c] dtLnk 0] ∧
      ¬ Iterates (smallTree [subdirectory]) (fun _ => false) [0x64] smallVisit := by
  constructor
  · intro iterates
    have plain := (iterates.plainly rfl smallTree_symlink).1
    exact absurd plain (by decide)
  · intro iterates
    have atTop : (1 : Nat) = 0 := (iterates.plainly rfl smallTree_subdirectory).2
    exact absurd atTop (by decide)

end SonicUtils.Directory
