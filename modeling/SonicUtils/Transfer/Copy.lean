import Mathlib
import SonicUtils.Transfer.FileOp

/-!
# Copying from one descriptor to another

`std_read`, `std_write` and `std_fd_copy` of `std_file_utils.c`, on any
kernel: the calls may be interrupted, cut short or fail as they like.

* `stdRead_once`: what a read for some bytes does;
* `stdWrite_all`: what a write of all bytes does, failed or not;
* `copy_exact`: what went out is what came in, but for the chunk in hand when
  a write failed.
-/

namespace SonicUtils.Transfer.Copy

/-- What a process did with its descriptors. -/
inductive Io
  | got (fd : Int) (bytes : List UInt8)
  | put (fd : Int) (bytes : List UInt8)
  | accepted (fd : Int)
  | closed (fd : Int)
  deriving DecidableEq, Repr

/-- `read` of so many bytes and `write`, on a world `σ`. -/
structure Files (σ : Type) where
  read : σ → Int → Nat → CallResult × List UInt8 × σ
  write : σ → Int → List UInt8 → CallResult × σ

variable {σ : Type}

/-- A call fails, or it transfers at most what it was asked to, and a write of
something never nothing. -/
structure Files.Fair (k : Files σ) : Prop where
  read : ∀ s fd n, (k.read s fd n).1.ret = -1 ∧ (k.read s fd n).2.1 = [] ∨
    (k.read s fd n).1.ret = (k.read s fd n).2.1.length ∧ (k.read s fd n).2.1.length ≤ n
  write : ∀ s fd bytes, bytes ≠ [] → (k.write s fd bytes).1.ret = -1 ∨
    ∃ n : Nat, (k.write s fd bytes).1.ret = n ∧ 0 < n ∧ n ≤ bytes.length

/-- The same kernel, with a note of what was transferred. -/
def Files.noted (k : Files σ) : Files (σ × List Io) where
  read w fd n :=
    let (r, bytes, s) := k.read w.1 fd n
    (r, bytes, s, if bytes = [] then w.2 else w.2 ++ [.got fd bytes])
  write w fd bytes :=
    let (r, s) := k.write w.1 fd bytes
    (r, s, if r.ret ≤ 0 then w.2 else w.2 ++ [.put fd (bytes.take r.ret.toNat)])

/-- `read(fd, data + off, len)`. -/
def readInto (k : Files σ) (fd : Int) (w : σ × List UInt8) (off : Nat) (len : Int) : CallResult × σ × List UInt8 :=
  let (r, bytes, s) := k.read w.1 fd len.toNat
  (r, s, overwrite w.2 off bytes)

/-- `write(fd, data + off, len)`. -/
def writeFrom (k : Files σ) (fd : Int) (data : List UInt8) (s : σ) (off : Nat) (len : Int) : CallResult × σ :=
  k.write s fd ((data.drop off).take len.toNat)

/-- More turns than `file_op` takes for so many bytes. -/
def turns (len : Int) : Nat := 11 * len.toNat + 12

def stdRead (k : Files σ) (fd : Int) (data : List UInt8) (len : Int) (requireAll : Bool) (s : σ) :
    Option (Int × Option StdError × σ × List UInt8) :=
  fileOp (readInto k fd) len requireAll (turns len) (s, data) 0 stdMaxEintr

def stdWrite (k : Files σ) (fd : Int) (data : List UInt8) (len : Int) (requireAll : Bool) (s : σ) :
    Option (Int × Option StdError × σ) :=
  fileOp (writeFrom k fd data) len requireAll (turns len) s 0 stdMaxEintr

/-- `std_fd_copy`, from what happens to be in `buff`; `*err` may be left unset. -/
def stdFdCopy (k : Files σ) (fdout fdin : Int) (buff : List UInt8) (s : σ) : Option (Int × Option StdError × σ) :=
  match stdRead k fdin buff 99 false s with
  | none => none
  | some (rc, err, s, buff) =>
    if rc = -1 ∨ rc = 0 then some (rc, err, s)
    else (stdWrite k fdout buff rc true s).map fun (rc, e, s) => (rc, e.or err, s)

@[simp] theorem overwrite_nil (data : List UInt8) (off : Nat) : overwrite data off [] = data := by simp [overwrite]

theorem overwrite_start (data bytes : List UInt8) : overwrite data 0 bytes = bytes ++ data.drop bytes.length := by
  simp [overwrite]

variable {k : Files σ}

/-- A read gives nothing, or something that is noted. -/
theorem noted_read (fair : k.Fair) (w : σ × List Io) (fd : Int) (n : Nat) :
    ∃ r s, ((r.ret = -1 ∨ r.ret = 0) ∧ k.noted.read w fd n = (r, [], s, w.2)) ∨
      ∃ bytes, bytes ≠ [] ∧ bytes.length ≤ n ∧ r.ret = bytes.length ∧
        k.noted.read w fd n = (r, bytes, s, w.2 ++ [.got fd bytes]) := by
  refine ⟨(k.read w.1 fd n).1, (k.read w.1 fd n).2.2, ?_⟩
  rcases fair.read w.1 fd n with ⟨failed, empty⟩ | ⟨given, fits⟩
  · left
    refine ⟨.inl failed, ?_⟩
    simp [Files.noted, empty]
  · by_cases empty : (k.read w.1 fd n).2.1 = []
    · left
      refine ⟨.inr (by rw [given, empty]; rfl), ?_⟩
      simp [Files.noted, empty]
    · right
      refine ⟨_, empty, fits, given, ?_⟩
      simp [Files.noted, empty]

/-- A write fails, or it takes some of the bytes and that is noted. -/
theorem noted_write (fair : k.Fair) (w : σ × List Io) (fd : Int) {bytes : List UInt8} (some_ : bytes ≠ []) :
    ∃ r s, (r.ret = -1 ∧ k.noted.write w fd bytes = (r, s, w.2)) ∨
      ∃ n : Nat, 0 < n ∧ n ≤ bytes.length ∧ r.ret = n ∧
        k.noted.write w fd bytes = (r, s, w.2 ++ [.put fd (bytes.take n)]) := by
  refine ⟨(k.write w.1 fd bytes).1, (k.write w.1 fd bytes).2, ?_⟩
  rcases fair.write w.1 fd bytes some_ with failed | ⟨n, taken, pos, fits⟩
  · left
    refine ⟨failed, ?_⟩
    simp [Files.noted, failed]
  · right
    refine ⟨n, pos, fits, taken, ?_⟩
    have positive : ¬ (n : Int) ≤ 0 := by omega
    simp [Files.noted, taken, pos.ne']

theorem fileOp_readOnce (fair : k.Fair) {fd len : Int} (pos : 0 < len) (small : len < 2 ^ 31) (data : List UInt8)
    (w : σ × List Io) (retry fuel : Nat) (enough : retry < fuel) :
    ∃ rc err s log data', fileOp (readInto k.noted fd) len false fuel (w, data) 0 retry = some (rc, err, (s, log), data') ∧
      ((rc = -1 ∨ rc = 0) ∧ log = w.2 ∧ data' = data ∨
        ∃ bytes, bytes ≠ [] ∧ (bytes.length : Int) ≤ len ∧ rc = bytes.length ∧ log = w.2 ++ [.got fd bytes] ∧
          data' = overwrite data 0 bytes) := by
  induction fuel generalizing retry w with
  | zero => omega
  | succ fuel ih =>
    have more : ¬ (0 : Int) = len := by omega
    obtain ⟨r, s, ⟨none, call⟩ | ⟨bytes, some_, fits, given, call⟩⟩ := noted_read fair w fd len.toNat
    · have same : asInt r.ret = r.ret := by
        rcases none with failed | ended
        · rw [failed]; rfl
        · rw [ended]; rfl
      rw [fileOp, if_neg more]
      simp only [readInto, Int.sub_zero, Int.toNat_zero, call, overwrite_nil, same]
      rcases none with failed | ended
      · by_cases again : r.errno = eintr
        · by_cases last : retry = 0
          · refine ⟨-1, some (stdErr .fail r.errno), s, w.2, data, ?_, .inl ⟨.inl rfl, rfl, rfl⟩⟩
            simp [isErrno, failed, again, last]
          · have go := ih (s, w.2) (retry - 1) (by omega)
            have fewer : (retry : Int) - 1 = (retry - 1 : Nat) := by omega
            have left : ¬ ((retry - 1 : Nat) : Int) < 0 := by omega
            simpa only [isErrno, failed, again, fewer, left, BEq.rfl, Bool.and_self, if_true, if_false] using go
        · refine ⟨-1, some (stdErr .fail r.errno), s, w.2, data, ?_, .inl ⟨.inl rfl, rfl, rfl⟩⟩
          have other : (eintr == r.errno) = false := by simpa using Ne.symm again
          simp [isErrno, failed, other]
      · refine ⟨0, none, s, w.2, data, ?_, .inl ⟨.inr rfl, rfl, rfl⟩⟩
        simp [isErrno, ended]
    · have positive := List.length_pos_iff.mpr some_
      have same : asInt r.ret = bytes.length := by rw [given]; exact asInt_of_small (by omega) (by omega)
      refine ⟨bytes.length, some stdErrOk, s, w.2 ++ [.got fd bytes], overwrite data 0 bytes, ?_, .inr
        ⟨bytes, some_, by omega, rfl, rfl, rfl⟩⟩
      have valid : ¬ ((bytes.length : Int) = -1) := by omega
      have given_ : ¬ ((bytes.length : Int) = 0) := by omega
      rw [fileOp, if_neg more]
      simp only [readInto, Int.sub_zero, Int.toNat_zero, call, same, isErrno]
      simp [valid, some_]

/-- A write of all bytes in the middle of its work: each turn uses up an
interruption that `fail_retry` allows for, or a byte. -/
theorem fileOp_writeAll (fair : k.Fair) (fd : Int) (done todo rest : List UInt8)
    (small : done.length + todo.length < 2 ^ 31) (w : σ × List Io) (retry fuel : Nat)
    (enough : 11 * todo.length + retry < fuel) :
    ∃ (rc : Int) (err : Option StdError) (s : σ) (ps : List (List UInt8)),
      fileOp (writeFrom k.noted fd (done ++ todo ++ rest)) (done.length + todo.length : Nat) true fuel w done.length
        retry = some (rc, err, s, w.2 ++ ps.map (.put fd)) ∧
      (rc = (done.length + todo.length : Nat) ∧ err = some stdErrOk ∧ ps.flatten = todo ∨
        rc = -1 ∧ (∃ errno, err = some (stdErr .fail errno)) ∧ ∃ left, left ≠ [] ∧ ps.flatten ++ left = todo) := by
  induction fuel generalizing retry w done todo with
  | zero => omega
  | succ fuel ih =>
    by_cases empty : todo = []
    · subst empty
      refine ⟨_, some stdErrOk, w.1, [], ?_, .inl ⟨rfl, rfl, rfl⟩⟩
      simp [fileOp]
    have pos := List.length_pos_iff.mpr empty
    have more : ¬ ((done.length : Int) = (done.length + todo.length : Nat)) := by omega
    have offered : ((done ++ todo ++ rest).drop done.length).take
        (((done.length + todo.length : Nat) : Int) - (done.length : Int)).toNat = todo := by
      rw [List.append_assoc, List.drop_left,
        show (((done.length + todo.length : Nat) : Int) - (done.length : Int)).toNat = todo.length by omega,
        List.take_left]
    obtain ⟨r, s, ⟨failed, call⟩ | ⟨n, taken, fits, given, call⟩⟩ := noted_write fair w fd empty
    · have same : asInt r.ret = -1 := by rw [failed]; rfl
      rw [fileOp, if_neg more]
      simp only [writeFrom, Int.toNat_natCast, offered, call, same]
      by_cases again : r.errno = eintr
      · by_cases last : retry = 0
        · refine ⟨-1, some (stdErr .fail r.errno), s, [], ?_, .inr ⟨rfl, ⟨_, rfl⟩, todo, empty, rfl⟩⟩
          simp [isErrno, again, last]
        · have go := ih done todo small (s, w.2) (retry - 1) (by omega)
          have fewer : (retry : Int) - 1 = (retry - 1 : Nat) := by omega
          have left : ¬ ((retry - 1 : Nat) : Int) < 0 := by omega
          simpa only [isErrno, again, fewer, left, BEq.rfl, Bool.and_self, if_true, if_false] using go
      · refine ⟨-1, some (stdErr .fail r.errno), s, [], ?_, .inr ⟨rfl, ⟨_, rfl⟩, todo, empty, rfl⟩⟩
        have other : (eintr == r.errno) = false := by simpa using Ne.symm again
        simp [isErrno, other]
    · have same : asInt r.ret = n := by rw [given]; exact asInt_of_small (by omega) (by omega)
      have valid : ¬ ((n : Int) = -1) := by omega
      have something : n ≠ 0 := by omega
      have length : (done ++ todo.take n).length = done.length + n := by
        rw [List.length_append, List.length_take, Nat.min_eq_left fits]
      obtain ⟨rc, err, s', ps, run, result⟩ := ih (done ++ todo.take n) (todo.drop n)
        (by rw [length, List.length_drop]; omega) (s, w.2 ++ [.put fd (todo.take n)]) stdMaxEintr
        (by rw [List.length_drop, stdMaxEintr]; omega)
      have total : done.length + n + (todo.length - n) = done.length + todo.length := by omega
      rw [length, List.length_drop, List.append_assoc done, List.take_append_drop, total] at run
      rw [length, List.length_drop, total] at result
      refine ⟨rc, err, s', todo.take n :: ps, ?_, ?_⟩
      · rw [fileOp, if_neg more]
        simp only [writeFrom, Int.toNat_natCast, offered, call, same, isErrno]
        simpa [valid, something] using run
      · rw [List.flatten_cons]
        rcases result with ⟨full, ok, out⟩ | ⟨stopped, why, left, some_, out⟩
        · exact .inl ⟨full, ok, by rw [out, List.take_append_drop]⟩
        · exact .inr ⟨stopped, why, left, some_, by rw [List.append_assoc, out, List.take_append_drop]⟩

theorem stdRead_once (fair : k.Fair) {len : Int} (pos : 0 < len) (small : len < 2 ^ 31) (fd : Int) (data : List UInt8)
    (w : σ × List Io) :
    ∃ rc err s log data', stdRead k.noted fd data len false w = some (rc, err, (s, log), data') ∧
      ((rc = -1 ∨ rc = 0) ∧ log = w.2 ∧ data' = data ∨
        ∃ bytes, bytes ≠ [] ∧ (bytes.length : Int) ≤ len ∧ rc = bytes.length ∧ log = w.2 ++ [.got fd bytes] ∧
          data' = bytes ++ data.drop bytes.length) := by
  simp only [← overwrite_start]
  exact fileOp_readOnce fair pos small data w stdMaxEintr _ (by rw [turns, stdMaxEintr]; omega)

/-- A write of the first bytes of `data`, all of them. -/
theorem stdWrite_all (fair : k.Fair) (fd : Int) (todo rest : List UInt8) (small : todo.length < 2 ^ 31) (w : σ × List Io) :
    ∃ (rc : Int) (err : Option StdError) (s : σ) (ps : List (List UInt8)),
      stdWrite k.noted fd (todo ++ rest) todo.length true w = some (rc, err, s, w.2 ++ ps.map (.put fd)) ∧
      (rc = todo.length ∧ err = some stdErrOk ∧ ps.flatten = todo ∨
        rc = -1 ∧ (∃ errno, err = some (stdErr .fail errno)) ∧ ∃ left, left ≠ [] ∧ ps.flatten ++ left = todo) := by
  have run := fileOp_writeAll fair fd [] todo rest (by simpa using small) w stdMaxEintr
    (turns todo.length) (by rw [turns, stdMaxEintr]; omega)
  simpa [stdWrite] using run

/-- What came in on a descriptor. -/
def received (fd : Int) (log : List Io) : List UInt8 :=
  log.flatMap fun
    | .got source bytes => if source = fd then bytes else []
    | _ => []

/-- What went out on it. -/
def sent (fd : Int) (log : List Io) : List UInt8 :=
  log.flatMap fun
    | .put target bytes => if target = fd then bytes else []
    | _ => []

@[simp] theorem received_append (fd : Int) (a b : List Io) : received fd (a ++ b) = received fd a ++ received fd b :=
  List.flatMap_append

@[simp] theorem sent_append (fd : Int) (a b : List Io) : sent fd (a ++ b) = sent fd a ++ sent fd b := List.flatMap_append

@[simp] theorem received_puts (fd out : Int) (ps : List (List UInt8)) : received fd (ps.map (.put out)) = [] := by
  simp [received]

@[simp] theorem sent_puts (fd : Int) (ps : List (List UInt8)) : sent fd (ps.map (.put fd)) = ps.flatten := by
  induction ps with
  | nil => rfl
  | cons p ps ih =>
    rw [List.map_cons, sent, List.flatMap_cons, ← sent, ih, List.flatten_cons]
    simp

/-- What one call does: nothing, or it reads a chunk and writes it, as far as it gets. -/
theorem stdFdCopy_cases (fair : k.Fair) (fdout fdin : Int) (buff : List UInt8) (w : σ × List Io) :
    ∃ rc err s log, stdFdCopy k.noted fdout fdin buff w = some (rc, err, s, log) ∧
      ((rc = -1 ∨ rc = 0) ∧ log = w.2 ∨
        ∃ (bytes : List UInt8) (ps : List (List UInt8)), bytes.length ≤ 99 ∧
          log = w.2 ++ .got fdin bytes :: ps.map (.put fdout) ∧
          (rc = bytes.length ∧ ps.flatten = bytes ∨ rc = -1 ∧ ps.flatten <+: bytes)) := by
  obtain ⟨rc, err, s, log, buff', read, ⟨none, same, _⟩ | ⟨bytes, some_, fits, rfl, got, rfl⟩⟩ :=
    stdRead_once fair (show (0 : Int) < 99 by decide) (by decide) fdin buff w
  · refine ⟨rc, err, s, log, ?_, .inl ⟨none, same⟩⟩
    rw [stdFdCopy, read]
    exact if_pos none
  · have pos := List.length_pos_iff.mpr some_
    have more : ¬ ((bytes.length : Int) = -1 ∨ (bytes.length : Int) = 0) := by omega
    obtain ⟨rc, e, s', ps, write, result⟩ :=
      stdWrite_all fair fdout bytes (buff.drop bytes.length) (by omega) (s, log)
    refine ⟨rc, e.or err, s', log ++ ps.map (.put fdout), ?_, .inr ⟨bytes, ps, by omega, ?_, ?_⟩⟩
    · rw [stdFdCopy, read]
      dsimp only
      rw [if_neg more, write]
      rfl
    · rw [got, List.append_assoc]
      rfl
    · rcases result with ⟨full, _, out⟩ | ⟨failed, _, left, _, out⟩
      · exact .inl ⟨full, out⟩
      · exact .inr ⟨failed, left, out⟩

/-- Calls to `std_fd_copy` until one fails, with what is in the buffer before each. -/
def copies (k : Files σ) (fdout fdin : Int) : List (List UInt8) → σ → Option (List Int × σ)
  | [], s => some ([], s)
  | buff :: buffs, s =>
    match stdFdCopy k fdout fdin buff s with
    | none => none
    | some (rc, _, s) =>
      if rc = -1 then some ([rc], s) else (copies k fdout fdin buffs s).map fun (rcs, s) => (rc :: rcs, s)

/-- What calls with these results did. -/
structure Copied (fdout fdin : Int) (rcs : List Int) (log : List Io) : Prop where
  in_order : sent fdout log <+: received fdin log
  /-- At most the chunk in hand is lost. -/
  lost : (received fdin log).length ≤ (sent fdout log).length + 99
  exact : (∀ rc ∈ rcs, rc ≠ -1) → sent fdout log = received fdin log ∧ rcs.sum = (received fdin log).length

theorem received_chunk (fdout fdin : Int) (bytes : List UInt8) (ps : List (List UInt8)) :
    received fdin (.got fdin bytes :: ps.map (.put fdout)) = bytes := by
  rw [received, List.flatMap_cons, ← received, received_puts]
  simp

theorem sent_chunk (fdout fdin : Int) (bytes : List UInt8) (ps : List (List UInt8)) :
    sent fdout (.got fdin bytes :: ps.map (.put fdout)) = ps.flatten := by
  rw [sent, List.flatMap_cons, ← sent, sent_puts, List.nil_append]

theorem Copied.failed (fdout fdin : Int) : Copied fdout fdin [-1] [] :=
  ⟨List.prefix_rfl, by simp [received], fun ok => absurd rfl (ok (-1) (by simp))⟩

theorem Copied.chunk {fdout fdin : Int} {rcs : List Int} {log : List Io} (h : Copied fdout fdin rcs log)
    {bytes : List UInt8} {ps : List (List UInt8)} (out : ps.flatten = bytes) :
    Copied fdout fdin (bytes.length :: rcs) (.got fdin bytes :: ps.map (.put fdout) ++ log) := by
  have came := (received_append fdin (.got fdin bytes :: ps.map (.put fdout)) log).trans
    (congrArg (· ++ received fdin log) (received_chunk fdout fdin bytes ps))
  have went := (sent_append fdout (.got fdin bytes :: ps.map (.put fdout)) log).trans
    (congrArg (· ++ sent fdout log) ((sent_chunk fdout fdin bytes ps).trans out))
  refine ⟨?_, ?_, fun ok => ?_⟩
  · rw [came, went]
    exact (List.prefix_append_right_inj bytes).mpr h.in_order
  · rw [came, went, List.length_append, List.length_append]
    have lost := h.lost
    omega
  · obtain ⟨same, sum⟩ := h.exact fun rc mem => ok rc (List.mem_cons_of_mem _ mem)
    rw [came, went, same, List.sum_cons, sum, List.length_append]
    exact ⟨rfl, (Int.natCast_add ..).symm⟩

theorem copies_copied (fair : k.Fair) (fdout fdin : Int) (buffs : List (List UInt8)) (w : σ × List Io) :
    ∃ rcs s more, copies k.noted fdout fdin buffs w = some (rcs, s, w.2 ++ more) ∧ Copied fdout fdin rcs more := by
  induction buffs generalizing w with
  | nil => exact ⟨[], w.1, [], by simp [copies], List.prefix_rfl, by simp [received], fun _ => ⟨rfl, rfl⟩⟩
  | cons buff buffs ih =>
    obtain ⟨rc, err, s, log, call, ⟨none, rfl⟩ | ⟨bytes, ps, fits, log_eq, ⟨rfl, out⟩ | ⟨rfl, out⟩⟩⟩ :=
      stdFdCopy_cases fair fdout fdin buff w
    · obtain ⟨rcs, s', more, run, done⟩ := ih (s, w.2)
      rcases none with rfl | rfl
      · refine ⟨[-1], s, [], ?_, .failed fdout fdin⟩
        rw [copies, call, List.append_nil]
        exact if_pos rfl
      · refine ⟨0 :: rcs, s', more, ?_, done.in_order, done.lost, fun ok => ?_⟩
        · rw [copies, call]
          dsimp only
          rw [if_neg (by decide), run]
          rfl
        · rw [List.sum_cons, Int.zero_add]
          exact done.exact fun rc mem => ok rc (List.mem_cons_of_mem _ mem)
    · obtain ⟨rcs, s', more, run, done⟩ := ih (s, log)
      refine ⟨bytes.length :: rcs, s', .got fdin bytes :: ps.map (.put fdout) ++ more, ?_, done.chunk out⟩
      rw [copies, call]
      dsimp only
      rw [if_neg (by omega), run, log_eq, List.append_assoc]
      rfl
    · refine ⟨[-1], s, .got fdin bytes :: ps.map (.put fdout), ?_, ?_, ?_, fun ok => absurd rfl (ok (-1) (by simp))⟩
      · rw [copies, call, log_eq]
        exact if_pos rfl
      · rw [received_chunk, sent_chunk]
        exact out
      · rw [received_chunk, sent_chunk]
        omega

/-- However many calls are made, until one fails. -/
theorem copy_exact (fair : k.Fair) (fdout fdin : Int) (buffs : List (List UInt8)) (s : σ) :
    ∃ rcs s' log, copies k.noted fdout fdin buffs (s, []) = some (rcs, s', log) ∧ Copied fdout fdin rcs log :=
  copies_copied fair fdout fdin buffs (s, [])

/-- What is left to read and what was written; a write takes two bytes at most. -/
def narrow : Files (List UInt8 × List UInt8) where
  read s _ n := (⟨(s.1.take n).length, 0⟩, s.1.take n, s.1.drop n, s.2)
  write s _ bytes := (⟨(bytes.take 2).length, 0⟩, s.1, s.2 ++ bytes.take 2)

theorem narrow_fair : narrow.Fair where
  read s fd n := .inr ⟨rfl, List.length_take_le ..⟩
  write s fd bytes some_ := by
    have pos := List.length_pos_iff.mpr some_
    exact .inr ⟨(bytes.take 2).length, rfl, by rw [List.length_take]; omega, by rw [List.length_take]; omega⟩

theorem copy_exact_narrow :
    narrow.Fair ∧ ∃ rcs s log, copies narrow.noted 1 0 [[], [7]] (([3, 1, 4], []), []) = some (rcs, s, log) ∧
      Copied 1 0 rcs log :=
  ⟨narrow_fair, copy_exact narrow_fair 1 0 [[], [7]] ([3, 1, 4], [])⟩

end SonicUtils.Transfer.Copy
