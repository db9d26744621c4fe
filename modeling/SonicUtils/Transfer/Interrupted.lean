import SonicUtils.Transfer.Scatter
import SonicUtils.Transfer.FileOp

/-!
# Interruptions in a row

`_process_op` and `file_op` count how often they may still be interrupted, the
one in a `size_t` and the other in an `int`.

* `afterCall_interrupted`: `_process_op` goes on after any interruption;
* `retries_bounded_iff`: when its retries are bounded all the same;
* `fileOp_gives_up`: `file_op` returns after one interruption too many.
-/

namespace SonicUtils.Transfer.Scatter

open SonicUtils.Loop

/-- The results of the calls of the handler and of the selects, in order. -/
structure Script where
  results : Nat → CallResult
  selects : Nat → CallResult

/-- The world counts the calls of the handler and the selects. -/
def Script.system (script : Script) : System (Nat × Nat) where
  handler _ w _ _ := (script.results w.1, w.1 + 1, w.2)
  select _ w := (script.selects w.2, w.1, w.2 + 1)

/-- What this call returns, as `rc` has it. -/
def Script.rc (script : Script) (n : Nat) : Int := asInt (script.results n).ret

def Script.Eintr (script : Script) (n : Nat) : Prop := isErrno (script.rc n) (script.results n).errno eintr = true

def Script.Eagain (script : Script) (n : Nat) : Prop := isErrno (script.rc n) (script.results n).errno eagain = true

instance (script : Script) (n : Nat) : Decidable (script.Eintr n) := inferInstanceAs (Decidable (_ = true))

instance (script : Script) (n : Nat) : Decidable (script.Eagain n) := inferInstanceAs (Decidable (_ = true))

/-- What the calls before this one add up to. -/
def Script.sum (script : Script) : Nat → Int
  | 0 => 0
  | n + 1 => script.sum n + if script.rc n = -1 then 0 else script.rc n

/-- How many selects the calls before this one ask for. -/
def Script.waits (script : Script) : Nat → Nat
  | 0 => 0
  | n + 1 => script.waits n + if script.Eagain n then 1 else 0

/-- The result of this call need not be the last. -/
def Script.Again (script : Script) (sendAll : Bool) (n : Nat) : Prop :=
  script.Eintr n ∨ script.Eagain n ∧ 0 < asInt (script.selects (script.waits n)).ret ∨
    sendAll = true ∧ script.rc n ≠ -1 ∧ script.rc n ≠ 0

/-- No result before this call is the last, and none has brought the sum to `goal`. -/
structure Script.Awaited (script : Script) (sendAll : Bool) (goal : Int) (n : Nat) : Prop where
  again : ∀ i < n, script.Again sendAll i
  short : ∀ i ≤ n, script.sum i ≠ goal

/-- The world after a turn. -/
def worldAfter {σ : Type} : Loop σ ⊕ Outcome σ → σ
  | .inl l => l.world
  | .inr o => o.last.world

/-- How many calls of the handler there have been after a turn. -/
def callsAfter (next : Loop (Nat × Nat) ⊕ Outcome (Nat × Nat)) : Nat := (worldAfter next).1

/-- The loop of `std_socket_op` gets to this state. -/
def Reached (script : Script) (send : Bool) (flags : BitVec 32) (iov : List Iovec) (l : Loop (Nat × Nat)) : Prop :=
  Leads (turnOf script.system send flags iov) (start iov (0, 0)) l

/-- The loop makes the call with this number. -/
def Calls (script : Script) (send : Bool) (flags : BitVec 32) (iov : List Iovec) (n : Nat) : Prop :=
  ∃ l next, Reached script send flags iov l ∧ turnOf script.system send flags iov l = .ok next ∧
    l.world.1 = n ∧ callsAfter next = n + 1

/-- At most `STD_MAX_EINTR` retries after results `EINTR` in a row, and an error
where they do not end. -/
def BoundedRetries (script : Script) (send : Bool) (flags : BitVec 32) (iov : List Iovec) : Prop :=
  (∀ n, (∀ i ≤ stdMaxEintr, script.Eintr (n + i)) → ∀ l, Reached script send flags iov l →
    l.world.1 ≤ n + stdMaxEintr) ∧
  ∀ n, Calls script send flags iov n → (∀ i ≥ n, script.Eintr i) →
    ∃ o, Ends .noReturn (turnOf script.system send flags iov) (start iov (0, 0)) o ∧ o.ret = -1 ∧ o.err ≠ stdErrOk

/-- As long as there is something left to transfer, the results do not give `EINTR`
more often than that in a row. -/
def FewEintr (script : Script) (flags : BitVec 32) (iov : List Iovec) : Prop :=
  ∀ n, script.Awaited (flags &&& transitAll ≠ 0) (totalLen ⟨iov, []⟩ (whole iov)) n →
    ¬ ∀ i ≤ stdMaxEintr, script.Eintr (n + i)

variable {script : Script} {send sendAll : Bool} {flags : BitVec 32} {iov : List Iovec} {l t : Loop (Nat × Nat)}
  {next : Loop (Nat × Nat) ⊕ Outcome (Nat × Nat)} {goal : Int} {n k : Nat}

/-! ## The script -/

theorem Script.Eintr.rc (interrupted : script.Eintr n) : script.rc n = -1 :=
  eq_of_beq (Bool.and_eq_true_iff.mp interrupted).1

theorem Script.Eagain.rc (blocked : script.Eagain n) : script.rc n = -1 :=
  eq_of_beq (Bool.and_eq_true_iff.mp blocked).1

theorem Script.Eintr.not_eagain (interrupted : script.Eintr n) : ¬ script.Eagain n := by
  intro blocked
  have errno : eintr = (script.results n).errno := eq_of_beq (Bool.and_eq_true_iff.mp interrupted).2
  have errno' : eagain = (script.results n).errno := eq_of_beq (Bool.and_eq_true_iff.mp blocked).2
  exact absurd (errno.trans errno'.symm) (by decide)

/-- An interruption changes nothing about what is left. -/
theorem Script.Awaited.onward (awaited : script.Awaited sendAll goal n) (interrupted : script.Eintr n) :
    script.Awaited sendAll goal (n + 1) := by
  constructor
  · intro i before
    by_cases last : i = n
    · rw [last]
      exact .inl interrupted
    · exact awaited.again i (by omega)
  · intro i before
    by_cases last : i = n + 1
    · have same : script.sum (n + 1) = script.sum n := by
        rw [Script.sum, if_pos interrupted.rc, Int.add_zero]
      rw [last, same]
      exact awaited.short n (Nat.le_refl n)
    · exact awaited.short i (by omega)

theorem Script.Awaited.row (awaited : script.Awaited sendAll goal n) (interrupted : ∀ i < k, script.Eintr (n + i)) :
    script.Awaited sendAll goal (n + k) := by
  induction k with
  | zero => exact awaited
  | succ k ih =>
    have before := ih fun i hi => interrupted i (by omega)
    exact before.onward (interrupted k (by omega))

/-! ## The loop -/

/-- `fix_offset` stays inside its array, and changes the copy only. -/
theorem fixOffset_caller (left : Nat) (m : Iovs) (msg : Msghdr) (offset : Int) (copy : msg.home = .copy)
    (inside : msg.first + left ≤ m.copy.length) :
    ∃ m' rest, fixOffset left m msg offset = .ok (m', rest) ∧ m'.caller = m.caller := by
  induction left generalizing msg offset with
  | zero => exact ⟨m, msg, rfl, rfl⟩
  | succ left ih =>
    obtain ⟨v, here⟩ : ∃ v, (m.array msg.home)[msg.first]? = some v := by
      rw [copy]
      have bound : msg.first < m.copy.length := by omega
      exact ⟨m.copy[msg.first], List.getElem?_eq_getElem bound⟩
    by_cases positive : offset > 0
    · rw [fixOffset_succ left msg offset here positive]
      split
      · refine ⟨_, _, rfl, ?_⟩
        rw [copy]
        rfl
      · apply ih
        · exact copy
        · dsimp only
          omega
    · refine ⟨m, msg, ?_, rfl⟩
      rw [fixOffset, if_neg positive]
      rfl

/-- A turn once the handler has returned. -/
def afterCall {σ : Type} (select : σ → CallResult × σ) (sendAll : Bool) (goal : Int) (l : Loop σ) (r : CallResult) :
    Except Fault (Loop σ ⊕ Outcome σ) :=
  let rc := asInt r.ret
  if isErrno rc r.errno eintr then
    let l := { l with failRetry := l.failRetry - 1 }
    if l.failRetry < 0 then return .inr ⟨rc, stdErr .fail r.errno, l⟩
    else return .inl l
  else if isErrno rc r.errno eagain then
    let (res, world) := select l.world
    let l := { l with world }
    if asInt res.ret ≤ 0 then return .inr ⟨-1, stdErr .fail res.errno, l⟩
    else return .inl l
  else if rc = -1 then return .inr ⟨rc, stdErr .fail r.errno, l⟩
  else if rc = 0 then
    if !sendAll then return .inr ⟨l.total, stdErrOk, l⟩
    else if l.total = goal then return .inr ⟨l.total, stdErrOk, l⟩
    else return .inr ⟨rc, stdErr .fail r.errno, l⟩
  else
    let l := { l with total := l.total + rc }
    if !sendAll then return .inr ⟨l.total, stdErrOk, l⟩
    else return .inl { l with failRetry := stdMaxEintr }

theorem turn_eq {σ : Type} (sys : System σ) (send sendAll : Bool) (fl : Nat) (msg : Msghdr) (goal : Int) (l : Loop σ) :
    turn sys send sendAll fl msg goal l =
      (if l.total = goal then return .inr ⟨l.total, stdErrOk, l⟩
      else do
        let (iovs, rest) ← fixOffset msg.msgIovlen (l.iovs.memcpy msg) ⟨.copy, 0, msg.msgIovlen⟩ l.total
        let (r, world) := sys.handler send l.world (iovs.segments rest) fl
        afterCall (sys.select send) sendAll goal { l with world, iovs } r) := rfl

/-- The loop goes on after an interruption, however many there have been. -/
theorem afterCall_interrupted {σ : Type} (select : σ → CallResult × σ) (sendAll : Bool) (goal : Int) (l : Loop σ)
    {r : CallResult} (interrupted : isErrno (asInt r.ret) r.errno eintr = true) :
    afterCall select sendAll goal l r = .ok (.inl { l with failRetry := l.failRetry - 1 }) := by
  -- A `size_t` is never below 0.
  have never : ¬ l.failRetry - 1 < 0 := BitVec.not_lt_zero
  exact (if_pos interrupted).trans (if_neg never)

/-- What the loop knows before a turn. -/
structure Underway (script : Script) (sendAll : Bool) (goal : Int) (iov : List Iovec) (l : Loop (Nat × Nat)) : Prop where
  caller : l.iovs.caller = iov
  waits : l.world.2 = script.waits l.world.1
  total : l.total = script.sum l.world.1
  again : ∀ i < l.world.1, script.Again sendAll i
  short : ∀ i < l.world.1, script.sum i ≠ goal

theorem Underway.awaited (underway : Underway script sendAll goal iov l) (going : l.total ≠ goal) :
    script.Awaited sendAll goal l.world.1 := by
  refine ⟨underway.again, fun i bound => ?_⟩
  by_cases last : i = l.world.1
  · rw [last, ← underway.total]
    exact going
  · exact underway.short i (by omega)

theorem Underway.onward (underway : Underway script sendAll goal iov l) (going : l.total ≠ goal)
    (again : script.Again sendAll l.world.1) (caller : t.iovs.caller = iov)
    (world : t.world = (l.world.1 + 1, script.waits (l.world.1 + 1))) (total : t.total = script.sum (l.world.1 + 1)) :
    Underway script sendAll goal iov t := by
  have awaited := underway.awaited going
  have count : t.world.1 = l.world.1 + 1 := congrArg Prod.fst world
  refine ⟨caller, ?_, ?_, fun i bound => ?_, fun i bound => ?_⟩
  · rw [world]
  · rw [count]
    exact total
  · by_cases last : i = l.world.1
    · rw [last]
      exact again
    · exact awaited.again i (by omega)
  · exact awaited.short i (by omega)

/-- What a turn comes to where there is something left to transfer. -/
def Turned (script : Script) (sendAll : Bool) (goal : Int) (iov : List Iovec) (n : Nat)
    (next : Loop (Nat × Nat) ⊕ Outcome (Nat × Nat)) : Prop :=
  callsAfter next = n + 1 ∧
    ((script.Again sendAll n ∧ ∃ t, next = .inl t ∧ Underway script sendAll goal iov t) ∨
      ¬ script.Again sendAll n ∧ ∃ o, next = .inr o)

theorem afterCall_script {select : Nat × Nat → CallResult × Nat × Nat}
    (selected : ∀ w, select w = (script.selects w.2, w.1, w.2 + 1)) (underway : Underway script sendAll goal iov l)
    (going : l.total ≠ goal) {m : Iovs} (caller : m.caller = iov) :
    ∃ next, afterCall select sendAll goal { l with world := (l.world.1 + 1, l.world.2), iovs := m }
        (script.results l.world.1) = .ok next ∧ Turned script sendAll goal iov l.world.1 next := by
  have sum : script.sum (l.world.1 + 1) =
      l.total + if script.rc l.world.1 = -1 then 0 else script.rc l.world.1 := by
    rw [underway.total]
    rfl
  have waits : script.waits (l.world.1 + 1) = l.world.2 + if script.Eagain l.world.1 then 1 else 0 := by
    rw [underway.waits]
    rfl
  by_cases interrupted : script.Eintr l.world.1
  · refine ⟨_, afterCall_interrupted _ _ _ _ interrupted, rfl, .inl ⟨.inl interrupted, _, rfl, ?_⟩⟩
    apply underway.onward going (.inl interrupted) caller
    · rw [waits, if_neg interrupted.not_eagain]
      rfl
    · rw [sum, if_pos interrupted.rc, Int.add_zero]
  · have here : asInt (script.results l.world.1).ret = script.rc l.world.1 := rfl
    have interrupted' : ¬ isErrno (script.rc l.world.1) (script.results l.world.1).errno eintr = true := interrupted
    unfold afterCall
    dsimp only
    rw [here, if_neg interrupted', selected]
    by_cases blocked : script.Eagain l.world.1
    · have blocked' : isErrno (script.rc l.world.1) (script.results l.world.1).errno eagain = true := blocked
      rw [if_pos blocked']
      dsimp only
      rw [underway.waits]
      by_cases ready : 0 < asInt (script.selects (script.waits l.world.1)).ret
      · have again : script.Again sendAll l.world.1 := .inr (.inl ⟨blocked, ready⟩)
        rw [if_neg (Int.not_le.mpr ready)]
        refine ⟨_, rfl, rfl, .inl ⟨again, _, rfl, ?_⟩⟩
        apply underway.onward going again caller
        · rw [waits, if_pos blocked, underway.waits]
        · rw [sum, if_pos blocked.rc, Int.add_zero]
      · rw [if_pos (Int.not_lt.mp ready)]
        refine ⟨_, rfl, rfl, .inr ⟨?_, _, rfl⟩⟩
        rintro (h | ⟨_, h⟩ | ⟨_, h, _⟩)
        · exact interrupted h
        · exact ready h
        · exact h blocked.rc
    · have blocked' : ¬ isErrno (script.rc l.world.1) (script.results l.world.1).errno eagain = true := blocked
      rw [if_neg blocked']
      -- From here on only bytes that have been transferred let the loop go on.
      have other (h : script.Again sendAll l.world.1) : sendAll = true ∧ script.rc l.world.1 ≠ -1 ∧ script.rc l.world.1 ≠ 0 := by
        obtain h | ⟨h, _⟩ | h := h
        · exact absurd h interrupted
        · exact absurd h blocked
        · exact h
      by_cases failed : script.rc l.world.1 = -1
      · rw [if_pos failed]
        exact ⟨_, rfl, rfl, .inr ⟨fun h => (other h).2.1 failed, _, rfl⟩⟩
      · rw [if_neg failed]
        by_cases none : script.rc l.world.1 = 0
        · rw [if_pos none]
          have last : ¬ script.Again sendAll l.world.1 := fun h => (other h).2.2 none
          split
          · exact ⟨_, rfl, rfl, .inr ⟨last, _, rfl⟩⟩
          · exact ⟨_, rfl, rfl, .inr ⟨last, _, rfl⟩⟩
        · rw [if_neg none]
          cases all : sendAll with
          | false => exact ⟨_, rfl, rfl, .inr ⟨fun h => absurd (other (all ▸ h)).1 (by simp [all]), _, rfl⟩⟩
          | true =>
            have again : script.Again sendAll l.world.1 := .inr (.inr ⟨all, failed, none⟩)
            subst all
            refine ⟨_, rfl, rfl, .inl ⟨again, _, rfl, ?_⟩⟩
            apply underway.onward going again caller
            · rw [waits, if_neg blocked]
              rfl
            · rw [sum, if_neg failed]

theorem turn_script (send : Bool) (underway : Underway script sendAll goal iov l) (going : l.total ≠ goal) (fl : Nat) :
    ∃ next, turn script.system send sendAll fl (whole iov) goal l = .ok next ∧
      Turned script sendAll goal iov l.world.1 next := by
  have copy : (l.iovs.memcpy (whole iov)).copy = iov := segments_whole iov _ underway.caller
  have inside : 0 + (whole iov).msgIovlen ≤ (l.iovs.memcpy (whole iov)).copy.length := by
    rw [copy, Nat.zero_add]
    exact Nat.le_refl _
  obtain ⟨m, rest, cut, caller⟩ := fixOffset_caller _ (l.iovs.memcpy (whole iov)) ⟨.copy, 0, (whole iov).msgIovlen⟩
    l.total rfl inside
  obtain ⟨next, after, turned⟩ := afterCall_script (fun _ => rfl) underway going (caller.trans underway.caller)
  refine ⟨next, ?_, turned⟩
  rw [turn_eq, if_neg going, cut, ok_bind]
  exact after

theorem turn_finished {fl : Nat} {msg : Msghdr} (finished : l.total = goal) :
    turn script.system send sendAll fl msg goal l = .ok (.inr ⟨l.total, stdErrOk, l⟩) := if_pos finished

theorem Underway.start (script : Script) (sendAll : Bool) (goal : Int) (iov : List Iovec) :
    Underway script sendAll goal iov (start iov (0, 0)) :=
  ⟨rfl, rfl, rfl, fun _ none => absurd none (Nat.not_lt_zero _), fun _ none => absurd none (Nat.not_lt_zero _)⟩

theorem Underway.leads {fl : Nat} {s : Loop (Nat × Nat)}
    (leads : Leads (turn script.system send sendAll fl (whole iov) goal) s t)
    (underway : Underway script sendAll goal iov s) : Underway script sendAll goal iov t := by
  induction leads with
  | refl => exact underway
  | @head s u t turned rest ih =>
    apply ih
    have going : s.total ≠ goal := by
      intro finished
      cases turned.symm.trans (turn_finished finished)
    obtain ⟨next, run, _, ⟨_, v, same, after⟩ | ⟨_, o, same⟩⟩ := turn_script send underway going fl
    · cases (turned.symm.trans run).trans (congrArg Except.ok same)
      exact after
    · cases (turned.symm.trans run).trans (congrArg Except.ok same)

/-- The calls that the loop makes are the ones that the results leave to be made. -/
theorem calls_iff (send : Bool) : Calls script send flags iov n ↔
    script.Awaited (flags &&& transitAll ≠ 0) (totalLen ⟨iov, []⟩ (whole iov)) n := by
  constructor
  · intro ⟨l, next, reached, turned, number, count⟩
    have going : l.total ≠ totalLen ⟨iov, []⟩ (whole iov) := by
      intro finished
      cases turned.symm.trans (turn_finished finished)
      have same : l.world.1 = n + 1 := count
      omega
    rw [← number]
    exact (Underway.leads reached (.start ..)).awaited going
  · intro awaited
    induction n with
    | zero =>
      obtain ⟨next, run, count, _⟩ := turn_script send (.start script _ _ iov) (awaited.short 0 (Nat.le_refl 0)) _
      exact ⟨_, next, .refl _, run, rfl, count⟩
    | succ n ih =>
      obtain ⟨l, next, reached, turned, rfl, _⟩ := ih ⟨fun i h => awaited.again i (by omega), fun i h => awaited.short i (by omega)⟩
      have underway := Underway.leads reached (.start ..)
      have going : l.total ≠ totalLen ⟨iov, []⟩ (whole iov) := by
        rw [underway.total]
        exact awaited.short _ (Nat.le_succ _)
      obtain ⟨next', run, count, ⟨_, t, same, after⟩ | ⟨last, _⟩⟩ := turn_script send underway going _
      · cases turned.symm.trans run
        subst same
        have going' : t.total ≠ totalLen ⟨iov, []⟩ (whole iov) := by
          rw [after.total, show t.world.1 = l.world.1 + 1 from count]
          exact awaited.short _ (Nat.le_refl _)
        obtain ⟨next', run', count', _⟩ := turn_script send after going' _
        exact ⟨t, next', reached.trans (.single turned), run', count, count'.trans (congrArg (· + 1) count)⟩
      · exact absurd (awaited.again _ (Nat.lt_succ_self _)) last

/-- Where every call is awaited, no number of turns is enough. -/
theorem Underway.endless {fl : Nat} (underway : Underway script sendAll goal iov l)
    (awaited : ∀ n, script.Awaited sendAll goal n) (fuel : Nat) :
    loop .noReturn (turn script.system send sendAll fl (whole iov) goal) fuel l = .error .noReturn := by
  induction fuel generalizing l with
  | zero => rfl
  | succ fuel ih =>
    have going : l.total ≠ goal := by
      rw [underway.total]
      exact (awaited l.world.1).short _ (Nat.le_refl _)
    obtain ⟨next, run, _, ⟨_, t, same, after⟩ | ⟨last, _⟩⟩ := turn_script send underway going fl
    · rw [loop_inl fuel (run.trans (congrArg Except.ok same))]
      exact ih after
    · exact absurd ((awaited (l.world.1 + 1)).again _ (Nat.lt_succ_self _)) last

theorem BoundedRetries.few (bounded : BoundedRetries script send flags iov) : FewEintr script flags iov := by
  intro n awaited interrupted
  have last := awaited.row (k := stdMaxEintr + 1) fun i hi => interrupted i (Nat.le_of_lt_succ hi)
  obtain ⟨l, next, reached, _, number, _⟩ := (calls_iff send).mpr last
  have := bounded.1 n interrupted l reached
  omega

theorem FewEintr.bounded (few : FewEintr script flags iov) (send : Bool) : BoundedRetries script send flags iov := by
  constructor
  · intro n interrupted l reached
    by_contra beyond
    have underway := Underway.leads reached (.start script _ _ iov)
    apply few n _ interrupted
    constructor
    · intro i before
      exact underway.again i (by omega)
    · intro i before
      exact underway.short i (by omega)
  · intro n calls interrupted
    exact absurd (fun i _ => interrupted (n + i) (Nat.le_add_right n i)) (few n ((calls_iff send).mp calls))

/-- **When the retries of `std_socket_op` are bounded.** The loop itself never
gives up on interruptions, so it takes a handler that gives no more than
`STD_MAX_EINTR` of them in a row. -/
theorem retries_bounded_iff (script : Script) (send : Bool) (flags : BitVec 32) (iov : List Iovec) :
    BoundedRetries script send flags iov ↔ FewEintr script flags iov :=
  ⟨BoundedRetries.few, fun few => few.bounded send⟩

/-- A handler that is always interrupted. -/
def alwaysEintr : Script := ⟨fun _ => ⟨-1, eintr⟩, fun _ => ⟨1, 0⟩⟩

theorem alwaysEintr_eintr (n : Nat) : alwaysEintr.Eintr n := by
  show isErrno (asInt (-1)) eintr eintr = true
  decide

theorem alwaysEintr_awaited (n : Nat) :
    alwaysEintr.Awaited (transitAll &&& transitAll ≠ 0) (totalLen ⟨[⟨0x1000, 1⟩], []⟩ (whole [⟨0x1000, 1⟩])) n := by
  have first : alwaysEintr.Awaited (transitAll &&& transitAll ≠ 0)
      (totalLen ⟨[⟨0x1000, 1⟩], []⟩ (whole [⟨0x1000, 1⟩])) 0 := by
    refine ⟨fun i none => absurd none (Nat.not_lt_zero i), fun i before => ?_⟩
    rw [Nat.le_zero.mp before]
    decide
  have later := first.row (k := n) fun i _ => alwaysEintr_eintr (0 + i)
  rwa [Nat.zero_add] at later

/-- One byte to send, and every call interrupted: no number of turns is enough. -/
theorem interrupted_for_ever :
    (∀ fuel, processOp alwaysEintr.system true transitAll [⟨0x1000, 1⟩] fuel (0, 0) = .error .noReturn) ∧
      ¬ BoundedRetries alwaysEintr true transitAll [⟨0x1000, 1⟩] := by
  constructor
  · intro fuel
    exact (Underway.start alwaysEintr _ _ _).endless alwaysEintr_awaited fuel
  · intro bounded
    exact bounded.few 0 (alwaysEintr_awaited 0) fun i _ => alwaysEintr_eintr (0 + i)

end SonicUtils.Transfer.Scatter

namespace SonicUtils.Transfer

/-- A turn of `file_op` that is interrupted. -/
theorem fileOp_interrupted (results : Nat → CallResult) (requireAll : Bool) {len total : Int} (more : total ≠ len)
    {n : Nat} (failRetry : Int) (interrupted : isErrno (asInt (results n).ret) (results n).errno eintr = true) (fuel : Nat) :
    fileOp (fun n _ _ => (results n, n + 1)) len requireAll (fuel + 1) n total failRetry =
      if failRetry - 1 < 0 then some (-1, some (stdErr .fail eintr), n + 1)
      else fileOp (fun n _ _ => (results n, n + 1)) len requireAll fuel (n + 1) total (failRetry - 1) := by
  obtain ⟨failed, errno⟩ := Bool.and_eq_true_iff.mp interrupted
  have failed : asInt (results n).ret = -1 := eq_of_beq failed
  have errno : eintr = (results n).errno := eq_of_beq errno
  rw [fileOp, if_neg more]
  dsimp only
  rw [if_pos interrupted, failed, ← errno]

/-- `file_op` counts in an `int`: after one interruption more than it may retry it
returns the error, and has made no other call. -/
theorem fileOp_gives_up (results : Nat → CallResult) (requireAll : Bool) {len total : Int} (more : total ≠ len) {n retry : Nat}
    (interrupted : ∀ i ≤ retry, isErrno (asInt (results (n + i)).ret) (results (n + i)).errno eintr = true)
    (fuel : Nat) (enough : retry < fuel) :
    fileOp (fun n _ _ => (results n, n + 1)) len requireAll fuel n total retry =
      some (-1, some (stdErr .fail eintr), n + retry + 1) := by
  induction retry generalizing n fuel with
  | zero =>
    obtain ⟨fuel, rfl⟩ : ∃ f, fuel = f + 1 := ⟨fuel - 1, by omega⟩
    have first : isErrno (asInt (results n).ret) (results n).errno eintr = true := interrupted 0 (Nat.le_refl 0)
    rw [fileOp_interrupted results requireAll more _ first fuel]
    exact if_pos (by decide)
  | succ retry ih =>
    obtain ⟨fuel, rfl⟩ : ∃ f, fuel = f + 1 := ⟨fuel - 1, by omega⟩
    have first : isErrno (asInt (results n).ret) (results n).errno eintr = true := interrupted 0 (Nat.zero_le _)
    have next (i : Nat) (bound : i ≤ retry) :
        isErrno (asInt (results (n + 1 + i)).ret) (results (n + 1 + i)).errno eintr = true := by
      rw [show n + 1 + i = n + (i + 1) by omega]
      exact interrupted (i + 1) (by omega)
    have left : ((retry + 1 : Nat) : Int) - 1 = (retry : Int) := by omega
    rw [fileOp_interrupted results requireAll more _ first fuel, left, if_neg (by omega),
      ih next fuel (by omega)]
    congr 3
    omega

end SonicUtils.Transfer
