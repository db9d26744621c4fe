import SonicUtils.Transfer.SocketOp
import SonicUtils.Fault
import SonicUtils.Lib.Bytes

/-!
# Scatter-gather transfers in memory

`std_socket_op` again, with the arrays of segments that it reads and writes:
addresses and lengths, the caller's array, and the copy in which `fix_offset`
moves a base. The addresses of the segments, one behind the other, are what
there is to transfer.

* `fixOffset_spec`: what is left of the copy;
* `turn_spec`: one turn of the loop;
* `scatter_gather_exact`: every call is offered exactly what is left.
-/

namespace SonicUtils.Transfer.Scatter

open SonicUtils.Bytes Loop

/-- `struct iovec`. -/
structure Iovec where
  iovBase : UInt64
  iovLen : UInt64
  deriving DecidableEq, Repr

inductive Home
  | caller
  | copy
  deriving DecidableEq, Repr

/-- The array that the caller's `msg` points to, and `_iov`. -/
structure Iovs where
  caller : List Iovec
  copy : List Iovec
  deriving DecidableEq, Repr

/-- `std_socket_msg_t`: `msg_iov` is the address of the entry `first` of an array. -/
structure Msghdr where
  home : Home
  first : Nat
  msgIovlen : Nat
  deriving DecidableEq, Repr

def Iovs.array (m : Iovs) : Home → List Iovec
  | .caller => m.caller
  | .copy => m.copy

def Iovs.store (m : Iovs) (h : Home) (i : Nat) (v : Iovec) : Iovs :=
  match h with
  | .caller => { m with caller := m.caller.set i v }
  | .copy => { m with copy := m.copy.set i v }

/-- What a message has for segments. -/
def Iovs.segments (m : Iovs) (msg : Msghdr) : List Iovec :=
  ((m.array msg.home).drop msg.first).take msg.msgIovlen

/-- The `memcpy` from the array of `msg` to `_iov`. -/
def Iovs.memcpy (m : Iovs) (msg : Msghdr) : Iovs := { m with copy := m.segments msg }

/-- The conversion to `ssize_t`. -/
def asSsize (x : Int) : Int := x.bmod (2 ^ 64)

theorem asSsize_of_small {x : Int} (lo : -2 ^ 63 ≤ x) (hi : x < 2 ^ 63) : asSsize x = x := by
  simp only [asSsize, Int.bmod]
  split <;> omega

/-- `total_len`. -/
def totalLen (m : Iovs) (msg : Msghdr) : Int :=
  asSsize ((m.segments msg).foldl (fun total v => total + v.iovLen) (0 : UInt64)).toNat

/-- The loop of `fix_offset`, with so many turns to go at most. -/
def fixOffset : Nat → Iovs → Msghdr → Int → Except Fault (Iovs × Msghdr)
  | 0, m, msg, _ => return (m, msg)
  | left + 1, m, msg, offset =>
    if offset > 0 then do
      let v ← deref (m.array msg.home)[msg.first]?
      let offset := asSsize (offset - v.iovLen.toNat)
      if offset < 0 then
        let offset := asSsize (offset + v.iovLen.toNat)
        return (m.store msg.home msg.first ⟨v.iovBase + .ofInt offset, v.iovLen - .ofInt offset⟩, msg)
      else fixOffset left m { msg with first := msg.first + 1, msgIovlen := msg.msgIovlen - 1 } offset
    else return (m, msg)

/-- The calls that `std_socket_op` makes for an open socket, on a world `σ`. -/
structure System (σ : Type) where
  /-- `recvmsg`, or `sendmsg` to send, given the segments of `_msg` and `_flags`. -/
  handler : Bool → σ → List Iovec → Nat → CallResult × σ
  /-- `std_select_ignore_intr` to receive or to send. -/
  select : Bool → σ → CallResult × σ

/-- `std_socket_transit_op_t`, which in C may also be something else. -/
inductive Op
  | read
  | write
  | other
  deriving DecidableEq, Repr

def transitNonblock : BitVec 32 := 1
def transitAll : BitVec 32 := 2
def msgDontwait : Nat := 0x40

/-- The variables of `_process_op`, and what it changes. -/
structure Loop (σ : Type) where
  world : σ
  iovs : Iovs
  total : Int
  failRetry : BitVec 64

/-- What `_process_op` returns and sets `*err` to, and what it leaves behind. -/
structure Outcome (σ : Type) where
  ret : Int
  err : StdError
  last : Loop σ

/-- One turn of the loop of `_process_op`; `goal` is `_total` and `flags` is `_flags`. -/
def turn {σ : Type} (sys : System σ) (send sendAll : Bool) (flags : Nat) (msg : Msghdr) (goal : Int) (l : Loop σ) :
    Except Fault (Loop σ ⊕ Outcome σ) :=
  if l.total = goal then return .inr ⟨l.total, stdErrOk, l⟩
  else do
    let (iovs, rest) ← fixOffset msg.msgIovlen (l.iovs.memcpy msg) ⟨.copy, 0, msg.msgIovlen⟩ l.total
    let (r, world) := sys.handler send l.world (iovs.segments rest) flags
    let l := { l with world, iovs }
    let rc := asInt r.ret
    if isErrno rc r.errno eintr then
      let l := { l with failRetry := l.failRetry - 1 }
      if l.failRetry < 0 then return .inr ⟨rc, stdErr .fail r.errno, l⟩
      else return .inl l
    else if isErrno rc r.errno eagain then
      let (res, world) := sys.select send l.world
      let l := { l with world }
      if asInt res.ret ≤ 0 then return .inr ⟨-1, stdErr .fail res.errno, l⟩
      else return .inl l
    else if rc = -1 then return .inr ⟨rc, stdErr .fail r.errno, l⟩
    else if rc = 0 then
      if !sendAll then return .inr ⟨l.total, stdErrOk, l⟩
      else if l.total = goal then return .inr ⟨l.total, stdErrOk, l⟩
      else return .inr ⟨rc, stdErr .fail r.errno, l⟩
    else
      let l := { l with total := l.total + rc }
      if !sendAll then return .inr ⟨l.total, stdErrOk, l⟩
      else return .inl { l with failRetry := stdMaxEintr }

/-- The caller's `msg`, with all of its array. -/
def whole (iov : List Iovec) : Msghdr := ⟨.caller, 0, iov.length⟩

def start {σ : Type} (iov : List Iovec) (w : σ) : Loop σ := ⟨w, ⟨iov, []⟩, 0, stdMaxEintr⟩

/-- A turn for the flags of `std_socket_op`. -/
def turnOf {σ : Type} (sys : System σ) (send : Bool) (flags : BitVec 32) (iov : List Iovec) :
    Loop σ → Except Fault (Loop σ ⊕ Outcome σ) :=
  turn sys send (flags &&& transitAll ≠ 0) (if flags &&& transitNonblock ≠ 0 then msgDontwait else 0)
    (whole iov) (totalLen ⟨iov, []⟩ (whole iov))

/-- `_process_op`. -/
def processOp {σ : Type} (sys : System σ) (send : Bool) (flags : BitVec 32) (iov : List Iovec) (fuel : Nat) (w : σ) :
    Except Fault (Outcome σ) :=
  loop .noReturn (turnOf sys send flags iov) fuel (start iov w)

def stdSocketOp {σ : Type} (sys : System σ) (op : Op) (flags : BitVec 32) (iov : List Iovec) (fuel : Nat)
    (w : σ) : Except Fault (Outcome σ) :=
  match op with
  | .read => processOp sys false flags iov fuel w
  | .write => processOp sys true flags iov fuel w
  | .other => return ⟨-1, stdErr .param 0, start iov w⟩

/-! ## Segments -/

/-- The addresses of a segment, in order. -/
def Iovec.places (v : Iovec) : List UInt64 := (List.range v.iovLen.toNat).map fun i => v.iovBase + .ofNat i

/-- The addresses of the segments, one behind the other. -/
def places (iov : List Iovec) : List UInt64 := iov.flatMap Iovec.places

variable {σ : Type} {iov segs done : List Iovec} {v : Iovec} {m : Iovs} {k : Nat}

@[simp] theorem Iovec.length_places (v : Iovec) : v.places.length = v.iovLen.toNat := by simp [Iovec.places]

@[simp] theorem places_nil : places [] = [] := rfl

@[simp] theorem places_cons (v : Iovec) (iov : List Iovec) : places (v :: iov) = v.places ++ places iov := rfl

/-- A base moved forward and a length cut down. -/
theorem Iovec.places_drop (inside : k ≤ v.iovLen.toNat) :
    places ⟨v.iovBase + .ofNat k, v.iovLen - .ofNat k⟩ = v.places.drop k := by
  have bound := v.iovLen.toNat_lt
  have small : (UInt64.ofNat k).toNat = k := toNat_ofNat_small (by omega)
  have left : (v.iovLen - .ofNat k).toNat = v.iovLen.toNat - k := by
    rw [UInt64.toNat_sub_of_le _ _ (UInt64.le_iff_toNat_le.mpr (by omega)), small]
  apply List.ext_getElem
  · simp [Iovec.places, left]
  · intro i _ _
    simp [Iovec.places, UInt64.ofNat_add, UInt64.add_assoc]

theorem segments_whole (iov : List Iovec) (m : Iovs) (caller : m.caller = iov) : m.segments (whole iov) = iov := by
  unfold Iovs.segments
  subst caller
  simp [whole, Iovs.array]

theorem totalLen_whole (small : (places iov).length < 2 ^ 31) : totalLen ⟨iov, []⟩ (whole iov) = (places iov).length := by
  have sums (total : UInt64) (segs : List Iovec) (fits : total.toNat + (places segs).length < 2 ^ 31) :
      (segs.foldl (fun total v => total + v.iovLen) total).toNat = total.toNat + (places segs).length := by
    induction segs generalizing total with
    | nil => simp
    | cons v segs ih =>
      rw [places_cons, List.length_append, Iovec.length_places] at fits
      have next : (total + v.iovLen).toNat = total.toNat + v.iovLen.toNat := by
        rw [UInt64.toNat_add]
        omega
      rw [List.foldl_cons, ih _ (by omega), next, places_cons, List.length_append, Iovec.length_places]
      omega
  unfold totalLen
  rw [segments_whole iov _ rfl, sums 0 iov (by simpa using small)]
  rw [UInt64.toNat_zero, Nat.zero_add, asSsize_of_small (by omega) (by omega)]

theorem fixOffset_succ (left : Nat) (msg : Msghdr) (offset : Int) (here : (m.array msg.home)[msg.first]? = some v)
    (positive : offset > 0) : fixOffset (left + 1) m msg offset =
      if asSsize (offset - v.iovLen.toNat) < 0 then
        let offset := asSsize (asSsize (offset - v.iovLen.toNat) + v.iovLen.toNat)
        .ok (m.store msg.home msg.first ⟨v.iovBase + .ofInt offset, v.iovLen - .ofInt offset⟩, msg)
      else fixOffset left m { msg with first := msg.first + 1, msgIovlen := msg.msgIovlen - 1 }
        (asSsize (offset - v.iovLen.toNat)) := by
  rw [fixOffset, if_pos positive, here]
  rfl

/-- In the copy the first `k` places are left out, and the caller's array stays. -/
theorem fixOffset_spec (copy : m.copy = done ++ segs) (small : (places segs).length < 2 ^ 31) (fits : k < 2 ^ 31) :
    ∃ m' rest, fixOffset segs.length m ⟨.copy, done.length, segs.length⟩ k = .ok (m', rest) ∧
      m'.caller = m.caller ∧ places (m'.segments rest) = (places segs).drop k := by
  induction segs generalizing done k with
  | nil => exact ⟨m, _, rfl, rfl, by simp [Iovs.segments]⟩
  | cons v segs ih =>
    rw [places_cons, List.length_append, Iovec.length_places] at small
    have here : (m.array .copy)[done.length]? = some v := by simp [Iovs.array, copy]
    by_cases positive : (k : Int) > 0
    · have minus : asSsize ((k : Int) - v.iovLen.toNat) = k - v.iovLen.toNat := asSsize_of_small (by omega) (by omega)
      by_cases inside : (k : Int) - v.iovLen.toNat < 0
      · have again : asSsize ((k : Int) - v.iovLen.toNat + v.iovLen.toNat) = k := by
          rw [Int.sub_add_cancel]
          exact asSsize_of_small (by omega) (by omega)
        have moved : UInt64.ofInt k = UInt64.ofNat k := by
          unfold UInt64.ofInt
          congr 1
          omega
        refine ⟨m.store .copy done.length ⟨v.iovBase + .ofNat k, v.iovLen - .ofNat k⟩, ⟨.copy, done.length, segs.length + 1⟩,
          ?_, ?_, ?_⟩
        · rw [List.length_cons, fixOffset_succ _ _ _ here positive, minus, if_pos inside, again]
          dsimp only
          rw [moved]
        · rfl
        · have cut : (m.store .copy done.length ⟨v.iovBase + .ofNat k, v.iovLen - .ofNat k⟩).segments
              ⟨.copy, done.length, segs.length + 1⟩ = ⟨v.iovBase + .ofNat k, v.iovLen - .ofNat k⟩ :: segs := by
            simp [Iovs.segments, Iovs.store, Iovs.array, copy]
          rw [cut, places_cons, Iovec.places_drop (by omega), places_cons, List.drop_append_of_le_length]
          rw [Iovec.length_places]
          omega
      · have past : (k : Int) - v.iovLen.toNat = (k - v.iovLen.toNat : Nat) := by omega
        have copy' : m.copy = done ++ [v] ++ segs := by simp [copy]
        obtain ⟨m', rest, run, caller, left⟩ := ih (k := k - v.iovLen.toNat) copy' (by omega) (by omega)
        refine ⟨m', rest, ?_, caller, ?_⟩
        · rw [List.length_cons, fixOffset_succ _ _ _ here positive, minus, if_neg inside, past]
          rw [List.length_append] at run
          exact run
        · rw [left, places_cons, List.drop_append, Iovec.length_places, List.drop_of_length_le (l := v.places),
            List.nil_append]
          rw [Iovec.length_places]
          omega
    · obtain rfl : k = 0 := by omega
      refine ⟨m, ⟨.copy, done.length, (v :: segs).length⟩, ?_, rfl, ?_⟩
      · rw [List.length_cons, fixOffset, if_neg positive]
        rfl
      · simp [Iovs.segments, Iovs.array, copy]

/-! ## Calls -/

/-- A call of the handler: the addresses that it was offered, and what it returned. -/
structure Call where
  offered : List UInt64
  ret : Int
  deriving DecidableEq, Repr

/-- The handler takes no more than it is offered, or it is interrupted, or it has to
wait and the select finds the socket ready. -/
def Fair {σ : Type} (sys : System σ) : Prop :=
  ∀ send w segs flags, let (r, w') := sys.handler send w segs flags
    0 ≤ r.ret ∧ r.ret ≤ (places segs).length ∨
      r.ret = -1 ∧ (r.errno = eintr ∨ r.errno = eagain ∧ 0 < asInt (sys.select send w').1.ret)

/-- The same system, with a list of the calls of the handler. -/
def System.noted {σ : Type} (sys : System σ) : System (σ × List Call) where
  handler send w segs flags :=
    let (r, w') := sys.handler send w.1 segs flags
    (r, w', w.2 ++ [⟨places segs, asInt r.ret⟩])
  select send w :=
    let (r, w') := sys.select send w.1
    (r, w', w.2)

/-- How many bytes the calls have transferred. -/
def transferred (calls : List Call) : Nat := (calls.map fun c => c.ret.toNat).sum

/-- The addresses of the bytes that the calls have transferred, in order. -/
def taken (calls : List Call) : List UInt64 := calls.flatMap fun c => c.offered.take c.ret.toNat

/-- Each call is offered what the ones before it have left. -/
inductive Exact (all : List UInt64) : List Call → Prop
  | nil : Exact all []
  | snoc {calls : List Call} {c : Call} : Exact all calls → c.offered = all.drop (transferred calls) →
      c.ret ≤ c.offered.length → Exact all (calls ++ [c])

theorem transferred_snoc (calls : List Call) (c : Call) :
    transferred (calls ++ [c]) = transferred calls + c.ret.toNat := by
  simp [transferred]

theorem taken_snoc (calls : List Call) (c : Call) : taken (calls ++ [c]) = taken calls ++ c.offered.take c.ret.toNat := by
  simp [taken]

theorem Exact.taken {all : List UInt64} {calls : List Call} (exact : Exact all calls) :
    taken calls = all.take (transferred calls) ∧ transferred calls ≤ all.length := by
  induction exact with
  | nil => exact ⟨rfl, Nat.zero_le _⟩
  | @snoc calls c before offered fits ih =>
    obtain ⟨same, room⟩ := ih
    rw [offered, List.length_drop] at fits
    rw [taken_snoc, transferred_snoc, same, offered]
    constructor
    · rw [List.take_add]
    · omega

/-! ## The loop -/

/-- What is so before each turn. -/
structure Books {σ : Type} (iov : List Iovec) (l : Loop (σ × List Call)) : Prop where
  caller : l.iovs.caller = iov
  exact : Exact (places iov) l.world.2
  total : l.total = transferred l.world.2

/-- What is so when the function has returned: it has succeeded, or a call has given 0. -/
structure Settled {σ : Type} (iov : List Iovec) (o : Outcome (σ × List Call)) : Prop where
  caller : o.last.iovs.caller = iov
  exact : Exact (places iov) o.last.world.2
  success : o.err = stdErrOk → o.ret = (places iov).length ∧ taken o.last.world.2 = places iov
  failure : o.err ≠ stdErrOk → ∃ c ∈ o.last.world.2, c.ret = 0

theorem turn_spec {sys : System σ} {send : Bool} {flags : Nat} {l : Loop (σ × List Call)} (fair : Fair sys)
    (small : (places iov).length < 2 ^ 31) (books : Books iov l) :
    ∃ next, turn sys.noted send true flags (whole iov) (places iov).length l = .ok next ∧
      next.elim (Books iov) (Settled iov) := by
  obtain ⟨taken_, room⟩ := books.exact.taken
  unfold turn
  by_cases finished : l.total = (places iov).length
  · have all : transferred l.world.2 = (places iov).length := by
      have := books.total
      omega
    refine ⟨_, if_pos finished, books.caller, books.exact, fun _ => ⟨finished, ?_⟩, fun bad => absurd rfl bad⟩
    rw [taken_, all, List.take_length]
  · have copy : (l.iovs.memcpy (whole iov)).copy = [] ++ iov := segments_whole iov _ books.caller
    obtain ⟨m, rest, cut, caller, left⟩ := fixOffset_spec (k := transferred l.world.2) copy small (by omega)
    have cut' : fixOffset (whole iov).msgIovlen (l.iovs.memcpy (whole iov)) ⟨.copy, 0, (whole iov).msgIovlen⟩ l.total =
        .ok (m, rest) := by
      rw [books.total]
      exact cut
    obtain ⟨r, w, call⟩ : ∃ r w, sys.handler send l.world.1 (m.segments rest) flags = (r, w) := ⟨_, _, rfl⟩
    have noted : sys.noted.handler send l.world (m.segments rest) flags =
        (r, w, l.world.2 ++ [⟨places (m.segments rest), asInt r.ret⟩]) := by
      simp [System.noted, call]
    have selected (calls : List Call) : sys.noted.select send (w, calls) =
        ((sys.select send w).1, (sys.select send w).2, calls) := rfl
    have offered := fair send l.world.1 (m.segments rest) flags
    rw [call, left, List.length_drop] at offered
    rw [if_neg finished, cut', ok_bind]
    dsimp only at offered
    simp only [noted, selected]
    have caller' : m.caller = iov := caller.trans books.caller
    have range : asInt r.ret = r.ret := by
      apply asInt_of_small
      · omega
      · omega
    rw [range]
    have exact : Exact (places iov) (l.world.2 ++ [⟨places (m.segments rest), r.ret⟩]) := by
      apply Exact.snoc books.exact left
      dsimp only
      rw [left, List.length_drop]
      omega
    have grown : (transferred (l.world.2 ++ [⟨places (m.segments rest), r.ret⟩]) : Int) = l.total + r.ret.toNat := by
      rw [transferred_snoc, books.total]
      dsimp only
      omega
    cases offered with
    | inl done =>
      have minus : ¬r.ret = -1 := by omega
      have noErrno (e : Errno) : isErrno r.ret r.errno e = false := by simp [isErrno, minus]
      rw [noErrno, noErrno]
      by_cases zero : r.ret = 0
      · rw [zero] at exact ⊢
        refine ⟨.inr _, by simp [finished]; rfl, caller', exact, ?_, fun _ => ?_⟩
        · intro good
          exact absurd good (stdErr_ne_ok _ _)
        · exact ⟨_, List.mem_append_right _ (List.mem_singleton_self _), rfl⟩
      · refine ⟨.inl _, by simp [minus, zero]; rfl, caller', exact, ?_⟩
        dsimp only
        rw [grown]
        omega
    | inr again =>
      obtain ⟨minus, errno⟩ := again
      rw [minus] at exact grown ⊢
      cases errno with
      | inl interrupted =>
        refine ⟨.inl _, by simp [isErrno, interrupted]; rfl, caller', exact, ?_⟩
        dsimp only
        omega
      | inr again =>
        obtain ⟨wait, ready⟩ := again
        have later : ¬asInt (sys.select send w).1.ret ≤ 0 := by omega
        refine ⟨.inl _, by simp [isErrno, wait, eagain, eintr, later]; rfl, caller', exact, ?_⟩
        dsimp only
        omega

section
variable {sys : System σ} {send : Bool} {flags : BitVec 32} {l : Loop (σ × List Call)}

theorem turnOf_spec (fair : Fair sys) (small : (places iov).length < 2 ^ 31) (all : flags &&& transitAll ≠ 0)
    (books : Books iov l) :
    ∃ next, turnOf sys.noted send flags iov l = .ok next ∧ next.elim (Books iov) (Settled iov) := by
  unfold turnOf
  rw [totalLen_whole small, decide_eq_true all]
  exact turn_spec fair small books

theorem Books.leads {s : Loop (σ × List Call)} (fair : Fair sys) (small : (places iov).length < 2 ^ 31)
    (all : flags &&& transitAll ≠ 0) (leads : Leads (turnOf sys.noted send flags iov) s l) (books : Books iov s) :
    Books iov l := by
  induction leads with
  | refl => exact books
  | head first _ ih =>
    obtain ⟨next, turned, kept⟩ := turnOf_spec fair small all books
    cases first.symm.trans turned
    exact ih kept

/-- The loop goes on for ever, or it returns. -/
theorem Books.loop (fair : Fair sys) (small : (places iov).length < 2 ^ 31) (all : flags &&& transitAll ≠ 0)
    (fuel : Nat) (books : Books iov l) :
    loop .noReturn (turnOf sys.noted send flags iov) fuel l = .error .noReturn ∨
      ∃ o, loop .noReturn (turnOf sys.noted send flags iov) fuel l = .ok o ∧ Settled iov o := by
  induction fuel generalizing l with
  | zero => exact .inl rfl
  | succ fuel ih =>
    obtain ⟨next, turned, kept⟩ := turnOf_spec fair small all books
    cases next with
    | inl t =>
      rw [loop_inl fuel turned]
      exact ih kept
    | inr o => exact .inr ⟨o, loop_inr fuel turned, kept⟩

end

/-! ## The transfer -/

def Loop.forget (l : Loop (σ × List Call)) : Loop σ := ⟨l.world.1, l.iovs, l.total, l.failRetry⟩

def Outcome.forget (o : Outcome (σ × List Call)) : Outcome σ := ⟨o.ret, o.err, o.last.forget⟩

/-- The list of the calls changes nothing else. -/
theorem turn_noted (sys : System σ) (send sendAll : Bool) (flags : Nat) (msg : Msghdr) (goal : Int)
    (l : Loop (σ × List Call)) :
    (turn sys.noted send sendAll flags msg goal l).map (Sum.map Loop.forget Outcome.forget) =
      turn sys send sendAll flags msg goal l.forget := by
  unfold turn
  by_cases finished : l.total = goal
  · have finished' : l.forget.total = goal := finished
    rw [if_pos finished, if_pos finished']
    rfl
  · have finished' : ¬l.forget.total = goal := finished
    rw [if_neg finished, if_neg finished']
    change Except.map _ (fixOffset msg.msgIovlen (l.iovs.memcpy msg) ⟨.copy, 0, msg.msgIovlen⟩ l.total >>= _) =
      (fixOffset msg.msgIovlen (l.iovs.memcpy msg) ⟨.copy, 0, msg.msgIovlen⟩ l.total >>= _)
    cases fixOffset msg.msgIovlen (l.iovs.memcpy msg) ⟨.copy, 0, msg.msgIovlen⟩ l.total with
    | error e => rfl
    | ok cut =>
      obtain ⟨r, w, call⟩ : ∃ r w, sys.handler send l.world.1 (cut.1.segments cut.2) flags = (r, w) := ⟨_, _, rfl⟩
      obtain ⟨res, w', ready⟩ : ∃ res w', sys.select send w = (res, w') := ⟨_, _, rfl⟩
      simp only [ok_bind, System.noted, Loop.forget, call, ready]
      split
      · split <;> rfl
      · split
        · split <;> rfl
        · split
          · rfl
          · split
            · split <;> rfl
            · split <;> rfl

/-- Nor in a whole run. -/
theorem stdSocketOp_noted (sys : System σ) (op : Op) (flags : BitVec 32) (iov : List Iovec) (fuel : Nat) (w : σ) :
    (stdSocketOp sys.noted op flags iov fuel (w, [])).map Outcome.forget = stdSocketOp sys op flags iov fuel w := by
  have loops (send : Bool) (l : Loop (σ × List Call)) :
      (loop .noReturn (turnOf sys.noted send flags iov) fuel l).map Outcome.forget =
        loop .noReturn (turnOf sys send flags iov) fuel l.forget := by
    induction fuel generalizing l with
    | zero => rfl
    | succ fuel ih =>
      rw [loop, loop, turnOf, turnOf, ← turn_noted]
      cases turn sys.noted send (flags &&& transitAll ≠ 0) (if flags &&& transitNonblock ≠ 0 then msgDontwait else 0)
          (whole iov) (totalLen ⟨iov, []⟩ (whole iov)) l with
      | error e => rfl
      | ok next =>
        cases next with
        | inl t => exact ih t
        | inr o => rfl
  cases op with
  | read => exact loops false _
  | write => exact loops true _
  | other => rfl

def Op.of : Bool → Op
  | false => .read
  | true => .write

theorem stdSocketOp_of (sys : System σ) (send : Bool) (flags : BitVec 32) (iov : List Iovec) (fuel : Nat) (w : σ) :
    stdSocketOp sys (.of send) flags iov fuel w = processOp sys send flags iov fuel w := by
  cases send <;> rfl

/-- **A scatter-gather transfer is exact.** At every call, of a run that ends or not, the
handler is offered what the calls before have left, in order; the caller's segments stay
as they are. A run that ends with `STD_ERR_OK` has transferred every byte once and
returns their number; it ends otherwise only when a call gives 0. -/
theorem scatter_gather_exact {σ : Type} (sys : System σ) (iov : List Iovec) (flags : BitVec 32) (send : Bool) (w : σ)
    (fair : Fair sys) (small : (places iov).length < 2 ^ 31) (all : flags &&& transitAll ≠ 0) :
    (∀ l, Leads (turnOf sys.noted send flags iov) (start iov (w, [])) l → Books iov l) ∧
    ∀ fuel, stdSocketOp sys.noted (.of send) flags iov fuel (w, []) = .error .noReturn ∨
      ∃ o, stdSocketOp sys.noted (.of send) flags iov fuel (w, []) = .ok o ∧ Settled iov o := by
  have begins : Books iov (start iov (w, [])) := ⟨rfl, .nil, rfl⟩
  constructor
  · intro l leads
    exact begins.leads fair small all leads
  · intro fuel
    rw [stdSocketOp_of]
    exact begins.loop fair small all fuel

/-- A system that takes so many bytes at a time, or is interrupted, and in the end takes all. -/
def inPieces : System (List (Option Nat)) where
  handler _ w segs _ :=
    match w with
    | [] => (⟨(places segs).length, 0⟩, [])
    | some k :: w => (⟨min k (places segs).length, 0⟩, w)
    | none :: w => (⟨-1, eintr⟩, w)
  select _ w := (⟨1, 0⟩, w)

theorem inPieces_fair : Fair inPieces := by
  intro send w segs flags
  cases w with
  | nil => exact .inl ⟨Int.natCast_nonneg _, Int.le_refl _⟩
  | cons e w =>
    cases e with
    | none => exact .inr ⟨rfl, .inl rfl⟩
    | some k =>
      apply Or.inl
      dsimp only [inPieces]
      omega

/-- One byte of two, an interruption, and one byte, which ends before an empty segment. -/
theorem scatter_gather_pieces :
    ∃ o, stdSocketOp inPieces.noted .write transitAll [⟨0x1000, 2⟩, ⟨0x3000, 0⟩, ⟨0x2000, 3⟩] 9
      ([some 1, none, some 1], []) = .ok o ∧ Settled [⟨0x1000, 2⟩, ⟨0x3000, 0⟩, ⟨0x2000, 3⟩] o := by
  cases (scatter_gather_exact inPieces [⟨0x1000, 2⟩, ⟨0x3000, 0⟩, ⟨0x2000, 3⟩] transitAll true
    [some 1, none, some 1] inPieces_fair (by decide) (by decide)).2 9 with
  | inl never =>
    have returns : (stdSocketOp inPieces.noted (.of true) transitAll [⟨0x1000, 2⟩, ⟨0x3000, 0⟩, ⟨0x2000, 3⟩] 9
      ([some 1, none, some 1], [])).toBool = true := by decide
    rw [never] at returns
    cases returns
  | inr settled => exact settled

end SonicUtils.Transfer.Scatter
