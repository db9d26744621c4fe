import Mathlib.Algebra.Group.Int.Defs
import Mathlib.Algebra.Group.Nat.Defs
import Mathlib.Algebra.GroupWithZero.Nat
import Mathlib.Data.List.Infix

/-!
# System calls and error codes

* `stdErrMk`, `stdErr`: the packed codes of `std_error_codes.h`;
* `CallResult`: what a system call leaves behind, a return value and `errno`;
* `asInt`: the conversion of a `ssize_t` to the `int` that the loops keep it in;
* `Net`: a reliable byte stream, with the accidents that the kernel may put
  in the way of the next calls on either side.
-/

namespace SonicUtils.Transfer

/-- `t_std_error`, the bits of an `int`. -/
abbrev StdError := BitVec 32

/-- `STD_ERR_OK`. -/
def stdErrOk : StdError := 0

/-- `STD_ERR_MK`: a flag bit, then 6, 10 and 15 bits. -/
def stdErrMk (sub errid priv : BitVec 32) : StdError :=
  (1 <<< 31) ||| ((sub &&& 0x3f) <<< 25) ||| ((errid &&& 0x3ff) <<< 15) ||| (priv &&& 0x7fff)

/-- The generic codes of `e_std_error_codes` that these modules use. -/
inductive ErrCode
  | fail
  | param
  | tooBig
  | closed
  deriving DecidableEq, Repr

def ErrCode.value : ErrCode → BitVec 32
  | fail => 1
  | param => 3
  | tooBig => 4
  | closed => 5

/-- `STD_ERR(COM, code, priv)`; `e_std_err_COM` is 6. -/
def stdErr (code : ErrCode) (priv : Int) : StdError := stdErrMk 6 code.value (.ofInt 32 priv)

/-- An error code is never mistaken for success: its flag bit is set. -/
theorem stdErr_ne_ok (code : ErrCode) (priv : Int) : stdErr code priv ≠ stdErrOk := by
  intro h
  have flag := congrArg (fun e => e.getLsbD 31) h
  simp [stdErr, stdErrMk, stdErrOk] at flag

abbrev Errno := Nat

def eintr : Errno := 4
/-- `EAGAIN`, which is `EWOULDBLOCK` here. -/
def eagain : Errno := 11

structure CallResult where
  ret : Int
  errno : Errno
  deriving DecidableEq, Repr

/-- `is_errno`, on the return value already converted. -/
def isErrno (rc : Int) (errno err : Errno) : Bool := rc == -1 && err == errno

/-- `int rc = ...` of a `ssize_t`. -/
def asInt (x : Int) : Int := x.bmod (2 ^ 32)

theorem asInt_of_small {x : Int} (lo : -2 ^ 31 ≤ x) (hi : x < 2 ^ 31) : asInt x = x := by
  simp only [asInt, Int.bmod]
  split <;> omega

/-- `STD_MAX_EINTR`, which both files define as 10. -/
def stdMaxEintr : Nat := 10

/-- The most that one call transfers on Linux, `MAX_RW_COUNT`. -/
def maxRwCount : Nat := 0x7ffff000

/-- What meets the next write. -/
inductive WriteEvent
  /-- At most `k + 1` bytes are taken. -/
  | took (k : Nat)
  | interrupted
  /-- `EAGAIN`, and what the select after it returns. -/
  | again (selected : Int)
  | failed (errno : Errno)
  deriving DecidableEq, Repr

/-- What meets the next read. -/
inductive ReadEvent
  /-- At most `k + 1` bytes are given. -/
  | gave (k : Nat)
  | interrupted
  deriving DecidableEq, Repr

/-- The bytes under way, oldest first, and the events that await the writer
and the reader. After them every call transfers all it can. -/
structure Net where
  stream : List UInt8
  writes : List WriteEvent
  reads : List ReadEvent
  deriving DecidableEq, Repr

/-- `count` of the offered bytes are accepted. -/
def Net.accept (n : Net) (offered : List UInt8) (count : Nat) (writes : List WriteEvent) :
    CallResult × Net :=
  let k := min count (min offered.length maxRwCount)
  (⟨k, 0⟩, { n with stream := n.stream ++ offered.take k, writes := writes })

/-- `sendmsg` on the segments `iov`. -/
def Net.sendmsg (n : Net) (iov : List (List UInt8)) : CallResult × Net :=
  match n.writes with
  | [] => n.accept iov.flatten iov.flatten.length []
  | .took k :: rest => n.accept iov.flatten (k + 1) rest
  | .interrupted :: rest => (⟨-1, eintr⟩, { n with writes := rest })
  | .again _ :: _ => (⟨-1, eagain⟩, n)
  | .failed errno :: rest => (⟨-1, errno⟩, { n with writes := rest })

/-- The select after `EAGAIN`, by `std_select_ignore_intr`. -/
def Net.select (n : Net) : CallResult × Net :=
  match n.writes with
  | .again selected :: rest => (⟨selected, 0⟩, { n with writes := rest })
  | _ => (⟨1, 0⟩, n)

/-- `count` bytes are handed to a reader that asked for `want`. -/
def Net.give (n : Net) (want count : Nat) (reads : List ReadEvent) :
    CallResult × List UInt8 × Net :=
  let k := min count (min want n.stream.length)
  (⟨k, 0⟩, n.stream.take k, { n with stream := n.stream.drop k, reads := reads })

/-- `read` of up to `want` bytes. -/
def Net.read (n : Net) (want : Nat) : CallResult × List UInt8 × Net :=
  match n.reads with
  | [] => n.give want want []
  | .gave k :: rest => n.give want (k + 1) rest
  | .interrupted :: rest => (⟨-1, eintr⟩, [], { n with reads := rest })

/-- The reader is never interrupted more than ten times in a row. -/
def FewInterrupts (reads : List ReadEvent) : Prop :=
  ¬ List.replicate 11 ReadEvent.interrupted <:+: reads

/-- The interruptions before the next read that gets bytes. -/
def leading : List ReadEvent → Nat
  | .interrupted :: rest => leading rest + 1
  | _ => 0

theorem FewInterrupts.suffix {a b : List ReadEvent} (h : FewInterrupts b) (s : a <:+ b) :
    FewInterrupts a := fun run => h (run.trans s.isInfix)

theorem replicate_leading_prefix (reads : List ReadEvent) :
    List.replicate (leading reads) ReadEvent.interrupted <+: reads := by
  induction reads with
  | nil => exact List.nil_prefix
  | cons e rest ih =>
    cases e with
    | gave k => exact List.nil_prefix
    | interrupted =>
      rw [leading, List.replicate_succ]
      exact List.cons_prefix_cons.mpr ⟨rfl, ih⟩

theorem FewInterrupts.leading_le {reads : List ReadEvent} (h : FewInterrupts reads) :
    leading reads ≤ 10 := by
  apply Nat.le_of_not_gt
  intro many
  apply h
  have start := replicate_leading_prefix reads
  obtain ⟨k, hk⟩ : ∃ k, leading reads = 11 + k := ⟨leading reads - 11, by omega⟩
  rw [hk, List.replicate_add] at start
  exact ((List.prefix_append _ _).trans start).isInfix

end SonicUtils.Transfer
