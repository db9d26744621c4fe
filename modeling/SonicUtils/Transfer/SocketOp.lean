import SonicUtils.Transfer.Syscall

/-!
# Scatter-gather transfers

`_process_op` of `std_socket_tools.cpp`, behind `std_socket_op`. The segments
`msg_iov` are lists of bytes, so a base moved forward and a length cut down
are one `drop`. `processOp_sends` is all that the senders use.
-/

namespace SonicUtils.Transfer

/-- `fix_offset`: the segments without their first `offset` bytes. -/
def fixOffset : List (List UInt8) → Int → List (List UInt8)
  | [], _ => []
  | seg :: iov, offset =>
    if offset > 0 then
      if offset - seg.length < 0 then seg.drop offset.toNat :: iov
      else fixOffset iov (offset - seg.length)
    else seg :: iov

/-- `total_len`. -/
def totalLen (iov : List (List UInt8)) : Nat := (iov.map List.length).sum

theorem totalLen_eq (iov : List (List UInt8)) : totalLen iov = iov.flatten.length := by
  rw [totalLen, List.length_flatten]

theorem flatten_fixOffset (iov : List (List UInt8)) (k : Nat) :
    (fixOffset iov k).flatten = iov.flatten.drop k := by
  induction iov generalizing k with
  | nil => simp [fixOffset]
  | cons seg iov ih =>
    by_cases pos : (k : Int) > 0
    · by_cases inside : (k : Int) - seg.length < 0
      · have hk : k ≤ seg.length := by omega
        simp only [fixOffset, if_pos pos, if_pos inside, Int.toNat_natCast, List.flatten_cons]
        rw [List.drop_append_of_le_length hk]
      · have cast : (k : Int) - seg.length = ((k - seg.length : Nat) : Int) := by omega
        rw [fixOffset, if_pos pos, if_neg inside, cast, ih, List.flatten_cons, List.drop_append,
          List.drop_of_length_le (l := seg) (by omega), List.nil_append]
    · obtain rfl : k = 0 := by omega
      simp [fixOffset]

/-- The two calls that `_process_op` makes, on a world `σ`. -/
structure Handler (σ : Type) where
  /-- `handler(fd, &_msg, _flags)`, given the segments of `_msg`. -/
  call : σ → List (List UInt8) → CallResult × σ
  /-- `std_select_ignore_intr` for the direction of the transfer. -/
  select : σ → CallResult × σ

/-- `_process_op`, its loop from a state with `total` bytes done, returning the
result, `*err` and the world. `fail_retry` is a `size_t`. -/
def processOpFrom {σ : Type} (h : Handler σ) (iov : List (List UInt8)) (sendAll : Bool) :
    Nat → σ → Int → BitVec 64 → Option (Int × StdError × σ)
  | 0, _, _, _ => none
  | fuel + 1, s, total, failRetry =>
    if total = totalLen iov then some (total, stdErrOk, s)
    else
      let (r, s) := h.call s (fixOffset iov total)
      let rc := asInt r.ret
      if isErrno rc r.errno eintr then
        let failRetry := failRetry - 1
        if failRetry < 0 then some (rc, stdErr .fail r.errno, s)
        else processOpFrom h iov sendAll fuel s total failRetry
      else if isErrno rc r.errno eagain then
        let (res, s) := h.select s
        if asInt res.ret ≤ 0 then some (-1, stdErr .fail res.errno, s)
        else processOpFrom h iov sendAll fuel s total failRetry
      else if rc = -1 then some (rc, stdErr .fail r.errno, s)
      else if rc = 0 then
        if !sendAll then some (total, stdErrOk, s)
        else if total = totalLen iov then some (total, stdErrOk, s)
        else some (rc, stdErr .fail r.errno, s)
      else if !sendAll then some (total + rc, stdErrOk, s)
      else processOpFrom h iov sendAll fuel s (total + rc) stdMaxEintr

def processOp {σ : Type} (h : Handler σ) (iov : List (List UInt8)) (sendAll : Bool) (fuel : Nat)
    (s : σ) : Option (Int × StdError × σ) :=
  processOpFrom h iov sendAll fuel s 0 stdMaxEintr

/-- Writing to the stream: `sendmsg` and the select for writing. -/
def Net.writer : Handler Net := ⟨Net.sendmsg, Net.select⟩

/-- What `sendmsg` does: it takes a number of bytes in order that an `int` can
hold, or it fails and takes none. -/
theorem sendmsg_cases (n : Net) (iov : List (List UInt8)) :
    (∃ k writes, k ≤ iov.flatten.length ∧ k < 2 ^ 31 ∧ (iov.flatten ≠ [] → 0 < k) ∧
      n.sendmsg iov =
        (⟨k, 0⟩, { n with stream := n.stream ++ iov.flatten.take k, writes := writes })) ∨
    ∃ errno writes, n.sendmsg iov = (⟨-1, errno⟩, { n with writes := writes }) := by
  have accepted (count : Nat) (rest : List WriteEvent) (hc : iov.flatten ≠ [] → 0 < count) :
      ∃ k writes, k ≤ iov.flatten.length ∧ k < 2 ^ 31 ∧ (iov.flatten ≠ [] → 0 < k) ∧
        n.accept iov.flatten count rest =
          (⟨k, 0⟩, { n with stream := n.stream ++ iov.flatten.take k, writes := writes }) := by
    refine ⟨min count (min iov.flatten.length maxRwCount), rest, ?_, ?_, fun hne => ?_, rfl⟩
    · omega
    · unfold maxRwCount; omega
    · have := List.length_pos_iff.mpr hne
      have := hc hne
      unfold maxRwCount; omega
  unfold Net.sendmsg
  cases hw : n.writes with
  | nil => exact .inl (accepted _ [] List.length_pos_iff.mpr)
  | cons e rest =>
    cases e with
    | took k => exact .inl (accepted _ rest fun _ => Nat.succ_pos k)
    | interrupted => exact .inr ⟨eintr, rest, rfl⟩
    | again selected => exact .inr ⟨eagain, n.writes, rfl⟩
    | failed errno => exact .inr ⟨errno, rest, rfl⟩

theorem select_frame (n : Net) :
    (n.select).2.stream = n.stream ∧ (n.select).2.reads = n.reads := by
  unfold Net.select
  split <;> exact ⟨rfl, rfl⟩

/-- In the loop, the bytes already accepted are the first ones of the message,
so a return with `STD_ERR_OK` has sent the rest. -/
theorem processOpFrom_sends (total : Nat) {iov : List (List UInt8)} {fuel : Nat} {n n' : Net}
    {ret : Int} {retry : BitVec 64} (bound : total ≤ iov.flatten.length)
    (run : processOpFrom Net.writer iov true fuel n total retry = some (ret, stdErrOk, n')) :
    n'.stream = n.stream ++ iov.flatten.drop total ∧ n'.reads = n.reads ∧ ret = totalLen iov := by
  induction fuel generalizing total n retry with
  | zero => simp [processOpFrom] at run
  | succ fuel ih =>
    by_cases finished : (total : Int) = totalLen iov
    · have all : iov.flatten.length ≤ total := by rw [← totalLen_eq]; omega
      rw [processOpFrom, if_pos finished] at run
      obtain ⟨rfl, rfl⟩ : (total : Int) = ret ∧ n = n' := by simpa using run
      exact ⟨by simp [List.drop_of_length_le all], rfl, finished⟩
    · have left : (fixOffset iov total).flatten ≠ [] := by
        have len := totalLen_eq iov
        rw [flatten_fixOffset, ne_eq, List.drop_eq_nil_iff]
        omega
      have send : Net.writer.call n (fixOffset iov total) = n.sendmsg (fixOffset iov total) := rfl
      rw [processOpFrom, if_neg finished, send] at run
      rcases sendmsg_cases n (fixOffset iov total) with
        ⟨k, writes, hk, small, pos, call⟩ | ⟨errno, writes, call⟩
      · have fits : asInt k = k := asInt_of_small (by omega) (by omega)
        have kpos := pos left
        have valid : ¬ ((k : Int) = -1) := by omega
        have some_ : ¬ ((k : Int) = 0) := by omega
        have cast : (total : Int) + k = (total + k : Nat) := by omega
        rw [flatten_fixOffset] at call hk
        rw [List.length_drop] at hk
        simp only [call, fits, isErrno, valid, some_, cast, Bool.not_true,
          if_false, beq_iff_eq, Bool.and_eq_true, false_and, Bool.false_eq_true] at run
        obtain ⟨sent, reads, whole⟩ := ih (total + k) (by omega) run
        refine ⟨?_, reads, whole⟩
        rw [sent, List.append_assoc, ← List.drop_drop, List.take_append_drop]
      · have minus : asInt (-1) = -1 := asInt_of_small (by omega) (by omega)
        simp only [call, minus] at run
        split at run
        · split at run
          · simp [stdErr_ne_ok] at run
          · obtain ⟨sent, reads, whole⟩ := ih total bound run
            exact ⟨sent, reads, whole⟩
        · split at run
          · split at run
            · simp [stdErr_ne_ok] at run
            · obtain ⟨sent, reads, whole⟩ := ih total bound run
              obtain ⟨hs, hr⟩ := select_frame { n with writes := writes }
              exact ⟨sent.trans (congrArg (· ++ _) hs), reads.trans hr, whole⟩
          · simp [stdErr_ne_ok] at run

/-- **A send that reports success is complete.** However the calls were cut
short, interrupted or deferred, the stream has grown by exactly the segments
in their order. -/
theorem processOp_sends {iov : List (List UInt8)} {fuel : Nat} {n n' : Net} {ret : Int}
    (run : processOp Net.writer iov true fuel n = some (ret, stdErrOk, n')) :
    n'.stream = n.stream ++ iov.flatten ∧ n'.reads = n.reads ∧ ret = totalLen iov := by
  simpa using processOpFrom_sends 0 (Nat.zero_le _) (by simpa [processOp] using run)

end SonicUtils.Transfer
