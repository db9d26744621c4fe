import SonicUtils.Transfer.Syscall

/-!
# Reading a given number of bytes

`file_op` and `std_read` of `std_file_utils.c`. `stdRead_spec` is all that its
callers use: whatever the cuts and interruptions, the bytes come out of the
stream in order, and the loop ends.
-/

namespace SonicUtils.Transfer

/-- `file_op`, its loop from a state with `total` bytes done. `oper s off len`
is the call at `data + off`. The middle component is what `*err` is set to,
nothing on end of file, and `none` as a whole is a loop cut off. -/
def fileOp {σ : Type} (oper : σ → Nat → Int → CallResult × σ) (len : Int) (requireAll : Bool) :
    Nat → σ → Int → Int → Option (Int × Option StdError × σ)
  | 0, _, _, _ => none
  | fuel + 1, s, total, failRetry =>
    if total = len then some (total, some stdErrOk, s)
    else
      let (r, s) := oper s total.toNat (len - total)
      let rc := asInt r.ret
      if isErrno rc r.errno eintr then
        let failRetry := failRetry - 1
        if failRetry < 0 then some (rc, some (stdErr .fail r.errno), s)
        else fileOp oper len requireAll fuel s total failRetry
      else if rc = -1 then some (rc, some (stdErr .fail r.errno), s)
      else if rc = 0 then some (total, none, s)
      else if !requireAll then some (total + rc, some stdErrOk, s)
      else fileOp oper len requireAll fuel s (total + rc) stdMaxEintr

/-- Memory with `bytes` written at `off`. -/
def overwrite (buf : List UInt8) (off : Nat) (bytes : List UInt8) : List UInt8 :=
  buf.take off ++ bytes ++ buf.drop (off + bytes.length)

@[simp] theorem overwrite_next (done rest bytes : List UInt8) :
    overwrite (done ++ rest) done.length bytes = done ++ bytes ++ rest.drop bytes.length := by
  simp [overwrite, List.drop_append]

/-- `read(fd, data + off, len)` on the stream, `data` being the buffer. -/
def readInto (s : Net × List UInt8) (off : Nat) (len : Int) : CallResult × Net × List UInt8 :=
  let (r, bytes, net) := s.1.read (len % 2 ^ 64).toNat
  (r, net, overwrite s.2 off bytes)

/-- `std_read` with `require_all` set. -/
def stdRead (fuel : Nat) (net : Net) (data : List UInt8) (len : Int) :
    Option (Int × Option StdError × Net × List UInt8) :=
  fileOp readInto len true fuel (net, data) 0 stdMaxEintr

/-- What a read does while bytes are there: it is interrupted, or it gives a
positive number of the wanted bytes in order. -/
theorem read_cases {n : Net} {a b : List UInt8} (h : n.stream = a ++ b) (ha : a ≠ []) :
    (∃ rest, n.reads = .interrupted :: rest ∧
      n.read a.length = (⟨-1, eintr⟩, [], { n with reads := rest })) ∨
    ∃ k rest, 0 < k ∧ k ≤ a.length ∧ rest <:+ n.reads ∧
      n.read a.length = (⟨k, 0⟩, a.take k, { n with stream := a.drop k ++ b, reads := rest }) := by
  have pos := List.length_pos_iff.mpr ha
  have given (count : Nat) (rest : List ReadEvent) (hc : 0 < count) :
      n.give a.length count rest = (⟨(min count a.length : Nat), 0⟩, a.take (min count a.length),
        { n with stream := a.drop (min count a.length) ++ b, reads := rest }) := by
    have hk : min count (min a.length n.stream.length) = min count a.length := by
      rw [h, List.length_append]; omega
    dsimp only [Net.give]
    rw [hk, h, List.take_append_of_le_length (by omega), List.drop_append_of_le_length (by omega)]
  unfold Net.read
  cases hr : n.reads with
  | nil =>
    exact .inr ⟨min a.length a.length, [], by omega, by omega, List.suffix_rfl, given _ [] pos⟩
  | cons e rest =>
    cases e with
    | interrupted => exact .inl ⟨rest, rfl, rfl⟩
    | gave k =>
      exact .inr ⟨min (k + 1) a.length, rest, by omega, by omega, List.suffix_cons _ _,
        given _ rest (by omega)⟩

/-- The loop of `std_read` in the middle of its work: `done` is in the buffer
and `todo` still in the stream. Each turn uses up an interruption that
`fail_retry` allows for, or a byte. -/
theorem fileOp_read (net : Net) (done todo rest : List UInt8) (retry : Nat) {b : List UInt8}
    {fuel : Nat}
    (small : done.length + todo.length < 2 ^ 31) (stream : net.stream = todo ++ b)
    (few : FewInterrupts net.reads) (allowed : leading net.reads ≤ retry)
    (enough : 11 * todo.length + retry < fuel) :
    ∃ reads, reads <:+ net.reads ∧
      fileOp readInto (done.length + todo.length : Nat) true fuel (net, done ++ rest)
        done.length retry =
      some (((done.length + todo.length : Nat) : Int), some stdErrOk, { net with stream := b, reads := reads },
        done ++ todo ++ rest.drop todo.length) := by
  induction fuel generalizing done todo rest net retry with
  | zero => omega
  | succ fuel ih =>
    by_cases empty : todo = []
    · subst empty
      refine ⟨net.reads, List.suffix_rfl, ?_⟩
      have hs : net.stream = b := by simpa using stream
      simp [fileOp, ← hs]
    · have pos := List.length_pos_iff.mpr empty
      have want : ((((done.length + todo.length : Nat) : Int) - done.length) % 2 ^ 64).toNat =
          todo.length := by omega
      have more : ¬ ((done.length : Int) = (done.length + todo.length : Nat)) := by omega
      rcases read_cases stream empty with ⟨tail, reads, call⟩ | ⟨k, tail, hk, hle, suffix, call⟩
      · have bound : leading tail + 1 ≤ retry := by simpa [reads, leading] using allowed
        have tail_suffix : tail <:+ net.reads := reads ▸ List.suffix_cons _ _
        obtain ⟨out, hout, run⟩ := ih { net with reads := tail } done todo rest (retry - 1)
          small stream (few.suffix tail_suffix) (by simp only; omega) (by omega)
        refine ⟨out, hout.trans tail_suffix, ?_⟩
        have again : ¬ ((retry : Int) - 1 < 0) := by omega
        have cast : ((retry : Int) - 1) = ((retry - 1 : Nat) : Int) := by omega
        rw [fileOp, if_neg more]
        simp only [readInto, want, call, isErrno, asInt_of_small (x := -1) (by omega) (by omega),
          again, overwrite, List.append_nil, List.length_nil, Nat.add_zero, List.take_append_drop,
          Int.toNat_natCast]
        simpa [cast] using run
      · have fits : asInt k = k := asInt_of_small (by omega) (by omega)
        have moved : (done ++ todo.take k).length = done.length + k := by
          simp [List.length_take, Nat.min_eq_left hle]
        obtain ⟨out, hout, run⟩ := ih { net with stream := todo.drop k ++ b, reads := tail }
          (done ++ todo.take k) (todo.drop k) (rest.drop k) stdMaxEintr
          (by rw [moved, List.length_drop]; omega) rfl (few.suffix suffix)
          (few.suffix suffix).leading_le (by rw [List.length_drop, stdMaxEintr]; omega)
        refine ⟨out, hout.trans suffix, ?_⟩
        have total : done.length + k + (todo.length - k) = done.length + todo.length := by omega
        have taken : (todo.take k).length = k := by simp [Nat.min_eq_left hle]
        have positive : ¬ (k = 0) := by omega
        have valid : ¬ ((k : Int) = -1) := by omega
        have left : k + (todo.length - k) = todo.length := by omega
        rw [fileOp, if_neg more]
        simp only [readInto, want, call, isErrno, fits, Int.toNat_natCast, overwrite_next, taken]
        simpa [moved, total, left, valid, positive, List.length_drop] using run

/-- **`std_read` is exact.** With the bytes there and at most ten interruptions
in a row, it returns their number and `STD_ERR_OK`, has put them at the start
of the buffer, and leaves the stream just after them. -/
theorem stdRead_spec (net : Net) (a b data : List UInt8) (fuel : Nat)
    (small : a.length < 2 ^ 31) (stream : net.stream = a ++ b) (few : FewInterrupts net.reads)
    (enough : 11 * a.length + 10 < fuel) :
    ∃ reads, reads <:+ net.reads ∧
      stdRead fuel net data a.length =
        some ((a.length : Int), some stdErrOk, { net with stream := b, reads := reads },
          a ++ data.drop a.length) := by
  obtain ⟨reads, suffix, run⟩ := fileOp_read net [] a data stdMaxEintr
    (by simpa using small) stream few few.leading_le enough
  exact ⟨reads, suffix, by simpa [stdRead] using run⟩

end SonicUtils.Transfer
