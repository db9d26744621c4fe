import SonicUtils.Event.Framing

/-!
# Frames that are too big

`std_client_wait_for_event` with a buffer that must not grow. A frame that is
larger than the buffer is left in the stream after its header.

* `wait_fits`, `wait_tooBig`: one call, at the start of a frame;
* `wait_astray`: a call behind one that returned `TOOBIG`;
* `in_step_iff`: when every frame that fits is received.
-/

namespace SonicUtils.Event

open SonicUtils.Transfer

/-- `event_msg_buff_t`. -/
structure EventMsgBuff where
  buff : List UInt8
  limitMax : Bool
  maxLen : Nat

def stdClientAllocateMsgBuff (bufferSpace : UInt32) (limitMax : Bool) : EventMsgBuff :=
  ⟨List.replicate bufferSpace.toNat 0, limitMax, bufferSpace.toNat⟩

def stdClientWaitForEvent (fuel : Nat) (net : Net) (hdr : List UInt8) (p : EventMsgBuff) :
    Option (StdError × Net × EventMsgBuff) := do
  let (rc, net, buff) ← eventRecv fuel net hdr p.buff (!p.limitMax)
  return (rc, net, { p with buff })

/-- What a call finds in the header on its stack. -/
structure Stack where
  hdr : List UInt8
  room : hdr.length = sizeofData

/-- Calls of `std_client_wait_for_event` one after another, with one buffer. -/
def waits (fuel : Nat) : Net → EventMsgBuff → List Stack → Option (List (StdError × EventMsgBuff) × Net)
  | net, _, [] => some ([], net)
  | net, p, s :: locals => do
    let (rc, net, p) ← stdClientWaitForEvent fuel net s.hdr p
    let (results, net) ← waits fuel net p locals
    return ((rc, p) :: results, net)

/-- What a call ought to make of a frame. -/
def Handled (space : Nat) (m : Message) (result : StdError × EventMsgBuff) : Prop :=
  if m.payload.length ≤ space then result.1 = stdErrOk ∧ m.payload <+: result.2.buff
  else result.1 = stdErr .tooBig 0

/-- As many calls as there are frames handle one frame each, however the reads are
cut or interrupted and whatever the calls find on their locals. -/
def InStep (ms : List Message) (space : UInt32) : Prop :=
  ∀ locals : List Stack, locals.length = ms.length → ∀ net : Net, net.stream = frames ms → FewInterrupts net.reads →
    ∃ N, ∀ fuel ≥ N, ∃ results out, waits fuel net (stdClientAllocateMsgBuff space true) locals = some (results, out) ∧
      List.Forall₂ (Handled space.toNat) ms results

/-- A buffer of this size that must not grow. -/
structure Fixed (space : Nat) (p : EventMsgBuff) : Prop where
  limit : p.limitMax = true
  size : p.buff.length = space

variable {net net' : Net} {m : Message} {ms : List Message} {p : EventMsgBuff} {hdr hdr' buff b : List UInt8}
  {fuel space : Nat}

/-! ## One call -/

theorem eventRecv_tooBig (read : readHeader fuel net hdr = some (true, net', hdr')) (big : u32At hdr' 12 > buff.length) :
    eventRecv fuel net hdr buff false = some (stdErr .tooBig 0, net', buff) := by
  unfold eventRecv
  rw [Option.bind_eq_bind, read, Option.bind_some]
  dsimp only
  rw [if_neg (by decide), if_pos ⟨big, rfl⟩]
  rfl

/-- What fits is received as if the buffer might grow. -/
theorem eventRecv_fits (read : readHeader fuel net hdr = some (true, net', hdr')) (fits : u32At hdr' 12 ≤ buff.length) :
    eventRecv fuel net hdr buff false = eventRecv fuel net hdr buff true := by
  unfold eventRecv
  rw [Option.bind_eq_bind, read, Option.bind_some, Option.bind_some]
  dsimp only
  rw [if_neg (by decide), if_neg (by omega), if_neg (by decide), if_neg (by simp)]

theorem wait_eq (fixed : Fixed space p) : stdClientWaitForEvent fuel net hdr p =
    (eventRecv fuel net hdr p.buff false).map fun (rc, net, buff) => (rc, net, { p with buff }) := by
  unfold stdClientWaitForEvent
  rw [fixed.limit, Bool.not_true]
  cases eventRecv fuel net hdr p.buff false <;> rfl

theorem u32At_frame (sized : m.payload.length < 2 ^ 32) : u32At m.header.bytes 12 = m.payload.length := by
  have size := header_size sized
  have hdrSize : m.header.hdrSize = 8 := rfl
  exact (u32At_header (by omega) (by omega)).2.trans size

theorem wait_fits (fixed : Fixed space p) (fits : m.payload.length ≤ space) (small : m.payload.length < 2 ^ 31)
    (room : hdr.length = sizeofData) (stream : net.stream = m.frame ++ b) (few : FewInterrupts net.reads)
    (enough : 98 + 11 * 2 ^ 31 ≤ fuel) :
    ∃ reads p', reads <:+ net.reads ∧ Fixed space p' ∧ Handled space m (stdErrOk, p') ∧
      stdClientWaitForEvent fuel net hdr p = some (stdErrOk, { net with stream := b, reads := reads }, p') := by
  have sized := u32At_frame (m := m) (by omega)
  obtain ⟨_, _, read⟩ := readHeader_frame net m.header (m.payload ++ b) hdr fuel rfl
    (by rw [header_size (by omega)]; omega) room (by rw [stream, Message.frame, List.append_assoc]) few (by omega)
  obtain ⟨reads, suffix, recv⟩ := eventRecv_frame net m b hdr p.buff fuel small room stream few (by omega)
  have size := fixed.size
  refine ⟨reads, { p with buff := m.payload ++ p.buff.drop m.payload.length }, suffix, ⟨fixed.limit, ?_⟩, ?_, ?_⟩
  · dsimp only
    rw [List.length_append, List.length_drop]
    omega
  · exact (if_pos fits).mpr ⟨rfl, List.prefix_append _ _⟩
  · rw [wait_eq fixed, eventRecv_fits read (by rw [sized, size]; exact fits), recv]
    rfl

/-- The bytes behind the header stay in the stream. -/
theorem wait_tooBig (fixed : Fixed space p) (big : space < m.payload.length) (sized : m.payload.length < 2 ^ 32)
    (room : hdr.length = sizeofData) (stream : net.stream = m.frame ++ b) (few : FewInterrupts net.reads)
    (enough : 98 < fuel) :
    ∃ reads, reads <:+ net.reads ∧ stdClientWaitForEvent fuel net hdr p =
      some (stdErr .tooBig 0, { net with stream := m.payload ++ b, reads := reads }, p) := by
  obtain ⟨reads, suffix, read⟩ := readHeader_frame net m.header (m.payload ++ b) hdr fuel rfl
    (by rw [header_size sized]; omega) room (by rw [stream, Message.frame, List.append_assoc]) few enough
  refine ⟨reads, suffix, ?_⟩
  rw [wait_eq fixed, eventRecv_tooBig read (by rw [u32At_frame sized, fixed.size]; exact big)]
  rfl

/-! ## Behind a frame that was too big -/

/-- A stack whose last word is this one. -/
def Stack.holding (g : UInt32) : Stack := ⟨List.replicate 12 0 ++ u32Bytes g.toNat, rfl⟩

theorem Stack.u32At_holding (g : UInt32) : u32At (Stack.holding g).hdr 12 = g.toNat := by
  have last := u32At_u32Bytes g.toNat_lt (List.replicate 12 0) []
  rw [List.append_nil] at last
  exact last

/-- What is behind a part that has been overwritten. -/
theorem u32At_behind {front : List UInt8} {off : Nat} (behind : front.length ≤ off) (hdr : List UInt8) :
    u32At (front ++ hdr.drop front.length) off = u32At hdr off := by
  have byte (i : Nat) : (front ++ hdr.drop front.length).getD (off + i) 0 = hdr.getD (off + i) 0 := by
    rw [List.getD_append_right _ _ _ _ (by omega), List.getD_eq_getElem?_getD, List.getD_eq_getElem?_getD,
      List.getElem?_drop]
    congr 2
    omega
  simp only [u32At, byte]

/-- Where the first word is small, the size of the data is the one on the stack. -/
theorem readHeader_astray {v : Nat} {s : List UInt8} (few_ : v ≤ 3) (more : 7 ≤ s.length)
    (stream : net.stream = u32Bytes v ++ s) (few : FewInterrupts net.reads) (enough : 98 < fuel) (hdr : List UInt8) :
    ∃ net' hdr', FewInterrupts net'.reads ∧ readHeader fuel net hdr = some (true, net', hdr') ∧
      u32At hdr' 12 = u32At hdr 12 := by
  have eight : (u32Bytes v ++ s.take 4).length = sizeofHdr := by
    rw [List.length_append, List.length_take, length_u32Bytes, sizeofHdr]
    omega
  have taken : ((s.drop 4).take v).length = v := by
    rw [List.length_take, List.length_drop]
    omega
  have size : u32At (u32Bytes v ++ s.take 4) 0 = ((s.drop 4).take v).length := by
    have first := u32At_u32Bytes (x := v) (by omega) [] (s.take 4)
    rw [taken]
    exact first
  have split_ : u32Bytes v ++ s = u32Bytes v ++ s.take 4 ++ ((s.drop 4).take v ++ (s.drop 4).drop v) := by
    rw [List.take_append_drop, List.append_assoc, List.take_append_drop]
  obtain ⟨reads, suffix, run⟩ := readHeader_bytes net _ _ _ hdr fuel eight size (by rw [taken, sizeofData, sizeofHdr]; omega)
    (stream.trans split_) few enough
  refine ⟨_, _, few.suffix suffix, run, ?_⟩
  have front : (u32Bytes v ++ s.take 4 ++ (s.drop 4).take v).length = sizeofHdr + ((s.drop 4).take v).length := by
    rw [List.length_append, eight]
  rw [List.drop_drop, ← front, ← List.append_assoc]
  apply u32At_behind
  rw [front, taken, sizeofHdr]
  omega

/-- A stack with which a call goes wrong about this frame. -/
def Stack.against (space : Nat) (m : Message) : Stack := .holding (if m.payload.length ≤ space then .ofNat (2 ^ 32 - 1) else 0)

/-- Behind a frame that was too big, the stack decides what the call returns. -/
theorem wait_astray (fixed : Fixed space p) (room : space < 2 ^ 32 - 1) {v : Nat} {s : List UInt8} (few_ : v ≤ 3)
    (more : 7 ≤ s.length) (stream : net.stream = u32Bytes v ++ s) (few : FewInterrupts net.reads) (m : Message)
    (enough : 98 < fuel) :
    ∃ rc out p', stdClientWaitForEvent fuel net (Stack.against space m).hdr p = some (rc, out, p') ∧
      ¬ Handled space m (rc, p') := by
  unfold Stack.against
  by_cases fits : m.payload.length ≤ space
  · rw [if_pos fits]
    obtain ⟨net', hdr', _, run, last⟩ := readHeader_astray few_ more stream few enough
      (Stack.holding (.ofNat (2 ^ 32 - 1))).hdr
    rw [Stack.u32At_holding] at last
    have big : u32At hdr' 12 > p.buff.length := by
      rw [last, fixed.size]
      exact room
    refine ⟨_, _, _, by rw [wait_eq fixed, eventRecv_tooBig run big]; rfl, fun handled => ?_⟩
    exact absurd ((if_pos fits).mp handled).1 (stdErr_ne_ok _ _)
  · rw [if_neg fits]
    obtain ⟨net', hdr', few', run, last⟩ := readHeader_astray few_ more stream few enough (Stack.holding 0).hdr
    rw [Stack.u32At_holding] at last
    have none : u32At hdr' 12 = 0 := last
    obtain ⟨reads, _, read⟩ := stdRead_spec net' [] net'.stream (p.buff ++ List.replicate (0 - p.buff.length) 0) fuel
      (by decide) rfl few' (by rw [List.length_nil]; omega)
    have recv : eventRecv fuel net (Stack.holding 0).hdr p.buff false =
        some (stdErrOk, { net' with reads := reads }, p.buff) := by
      rw [eventRecv_fits run (by rw [none]; omega)]
      unfold eventRecv
      rw [Option.bind_eq_bind, run, Option.bind_some]
      dsimp only
      rw [none, if_neg (by decide), if_neg (by simp), Nat.zero_sub, List.replicate_zero, List.append_nil]
      rw [Nat.zero_sub, List.replicate_zero, List.append_nil] at read
      have here : stdRead fuel net' p.buff (asInt 0) = some (0, some stdErrOk, { net' with reads := reads }, p.buff) := read
      exact congrArg (· >>= _) here
    refine ⟨_, _, _, by rw [wait_eq fixed, recv]; rfl, fun handled => ?_⟩
    exact stdErr_ne_ok _ _ ((if_neg fits).mp handled).symm

/-! ## Runs -/

theorem frames_cons (m : Message) (ms : List Message) : frames (m :: ms) = m.frame ++ frames ms := by
  simp [frames]

theorem waits_cons {rc : StdError} {p' : EventMsgBuff} {stack : Stack} (locals : List Stack)
    (first : stdClientWaitForEvent fuel net stack.hdr p = some (rc, net', p')) :
    waits fuel net p (stack :: locals) = (waits fuel net' p' locals).map fun (results, out) => ((rc, p') :: results, out) := by
  rw [waits, Option.bind_eq_bind, first, Option.bind_some]
  dsimp only
  cases waits fuel net' p' locals <;> rfl

/-- With every frame but the last one fitting, each call handles its frame. -/
theorem waits_in_step (fits : ∀ m ∈ ms.dropLast, m.payload.length ≤ space) (sized : ∀ m ∈ ms, m.payload.length < 2 ^ 32)
    (small : ∀ m ∈ ms, m.payload.length ≤ space → m.payload.length < 2 ^ 31) (fixed : Fixed space p)
    {locals : List Stack} (count : locals.length = ms.length) (stream : net.stream = frames ms)
    (few : FewInterrupts net.reads) (enough : 98 + 11 * 2 ^ 31 ≤ fuel) :
    ∃ results out, waits fuel net p locals = some (results, out) ∧ List.Forall₂ (Handled space) ms results := by
  induction ms generalizing net p locals with
  | nil =>
    obtain rfl := List.eq_nil_of_length_eq_zero count
    exact ⟨[], net, rfl, .nil⟩
  | cons m ms ih =>
    obtain ⟨stack, locals, rfl⟩ := List.exists_cons_of_length_eq_add_one count
    rw [frames_cons] at stream
    by_cases here : m.payload.length ≤ space
    · obtain ⟨reads, p', suffix, fixed', handled, wait⟩ := wait_fits fixed here (small m List.mem_cons_self here)
        stack.room stream few enough
      have fits' : ∀ m ∈ ms.dropLast, m.payload.length ≤ space := by
        intro m' mem
        have some_ : ms ≠ [] := by
          rintro rfl
          exact absurd mem List.not_mem_nil
        rw [List.dropLast_cons_of_ne_nil some_] at fits
        exact fits m' (List.mem_cons_of_mem m mem)
      have few' : FewInterrupts ({ net with stream := frames ms, reads := reads } : Net).reads := few.suffix suffix
      obtain ⟨results, out, rest, all⟩ := ih fits' (fun m h => sized m (List.mem_cons_of_mem _ h))
        (fun m h => small m (List.mem_cons_of_mem _ h)) fixed' (Nat.succ.inj count) rfl few'
      refine ⟨_, out, ?_, .cons handled all⟩
      rw [waits_cons locals wait, rest]
      rfl
    · cases ms with
      | nil =>
        obtain rfl := List.eq_nil_of_length_eq_zero (Nat.succ.inj count)
        have enough' : 98 < fuel := by omega
        obtain ⟨reads, _, wait⟩ := wait_tooBig fixed (by omega) (sized m List.mem_cons_self) stack.room stream few enough'
        exact ⟨_, _, waits_cons [] wait, .cons ((if_neg here).mpr rfl) .nil⟩
      | cons m' ms => exact absurd (fits m (by simp)) here

theorem op_value_le (op : MsgType) : op.value ≤ 3 := by cases op <;> decide

theorem length_frame (m : Message) : m.frame.length = sizeofData + m.payload.length := by
  rw [Message.frame, List.length_append, length_header_bytes]

/-- With a frame behind one that is too big, there are locals for which a call goes wrong. -/
theorem waits_astray {results : List (StdError × EventMsgBuff)} (bad : ¬ ∀ m ∈ ms.dropLast, m.payload.length ≤ space)
    (sized : ∀ m ∈ ms, m.payload.length < 2 ^ 32)
    (small : ∀ m ∈ ms, m.payload.length ≤ space → m.payload.length < 2 ^ 31) (fixed : Fixed space p)
    (stream : net.stream = frames ms) (few : FewInterrupts net.reads) (enough : 98 + 11 * 2 ^ 31 ≤ fuel)
    (run : waits fuel net p (ms.map (Stack.against space)) = some (results, net')) :
    ¬ List.Forall₂ (Handled space) ms results := by
  induction ms generalizing net p results net' with
  | nil => exact absurd (fun m mem => absurd mem List.not_mem_nil) bad
  | cons m ms ih =>
    obtain ⟨m', ms, rfl⟩ : ∃ m' ms', ms = m' :: ms' := by
      apply List.exists_cons_of_ne_nil
      rintro rfl
      exact bad fun m mem => absurd mem List.not_mem_nil
    rw [frames_cons] at stream
    rw [List.map_cons] at run
    have enough' : 98 < fuel := by omega
    by_cases here : m.payload.length ≤ space
    · obtain ⟨reads, p', suffix, fixed', _, wait⟩ := wait_fits fixed here (small m List.mem_cons_self here)
        (Stack.against space m).room stream few enough
      rw [waits_cons _ wait] at run
      obtain ⟨⟨rest, out⟩, run', same⟩ := Option.map_eq_some_iff.mp run
      cases same
      have bad' : ¬ ∀ m ∈ (m' :: ms).dropLast, m.payload.length ≤ space := by
        intro fits
        apply bad
        rw [List.dropLast_cons_of_ne_nil (List.cons_ne_nil _ _)]
        exact List.forall_mem_cons.mpr ⟨here, fits⟩
      intro all
      exact ih bad' (fun m h => sized m (List.mem_cons_of_mem _ h)) (fun m h => small m (List.mem_cons_of_mem _ h))
        fixed' rfl (few.suffix suffix : FewInterrupts reads) run' (List.forall₂_cons.mp all).2
    · have big : space < m.payload.length := Nat.lt_of_not_le here
      have room : space < 2 ^ 32 - 1 := by
        have := sized m List.mem_cons_self
        omega
      obtain ⟨reads, suffix, wait⟩ := wait_tooBig fixed big (sized m List.mem_cons_self)
        (Stack.against space m).room stream few enough'
      -- The rest of the frame is where the next header should be.
      have left : m.payload ++ frames (m' :: ms) = u32Bytes m.op.value ++ (m.data.flatten ++ frames (m' :: ms)) := by
        rw [Message.payload, List.append_assoc]
      have length : 7 ≤ (m.data.flatten ++ frames (m' :: ms)).length := by
        rw [frames_cons, List.length_append, List.length_append, length_frame, sizeofData]
        omega
      obtain ⟨rc, out, p', wait', wrong⟩ := wait_astray fixed room (op_value_le m.op) length
        (show ({ net with stream := m.payload ++ frames (m' :: ms), reads := reads } : Net).stream = _ from left)
        (few.suffix suffix) m' enough'
      rw [waits_cons _ wait, List.map_cons, waits_cons _ wait'] at run
      obtain ⟨⟨rest, out'⟩, run', same⟩ := Option.map_eq_some_iff.mp run
      obtain ⟨⟨rest', out''⟩, _, same'⟩ := Option.map_eq_some_iff.mp run'
      cases same'
      cases same
      intro all
      exact wrong (List.forall₂_cons.mp (List.forall₂_cons.mp all).2).1

theorem fewInterrupts_nil : FewInterrupts [] := fun many => absurd many.length_le (by decide)

theorem Fixed.allocated (space : UInt32) : Fixed space.toNat (stdClientAllocateMsgBuff space true) :=
  ⟨rfl, List.length_replicate⟩

theorem not_inStep {space : UInt32} (bad : ¬ ∀ m ∈ ms.dropLast, m.payload.length ≤ space.toNat)
    (sized : ∀ m ∈ ms, m.payload.length < 2 ^ 32)
    (small : ∀ m ∈ ms, m.payload.length ≤ space.toNat → m.payload.length < 2 ^ 31) : ¬ InStep ms space := by
  intro inStep
  obtain ⟨N, run⟩ := inStep (ms.map (Stack.against space.toNat)) (List.length_map _) ⟨frames ms, [], []⟩ rfl
    fewInterrupts_nil
  obtain ⟨results, out, waited, all⟩ := run (max N (98 + 11 * 2 ^ 31)) (Nat.le_max_left _ _)
  exact waits_astray bad sized small (.allocated space) rfl fewInterrupts_nil (Nat.le_max_right _ _) waited all

/-- **When a client stays in step.** A frame that is too big is not taken off the
stream, so nothing may follow it. -/
theorem in_step_iff (ms : List Message) (space : UInt32) (sized : ∀ m ∈ ms, m.payload.length < 2 ^ 32)
    (small : ∀ m ∈ ms, m.payload.length ≤ space.toNat → m.payload.length < 2 ^ 31) :
    InStep ms space ↔ ∀ m ∈ ms.dropLast, m.payload.length ≤ space.toNat := by
  constructor
  · intro inStep
    by_contra bad
    exact not_inStep bad sized small inStep
  · intro fits locals count net stream few
    refine ⟨98 + 11 * 2 ^ 31, fun fuel enough => ?_⟩
    exact waits_in_step fits sized small (.allocated space) count stream few enough

/-- Events with so many bytes of data. -/
def eventsOf (sizes : List Nat) : List Message :=
  sizes.map fun size => ⟨.publish, [List.replicate 68 0 ++ u32Bytes size, List.replicate size 7]⟩

/-- The event that is too big comes last. -/
theorem in_step_iff_last :
    InStep (eventsOf [0, 8]) 80 ↔ ∀ m ∈ (eventsOf [0, 8]).dropLast, m.payload.length ≤ 80 :=
  in_step_iff (eventsOf [0, 8]) 80 (by decide) (by decide)

/-- It comes first, and the event behind it is lost. -/
theorem event_behind_too_big : ¬ InStep (eventsOf [8, 0]) 80 :=
  not_inStep (by decide) (by decide) (by decide)

end SonicUtils.Event
