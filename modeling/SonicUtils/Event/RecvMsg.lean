import SonicUtils.Event.SomeData

/-!
# Events received into a buffer

`std_client_publish_msg`, `std_client_publish_msg_data` and, at the other end,
`std_client_wait_for_event_data`, which is given the length of the buffer for
the data of the event.

* `publishes_frame`: both functions send the same bytes;
* `eventRecvMsg_spec`: what the receive makes of them;
* `bounded_receive_iff`: when it accepts what fits.
-/

namespace SonicUtils.Event

open SonicUtils.Transfer

/-- `std_event_key_t`, whatever its length says. -/
structure StdEventKey where
  len : UInt32
  eventKey : Vector UInt32 16

/-- `std_event_msg_t`, without what is behind it. -/
structure StdEventMsg where
  key : StdEventKey
  dataLen : UInt32

/-- The words of a key in memory. -/
def StdEventKey.bytes (key : StdEventKey) : List UInt8 := (key.len :: key.eventKey.toList).flatMap fun w => u32Bytes w.toNat

def StdEventMsg.bytes (msg : StdEventMsg) : List UInt8 := msg.key.bytes ++ u32Bytes msg.dataLen.toNat

/-- `std_client_publish_msg`; `rest` is what is in memory behind `*msg`. -/
def stdClientPublishMsg (fuel : Nat) (msg : StdEventMsg) (rest : List UInt8) (net : Net) : Option (StdError × Net) :=
  eventSend fuel ⟨.publish, [(msg.bytes ++ rest).take (sizeofEventMsg + msg.dataLen.toNat)]⟩ net

def stdClientPublishMsgData (fuel : Nat) (key : StdEventKey) (data : List UInt8) (net : Net) : Option (StdError × Net) :=
  let msg : StdEventMsg := ⟨key, .ofNat data.length⟩
  eventSend fuel ⟨.publish, [msg.bytes, data]⟩ net

/-- `std_event_util_event_recv_msg`. `hdr` and `mtype` are what its variables hold
at first, `msg` and `data` what is in memory at the pointers; `data` may be
longer than the `len` bytes of the buffer. -/
def eventRecvMsg (fuel : Nat) (handle : Int) (net : Net) (hdr mtype msg data : List UInt8) (len : Nat) :
    Option (StdError × Net × List UInt8 × List UInt8) := do
  let (ok, net, hdr) ← readHeader fuel net hdr
  if !ok then return (stdErr .fail 0, net, msg, data)
  let size := u32At hdr 12
  if size < sizeofMsg + sizeofEventMsg then return (stdErr .fail 0, net, msg, data)
  let (by_, _, net, mtype) ← stdRead fuel net mtype sizeofMsg
  if by_ ≠ sizeofMsg then return (stdErr .closed handle, net, msg, data)
  if u32At mtype 0 ≠ MsgType.publish.value then return (stdErr .fail 0, net, msg, data)
  let size := size - sizeofMsg
  if size > len then return (stdErr .tooBig 0, net, msg, data)
  let (by_, _, net, msg) ← stdRead fuel net msg sizeofEventMsg
  if by_ ≠ sizeofEventMsg then return (stdErr .fail 0, net, msg, data)
  let size := size - sizeofEventMsg
  if size ≠ u32At msg sizeofEventKey then return (stdErr .fail 0, net, msg, data)
  let (by_, _, net, data) ← stdRead fuel net data (asInt size)
  if by_ ≠ asInt size then return (stdErr .fail 0, net, msg, data)
  return (stdErrOk, net, msg, data)

def stdClientWaitForEventData (fuel : Nat) (handle : Int) (net : Net) (hdr mtype msg buff : List UInt8) (len : Nat) :
    Option (StdError × Net × List UInt8 × List UInt8) :=
  eventRecvMsg fuel handle net hdr mtype msg buff len

/-- One of the two functions has sent `msg` and `data` and returned `STD_ERR_OK`. -/
inductive Publishes (net : Net) (msg : StdEventMsg) (data : List UInt8) (net' : Net) : Prop
  | msg (fuel : Nat) (rest : List UInt8) : stdClientPublishMsg fuel msg (data ++ rest) net = some (stdErrOk, net') →
      data.length = msg.dataLen.toNat → Publishes net msg data net'
  | msgData (fuel : Nat) : stdClientPublishMsgData fuel msg.key data net = some (stdErrOk, net') →
      msg.dataLen = .ofNat data.length → Publishes net msg data net'

/-- The receive succeeds exactly when the data are no longer than `len`, and then
gives the sent key, length and data, and leaves the memory behind these alone. -/
def BoundedReceive (net : Net) (msg : StdEventMsg) (data : List UInt8) (len : Nat) : Prop :=
  ∀ handle hdr mtype out buff, hdr.length = sizeofData → mtype.length = sizeofMsg → out.length = sizeofEventMsg →
    len ≤ buff.length →
    ∃ N, ∀ fuel ≥ N, ∃ rc net' out' buff',
      stdClientWaitForEventData fuel handle net hdr mtype out buff len = some (rc, net', out', buff') ∧
      (rc = stdErrOk ↔ data.length ≤ len) ∧
      (rc = stdErrOk → out' = msg.bytes ∧ buff' = data ++ buff.drop data.length)

variable {net net' : Net} {msg : StdEventMsg} {data b hdr mtype out buff : List UInt8} {fuel len : Nat} {handle : Int}

/-! ## What is sent -/

theorem length_words (words : List UInt32) : (words.flatMap fun w => u32Bytes w.toNat).length = 4 * words.length := by
  induction words with
  | nil => rfl
  | cons w words ih =>
    rw [List.flatMap_cons, List.length_append, length_u32Bytes, ih, List.length_cons]
    omega

theorem StdEventKey.length_bytes (key : StdEventKey) : key.bytes.length = sizeofEventKey := by
  rw [StdEventKey.bytes, length_words, List.length_cons, Vector.length_toList]
  rfl

theorem StdEventMsg.length_bytes (msg : StdEventMsg) : msg.bytes.length = sizeofEventMsg := by
  rw [StdEventMsg.bytes, List.length_append, msg.key.length_bytes]
  rfl

/-- `data_len` comes after the key. -/
theorem StdEventMsg.u32At_bytes (msg : StdEventMsg) (rest : List UInt8) :
    u32At (msg.bytes ++ rest) sizeofEventKey = msg.dataLen.toNat := by
  rw [StdEventMsg.bytes, ← msg.key.length_bytes]
  exact u32At_u32Bytes msg.dataLen.toNat_lt _ _

/-- The operation, the message and the data, as both functions send them. -/
theorem publishes_frame (sent : Publishes net msg data net') (sized : sizeofMsg + sizeofEventMsg + data.length < 2 ^ 32) :
    data.length = msg.dataLen.toNat ∧ ∃ m : Message, net'.stream = net.stream ++ m.frame ∧
      m.payload = u32Bytes MsgType.publish.value ++ (msg.bytes ++ data) := by
  cases sent with
  | msg fuel rest run length =>
    refine ⟨length, _, (eventSend_frames run).1, ?_⟩
    have cut : (msg.bytes ++ (data ++ rest)).take (sizeofEventMsg + msg.dataLen.toNat) = msg.bytes ++ data := by
      rw [← List.append_assoc, ← length, ← msg.length_bytes, ← List.length_append]
      exact List.take_left
    simp [Message.payload, cut]
  | msgData fuel run length =>
    have length' : data.length = msg.dataLen.toNat := by
      rw [length]
      exact (UInt32.toNat_ofNat_of_lt' (by rw [UInt32.size]; omega)).symm
    refine ⟨length', _, (eventSend_frames run).1, ?_⟩
    simp [Message.payload, ← length]

/-! ## What is received -/

/-- `std_read` of bytes that are there. -/
theorem stdRead_next (fuel : Nat) (mem : List UInt8) {a : List UInt8} (small : a.length < 2 ^ 31) (stream : net.stream = a ++ b)
    (few : FewInterrupts net.reads) (enough : 11 * a.length + 10 < fuel) :
    ∃ net', stdRead fuel net mem a.length = some ((a.length : Int), some stdErrOk, net', a ++ mem.drop a.length) ∧
      net'.stream = b ∧ FewInterrupts net'.reads := by
  obtain ⟨reads, suffix, run⟩ := stdRead_spec net a b mem fuel small stream few enough
  exact ⟨_, run, rfl, few.suffix suffix⟩

/-- The header of a published event. -/
theorem readHeader_published (m : Message)
    (published : m.payload = u32Bytes MsgType.publish.value ++ (msg.bytes ++ data))
    (sized : sizeofMsg + sizeofEventMsg + data.length < 2 ^ 32) (stream : net.stream = m.frame ++ b)
    (few : FewInterrupts net.reads) (header : hdr.length = sizeofData) (enough : 98 < fuel) :
    ∃ net' hdr', readHeader fuel net hdr = some (true, net', hdr') ∧
      u32At hdr' 12 = sizeofMsg + sizeofEventMsg + data.length ∧
      net'.stream = u32Bytes MsgType.publish.value ++ (msg.bytes ++ (data ++ b)) ∧ FewInterrupts net'.reads := by
  have length : m.payload.length = sizeofMsg + sizeofEventMsg + data.length := by
    rw [published, List.length_append, List.length_append, length_u32Bytes, msg.length_bytes, sizeofMsg]
    omega
  have hdrSize : m.header.hdrSize = 8 := rfl
  have size : m.header.size = m.payload.length := header_size (by omega)
  obtain ⟨reads, suffix, read⟩ := readHeader_frame net m.header (m.payload ++ b) hdr fuel rfl (by omega) header
    (by rw [stream, Message.frame, List.append_assoc]) few enough
  refine ⟨_, m.header.bytes, read, ?_, ?_, few.suffix suffix⟩
  · rw [(u32At_header (by omega) (by omega)).2, size, length]
  · dsimp only
    rw [published, List.append_assoc, List.append_assoc]

/-- The size without the operation is what is compared with the length of the buffer. -/
theorem eventRecvMsg_spec (m : Message) (published : m.payload = u32Bytes MsgType.publish.value ++ (msg.bytes ++ data))
    (sized : sizeofMsg + sizeofEventMsg + data.length < 2 ^ 32) (small : data.length ≤ len → data.length < 2 ^ 31)
    (length : data.length = msg.dataLen.toNat) (stream : net.stream = m.frame ++ b)
    (few : FewInterrupts net.reads) (header : hdr.length = sizeofData) (type : mtype.length = sizeofMsg)
    (room : out.length = sizeofEventMsg) (enough : 802 + 11 * data.length < fuel) :
    ∃ net', eventRecvMsg fuel handle net hdr mtype out buff len =
      if sizeofEventMsg + data.length > len then some (stdErr .tooBig 0, net', out, buff)
      else some (stdErrOk, net', msg.bytes, data ++ buff.drop data.length) := by
  have enough' : 98 < fuel := by omega
  obtain ⟨net₁, hdr', read, size, stream₁, few₁⟩ := readHeader_published m published sized stream few header enough'
  obtain ⟨net₂, read₁, stream₂, few₂⟩ := stdRead_next fuel mtype (by decide) stream₁ few₁
    (by rw [length_u32Bytes]; omega)
  have op : u32At (u32Bytes MsgType.publish.value ++ mtype.drop (u32Bytes MsgType.publish.value).length) 0 =
      MsgType.publish.value := u32At_u32Bytes (by decide) [] _
  have whole : ¬ sizeofMsg + sizeofEventMsg + data.length < sizeofMsg + sizeofEventMsg := by omega
  have less : sizeofMsg + sizeofEventMsg + data.length - sizeofMsg = sizeofEventMsg + data.length := by omega
  have less' : sizeofEventMsg + data.length - sizeofEventMsg = data.length := by omega
  have word : (u32Bytes MsgType.publish.value).length = sizeofMsg := rfl
  rw [word] at read₁ op
  unfold eventRecvMsg
  rw [Option.bind_eq_bind, read, Option.bind_some]
  dsimp only
  rw [size, if_neg (by decide), if_neg whole, read₁, Option.bind_eq_bind, Option.bind_some]
  dsimp only
  rw [if_neg (by decide), op, if_neg (by decide), less]
  by_cases big : sizeofEventMsg + data.length > len
  · refine ⟨net₂, ?_⟩
    rw [if_pos big, if_pos big]
    rfl
  · have short : data.length < 2 ^ 31 := small (by omega)
    have size₃ : msg.bytes.length < 2 ^ 31 := by
      rw [msg.length_bytes, sizeofEventMsg]
      omega
    have enough₃ : 11 * msg.bytes.length + 10 < fuel := by
      rw [msg.length_bytes, sizeofEventMsg]
      omega
    have enough₄ : 11 * data.length + 10 < fuel := by omega
    obtain ⟨net₃, read₃, stream₃, few₃⟩ := stdRead_next fuel out size₃ stream₂ few₂ enough₃
    obtain ⟨net₄, read₄, _, _⟩ := stdRead_next fuel buff short stream₃ few₃ enough₄
    have fits : asInt data.length = data.length := asInt_of_small (by omega) (by omega)
    have none_left : out.drop sizeofEventMsg = [] := List.drop_eq_nil_of_le (by omega)
    have dataLen := msg.u32At_bytes []
    rw [List.append_nil] at dataLen
    rw [msg.length_bytes, none_left, List.append_nil] at read₃
    refine ⟨net₄, ?_⟩
    rw [if_neg big, if_neg big, read₃, Option.bind_some]
    dsimp only
    rw [if_neg (not_not.mpr rfl), dataLen, less', ← length, if_neg (not_not.mpr rfl), fits, read₄, Option.bind_some]
    dsimp only
    rw [if_neg (not_not.mpr rfl)]
    rfl

theorem received (fuel : Nat) (handle : Int) (hdr mtype out buff : List UInt8) (sent : Publishes net msg data net') (start : net.stream = [])
    (sized : sizeofMsg + sizeofEventMsg + data.length < 2 ^ 32) (small : data.length ≤ len → data.length < 2 ^ 31)
    (few : FewInterrupts net'.reads) (header : hdr.length = sizeofData) (type : mtype.length = sizeofMsg)
    (room : out.length = sizeofEventMsg) (enough : 802 + 11 * data.length < fuel) :
    ∃ left, stdClientWaitForEventData fuel handle net' hdr mtype out buff len =
      if sizeofEventMsg + data.length > len then some (stdErr .tooBig 0, left, out, buff)
      else some (stdErrOk, left, msg.bytes, data ++ buff.drop data.length) := by
  obtain ⟨length, m, stream, payload⟩ := publishes_frame sent sized
  have stream' : net'.stream = m.frame ++ [] := by
    rw [stream, start, List.nil_append, List.append_nil]
  exact eventRecvMsg_spec m payload sized small length stream' few header type room enough

theorem not_boundedReceive (sent : Publishes net msg data net') (start : net.stream = [])
    (few : FewInterrupts net'.reads) (sized : sizeofMsg + sizeofEventMsg + data.length < 2 ^ 32)
    (small : data.length ≤ len → data.length < 2 ^ 31) (fits : data.length ≤ len)
    (short : len < sizeofEventMsg + data.length) : ¬ BoundedReceive net' msg data len := by
  intro bounded
  obtain ⟨N, run⟩ := bounded 0 (List.replicate sizeofData 0) (List.replicate sizeofMsg 0)
    (List.replicate sizeofEventMsg 0) (List.replicate len 0) rfl rfl rfl (by rw [List.length_replicate])
  obtain ⟨rc, out, msg', data', result, success, _⟩ := run (max N (803 + 11 * data.length)) (Nat.le_max_left _ _)
  obtain ⟨left, result'⟩ := received (max N (803 + 11 * data.length)) 0 (List.replicate sizeofData 0)
    (List.replicate sizeofMsg 0) (List.replicate sizeofEventMsg 0) (List.replicate len 0) sent start sized small few
    rfl rfl rfl (by omega)
  rw [if_pos short] at result'
  cases result.symm.trans result'
  exact absurd (success.mpr fits) (stdErr_ne_ok _ _)

/-- **When the receive accepts what fits.** It compares the length of its buffer
with the size of the data and of the message before them. -/
theorem bounded_receive_iff (net net' : Net) (msg : StdEventMsg) (data : List UInt8) (len : Nat)
    (sent : Publishes net msg data net') (start : net.stream = []) (few : FewInterrupts net'.reads)
    (sized : sizeofMsg + sizeofEventMsg + data.length < 2 ^ 32) (small : data.length ≤ len → data.length < 2 ^ 31) :
    BoundedReceive net' msg data len ↔ len < data.length ∨ sizeofEventMsg + data.length ≤ len := by
  constructor
  · intro bounded
    by_contra neither
    exact not_boundedReceive sent start few sized small (by omega) (by omega) bounded
  · intro far handle hdr mtype out buff header type room _
    refine ⟨803 + 11 * data.length, fun fuel enough => ?_⟩
    have enough' : 802 + 11 * data.length < fuel := by omega
    obtain ⟨left, result⟩ := received fuel handle hdr mtype out buff sent start sized small few header type room enough'
    by_cases big : sizeofEventMsg + data.length > len
    · rw [if_pos big] at result
      refine ⟨_, _, _, _, result, ⟨fun success => absurd success (stdErr_ne_ok _ _), fun fits => ?_⟩,
        fun success => absurd success (stdErr_ne_ok _ _)⟩
      omega
    · rw [if_neg big] at result
      exact ⟨_, _, _, _, result, ⟨fun _ => by omega, fun _ => rfl⟩, fun _ => ⟨rfl, rfl⟩⟩

/-- An event with the key 5. -/
def eventWith (dataLen : UInt32) : StdEventMsg := ⟨⟨1, (Vector.replicate 16 0).set 0 5⟩, dataLen⟩

theorem eventWith_sent : ∃ net', Publishes ⟨[], [], []⟩ (eventWith 2) [7, 8] net' ∧ FewInterrupts net'.reads := by
  have sent : stdClientPublishMsgData 3 (eventWith 2).key [7, 8] ⟨[], [], []⟩ =
      some (stdErrOk, ⟨(Message.mk .publish [(eventWith 2).bytes, [7, 8]]).frame, [], []⟩) := by
    decide +kernel
  exact ⟨_, .msgData 3 sent rfl, fun many => absurd many.length_le (by decide)⟩

/-- Two bytes of data, and a buffer with room for the message too. -/
theorem bounded_receive_iff_room :
    ∃ net', Publishes ⟨[], [], []⟩ (eventWith 2) [7, 8] net' ∧ BoundedReceive net' (eventWith 2) [7, 8] 74 := by
  obtain ⟨net', sent, few⟩ := eventWith_sent
  have iff_ := bounded_receive_iff _ net' _ _ 74 sent rfl few (by decide) (by decide)
  exact ⟨net', sent, iff_.mpr (.inr (by decide))⟩

/-- Two bytes of data do not get into a buffer of two bytes. -/
theorem event_does_not_fit :
    ∃ net', Publishes ⟨[], [], []⟩ (eventWith 2) [7, 8] net' ∧ ¬ BoundedReceive net' (eventWith 2) [7, 8] 2 := by
  obtain ⟨net', sent, few⟩ := eventWith_sent
  exact ⟨net', sent, not_boundedReceive sent rfl few (by decide) (by decide) (by decide) (by decide)⟩

end SonicUtils.Event
