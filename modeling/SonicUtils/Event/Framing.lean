import SonicUtils.Transfer.FileOp
import SonicUtils.Transfer.SocketOp
import SonicUtils.Lib.Runs
import Mathlib.Data.List.GetD

/-!
# Event frames

`std_event_util_event_send` and `std_event_util_event_recv` of
`std_event_utils.cpp`. A frame is a header of sixteen bytes, the operation and
the data segments.

* `eventSend_frames`: a send that reports success has put one frame at the end
  of the stream;
* `eventRecv_frame`: a receive takes one frame off its start;
* `framing_round_trip`: any sends and the receives after them.
-/

namespace SonicUtils.Event

open SonicUtils.Transfer SonicUtils.Runs

/-- `event_serv_msg_types_t`. -/
inductive MsgType
  | addReg
  | delReg
  | publish
  | buffer
  deriving DecidableEq, Repr

def MsgType.value : MsgType → Nat
  | addReg => 0
  | delReg => 1
  | publish => 2
  | buffer => 3

/-- A `uint32_t` in memory, on a little-endian host. -/
def u32Bytes (x : Nat) : List UInt8 :=
  [.ofNat x, .ofNat (x / 2 ^ 8), .ofNat (x / 2 ^ 16), .ofNat (x / 2 ^ 24)]

/-- The `uint32_t` at an offset. -/
def u32At (bytes : List UInt8) (off : Nat) : Nat :=
  let byte (i : Nat) := (bytes.getD (off + i) 0).toNat
  byte 0 + byte 1 * 2 ^ 8 + byte 2 * 2 ^ 16 + byte 3 * 2 ^ 24

@[simp] theorem length_u32Bytes (x : Nat) : (u32Bytes x).length = 4 := rfl

theorem u32At_append {a : List UInt8} {off : Nat} (inside : off + 4 ≤ a.length) (b : List UInt8) :
    u32At (a ++ b) off = u32At a off := by
  have byte (i : Nat) (hi : i < 4) : (a ++ b).getD (off + i) 0 = a.getD (off + i) 0 :=
    List.getD_append _ _ _ _ (by omega)
  simp only [u32At, byte 0 (by omega), byte 1 (by omega), byte 2 (by omega), byte 3 (by omega)]

theorem u32At_u32Bytes {x : Nat} (fits : x < 2 ^ 32) (before after : List UInt8) :
    u32At (before ++ u32Bytes x ++ after) before.length = x := by
  simp [u32At, u32Bytes, List.getD]
  omega

/-- `std_event_ipc_data_t`, with the two fields of `std_event_ipc_hdr_t` first. -/
structure IpcData where
  hdrSize : Nat
  hdrVersion : Nat
  version : Nat
  size : Nat

def IpcData.bytes (d : IpcData) : List UInt8 :=
  u32Bytes d.hdrSize ++ u32Bytes d.hdrVersion ++ u32Bytes d.version ++ u32Bytes d.size

def sizeofHdr : Nat := 8
def sizeofData : Nat := 16
def sizeofMsg : Nat := 4
/-- `STD_CMN_IPC_VER`. -/
def stdCmnIpcVer : Nat := 1

/-- The operation and the data segments of one send. -/
structure Message where
  op : MsgType
  data : List (List UInt8)

/-- What the receiver gets: the operation followed by the segments. -/
def Message.payload (m : Message) : List UInt8 := u32Bytes m.op.value ++ m.data.flatten

/-- The header that `std_event_util_event_send` fills in. -/
def Message.header (m : Message) : IpcData where
  hdrSize := sizeofData - sizeofHdr
  hdrVersion := stdCmnIpcVer
  version := 0
  size := ((m.data.map List.length).foldl (fun size len => (size + len) % 2 ^ 32) 0 + sizeofMsg) % 2 ^ 32

/-- `std_event_util_event_send`. -/
def eventSend (fuel : Nat) (m : Message) (net : Net) : Option (StdError × Net) :=
  let iov := m.header.bytes :: u32Bytes m.op.value :: m.data
  (processOp Net.writer iov true fuel net).map fun (_, rc, net) => (rc, net)

/-- `read_header`, into a header that starts with the bytes `hdr`. -/
def readHeader (fuel : Nat) (net : Net) (hdr : List UInt8) : Option (Bool × Net × List UInt8) := do
  let (by_, _, net, hdr) ← stdRead fuel net hdr sizeofHdr
  if by_ ≠ sizeofHdr then return (false, net, hdr)
  if u32At hdr 0 > sizeofData - sizeofHdr then return (false, net, hdr)
  let (by_, _, net, rest) ← stdRead fuel net (hdr.drop sizeofHdr) (asInt (u32At hdr 0))
  let hdr := hdr.take sizeofHdr ++ rest
  if by_ ≠ asInt (u32At hdr 0) then return (false, net, hdr)
  return (true, net, hdr)

/-- `std_event_util_event_recv`; `hdr` is what the header on its stack holds
at first, and the last component what `buff` holds in the end. -/
def eventRecv (fuel : Nat) (net : Net) (hdr buff : List UInt8) (allowResize : Bool) :
    Option (StdError × Net × List UInt8) := do
  let (ok, net, hdr) ← readHeader fuel net hdr
  if !ok then return (stdErr .fail 0, net, buff)
  let size := u32At hdr 12
  if size > buff.length ∧ !allowResize then return (stdErr .tooBig 0, net, buff)
  let buff := buff ++ List.replicate (size - buff.length) 0
  let (by_, _, net, buff) ← stdRead fuel net buff (asInt size)
  return (if by_ = asInt size then stdErrOk else stdErr .fail by_, net, buff)

/-- What goes over the stream. -/
def Message.frame (m : Message) : List UInt8 := m.header.bytes ++ m.payload

theorem length_header_bytes (d : IpcData) : d.bytes.length = sizeofData := rfl

theorem length_payload (m : Message) :
    m.payload.length = (m.data.map List.length).sum + sizeofMsg := by
  simp [Message.payload, sizeofMsg, Nat.add_comm, List.length_flatten]

theorem foldl_add_mod (lens : List Nat) (size : Nat) :
    lens.foldl (fun size len => (size + len) % 2 ^ 32) (size % 2 ^ 32) =
      (size + lens.sum) % 2 ^ 32 := by
  induction lens generalizing size with
  | nil => rfl
  | cons len lens ih =>
    rw [List.foldl_cons, List.sum_cons, Nat.mod_add_mod, ih, Nat.add_assoc]

theorem header_size {m : Message} (sized : m.payload.length < 2 ^ 32) :
    m.header.size = m.payload.length := by
  have sum := foldl_add_mod (m.data.map List.length) 0
  have len := length_payload m
  rw [Nat.zero_add, Nat.zero_mod] at sum
  simp only [Message.header, sum]
  unfold sizeofMsg at len ⊢
  omega

theorem eventSend_frames {fuel : Nat} {m : Message} {net net' : Net}
    (sent : eventSend fuel m net = some (stdErrOk, net')) :
    net'.stream = net.stream ++ m.frame ∧ net'.reads = net.reads := by
  obtain ⟨⟨ret, rc, out⟩, run, same⟩ := Option.map_eq_some_iff.mp sent
  obtain ⟨rfl, rfl⟩ : rc = stdErrOk ∧ out = net' := by simpa using same
  obtain ⟨stream, reads, _⟩ := processOp_sends run
  refine ⟨?_, reads⟩
  simpa [Message.frame, Message.payload] using stream

/-- The two fields of a header that the receiver reads. -/
theorem u32At_header {d : IpcData} (hs : d.hdrSize < 2 ^ 32) (size : d.size < 2 ^ 32) :
    u32At d.bytes 0 = d.hdrSize ∧ u32At d.bytes 12 = d.size := by
  constructor
  · have at0 := u32At_u32Bytes hs [] (u32Bytes d.hdrVersion ++ u32Bytes d.version ++ u32Bytes d.size)
    simpa [IpcData.bytes] using at0
  · have at12 := u32At_u32Bytes size (u32Bytes d.hdrSize ++ u32Bytes d.hdrVersion ++ u32Bytes d.version) []
    simpa [IpcData.bytes] using at12

/-- `read_header` takes two words off the stream, and as many bytes as the first of
them says. What the header holds behind these stays. -/
theorem readHeader_bytes (net : Net) (first second b hdr : List UInt8) (fuel : Nat) (eight : first.length = sizeofHdr)
    (size : u32At first 0 = second.length) (short : second.length ≤ sizeofData - sizeofHdr)
    (stream : net.stream = first ++ (second ++ b)) (few : FewInterrupts net.reads) (enough : 98 < fuel) :
    ∃ reads, reads <:+ net.reads ∧
      readHeader fuel net hdr = some (true, { net with stream := b, reads := reads },
        first ++ (second ++ (hdr.drop sizeofHdr).drop second.length)) := by
  have allowed : ¬ second.length > 8 := Nat.not_lt.mpr short
  have inside : 0 + 4 ≤ first.length := by rw [eight, sizeofHdr]; omega
  have at0 (rest : List UInt8) : u32At (first ++ rest) 0 = second.length := (u32At_append inside rest).trans size
  have fits : asInt second.length = second.length := asInt_of_small (by omega) (by omega)
  obtain ⟨reads₁, suffix₁, read₁⟩ := stdRead_spec net first (second ++ b) hdr fuel (by rw [eight, sizeofHdr]; omega)
    stream few (by rw [eight, sizeofHdr]; omega)
  obtain ⟨reads₂, suffix₂, read₂⟩ := stdRead_spec { net with stream := second ++ b, reads := reads₁ } second b
    (hdr.drop sizeofHdr) fuel (by omega) rfl (few.suffix suffix₁) (by omega)
  refine ⟨reads₂, suffix₂.trans suffix₁, ?_⟩
  rw [eight] at read₁
  unfold readHeader
  rw [Option.bind_eq_bind, read₁, Option.bind_some]
  dsimp only
  rw [if_neg (not_not.mpr rfl), at0, if_neg (Nat.not_lt.mpr short), List.drop_left' eight, fits, read₂, Option.bind_some]
  dsimp only
  rw [List.take_left' eight, at0, fits, if_neg (not_not.mpr rfl)]
  rfl

/-- `read_header` takes exactly the sixteen bytes of a header off the stream. -/
theorem readHeader_frame (net : Net) (d : IpcData) (b hdr : List UInt8) (fuel : Nat)
    (eight : d.hdrSize = sizeofData - sizeofHdr) (size : d.size < 2 ^ 32)
    (room : hdr.length = sizeofData) (stream : net.stream = d.bytes ++ b)
    (few : FewInterrupts net.reads) (enough : 98 < fuel) :
    ∃ reads, reads <:+ net.reads ∧
      readHeader fuel net hdr = some (true, { net with stream := b, reads := reads }, d.bytes) := by
  have halves : d.bytes = d.bytes.take sizeofHdr ++ d.bytes.drop sizeofHdr := (List.take_append_drop _ _).symm
  have first : (d.bytes.take sizeofHdr).length = sizeofHdr := rfl
  have second : (d.bytes.drop sizeofHdr).length = sizeofData - sizeofHdr := rfl
  have hdrSize : d.hdrSize = 8 := eight
  have at0 : u32At (d.bytes.take sizeofHdr) 0 = (d.bytes.drop sizeofHdr).length := by
    have inside : 0 + 4 ≤ (d.bytes.take sizeofHdr).length := by rw [first, sizeofHdr]; omega
    rw [← u32At_append inside (d.bytes.drop sizeofHdr), ← halves, second, ← eight]
    exact (u32At_header (by omega) size).1
  obtain ⟨reads, suffix, run⟩ := readHeader_bytes net (d.bytes.take sizeofHdr) (d.bytes.drop sizeofHdr) b hdr fuel first at0
    (Nat.le_of_eq second) (by rw [stream, ← List.append_assoc, ← halves]) few enough
  have none_left : (hdr.drop sizeofHdr).drop (d.bytes.drop sizeofHdr).length = [] := by
    apply List.drop_eq_nil_of_le
    rw [List.length_drop, room, second]
  rw [none_left, List.append_nil, ← halves] at run
  exact ⟨reads, suffix, run⟩

/-- A receive takes a header and the bytes that it announces. -/
theorem eventRecv_bytes (net : Net) (d : IpcData) (payload b hdr buff : List UInt8) (fuel : Nat)
    (eight : d.hdrSize = sizeofData - sizeofHdr) (size : d.size = payload.length)
    (small : payload.length < 2 ^ 31) (room : hdr.length = sizeofData)
    (stream : net.stream = d.bytes ++ (payload ++ b)) (few : FewInterrupts net.reads)
    (enough : 98 + 11 * payload.length < fuel) :
    ∃ reads, reads <:+ net.reads ∧
      eventRecv fuel net hdr buff true =
        some (stdErrOk, { net with stream := b, reads := reads },
          payload ++ buff.drop payload.length) := by
  have hs : d.hdrSize = 8 := eight
  have fits : asInt payload.length = payload.length := asInt_of_small (by omega) (by omega)
  have header : u32At d.bytes 12 = payload.length :=
    (u32At_header (by omega) (by omega)).2.trans size
  obtain ⟨reads₁, suffix₁, read₁⟩ := readHeader_frame net d (payload ++ b) hdr fuel
    eight (by omega) room stream few (by omega)
  let grown := buff ++ List.replicate (payload.length - buff.length) (0 : UInt8)
  obtain ⟨reads₂, suffix₂, read₂⟩ := stdRead_spec
    { net with stream := payload ++ b, reads := reads₁ } payload b grown fuel small rfl
    (few.suffix suffix₁) (by omega)
  refine ⟨reads₂, suffix₂.trans suffix₁, ?_⟩
  have tail : grown.drop payload.length = buff.drop payload.length := by
    rw [List.drop_append, List.drop_of_length_le (l := List.replicate _ _), List.append_nil]
    rw [List.length_replicate]
  rw [tail] at read₂
  simp [eventRecv, read₁, header, fits, grown] at read₂ ⊢
  simp [read₂]

/-- **A receive takes one frame.** The buffer then starts with the operation
and the segments, and the stream with whatever follows the frame. -/
theorem eventRecv_frame (net : Net) (m : Message) (b hdr buff : List UInt8) (fuel : Nat)
    (small : m.payload.length < 2 ^ 31) (room : hdr.length = sizeofData)
    (stream : net.stream = m.frame ++ b) (few : FewInterrupts net.reads)
    (enough : 98 + 11 * m.payload.length < fuel) :
    ∃ reads, reads <:+ net.reads ∧
      eventRecv fuel net hdr buff true =
        some (stdErrOk, { net with stream := b, reads := reads },
          m.payload ++ buff.drop m.payload.length) := by
  apply eventRecv_bytes net m.header m.payload b hdr buff fuel rfl (header_size (by omega)) small room
  · rw [stream, Message.frame, List.append_assoc]
  · exact few
  · exact enough

/-- A call of `std_event_util_event_send` that returns `STD_ERR_OK`. -/
def Sends (net : Net) (m : Message) (net' : Net) : Prop :=
  ∃ fuel, eventSend fuel m net = some (stdErrOk, net')

def frames (ms : List Message) : List UInt8 := (ms.map Message.frame).flatten

theorem sends_frames {net net' : Net} {ms : List Message} (sent : Run Sends net ms net') :
    net'.stream = net.stream ++ frames ms ∧ net'.reads = net.reads := by
  apply sent.invariant_trace (I := fun ms n => n.stream = net.stream ++ frames ms ∧ n.reads = net.reads)
  · rintro ms n m n' ⟨stream, reads⟩ ⟨fuel, last⟩
    obtain ⟨grown, same⟩ := eventSend_frames last
    refine ⟨?_, same.trans reads⟩
    rw [grown, stream, List.append_assoc]
    simp [frames]
  · simp [frames]

/-- What a call of `std_event_util_event_recv` finds in its header and in its
buffer. -/
structure RecvCall where
  hdr : List UInt8
  buff : List UInt8
  room : hdr.length = sizeofData

/-- Calls of `std_event_util_event_recv` one after another, with `allow_resize`. -/
def eventRecvs (fuel : Nat) : Net → List RecvCall → Option (List (StdError × List UInt8) × Net)
  | net, [] => some ([], net)
  | net, c :: calls => do
    let (rc, net, buff) ← eventRecv fuel net c.hdr c.buff true
    let (results, net) ← eventRecvs fuel net calls
    return ((rc, buff) :: results, net)

/-- A call returned `STD_ERR_OK` with the message at the start of its buffer. -/
def Delivered (m : Message) (result : StdError × List UInt8) : Prop :=
  result.1 = stdErrOk ∧ m.payload <+: result.2

theorem eventRecvs_frames (net : Net) (ms : List Message) {calls : List RecvCall} {fuel : Nat}
    (small : ∀ m ∈ ms, m.payload.length < 2 ^ 31) (stream : net.stream = frames ms)
    (few : FewInterrupts net.reads) (here : calls.length ≤ ms.length)
    (enough : 98 + 11 * 2 ^ 31 ≤ fuel) :
    ∃ results net', eventRecvs fuel net calls = some (results, net') ∧
      List.Forall₂ Delivered (ms.take calls.length) results ∧
      net'.stream = frames (ms.drop calls.length) := by
  induction calls generalizing ms net with
  | nil => exact ⟨[], net, rfl, by simp, by simpa using stream⟩
  | cons c calls ih =>
    cases ms with
    | nil => simp at here
    | cons m ms =>
      have fits := small m (by simp)
      obtain ⟨reads, suffix, recv⟩ := eventRecv_frame net m (frames ms) c.hdr c.buff
        fuel fits c.room (by simpa [frames] using stream) few (by omega)
      obtain ⟨results, net', rest, delivered, left⟩ := ih
        { net with stream := frames ms, reads := reads } ms (fun m hm => small m (by simp [hm])) rfl (few.suffix suffix) (by simpa using here)
      refine ⟨(stdErrOk, m.payload ++ c.buff.drop m.payload.length) :: results, net', ?_, ?_, left⟩
      · simp [eventRecvs, recv, rest]
      · exact .cons ⟨rfl, List.prefix_append _ _⟩ delivered

/-- **Framing round trip.** After any sends that all reported success, however
their writes were cut, interrupted or deferred, the receives that follow all
return `STD_ERR_OK` with the messages in their order, however their reads are
cut or interrupted. The stream is then at the start of the next frame. -/
theorem framing_round_trip {net net' : Net} {ms : List Message} (start : net.stream = [])
    (few : FewInterrupts net.reads) (small : ∀ m ∈ ms, m.payload.length < 2 ^ 31)
    (sent : Run Sends net ms net') (calls : List RecvCall) (here : calls.length ≤ ms.length) :
    ∃ N, ∀ fuel ≥ N, ∃ results out, eventRecvs fuel net' calls = some (results, out) ∧
      List.Forall₂ Delivered (ms.take calls.length) results ∧
      out.stream = frames (ms.drop calls.length) := by
  obtain ⟨stream, reads⟩ := sends_frames sent
  refine ⟨98 + 11 * 2 ^ 31, fun fuel enough => ?_⟩
  exact eventRecvs_frames net' ms small (by simpa [start] using stream) (reads ▸ few) here enough

/-- One message with an empty segment, taken in pieces by the writer, after an
`EINTR` and an `EAGAIN`, and handed out in pieces to the reader. -/
theorem framing_round_trip_one :
    let net : Net := ⟨[], [.interrupted, .took 2, .again 1, .took 9], [.gave 4, .interrupted]⟩
    let m : Message := ⟨.publish, [[], [7, 8]]⟩
    let call : RecvCall := ⟨List.replicate 16 0, [1], rfl⟩
    ∃ net', Run Sends net [m] net' ∧ ∃ N, ∀ fuel ≥ N, ∃ results out,
      eventRecvs fuel net' [call] = some (results, out) ∧
      List.Forall₂ Delivered [m] results ∧ out.stream = [] := by
  intro net m call
  have sent : eventSend 10 m net = some (stdErrOk, ⟨m.frame, [], [.gave 4, .interrupted]⟩) := by
    decide +kernel
  have run : Run Sends net [m] _ := .snoc .nil ⟨10, sent⟩
  refine ⟨_, run, ?_⟩
  refine framing_round_trip rfl ?_ ?_ run [call] (by decide)
  · exact fun many => absurd many.length_le (by decide)
  · decide

end SonicUtils.Event
