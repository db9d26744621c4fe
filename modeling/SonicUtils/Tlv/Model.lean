import SonicUtils.Fault
import SonicUtils.Lib.Bytes

/-!
# Tag, length, value

`std_tlv.h` and `std_tlv_internal.h`. Pointers and `size_t` are 64-bit numbers,
memory is the byte at every address, and pointer arithmetic wraps as the
machine's does.
-/

namespace SonicUtils.Tlv

open SonicUtils.Bytes

def null : UInt64 := 0

/-- `STD_TLV_HDR_LEN`. -/
def stdTlvHdrLen : UInt64 := 16
def stdTlvDataPos : UInt64 := stdTlvHdrLen
def stdTlvLenPos : UInt64 := 8
def stdTlvTagPos : UInt64 := 0

/-- `le64toh` of what is at an address. -/
def le64At (mem : Mem) (a : UInt64) : UInt64 := .ofNat (ofLe (mem.bytes a 8))

def stdTlvOffset (data offset : UInt64) : UInt64 := data + offset

def stdTlvSetTag (mem : Mem) (data tag : UInt64) : Mem :=
  mem.write (stdTlvOffset data stdTlvTagPos) (toLe 8 tag.toNat)

def stdTlvSetLen (mem : Mem) (data len : UInt64) : Mem :=
  mem.write (stdTlvOffset data stdTlvLenPos) (toLe 8 len.toNat)

def stdTlvLen (mem : Mem) (data : UInt64) : UInt64 := le64At mem (stdTlvOffset data stdTlvLenPos)

def stdTlvTag (mem : Mem) (data : UInt64) : UInt64 := le64At mem (stdTlvOffset data stdTlvTagPos)

/-- The length of the value and of the header, in 64 bits. -/
def stdTlvTotalLen (mem : Mem) (data : UInt64) : UInt64 := stdTlvLen mem data + stdTlvHdrLen

def stdTlvData (data : UInt64) : UInt64 := stdTlvOffset data stdTlvDataPos

def stdTlvDataU16 (mem : Mem) (data : UInt64) : UInt16 := .ofNat (ofLe (mem.bytes (stdTlvData data) 2))
def stdTlvDataU32 (mem : Mem) (data : UInt64) : UInt32 := .ofNat (ofLe (mem.bytes (stdTlvData data) 4))
def stdTlvDataU64 (mem : Mem) (data : UInt64) : UInt64 := .ofNat (ofLe (mem.bytes (stdTlvData data) 8))

/-- What a call that adds a TLV returns and leaves behind. -/
structure Added where
  ret : UInt64
  dataLen : UInt64
  mem : Mem

/-- `std_tlv_add`; `content` is the bytes at the pointer that it is given. -/
def stdTlvAdd (mem : Mem) (data dataLen tag len : UInt64) (content : List UInt8) : Added :=
  if dataLen < len + stdTlvHdrLen then ⟨null, dataLen, mem⟩
  else
    let mem := stdTlvSetTag mem data tag
    let mem := stdTlvSetLen mem data len
    let mem := mem.write (data + stdTlvHdrLen) (content.take len.toNat)
    ⟨stdTlvOffset data (len + stdTlvHdrLen), dataLen - (len + stdTlvHdrLen), mem⟩

def stdTlvAddU16 (mem : Mem) (data dataLen tag : UInt64) (content : UInt16) : Added :=
  stdTlvAdd mem data dataLen tag 2 (toLe 2 content.toNat)

def stdTlvAddU32 (mem : Mem) (data dataLen tag : UInt64) (content : UInt32) : Added :=
  stdTlvAdd mem data dataLen tag 4 (toLe 4 content.toNat)

def stdTlvAddU64 (mem : Mem) (data dataLen tag : UInt64) (content : UInt64) : Added :=
  stdTlvAdd mem data dataLen tag 8 (toLe 8 content.toNat)

def stdTlvValid (mem : Mem) (data len : UInt64) : Bool :=
  data ≠ null && stdTlvTotalLen mem data ≤ len

/-- `std_tlv_next`: the pointer and the updated length. -/
def stdTlvNext (mem : Mem) (data len : UInt64) : UInt64 × UInt64 :=
  if data = null then (null, len)
  else
    let tlen := stdTlvTotalLen mem data
    if len < tlen then (null, len)
    else (stdTlvOffset data tlen, len - tlen)

/-- `std_tlv_find_next`: the pointer and the updated length. -/
def stdTlvFindNext (mem : Mem) (tag : UInt64) : Nat → UInt64 → UInt64 → Except Fault (UInt64 × UInt64)
  | 0, _, _ => throw .noReturn
  | fuel + 1, data, dlen =>
    if !stdTlvValid mem data dlen then return (null, dlen)
    else if stdTlvTag mem data = tag then return (data, dlen)
    else
      let (data, dlen) := stdTlvNext mem data dlen
      if data ≠ null then stdTlvFindNext mem tag fuel data dlen else return (null, dlen)

/-- The loop of `std_tlv_efind`: `none` where it returns `NULL`, otherwise its
`data` and `len` in the end. -/
def efindLoop (mem : Mem) (fuel : Nat) : UInt64 → UInt64 → List UInt64 →
    Except Fault (Option (UInt64 × UInt64))
  | data, len, [] => return some (data, len)
  | data, len, tag :: tags => do
    let (data, len) ← stdTlvFindNext mem tag fuel data len
    if data = null then return none
    if tags = [] then return some (data, len)
    efindLoop mem fuel (stdTlvData data) (stdTlvLen mem data) tags

/-- `std_tlv_efind`: the pointer and the updated length. -/
def stdTlvEfind (mem : Mem) (fuel : Nat) (data dlen : UInt64) (tags : List UInt64) :
    Except Fault (UInt64 × UInt64) := do
  match ← efindLoop mem fuel data dlen tags with
  | none => return (null, dlen)
  | some (data, len) => return (data, len)

end SonicUtils.Tlv
