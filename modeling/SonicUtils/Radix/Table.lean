import SonicUtils.LinkedList.Dll

/-!
# Radix tables

`rt_node`, `std_rt_head` and `std_rt_table` of `std_radix.h`, and the memory
that they live in. A head is a `radical_head`, the change list part included,
whether or not the table uses it. `rtt_name` and `rtt_carhead` are left out:
no function reads them.
-/

namespace SonicUtils.Radix

open SonicUtils.LinkedList

/-- The address of an `rt_node`. -/
abbrev NodeId := Nat

/-- The address of a `std_rt_head`. -/
abbrev HeadId := Nat

/-- The bytes from a `u_char *` on. -/
abbrev Addr := Nat → UInt8

/-- `std_radix_version_t`. -/
abbrev Version := UInt64

/-- `rt_node`; `rtn_bit` is a `ushort`. -/
structure RtNode where
  rtnLeft : Option NodeId
  rtnRight : Option NodeId
  rtnParent : Option NodeId
  rtnBit : Nat
  rtnTbit : UInt8
  rtnFlags : UInt8
  rtnLock : UInt8
  rtnVersion : Version
  rtnRth : Option HeadId

/-- A node after `memset`. -/
def RtNode.zero : RtNode := ⟨none, none, none, 0, 0, 0, 0, 0, none⟩

/-- `std_radical_head_t`, its `rdcl_cl` apart. -/
structure RtHead where
  rthRtn : Option NodeId
  rthAddr : Option Addr
  rthVersion : Version
  rdxRthAddr : Option Addr
  magic : UInt64
  rdclFlags : UInt32

/-- `std_rt_table`, and in the last two fields the nodes that are allocated
and the heads. The list head `rtt_clhead` holds the `rdcl_cl` of every head.
`rtt_convert` is a function of the key, the buffer to write into and the
length. -/
structure Rtt where
  rttMagic : UInt64
  rttRoot : Option NodeId
  rttInodes : UInt64
  rttRoutes : UInt64
  rttNinserts : UInt64
  rttNremoves : UInt64
  rttNmalloc : UInt64
  rttNfree : UInt64
  rttNusrfrees : UInt64
  rttNwraps : UInt64
  rttVersion : Version
  rttMaxaddrlen : Nat
  rttDebug : Bool
  temp : Addr
  rttRmfree : Bool
  rttConvert : Option (Addr → Addr → Nat → Addr)
  rttRadicalinuse : Int
  rttRadicalused : Bool
  rttClhead : Dll HeadId
  rttCarused : Bool
  nodes : NodeId → Option RtNode
  heads : HeadId → RtHead

/-- `RDX_MAGIC`. -/
def rdxMagic : UInt64 := 0xdeadbeef

/-- `std_radix_create`, in a memory with the heads `heads` and with `junk` in
the buffer `temp` past its end. -/
def stdRadixCreate (maxaddrlen : Nat) (rmfree : Bool) (heads : HeadId → RtHead) (junk : Addr) : Rtt where
  rttMagic := rdxMagic
  rttRoot := none
  rttInodes := 0
  rttRoutes := 0
  rttNinserts := 0
  rttNremoves := 0
  rttNmalloc := 0
  rttNfree := 0
  rttNusrfrees := 0
  rttNwraps := 0
  rttVersion := 0
  rttMaxaddrlen := maxaddrlen
  rttDebug := false
  temp i := if i < (maxaddrlen + 7) / 8 then 0 else junk i
  rttRmfree := rmfree
  rttConvert := none
  rttRadicalinuse := 0
  rttRadicalused := false
  rttClhead := .init
  rttCarused := false
  nodes _ := none
  heads := heads

namespace Rtt

/-- `*rtn`. -/
def node (rtt : Rtt) (rtn : NodeId) : Except Fault RtNode :=
  match rtt.nodes rtn with
  | none => throw .freed
  | some n => pure n

/-- A write of fields of `*rtn`. -/
def setNode (rtt : Rtt) (rtn : NodeId) (n : RtNode) : Rtt :=
  { rtt with nodes := Function.update rtt.nodes rtn (some n) }

def write (rtt : Rtt) (rtn : NodeId) (f : RtNode → RtNode) : Except Fault Rtt := do
  let n ← rtt.node rtn
  return rtt.setNode rtn (f n)

def writeHead (rtt : Rtt) (rth : HeadId) (f : RtHead → RtHead) : Rtt :=
  { rtt with heads := Function.update rtt.heads rth (f (rtt.heads rth)) }

/-- `rth->rdx_rth_addr`, where it is read from. -/
def headAddr (rtt : Rtt) (rth : HeadId) : Except Fault Addr := deref (rtt.heads rth).rdxRthAddr

/-- `RDX_VALIDATE_HANDLE`. -/
def validateHandle (rtt : Rtt) : Except Fault Unit := check (rtt.rttMagic = rdxMagic)

/-- The number of bytes of a key. -/
def keyBytes (rtt : Rtt) : Nat := (rtt.rttMaxaddrlen + 7) / 8

/-- The key that a lookup works on: `addr` itself, or what `rtt_convert` makes
of it in `temp`. -/
def convertKey (rtt : Rtt) (addr : Addr) : Addr × Rtt :=
  match rtt.rttConvert with
  | none => (addr, rtt)
  | some convert =>
    let zeroed : Addr := fun i => if i < rtt.keyBytes then 0 else rtt.temp i
    let temp := convert addr zeroed rtt.rttMaxaddrlen
    (temp, { rtt with temp := temp })

end Rtt

end SonicUtils.Radix
