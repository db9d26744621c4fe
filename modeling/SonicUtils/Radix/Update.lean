import SonicUtils.Radix.Lookup

/-!
# Changes of a radix table

`std_radix_insert`, `_std_radix_remove` and `std_radix_remove`. What the
allocators return is an argument.
-/

namespace SonicUtils.Radix

open SonicUtils.LinkedList

/-- `RT_RTH_ADDR_MAGIC`. -/
def rtRthAddrMagic : UInt64 := 0xCAFEBABE

/-- `RDCL_INCL`. -/
def rdclIncl : UInt32 := 1

/-- A node after `memset` and `RN_SETBIT`. -/
def RtNode.ofBit (bit : Nat) (rth : Option HeadId) : RtNode :=
  { RtNode.zero with rtnBit := bit, rtnTbit := rnBit bit, rtnRth := rth }

namespace Rtt

/-- `rtt_free` and its two counters. -/
def freeNode (rtt : Rtt) (rtn : NodeId) : Rtt :=
  { rtt with
    nodes := Function.update rtt.nodes rtn none
    rttNfree := rtt.rttNfree + 1
    rttInodes := rtt.rttInodes - 1 }

/-- A node that `rtt_malloc` gave, filled in and counted. -/
def addNode (rtt : Rtt) (rtn : NodeId) (n : RtNode) : Rtt :=
  { rtt with
    nodes := Function.update rtt.nodes rtn (some n)
    rttInodes := rtt.rttInodes + 1
    rttNmalloc := rtt.rttNmalloc + 1 }

/-- `rtt_routes++`. -/
def addRoute (rtt : Rtt) : Rtt := { rtt with rttRoutes := rtt.rttRoutes + 1 }

/-- `rtt_routes--`. -/
def dropRoute (rtt : Rtt) : Rtt := { rtt with rttRoutes := rtt.rttRoutes - 1 }

/-- `rtt_ninserts++`. -/
def countInsert (rtt : Rtt) : Rtt := { rtt with rttNinserts := rtt.rttNinserts + 1 }

/-- `rtt_nremoves++`. -/
def countRemove (rtt : Rtt) : Rtt := { rtt with rttNremoves := rtt.rttNremoves + 1 }

/-- `rtt_root = rtn`. -/
def setRoot (rtt : Rtt) (rtn : Option NodeId) : Rtt := { rtt with rttRoot := rtn }

/-- The call of the user's `rtt_rmfree`, if there is one. -/
def usrFree (rtt : Rtt) : Rtt :=
  if rtt.rttRmfree then { rtt with rttNusrfrees := rtt.rttNusrfrees + 1 } else rtt

/-- The section that parts a node from its head: the key is given up and the
head is freed. -/
def releaseHead (rtt : Rtt) : Option HeadId → Rtt
  | none => rtt
  | some rth => (rtt.writeHead rth fun h => { h with rdxRthAddr := none }).usrFree

/-- The pointer to `old` in its parent, or in the table, becomes `new`.
`rightFirst` is the order of the comparisons. -/
def replaceChild (rtt : Rtt) (prev : Option NodeId) (old : NodeId) (new : Option NodeId)
    (rightFirst : Bool) : Except Fault Rtt :=
  match prev with
  | none => return rtt.setRoot new
  | some prev => do
    let p ← rtt.node prev
    if rightFirst then
      if p.rtnRight = some old then rtt.write prev fun p => { p with rtnRight := new }
      else
        check (p.rtnLeft = some old)
        rtt.write prev fun p => { p with rtnLeft := new }
    else
      if p.rtnLeft = some old then rtt.write prev fun p => { p with rtnLeft := new }
      else
        check (p.rtnRight = some old)
        rtt.write prev fun p => { p with rtnRight := new }

end Rtt

open Rtt

/-! ## `std_radix_insert` -/

/-- The first section of `std_radix_insert`, which sets `rdx_rth_addr`. False
is a failed `RDX_MALLOC`, `key` being what it finds in fresh memory. -/
def insertKey (rtt : Rtt) (rth : HeadId) (key : Option Addr) : Except Fault (Bool × Rtt) :=
  match rtt.rttConvert, (rtt.heads rth).rthAddr with
  | some _, some addr => do
    let (temp, rtt) := rtt.convertKey addr
    match (rtt.heads rth).rdxRthAddr with
    | none =>
      match key with
      | none => return (false, rtt)
      | some junk =>
        let copy : Addr := fun i => if i < rtt.keyBytes then temp i else junk i
        return (true, rtt.writeHead rth fun h =>
          { h with rdxRthAddr := some copy, magic := rtRthAddrMagic })
    | some his =>
      check ((rtt.heads rth).magic = rtRthAddrMagic)
      check (∀ i < rtt.keyBytes, his i = temp i)
      return (true, rtt)
  | _, addr => do
    check (addr.isSome)
    return (true, rtt.writeHead rth fun h => { h with rdxRthAddr := addr })

/-- The part of a head that the change list uses is cleared. -/
def clearLinks (rtt : Rtt) (rth : HeadId) : Rtt :=
  if rtt.rttRadicalused || rtt.rttCarused then
    let rtt := rtt.writeHead rth fun h => { h with rdclFlags := 0 }
    { rtt with rttClhead := (rtt.rttClhead.setNext (.item rth) none).setBack (.item rth) none }
  else rtt

/-- The body of `RDX_DEBUG_START` in `std_radix_insert`; the first component is
the early return. -/
def insertDebug (rtt : Rtt) (rth : HeadId) (bitlen : Nat) : Bool × Rtt :=
  if rtt.rttDebug then
    let rtt := rtt.writeHead rth fun h => { h with rthRtn := none, rthVersion := 0 }
    let rtt := clearLinks rtt rth
    (bitlen > rtt.rttMaxaddrlen, rtt)
  else (false, rtt)

/-- The branch of `std_radix_insert` for a node `rtn` with the right bit. -/
def insertAttach (rtt : Rtt) (rth : HeadId) (rtn : NodeId) (n : RtNode) :
    Except Fault (Option HeadId × Rtt) :=
  if !n.marked && n.rtnRth.isSome then return (n.rtnRth, rtt)
  else do
    let rtt := rtt.releaseHead n.rtnRth
    let rtt ← rtt.write rtn fun n => { n with rtnRth := some rth }
    let rtt := rtt.writeHead rth fun h => { h with rthRtn := some rtn }
    let rtt ← rtt.write rtn fun n => { n with rtnFlags := n.rtnFlags &&& ~~~ deleBit }
    return (some rth, rtt.addRoute)

/-- The new node `add` becomes a child of `rtn`. -/
def insertBelow (rtt : Rtt) (rth : HeadId) (addr : Addr) (bitlen dbit : Nat) (rtn add : NodeId) :
    Except Fault (Option HeadId × Rtt) := do
  check (dbit < bitlen)
  let rtt ← rtt.write add fun a => { a with rtnParent := some rtn }
  let n ← rtt.node rtn
  let rtt ←
    if bitTest (addr (rnByte n.rtnBit)) n.rtnTbit then do
      check (n.rtnRight = none)
      rtt.write rtn fun n => { n with rtnRight := some add }
    else do
      check (n.rtnLeft = none)
      rtt.write rtn fun n => { n with rtnLeft := some add }
  return (some rth, rtt.addRoute)

/-- The end of `std_radix_insert`: `new` takes the place of `rtn` under `prev`. -/
def insertAbove (rtt : Rtt) (rth : HeadId) (rtn new : NodeId) (prev : Option NodeId) :
    Except Fault (Option HeadId × Rtt) := do
  let rtt ← rtt.write rtn fun n => { n with rtnParent := some new }
  let n ← rtt.node rtn
  let rtt ← rtt.write new fun m => { m with rtnVersion := n.rtnVersion }
  let rtt ← rtt.write new fun m => { m with rtnParent := prev }
  let rtt ← rtt.replaceChild prev rtn (some new) true
  return (some rth, rtt.addRoute)

/-- The part of `std_radix_insert` after its two loops: the tree parts from the
key at `dbit`, and the node for it is at, below or above `rtn`. `hisAddr` is
the key that was compared. -/
def insertAt (rtt : Rtt) (rth : HeadId) (addr hisAddr : Addr) (bitlen dbit : Nat) (rtn : NodeId)
    (prev add new : Option NodeId) : Except Fault (Option HeadId × Rtt) := do
  let n ← rtt.node rtn
  if dbit = bitlen ∧ n.rtnBit = bitlen then insertAttach rtt rth rtn n
  else
    match add with
    | none => return (none, rtt)
    | some add =>
      let rtt := rtt.addNode add (.ofBit bitlen (some rth))
      let rtt := rtt.writeHead rth fun h => { h with rthRtn := some add }
      if n.rtnBit = dbit then insertBelow rtt rth addr bitlen dbit rtn add
      else if dbit = bitlen then
        let rtt ←
          if bitTest (hisAddr (rnByte bitlen)) (rnBit bitlen) then
            rtt.write add fun a => { a with rtnRight := some rtn }
          else rtt.write add fun a => { a with rtnLeft := some rtn }
        insertAbove rtt rth rtn add prev
      else
        match new with
        | none => return (none, rtt.freeNode add)
        | some new =>
          let rtt := rtt.addNode new (.ofBit dbit none)
          let rtt ← rtt.write add fun a => { a with rtnParent := some new }
          let rtt ←
            if bitTest (addr (rnByte dbit)) (rnBit dbit) then
              rtt.write new fun m => { m with rtnRight := some add, rtnLeft := some rtn }
            else rtt.write new fun m => { m with rtnLeft := some add, rtnRight := some rtn }
          insertAbove rtt rth rtn new prev

/-- `std_radix_insert` from a non-empty tree on; `addr` is the key of `rth`. -/
def insertInto (rtt : Rtt) (rth : HeadId) (addr : Addr) (bitlen : Nat) (root : NodeId)
    (add new : Option NodeId) : Except Fault (Option HeadId × Rtt) := do
  let rtn ← rtt.descend addr (fun n => n.rtnBit < bitlen || n.rtnRth = none) pathFuel root
  let n ← rtt.node rtn
  let bits2chk := min n.rtnBit bitlen
  let hisAddr ← rtt.headAddr (← deref n.rtnRth)
  let dbit ← firstDiff addr hisAddr bits2chk diffFuel 0
  let dbit := if dbit > bits2chk then bits2chk else dbit
  let (rtn, prev) ← rtt.climbWhile (fun p => p.rtnBit ≥ dbit) pathFuel rtn
  insertAt rtt rth addr hisAddr bitlen dbit rtn prev add new

/-- What the allocations of one call give: the memory for the key, the node of
the head, the branching node above it. -/
structure Allocs where
  key : Option Addr
  add : Option NodeId
  new : Option NodeId

/-- `std_radix_insert` from `rtt_ninserts++` on. -/
def insertTree (rtt : Rtt) (rth : HeadId) (bitlen : Nat) (mem : Allocs) :
    Except Fault (Option HeadId × Rtt) := do
  let rtt := rtt.countInsert
  match rtt.rttRoot with
  | none =>
    match mem.add with
    | none => return (none, rtt)
    | some rtn =>
      let rtt := rtt.addNode rtn (.ofBit bitlen (some rth))
      let rtt := rtt.writeHead rth fun h => { h with rthRtn := some rtn }
      return (some rth, (rtt.setRoot (some rtn)).addRoute)
  | some root =>
    let addr ← rtt.headAddr rth
    insertInto rtt rth addr bitlen root mem.add mem.new

/-- `std_radix_insert`. -/
def stdRadixInsert (rtt : Rtt) (rth : HeadId) (bitlen : Nat) (mem : Allocs) :
    Except Fault (Option HeadId × Rtt) := do
  let (keyed, rtt) ← insertKey rtt rth mem.key
  if !keyed then return (none, rtt)
  else
    rtt.validateHandle
    let (early, rtt) := insertDebug rtt rth bitlen
    if early then return (none, rtt) else insertTree rtt rth bitlen mem

/-! ## `std_radix_remove` -/

/-- Where the version walk is to go on after a removal. -/
inductive WalkDir
  | walkDown
  | walkUp
  | walkRight
  deriving DecidableEq, Repr

/-- The end of `_std_radix_remove`: a node with one child goes, and the child
moves up. -/
def removeBrancher (rtt : Rtt) (rn : NodeId) :
    Except Fault (Option NodeId × Option WalkDir × Rtt) := do
  let n ← rtt.node rn
  check (n.rtnLock = 0)
  check (n.rtnLeft = none ∨ n.rtnRight = none)
  let prev := n.rtnParent
  let (next, ret, dir) := match n.rtnLeft with
    | some left => (some left, prev, WalkDir.walkRight)
    | none => (n.rtnRight, n.rtnRight, WalkDir.walkDown)
  let rtt ← rtt.write (← deref next) fun m => { m with rtnParent := prev }
  let rtt ← rtt.replaceChild prev rn next false
  return (ret, some dir, (rtt.releaseHead n.rtnRth).freeNode rn)

/-- `_std_radix_remove`: the node to go on from, the direction if one is set,
and the table. -/
def stdRadixRemoveNode (rtt : Rtt) (rn : NodeId) :
    Except Fault (Option NodeId × Option WalkDir × Rtt) := do
  let n ← rtt.node rn
  check (n.rtnLock = 0)
  let rtt := rtt.dropRoute
  if n.rtnLeft.isSome ∧ n.rtnRight.isSome then
    let rtt := rtt.releaseHead n.rtnRth
    let rtt ← rtt.write rn fun n => { n with rtnRth := none }
    return (n.rtnParent, some .walkUp, rtt)
  else if n.rtnLeft = none ∧ n.rtnRight = none then
    let rtt := (rtt.releaseHead n.rtnRth).freeNode rn
    match n.rtnParent with
    | none => return (none, none, rtt.setRoot none)
    | some prev =>
      let p ← rtt.node prev
      let dir := if p.rtnLeft = some rn then WalkDir.walkRight else .walkUp
      let rtt ← rtt.replaceChild (some prev) rn none false
      if p.rtnRth.isSome then return (some prev, some dir, rtt) else removeBrancher rtt prev
  else removeBrancher rtt rn

/-- `std_radix_remove`. -/
def stdRadixRemove (rtt : Rtt) (rth : HeadId) : Except Fault Rtt := do
  rtt.validateHandle
  let rtt := rtt.countRemove
  let rn ← deref (rtt.heads rth).rthRtn
  let n ← rtt.node rn
  if n.rtnLock ≠ 0 then
    let rtt ← rtt.write rn fun n => { n with rtnFlags := n.rtnFlags ||| deleBit }
    check (rtt.rttRmfree = true)
    return rtt
  else
    let (_, _, rtt) ← stdRadixRemoveNode rtt rn
    if rtt.rttRadicalused && rtt.rttClhead.islinked (.item rth) then
      let cl ← rtt.rttClhead.remove (.item rth)
      return { rtt with rttClhead := cl }.writeHead rth fun h =>
        { h with rdclFlags := h.rdclFlags &&& ~~~ rdclIncl }
    else return rtt

end SonicUtils.Radix
