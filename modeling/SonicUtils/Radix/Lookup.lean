import SonicUtils.Radix.Key

/-!
# Lookups in a radix table

`std_radix_getbest` and its two relatives, `std_radix_getexact` and
`std_radix_getnext`, with the loops that they share with one another and with
`std_radix_insert`.
-/

namespace SonicUtils.Radix

/-- `1 << RDX_RN_DELE_BIT`. -/
def deleBit : UInt8 := (1 : UInt8) <<< (1 : UInt8)

/-- `RDX_TEST_BIT` of `RDX_RN_DELE_BIT`. -/
def RtNode.marked (n : RtNode) : Bool := bitTest n.rtnFlags deleBit

namespace Rtt

/-- `rtn_bit` is a `ushort` that grows on every way down, so no way is longer. -/
def pathFuel : Nat := 2 ^ 16 + 1

/-- The searches down the tree, `while (more)`. -/
def descend (rtt : Rtt) (ap : Addr) (more : RtNode → Bool) : Nat → NodeId → Except Fault NodeId
  | 0, _ => throw .noReturn
  | fuel + 1, rtn => do
    let n ← rtt.node rtn
    if more n then
      if bitTest (ap (rnByte n.rtnBit)) n.rtnTbit then
        match n.rtnRight with
        | none => return rtn
        | some right => descend rtt ap more fuel right
      else
        match n.rtnLeft with
        | none => return rtn
        | some left => descend rtt ap more fuel left
    else return rtn

/-- The way back of `std_radix_getbest`. -/
def backtrack (rtt : Rtt) (addr : Addr) (bitlen : Nat) :
    Nat → Option NodeId → Except Fault (Option NodeId)
  | _, none => return none
  | 0, some _ => throw .noReturn
  | fuel + 1, some rtn => do
    let n ← rtt.node rtn
    if n.rtnBit > bitlen then backtrack rtt addr bitlen fuel n.rtnParent
    else
      match n.rtnRth with
      | none => backtrack rtt addr bitlen fuel n.rtnParent
      | some rth =>
        let his ← rtt.headAddr rth
        if rdxCompareAddress addr his (rnByte n.rtnBit) n.rtnTbit then
          backtrack rtt addr bitlen fuel n.rtnParent
        else return some rtn

/-- `while (rtn_prev && above(rtn_prev))`: where the climb ends, and its parent. -/
def climbWhile (rtt : Rtt) (above : RtNode → Bool) :
    Nat → NodeId → Except Fault (NodeId × Option NodeId)
  | 0, _ => throw .noReturn
  | fuel + 1, rtn => do
    let n ← rtt.node rtn
    match n.rtnParent with
    | none => return (rtn, none)
    | some prev =>
      let p ← rtt.node prev
      if above p then climbWhile rtt above fuel prev else return (rtn, some prev)

/-- The climb to the first node with a right child that we do not come from,
and to that child. `valid` is asserted of the nodes on the way, and those
`above` are passed by. -/
def climbRight (rtt : Rtt) (valid above : RtNode → Bool) :
    Nat → NodeId → Except Fault (Option NodeId)
  | 0, _ => throw .noReturn
  | fuel + 1, rtn => do
    let n ← rtt.node rtn
    match n.rtnParent with
    | none => return none
    | some prev =>
      let p ← rtt.node prev
      check (valid p)
      if above p || p.rtnRight = none || p.rtnRight = some rtn then
        climbRight rtt valid above fuel prev
      else return p.rtnRight

/-- One step of the preorder walk of `std_radix_getnext`. -/
def preorderNext (rtt : Rtt) (rtn : NodeId) : Except Fault (Option NodeId) := do
  let n ← rtt.node rtn
  match n.rtnLeft with
  | some left => return some left
  | none =>
    match n.rtnRight with
    | some right => return some right
    | none => rtt.climbRight (fun _ => true) (fun _ => false) pathFuel rtn

/-- The `for (;;)` of `std_radix_getnext`. -/
def firstRth (rtt : Rtt) : Nat → NodeId → Except Fault (Option HeadId)
  | 0, _ => throw .noReturn
  | fuel + 1, rtn => do
    let n ← rtt.node rtn
    match n.rtnRth with
    | some rth => return some rth
    | none =>
      match ← rtt.preorderNext rtn with
      | none => return none
      | some next => firstRth rtt fuel next

end Rtt

open Rtt

/-- `std_radix_getbest`. -/
def stdRadixGetbest (rtt : Rtt) (addr : Option Addr) (bitlen : Nat) :
    Except Fault (Option HeadId × Rtt) :=
  match addr with
  | none => return (none, rtt)
  | some addr => do
    let (addr, rtt) := rtt.convertKey addr
    rtt.validateHandle
    if rtt.rttDebug ∧ bitlen > rtt.rttMaxaddrlen then return (none, rtt)
    else
      match rtt.rttRoot with
      | none => return (none, rtt)
      | some rtn =>
        let rtn ← rtt.descend addr (fun n => n.rtnBit < bitlen) pathFuel rtn
        match ← rtt.backtrack addr bitlen pathFuel (some rtn) with
        | none => return (none, rtt)
        | some rtn =>
          let n ← rtt.node rtn
          return (if n.marked then none else n.rtnRth, rtt)

/-- The search for the second best in `std_radix_getbestandprev` and
`std_radix_getnextbest`, from the parent of the best one up. -/
def secondBest (rtt : Rtt) (addr : Addr) (bitlen : Nat) (rtn : Option NodeId) :
    Except Fault (Option HeadId) := do
  match ← rtt.backtrack addr bitlen pathFuel rtn with
  | none => return none
  | some rtn =>
    let n ← rtt.node rtn
    return if n.marked then none else n.rtnRth

/-- `std_radix_getbestandprev`: the result and what is written to `*lessbest`,
unless it returns before it writes. -/
def stdRadixGetbestandprev (rtt : Rtt) (addr : Option Addr) (bitlen : Nat) :
    Except Fault ((Option HeadId × Option (Option HeadId)) × Rtt) :=
  match addr with
  | none => return ((none, none), rtt)
  | some addr => do
    let (addr, rtt) := rtt.convertKey addr
    rtt.validateHandle
    if rtt.rttDebug ∧ bitlen > rtt.rttMaxaddrlen then return ((none, none), rtt)
    else
      match rtt.rttRoot with
      | none => return ((none, none), rtt)
      | some rtn =>
        let rtn ← rtt.descend addr (fun n => n.rtnBit < bitlen) pathFuel rtn
        match ← rtt.backtrack addr bitlen pathFuel (some rtn) with
        | none => return ((none, some none), rtt)
        | some rtn =>
          let n ← rtt.node rtn
          if n.marked then return ((none, some none), rtt)
          else return ((n.rtnRth, some (← secondBest rtt addr bitlen n.rtnParent)), rtt)

/-- `std_radix_getnextbest`. -/
def stdRadixGetnextbest (rtt : Rtt) (addr : Option Addr) (bitlen : Nat) :
    Except Fault (Option HeadId × Rtt) :=
  match addr with
  | none => return (none, rtt)
  | some addr => do
    let (addr, rtt) := rtt.convertKey addr
    rtt.validateHandle
    if rtt.rttDebug ∧ bitlen > rtt.rttMaxaddrlen then return (none, rtt)
    else
      match rtt.rttRoot with
      | none => return (none, rtt)
      | some rtn =>
        let rtn ← rtt.descend addr (fun n => n.rtnBit < bitlen) pathFuel rtn
        match ← rtt.backtrack addr bitlen pathFuel (some rtn) with
        | none => return (none, rtt)
        | some rtn =>
          let n ← rtt.node rtn
          if n.marked then return (none, rtt)
          else return (← secondBest rtt addr bitlen n.rtnParent, rtt)

/-- The body of `RDX_DEBUG_START` in `std_radix_getexact`, where NULL and
`rtt_convert` are looked at only if `rtt_debug` is set. The first component
is an early return. -/
def getexactDebug (rtt : Rtt) (addr : Option Addr) (bitlen : Nat) : Bool × Option Addr × Rtt :=
  if rtt.rttDebug then
    match addr with
    | none => (true, none, rtt)
    | some addr =>
      let (addr, rtt) := rtt.convertKey addr
      (bitlen > rtt.rttMaxaddrlen, some addr, rtt)
  else (false, addr, rtt)

/-- `std_radix_getexact`. A NULL that gets past the debug section is followed
at once, in the source by the first bit test. -/
def stdRadixGetexact (rtt : Rtt) (addr : Option Addr) (bitlen : Nat) :
    Except Fault (Option HeadId × Rtt) := do
  rtt.validateHandle
  let (early, addr, rtt) := getexactDebug rtt addr bitlen
  if early then return (none, rtt)
  else
    match rtt.rttRoot with
    | none => return (none, rtt)
    | some rtn =>
      let ap ← deref addr
      let rtn ← rtt.descend ap (fun n => n.rtnBit < bitlen) pathFuel rtn
      let n ← rtt.node rtn
      if n.rtnBit ≠ bitlen then return (none, rtt)
      else
        match n.rtnRth with
        | none => return (none, rtt)
        | some rth =>
          let his ← rtt.headAddr rth
          if rdxCompareAddress ap his (rnByte n.rtnBit) n.rtnTbit then return (none, rtt)
          else if n.marked then return (none, rtt)
          else return (some rth, rtt)

/-- The search of `std_radix_getnext` for a node that is after the given key,
`none` where it returns NULL at once. -/
def nextStart (rtt : Rtt) (ap : Addr) (bitlen : Nat) (rtn : NodeId) :
    Except Fault (Option NodeId) := do
  let rtn ← rtt.descend ap (fun n => n.rtnBit < bitlen || n.rtnRth = none) pathFuel rtn
  let n ← rtt.node rtn
  let bits2chk := min n.rtnBit bitlen
  let ap2 ← rtt.headAddr (← deref n.rtnRth)
  let dbit ← firstDiff ap ap2 bits2chk diffFuel 0
  if dbit ≥ bits2chk then
    if n.rtnBit ≤ bitlen then rtt.preorderNext rtn else return some rtn
  else if bitTest (ap (rnByte dbit)) (rnBit dbit) then
    rtt.climbRight (fun p => p.rtnBit ≠ dbit) (fun p => p.rtnBit > dbit) pathFuel rtn
  else
    let (rtn, _) ← rtt.climbWhile (fun p => p.rtnBit > dbit) pathFuel rtn
    return some rtn

/-- The end of `std_radix_getnext`, from where its search has led. -/
def rthFrom (rtt : Rtt) : Option NodeId → Except Fault (Option HeadId)
  | none => return none
  | some rtn => rtt.firstRth pathFuel rtn

/-- `std_radix_getnext`. -/
def stdRadixGetnext (rtt : Rtt) (dest : Option Addr) (bitlen : Nat) :
    Except Fault (Option HeadId × Rtt) := do
  let (dest, rtt) := match dest with
    | none => (none, rtt)
    | some ap => let (ap, rtt) := rtt.convertKey ap; (some ap, rtt)
  rtt.validateHandle
  if rtt.rttDebug ∧ bitlen > rtt.rttMaxaddrlen then return (none, rtt)
  else
    match rtt.rttRoot with
    | none => return (none, rtt)
    | some rtn =>
      let start ← match dest with
        | none => pure (some rtn)
        | some ap => nextStart rtt ap bitlen rtn
      return (← rthFrom rtt start, rtt)

end SonicUtils.Radix
