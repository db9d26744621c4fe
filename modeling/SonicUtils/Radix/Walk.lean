import SonicUtils.Lib.Loop
import SonicUtils.Radix.Update
import SonicUtils.WalkCount

/-!
# Walks of a radix table

`std_radix_walk`, `std_radix_versionwalk` and `std_radix_setversion`, the power
walk macros, and the iteration of `std_radix_getnext`. The user's parts of these
are arguments. What a walk is asked about is the heads that it hands out, so
they are listed.
-/

namespace SonicUtils.Radix

open Loop

/-- A `walk_fn`: what it returns, and the table that it leaves. -/
abbrev WalkFn := HeadId → Rtt → Except Fault (Int × Rtt)

/-- The variables of a walk, with the heads that `walk_fn` has been called with
so far. -/
structure Walk where
  lcnt : UInt64
  dir : WalkDir
  rtn : Option NodeId
  rtt : Rtt
  calls : List HeadId

namespace Walk

/-- The call of `walk_fn`. -/
def call (w : Walk) (walkFn : WalkFn) (rth : HeadId) : Except Fault Walk := do
  let (stop, rtt) ← walkFn rth w.rtt
  return { w with lcnt := if stop ≠ 0 then 0 else w.lcnt, rtt := rtt, calls := w.calls ++ [rth] }

/-- `RDXUSERCALLBACK`. -/
def userCallback (w : Walk) (walkFn : Option WalkFn) (rth : HeadId) : Except Fault Walk :=
  let w := { w with lcnt := w.lcnt - 1 }
  match walkFn with
  | none => return w
  | some walkFn => w.call walkFn rth

/-- The end of `RDX_WALKDOWN`; `n` is `*rtn`. -/
def goDown (w : Walk) (n : RtNode) : Walk :=
  match n.rtnLeft with
  | some left => { w with rtn := some left }
  | none => { w with dir := .walkRight }

/-- `RDX_WALKRIGHT`. -/
def goRight (w : Walk) (n : RtNode) : Walk :=
  match n.rtnRight with
  | none => { w with dir := .walkUp }
  | some right => { w with dir := .walkDown, rtn := some right }

end Walk

/-- Where a walk from `rth` starts; `none` is the return of NULL at once. -/
def walkStart (rtt : Rtt) (rth : Option HeadId) (cnt : Int32) : Option Walk :=
  match rth with
  | none => some ⟨walkCount cnt, .walkDown, rtt.rttRoot, rtt, []⟩
  | some rth =>
    match (rtt.heads rth).rthRtn with
    | none => none
    | some rtn => some ⟨walkCount cnt, .walkRight, some rtn, rtt, []⟩

/-! ## `std_radix_walk` -/

/-- One turn of the loop of `std_radix_walk`, which returns a head and, in this
model, the variables. -/
def walkTurn (walkFn : Option WalkFn) (w : Walk) : Except Fault (Walk ⊕ (Option HeadId × Walk)) :=
  match w.rtn with
  | none => return .inr (none, w)
  | some rtn => do
    let n ← w.rtt.node rtn
    if w.lcnt = 0 then return .inr (n.rtnRth, w)
    else
      match w.dir with
      | .walkDown =>
        let w ←
          match n.rtnRth with
          | none => pure w
          | some rth => w.userCallback walkFn rth
        return .inl (w.goDown (← w.rtt.node rtn))
      | .walkRight => return .inl (w.goRight n)
      | .walkUp =>
        match n.rtnParent with
        | none => return .inr (none, w)
        | some parent =>
          let p ← w.rtt.node parent
          return .inl { w with
            rtn := some parent, dir := if p.rtnLeft = some rtn then .walkRight else .walkUp }

/-- `std_radix_walk`. -/
def stdRadixWalk (rtt : Rtt) (rth : Option HeadId) (walkFn : Option WalkFn) (cnt : Int32) (fuel : Nat) :
    Except Fault (Option HeadId × List HeadId × Rtt) := do
  rtt.validateHandle
  match walkStart rtt rth cnt with
  | none => return (none, [], rtt)
  | some w =>
    let (res, w) ← loop .noReturn (walkTurn walkFn) fuel w
    return (res, w.calls, w.rtt)

/-! ## `std_radix_versionwalk` -/

/-- `RN_LOCK`. -/
def rnLock (n : RtNode) : RtNode := { n with rtnLock := n.rtnLock + 1 }

/-- `RN_UNLOCK`. -/
def rnUnlock (n : RtNode) : RtNode := { n with rtnLock := n.rtnLock - 1 }

/-- The call for the head of `rtn`, if it has one, its version is in the range
and `walk_fn` is not NULL. -/
def versionVisit (walkFn : Option WalkFn) (minVer maxVer : Version) (w : Walk) (rtn : NodeId)
    (n : RtNode) : Except Fault Walk :=
  match n.rtnRth, walkFn with
  | some rth, some walkFn =>
    let v := (w.rtt.heads rth).rthVersion
    if minVer ≤ v ∧ v ≤ maxVer then do
      let rtt ← w.rtt.write rtn rnLock
      let w ← { w with lcnt := w.lcnt - 1, rtt := rtt }.call walkFn rth
      let rtt ← w.rtt.write rtn rnUnlock
      return { w with rtt := rtt }
    else return w
  | _, _ => return w

/-- `!RN_IFLOCK(y) && RDX_TEST_BIT(y->rtn_flags, RDX_RN_DELE_BIT)`. -/
def RtNode.removable (n : RtNode) : Bool := n.rtnLock = 0 && n.marked

/-- One turn of the loop of `std_radix_versionwalk`. -/
def versionTurn (walkFn : Option WalkFn) (minVer maxVer : Version) (w : Walk) :
    Except Fault (Walk ⊕ Walk) :=
  match w.rtn with
  | none => return .inr w
  | some rtn => do
    let n ← w.rtt.node rtn
    if w.lcnt = 0 then return .inr w
    else
      match w.dir with
      | .walkDown =>
        if n.rtnVersion < minVer then return .inl { w with dir := .walkUp }
        else
          let w ← versionVisit walkFn minVer maxVer w rtn n
          return .inl (w.goDown (← w.rtt.node rtn))
      | .walkRight => return .inl (w.goRight n)
      | .walkUp =>
        if n.removable then
          let (next, dir, rtt) ← stdRadixRemoveNode w.rtt rtn
          return .inl { w with rtn := next, dir := dir.getD w.dir, rtt := rtt }
        else
          match n.rtnParent with
          | none => return .inl { w with rtn := none, dir := .walkUp }
          | some parent =>
            let p ← w.rtt.node parent
            return .inl { w with
              rtn := some parent, dir := if p.rtnLeft = some rtn then .walkRight else .walkUp }

/-- The `do` loop at the end of `std_radix_versionwalk`, from `y` up. -/
def versionClimbTurn (s : Option NodeId × Rtt) : Except Fault ((Option NodeId × Rtt) ⊕ Rtt) :=
  match s with
  | (none, rtt) => return .inr rtt
  | (some y, rtt) => do
    let n ← rtt.node y
    if n.removable then
      let (next, _, rtt) ← stdRadixRemoveNode rtt y
      return .inl (next, rtt)
    else return .inl (n.rtnParent, rtt)

/-- `std_radix_versionwalk`. -/
def stdRadixVersionwalk (rtt : Rtt) (rth : Option HeadId) (walkFn : Option WalkFn) (cnt : Int32)
    (minVer maxVer : Version) (fuel : Nat) : Except Fault (Option HeadId × List HeadId × Rtt) := do
  rtt.validateHandle
  match walkStart rtt rth cnt with
  | none => return (none, [], rtt)
  | some w =>
    let w ← loop .noReturn (versionTurn walkFn minVer maxVer) fuel w
    match w.rtn with
    | none => return (none, w.calls, w.rtt)
    | some rtn =>
      let rtt ← loop .noReturn versionClimbTurn fuel (some rtn, w.rtt)
      return ((← rtt.node rtn).rtnRth, w.calls, rtt)

/-- The loop of `std_radix_setversion`. -/
def raiseTurn (ver : Version) (s : Option NodeId × Rtt) :
    Except Fault ((Option NodeId × Rtt) ⊕ Rtt) :=
  match s with
  | (none, rtt) => return .inr rtt
  | (some rtn, rtt) => do
    let rtt ← rtt.write rtn fun n => { n with rtnVersion := ver }
    return .inl ((← rtt.node rtn).rtnParent, rtt)

/-- `std_radix_setversion`. -/
def stdRadixSetversion (rtt : Rtt) (rth : HeadId) (fuel : Nat) : Except Fault (Version × Rtt) := do
  rtt.validateHandle
  let rtn ← deref (rtt.heads rth).rthRtn
  let ver := rtt.rttVersion + 1
  let rtt := { rtt with rttVersion := ver }.writeHead rth fun h => { h with rthVersion := ver }
  let rtt ← loop .noReturn (raiseTurn ver) fuel (some rtn, rtt)
  return (ver, if ver = 0 then { rtt with rttNwraps := rtt.rttNwraps + 1 } else rtt)

/-! ## The power walk -/

/-- The inner loop of `std_radix_powerwalkend`. -/
def powerClimb (rtt : Rtt) (root : NodeId) : Nat → NodeId → Except Fault NodeId
  | 0, _ => throw .noReturn
  | fuel + 1, rtn =>
    if rtn = root then return rtn
    else do
      let n ← rtt.node rtn
      match n.rtnParent with
      | none => return rtn
      | some parent =>
        let p ← rtt.node parent
        match p.rtnRight with
        | none => powerClimb rtt root fuel parent
        | some right => if right = rtn then powerClimb rtt root fuel parent else return right

/-- `std_radix_powerwalkend` from a node to the next one. -/
def powerNext (rtt : Rtt) (root rtn : NodeId) : Except Fault NodeId := do
  let n ← rtt.node rtn
  match n.rtnLeft, n.rtnRight with
  | some left, _ => return left
  | none, some right => return right
  | none, none => powerClimb rtt root Rtt.pathFuel rtn

/-- One turn of `do … while (t_rtn != root)`; a head is handed to the code
between the macros unless its node is marked. -/
def powerTurn (rtt : Rtt) (root : NodeId) (s : NodeId × List HeadId) :
    Except Fault ((NodeId × List HeadId) ⊕ List HeadId) := do
  let (rtn, calls) := s
  let n ← rtt.node rtn
  let calls :=
    match n.rtnRth with
    | none => calls
    | some rth => if n.marked then calls else calls ++ [rth]
  let next ← powerNext rtt root rtn
  if next = root then return .inr calls else return .inl (next, calls)

/-- The climb that says whether `tt_rtn` is in the subtree of `root`. -/
def inSubtree (rtt : Rtt) (root : NodeId) : Nat → Option NodeId → Except Fault Bool
  | _, none => return false
  | 0, some _ => throw .noReturn
  | fuel + 1, some rtn =>
    if rtn = root then return true else do inSubtree rtt root fuel (← rtt.node rtn).rtnParent

/-- The two macros, when `rootaddr` has led to `root` and `nextaddr` to `next`;
if both are 0, these are `rtt_root`. -/
def powerWalk (rtt : Rtt) (root next : Option NodeId) (fuel : Nat) : Except Fault (List HeadId) :=
  match root, next with
  | some root, some next => do
    if ← inSubtree rtt root Rtt.pathFuel (some next) then
      loop .noReturn (powerTurn rtt root) fuel (next, [])
    else return []
  | _, _ => return []

/-! ## The iteration of `std_radix_getnext` -/

/-- From a head to what `std_radix_getnext` returns for its address and length. -/
def iterateTurn (s : Option HeadId × List HeadId × Rtt) :
    Except Fault ((Option HeadId × List HeadId × Rtt) ⊕ List HeadId) :=
  match s with
  | (none, calls, _) => return .inr calls
  | (some rth, calls, rtt) => do
    let n ← rtt.node (← deref (rtt.heads rth).rthRtn)
    let (next, rtt) ← stdRadixGetnext rtt (rtt.heads rth).rthAddr n.rtnBit
    return .inl (next, calls ++ [rth], rtt)

/-- All heads from `std_radix_getnext(NULL)` on; `bitlen` is what it is given. -/
def iterateGetnext (rtt : Rtt) (bitlen : Nat) (fuel : Nat) : Except Fault (List HeadId) := do
  let (first, rtt) ← stdRadixGetnext rtt none bitlen
  loop .noReturn iterateTurn fuel (first, [], rtt)

end SonicUtils.Radix
