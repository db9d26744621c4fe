import SonicUtils.Radix.Walk

/-!
# Change lists

`std_radical.c`: the heads of a table that have changed, in the order of their
versions, and the markers of those who walk them. A marker is a head with
`RDCL_DUMMY`. `lcnt` is left out, which is counted down and never read, and so
are the functions that only look at a list.
-/

namespace SonicUtils.Radical

open Radix LinkedList Loop

/-- `RDCL_DUMMY`. -/
def rdclDummy : UInt32 := 2

/-- `rdcl_flags & RDCL_INCL`. -/
def included (h : RtHead) : Bool := h.rdclFlags &&& rdclIncl ≠ 0

/-- `RDCL_ISDUMMY`. -/
def isDummy (h : RtHead) : Bool := h.rdclFlags &&& rdclDummy ≠ 0

/-- `RDCL_SETDUMMY`. -/
def setDummy (rtt : Rtt) (dummy : HeadId) : Rtt :=
  rtt.writeHead dummy fun h => { h with rdclFlags := h.rdclFlags ||| rdclDummy }

/-- `RDCL_CLRDUMMY`. -/
def clrDummy (rtt : Rtt) (dummy : HeadId) : Rtt :=
  rtt.writeHead dummy fun h => { h with rdclFlags := h.rdclFlags &&& ~~~ rdclDummy }

/-- `rdcl_flags |= RDCL_INCL`. -/
def setIncl (rtt : Rtt) (rth : HeadId) : Rtt :=
  rtt.writeHead rth fun h => { h with rdclFlags := h.rdclFlags ||| rdclIncl }

def setVersion (rtt : Rtt) (rth : HeadId) (ver : Version) : Rtt :=
  rtt.writeHead rth fun h => { h with rthVersion := ver }

/-- `std_dll_islinked(&rth->rdcl_cl)`. -/
def linked (rtt : Rtt) (rth : HeadId) : Bool := rtt.rttClhead.islinked (.item rth)

def setList (rtt : Rtt) (cl : Dll HeadId) : Rtt := { rtt with rttClhead := cl }

/-- An operation on the list itself. -/
def relist (rtt : Rtt) (f : Dll HeadId → Except Fault (Dll HeadId)) : Except Fault Rtt := do
  return setList rtt (← f rtt.rttClhead)

/-- `std_dll_remove` of a head. -/
def unlink (rtt : Rtt) (rth : HeadId) : Except Fault Rtt := relist rtt fun cl => cl.remove (.item rth)

def unlinkIf (cond : Bool) (rtt : Rtt) (rth : HeadId) : Except Fault Rtt :=
  if cond then unlink rtt rth else return rtt

/-- `rtt_radicalinuse` goes up or down. -/
def inUse (rtt : Rtt) (by_ : Int) : Rtt := { rtt with rttRadicalinuse := rtt.rttRadicalinuse + by_ }

/-- `RDCL_HEADFROMDLL(std_dll_getnext(&rtt->rtt_clhead, &rth->rdcl_cl))`. -/
def next (rtt : Rtt) (rth : HeadId) : Option HeadId :=
  match rtt.rttClhead.getnext (.item rth) with
  | some (.item next) => some next
  | _ => none

/-- `std_radical_walkconstructor`. -/
def stdRadicalWalkconstructor (rtt : Rtt) (dummy : HeadId) : Except Fault Rtt := do
  let rtt ← unlinkIf (isDummy (rtt.heads dummy) && linked rtt dummy) rtt dummy
  let rtt ← relist (setDummy rtt dummy) fun cl => cl.insertatfront (.item dummy)
  return inUse (setVersion rtt dummy 0) 1

/-- `std_radical_walkconstructorafter`. -/
def stdRadicalWalkconstructorafter (rtt : Rtt) (after dummy : HeadId) : Except Fault Rtt := do
  check (isDummy (rtt.heads after))
  check (linked rtt after)
  let rtt ← unlinkIf (linked rtt dummy) rtt dummy
  let rtt ← relist (setDummy rtt dummy) fun cl => cl.insertafter (.item after) (.item dummy)
  return inUse (setVersion rtt dummy (rtt.heads after).rthVersion) 1

/-- `std_radical_walkdestructor`. -/
def stdRadicalWalkdestructor (rtt : Rtt) (dummy : HeadId) : Except Fault Rtt := do
  let rtt := clrDummy rtt dummy
  let rtt ← unlinkIf (linked rtt dummy) rtt dummy
  return inUse rtt (-1)

/-- `std_radical_appendtochangelist`. -/
def stdRadicalAppendtochangelist (rtt : Rtt) (rth : HeadId) : Except Fault (Version × Rtt) := do
  check ((rtt.heads rth).rthRtn.isSome)
  check (included (rtt.heads rth) → linked rtt rth)
  let rtt ← unlinkIf (included (rtt.heads rth)) rtt rth
  let rtt ← relist rtt fun cl => cl.insertatback (.item rth)
  let rtt := setIncl rtt rth
  let ver := rtt.rttVersion + 1
  let rtt := setVersion { rtt with rttVersion := ver } rth ver
  return (ver, if ver = 0 then { rtt with rttNwraps := rtt.rttNwraps + 1 } else rtt)

/-! ## `std_radical_walkchangelist` -/

/-- The variables of a walk. -/
structure ListWalk where
  tRth : Option HeadId
  maxnodes : Int32
  rtt : Rtt

/-- What ends a walk, or interrupts it: the call of `walk_fn` for a head, which has
the version `ver`. -/
inductive Stop
  | call (rth : HeadId) (ver : Version) (w : ListWalk)
  | done (rtt : Rtt)

/-- A turn of the loop up to the call of `walk_fn`, and what comes after the loop if
this turn ends it. -/
def beforeCall (dummy : HeadId) (maxVer : Version) (w : ListWalk) : Except Fault (ListWalk ⊕ Stop) := do
  match w.tRth with
  | none =>
    let rtt := setVersion w.rtt dummy w.rtt.rttVersion
    return .inr (.done (← relist rtt fun cl => cl.insertatback (.item dummy)))
  | some rth =>
    let ver := (w.rtt.heads rth).rthVersion
    if isDummy (w.rtt.heads rth) then return .inl { w with tRth := next w.rtt rth }
    else if ver > maxVer then
      -- with `setMaxVer`, as is every end of the loop where `t_rth` is not NULL
      let rtt := setVersion w.rtt dummy maxVer
      return .inr (.done (← relist rtt fun cl => cl.insertbefore (.item rth) (.item dummy)))
    else
      let rtt ← relist w.rtt fun cl => cl.insertafter (.item rth) (.item dummy)
      return .inr (.call rth ver { w with rtt := rtt })

/-- The turn after `walk_fn` has returned `cbretval` for `rth`. -/
def afterCall (dummy rth : HeadId) (ver : Version) (cbretval : Int32) (maxnodes : Int32) (rtt : Rtt) :
    Except Fault (ListWalk ⊕ Rtt) := do
  let rtt := if cbretval ≥ 0 then setVersion rtt dummy ver else rtt
  if cbretval ≠ 0 then
    if cbretval < 0 then
      check (linked rtt rth)
      let rtt ← unlink rtt dummy
      return .inr (← relist rtt fun cl => cl.insertbefore (.item rth) (.item dummy))
    else return .inr rtt
  else
    let maxnodes := maxnodes - 1
    if maxnodes = 0 then return .inr rtt
    else
      let tRth := next rtt dummy
      return .inl ⟨tRth, maxnodes, ← unlink rtt dummy⟩

/-- A callback of `std_radical_walkchangelist`. -/
abbrev ListFn := HeadId → Rtt → Except Fault (Int32 × Rtt)

/-- One turn of the loop; `*cbretval` is kept. -/
def listTurn (dummy : HeadId) (maxVer : Version) (walkFn : ListFn) (s : Int32 × ListWalk) :
    Except Fault ((Int32 × ListWalk) ⊕ (Int32 × Rtt)) := do
  match ← beforeCall dummy maxVer s.2 with
  | .inl w => return .inl (s.1, w)
  | .inr (.done rtt) => return .inr (s.1, rtt)
  | .inr (.call rth ver w) =>
    let (cbretval, rtt) ← walkFn rth w.rtt
    match ← afterCall dummy rth ver cbretval w.maxnodes rtt with
    | .inl w => return .inl (cbretval, w)
    | .inr rtt => return .inr (cbretval, rtt)

/-- `std_radical_walkchangelist` up to its loop. -/
def listStart (rtt : Rtt) (dummy : HeadId) (maxnodes : Int32) : Except Fault ListWalk := do
  check (isDummy (rtt.heads dummy))
  check (linked rtt dummy)
  let maxnodes := if maxnodes = 0 then 0xffffffff else maxnodes
  let tRth := next rtt dummy
  return ⟨tRth, maxnodes, ← unlink rtt dummy⟩

/-- `std_radical_walkchangelist`: `*cbretval` and the table. -/
def stdRadicalWalkchangelist (rtt : Rtt) (dummy : HeadId) (walkFn : ListFn) (maxnodes : Int32)
    (maxVer : Version) (fuel : Nat) : Except Fault (Int32 × Rtt) := do
  loop .noReturn (listTurn dummy maxVer walkFn) fuel (0, ← listStart rtt dummy maxnodes)

end SonicUtils.Radical
