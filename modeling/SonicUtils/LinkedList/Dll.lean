import Mathlib.Logic.Function.Basic
import SonicUtils.Fault
import SonicUtils.Lib.Loop

/-!
# Doubly linked lists

`std_dll` and `std_dll_head` of `std_llist.c`. A list head has two nodes of
its own, `head` and `tail`; the others are embedded in the items. `dll_magic`
is left out, which only a debug build reads; `compare` is an argument.
-/

namespace SonicUtils.LinkedList

/-- A pointer to a `std_dll`. -/
inductive DllRef (ι : Type)
  | head
  | tail
  | item (i : ι)
  deriving DecidableEq, Repr

/-- A `std_dll_head` together with the `std_dll` nodes of all the items that
may be on it. -/
structure Dll (ι : Type) where
  dllNext : DllRef ι → Option (DllRef ι)
  dllBack : DllRef ι → Option (DllRef ι)

namespace Dll

variable {ι : Type} [DecidableEq ι]

def setNext (d : Dll ι) (at_ : DllRef ι) (p : Option (DllRef ι)) : Dll ι :=
  { d with dllNext := Function.update d.dllNext at_ p }

def setBack (d : Dll ι) (at_ : DllRef ι) (p : Option (DllRef ι)) : Dll ι :=
  { d with dllBack := Function.update d.dllBack at_ p }

/-- `std_dll_init`, on zero-filled items. -/
def init : Dll ι where
  dllNext r := if r = .head then some .tail else none
  dllBack r := if r = .tail then some .head else none

/-- `std_dll_init`, whatever the items hold. -/
def initHead (d : Dll ι) : Dll ι :=
  (((d.setNext .head (some .tail)).setBack .head none).setBack .tail (some .head)).setNext .tail none

def getfirst (d : Dll ι) : Option (DllRef ι) :=
  if d.dllNext .head ≠ some .tail then d.dllNext .head else none

def getlast (d : Dll ι) : Option (DllRef ι) :=
  if d.dllBack .tail ≠ some .head then d.dllBack .tail else none

def getnext (d : Dll ι) (after : DllRef ι) : Option (DllRef ι) :=
  if d.dllNext after ≠ some .tail then d.dllNext after else none

def getprev (d : Dll ι) (before : DllRef ι) : Option (DllRef ι) :=
  if d.dllBack before ≠ some .head then d.dllBack before else none

/-- `std_dll_islinked`. -/
def islinked (d : Dll ι) (item : DllRef ι) : Bool :=
  (d.dllNext item).isSome && (d.dllBack item).isSome

def insertafter (d : Dll ι) (after new : DllRef ι) : Except Fault (Dll ι) := do
  let d := d.setNext new (d.dllNext after)
  let d := d.setBack new (some after)
  let next ← deref (d.dllNext after)
  let d := d.setBack next (some new)
  return d.setNext after (some new)

def insertbefore (d : Dll ι) (before new : DllRef ι) : Except Fault (Dll ι) := do
  let d := d.setNext new (some before)
  let d := d.setBack new (d.dllBack before)
  let back ← deref (d.dllBack before)
  let d := d.setNext back (some new)
  return d.setBack before (some new)

/-- The writes are those of `insertafter` at the first node. -/
def insertatfront (d : Dll ι) (new : DllRef ι) : Except Fault (Dll ι) := d.insertafter .head new

/-- The writes are those of `insertbefore` at the last node. -/
def insertatback (d : Dll ι) (new : DllRef ι) : Except Fault (Dll ι) := d.insertbefore .tail new

/-- One turn of the `while (true)` of `std_dll_insert`. -/
def insertTurn (d : Dll ι) (compare : DllRef ι → DllRef ι → Int) (new walk : DllRef ι) :
    Except Fault (DllRef ι ⊕ Dll ι) := do
  if d.dllNext walk = some .tail then return .inr (← d.insertafter walk new)
  else
    let next ← deref (d.dllNext walk)
    if compare new next < 0 then return .inr (← d.insertafter walk new)
    else return .inl next

/-- `std_dll_insert`; `compare` reads the keys of two items. -/
def insert (d : Dll ι) (compare : Option (DllRef ι → DllRef ι → Int)) (new : DllRef ι) (fuel : Nat) :
    Except Fault (Dll ι) :=
  match compare with
  | none => d.insertatback new
  | some compare =>
    if d.getfirst = none then d.insertatfront new
    else do
      let first ← deref (d.dllNext .head)
      if compare new first < 0 then d.insertatfront new
      else Loop.loop .noReturn (d.insertTurn compare new) fuel first

def remove (d : Dll ι) (item : DllRef ι) : Except Fault (Dll ι) := do
  let front ← deref (d.dllBack item)
  let back := d.dllNext item
  let d := d.setNext front back
  let back ← deref back
  let d := d.setBack back (some front)
  let d := d.setBack item none
  return d.setNext item none

end Dll

end SonicUtils.LinkedList
