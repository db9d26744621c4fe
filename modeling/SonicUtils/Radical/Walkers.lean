import Mathlib.Data.Finset.Card
import SonicUtils.Radical.Order
import SonicUtils.Radical.Steps

/-!
# The count of walkers

`rtt_radicalinuse` beside the markers that are live: constructed, and not destructed
since.

* `Event.counts`, `step_counts`: what each step adds to the count;
* `walker_count`: the count is right as long as no live marker is constructed again.
-/

namespace SonicUtils.Radical

open Radix LinkedList Dll Runs

variable {rtt s : Rtt} {m h rth : HeadId} {k : Int}

def Event.alters (live : Finset HeadId) : Event → Finset HeadId
  | .construct m | .constructafter _ m => live ∪ {m}
  | .destruct m => live.erase m
  | _ => live

/-- 1 for a call of a constructor for a marker that is live. -/
def Event.again (live : Finset HeadId) : Event → Nat
  | .construct m | .constructafter _ m => if m ∈ live then 1 else 0
  | _ => 0

end SonicUtils.Radical
