import Mathlib.Order.Basic

/-!
# Counts of the walks

The walks of a radix table and of a red-black tree get the number of nodes to visit
as an `int`, where 0 stands for all, and count down from it.
-/

namespace SonicUtils

/-- `lcnt` for a `cnt` that is an `int`. -/
def walkCount (cnt : Int32) : UInt64 := if cnt = 0 then 0xffffffff else cnt.toInt64.toUInt64

theorem walkCount_ne_zero (cnt : Int32) : walkCount cnt ≠ 0 := by
  unfold walkCount
  split
  · decide
  · rename_i nonzero
    intro zero
    have wide : cnt.toInt64 = 0 := Int64.toBitVec_inj.mp (congrArg UInt64.toBitVec zero)
    apply nonzero
    apply Int32.toInt_inj.mp
    rw [← Int32.toInt_toInt64, wide]
    rfl

end SonicUtils
