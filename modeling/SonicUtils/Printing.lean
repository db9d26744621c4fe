import SonicUtils.Radix.Nested
import SonicUtils.Radix.Print
import SonicUtils.RbTree.Ascending
import SonicUtils.RbTree.Print

/-!
# Printing stays inside its arrays

* `printing_iff`: for which red-black trees and which radix tables;
* `printing_outside`: not for all of those that are small enough to print.
-/

namespace SonicUtils.Printing

open Compare Runs

/-- **Printing stays inside the arrays**, and calls `print_fn` with stored data only: of a red-black tree
up to height 11, of a radix table up to height 85, and of what is too large to print. What
is printed of an empty red-black tree is in the memory that the table was created in. -/
theorem printing_iff {δ : Type} {compare : δ → δ → Int} {calls : List (RbTree.Call δ)} {rbtt : RbTree.Rbtt δ}
    (order : TotalPreorder compare) (run : Run RbTree.Step (RbTree.stdRbtreeCreate compare) calls rbtt)
    {rtt : Radix.Rtt} {t : Radix.RtTree} (rep : Radix.Represents rtt t) (ready : Radix.Ready rtt)
    (fits : rtt.rttMaxaddrlen ≤ 256) (maxprint : UInt64) :
    (∃ t, RbTree.Holds rbtt t ∧ ∀ junk rbtHeight, RbTree.PrintsInside rbtt t junk rbtHeight ↔
        200 < rbtt.rbttNuminodes ∨ (t = .nil → junk.rbtData = none) ∧ t.height ≤ 11) ∧
      (Radix.PrintsInside rtt maxprint ↔ maxprint < rtt.rttInodes ∨ t.height ≤ 85) := by
  obtain ⟨t', sound, _, none_⟩ := RbTree.run_sentinel order run
  exact ⟨⟨t', sound.holds, fun junk rbtHeight => RbTree.print_iff sound.magic sound.holds none_⟩,
    Radix.print_iff rep ready fits maxprint⟩

theorem printing_small : (∃ (rbtt : RbTree.Rbtt (UInt64 × Nat)) (t : RbTree.Cells (UInt64 × Nat)), RbTree.Holds rbtt t ∧
      ∀ junk rbtHeight, RbTree.PrintsInside rbtt t junk rbtHeight ↔
        200 < rbtt.rbttNuminodes ∨ (t = .nil → junk.rbtData = none) ∧ t.height ≤ 11) ∧
    ∃ t, Radix.Represents Radix.tenTable t ∧ (Radix.PrintsInside Radix.tenTable 500 ↔
      500 < Radix.tenTable.rttInodes ∨ t.height ≤ 85) := by
  have order : TotalPreorder (RbTree.Rbtt.stdRbtreeCompareUl (Prod.fst : UInt64 × Nat → UInt64)) := totalPreorder_threeWay _
  obtain ⟨rbtt, run⟩ := RbTree.exists_run_insert order [(2, 0), (1, 1), (2, 2)]
  obtain ⟨settled, t', rep, _⟩ := Radix.reachable_ten.stores
  obtain ⟨⟨t, holds, printed⟩, printed'⟩ := printing_iff order run rep settled.ready (by decide) 500
  exact ⟨⟨rbtt, t, holds, printed⟩, t', rep, printed'⟩

/-- The keys 0 to 125. -/
def keys : List UInt64 := (List.range 126).map UInt64.ofNat

theorem sorted_keys : keys.Pairwise fun a b => RbTree.Rbtt.stdRbtreeCompareUl id a b ≤ 0 := by
  rw [keys, List.pairwise_map]
  apply List.pairwise_lt_range.imp_of_mem
  intro a b ha hb less
  rw [List.mem_range] at ha hb
  have before : UInt64.ofNat a < UInt64.ofNat b := by
    rw [UInt64.lt_iff_toNat_lt, UInt64.toNat_ofNat', UInt64.toNat_ofNat']
    omega
  have compare : RbTree.Rbtt.stdRbtreeCompareUl id (UInt64.ofNat a) (UInt64.ofNat b) = -1 := by
    change threeWay (UInt64.ofNat a) (UInt64.ofNat b) = -1
    rw [threeWay, if_neg (UInt64.ne_of_lt before), if_pos before]
  rw [compare]
  decide

theorem tall_tree : ∃ (rbtt : RbTree.Rbtt UInt64) (t : RbTree.Cells UInt64),
    Run RbTree.Step (RbTree.stdRbtreeCreate (RbTree.Rbtt.stdRbtreeCompareUl id)) (keys.map fun key => .insert key true) rbtt ∧
      RbTree.Holds rbtt t ∧ rbtt.rbttNuminodes = 126 ∧
      ∀ junk rbtHeight, ¬ RbTree.PrintsInside rbtt t junk rbtHeight := by
  have order : TotalPreorder (RbTree.Rbtt.stdRbtreeCompareUl (id : UInt64 → UInt64)) := totalPreorder_threeWay _
  obtain ⟨rbtt, t, run, sound, perm, edge⟩ := RbTree.ascending_run order keys sorted_keys
  have numinodes : rbtt.rbttNuminodes = 126 := by
    rw [sound.numinodes, perm.length_eq]
    rfl
  have length : (RbTree.grow^[keys.length] []).length = 12 := by decide +kernel
  have tall := RbTree.edge_le_height t
  rw [edge, length] at tall
  obtain ⟨_, sound', _, none_⟩ := RbTree.run_sentinel order run
  refine ⟨rbtt, t, run, sound.holds, numinodes, fun junk rbtHeight inside => ?_⟩
  rcases (RbTree.print_iff sound.magic sound.holds none_).mp inside with large | ⟨_, short⟩
  · rw [numinodes] at large
    exact absurd large (by decide)
  · omega

/-- Not so an empty tree in memory that is not zero, a tree of 126 keys in ascending order and
a table of the 86 shortest prefixes of one address. -/
theorem printing_outside :
    ¬ RbTree.PrintsInside (RbTree.stdRbtreeCreate (RbTree.Rbtt.stdRbtreeCompareUl (id : UInt64 → UInt64))) .nil ⟨0, some 1⟩
        (fun _ => 0) ∧
      (∃ (rbtt : RbTree.Rbtt UInt64) (t : RbTree.Cells UInt64),
        Run RbTree.Step (RbTree.stdRbtreeCreate (RbTree.Rbtt.stdRbtreeCompareUl id)) (keys.map fun key => .insert key true)
          rbtt ∧ RbTree.Holds rbtt t ∧ rbtt.rbttNuminodes ≤ 200 ∧
        ∀ junk rbtHeight, ¬ RbTree.PrintsInside rbtt t junk rbtHeight) ∧
      ∃ rtt m, Radix.Reachable rtt m ∧ rtt.rttMaxaddrlen ≤ 256 ∧ rtt.rttInodes ≤ 500 ∧ ¬ Radix.PrintsInside rtt 500 := by
  refine ⟨fun inside => ?_, ?_, ?_⟩
  · have created := RbTree.sound_create (RbTree.Rbtt.stdRbtreeCompareUl (id : UInt64 → UInt64))
    have none_ (side : Bool) :
        (RbTree.stdRbtreeCreate (RbTree.Rbtt.stdRbtreeCompareUl (id : UInt64 → UInt64))).nil.child side = none := by
      cases side <;> rfl
    cases (RbTree.print_empty created.magic created.holds (by decide) none_).mp inside
  · obtain ⟨rbtt, t, run, holds, numinodes, outside⟩ := tall_tree
    exact ⟨rbtt, t, run, holds, by rw [numinodes]; decide, outside⟩
  · obtain ⟨rtt, m, t, nest⟩ := Radix.exists_nest (n := 86) (by decide)
    have fits : rtt.rttMaxaddrlen ≤ 256 := by
      rw [nest.len]
      decide
    have few := nest.inodes
    have small : rtt.rttInodes ≤ 500 := by
      rw [UInt64.le_iff_toNat_le]
      exact few.trans (by decide)
    refine ⟨rtt, m, nest.reach, fits, small, fun inside => ?_⟩
    have tall := nest.height
    rcases (Radix.print_iff nest.standing.rep nest.standing.ready fits 500).mp inside with large | short
    · exact absurd small (UInt64.not_le.mpr large)
    · omega

end SonicUtils.Printing
