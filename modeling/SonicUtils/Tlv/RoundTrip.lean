import SonicUtils.Tlv.Model
import SonicUtils.Lib.Runs

/-!
# What is added is what is read

A buffer is filled with `std_tlv_add` and read with `std_tlv_next`.

* `add_fits`, `add_full`: one call, with room and without;
* `filled`: the buffer after any calls that succeed;
* `walk_filled`: a walk over such bytes;
* `tlv_round_trip`: both together.
-/

namespace SonicUtils.Tlv

open SonicUtils.Bytes SonicUtils.Runs

/-- What a TLV is made of: the function that adds it goes with it. -/
inductive Content
  | bytes (content : List UInt8)
  | u16 (content : UInt16)
  | u32 (content : UInt32)
  | u64 (content : UInt64)

def Content.octets : Content → List UInt8
  | .bytes content => content
  | .u16 content => toLe 2 content.toNat
  | .u32 content => toLe 4 content.toNat
  | .u64 content => toLe 8 content.toNat

structure Entry where
  tag : UInt64
  content : Content

namespace Entry

def len (e : Entry) : Nat := e.content.octets.length

/-- The length of a real byte string. -/
def Real (e : Entry) : Prop := e.len < 2 ^ 63

instance (e : Entry) : Decidable e.Real := Nat.decLt ..

def add (s : Added) (e : Entry) : Added :=
  match e.content with
  | .bytes content => stdTlvAdd s.mem s.ret s.dataLen e.tag (.ofNat content.length) content
  | .u16 content => stdTlvAddU16 s.mem s.ret s.dataLen e.tag content
  | .u32 content => stdTlvAddU32 s.mem s.ret s.dataLen e.tag content
  | .u64 content => stdTlvAddU64 s.mem s.ret s.dataLen e.tag content

/-- The TLV in memory. -/
def bytes (e : Entry) : List UInt8 :=
  toLe 8 e.tag.toNat ++ toLe 8 e.len ++ e.content.octets

@[simp] theorem length_bytes (e : Entry) : e.bytes.length = 16 + e.len := by
  simp [bytes, len, ← Nat.add_assoc]

theorem add_eq (s : Added) (e : Entry) :
    e.add s = stdTlvAdd s.mem s.ret s.dataLen e.tag (.ofNat e.len) e.content.octets := by
  obtain ⟨tag, content⟩ := e
  cases content <;> rfl

end Entry

/-- A call that did not return `NULL`. -/
def Adds (s : Added) (e : Entry) (s' : Added) : Prop := e.add s = s' ∧ s'.ret ≠ null

/-- An object in memory: neither its first byte nor the address after its last
one is 0. -/
structure Buffer (data len : UInt64) : Prop where
  some : data ≠ null
  ends : data.toNat + len.toNat < 2 ^ 64

variable {mem : Mem} {s s' : Added} {e : Entry} {es : List Entry} {p n : UInt64}

/-- What is left of an object behind its first `k` bytes. -/
theorem Buffer.behind (buffer : Buffer p n) {k : Nat} {left : UInt64}
    (all : k + left.toNat = n.toNat) : Buffer (p + .ofNat k) left := by
  have ends := buffer.ends
  have first : 0 < p.toNat := Nat.pos_of_ne_zero fun zero => buffer.some (UInt64.toNat_inj.mp zero)
  have at_ : (p + .ofNat k).toNat = p.toNat + k := by
    rw [UInt64.toNat_add, UInt64.toNat_ofNat']
    omega
  refine ⟨fun none => ?_, by omega⟩
  rw [none] at at_
  change 0 = _ at at_
  omega

theorem toNat_total {k : Nat} (small : k < 2 ^ 63) :
    (UInt64.ofNat k + stdTlvHdrLen).toNat = 16 + k := by
  rw [UInt64.toNat_add, UInt64.toNat_ofNat']
  change (k % 2 ^ 64 + 16) % 2 ^ 64 = 16 + k
  omega

/-- A call without room for the TLV changes nothing and returns `NULL`. -/
theorem add_full (real : e.Real) (full : s.dataLen.toNat < 16 + e.len) :
    e.add s = ⟨null, s.dataLen, s.mem⟩ := by
  rw [e.add_eq, stdTlvAdd, if_pos]
  rw [UInt64.lt_iff_toNat_lt, toNat_total real]
  exact full

/-- The three writes of `std_tlv_add`. -/
theorem write_parts (mem : Mem) (data tag len : UInt64) {content : List UInt8}
    (small : content.length < 2 ^ 63) :
    (stdTlvSetLen (stdTlvSetTag mem data tag) data len).write (data + stdTlvHdrLen) content =
      mem.write data (toLe 8 tag.toNat ++ toLe 8 len.toNat ++ content) := by
  have two := write_write mem data (toLe 8 tag.toNat) (toLe 8 len.toNat) (by simp)
  have three := write_write mem data (toLe 8 tag.toNat ++ toLe 8 len.toNat) content
    (by simp; omega)
  rw [length_toLe] at two
  rw [List.length_append, length_toLe, length_toLe] at three
  rw [← three, ← two, stdTlvSetLen, stdTlvSetTag]
  congr 3
  exact UInt64.add_zero data

/-- A call with room for the TLV writes its header and its value. -/
theorem add_fits (real : e.Real) (room : 16 + e.len ≤ s.dataLen.toNat) :
    e.add s = ⟨s.ret + .ofNat (16 + e.len), s.dataLen - .ofNat (16 + e.len),
      s.mem.write s.ret e.bytes⟩ := by
  have total : UInt64.ofNat e.len + stdTlvHdrLen = .ofNat (16 + e.len) := by
    rw [Nat.add_comm, UInt64.ofNat_add]
    rfl
  have all : (UInt64.ofNat e.len).toNat = e.len :=
    toNat_ofNat_small (Nat.lt_trans real (by decide))
  rw [e.add_eq, stdTlvAdd, if_neg]
  · have whole : e.content.octets.take e.len = e.content.octets := List.take_length
    rw [total, all, whole]
    simp only [write_parts _ _ _ _ real, all]
    rfl
  · rw [UInt64.lt_iff_toNat_lt, toNat_total real]
    omega

/-- The buffer that starts at `p` with `n` bytes, after calls that have added
the entries to it. -/
structure Filled (mem : Mem) (p n : UInt64) (es : List Entry) (s : Added) : Prop where
  ret : s.ret = p + .ofNat (es.flatMap Entry.bytes).length
  left : (es.flatMap Entry.bytes).length + s.dataLen.toNat = n.toNat
  used : s.mem.bytes p (es.flatMap Entry.bytes).length = es.flatMap Entry.bytes
  rest : ∀ x, (es.flatMap Entry.bytes).length ≤ (x - p).toNat → s.mem x = mem x

theorem Filled.start (mem : Mem) (p n : UInt64) : Filled mem p n [] ⟨p, n, mem⟩ where
  ret := (UInt64.add_zero p).symm
  left := Nat.zero_add _
  used := rfl
  rest _ _ := rfl

theorem Filled.buffer (filled : Filled mem p n es s) (buffer : Buffer p n) :
    Buffer s.ret s.dataLen :=
  filled.ret ▸ buffer.behind filled.left

/-- A call that succeeds had the room, and writes behind what is there. -/
theorem Filled.adds (filled : Filled mem p n es s) (real : e.Real) (adds : Adds s e s') :
    Filled mem p n (es ++ [e]) s' := by
  obtain ⟨added, some⟩ := adds
  have room : 16 + e.len ≤ s.dataLen.toNat := by
    apply Nat.le_of_not_lt
    intro full
    rw [add_full real full] at added
    exact some (added ▸ rfl)
  rw [add_fits real room] at added
  subst added
  obtain ⟨ret, left, used, rest⟩ := filled
  have bound := n.toNat_lt
  have small : (UInt64.ofNat (16 + e.len)).toNat = 16 + e.len := toNat_ofNat_small (by omega)
  have grown : (es ++ [e]).flatMap Entry.bytes = es.flatMap Entry.bytes ++ e.bytes := by simp
  have size : ((es ++ [e]).flatMap Entry.bytes).length =
      (es.flatMap Entry.bytes).length + (16 + e.len) := by simp
  constructor
  · have shift := UInt64.ofNat_add (es.flatMap Entry.bytes).length (16 + e.len)
    rw [size, shift, ← UInt64.add_assoc, ← ret]
  · rw [size, UInt64.toNat_sub_of_le, small]
    · omega
    · rw [UInt64.le_iff_toNat_le, small]
      exact room
  · have kept : (s.mem.write s.ret e.bytes).bytes p (es.flatMap Entry.bytes).length =
        s.mem.bytes p (es.flatMap Entry.bytes).length := by
      apply bytes_congr
      intro i inside
      have away : (p + .ofNat i - p).toNat = i := distance (by omega)
      apply write_outside
      rw [ret, distance_wraps (by omega) (by omega), away, e.length_bytes]
      omega
    have added : (s.mem.write s.ret e.bytes).bytes s.ret (16 + e.len) = e.bytes := by
      rw [← e.length_bytes]
      exact bytes_write (by rw [e.length_bytes]; omega)
    rw [size, grown, bytes_add, kept, used, ← ret, added]
  · intro x beyond
    rw [size] at beyond
    rw [← rest x (by omega)]
    apply write_outside
    rw [ret, distance_lt (by omega), e.length_bytes]
    omega

theorem filled {es : List Entry} (real : ∀ e ∈ es, e.Real) (run : Run Adds ⟨p, n, mem⟩ es s) :
    Filled mem p n es s := by
  induction run with
  | nil => exact .start mem p n
  | snoc _ last ih =>
    apply (ih fun e he => real e (by simp [he])).adds (real _ (by simp)) last

/-- `for (; len > 0; data = std_tlv_next(data, &len))`, which visits the
pointers that it returns. The second result is the length in the end. -/
def walk (mem : Mem) : Nat → UInt64 → UInt64 → Except Fault (List UInt64 × UInt64)
  | 0, _, _ => throw .noReturn
  | fuel + 1, data, len =>
    if data ≠ null ∧ 0 < len then do
      let (next, left) := stdTlvNext mem data len
      let (places, last) ← walk mem fuel next left
      return (data :: places, last)
    else return ([], len)

/-- `std_tlv_tag`, `std_tlv_len` and `std_tlv_data` give the entry back, and
for a number so does the function for its size. -/
def Reads (mem : Mem) (e : Entry) (data : UInt64) : Prop :=
  stdTlvTag mem data = e.tag ∧ (stdTlvLen mem data).toNat = e.len ∧
    mem.bytes (stdTlvData data) e.len = e.content.octets ∧
    match e.content with
    | .bytes _ => True
    | .u16 content => stdTlvDataU16 mem data = content
    | .u32 content => stdTlvDataU32 mem data = content
    | .u64 content => stdTlvDataU64 mem data = content

theorem le64At_eq {a x : UInt64} (here : mem.bytes a 8 = toLe 8 x.toNat) : le64At mem a = x := by
  have bound := x.toNat_lt
  rw [le64At, here, ofLe_toLe, Nat.mod_eq_of_lt (by omega), UInt64.ofNat_toNat]

theorem reads {data : UInt64} (real : e.Real) (here : mem.bytes data (16 + e.len) = e.bytes) :
    Reads mem e data := by
  have len : (UInt64.ofNat e.len).toNat = e.len :=
    toNat_ofNat_small (Nat.lt_trans real (by decide))
  have parts : mem.bytes data 8 = toLe 8 e.tag.toNat ∧
      mem.bytes (data + .ofNat 8) 8 = toLe 8 e.len ∧
      mem.bytes (data + .ofNat 16) e.len = e.content.octets := by
    rw [bytes_add, bytes_add mem data 8 8, Entry.bytes] at here
    obtain ⟨header, content⟩ := List.append_inj here (by simp)
    obtain ⟨tag, len⟩ := List.append_inj header (by simp)
    exact ⟨tag, len, content⟩
  obtain ⟨tag, size, content⟩ := parts
  refine ⟨?_, ?_, content, ?_⟩
  · apply le64At_eq
    rw [stdTlvOffset, stdTlvTagPos, UInt64.add_zero, tag]
  · have at_ : stdTlvLen mem data = .ofNat e.len := le64At_eq (by rw [len]; exact size)
    rw [at_, len]
  · obtain ⟨_, _ | x | x | x⟩ := e
    · trivial
    · have here : mem.bytes (stdTlvData data) 2 = toLe 2 x.toNat := content
      have bound := x.toNat_lt
      change stdTlvDataU16 mem data = x
      rw [stdTlvDataU16, here, ofLe_toLe, Nat.mod_eq_of_lt (by omega), UInt16.ofNat_toNat]
    · have here : mem.bytes (stdTlvData data) 4 = toLe 4 x.toNat := content
      have bound := x.toNat_lt
      change stdTlvDataU32 mem data = x
      rw [stdTlvDataU32, here, ofLe_toLe, Nat.mod_eq_of_lt (by omega), UInt32.ofNat_toNat]
    · have here : mem.bytes (stdTlvData data) 8 = toLe 8 x.toNat := content
      exact le64At_eq here

/-- `std_tlv_next` steps over the entry that it is at. -/
theorem next_reads {data len left : UInt64} (real : e.Real) (some : data ≠ null)
    (read : Reads mem e data) (size : 16 + e.len + left.toNat = len.toNat) :
    stdTlvNext mem data len = (data + .ofNat (16 + e.len), left) := by
  have small : e.len < 2 ^ 63 := real
  have header : stdTlvLen mem data = .ofNat e.len := by
    rw [← read.2.1, UInt64.ofNat_toNat]
  have total : stdTlvTotalLen mem data = .ofNat (16 + e.len) := by
    rw [stdTlvTotalLen, header, Nat.add_comm, UInt64.ofNat_add]
    rfl
  have total_nat : (UInt64.ofNat (16 + e.len)).toNat = 16 + e.len :=
    toNat_ofNat_small (by omega)
  have room : ¬ len < .ofNat (16 + e.len) := by
    rw [UInt64.lt_iff_toNat_lt, total_nat]
    omega
  have rest : len - .ofNat (16 + e.len) = left := by
    apply UInt64.toNat_inj.mp
    rw [UInt64.toNat_sub_of_le _ _ (UInt64.not_lt.mp room), total_nat]
    omega
  rw [stdTlvNext, if_neg some, total]
  dsimp only
  rw [if_neg room, rest]
  rfl

/-- A walk over the bytes of entries visits each of them and ends with the
length 0. -/
theorem walk_filled {es : List Entry} {data len : UInt64} (real : ∀ e ∈ es, e.Real)
    (buffer : Buffer data len) (size : len.toNat = (es.flatMap Entry.bytes).length)
    (here : mem.bytes data len.toNat = es.flatMap Entry.bytes) :
    ∃ places, (∀ fuel > es.length, walk mem fuel data len = .ok (places, 0)) ∧
      List.Forall₂ (Reads mem) es places := by
  induction es generalizing data len with
  | nil =>
    obtain rfl : len = 0 := UInt64.toNat_inj.mp size
    refine ⟨[], fun fuel enough => ?_, .nil⟩
    cases fuel with
    | zero => omega
    | succ fuel =>
      rw [walk, if_neg fun more => absurd more.2 (by decide)]
      rfl
  | cons e es ih =>
    have real_e : e.Real := real e (by simp)
    rw [List.flatMap_cons, List.length_append, e.length_bytes] at size
    rw [size, bytes_add, List.flatMap_cons] at here
    obtain ⟨first, others⟩ := List.append_inj here (by simp)
    have read := reads real_e first
    have bound := len.toNat_lt
    have left : (UInt64.ofNat (es.flatMap Entry.bytes).length).toNat =
        (es.flatMap Entry.bytes).length := toNat_ofNat_small (by omega)
    have next := next_reads real_e buffer.some read (left ▸ size.symm)
    obtain ⟨places, rest, all⟩ := ih (fun e he => real e (by simp [he]))
      (buffer.behind (left ▸ size.symm)) left (left.symm ▸ others)
    refine ⟨data :: places, fun fuel enough => ?_, .cons read all⟩
    cases fuel with
    | zero => omega
    | succ fuel =>
      have more : data ≠ null ∧ 0 < len := by
        refine ⟨buffer.some, ?_⟩
        rw [UInt64.lt_iff_toNat_lt, size]
        change 0 < _
        omega
      rw [walk, if_pos more, next]
      simp only [rest fuel (by simpa using enough)]
      rfl

/-- **TLV round trip.** After any calls that have succeeded, one after another
from the start of a buffer, a further call succeeds exactly when 16 and the
length of its value are no more than what is left; otherwise it returns `NULL`
and leaves all as it was. A walk over what has been used then visits the TLVs
in order, with their tags, lengths and values, and ends with the length 0. -/
theorem tlv_round_trip {mem : Mem} {p n : UInt64} {es : List Entry} {s : Added}
    (buffer : Buffer p n) (real : ∀ e ∈ es, e.Real) (run : Run Adds ⟨p, n, mem⟩ es s) :
    (∀ e : Entry, e.Real →
      ((e.add s).ret ≠ null ↔ 16 + e.len ≤ s.dataLen.toNat) ∧
      ((e.add s).ret = null → (e.add s).mem = s.mem ∧ (e.add s).dataLen = s.dataLen)) ∧
    (∀ x, n.toNat - s.dataLen.toNat ≤ (x - p).toNat → s.mem x = mem x) ∧
    ∃ places, (∀ fuel > es.length, walk s.mem fuel p (n - s.dataLen) = .ok (places, 0)) ∧
      List.Forall₂ (Reads s.mem) es places := by
  have all := filled real run
  have here := all.buffer buffer
  obtain ⟨ret, left, used, rest⟩ := all
  have size : (n - s.dataLen).toNat = (es.flatMap Entry.bytes).length := by
    rw [UInt64.toNat_sub_of_le]
    · omega
    · rw [UInt64.le_iff_toNat_le]
      omega
  refine ⟨fun e real_e => ?_, fun x beyond => rest x (by omega), ?_⟩
  · by_cases room : 16 + e.len ≤ s.dataLen.toNat
    · have bound := s.dataLen.toNat_lt
      have rest_len : 16 + e.len + (s.dataLen - .ofNat (16 + e.len)).toNat = s.dataLen.toNat := by
        have total := toNat_ofNat_small (k := 16 + e.len) (by omega)
        rw [UInt64.toNat_sub_of_le, total]
        · omega
        · rw [UInt64.le_iff_toNat_le, total]
          exact room
      have some := (here.behind rest_len).some
      rw [add_fits real_e room]
      exact ⟨iff_of_true some room, fun none => absurd none some⟩
    · rw [add_full real_e (by omega)]
      exact ⟨iff_of_false (fun some => some rfl) room, fun _ => ⟨rfl, rfl⟩⟩
  · refine walk_filled real ⟨buffer.some, ?_⟩ size (size.symm ▸ used)
    have ends := buffer.ends
    omega

/-- A buffer of 36 bytes that a number and an empty value fill exactly. -/
theorem tlv_round_trip_full :
    let es : List Entry := [⟨7, .u32 0xdeadbeef⟩, ⟨9, .bytes []⟩]
    ∃ s, Run Adds ⟨0x1000, 36, fun _ => 0⟩ es s ∧ s.dataLen = 0 ∧
      ∃ places, (∀ fuel > 2, walk s.mem fuel 0x1000 36 = .ok (places, 0)) ∧
        List.Forall₂ (Reads s.mem) es places := by
  intro es
  let one := (Entry.add ⟨0x1000, 36, fun _ => 0⟩ ⟨7, .u32 0xdeadbeef⟩)
  let two := Entry.add one ⟨9, .bytes []⟩
  have run : Run Adds ⟨0x1000, 36, fun _ => 0⟩ es two :=
    .snoc (.snoc .nil ⟨rfl, by decide⟩) ⟨rfl, by decide⟩
  have full : two.dataLen = 0 := by decide
  have real : ∀ e ∈ es, e.Real := by decide
  have trip := (tlv_round_trip ⟨by decide, by decide⟩ real run).2.2
  rw [full] at trip
  exact ⟨two, run, full, trip⟩

end SonicUtils.Tlv
