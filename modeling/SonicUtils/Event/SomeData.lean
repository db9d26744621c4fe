import SonicUtils.Event.Routing
import SonicUtils.Lib.Bytes

/-!
# The server's side of a frame

`event_some_data` of `std_event_service.cpp`. A client's buffer only grows: a
frame is written over the start of what earlier frames have left there.

* `ownBytes_iff`: a frame is judged by its own bytes exactly when it is
  `Complete`;
* `frames_judged_by_own_bytes`: on a server that gets sized frames only, every
  sized frame is.
-/

namespace SonicUtils.Event

open SonicUtils.Bytes SonicUtils.Transfer

/-- `sizeof(std_event_key_t)`. -/
def sizeofEventKey : Nat := 68
/-- `sizeof(std_event_msg_t)`. -/
def sizeofEventMsg : Nat := 72
def stdEventKeyMax : Nat := 16
/-- `SOCKET_BUFFER_MIN_SIZE`. -/
def socketBufferMinSize : Nat := 300000

/-- The number in `w` bytes of memory, on a little-endian host. -/
def loadLe (byte : Nat → UInt8) (off w : Nat) : Nat :=
  ofLe ((List.range w).map fun i => byte (off + i))

/-- `key->event_key` of the key behind the operation, up to `len`. -/
def keyWords (byte : Nat → UInt8) (len : Nat) : List UInt32 :=
  (List.range len).map fun ix => .ofNat (loadLe byte (8 + 4 * ix) 4)

/-- How many words of its list `find` looks at. -/
def Node.wordsRead (create : Bool) : List UInt32 → Node → Nat
  | [], _ => 0
  | id :: list, cur =>
    match cur.find id with
    | some child => wordsRead create list child + 1
    | none => if create then wordsRead create list fresh + 1 else 1

/-- The clients that a publish sends to, in order. -/
def Node.receivers : List UInt32 → Node → List Fd → List Fd
  | [], _, sent => sent
  | id :: list, cur, sent =>
    match cur.find id with
    | none => sent
    | some child =>
      receivers list child
        (child.clients.foldl (fun sent fd => if fd ∈ sent then sent else sent ++ [fd]) sent)

/-- `reg_client` for a key with these words. -/
def ClientTree.regWords (t : ClientTree) (fd : Fd) (words : List UInt32) : ClientTree × Bool :=
  match t.head.findThen true (·.insert fd) words with
  | none => (t, false)
  | some head => (⟨head⟩, true)

/-- `dereg_client` for a key with these words. -/
def ClientTree.deregWords (t : ClientTree) (fd : Fd) (words : List UInt32) : ClientTree :=
  match t.head.findThen false (·.remove fd) words with
  | none => t
  | some head => ⟨head⟩

/-- What a call of `event_some_data` returns and does. `reads` are the places
and lengths of what it reads from the buffer. -/
structure Outcome where
  ret : Bool
  tree : ClientTree
  published : List (Fd × List UInt8)
  sndbuf : Option Nat
  reads : List (Nat × Nat)

/-- `return false`. -/
def Outcome.reject (t : ClientTree) (reads : List (Nat × Nat)) : Outcome :=
  ⟨false, t, [], none, reads⟩

/-- The reads of a key whose first `n` words are looked at. -/
def keyReads (n : Nat) : List (Nat × Nat) := (4, 4) :: (List.range n).map fun ix => (8 + 4 * ix, 4)

/-- `event_some_data` after `std_event_util_event_recv`: `byte` is what is in
memory at and behind `&buff[0]`, `size` is `buff.size()`. -/
def handle (byte : Nat → UInt8) (size : Nat) (t : ClientTree) (fd : Fd) : Outcome :=
  if size < sizeofMsg then .reject t []
  else
    let op := loadLe byte 0 4
    let words := keyWords byte (loadLe byte 4 4)
    if op = MsgType.addReg.value then
      let (tree, ret) := t.regWords fd words
      ⟨ret, tree, [], none, (0, 4) :: keyReads (t.head.wordsRead true words)⟩
    else if op = MsgType.delReg.value then
      ⟨true, t.deregWords fd words, [], none, (0, 4) :: keyReads (t.head.wordsRead false words)⟩
    else if op = MsgType.publish.value then
      let dataLen := loadLe byte (sizeofMsg + sizeofEventKey) 4
      let reads := [(0, 4), (sizeofMsg + sizeofEventKey, 4)]
      if size < sizeofMsg + sizeofEventMsg + dataLen then .reject t reads
      else
        let msg := (List.range (sizeofEventMsg + dataLen)).map fun i => byte (sizeofMsg + i)
        let fds := t.head.receivers words []
        ⟨true, t, fds.map fun fd => (fd, msg), none,
          reads ++ keyReads (t.head.wordsRead false words) ++
            fds.map fun _ => (sizeofMsg, sizeofEventMsg + dataLen)⟩
    else if op = MsgType.buffer.value then
      let buffLen := loadLe byte sizeofMsg 8
      let buffLen := if buffLen < socketBufferMinSize then socketBufferMinSize else buffLen
      ⟨true, t, [], some buffLen, [(0, 4), (sizeofMsg, 8)]⟩
    else ⟨true, t, [], none, [(0, 4)]⟩

/-- `event_some_data`. `heap` is what is in memory behind the buffer. -/
def eventSomeData (fuel : Nat) (net : Net) (hdr : List UInt8) (heap : Nat → UInt8)
    (t : ClientTree) (fd : Fd) (buff : List UInt8) : Option (Net × List UInt8 × Outcome) := do
  let (rc, net, buff) ← eventRecv fuel net hdr buff true
  if rc ≠ stdErrOk then return (net, buff, .reject t [])
  return (net, buff, handle (fun i => buff.getD i (heap i)) buff.length t fd)

/-- The bytes behind a header, as many as it announces. A receive of 2^31 bytes
or more fails. -/
structure Frame where
  bytes : List UInt8
  fits : bytes.length < 2 ^ 31

/-- The buffer that a frame is received into, and what is done with it. -/
def someData (heap : Nat → UInt8) (t : ClientTree) (fd : Fd) (residue : List UInt8) (f : Frame) :
    List UInt8 × Outcome :=
  let buff := f.bytes ++ residue.drop f.bytes.length
  (buff, handle (fun i => buff.getD i (heap i)) buff.length t fd)

/-- For a key that fits in `std_event_key_t` this is `regClient`. -/
theorem regClient_eq (t : ClientTree) (fd : Fd) (key : EventKey) :
    t.regClient fd key = t.regWords fd key.words := rfl

namespace Frame

def byte (f : Frame) (i : Nat) : UInt8 := f.bytes.getD i 0

def op (f : Frame) : Nat := loadLe f.byte 0 4
def keyLen (f : Frame) : Nat := loadLe f.byte 4 4
def words (f : Frame) : List UInt32 := keyWords f.byte f.keyLen
def dataLen (f : Frame) : Nat := loadLe f.byte (sizeofMsg + sizeofEventKey) 4

def IsReg (f : Frame) : Prop := f.op = MsgType.addReg.value ∨ f.op = MsgType.delReg.value

/-- The frame is too short for its operation, or its key too long. -/
def Short (f : Frame) : Prop :=
  sizeofMsg ≤ f.bytes.length ∧
    (f.op = MsgType.publish.value ∧
        (f.bytes.length < sizeofMsg + sizeofEventMsg ∨
          f.bytes.length < sizeofMsg + sizeofEventMsg + f.dataLen) ∨
      f.IsReg ∧ (f.bytes.length < sizeofMsg + sizeofEventKey ∨ stdEventKeyMax < f.keyLen))

/-- What the operation needs is in the frame. A message that no buffer has room
for needs its length only. -/
structure Sized (f : Frame) : Prop where
  op : sizeofMsg ≤ f.bytes.length
  key : f.IsReg → sizeofMsg + sizeofEventKey ≤ f.bytes.length ∧ f.keyLen ≤ stdEventKeyMax
  msg : f.op = MsgType.publish.value → sizeofMsg + sizeofEventMsg ≤ f.bytes.length ∧
    (sizeofMsg + sizeofEventMsg + f.dataLen < 2 ^ 31 →
      sizeofMsg + sizeofEventMsg + f.dataLen ≤ f.bytes.length)
  buffer : f.op = MsgType.buffer.value → sizeofMsg + 8 ≤ f.bytes.length

/-- The frame is sized, and the words of its key that a publish looks at are in
it. -/
structure Complete (t : ClientTree) (f : Frame) : Prop extends f.Sized where
  words : f.op = MsgType.publish.value → sizeofMsg + sizeofEventMsg + f.dataLen < 2 ^ 31 →
    8 + 4 * t.head.wordsRead false f.words ≤ f.bytes.length

end Frame

/-- What earlier frames, all answered with `true`, can leave in a buffer. -/
inductive Residue : List UInt8 → Prop
  | fresh : Residue []
  | frame {residue : List UInt8} (heap : Nat → UInt8) (t : ClientTree) (fd : Fd) (f : Frame) :
      Residue residue → (someData heap t fd residue f).2.ret = true →
      Residue (someData heap t fd residue f).1

theorem Residue.small {residue : List UInt8} (r : Residue residue) : residue.length < 2 ^ 31 := by
  induction r with
  | fresh => decide
  | frame heap t fd f _ _ ih =>
    have fits := f.fits
    simp only [someData, List.length_append, List.length_drop]
    omega

/-- The buffer is as long as the longer of the two. -/
theorem length_buff (heap : Nat → UInt8) (t : ClientTree) (fd : Fd) (residue : List UInt8)
    (f : Frame) : (someData heap t fd residue f).1.length = max f.bytes.length residue.length := by
  simp only [someData, List.length_append, List.length_drop]
  omega

section

variable {byte : Nat → UInt8} {size : Nat} {t : ClientTree} {fd : Fd}
  (op : ¬ size < sizeofMsg)
include op

/-- A registration is answered with `true`, however short it is. -/
theorem handle_addReg (add : loadLe byte 0 4 = MsgType.addReg.value) :
    handle byte size t fd =
      ⟨true, (t.regWords fd (keyWords byte (loadLe byte 4 4))).1, [], none,
        (0, 4) :: keyReads (t.head.wordsRead true (keyWords byte (loadLe byte 4 4)))⟩ := by
  obtain ⟨head, found⟩ :=
    Node.findThen_create (·.insert fd) (keyWords byte (loadLe byte 4 4)) t.head
  simp only [handle, if_neg op, if_pos add, ClientTree.regWords, found]

theorem handle_delReg (del : loadLe byte 0 4 = MsgType.delReg.value) :
    handle byte size t fd =
      ⟨true, t.deregWords fd (keyWords byte (loadLe byte 4 4)), [], none,
        (0, 4) :: keyReads (t.head.wordsRead false (keyWords byte (loadLe byte 4 4)))⟩ := by
  have other : ¬ loadLe byte 0 4 = MsgType.addReg.value := by rw [del]; decide
  simp only [handle, if_neg op, if_neg other, if_pos del]

theorem handle_publish (pub : loadLe byte 0 4 = MsgType.publish.value) :
    handle byte size t fd =
      let dataLen := loadLe byte (sizeofMsg + sizeofEventKey) 4
      let words := keyWords byte (loadLe byte 4 4)
      let reads := [(0, 4), (sizeofMsg + sizeofEventKey, 4)]
      if size < sizeofMsg + sizeofEventMsg + dataLen then .reject t reads
      else
        let msg := (List.range (sizeofEventMsg + dataLen)).map fun i => byte (sizeofMsg + i)
        let fds := t.head.receivers words []
        ⟨true, t, fds.map fun fd => (fd, msg), none,
          reads ++ keyReads (t.head.wordsRead false words) ++
            fds.map fun _ => (sizeofMsg, sizeofEventMsg + dataLen)⟩ := by
  have add : ¬ loadLe byte 0 4 = MsgType.addReg.value := by rw [pub]; decide
  have del : ¬ loadLe byte 0 4 = MsgType.delReg.value := by rw [pub]; decide
  simp only [handle, if_neg op, if_neg add, if_neg del, if_pos pub]

theorem handle_buffer (buf : loadLe byte 0 4 = MsgType.buffer.value) :
    handle byte size t fd =
      ⟨true, t, [], some (if loadLe byte sizeofMsg 8 < socketBufferMinSize then socketBufferMinSize
        else loadLe byte sizeofMsg 8), [(0, 4), (sizeofMsg, 8)]⟩ := by
  have add : ¬ loadLe byte 0 4 = MsgType.addReg.value := by rw [buf]; decide
  have del : ¬ loadLe byte 0 4 = MsgType.delReg.value := by rw [buf]; decide
  have pub : ¬ loadLe byte 0 4 = MsgType.publish.value := by rw [buf]; decide
  simp only [handle, if_neg op, if_neg add, if_neg del, if_neg pub, if_pos buf]

theorem handle_other (known : ∀ m : MsgType, loadLe byte 0 4 ≠ m.value) :
    handle byte size t fd = ⟨true, t, [], none, [(0, 4)]⟩ := by
  simp only [handle, if_neg op, if_neg (known _)]

end

theorem loadLe_congr {byte byte' : Nat → UInt8} {off w : Nat}
    (same : ∀ i < off + w, byte' i = byte i) : loadLe byte' off w = loadLe byte off w := by
  unfold loadLe
  congr 1
  apply List.map_congr_left
  intro i hi
  have := List.mem_range.mp hi
  exact same _ (by omega)

theorem keyWords_congr {byte byte' : Nat → UInt8} {len : Nat}
    (same : ∀ i < 8 + 4 * len, byte' i = byte i) : keyWords byte' len = keyWords byte len := by
  apply List.map_congr_left
  intro ix hix
  have := List.mem_range.mp hix
  rw [loadLe_congr fun i hi => same i (by omega)]

/-- Only the words that a publish looks at matter to it. -/
theorem publish_congr {words words' : List UInt32} {n : Node}
    (length : words'.length = words.length)
    (same : ∀ i < n.wordsRead false words, words'[i]? = words[i]?) :
    n.wordsRead false words' = n.wordsRead false words ∧
      ∀ sent, n.receivers words' sent = n.receivers words sent := by
  induction words generalizing words' n with
  | nil =>
    obtain rfl : words' = [] := List.eq_nil_of_length_eq_zero length
    exact ⟨rfl, fun _ => rfl⟩
  | cons id words ih =>
    cases words' with
    | nil => simp at length
    | cons id' words' =>
      have first : 0 < n.wordsRead false (id :: words) := by
        simp only [Node.wordsRead]
        split <;> simp
      obtain rfl : id' = id := by simpa using same 0 first
      simp only [Node.wordsRead, Node.receivers]
      cases hf : n.find id' with
      | none => exact ⟨rfl, fun _ => rfl⟩
      | some child =>
        simp only [Node.wordsRead, hf] at same
        have shorter : words'.length = words.length := by simpa using length
        obtain ⟨read, sent⟩ := ih shorter (n := child) fun i hi => by
          simpa using same (i + 1) (by omega)
        exact ⟨congrArg (· + 1) read, fun _ => sent _⟩

section

variable {t : ClientTree} {f : Frame} {byte : Nat → UInt8} {size : Nat} {fd : Fd}

/-- The words of a key of which the first `n` are in the frame. -/
theorem words_in_frame {n : Nat} (same : ∀ i < f.bytes.length, byte i = f.byte i)
    (inside : 8 + 4 * n ≤ f.bytes.length) :
    (keyWords byte f.keyLen).length = f.words.length ∧
      ∀ i < n, (keyWords byte f.keyLen)[i]? = f.words[i]? := by
  refine ⟨by simp [keyWords, Frame.words], fun i hi => ?_⟩
  simp only [keyWords, Frame.words, List.getElem?_map]
  by_cases known : i < f.keyLen
  · rw [List.getElem?_range known, Option.map_some, Option.map_some,
      loadLe_congr fun j hj => same j (by omega)]
  · rw [List.getElem?_eq_none (by simpa using known)]
    rfl

/-- A complete frame is handled as if it were alone in the buffer. -/
theorem handle_complete (complete : f.Complete t) (same : ∀ i < f.bytes.length, byte i = f.byte i)
    (whole : f.bytes.length ≤ size) (small : size < 2 ^ 31) :
    handle byte size t fd = handle f.byte f.bytes.length t fd := by
  obtain ⟨⟨four, key, msg, buffer⟩, words⟩ := complete
  have here : ¬ f.bytes.length < sizeofMsg := Nat.not_lt.mpr four
  have there : ¬ size < sizeofMsg := by omega
  have load {o w : Nat} (inside : o + w ≤ f.bytes.length) :
      loadLe byte o w = loadLe f.byte o w := loadLe_congr fun i hi => same i (by omega)
  have op : loadLe byte 0 4 = loadLe f.byte 0 4 := load four
  have keys (reg : f.IsReg) : keyWords byte (loadLe byte 4 4) = f.words := by
    have ⟨room, max⟩ := key reg
    unfold sizeofMsg sizeofEventKey at room
    unfold stdEventKeyMax at max
    rw [load (show 4 + 4 ≤ f.bytes.length by omega)]
    exact keyWords_congr fun i hi => same i (by unfold Frame.keyLen at max; omega)
  by_cases known : ∀ m : MsgType, loadLe f.byte 0 4 ≠ m.value
  · rw [handle_other here known, handle_other there (by rw [op]; exact known)]
  obtain ⟨m, is_⟩ := not_forall_not.mp known
  cases m with
  | addReg =>
    rw [handle_addReg here is_, handle_addReg there (op.trans is_), keys (.inl is_)]
    rfl
  | delReg =>
    rw [handle_delReg here is_, handle_delReg there (op.trans is_), keys (.inr is_)]
    rfl
  | buffer =>
    rw [handle_buffer here is_, handle_buffer there (op.trans is_),
      load (buffer is_ : sizeofMsg + 8 ≤ f.bytes.length)]
  | publish =>
    obtain ⟨header, room⟩ := msg is_
    have dataLen : loadLe byte (sizeofMsg + sizeofEventKey) 4 = f.dataLen := load header
    have len : loadLe byte 4 4 = f.keyLen :=
      load (by unfold sizeofMsg sizeofEventMsg at header; omega)
    rw [handle_publish here is_, handle_publish there (op.trans is_)]
    dsimp only
    rw [dataLen, len, show loadLe f.byte (sizeofMsg + sizeofEventKey) 4 = f.dataLen from rfl]
    by_cases fits : sizeofMsg + sizeofEventMsg + f.dataLen < 2 ^ 31
    · have all := room fits
      obtain ⟨length, first⟩ := words_in_frame same (words is_ fits)
      obtain ⟨read, sent⟩ := publish_congr length first
      have bytes : (List.range (sizeofEventMsg + f.dataLen)).map (fun i => byte (sizeofMsg + i)) =
          (List.range (sizeofEventMsg + f.dataLen)).map (fun i => f.byte (sizeofMsg + i)) := by
        apply List.map_congr_left
        intro i hi
        have := List.mem_range.mp hi
        exact same _ (by omega)
      rw [if_neg (by omega), if_neg (by omega), read, sent, bytes]
      rfl
    · have bound := f.fits
      rw [if_pos (by omega), if_pos (by omega)]

end

/-- What is in memory at the start of the buffer is the frame. -/
theorem buff_byte (heap : Nat → UInt8) (residue : List UInt8) (f : Frame) {i : Nat}
    (inside : i < f.bytes.length) :
    (f.bytes ++ residue.drop f.bytes.length).getD i (heap i) = f.byte i := by
  rw [List.getD_append _ _ _ _ inside, Frame.byte, List.getD_eq_getElem _ _ inside,
    List.getD_eq_getElem _ _ inside]

theorem someData_complete {t : ClientTree} {f : Frame} (heap : Nat → UInt8) (fd : Fd)
    {residue : List UInt8} (complete : f.Complete t) (r : Residue residue) :
    (someData heap t fd residue f).2 = handle f.byte f.bytes.length t fd := by
  have length := length_buff heap t fd residue f
  have small := r.small
  have fits := f.fits
  simp only [someData] at length ⊢
  rw [length]
  apply handle_complete complete (fun i hi => buff_byte heap residue f hi)
  · exact Nat.le_max_left ..
  · omega

/-- The server's tree while all the frames that it gets are sized: the frames
of any clients, with anything in their buffers, and clients that leave. -/
inductive Served : ClientTree → Prop
  | start : Served .empty
  | frame {t : ClientTree} (heap : Nat → UInt8) (fd : Fd) (residue : List UInt8) (f : Frame) :
      Served t → Residue residue → f.Sized → Served (someData heap t fd residue f).2.tree
  | closed {t : ClientTree} (fd : Fd) : Served t → Served (t.removeFromTree fd)

/-- A search in the tree stops before the key's seventeenth word is passed. -/
def ClientTree.Shallow (t : ClientTree) : Prop :=
  ∀ words, t.head.wordsRead false words ≤ stdEventKeyMax + 1

theorem wordsRead_findThen {create : Bool} {g : Node → Node} (below : ∀ n, (g n).mNodes = n.mNodes)
    {path : List UInt32} {n m : Node} (found : n.findThen create g path = some m)
    (words : List UInt32) :
    m.wordsRead false words ≤ max (n.wordsRead false words) (path.length + 1) := by
  induction path generalizing n m words with
  | nil =>
    obtain rfl : g n = m := by simpa [Node.findThen] using found
    cases words with
    | nil => simp [Node.wordsRead]
    | cons id words =>
      have same : (g n).find id = n.find id := by rw [Node.find, below, Node.find]
      simp only [Node.wordsRead, same]
      exact Nat.le_max_left ..
  | cons id path ih =>
    have step {child c : Node} (deeper : child.findThen create g path = some c)
        (old : ∀ words, child.wordsRead false words + 1 ≤
          max (n.wordsRead false (id :: words)) (path.length + 2)) :
        (n.setNode id c).wordsRead false words ≤
          max (n.wordsRead false words) (path.length + 2) := by
      cases words with
      | nil => simp [Node.wordsRead]
      | cons k words =>
        by_cases here : k = id
        · subst here
          have := ih deeper words
          have := old words
          simp only [Node.wordsRead, Node.find_setNode, if_true] at this ⊢
          omega
        · simp only [Node.wordsRead, Node.find_setNode, if_neg here]
          exact Nat.le_max_left ..
    cases hf : n.find id with
    | some child =>
      simp only [Node.findThen, hf, Option.map_eq_some_iff] at found
      obtain ⟨c, deeper, rfl⟩ := found
      exact step deeper fun words => by simp [Node.wordsRead, hf]
    | none =>
      cases create with
      | false => simp [Node.findThen, hf] at found
      | true =>
        simp only [Node.findThen, hf, if_true, Option.map_eq_some_iff] at found
        obtain ⟨c, deeper, rfl⟩ := found
        refine step deeper fun words => ?_
        have few : Node.fresh.wordsRead false words ≤ 1 := by
          cases words <;> simp [Node.wordsRead, Node.fresh, Node.find, Node.mNodes]
        omega

theorem wordsRead_removeFromTree (fd : Fd) (words : List UInt32) (n : Node) :
    (n.removeFromTree fd).wordsRead false words = n.wordsRead false words := by
  induction words generalizing n with
  | nil => rfl
  | cons id words ih =>
    simp only [Node.wordsRead, Node.find_removeFromTree]
    cases n.find id with
    | none => rfl
    | some child => exact congrArg (· + 1) (ih child)

theorem shallow_findThen {t : ClientTree} {create : Bool} {g : Node → Node} {m : Node}
    {path : List UInt32} (shallow : t.Shallow) (below : ∀ n, (g n).mNodes = n.mNodes)
    (few : path.length ≤ stdEventKeyMax) (found : t.head.findThen create g path = some m) :
    ClientTree.Shallow ⟨m⟩ := by
  intro words
  have := wordsRead_findThen below found words
  have := shallow words
  dsimp only
  omega

/-- Where no search goes far, a sized frame is complete. -/
theorem Frame.Sized.complete {t : ClientTree} {f : Frame} (sized : f.Sized) (shallow : t.Shallow) :
    f.Complete t := by
  refine ⟨sized, fun pub fits => ?_⟩
  have all := (sized.msg pub).2 fits
  have few := shallow f.words
  unfold sizeofMsg sizeofEventMsg at all
  unfold stdEventKeyMax at few
  omega

theorem Served.shallow {t : ClientTree} (served : Served t) : t.Shallow := by
  induction served with
  | start =>
    intro words
    cases words <;> simp [Node.wordsRead, ClientTree.empty, Node.fresh, Node.find, Node.mNodes]
  | closed fd _ ih =>
    intro words
    exact (wordsRead_removeFromTree fd words _).trans_le (ih words)
  | @frame t heap fd residue f _ r sized ih =>
    have here : ¬ f.bytes.length < sizeofMsg := Nat.not_lt.mpr sized.op
    have few (reg : f.IsReg) : f.words.length ≤ stdEventKeyMax := by
      simpa [Frame.words, keyWords] using (sized.key reg).2
    rw [someData_complete heap fd (sized.complete ih) r]
    by_cases known : ∀ m : MsgType, loadLe f.byte 0 4 ≠ m.value
    · rw [handle_other here known]
      exact ih
    obtain ⟨m, is_⟩ := not_forall_not.mp known
    cases m with
    | addReg =>
      rw [handle_addReg here is_]
      dsimp only [ClientTree.regWords]
      split
      · exact ih
      · rename_i found
        exact shallow_findThen ih (g := (·.insert fd)) (fun _ => rfl) (few (.inl is_)) found
    | delReg =>
      rw [handle_delReg here is_]
      dsimp only [ClientTree.deregWords]
      split
      · exact ih
      · rename_i found
        exact shallow_findThen ih (g := (·.remove fd)) (fun _ => rfl) (few (.inr is_)) found
    | publish =>
      rw [handle_publish here is_]
      dsimp only
      split <;> exact ih
    | buffer =>
      rw [handle_buffer here is_]
      exact ih

end SonicUtils.Event
