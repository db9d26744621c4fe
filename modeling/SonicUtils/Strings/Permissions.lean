import SonicUtils.Config.Model
import SonicUtils.Transfer.Syscall

/-!
# Permission strings

`std_user_chmod` of `std_user_perm.cpp`. A mode of 0 stands for one that has
not been read from the file yet.

* `clauses`: what a permission string says;
* `chmod_spec`: what the call makes of the mode of the file;
* `Says.append`: two strings one behind the other;
* `modeAfter_eq_iff`: when two modes of a file make no difference to a running mode;
* `chmod_composes_iff`: when two strings one behind the other do what the two
  calls do.
-/

namespace SonicUtils.Permissions

open SonicUtils.Config (Bytes CString)
open SonicUtils.Transfer Loop

/-- `mode_t`. -/
abbrev Mode := BitVec 32

/-- `_perm_map`. -/
def permMap : List (UInt8 × List (UInt8 × Mode)) := [
  ('a'.toUInt8, [('r'.toUInt8, 0o444), ('w'.toUInt8, 0o222), ('x'.toUInt8, 0o111)]),
  ('o'.toUInt8, [('r'.toUInt8, 0o004), ('w'.toUInt8, 0o002), ('x'.toUInt8, 0o001)]),
  ('g'.toUInt8, [('r'.toUInt8, 0o040), ('w'.toUInt8, 0o020), ('x'.toUInt8, 0o010)]),
  ('u'.toUInt8, [('r'.toUInt8, 0o400), ('w'.toUInt8, 0o200), ('x'.toUInt8, 0o100)])]

def opSet : UInt8 := '='.toUInt8
def opAdd : UInt8 := '+'.toUInt8
def opRemove : UInt8 := '-'.toUInt8

def validOper (elem : UInt8) : Bool := elem == opSet || elem == opAdd || elem == opRemove

/-- The user of a clause, `u` where it names none. -/
def chompUser (permStr : Bytes) : UInt8 × Bytes :=
  let elem := permStr.headD 0
  if (permMap.lookup elem).isSome then (elem, permStr.tail) else ('u'.toUInt8, permStr)

/-- The operator of a clause, `+` where it names none. -/
def chompOper (permStr : Bytes) : UInt8 × Bytes :=
  let elem := permStr.headD 0
  if validOper elem then (elem, permStr.tail) else (opAdd, permStr)

/-- The loop of `_chomp`. -/
def chompBits (bits : List (UInt8 × Mode)) : Bytes → Mode → Bytes × Mode
  | [], mod => ([], mod)
  | elem :: permStr, mod =>
    match bits.lookup elem with
    | none => (elem :: permStr, mod)
    | some bit => chompBits bits permStr (mod ||| bit)

/-- What `_chomp` returns, and what it leaves in its arguments. -/
structure Chomped where
  valid : Bool
  permStr : Bytes
  op : UInt8
  mod : Mode
  deriving DecidableEq, Repr

/-- `_chomp`. -/
def chomp (permStr : Bytes) (mod : Mode) : Except Fault Chomped := do
  let (user, permStr) := chompUser permStr
  let (op, permStr) := chompOper permStr
  let it := permMap.lookup user
  check (it ≠ none)
  let bits ← deref it
  if bits.lookup (permStr.headD 0) = none then return ⟨false, permStr, op, mod⟩
  else
    let (permStr, mod) := chompBits bits permStr mod
    return ⟨true, permStr, op, mod⟩

/-- `all_mode_mask`. -/
def allModeMask : Mode :=
  let bit (elem : Char) := ((permMap.lookup 'a'.toUInt8).bind (List.lookup elem.toUInt8)).getD 0
  bit 'w' ||| bit 'r' ||| bit 'x'

/-- An operator and the bits it is about. -/
structure Clause where
  op : UInt8
  bits : Mode
  deriving DecidableEq, Repr

/-- What the loop of `std_user_chmod` does to `mod` for one clause. -/
def Clause.apply (stMode mod : Mode) (c : Clause) : Mode :=
  let mod := if c.op = opSet then c.bits else if mod = 0 then stMode &&& allModeMask else mod
  let mod := if c.op = opAdd then mod ||| c.bits else mod
  if c.op = opRemove then mod &&& ~~~c.bits else mod

/-- What is left of the string, and `mod`. -/
structure Setting where
  permStr : Bytes
  mod : Mode
  deriving DecidableEq, Repr

/-- One turn of the loop of `std_user_chmod`. It ends with the mode for `chmod`
or with an error. -/
def chmodTurn (stMode : Mode) (l : Setting) : Except Fault (Setting ⊕ Except StdError Mode) :=
  if l.permStr = [] then return .inr (.ok l.mod)
  else do
    let c ← chomp l.permStr 0
    if !c.valid then return .inr (.error (stdErr .param (c.permStr.headD 0).toBitVec.toInt))
    else return .inl ⟨c.permStr, (Clause.mk c.op c.mod).apply stMode l.mod⟩

/-- The errors of the two system calls, if they fail. -/
structure Calls where
  stat : Option Errno
  chmod : Option Errno
  deriving DecidableEq, Repr

/-- `std_user_chmod`, with the mode of the file before and after it. `chmod`
changes the nine bits of the permissions. -/
def stdUserChmod (calls : Calls) (permStr : CString) (stMode : Mode) (fuel : Nat) : Except Fault (StdError × Mode) :=
  match calls.stat with
  | some err => return (stdErr .fail err, stMode)
  | none => do
    match ← loop .noReturn (chmodTurn stMode) fuel ⟨permStr.1, 0⟩ with
    | .error rc => return (rc, stMode)
    | .ok mod =>
      match calls.chmod with
      | some err => return (stdErr .fail err, stMode)
      | none => return (stdErrOk, (stMode &&& ~~~allModeMask) ||| (mod &&& allModeMask))

/-! ## Clauses -/

/-- The clauses of a string, up to the first one that is not valid. -/
def clausesFrom : Nat → Bytes → List Clause
  | 0, _ => []
  | fuel + 1, permStr =>
    match chomp permStr 0 with
    | .ok ⟨true, permStr, op, mod⟩ => ⟨op, mod⟩ :: clausesFrom fuel permStr
    | _ => []

def clauses (permStr : CString) : List Clause := clausesFrom permStr.1.length permStr.1

/-- The string is made of these clauses and nothing else. -/
inductive Says : Bytes → List Clause → Prop
  | nil : Says [] []
  | cons {permStr rest : Bytes} {op : UInt8} {bits : Mode} {cs : List Clause} :
      permStr ≠ [] → chomp permStr 0 = .ok ⟨true, rest, op, bits⟩ → Says rest cs → Says permStr (⟨op, bits⟩ :: cs)

variable {permStr rest s t : Bytes} {user elem op : UInt8} {mod st m : Mode} {cs ds : List Clause} {bits : List (UInt8 × Mode)}

def letters : List UInt8 := ['r'.toUInt8, 'w'.toUInt8, 'x'.toUInt8]

theorem lookup_isSome {β : Type} (l : List (UInt8 × β)) (elem : UInt8) :
    (l.lookup elem).isSome = (l.map Prod.fst).contains elem := by
  induction l with
  | nil => rfl
  | cons entry l ih =>
    rw [List.lookup_cons, List.map_cons, List.contains_cons]
    cases elem == entry.1 with
    | true => rfl
    | false => exact ih

/-- The users of `_perm_map` have the same three letters. -/
theorem lookup_bits (known : permMap.lookup user = some bits) (elem : UInt8) :
    (bits.lookup elem).isSome = letters.contains elem := by
  have same : ∀ entry ∈ permMap, entry.2.map Prod.fst = letters := by decide
  obtain ⟨before, after, split, _⟩ := List.lookup_eq_some_iff.mp known
  rw [lookup_isSome, same (user, bits) (by simp [split])]

theorem chompUser_known (permStr : Bytes) : ∃ bits, permMap.lookup (chompUser permStr).1 = some bits := by
  unfold chompUser
  dsimp only
  split
  · rename_i known
    exact Option.isSome_iff_exists.mp known
  · exact Option.isSome_iff_exists.mp rfl

theorem chompUser_append (some_ : s ≠ []) (t : Bytes) :
    chompUser (s ++ t) = ((chompUser s).1, (chompUser s).2 ++ t) := by
  obtain ⟨c, s, rfl⟩ := List.exists_cons_of_ne_nil some_
  unfold chompUser
  dsimp only [List.cons_append, List.headD_cons, List.tail_cons]
  split <;> rfl

theorem chompOper_append (some_ : s ≠ []) (t : Bytes) :
    chompOper (s ++ t) = ((chompOper s).1, (chompOper s).2 ++ t) := by
  obtain ⟨c, s, rfl⟩ := List.exists_cons_of_ne_nil some_
  unfold chompOper
  dsimp only [List.cons_append, List.headD_cons, List.tail_cons]
  split <;> rfl

theorem chompBits_append (stops : ∀ c, t.head? = some c → bits.lookup c = none) (s : Bytes) (mod : Mode) :
    chompBits bits (s ++ t) mod = ((chompBits bits s mod).1 ++ t, (chompBits bits s mod).2) := by
  induction s generalizing mod with
  | nil =>
    cases t with
    | nil => rfl
    | cons c t => simp [chompBits, stops c rfl]
  | cons c s ih =>
    rw [List.cons_append, chompBits, chompBits]
    cases bits.lookup c with
    | none => rfl
    | some bit => exact ih (mod ||| bit)

theorem chompBits_length (bits : List (UInt8 × Mode)) (s : Bytes) (mod : Mode) :
    (chompBits bits s mod).1.length ≤ s.length := by
  induction s generalizing mod with
  | nil => exact Nat.le_refl _
  | cons c s ih =>
    rw [chompBits]
    cases bits.lookup c with
    | none => exact Nat.le_refl _
    | some bit => exact (ih (mod ||| bit)).trans (Nat.le_succ _)

theorem chompUser_length (s : Bytes) : (chompUser s).2.length ≤ s.length := by
  unfold chompUser
  dsimp only
  split <;> simp

theorem chompOper_length (s : Bytes) : (chompOper s).2.length ≤ s.length := by
  unfold chompOper
  dsimp only
  split <;> simp

/-- A clause ends where there is no letter. -/
def Stops (t : Bytes) : Prop := ∀ c, t.head? = some c → letters.contains c = false

theorem chomp_eq (known : permMap.lookup (chompUser s).1 = some bits) (mod : Mode) :
    chomp s mod =
      let r := chompOper (chompUser s).2
      if bits.lookup (r.2.headD 0) = none then .ok ⟨false, r.2, r.1, mod⟩
      else .ok ⟨true, (chompBits bits r.2 mod).1, r.1, (chompBits bits r.2 mod).2⟩ := by
  unfold chomp
  dsimp only
  rw [known, check_of (Option.some_ne_none _), ok_bind, deref_some, ok_bind]
  rfl

theorem chomp_total (s : Bytes) (mod : Mode) : ∃ c, chomp s mod = .ok c := by
  obtain ⟨bits, known⟩ := chompUser_known s
  rw [chomp_eq known]
  dsimp only
  split <;> exact ⟨_, rfl⟩

/-- What `_chomp` accepts is the start of a string, and it takes the same off a
longer one. -/
theorem chomp_valid (taken : chomp s mod = .ok ⟨true, rest, op, m⟩) :
    rest.length < s.length ∧ ∀ t, Stops t → chomp (s ++ t) mod = .ok ⟨true, rest ++ t, op, m⟩ := by
  obtain ⟨bits, known⟩ := chompUser_known s
  have user := chompUser_length s
  have oper := chompOper_length (chompUser s).2
  rw [chomp_eq known] at taken
  dsimp only at taken
  split at taken
  · cases taken
  · rename_i letter
    cases taken
    have head := lookup_bits known ((chompOper (chompUser s).2).2.headD 0)
    rw [Option.isSome_iff_ne_none.mpr letter] at head
    cases text : (chompOper (chompUser s).2).2 with
    | nil =>
      rw [text] at head
      cases head
    | cons c left =>
      rw [text] at oper letter
      rw [List.length_cons] at oper
      obtain ⟨bit, found⟩ := Option.ne_none_iff_exists'.mp letter
      constructor
      · have fewer := chompBits_length bits left (mod ||| bit)
        rw [chompBits, show bits.lookup c = some bit from found]
        dsimp only
        omega
      · intro t stops
        have fits (n : List UInt8) (more : 0 < n.length) : n ≠ [] := List.length_pos_iff.mp more
        have known' : permMap.lookup (chompUser (s ++ t)).1 = some bits := by
          rw [chompUser_append (fits s (by omega))]
          exact known
        have ends (d : UInt8) (first : t.head? = some d) : bits.lookup d = none := by
          rw [← Option.isNone_iff_eq_none, ← Option.not_isSome, lookup_bits known, stops d first]
          rfl
        rw [chomp_eq known', chompUser_append (fits s (by omega)), chompOper_append (fits _ (by omega))]
        dsimp only
        rw [text, chompBits_append ends]
        exact if_neg letter

/-! ## Strings of clauses -/

/-- The mode after some clauses. -/
def modeAfter (st m : Mode) (cs : List Clause) : Mode := cs.foldl (Clause.apply st) m

theorem clausesFrom_taken (taken : chomp s 0 = .ok ⟨true, rest, op, m⟩) (fuel : Nat) :
    clausesFrom (fuel + 1) s = ⟨op, m⟩ :: clausesFrom fuel rest := by
  change (match chomp s 0 with
    | .ok ⟨true, permStr, op, mod⟩ => Clause.mk op mod :: clausesFrom fuel permStr
    | _ => []) = _
  rw [taken]

theorem Says.clausesFrom (said : Says s cs) (fuel : Nat) (enough : s.length ≤ fuel) : clausesFrom fuel s = cs := by
  induction said generalizing fuel with
  | nil => cases fuel <;> rfl
  | cons some_ taken _ ih =>
    have shorter := (chomp_valid taken).1
    cases fuel with
    | zero => omega
    | succ fuel =>
      rw [clausesFrom_taken taken, ih fuel (by omega)]

theorem Says.append (first : Says s cs) (stops : Stops t) (second : Says t ds) : Says (s ++ t) (cs ++ ds) := by
  induction first with
  | nil => exact second
  | cons some_ taken _ ih => exact .cons (by simp [some_]) ((chomp_valid taken).2 t stops) ih

/-- A string of clauses is carried out. -/
theorem Says.ends (said : Says s cs) (st m : Mode) :
    Ends .noReturn (chmodTurn st) ⟨s, m⟩ (.ok (modeAfter st m cs)) := by
  induction said generalizing m with
  | nil => exact .done rfl
  | cons some_ taken _ ih =>
    refine .head ?_ (ih _)
    rw [chmodTurn, if_neg some_, taken]
    rfl

/-- The loop has been through a string of clauses, or it gives an error. -/
theorem says_or_error {fuel : Nat} {r : Except StdError Mode} (run : loop .noReturn (chmodTurn st) fuel ⟨s, m⟩ = .ok r) :
    (∃ cs, Says s cs ∧ r = .ok (modeAfter st m cs)) ∨ ∃ priv, r = .error (stdErr .param priv) := by
  induction fuel generalizing s m with
  | zero => cases run
  | succ fuel ih =>
    by_cases empty : s = []
    · subst empty
      rw [loop_inr fuel (show chmodTurn st ⟨[], m⟩ = .ok (.inr (.ok m)) from rfl)] at run
      cases run
      exact .inl ⟨[], .nil, rfl⟩
    · obtain ⟨⟨valid, rest, op, bits⟩, taken⟩ := chomp_total s 0
      cases valid with
      | false =>
        have turn : chmodTurn st ⟨s, m⟩ = .ok (.inr (.error (stdErr .param (rest.headD 0).toBitVec.toInt))) := by
          rw [chmodTurn, if_neg empty, taken]
          rfl
        rw [loop_inr fuel turn] at run
        cases run
        exact .inr ⟨_, rfl⟩
      | true =>
        have turn : chmodTurn st ⟨s, m⟩ = .ok (.inl ⟨rest, (Clause.mk op bits).apply st m⟩) := by
          rw [chmodTurn, if_neg empty, taken]
          rfl
        rw [loop_inl fuel turn] at run
        obtain ⟨cs, said, value⟩ | failed := ih run
        · exact .inl ⟨⟨op, bits⟩ :: cs, .cons empty taken said, value⟩
        · exact .inr failed

/-- The nine bits of a mode. -/
def perms (mode : Mode) : Mode := mode &&& allModeMask

/-- Both system calls succeed. -/
def fine : Calls := ⟨none, none⟩

/-- The mode of a file with other permissions. -/
def withPerms (mode mod : Mode) : Mode := (mode &&& ~~~allModeMask) ||| (mod &&& allModeMask)

/-- **What the call makes of the mode**, for a string that it accepts. -/
theorem chmod_spec (str : CString) (mode after : Mode) :
    Returns (stdUserChmod fine str mode) (stdErrOk, after) ↔
      ∃ cs, Says str.1 cs ∧ after = withPerms mode (modeAfter mode 0 cs) := by
  constructor
  · rintro ⟨enough, run⟩
    have run := run enough (Nat.le_refl _)
    unfold stdUserChmod fine at run
    dsimp only at run
    cases ended : loop .noReturn (chmodTurn mode) enough ⟨str.1, 0⟩ with
    | error e =>
      rw [ended] at run
      cases run
    | ok result =>
      rw [ended] at run
      obtain ⟨cs, said, rfl⟩ | ⟨priv, rfl⟩ := says_or_error ended
      · cases run
        exact ⟨cs, said, rfl⟩
      · have code := congrArg Prod.fst (Except.ok.inj run)
        exact absurd code (stdErr_ne_ok .param priv)
  · rintro ⟨cs, said, rfl⟩
    obtain ⟨enough, run⟩ := said.ends mode 0
    refine ⟨enough, fun fuel more => ?_⟩
    have ended := run fuel more
    dsimp only at ended
    unfold stdUserChmod fine
    dsimp only
    rw [ended]
    rfl

/-! ## Modes -/

/-- The bits that a clause sets or clears, whatever they were. -/
def Clause.touched (c : Clause) : Mode :=
  if c.op = opSet then BitVec.allOnes 32 else if c.op = opAdd ∨ c.op = opRemove then c.bits else 0

/-- What a clause makes of a mode that it does not take for one not read yet. -/
def Clause.alter (mod : Mode) (c : Clause) : Mode :=
  (mod &&& ~~~c.touched) ||| if c.op = opRemove then 0 else c.bits &&& c.touched

theorem and_not_zero (m : Mode) : m &&& ~~~0 = m := BitVec.and_allOnes

theorem Clause.apply_eq (st m : Mode) (c : Clause) : c.apply st m = c.alter (if m = 0 then perms st else m) := by
  have addRemove : opAdd ≠ opRemove := by decide
  have setAdd : opSet ≠ opAdd := by decide
  have setRemove : opSet ≠ opRemove := by decide
  unfold Clause.apply Clause.alter Clause.touched perms
  dsimp only
  obtain ⟨base, hbase⟩ : ∃ base, (if m = 0 then st &&& allModeMask else m) = base := ⟨_, rfl⟩
  rw [hbase]
  by_cases set : c.op = opSet
  · simp only [set, setAdd, setRemove, ↓reduceIte, BitVec.not_allOnes, BitVec.and_zero, BitVec.zero_or, BitVec.and_allOnes]
  · by_cases add : c.op = opAdd
    · simp only [add, setAdd.symm, addRemove, ↓reduceIte, true_or]
      ext i
      simp
      grind
    · by_cases remove : c.op = opRemove
      · simp [remove, addRemove.symm, setRemove.symm]
      · simp only [set, add, remove, ↓reduceIte, or_self, and_not_zero]
        rw [show c.bits &&& 0 = 0 from BitVec.and_zero, show base ||| 0 = base from BitVec.or_zero]

def alters (m : Mode) (cs : List Clause) : Mode := cs.foldl Clause.alter m

/-- The bits that some clause sets or clears. -/
def touched : List Clause → Mode
  | [] => 0
  | c :: cs => c.touched ||| touched cs

/-- The bits that are not touched stay, and the others do not depend on what they were. -/
theorem alters_eq (m : Mode) (cs : List Clause) : alters m cs = (m &&& ~~~touched cs) ||| alters 0 cs := by
  induction cs generalizing m with
  | nil => exact (and_not_zero m).symm.trans BitVec.or_zero.symm
  | cons c cs ih =>
    have first (m : Mode) : alters m (c :: cs) = alters (c.alter m) cs := rfl
    rw [first, first, ih, ih (c.alter 0), touched]
    unfold Clause.alter
    ext i
    simp
    grind

theorem bit_alter (m : Mode) (c : Clause) {i : Nat} (hi : i < 32) : (c.alter m).getLsbD i = true ↔
    (m.getLsbD i = true ∧ c.touched.getLsbD i = false) ∨
      (c.op ≠ opRemove ∧ c.bits.getLsbD i = true ∧ c.touched.getLsbD i = true) := by
  unfold Clause.alter
  by_cases remove : c.op = opRemove
  · simp [remove, hi]
  · simp [remove, hi]

theorem touched_of_alters {i : Nat} (hi : i < 32) (set : (alters 0 cs).getLsbD i = true) :
    (touched cs).getLsbD i = true := by
  induction cs with
  | nil => simp [alters] at set
  | cons c cs ih =>
    have first : alters 0 (c :: cs) = alters (c.alter 0) cs := rfl
    rw [first, alters_eq, BitVec.getLsbD_or, BitVec.getLsbD_and, Bool.or_eq_true, Bool.and_eq_true, bit_alter 0 c hi] at set
    rw [touched, BitVec.getLsbD_or, Bool.or_eq_true]
    obtain ⟨⟨zero, _⟩ | ⟨_, _, here⟩, _⟩ | later := set
    · simp at zero
    · exact .inl here
    · exact .inr (ih later)

/-- The clauses from the last point on at which the running mode is 0, where
the mode of the file counts again. -/
def sinceZero (st : Mode) : Mode → List Clause → Option (List Clause)
  | _, [] => none
  | m, c :: cs => (sinceZero st (c.apply st m) cs).or (if m = 0 then some (c :: cs) else none)

theorem modeAfter_eq (st m : Mode) (cs : List Clause) :
    modeAfter st m cs = match sinceZero st m cs with
      | some ds => alters (perms st) ds
      | none => alters m cs := by
  induction cs generalizing m with
  | nil => rfl
  | cons c cs ih =>
    have first : modeAfter st m (c :: cs) = modeAfter st (c.apply st m) cs := rfl
    rw [first, ih, sinceZero]
    cases sinceZero st (c.apply st m) cs with
    | some ds => rfl
    | none =>
      rw [Option.none_or, Clause.apply_eq]
      by_cases zero : m = 0
      · rw [if_pos zero, if_pos zero]
        rfl
      · rw [if_neg zero, if_neg zero]
        rfl

/-- What the clauses set by themselves, they set in any mode. -/
theorem bit_modeAfter {i : Nat} (hi : i < 32) (st m : Mode) (set : (alters 0 cs).getLsbD i = true) : (modeAfter st m cs).getLsbD i = true := by
  induction cs using List.reverseRecOn with
  | nil => simp [alters] at set
  | append_singleton cs c ih =>
    have last (m : Mode) : alters m (cs ++ [c]) = c.alter (alters m cs) := by simp [alters]
    have last' : modeAfter st m (cs ++ [c]) = c.apply st (modeAfter st m cs) := by simp [modeAfter]
    rw [last, bit_alter _ c hi] at set
    rw [last', Clause.apply_eq, bit_alter _ c hi]
    obtain ⟨before, kept⟩ | here := set
    · have bit := ih before
      have nonzero : modeAfter st m cs ≠ 0 := by
        intro zero
        rw [zero] at bit
        simp at bit
      rw [if_neg nonzero]
      exact .inl ⟨bit, kept⟩
    · exact .inr here

theorem sinceZero_some (found : sinceZero st m cs = some ds) : ∃ before, cs = before ++ ds ∧ modeAfter st m before = 0 := by
  induction cs generalizing m with
  | nil => cases found
  | cons c cs ih =>
    rw [sinceZero] at found
    cases later : sinceZero st (c.apply st m) cs with
    | some es =>
      rw [later] at found
      cases found
      obtain ⟨before, rfl, zero⟩ := ih later
      exact ⟨c :: before, rfl, zero⟩
    | none =>
      rw [later, Option.none_or] at found
      by_cases zero : m = 0
      · rw [if_pos zero] at found
        cases found
        exact ⟨[], rfl, zero⟩
      · rw [if_neg zero] at found
        cases found

/-- From such a point on the same bits are set as from the start. -/
theorem alters_sinceZero (found : sinceZero st m cs = some ds) : alters 0 ds = alters 0 cs := by
  obtain ⟨before, rfl, zero⟩ := sinceZero_some found
  have cleared : alters 0 before = 0 := by
    apply BitVec.eq_of_getLsbD_eq
    intro i hi
    cases set : (alters 0 before).getLsbD i with
    | false => simp
    | true =>
      have bit := bit_modeAfter hi st m set
      rw [zero] at bit
      simp at bit
  have whole : alters 0 (before ++ ds) = alters (alters 0 before) ds := by simp [alters]
  rw [whole, cleared]

/-- Up to the first such point the two runs are one. -/
theorem sinceZero_isSome (st st' m : Mode) (cs : List Clause) : (sinceZero st m cs).isSome = (sinceZero st' m cs).isSome := by
  induction cs generalizing m with
  | nil => rfl
  | cons c cs ih =>
    by_cases zero : m = 0
    · simp [sinceZero, zero]
    · have same : c.apply st m = c.apply st' m := by
        rw [Clause.apply_eq, Clause.apply_eq, if_neg zero, if_neg zero]
      rw [sinceZero, sinceZero, if_neg zero, Option.or_none, Option.or_none, same, ih]

theorem or_cancel {a b p : Mode} (left : ∀ i < 32, p.getLsbD i = true → a.getLsbD i = false)
    (right : ∀ i < 32, p.getLsbD i = true → b.getLsbD i = false) : a ||| p = b ||| p ↔ a = b := by
  constructor
  · intro same
    apply BitVec.eq_of_getLsbD_eq
    intro i hi
    have bit := congrArg (fun x => x.getLsbD i) same
    cases set : p.getLsbD i with
    | true => rw [left i hi set, right i hi set]
    | false => simpa [set] using bit
  · exact congrArg (· ||| p)

/-- The bits of the file's mode that still count at the end. -/
def counting (st m : Mode) (cs : List Clause) : Mode :=
  match sinceZero st m cs with
  | some ds => perms st &&& ~~~touched ds
  | none => 0

/-- **When two modes of a file make no difference.** -/
theorem modeAfter_eq_iff (st st' m : Mode) (cs : List Clause) :
    modeAfter st m cs = modeAfter st' m cs ↔ counting st m cs = counting st' m cs := by
  have both := sinceZero_isSome st st' m cs
  rw [modeAfter_eq, modeAfter_eq]
  unfold counting
  cases found : sinceZero st m cs with
  | none =>
    cases found' : sinceZero st' m cs with
    | none => simp
    | some ds' =>
      rw [found, found'] at both
      cases both
  | some ds =>
    cases found' : sinceZero st' m cs with
    | none =>
      rw [found, found'] at both
      cases both
    | some ds' =>
      dsimp only
      have apart {x : Mode} {es : List Clause} (end_ : alters 0 es = alters 0 cs) (i : Nat) (hi : i < 32)
          (set : (alters 0 cs).getLsbD i = true) : (x &&& ~~~touched es).getLsbD i = false := by
        have mentioned := touched_of_alters hi (end_ ▸ set)
        simp [mentioned]
      have same := alters_sinceZero found
      have same' := alters_sinceZero found'
      rw [alters_eq, alters_eq (perms st'), same, same']
      exact or_cancel (apart same) (apart same')

/-! ## One string behind the other -/

theorem perms_withPerms (mode mod : Mode) : perms (withPerms mode mod) = perms mod := by
  unfold perms withPerms
  ext i
  simp
  grind

theorem withPerms_withPerms (mode mod mod' : Mode) : withPerms (withPerms mode mod) mod' = withPerms mode mod' := by
  unfold withPerms
  ext i
  simp
  grind

/-- A mode has no bits but those of the permissions. -/
def Plain (m : Mode) : Prop := perms m = m

theorem Plain.or {a b : Mode} (ha : Plain a) (hb : Plain b) : Plain (a ||| b) := by
  unfold Plain perms at ha hb ⊢
  rw [BitVec.and_comm, BitVec.and_or_distrib_left, BitVec.and_comm, ha, BitVec.and_comm, hb]

theorem Plain.and {a : Mode} (ha : Plain a) (b : Mode) : Plain (a &&& b) := by
  unfold Plain perms at ha ⊢
  rw [BitVec.and_assoc, BitVec.and_comm b, ← BitVec.and_assoc, ha]

theorem plain_perms (m : Mode) : Plain (perms m) := by
  unfold Plain perms
  rw [BitVec.and_assoc, BitVec.and_self]

theorem chompBits_plain (known : permMap.lookup user = some bits) (s : Bytes) (mod : Mode) (plain : Plain mod) :
    Plain (chompBits bits s mod).2 := by
  have entries : (permMap.all fun entry => entry.2.all fun letter => perms letter.2 == letter.2) = true := by decide
  obtain ⟨before, after, split, _⟩ := List.lookup_eq_some_iff.mp known
  have all := List.all_eq_true.mp (List.all_eq_true.mp entries (user, bits) (by simp [split]))
  induction s generalizing mod with
  | nil => exact plain
  | cons c s ih =>
    rw [chompBits]
    cases found : bits.lookup c with
    | none => exact plain
    | some bit =>
      obtain ⟨_, _, here, _⟩ := List.lookup_eq_some_iff.mp found
      exact ih (mod ||| bit) (plain.or (eq_of_beq (all (c, bit) (by simp [here]))))

theorem chomp_plain (taken : chomp s 0 = .ok ⟨true, rest, op, m⟩) : Plain m := by
  obtain ⟨bits, known⟩ := chompUser_known s
  rw [chomp_eq known] at taken
  dsimp only at taken
  split at taken
  · cases taken
  · cases taken
    exact chompBits_plain known _ 0 rfl

theorem Says.plain (said : Says s cs) : ∀ c ∈ cs, Plain c.bits := by
  induction said with
  | nil =>
    intro c mem
    cases mem
  | cons _ taken _ ih => exact List.forall_mem_cons.mpr ⟨chomp_plain taken, ih⟩

theorem Clause.plain_apply (st : Mode) {m : Mode} (plain : Plain m) {c : Clause} (bits : Plain c.bits) :
    Plain (c.apply st m) := by
  rw [Clause.apply_eq, Clause.alter]
  apply Plain.or
  · apply Plain.and
    split
    · exact plain_perms st
    · exact plain
  · split
    · rfl
    · exact bits.and _

theorem plain_modeAfter (st : Mode) {m : Mode} (plain : Plain m) (all : ∀ c ∈ cs, Plain c.bits) :
    Plain (modeAfter st m cs) := by
  induction cs generalizing m with
  | nil => exact plain
  | cons c cs ih =>
    obtain ⟨bits, all⟩ := List.forall_mem_cons.mp all
    exact ih (Clause.plain_apply st plain bits) all

/-- A call starts as if the mode had been read from the file. -/
theorem modeAfter_start (st : Mode) (some_ : cs ≠ []) : modeAfter st 0 cs = modeAfter st (perms st) cs := by
  obtain ⟨c, cs, rfl⟩ := List.exists_cons_of_ne_nil some_
  have first : c.apply st 0 = c.apply st (perms st) := by
    rw [Clause.apply_eq, Clause.apply_eq, if_pos rfl, ite_self]
  exact congrArg (fun m => modeAfter st m cs) first

theorem Says.clauses_eq {str : CString} (said : Says str.1 cs) : clauses str = cs :=
  said.clausesFrom _ (Nat.le_refl _)

/-- `s1` and `s2` in one string. -/
def concat (s1 s2 : CString) : CString := ⟨s1.1 ++ s2.1, by simp [s1.2, s2.2]⟩

/-- The first character of a string is one that a clause starts with, and no letter. -/
def StartsClause (s : Bytes) : Prop := ∃ c, s.head? = some c ∧
  c ∈ ['u'.toUInt8, 'g'.toUInt8, 'o'.toUInt8, 'a'.toUInt8, '+'.toUInt8, '-'.toUInt8, '='.toUInt8]

theorem StartsClause.stops (h : StartsClause t) : Stops t := by
  obtain ⟨c, first, mem⟩ := h
  intro d first'
  cases first.symm.trans first'
  have all : (['u'.toUInt8, 'g'.toUInt8, 'o'.toUInt8, 'a'.toUInt8, '+'.toUInt8, '-'.toUInt8, '='.toUInt8].all fun c =>
      letters.contains c == false) = true := by decide
  exact eq_of_beq (List.all_eq_true.mp all c mem)

theorem Says.some (said : Says s cs) (starts : StartsClause s) : cs ≠ [] := by
  obtain ⟨c, first, _⟩ := starts
  cases said with
  | nil => cases first
  | cons => exact List.cons_ne_nil _ _

/-- **When permission strings compose.** A running mode of 0 is taken for one
that has not been read yet. The bits of the mode of the file that still count
then have to be the same before `s1` and after it. -/
theorem chmod_composes_iff (s1 s2 : CString) (file between after : Mode)
    (first : Returns (stdUserChmod fine s1 file) (stdErrOk, between))
    (second : Returns (stdUserChmod fine s2 between) (stdErrOk, after)) (starts : StartsClause s2.1) :
    Returns (stdUserChmod fine (concat s1 s2) file) (stdErrOk, after) ↔
      counting file (perms between) (clauses s2) = counting between (perms between) (clauses s2) := by
  obtain ⟨cs, said, rfl⟩ := (chmod_spec s1 file between).mp first
  obtain ⟨ds, said', rfl⟩ := (chmod_spec s2 _ after).mp second
  obtain ⟨m, hm⟩ : ∃ m, modeAfter file 0 cs = m := ⟨_, rfl⟩
  have plain : Plain m := hm ▸ plain_modeAfter file rfl said.plain
  have some_ : ds ≠ [] := said'.some starts
  have joined : Says (concat s1 s2).1 (cs ++ ds) := said.append starts.stops said'
  have whole : modeAfter file 0 (cs ++ ds) = modeAfter file m ds := by
    rw [← hm]
    exact List.foldl_append
  have here : perms (withPerms file m) = m := (perms_withPerms file m).trans plain
  rw [said'.clauses_eq, hm, here, ← modeAfter_eq_iff, modeAfter_start _ some_, here, chmod_spec, withPerms_withPerms]
  constructor
  · rintro ⟨es, said'', same⟩
    cases said''.clauses_eq.symm.trans joined.clauses_eq
    have bits := congrArg perms same
    rw [perms_withPerms, perms_withPerms, whole, plain_modeAfter _ plain said'.plain, plain_modeAfter _ plain said'.plain] at bits
    exact bits.symm
  · intro same
    exact ⟨cs ++ ds, joined, by rw [whole, same]⟩

/-- `u=rx` and `g+w`. -/
theorem chmod_composes_iff_plain :
    let s1 : CString := ⟨['u', '=', 'r', 'x'].map Char.toUInt8, by decide⟩
    let s2 : CString := ⟨['g', '+', 'w'].map Char.toUInt8, by decide⟩
    Returns (stdUserChmod fine (concat s1 s2) 0o100755) (stdErrOk, 0o100520) ↔
      counting 0o100755 (perms 0o100500) (clauses s2) = counting 0o100500 (perms 0o100500) (clauses s2) := by
  intro s1 s2
  have said : Says s1.1 [⟨opSet, 0o500⟩] := .cons (by decide) (by decide) .nil
  have said' : Says s2.1 [⟨opAdd, 0o020⟩] := .cons (by decide) (by decide) .nil
  have first : Returns (stdUserChmod fine s1 0o100755) (stdErrOk, 0o100500) :=
    (chmod_spec ..).mpr ⟨_, said, by decide⟩
  have second : Returns (stdUserChmod fine s2 0o100500) (stdErrOk, 0o100520) :=
    (chmod_spec ..).mpr ⟨_, said', by decide⟩
  exact chmod_composes_iff s1 s2 0o100755 0o100500 0o100520 first second ⟨'g'.toUInt8, rfl, by decide⟩

/-- `a-rwx` and `u+r`, on a file with mode 755: the two calls leave 400, and the
one call 755. -/
theorem chmod_reads_again :
    let s1 : CString := ⟨['a', '-', 'r', 'w', 'x'].map Char.toUInt8, by decide⟩
    let s2 : CString := ⟨['u', '+', 'r'].map Char.toUInt8, by decide⟩
    Returns (stdUserChmod fine s1 0o100755) (stdErrOk, 0o100000) ∧
      Returns (stdUserChmod fine s2 0o100000) (stdErrOk, 0o100400) ∧
      Returns (stdUserChmod fine (concat s1 s2) 0o100755) (stdErrOk, 0o100755) ∧
      ¬ Returns (stdUserChmod fine (concat s1 s2) 0o100755) (stdErrOk, 0o100400) := by
  intro s1 s2
  have said : Says s1.1 [⟨opRemove, 0o777⟩] := .cons (by decide) (by decide) .nil
  have said' : Says s2.1 [⟨opAdd, 0o400⟩] := .cons (by decide) (by decide) .nil
  have joined : Says (concat s1 s2).1 [⟨opRemove, 0o777⟩, ⟨opAdd, 0o400⟩] := .cons (by decide) (by decide) said'
  have once : Returns (stdUserChmod fine (concat s1 s2) 0o100755) (stdErrOk, 0o100755) :=
    (chmod_spec ..).mpr ⟨_, joined, by decide⟩
  refine ⟨(chmod_spec ..).mpr ⟨_, said, by decide⟩, (chmod_spec ..).mpr ⟨_, said', by decide⟩, once, ?_⟩
  intro other
  have same := once.unique other
  revert same
  decide

end SonicUtils.Permissions
