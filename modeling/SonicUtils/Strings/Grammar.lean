import SonicUtils.Strings.Permissions

/-!
# The grammar of permission strings

`[ugoa]*([-+=][rwx]+)+`, one or more times, and what `std_user_chmod` makes of
such a string.

* `Term`, `PermString`: the strings of the grammar;
* `exists_permString`: they are all of them;
* `says_terms_iff`: the clauses that the loop takes such a string for;
* `permission_grammar_iff`: when these are the ones that the string is made of.
-/

namespace SonicUtils.Permissions

open SonicUtils.Config (Bytes CString)
open SonicUtils.Transfer Loop

/-- `[-+=][rwx]+`. -/
structure Operation where
  op : UInt8
  letters : Bytes
  oper : validOper op = true
  some_ : letters ≠ []
  known : ∀ c ∈ letters, Permissions.letters.contains c = true

/-- `[ugoa]*([-+=][rwx]+)+`. -/
structure Term where
  users : Bytes
  operations : List Operation
  known : ∀ c ∈ users, (permMap.lookup c).isSome = true
  some_ : operations ≠ []

def Operation.text (o : Operation) : Bytes := o.op :: o.letters

def Term.text (t : Term) : Bytes := t.users ++ t.operations.flatMap Operation.text

/-- A string of the grammar. An operator with no class in front of it belongs to the
clause before it, so only the first clause may name none. -/
structure PermString where
  terms : List Term
  some_ : terms ≠ []
  named : ∀ t ∈ terms.tail, t.users ≠ []

/-- The bits of some letters for a user. -/
def letterBits (user : UInt8) (ls : Bytes) : Mode :=
  ls.foldl (fun mod c => mod ||| ((permMap.lookup user).bind (List.lookup c)).getD 0) 0

/-- The bits of some letters for all of the users, and for `u` if there are none. -/
def classBits (users ls : Bytes) : Mode :=
  (if users = [] then ['u'.toUInt8] else users).foldl (fun mod user => mod ||| letterBits user ls) 0

/-- Each operator is about every class that the clause names. -/
def Term.means (t : Term) : List Clause := t.operations.map fun o => ⟨o.op, classBits t.users o.letters⟩

def PermString.means (p : PermString) : List Clause := p.terms.flatMap Term.means

variable {rest : Bytes} {user c : UInt8} {mod : Mode} {cs ds : List Clause} {bits : List (UInt8 × Mode)} {users : Bytes}

/-! ## Characters -/

theorem user_apart (known : (permMap.lookup c).isSome = true) :
    validOper c = false ∧ letters.contains c = false ∧ c ≠ 0 := by
  have all : ((permMap.map Prod.fst).all fun c => !validOper c && !letters.contains c && c != 0) = true := by decide
  rw [lookup_isSome, List.contains_iff_mem] at known
  simpa [and_assoc] using List.all_eq_true.mp all c known

theorem oper_apart (oper : validOper c = true) :
    permMap.lookup c = none ∧ letters.contains c = false ∧ c ≠ 0 := by
  simp only [validOper, Bool.or_eq_true, beq_iff_eq] at oper
  obtain (rfl | rfl) | rfl := oper <;> decide

theorem letter_ne_zero (letter : letters.contains c = true) : c ≠ 0 := by
  rintro rfl
  revert letter
  decide

theorem stops_operations (stops : Stops rest) (os : List Operation) : Stops (os.flatMap Operation.text ++ rest) := by
  cases os with
  | nil => exact stops
  | cons o os =>
    rintro c ⟨⟩
    exact (oper_apart o.oper).2.1

theorem stops_terms (ts : List Term) : Stops (ts.flatMap Term.text) := by
  cases ts with
  | nil => exact fun _ none => by cases none
  | cons t ts =>
    rw [List.flatMap_cons, Term.text, List.append_assoc]
    cases users : t.users with
    | nil =>
      obtain ⟨o, os, split⟩ := List.exists_cons_of_ne_nil t.some_
      rw [List.nil_append, split]
      rintro c ⟨⟩
      exact (oper_apart o.oper).2.1
    | cons c cs =>
      rintro d ⟨⟩
      exact (user_apart (t.known c (by simp [users]))).2.1

theorem Operation.noNul (o : Operation) : 0 ∉ o.text := by
  rw [Operation.text, List.mem_cons]
  rintro (zero | mem)
  · exact (oper_apart o.oper).2.2 zero.symm
  · exact letter_ne_zero (o.known 0 mem) rfl

theorem Term.noNul (t : Term) : 0 ∉ t.text := by
  rw [Term.text, List.mem_append]
  rintro (mem | mem)
  · exact (user_apart (t.known 0 mem)).2.2 rfl
  · obtain ⟨o, _, mem⟩ := List.mem_flatMap.mp mem
    exact o.noNul mem

def PermString.text (p : PermString) : CString := ⟨p.terms.flatMap Term.text, by
  intro mem
  obtain ⟨t, _, mem⟩ := List.mem_flatMap.mp mem
  exact t.noNul mem⟩

/-- Every string of one or more clauses is one. -/
theorem exists_permString (ts : List Term) (some_ : ts ≠ []) : ∃ p : PermString, p.text.1 = ts.flatMap Term.text := by
  induction ts with
  | nil => exact absurd rfl some_
  | cons t ts ih =>
    by_cases last : ts = []
    · subst last
      exact ⟨⟨[t], List.cons_ne_nil t [], by simp⟩, rfl⟩
    · obtain ⟨p, same⟩ := ih last
      obtain ⟨u, us, split⟩ := List.exists_cons_of_ne_nil p.some_
      have named := p.named
      simp only [PermString.text] at same
      rw [split, List.tail_cons] at named
      rw [split] at same
      by_cases none_ : u.users = []
      · -- the operators of `u` belong to `t`
        let both : Term := ⟨t.users, t.operations ++ u.operations, t.known, by simp [t.some_]⟩
        refine ⟨⟨both :: us, List.cons_ne_nil both us, named⟩, ?_⟩
        rw [List.flatMap_cons, ← same]
        simp [PermString.text, both, Term.text, none_]
      · refine ⟨⟨t :: u :: us, List.cons_ne_nil t _, ?_⟩, ?_⟩
        · exact List.forall_mem_cons.mpr ⟨none_, named⟩
        · rw [List.flatMap_cons, ← same]
          rfl

/-! ## What the loop takes -/

theorem chompBits_letters (known : permMap.lookup user = some bits) {ls : Bytes}
    (all : ∀ c ∈ ls, letters.contains c = true) (mod : Mode) :
    chompBits bits ls mod =
      ([], ls.foldl (fun mod c => mod ||| ((permMap.lookup user).bind (List.lookup c)).getD 0) mod) := by
  induction ls generalizing mod with
  | nil => rfl
  | cons c ls ih =>
    obtain ⟨letter, all⟩ := List.forall_mem_cons.mp all
    rw [← lookup_bits known] at letter
    obtain ⟨bit, found⟩ := Option.isSome_iff_exists.mp letter
    rw [chompBits, found, List.foldl_cons, known, Option.bind_some, found, ← known]
    exact ih all (mod ||| bit)

theorem chompUser_operation (o : Operation) (known : ∀ c ∈ users, (permMap.lookup c).isSome = true)
    (one : users.length ≤ 1) : chompUser (users ++ (o.text ++ rest)) = (users.headD 'u'.toUInt8, o.text ++ rest) := by
  cases users with
  | nil =>
    have none_ := (oper_apart o.oper).1
    simp [chompUser, Operation.text, none_]
  | cons c cs =>
    obtain rfl : cs = [] := List.length_eq_zero_iff.mp (by simpa using one)
    simp [chompUser, known c]

theorem chomp_operation (o : Operation) (known : ∀ c ∈ users, (permMap.lookup c).isSome = true)
    (one : users.length ≤ 1) (stops : Stops rest) :
    chomp (users ++ (o.text ++ rest)) 0 = .ok ⟨true, rest, o.op, letterBits (users.headD 'u'.toUInt8) o.letters⟩ := by
  have user : chompUser (users ++ (o.text ++ rest)) = _ := chompUser_operation o known one
  obtain ⟨bits, found⟩ := chompUser_known (users ++ (o.text ++ rest))
  have oper : chompOper (o.text ++ rest) = (o.op, o.letters ++ rest) := by
    simp [chompOper, Operation.text, o.oper]
  have ends (c : UInt8) (first : rest.head? = some c) : bits.lookup c = none := by
    rw [← Option.isNone_iff_eq_none, ← Option.not_isSome, lookup_bits found, stops c first]
    rfl
  rw [chomp_eq found, user, oper]
  rw [user] at found
  obtain ⟨c, ls, split⟩ := List.exists_cons_of_ne_nil o.some_
  have letter : bits.lookup c ≠ none := by
    have isSome := lookup_bits found c
    rw [o.known c (by simp [split])] at isSome
    exact Option.isSome_iff_ne_none.mp isSome
  dsimp only
  rw [chompBits_append ends, chompBits_letters found o.known, if_neg]
  · rfl
  · rw [split]
    exact letter

/-- A second class is none of the letters. -/
theorem chomp_two_users {d : UInt8} {s : Bytes} (first : (permMap.lookup c).isSome = true)
    (second : (permMap.lookup d).isSome = true) :
    chomp (c :: d :: s) 0 = .ok ⟨false, d :: s, opAdd, 0⟩ := by
  have user : chompUser (c :: d :: s) = (c, d :: s) := by simp [chompUser, first]
  have oper : chompOper (d :: s) = (opAdd, d :: s) := by simp [chompOper, (user_apart second).1]
  obtain ⟨bits, found⟩ := chompUser_known (c :: d :: s)
  have none_ : bits.lookup d = none := by
    rw [← Option.isNone_iff_eq_none, ← Option.not_isSome, lookup_bits found, (user_apart second).2.1]
    rfl
  rw [chomp_eq found, user, oper]
  exact if_pos none_

theorem says_nil_iff : Says [] cs ↔ cs = [] := by
  constructor
  · intro said
    cases said with
    | nil => rfl
    | cons some_ => exact absurd rfl some_
  · rintro rfl
    exact .nil

theorem says_operation_iff (o : Operation) (known : ∀ c ∈ users, (permMap.lookup c).isSome = true)
    (one : users.length ≤ 1) (stops : Stops rest) :
    Says (users ++ (o.text ++ rest)) cs ↔
      ∃ ds, cs = ⟨o.op, letterBits (users.headD 'u'.toUInt8) o.letters⟩ :: ds ∧ Says rest ds := by
  have chomped := chomp_operation o known one stops
  have some_ : users ++ (o.text ++ rest) ≠ [] := by simp [Operation.text]
  constructor
  · generalize users ++ (o.text ++ rest) = s at chomped some_
    intro said
    cases said with
    | nil => exact absurd rfl some_
    | cons _ taken said =>
      cases taken.symm.trans chomped
      exact ⟨_, rfl, said⟩
  · rintro ⟨ds, rfl, said⟩
    exact .cons some_ chomped said

/-- Operators with no class in front of them are about `u`. -/
theorem says_operations_iff (os : List Operation) (stops : Stops rest) :
    Says (os.flatMap Operation.text ++ rest) cs ↔
      ∃ ds, cs = os.map (fun o => ⟨o.op, letterBits 'u'.toUInt8 o.letters⟩) ++ ds ∧ Says rest ds := by
  induction os generalizing cs with
  | nil => simp
  | cons o os ih =>
    have none_ : ∀ c ∈ ([] : Bytes), (permMap.lookup c).isSome = true := by simp
    have first : Says ([] ++ (o.text ++ (os.flatMap Operation.text ++ rest))) cs ↔ _ :=
      says_operation_iff o none_ (Nat.zero_le 1) (stops_operations stops os)
    rw [List.nil_append] at first
    rw [List.flatMap_cons, List.append_assoc, first]
    constructor
    · rintro ⟨ds, rfl, said⟩
      obtain ⟨es, rfl, said'⟩ := ih.mp said
      exact ⟨es, rfl, said'⟩
    · rintro ⟨es, rfl, said⟩
      exact ⟨_, rfl, ih.mpr ⟨es, rfl, said⟩⟩

/-- What the loop takes a clause for that names no more than one class. -/
def Term.taken (t : Term) : List Clause :=
  match t.operations with
  | [] => []
  | o :: os => ⟨o.op, letterBits (t.users.headD 'u'.toUInt8) o.letters⟩ ::
    os.map fun o => ⟨o.op, letterBits 'u'.toUInt8 o.letters⟩

theorem says_term_iff (t : Term) (stops : Stops rest) :
    Says (t.text ++ rest) cs ↔ t.users.length ≤ 1 ∧ ∃ ds, cs = t.taken ++ ds ∧ Says rest ds := by
  obtain ⟨o, os, split⟩ := List.exists_cons_of_ne_nil t.some_
  have text : t.text ++ rest = t.users ++ (o.text ++ (os.flatMap Operation.text ++ rest)) := by
    simp [Term.text, split]
  have taken : t.taken = ⟨o.op, letterBits (t.users.headD 'u'.toUInt8) o.letters⟩ ::
      os.map fun o => ⟨o.op, letterBits 'u'.toUInt8 o.letters⟩ := by
    rw [Term.taken, split]
  rw [text, taken]
  by_cases one : t.users.length ≤ 1
  · rw [says_operation_iff o t.known one (stops_operations stops os)]
    constructor
    · rintro ⟨ds, rfl, said⟩
      obtain ⟨es, rfl, said'⟩ := (says_operations_iff os stops).mp said
      exact ⟨one, es, rfl, said'⟩
    · rintro ⟨_, es, rfl, said⟩
      exact ⟨_, rfl, (says_operations_iff os stops).mpr ⟨es, rfl, said⟩⟩
  · refine ⟨fun said => ?_, fun both => absurd both.1 one⟩
    obtain ⟨c, d, users, more⟩ : ∃ c d users, t.users = c :: d :: users := by
      match h : t.users with
      | [] => simp [h] at one
      | [_] => simp [h] at one
      | c :: d :: users => exact ⟨c, d, users, rfl⟩
    have refused := chomp_two_users (s := users ++ (o.text ++ (os.flatMap Operation.text ++ rest)))
      (t.known c (by simp [more])) (t.known d (by simp [more]))
    rw [more] at said
    cases said with
    | cons _ taken => cases taken.symm.trans refused

theorem says_terms_iff (ts : List Term) :
    Says (ts.flatMap Term.text) cs ↔ (∀ t ∈ ts, t.users.length ≤ 1) ∧ cs = ts.flatMap Term.taken := by
  induction ts generalizing cs with
  | nil => simp [says_nil_iff]
  | cons t ts ih =>
    rw [List.flatMap_cons, says_term_iff t (stops_terms ts), List.forall_mem_cons, List.flatMap_cons]
    constructor
    · rintro ⟨one, ds, rfl, said⟩
      obtain ⟨all, rfl⟩ := ih.mp said
      exact ⟨⟨one, all⟩, rfl⟩
    · rintro ⟨⟨one, all⟩, rfl⟩
      exact ⟨one, _, rfl, ih.mpr ⟨all, rfl⟩⟩

/-! ## Classes -/

/-- The bits of the group and of others. -/
def othersMask : Mode := 0o077

theorem none_or (m : Mode) : 0 ||| m = m := BitVec.zero_or

theorem letterBits_cons (user c : UInt8) (ls : Bytes) :
    letterBits user (c :: ls) = ((permMap.lookup user).bind (List.lookup c)).getD 0 ||| letterBits user ls := by
  have start (m : Mode) (ls : Bytes) :
      ls.foldl (fun mod c => mod ||| ((permMap.lookup user).bind (List.lookup c)).getD 0) m = m ||| letterBits user ls := by
    induction ls generalizing m with
    | nil => simp [letterBits]
    | cons c ls ih =>
      have first : letterBits user (c :: ls) = _ := ih (0 ||| _)
      rw [List.foldl_cons, ih, first, none_or, BitVec.or_assoc]
  have first : letterBits user (c :: ls) = _ := start (0 ||| _) ls
  rw [first, none_or]

theorem letterBits_user (ls : Bytes) (all : ∀ c ∈ ls, letters.contains c = true) :
    letterBits 'u'.toUInt8 ls &&& othersMask = 0 := by
  induction ls with
  | nil => decide
  | cons c ls ih =>
    obtain ⟨letter, all⟩ := List.forall_mem_cons.mp all
    have one : (letters.all fun c => (((permMap.lookup 'u'.toUInt8).bind (List.lookup c)).getD 0 &&& othersMask) == 0) = true := by
      decide
    rw [letterBits_cons, BitVec.and_comm, BitVec.and_or_distrib_left, BitVec.and_comm othersMask (letterBits _ _), ih all,
      BitVec.and_comm, eq_of_beq (List.all_eq_true.mp one c (List.contains_iff_mem.mp letter))]
    decide

/-- The other classes have bits that `u` has not. -/
theorem letterBits_others (known : (permMap.lookup user).isSome = true) (other : user ≠ 'u'.toUInt8) {ls : Bytes}
    (some_ : ls ≠ []) (all : ∀ c ∈ ls, letters.contains c = true) : letterBits user ls &&& othersMask ≠ 0 := by
  obtain ⟨c, ls, rfl⟩ := List.exists_cons_of_ne_nil some_
  have table : ((permMap.map Prod.fst).all fun user => user == 'u'.toUInt8 || letters.all fun c =>
      (((permMap.lookup user).bind (List.lookup c)).getD 0 &&& othersMask) != 0) = true := by
    decide
  rw [lookup_isSome, List.contains_iff_mem] at known
  have row := List.all_eq_true.mp table user known
  rw [beq_false_of_ne other, Bool.false_or] at row
  have first := List.all_eq_true.mp row c (List.contains_iff_mem.mp (all c List.mem_cons_self))
  rw [letterBits_cons, BitVec.and_comm, BitVec.and_or_distrib_left]
  intro none_
  have part := (BitVec.or_eq_zero_iff.mp none_).1
  rw [BitVec.and_comm] at part
  exact bne_iff_ne.mp first part

theorem classBits_of_one (one : users.length ≤ 1) (ls : Bytes) :
    classBits users ls = letterBits (users.headD 'u'.toUInt8) ls := by
  cases users with
  | nil => simp [classBits]
  | cons c cs =>
    obtain rfl : cs = [] := List.length_eq_zero_iff.mp (by simpa using one)
    simp [classBits]

theorem taken_eq_means_iff (t : Term) (one : t.users.length ≤ 1) :
    t.taken = t.means ↔ t.users ⊆ ['u'.toUInt8] ∨ t.operations.length = 1 := by
  obtain ⟨o, os, split⟩ := List.exists_cons_of_ne_nil t.some_
  have means : t.means = t.operations.map fun o => ⟨o.op, letterBits (t.users.headD 'u'.toUInt8) o.letters⟩ := by
    rw [Term.means]
    exact List.map_congr_left fun o _ => by rw [classBits_of_one one]
  rw [means, Term.taken, split, List.map_cons, List.cons.injEq, List.length_cons, Nat.add_eq_right, List.length_eq_zero_iff]
  simp only [true_and]
  by_cases user : t.users ⊆ ['u'.toUInt8]
  · have first : t.users.headD 'u'.toUInt8 = 'u'.toUInt8 := by
      cases users : t.users with
      | nil => rfl
      | cons c cs => simpa using user (by simp [users] : c ∈ t.users)
    rw [first]
    exact ⟨fun _ => .inl user, fun _ => rfl⟩
  · rw [or_iff_right user]
    constructor
    · intro same
      by_contra more
      obtain ⟨o', os, rfl⟩ := List.exists_cons_of_ne_nil more
      obtain ⟨c, users⟩ : ∃ c, t.users = [c] := by
        match h : t.users with
        | [] => simp [h] at user
        | [c] => exact ⟨c, rfl⟩
        | _ :: _ :: _ => simp [h] at one
      have other : c ≠ 'u'.toUInt8 := by
        rintro rfl
        exact user (by rw [users]; exact List.Subset.refl _)
      rw [users] at same
      have bits := congrArg Clause.bits (List.cons.inj same).1
      have apart := letterBits_others (t.known c (by simp [users])) other o'.some_ o'.known
      exact apart ((congrArg (· &&& othersMask) bits).symm.trans (letterBits_user o'.letters o'.known))
    · rintro rfl
      rfl

theorem flatMap_taken_iff (ts : List Term) :
    ts.flatMap Term.taken = ts.flatMap Term.means ↔ ∀ t ∈ ts, t.taken = t.means := by
  have length (t : Term) : t.taken.length = t.means.length := by
    rw [Term.taken, Term.means]
    cases t.operations with
    | nil => rfl
    | cons o os => simp
  induction ts with
  | nil => simp
  | cons t ts ih =>
    rw [List.flatMap_cons, List.flatMap_cons, List.forall_mem_cons]
    constructor
    · intro same
      obtain ⟨here, rest⟩ := List.append_inj same (length t)
      exact ⟨here, ih.mp rest⟩
    · rintro ⟨here, rest⟩
      rw [here, ih.mpr rest]

/-! ## The grammar -/

/-- `std_user_chmod` accepts the string, and each operator applies to every class that
its clause names. -/
structure Obeys (p : PermString) : Prop where
  accepts : ∀ file, ∃ after, Returns (stdUserChmod fine p.text file) (stdErrOk, after)
  applies : Says p.text.1 p.means

/-- A string of the grammar is accepted when no clause names two classes. -/
theorem accepted_iff (p : PermString) (file : Mode) :
    (∃ after, Returns (stdUserChmod fine p.text file) (stdErrOk, after)) ↔ ∀ t ∈ p.terms, t.users.length ≤ 1 := by
  constructor
  · rintro ⟨after, run⟩
    obtain ⟨cs, said, _⟩ := (chmod_spec p.text file after).mp run
    exact ((says_terms_iff p.terms).mp said).1
  · intro one
    exact ⟨_, (chmod_spec p.text file _).mpr ⟨_, (says_terms_iff p.terms).mpr ⟨one, rfl⟩, rfl⟩⟩

/-- **When a string of the grammar means what it says.** `_chomp` reads one class, and
keeps none of it for the operators that follow. -/
theorem permission_grammar_iff (p : PermString) :
    Obeys p ↔ ∀ t ∈ p.terms, t.users.length ≤ 1 ∧ (t.users ⊆ ['u'.toUInt8] ∨ t.operations.length = 1) := by
  constructor
  · rintro ⟨_, applies⟩ t mem
    obtain ⟨one, same⟩ := (says_terms_iff p.terms).mp applies
    exact ⟨one t mem, (taken_eq_means_iff t (one t mem)).mp ((flatMap_taken_iff p.terms).mp same.symm t mem)⟩
  · intro all
    have one (t : Term) (mem : t ∈ p.terms) : t.users.length ≤ 1 := (all t mem).1
    have same := (flatMap_taken_iff p.terms).mpr fun t mem => (taken_eq_means_iff t (one t mem)).mpr (all t mem).2
    exact ⟨fun file => (accepted_iff p file).mpr one, (says_terms_iff p.terms).mpr ⟨one, same.symm⟩⟩

/-- An operator with the letter `r`. -/
def withR (op : UInt8) (oper : validOper op = true) : Operation :=
  ⟨op, ['r'.toUInt8], oper, by decide, List.all_eq_true.mp rfl⟩

/-- `ug+r`. -/
def twoClasses : PermString :=
  ⟨[⟨['u'.toUInt8, 'g'.toUInt8], [withR opAdd rfl], List.all_eq_true.mp rfl, by decide⟩], by decide, by decide⟩

/-- `g=r-r`. -/
def twoOperators : PermString :=
  ⟨[⟨['g'.toUInt8], [withR opSet rfl, withR opRemove rfl], List.all_eq_true.mp rfl, by decide⟩], by decide, by decide⟩

/-- The string `ug+r` is refused, and in `g=r-r` the second operator is about `u`. -/
theorem classes_forgotten :
    Returns (stdUserChmod fine twoClasses.text 0o100644) (stdErr .param 'g'.toNat, 0o100644) ∧ ¬ Obeys twoClasses ∧
      Says twoOperators.text.1 [⟨opSet, 0o040⟩, ⟨opRemove, 0o400⟩] ∧ ¬ Obeys twoOperators := by
  refine ⟨⟨2, ?_⟩, ?_, ?_, ?_⟩
  · intro fuel more
    obtain ⟨fuel, rfl⟩ : ∃ n, fuel = n + 2 := ⟨fuel - 2, by omega⟩
    rfl
  · rw [permission_grammar_iff]
    decide
  · have second : Says ['-'.toUInt8, 'r'.toUInt8] [⟨opRemove, 0o400⟩] := .cons (by decide) (by decide) .nil
    exact .cons (by decide) (by decide) second
  · rw [permission_grammar_iff]
    decide

end SonicUtils.Permissions
