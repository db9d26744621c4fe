import SonicUtils.Lib.Descriptors
import SonicUtils.Transfer.Syscall
import Mathlib.Data.List.Forall2
import Mathlib.Data.List.Nodup

/-!
# Redirecting stdin and stdout

`std_file_clone_fds` and `std_redir_stdoutin` of `std_file_utils.c`, over the
descriptors of a process whose every call may fail.

* `Clones`: what a call to `std_file_clone_fds` has done, all of it or nothing;
* `Redirects`: what a call to `std_redir_stdoutin` has done. No descriptor is
  opened or closed by it, and only the call that puts stdin back can leave
  half a redirection behind.
-/

namespace SonicUtils.Redirect

open Descriptors Transfer

variable {F : Type}

def stdinFileno : Int := 0
def stdoutFileno : Int := 1

/-- `STD_ERRNO`. -/
def stdErrno (p : Process F) : StdError := stdErr .fail p.errno

def closeFds (p : Process F) (fds : List Int) : Process F := p.closeAll fds

/-- The loop of `std_file_clone_fds`, with `fclones` as far as it is written. -/
def cloneFrom (fclones : List Int) : List Int → Process F → StdError × List Int × Process F
  | [], p => (stdErrOk, fclones, p)
  | fd :: fin, p =>
    match p.dup fd with
    | (some c, q) => cloneFrom (fclones ++ [c]) fin q
    | (none, q) =>
      let q := closeFds q fclones
      -- `errno` may by now be that of a `close`.
      (stdErrno q, fclones ++ [-1], q)

def stdFileCloneFds (fin : List Int) (p : Process F) : StdError × List Int × Process F := cloneFrom [] fin p

/-- `std_redir_stdoutin`; `ofds` is what the clones are, once they are made. -/
def redirectTo (fd : Int) (ofds : List Int) (p : Process F) : StdError × Process F :=
  match p.dup2 fd stdinFileno with
  | (none, p) => (stdErrno p, p)
  | (some _, p) =>
    match p.dup2 fd stdoutFileno with
    | (none, p) => (stdErrno p, (p.dup2 (ofds.getD 0 (-1)) stdinFileno).2)
    | (some _, p) => (stdErrOk, p)

def stdRedirStdoutin (fd : Int) (p : Process F) : StdError × Process F :=
  match stdFileCloneFds [stdinFileno, stdoutFileno] p with
  | (serr, ofds, p) =>
    if serr ≠ stdErrOk then (serr, p)
    else
      let r := redirectTo fd ofds p
      (r.1, (r.2.close (ofds.getD 0 (-1))).close (ofds.getD 1 (-1)))

/-- `fclones` are open, free before, and name what the descriptors of `fin` name. -/
structure Clones (p : Process F) (fin fclones : List Int) (q : Process F) : Prop where
  same : List.Forall₂ (fun c fd => q.file c = q.file fd ∧ q.file c ≠ none) fclones fin
  distinct : fclones.Nodup
  fresh : ∀ c ∈ fclones, p.file c = none ∧ 0 ≤ c ∧ c < p.limit
  sources : ∀ i fd, fin[i]? = some fd → p.file fd ≠ none ∨ fd ∈ fclones.take i
  others : ∀ n, n ∉ fclones → q.file n = p.file n
  limit : q.limit = p.limit
  calls : q.faults = p.faults.drop fclones.length

theorem Clones.isOpen {p q : Process F} {fin fclones : List Int} (h : Clones p fin fclones q) {c : Int}
    (mem : c ∈ fclones) : q.file c ≠ none := by
  have pairs := h.same
  clear h
  induction pairs with
  | nil => simp at mem
  | cons head _ ih =>
    rcases List.mem_cons.mp mem with rfl | later
    · exact head.2
    · exact ih later

theorem Clones.start (p : Process F) : Clones p [] [] p where
  same := .nil
  distinct := .nil
  fresh c mem := by simp at mem
  sources i fd at_ := by simp at at_
  others _ _ := rfl
  limit := rfl
  calls := rfl

theorem Clones.next {p q : Process F} {fin fclones : List Int} {fd n : Int} {f : F} (h : Clones p fin fclones q)
    (source : q.file fd = some f) (free : q.lowest = some n) : Clones p (fin ++ [fd]) (fclones ++ [n]) (q.opened n f).2 := by
  obtain ⟨closed, low, high⟩ := Process.lowest_some free
  have unused : n ∉ fclones := fun mem => h.isOpen mem closed
  have kept {m : Int} (isOpen : q.file m ≠ none) : (q.opened n f).2.file m = q.file m := by
    refine Function.update_of_ne ?_ _ _
    rintro rfl
    exact isOpen closed
  have cloned : (q.opened n f).2.file n = some f := Function.update_self ..
  refine ⟨List.rel_append (h.same.imp ?_) (.cons ?_ .nil), ?_, ?_, ?_, ?_, h.limit, ?_⟩
  · intro c s pair
    rw [kept pair.2, kept (pair.1 ▸ pair.2)]
    exact pair
  · rw [cloned, kept (by simp [source]), source]
    simp
  · exact h.distinct.append (List.nodup_singleton n) (by simpa using unused)
  · intro c mem
    rcases List.mem_append.mp mem with old | new
    · exact h.fresh c old
    · rw [List.mem_singleton.mp new]
      exact ⟨h.others n unused ▸ closed, low, h.limit ▸ high⟩
  · intro i s found
    have lengths := h.same.length_eq
    rcases Nat.lt_trichotomy i fin.length with less | rfl | more
    · rw [List.getElem?_append_left less] at found
      rw [List.take_append_of_le_length (by omega)]
      exact h.sources i s found
    · rw [List.getElem?_concat_length, Option.some.injEq] at found
      rw [← lengths, List.take_left', ← found]
      by_cases mem : fd ∈ fclones
      · exact .inr mem
      · rw [← h.others fd mem, source]
        exact .inl (by simp)
      · rfl
    · rw [List.getElem?_eq_none (by rw [List.length_append]; exact more)] at found
      simp at found
  · intro m notMem
    rw [List.mem_append, List.mem_singleton, not_or] at notMem
    rw [← h.others m notMem.1]
    exact Function.update_of_ne notMem.2 _ _
  · rw [List.length_append, ← List.drop_drop, ← h.calls]
    exact List.drop_one.symm

/-- Closing the clones restores the table. -/
theorem Clones.closed {p q : Process F} {fin fclones : List Int} (h : Clones p fin fclones q) (n : Int) :
    (q.closeAll fclones).file n = p.file n := by
  rw [Process.closeAll_file]
  split
  · rename_i mem
    exact (h.fresh n mem).1.symm
  · rename_i notMem
    exact h.others n notMem

theorem cloneFrom_cases {p q : Process F} {src fclones : List Int} (h : Clones p src fclones q) (fin : List Int) :
    let r := cloneFrom fclones fin q
    (r.1 = stdErrOk ∧ Clones p (src ++ fin) r.2.1 r.2.2) ∨ (r.1 ≠ stdErrOk ∧ r.2.2.file = p.file) := by
  induction fin generalizing src fclones q with
  | nil =>
    rw [List.append_nil]
    exact .inl ⟨rfl, h⟩
  | cons fd fin ih =>
    rcases q.dup_cases fd with ⟨failed, same⟩ | ⟨n, f, _, source, free, _, done⟩
    · have stopped : cloneFrom fclones (fd :: fin) q =
          (stdErrno (closeFds (q.dup fd).2 fclones), fclones ++ [-1], closeFds (q.dup fd).2 fclones) := by
        rw [cloneFrom, show q.dup fd = (none, (q.dup fd).2) from Prod.ext failed rfl]
      rw [stopped]
      refine .inr ⟨stdErr_ne_ok _ _, funext fun n => ?_⟩
      rw [← h.closed n, closeFds, Process.closeAll_file, Process.closeAll_file, same]
    · have more : cloneFrom fclones (fd :: fin) q = cloneFrom (fclones ++ [n]) fin (q.opened n f).2 := by
        rw [cloneFrom, show q.dup fd = (some n, (q.opened n f).2) from done]
      rw [more, List.append_cons src]
      exact ih (h.next source free)

/-- All the clones are made, or none is left. -/
theorem clone_all_or_nothing (fin : List Int) (p : Process F) :
    let r := stdFileCloneFds fin p
    (r.1 = stdErrOk ∧ Clones p fin r.2.1 r.2.2) ∨ (r.1 ≠ stdErrOk ∧ r.2.2.file = p.file) :=
  cloneFrom_cases (.start p) fin

/-- What a call leaves behind. Where `fd` is free and one of the clones gets its
number, the call redirects to what it is a clone of. -/
structure Redirects (p : Process F) (fd : Int) (err : StdError) (q : Process F) : Prop where
  same_open : ∀ n, q.file n = none ↔ p.file n = none
  others : ∀ n, n ≠ stdinFileno → n ≠ stdoutFileno → q.file n = p.file n
  done : err = stdErrOk → ∃ f, q.file stdinFileno = some f ∧ (p.file stdoutFileno ≠ none → q.file stdoutFileno = some f) ∧
    (p.file fd = some f ∨ p.file fd = none ∧ (p.file stdinFileno = some f ∨ p.file stdoutFileno = some f))
  /-- The fifth call is the one that puts stdin back. -/
  undone : err ≠ stdErrOk → q.file = p.file ∨ ∃ e, p.faults[4]? = some (some e)

/-- Once both are cloned, to `i` and `o`. -/
structure Cloned (p q : Process F) (i o : Int) : Prop where
  clones : Clones p [stdinFileno, stdoutFileno] [i, o] q
  stdin : p.file stdinFileno ≠ none
  keeps : q.file stdinFileno = p.file stdinFileno
  saved : q.file i = p.file stdinFileno
  stdout : p.file stdoutFileno ≠ none ∨ stdoutFileno = i

theorem Clones.cloned {p q : Process F} {ofds : List Int} (h : Clones p [stdinFileno, stdoutFileno] ofds q) :
    ∃ i o, ofds = [i, o] ∧ Cloned p q i o := by
  obtain ⟨i, more, first, rest, rfl⟩ := List.forall₂_cons_right_iff.mp h.same
  obtain ⟨o, last, _, ended, rfl⟩ := List.forall₂_cons_right_iff.mp rest
  rw [List.forall₂_nil_right_iff] at ended
  subst ended
  have stdin : p.file stdinFileno ≠ none := by simpa using h.sources 0 stdinFileno rfl
  have keeps : q.file stdinFileno = p.file stdinFileno := h.others _ fun mem => stdin (h.fresh _ mem).1
  exact ⟨i, o, rfl, h, stdin, keeps, first.1.trans keeps, by simpa using h.sources 1 stdoutFileno rfl⟩

theorem Cloned.apart {p q : Process F} {i o : Int} (h : Cloned p q i o) : i ≠ stdinFileno ∧ o ≠ stdinFileno := by
  constructor
  · rintro rfl
    exact h.stdin (h.clones.fresh _ (by simp)).1
  · rintro rfl
    exact h.stdin (h.clones.fresh _ (by simp)).1

/-- Unless the call is hindered, the table is again what it was. -/
theorem Cloned.put_back {p q r : Process F} {i o : Int} {f : F} (h : Cloned p q i o) (limit : r.limit = q.limit)
    (calls : r.faults = p.faults.drop 4) (file : r.file = Function.update q.file stdinFileno (some f)) :
    let t := (r.dup2 i stdinFileno).2
    t.file = q.file ∨ (∃ e, p.faults[4]? = some (some e)) ∧ t.file = Function.update q.file stdinFileno (some f) := by
  have from_i : r.file i = p.file stdinFileno := by rw [file, Function.update_of_ne h.apart.1, h.saved]
  obtain ⟨g, stdin⟩ := Option.ne_none_iff_exists'.mp h.stdin
  obtain ⟨_, low, high⟩ := h.clones.fresh i (by simp)
  have inside : 0 ≤ stdinFileno ∧ stdinFileno < (r.limit : Int) := by
    rw [limit, h.clones.limit]
    simp only [stdinFileno]
    omega
  cases fault : r.fault with
  | some e =>
    refine .inr ⟨⟨e, ?_⟩, ?_⟩
    · rw [Process.fault, calls, List.head?_drop] at fault
      exact Option.join_eq_some_iff.mp fault
    · rw [← file, Process.dup2, fault]
      rfl
  | none =>
    left
    have back : (r.dup2 i stdinFileno).2 = (r.opened stdinFileno g).2 := by
      rw [Process.dup2, fault, from_i, stdin]
      simp only [inside, and_self, if_true]
    rw [back]
    show Function.update r.file stdinFileno (some g) = q.file
    rw [file, Function.update_idem, ← stdin, ← h.keeps, Function.update_eq_self]

theorem redirectTo_cases {p q : Process F} {i o : Int} (h : Cloned p q i o) (fd : Int) :
    let r := redirectTo fd [i, o] q
    (r.1 = stdErrOk ∧ ∃ f, q.file fd = some f ∧
      r.2.file = Function.update (Function.update q.file stdinFileno (some f)) stdoutFileno (some f)) ∨
    (r.1 ≠ stdErrOk ∧ (r.2.file = q.file ∨
      (∃ e, p.faults[4]? = some (some e)) ∧ ∃ f, r.2.file = Function.update q.file stdinFileno (some f))) := by
  dsimp only
  rcases q.dup2_cases fd stdinFileno with ⟨failed, same⟩ | ⟨f, _, source, _, done⟩
  · have stopped : redirectTo fd [i, o] q = (stdErrno (q.dup2 fd stdinFileno).2, (q.dup2 fd stdinFileno).2) := by
      rw [redirectTo, show q.dup2 fd stdinFileno = (none, (q.dup2 fd stdinFileno).2) from Prod.ext failed rfl]
    rw [stopped]
    exact .inr ⟨stdErr_ne_ok _ _, .inl same⟩
  have moved : (q.dup2 fd stdinFileno).2.file = Function.update q.file stdinFileno (some f) := by rw [done]; rfl
  have first : q.dup2 fd stdinFileno = (some stdinFileno, (q.dup2 fd stdinFileno).2) := by rw [done]; rfl
  obtain ⟨once, limit⟩ := q.dup2_calls fd stdinFileno
  revert first moved once limit
  generalize (q.dup2 fd stdinFileno).2 = m
  intro moved first once limit
  obtain ⟨twice, limit'⟩ := m.dup2_calls fd stdoutFileno
  rcases m.dup2_cases fd stdoutFileno with ⟨failed, same⟩ | ⟨g, _, again, _, done⟩
  · have stopped : redirectTo fd [i, o] q =
        (stdErrno (m.dup2 fd stdoutFileno).2, ((m.dup2 fd stdoutFileno).2.dup2 i stdinFileno).2) := by
      rw [redirectTo, first]
      dsimp only
      rw [show m.dup2 fd stdoutFileno = (none, (m.dup2 fd stdoutFileno).2) from Prod.ext failed rfl]
      rfl
    have calls : (m.dup2 fd stdoutFileno).2.faults = p.faults.drop 4 := by
      rw [twice, once, h.clones.calls, ← List.drop_one, ← List.drop_one, List.drop_drop, List.drop_drop]
      rfl
    rw [stopped]
    refine .inr ⟨stdErr_ne_ok _ _, ?_⟩
    rcases h.put_back (limit'.trans limit) calls (same.trans moved) with back | ⟨hindered, left⟩
    · exact .inl back
    · exact .inr ⟨hindered, f, left⟩
  · have finished : redirectTo fd [i, o] q = (stdErrOk, (m.opened stdoutFileno g).2) := by
      rw [redirectTo, first]
      dsimp only
      rw [done]
      rfl
    have equal : g = f := by
      rw [moved] at again
      by_cases at_ : fd = stdinFileno
      · rw [at_, Function.update_self] at again
        exact (Option.some.inj again).symm
      · rw [Function.update_of_ne at_, source] at again
        exact (Option.some.inj again).symm
    rw [finished, equal]
    exact .inl ⟨rfl, f, source, by rw [← moved]; rfl⟩

/-- Closing the clones leaves a descriptor that was not redirected as it was. -/
theorem Clones.finished {p q r : Process F} {fin fclones : List Int} {n : Int} (h : Clones p fin fclones q)
    (untouched : r.file n = q.file n) : (r.closeAll fclones).file n = p.file n := by
  rw [← h.closed n, Process.closeAll_file, Process.closeAll_file, untouched]

theorem Cloned.left_open {p q r : Process F} {i o : Int} (h : Cloned p q i o) :
    (r.closeAll [i, o]).file stdinFileno = r.file stdinFileno := by
  rw [Process.closeAll_file, if_neg]
  intro mem
  exact h.stdin (h.clones.fresh _ mem).1

/-- What the descriptor names once it is redirected. -/
theorem Cloned.source {p q : Process F} {i o fd : Int} {f : F} (h : Cloned p q i o) (found : q.file fd = some f) :
    p.file fd = some f ∨ p.file fd = none ∧ (p.file stdinFileno = some f ∨ p.file stdoutFileno = some f) := by
  by_cases mem : fd ∈ [i, o]
  · refine .inr ⟨(h.clones.fresh fd mem).1, ?_⟩
    rcases List.mem_pair.mp mem with rfl | rfl
    · exact .inl (h.saved.symm.trans found)
    · have second : q.file fd = q.file stdoutFileno := by
        have pairs := h.clones.same
        rw [List.forall₂_cons, List.forall₂_cons] at pairs
        exact pairs.2.1.1
      by_cases cloned : stdoutFileno = i
      · rw [second, cloned, h.saved] at found
        exact .inl found
      · have isOpen := h.stdout.resolve_right cloned
        rw [second, h.clones.others stdoutFileno fun mem => isOpen (h.clones.fresh _ mem).1] at found
        exact .inr found
  · exact .inl (h.clones.others fd mem ▸ found)

theorem stdRedirStdoutin_cloned {fd i o : Int} {p q : Process F}
    (cloned : stdFileCloneFds [stdinFileno, stdoutFileno] p = (stdErrOk, [i, o], q)) :
    stdRedirStdoutin fd p = ((redirectTo fd [i, o] q).1, (redirectTo fd [i, o] q).2.closeAll [i, o]) := by
  rw [stdRedirStdoutin, cloned]
  exact if_neg (by simp)

/-- For every table, every descriptor and every pattern of failing calls. -/
theorem redirects (fd : Int) (p : Process F) : Redirects p fd (stdRedirStdoutin fd p).1 (stdRedirStdoutin fd p).2 := by
  have cloning := cloneFrom_cases (.start p) [stdinFileno, stdoutFileno]
  rw [← stdFileCloneFds] at cloning
  rcases cloning with ⟨ok, clones⟩ | ⟨failed, same⟩
  swap
  · have stopped : stdRedirStdoutin fd p =
        ((stdFileCloneFds [stdinFileno, stdoutFileno] p).1, (stdFileCloneFds [stdinFileno, stdoutFileno] p).2.2) :=
      if_pos failed
    rw [stopped]
    exact ⟨fun n => by rw [same], fun n _ _ => by rw [same], fun ok => absurd ok failed, fun _ => .inl same⟩
  obtain ⟨i, o, ofds, h⟩ := clones.cloned
  rw [stdRedirStdoutin_cloned (Prod.ext ok (Prod.ext ofds rfl))]
  have cases := redirectTo_cases h fd
  revert cases
  generalize redirectTo fd [i, o] _ = done
  obtain ⟨err, r⟩ := done
  dsimp only
  rintro (⟨rfl, f, source, file⟩ | ⟨failed, file⟩)
  · have others {n : Int} (stdin : n ≠ stdinFileno) (stdout : n ≠ stdoutFileno) : (r.closeAll [i, o]).file n = p.file n := by
      apply h.clones.finished
      rw [file, Function.update_of_ne stdout, Function.update_of_ne stdin]
    have stdin : (r.closeAll [i, o]).file stdinFileno = some f := by
      rw [h.left_open, file, Function.update_of_ne (by decide), Function.update_self]
    have stdout (isOpen : p.file stdoutFileno ≠ none) : (r.closeAll [i, o]).file stdoutFileno = some f := by
      rw [Process.closeAll_file, if_neg fun mem => isOpen (h.clones.fresh _ mem).1, file, Function.update_self]
    refine ⟨fun n => ?_, fun n => others, fun _ => ⟨f, stdin, stdout, h.source source⟩, fun no => absurd rfl no⟩
    by_cases zero : n = stdinFileno
    · rw [zero, stdin]
      simp [h.stdin]
    by_cases one : n = stdoutFileno
    · rw [one]
      by_cases isOpen : p.file stdoutFileno = none
      · have clone := h.stdout.resolve_left fun no => no isOpen
        rw [Process.closeAll_file, if_pos (by simp [clone])]
        simp [isOpen]
      · rw [stdout isOpen]
        simp [isOpen]
    · rw [others zero one]
  · have others {n : Int} (stdin : n ≠ stdinFileno) : (r.closeAll [i, o]).file n = p.file n := by
      apply h.clones.finished
      rcases file with same | ⟨_, f, moved⟩
      · rw [same]
      · rw [moved, Function.update_of_ne stdin]
    refine ⟨fun n => ?_, fun n stdin _ => others stdin, fun ok => absurd ok failed, fun _ => ?_⟩
    · by_cases zero : n = stdinFileno
      · rw [zero, h.left_open]
        rcases file with same | ⟨_, f, moved⟩
        · rw [same, h.keeps]
        · rw [moved, Function.update_self]
          simp [h.stdin]
      · rw [others zero]
    · rcases file with same | ⟨hindered, _⟩
      · exact .inl (funext fun n => h.clones.finished (by rw [same]))
      · exact .inr hindered

end SonicUtils.Redirect
