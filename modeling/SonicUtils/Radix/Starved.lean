import SonicUtils.Radix.Insert
import SonicUtils.Radix.Books

/-!
# Insertions when memory is short

An insertion whose allocations may fail, into a table that may convert its keys.

* `insertTree_given`: what it gives in any memory;
* `insert_start`: where the key comes from.
-/

namespace SonicUtils.Radix

open PtrTree BitTrie LinkedList

variable {rtt rtt' m : Rtt} {rth : HeadId} {ap his : Addr} {bitlen d : Nat} {res : Option HeadId} {t : RtTree}
  {fs : List (Frame (Node NodeId HeadId))} {x : Node NodeId HeadId} {l r : RtTree} {add new : Option NodeId}
  {mem : Allocs}

/-- What the allocators give is not in use, and not the same twice. -/
structure Allocs.Fair (mem : Allocs) (rtt : Rtt) : Prop where
  unused : ∀ i, mem.add = some i ∨ mem.new = some i → rtt.nodes i = none
  apart : ∀ i, mem.add = some i → mem.new ≠ some i

/-- The outcome of an insertion, or that it fails for want of memory and the tree is
as it was. -/
inductive Given (rtt : Rtt) (t : RtTree) (q : List Bool) (rth : HeadId) : Option HeadId × Rtt → Prop
  | done (res : HeadId) (rtt' : Rtt) : Outcome rtt t q rth (res, rtt') → Given rtt t q rth (some res, rtt')
  | failed (rtt' : Rtt) : Represents rtt' t → Still rtt rtt' → rtt'.nodes = rtt.nodes → Given rtt t q rth (none, rtt')

/-- The second allocation fails, and the first node is freed again. -/
theorem given_freed {add : NodeId} (rep : Represents rtt t) (loose : Loose rth t) (free : rtt.nodes add = none)
    (bitlen : Nat) (q : List Bool) : Given rtt t q rth (none, (allocated rtt rth bitlen add).freeNode add) := by
  have nodes : ((allocated rtt rth bitlen add).freeNode add).nodes = rtt.nodes := by
    funext i
    by_cases same : i = add
    · simp [nodes_freeNode, same, free]
    · simp [allocated, nodes_freeNode, nodes_addNode, same]
  refine .failed _ (rep.congr rfl rfl fun y hy => ⟨by rw [nodes], fun h val => ?_⟩)
    ⟨sameSetup_allocated.trans (sameSetup_freeNode _ _), addr_allocated, rfl⟩ nodes
  have other : h ≠ rth := fun same => loose y hy (same ▸ val)
  simp [allocated, heads_writeHead, other]

theorem insertAt_given (s : Site rtt rth ap (ap.bits bitlen) fs x l r) (found : Found ap his bitlen d fs x l r)
    (unused : ∀ i, add = some i ∨ new = some i → rtt.nodes i = none) (apart : ∀ i, add = some i → new ≠ some i) :
    ∃ res rtt', insertAt rtt rth ap his bitlen d x.1 (up fs) add new = .ok (res, rtt') ∧
      Given rtt (plug fs (.node x l r)) (ap.bits bitlen) rth (res, rtt') := by
  obtain ⟨⟨n, live, holds⟩, _⟩ := holds_at s.rep.linked
  have bit := holds.bit
  by_cases here : d = bitlen ∧ x.2.stem.length = bitlen
  · obtain ⟨rfl, end_⟩ := here
    have stem := found.prefix_stem.eq_of_length (by rw [length_bits, end_])
    obtain ⟨res, rtt', run, outcome⟩ := insertAt_here s stem.symm add new
    exact ⟨some res, rtt', run, .done res rtt' outcome⟩
  · have elsewhere : ¬ (d = bitlen ∧ n.rtnBit = bitlen) := by rwa [bit]
    cases add with
    | none =>
      refine ⟨none, rtt, ?_, .failed rtt s.rep ⟨.refl rtt, fun _ => rfl, rfl⟩ rfl⟩
      rw [insertAt, node_of live, ok_bind, if_neg elsewhere]
      rfl
    | some add =>
      have free := unused add (.inl rfl)
      have done {rtt' : Rtt} (run : insertAt rtt rth ap his bitlen d x.1 (up fs) (some add) new = .ok (some rth, rtt'))
          (inserted : ∃ t', Inserted rtt rtt' (plug fs (.node x l r)) t' (ap.bits bitlen) rth) :
          ∃ res rtt', insertAt rtt rth ap his bitlen d x.1 (up fs) (some add) new = .ok (res, rtt') ∧
            Given rtt (plug fs (.node x l r)) (ap.bits bitlen) rth (res, rtt') := by
        obtain ⟨t', inserted⟩ := inserted
        exact ⟨some rth, rtt', run, .done rth rtt' (.added t' rtt' inserted)⟩
      rcases found.short.eq_or_lt with rfl | inside
      · obtain ⟨rtt', run, inserted⟩ := insertAt_above s found (by have := found.long; omega) free new
        exact done run inserted
      · rcases found.long.eq_or_lt with end_ | more
        · obtain ⟨rtt', run, inserted⟩ := insertAt_below s found end_.symm inside free new
          exact done run inserted
        · cases new with
          | none =>
            refine ⟨none, _, ?_, given_freed s.rep s.loose free bitlen _⟩
            have above : n.rtnBit ≠ d := by omega
            rw [insertAt, node_of live, ok_bind, if_neg elsewhere]
            show (if n.rtnBit = d then _ else if d = bitlen then _ else _) = _
            rw [if_neg above, if_neg inside.ne]
            rfl
          | some new =>
            have ne : add ≠ new := fun same => apart add rfl (by rw [same])
            obtain ⟨rtt', run, inserted⟩ := insertAt_split s found inside more free (unused new (.inr rfl)) ne
            exact done run inserted

/-- **An insertion in any memory**, from where the key is set. -/
theorem insertTree_given (rep : Represents rtt t) (ready : Ready rtt) (loose : Loose rth t)
    (addr : (rtt.heads rth).rdxRthAddr = some ap) (valid : bitlen ≤ rtt.rttMaxaddrlen) (fair : mem.Fair rtt) :
    ∃ res rtt', insertTree rtt rth bitlen mem = .ok (res, rtt') ∧
      Given rtt.countInsert t (ap.bits bitlen) rth (res, rtt') := by
  have counted : Represents rtt.countInsert t := rep.congr rfl rfl fun _ _ => ⟨rfl, fun _ _ => rfl⟩
  have addr' : (rtt.countInsert.heads rth).rdxRthAddr = some ap := addr
  cases t with
  | nil =>
    have empty : rtt.countInsert.rttRoot = none := counted.root
    cases hadd : mem.add with
    | none =>
      refine ⟨none, rtt.countInsert, ?_, .failed _ counted ⟨.refl _, fun _ => rfl, rfl⟩ rfl⟩
      simp [insertTree, empty, hadd]
    | some add =>
      refine ⟨some rth, _, ?_, .done _ _ (.added _ _ (insert_first addr' valid add))⟩
      simp only [insertTree, empty, hadd]
      rfl
  | node x l r =>
    have root : rtt.countInsert.rttRoot = some x.1 := counted.root
    have headAddr : rtt.countInsert.headAddr rth = .ok ap := by simp [Rtt.headAddr, addr']
    obtain ⟨fs, x', l', r', his, d, same, site, found, run⟩ :=
      insertInto_site counted ⟨ready.magic, ready.fits⟩ loose addr' valid
    obtain ⟨res, rtt', done, given⟩ := insertAt_given site found fair.unused fair.apart
    refine ⟨res, rtt', ?_, same ▸ given⟩
    simp only [insertTree, root, headAddr, ok_bind]
    exact (run mem.add mem.new).trans done

/-! ## The key of the head -/

/-- The table when the key of the head has been set and its fields cleared, with
what else is as it was. -/
structure Primed (rtt m : Rtt) (rth : HeadId) (ap : Addr) : Prop extends Cleared rtt m rth ap where
  inodes : m.rttInodes = rtt.rttInodes
  nmalloc : m.rttNmalloc = rtt.rttNmalloc
  nfree : m.rttNfree = rtt.rttNfree
  routes : m.rttRoutes = rtt.rttRoutes
  version : m.rttVersion = rtt.rttVersion
  flags : (m.heads rth).rdclFlags = (rtt.heads rth).rdclFlags ∨ (m.heads rth).rdclFlags = 0
  dated : (m.heads rth).rthVersion = (rtt.heads rth).rthVersion ∨ (m.heads rth).rthVersion = 0

/-- The key of the head, in a table that may convert it. -/
def HasKey (rtt : Rtt) (rth : HeadId) (q : List Bool) : Prop :=
  ∃ addr, (rtt.heads rth).rthAddr = some addr ∧ (rtt.convertKey addr).1.bits q.length = q

theorem bits_of_bytes {a b : Addr} (valid : bitlen ≤ rtt.rttMaxaddrlen) (same : ∀ i < rtt.keyBytes, a i = b i) :
    a.bits bitlen = b.bits bitlen := by
  apply (bits_eq_iff a b bitlen).mpr
  intro i hi
  have inside : rnByte i < rtt.keyBytes := by
    rw [rnByte_eq, Rtt.keyBytes]
    omega
  rw [Addr.bit, Addr.bit, same _ inside]

/-- A table that has converted a key. -/
theorem primed_key (ready : Ready rtt) (temp : Addr) (f : RtHead → RtHead)
    (key : (f (rtt.heads rth)).rdxRthAddr = some ap)
    (keep : ∀ h, (f h).rthAddr = h.rthAddr ∧ (f h).rdclFlags = h.rdclFlags ∧ (f h).rthVersion = h.rthVersion) :
    Primed rtt ({ rtt with temp := temp }.writeHead rth f) rth ap where
  ready := ⟨ready.magic, ready.fits⟩
  nodes := rfl
  root := rfl
  heads h ne := by rw [heads_writeHead, if_neg ne]
  addr := by rw [heads_writeHead, if_pos rfl, key]
  addrs h := by
    rw [heads_writeHead]
    split
    · rename_i same
      rw [(keep _).1, same]
    · rfl
  setup := ⟨rfl, rfl, rfl, rfl, rfl, rfl, rfl⟩
  clhead := .inl rfl
  inodes := rfl
  nmalloc := rfl
  nfree := rfl
  routes := rfl
  version := rfl
  flags := .inl (by rw [heads_writeHead, if_pos rfl, (keep _).2.1])
  dated := .inl (by rw [heads_writeHead, if_pos rfl, (keep _).2.2])

theorem convertKey_temp (rtt : Rtt) (addr : Addr) : ∃ temp, (rtt.convertKey addr).2 = { rtt with temp := temp } := by
  unfold Rtt.convertKey
  split
  · exact ⟨rtt.temp, rfl⟩
  · exact ⟨_, rfl⟩

theorem insertKey_primed (ready : Ready rtt) (valid : bitlen ≤ rtt.rttMaxaddrlen) (key : Option Addr) :
    Ensures (insertKey rtt rth key) fun r =>
      r.1 = false ∧ (∃ temp, r.2 = { rtt with temp := temp }) ∨
        r.1 = true ∧ ∃ ap, Primed rtt r.2 rth ap ∧ HasKey rtt rth (ap.bits bitlen) := by
  unfold insertKey
  split
  · rename_i convert addr some_ hasAddr
    obtain ⟨temp, after⟩ := convertKey_temp rtt addr
    dsimp only
    rw [after]
    split
    · rename_i bare
      split
      · exact .pure (.inl ⟨rfl, temp, rfl⟩)
      · rename_i junk
        let copy : Addr := fun i => if i < rtt.keyBytes then (rtt.convertKey addr).1 i else junk i
        have primed : Primed rtt ({ rtt with temp := temp }.writeHead rth fun h =>
            { h with rdxRthAddr := some copy, magic := rtRthAddrMagic }) rth copy :=
          primed_key ready temp _ rfl fun _ => ⟨rfl, rfl, rfl⟩
        refine .pure (.inr ⟨rfl, copy, primed, addr, hasAddr, ?_⟩)
        rw [length_bits]
        apply bits_of_bytes valid
        intro i hi
        exact (if_pos hi).symm
    · rename_i his has
      apply Ensures.any
      intro _
      apply Ensures.check
      intro same
      have primed : Primed rtt ({ rtt with temp := temp }.writeHead rth id) rth his :=
        primed_key ready temp id has fun _ => ⟨rfl, rfl, rfl⟩
      have still : { rtt with temp := temp }.writeHead rth id = { rtt with temp := temp } := by
        simp [Rtt.writeHead]
      rw [still] at primed
      refine .pure (.inr ⟨rfl, his, primed, addr, hasAddr, ?_⟩)
      rw [length_bits]
      apply bits_of_bytes valid
      intro i hi
      exact (same i hi).symm
  · rename_i addr raw
    apply Ensures.check
    intro some_
    obtain ⟨ap, hasAddr⟩ := Option.isSome_iff_exists.mp some_
    have none : rtt.rttConvert = none := Option.eq_none_iff_forall_ne_some.mpr fun f some => raw f ap some hasAddr
    have primed : Primed rtt (rtt.writeHead rth fun h => { h with rdxRthAddr := some ap }) rth ap :=
      primed_key ready rtt.temp _ rfl fun _ => ⟨rfl, rfl, rfl⟩
    refine .pure (.inr ⟨rfl, ap, ?_, ap, hasAddr, ?_⟩)
    · rw [hasAddr]
      exact primed
    · rw [convertKey_none none, length_bits]

theorem Primed.writeHead (p : Primed rtt m rth ap) (f : RtHead → RtHead)
    (key : ∀ h, (f h).rdxRthAddr = h.rdxRthAddr) (addr : ∀ h, (f h).rthAddr = h.rthAddr)
    (flags : ∀ h, (f h).rdclFlags = h.rdclFlags ∨ (f h).rdclFlags = 0)
    (dated : ∀ h, (f h).rthVersion = h.rthVersion ∨ (f h).rthVersion = 0) :
    Primed rtt (m.writeHead rth f) rth ap := by
  refine ⟨p.toCleared.writeHead f key addr, p.inodes, p.nmalloc, p.nfree, p.routes, p.version, ?_, ?_⟩
  · rw [heads_writeHead, if_pos rfl]
    rcases flags (m.heads rth) with same | zero
    · rw [same]
      exact p.flags
    · exact .inr zero
  · rw [heads_writeHead, if_pos rfl]
    rcases dated (m.heads rth) with same | zero
    · rw [same]
      exact p.dated
    · exact .inr zero

theorem Primed.clearLinks (p : Primed rtt m rth ap) : Primed rtt (clearLinks m rth) rth ap := by
  have cleared := p.toCleared.clearLinks
  unfold SonicUtils.Radix.clearLinks at cleared ⊢
  split
  · rename_i used
    rw [if_pos used] at cleared
    have flags := p.writeHead (fun h => { h with rdclFlags := 0 }) (fun _ => rfl) (fun _ => rfl) (fun _ => .inr rfl)
      fun _ => .inl rfl
    exact ⟨cleared, flags.inodes, flags.nmalloc, flags.nfree, flags.routes, flags.version, flags.flags, flags.dated⟩
  · exact p

theorem insertDebug_primed (p : Primed rtt m rth ap) (valid : bitlen ≤ rtt.rttMaxaddrlen) :
    ∃ m', insertDebug m rth bitlen = (false, m') ∧ Primed rtt m' rth ap := by
  unfold insertDebug
  split
  · have done := (p.writeHead (fun h => { h with rthRtn := none, rthVersion := 0 }) (fun _ => rfl) (fun _ => rfl)
      (fun _ => .inl rfl) fun _ => .inr rfl).clearLinks
    refine ⟨_, ?_, done⟩
    have fits := done.setup.len ▸ valid
    simpa using fits
  · exact ⟨m, rfl, p⟩

theorem insert_start (ready : Ready rtt) (valid : bitlen ≤ rtt.rttMaxaddrlen)
    (run : stdRadixInsert rtt rth bitlen mem = .ok (res, rtt')) :
    res = none ∧ (∃ temp, rtt' = { rtt with temp := temp }) ∨
      ∃ m ap, Primed rtt m rth ap ∧ HasKey rtt rth (ap.bits bitlen) ∧
        insertTree m rth bitlen mem = .ok (res, rtt') := by
  unfold stdRadixInsert at run
  cases hkey : insertKey rtt rth mem.key with
  | error e =>
    rw [hkey] at run
    cases run
  | ok keyed =>
    obtain ⟨set, m⟩ := keyed
    rw [hkey, ok_bind] at run
    rcases (insertKey_primed ready valid mem.key).of_ok _ hkey with ⟨unset, temp, same⟩ | ⟨isSet, ap, primed, key⟩
    · dsimp only at unset same
      subst unset same
      cases run
      exact .inl ⟨rfl, temp, rfl⟩
    · dsimp only at isSet primed
      subst isSet
      have magic : m.validateHandle = .ok () := primed.ready.validate
      obtain ⟨m', debug, primed'⟩ := insertDebug_primed primed valid
      simp only [Bool.not_true, Bool.false_eq_true, if_false, magic, ok_bind, debug] at run
      exact .inr ⟨m', ap, primed', key, run⟩

end SonicUtils.Radix
