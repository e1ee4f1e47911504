import Mathlib.Algebra.BigOperators.Group.Finset.Basic
import Xv6.Disk.Runs

/-! # Writing through a Shared `struct file` (`filewrite`)

    Any number of processes write through one open file of a regular file, each
    with any number of calls. A call is cut into pieces of at most `WRITEMAX`
    bytes, and it gives up the lock of the inode between two pieces. The steps of
    a piece are `ilock`, `writei` at `f->off`, `f->off += r` and `iunlock`, and
    the steps of all processes interleave. The rest of the kernel may change the
    disk at any time, but not the contents of the file.

    - `sharedSystem`: the system
    - `FileInv`: the file holds the pieces one behind the other
    - `CallInv`: the pieces of a call are its data, as far as it is written
    - `shared_offset`: both, in every state of every run
-/

namespace Xv6.Disk

open LTS Function

variable {P : Type} [DecidableEq P] {p : P} {pc : WritePc} {L : Layout} {c : Nat}

/-- Where a process is in `filewrite`: `c` is the number of the call, `rest` the bytes
    from `addr + i` on, and `r` what `writei` has returned. -/
inductive WritePc where
  | idle
  /-- before the test of the loop -/
  | loop (c : Nat) (rest : List Byte)
  /-- after `ilock` -/
  | locked (c : Nat) (rest : List Byte)
  /-- after `writei` -/
  | wrote (c : Nat) (rest : List Byte) (r : Option Nat)
  /-- after `f->off += r` -/
  | moved (c : Nat) (rest : List Byte) (r : Option Nat)

/-- The open file and its inode, the processes, and what has happened. -/
structure Shared (P : Type) where
  kern : Kern
  /-- `*f->ip` -/
  copy : Dinode
  /-- `f->off` -/
  off : Nat
  /-- who holds `f->ip->lock` -/
  lock : Option P
  pc : P → WritePc
  /-- the data of the calls, in the order in which they were made -/
  data : List (List Byte)
  /-- what has not been written of a call -/
  left : Nat → List Byte
  /-- the pieces that have been written, in order, with the numbers of their calls -/
  chunks : List (Nat × List Byte)
  /-- the calls in which `writei` has returned -1 -/
  failed : List Nat

/-- The steps. -/
inductive SharedLabel (P : Type) where
  | call (p : P) (src : List Byte)
  | lock (p : P)
  | write (p : P)
  | advance (p : P)
  | unlock (p : P)
  | ret (p : P)
  | other (kern : Kern) (copy : Dinode)

def Shared.goto (s : Shared P) (p : P) (pc : WritePc) : Shared P :=
  { s with pc := Function.update s.pc p pc }

/-- The history after `writei` of the next piece of call `c`. -/
def Shared.record (s : Shared P) (c : Nat) (rest : List Byte) : Option Nat → Shared P
  | none => { s with failed := c :: s.failed }
  | some _ =>
    { s with
      chunks := s.chunks ++ [(c, rest.take WRITEMAX)]
      left := Function.update s.left c (rest.drop WRITEMAX) }

variable (C : Config) (i : Nat)

/-- The steps of `filewrite`; `none` where the step cannot be taken. -/
def nextShared (s : Shared P) : SharedLabel P → Option (Shared P)
  | .call p src =>
    match s.pc p with
    | .idle => some
        ({ s with
            data := s.data ++ [src]
            left := Function.update s.left s.data.length src }.goto p (.loop s.data.length src))
    | _ => none
  | .lock p =>
    match s.pc p, s.lock with
    | .loop c rest, none =>
      if rest = [] then none else some ({ s with lock := some p }.goto p (.locked c rest))
    | _, _ => none
  | .write p =>
    match s.pc p with
    | .locked c rest =>
      match writei C s.kern i s.copy s.off (rest.take WRITEMAX) with
      | .error _ => none
      | .ok (r, copy, kern) =>
        some (({ s with kern := kern, copy := copy }.record c rest r).goto p (.wrote c rest r))
    | _ => none
  | .advance p =>
    match s.pc p with
    | .wrote c rest r => some ({ s with off := s.off + r.getD 0 }.goto p (.moved c rest r))
    | _ => none
  | .unlock p =>
    match s.pc p with
    | .moved c rest r =>
      match r with
      | none => some ({ s with lock := none }.goto p .idle)
      | some n =>
        -- `panic("short filewrite")` otherwise
        if n = min rest.length WRITEMAX then
          some ({ s with lock := none }.goto p (.loop c (rest.drop WRITEMAX)))
        else none
    | _ => none
  | .ret p =>
    match s.pc p with
    | .loop _ [] => some (s.goto p .idle)
    | _ => none
  | .other _ _ => none

/-- The rest of the kernel has run: blocks are still owned as they should be, and the
    file is the same. Its inode is changed only while its lock is free. -/
structure Elsewhere (L : Layout) (i : Nat) (s : Shared P) (kern : Kern) (copy : Dinode) :
    Prop where
  own : Own L (dinode L kern.disk) kern.disk
  stored : dinode L kern.disk i = copy
  type : copy.type = s.copy.type
  size : copy.size = s.copy.size
  noHoles : NoHoles kern.disk copy
  bytes : ∀ o, o < copy.size.toNat → fileByte kern.disk copy o = fileByte s.kern.disk s.copy o
  locked : s.lock ≠ none → copy = s.copy

/-- A regular file is open, and nobody is writing. `sys_open` sets `f->off` to zero, and
    it is only moved by bytes that were read or written, so it is not behind the
    end. -/
structure OpenFile (L : Layout) (i : Nat) (s : Shared P) : Prop where
  inode_lt : i < L.ninodes
  own : Own L (dinode L s.kern.disk) s.kern.disk
  stored : dinode L s.kern.disk i = s.copy
  type : s.copy.type = T_FILE
  noHoles : NoHoles s.kern.disk s.copy
  off_le : s.off ≤ s.copy.size.toNat
  lock : s.lock = none
  idle : ∀ p, s.pc p = .idle
  history : s.data = [] ∧ s.chunks = [] ∧ s.failed = []

/-- The runs from `s₀` on. -/
def sharedSystem (s₀ : Shared P) : System (Shared P) (SharedLabel P) where
  init := fun s => s = s₀ ∧ OpenFile C.layout i s₀
  step := fun s l s' =>
    match l with
    | .other kern copy =>
      Elsewhere C.layout i s kern copy ∧ s' = { s with kern := kern, copy := copy }
    | l => nextShared C i s l = some s'

/-! ### What a step does -/

variable {C i} {s s' s₀ : Shared P} {l : SharedLabel P}

/-- The steps, by what they need and do. -/
inductive SharedStep (C : Config) (i : Nat) (s : Shared P) : Shared P → Prop where
  | call (p : P) (src : List Byte) (hpc : s.pc p = .idle) :
      SharedStep C i s ({ s with
        data := s.data ++ [src]
        left := Function.update s.left s.data.length src }.goto p (.loop s.data.length src))
  | lock (p : P) (c : Nat) (rest : List Byte) (hpc : s.pc p = .loop c rest)
      (hfree : s.lock = none) (hne : rest ≠ []) :
      SharedStep C i s ({ s with lock := some p }.goto p (.locked c rest))
  | write (p : P) (c : Nat) (rest : List Byte) (r : Option Nat) (copy : Dinode) (kern : Kern)
      (hpc : s.pc p = .locked c rest)
      (hw : writei C s.kern i s.copy s.off (rest.take WRITEMAX) = .ok (r, copy, kern)) :
      SharedStep C i s
        (({ s with kern := kern, copy := copy }.record c rest r).goto p (.wrote c rest r))
  | advance (p : P) (c : Nat) (rest : List Byte) (r : Option Nat)
      (hpc : s.pc p = .wrote c rest r) :
      SharedStep C i s ({ s with off := s.off + r.getD 0 }.goto p (.moved c rest r))
  | fail (p : P) (c : Nat) (rest : List Byte) (hpc : s.pc p = .moved c rest none) :
      SharedStep C i s ({ s with lock := none }.goto p .idle)
  | unlock (p : P) (c : Nat) (rest : List Byte) (n : Nat) (hpc : s.pc p = .moved c rest (some n)) :
      SharedStep C i s ({ s with lock := none }.goto p (.loop c (rest.drop WRITEMAX)))
  | ret (p : P) (c : Nat) (hpc : s.pc p = .loop c []) : SharedStep C i s (s.goto p .idle)
  | other (kern : Kern) (copy : Dinode) (h : Elsewhere C.layout i s kern copy) :
      SharedStep C i s { s with kern := kern, copy := copy }

theorem sharedStep_of_next (h : nextShared C i s l = some s') : SharedStep C i s s' := by
  cases l with
  | call p src =>
    simp only [nextShared] at h
    split at h
    · rename_i hpc
      cases h
      exact .call p src hpc
    · cases h
  | lock p =>
    simp only [nextShared] at h
    split at h
    · rename_i c rest hpc hfree
      split at h
      · cases h
      · rename_i hne
        cases h
        exact .lock p c rest hpc hfree hne
    · cases h
  | write p =>
    simp only [nextShared] at h
    split at h
    · rename_i c rest hpc
      split at h
      · cases h
      · rename_i r copy kern hw
        cases h
        exact .write p c rest r copy kern hpc hw
    · cases h
  | advance p =>
    simp only [nextShared] at h
    split at h
    · rename_i c rest r hpc
      cases h
      exact .advance p c rest r hpc
    · cases h
  | unlock p =>
    simp only [nextShared] at h
    split at h
    · rename_i c rest r hpc
      split at h
      · cases h
        exact .fail p c rest hpc
      · rename_i n
        split at h
        · cases h
          exact .unlock p c rest n hpc
        · cases h
    · cases h
  | ret p =>
    simp only [nextShared] at h
    split at h
    · rename_i c hpc
      cases h
      exact .ret p c hpc
    · cases h
  | other kern copy => cases h

theorem sharedStep_of_step (h : (sharedSystem C i s₀).step s l s') : SharedStep C i s s' := by
  cases l with
  | other kern copy =>
    obtain ⟨helse, rfl⟩ := h
    exact .other kern copy helse
  | call p src => exact sharedStep_of_next h
  | lock p => exact sharedStep_of_next h
  | write p => exact sharedStep_of_next h
  | advance p => exact sharedStep_of_next h
  | unlock p => exact sharedStep_of_next h
  | ret p => exact sharedStep_of_next h

/-! ### The lock -/

/-- Between `ilock` and `iunlock`. -/
def WritePc.inside : WritePc → Bool
  | .locked _ _ | .wrote _ _ _ | .moved _ _ _ => true
  | _ => false

/-- The bytes that are in the file but not yet in `f->off`. -/
def WritePc.pending : WritePc → Nat
  | .wrote _ _ r => r.getD 0
  | _ => 0

/-- The lock is held exactly by the process that is inside. -/
def LockInv (s : Shared P) : Prop := ∀ p, s.lock = some p ↔ (s.pc p).inside = true

def Shared.pending (s : Shared P) : Nat :=
  match s.lock with
  | none => 0
  | some p => (s.pc p).pending

@[simp] theorem pc_goto_self (p : P) (pc : WritePc) : (s.goto p pc).pc p = pc :=
  update_self _ _ _

theorem pc_goto_of_ne {q : P} (pc : WritePc) (h : q ≠ p) : (s.goto p pc).pc q = s.pc q :=
  update_of_ne h _ _

section

omit [DecidableEq P]

@[simp] theorem pc_record (c : Nat) (rest : List Byte) (r : Option Nat) :
    (s.record c rest r).pc = s.pc := by
  cases r <;> rfl

@[simp] theorem lock_record (c : Nat) (rest : List Byte) (r : Option Nat) :
    (s.record c rest r).lock = s.lock := by
  cases r <;> rfl

end

/-- A process that moves while the lock stays with whom it is. -/
theorem LockInv.move (h : LockInv s) (hlock : s'.lock = s.lock)
    (hpc : s'.pc = Function.update s.pc p pc) (hin : pc.inside = (s.pc p).inside) : LockInv s' := by
  intro q
  rw [hlock, h q, hpc]
  by_cases hq : q = p
  · rw [hq, update_self, hin]
  · rw [update_of_ne hq]

/-- The process that is inside gives up the lock. -/
theorem LockInv.release (h : LockInv s) (hlock : s'.lock = none)
    (hpc : s'.pc = Function.update s.pc p pc) (hin : (s.pc p).inside = true)
    (hout : pc.inside = false) : LockInv s' := by
  intro q
  have hp : s.lock = some p := (h p).mpr hin
  rw [hlock, hpc]
  have hnot : (Function.update s.pc p pc q).inside = false := by
    by_cases hq : q = p
    · rw [hq, update_self, hout]
    · rw [update_of_ne hq]
      by_contra hne
      have hlocked := (h q).mpr (Bool.eq_true_of_not_eq_false hne)
      rw [hp] at hlocked
      exact hq (Option.some.inj hlocked).symm
  rw [hnot]
  constructor
  · intro heq
    cases heq
  · intro heq
    cases heq

theorem LockInv.step (h : LockInv s) (hst : SharedStep C i s s') : LockInv s' := by
  cases hst with
  | call p src hpc =>
    refine h.move rfl rfl ?_
    rw [hpc]
    rfl
  | lock p c rest hpc hfree hne =>
    intro q
    by_cases hq : q = p
    · subst hq
      rw [pc_goto_self]
      exact ⟨fun _ => rfl, fun _ => rfl⟩
    · rw [pc_goto_of_ne _ hq]
      constructor
      · intro heq
        exact absurd (Option.some.inj heq).symm hq
      · intro hin
        -- nobody else is inside, since the lock was free
        have := (h q).mpr hin
        rw [hfree] at this
        cases this
  | write p c rest r copy kern hpc hw =>
    have hpc' : (({ s with kern, copy }.record c rest r).goto p (.wrote c rest r)).pc =
        Function.update s.pc p (.wrote c rest r) := by
      unfold Shared.goto
      dsimp only
      rw [pc_record]
    refine h.move (lock_record _ _ _) hpc' ?_
    rw [hpc]
    rfl
  | advance p c rest r hpc =>
    refine h.move rfl rfl ?_
    rw [hpc]
    rfl
  | fail p c rest hpc =>
    refine h.release rfl rfl ?_ rfl
    rw [hpc]
    rfl
  | unlock p c rest n hpc =>
    refine h.release rfl rfl ?_ rfl
    rw [hpc]
    rfl
  | ret p c hpc =>
    refine h.move rfl rfl ?_
    rw [hpc]
    rfl
  | other kern copy helse => exact h

/-- A process outside the lock does not matter to what is pending. -/
theorem LockInv.pending_outside (h : LockInv s) (hlock : s'.lock = s.lock)
    (hpc : s'.pc = Function.update s.pc p pc) (hout : (s.pc p).inside = false) :
    s'.pending = s.pending := by
  unfold Shared.pending
  rw [hlock, hpc]
  cases hl : s.lock with
  | none => rfl
  | some q =>
    have hq : q ≠ p := by
      rintro rfl
      have := (h q).mp hl
      rw [hout] at this
      cases this
    dsimp only
    rw [update_of_ne hq]

/-! ### The contents of the file -/

/-- All bytes written, in order. -/
def Shared.total (s : Shared P) : List Byte := (s.chunks.map Prod.snd).flatten

/-- The file is as it was, with the bytes written from the first offset on. -/
structure FileInv (L : Layout) (i : Nat) (s₀ s : Shared P) : Prop where
  own : Own L (dinode L s.kern.disk) s.kern.disk
  stored : dinode L s.kern.disk i = s.copy
  type : s.copy.type = T_FILE
  noHoles : NoHoles s.kern.disk s.copy
  size : s.copy.size.toNat = max s₀.copy.size.toNat (s₀.off + s.total.length)
  bytes : ∀ o, o < s.copy.size.toNat → fileByte s.kern.disk s.copy o =
    if InRange s₀.off s.total.length o then s.total.getD (o - s₀.off) 0
    else fileByte s₀.kern.disk s₀.copy o
  off : s.off + s.pending = s₀.off + s.total.length

section

omit [DecidableEq P]

theorem FileInv.congr (h : FileInv L i s₀ s) (hkern : s'.kern = s.kern) (hcopy : s'.copy = s.copy)
    (hchunks : s'.chunks = s.chunks) (hoff : s'.off + s'.pending = s.off + s.pending) :
    FileInv L i s₀ s' := by
  have htotal : s'.total = s.total := by
    unfold Shared.total
    rw [hchunks]
  refine ⟨?_, ?_, ?_, ?_, ?_, ?_, ?_⟩
  · rw [hkern]
    exact h.own
  · rw [hkern, hcopy]
    exact h.stored
  · rw [hcopy]
    exact h.type
  · rw [hkern, hcopy]
    exact h.noHoles
  · rw [hcopy, htotal]
    exact h.size
  · rw [hkern, hcopy, htotal]
    exact h.bytes
  · rw [hoff, htotal]
    exact h.off

/-- A piece is written behind those from before. -/
theorem FileInv.append (h : FileInv L i s₀ s) {src : List Byte} {copy : Dinode} {kern : Kern}
    (hpend : s.pending = 0)
    (hw : WriteDone L (dinode L s.kern.disk) i copy s.kern.disk kern.disk s.off src)
    (hkern : s'.kern = kern) (hcopy : s'.copy = copy) (htotal : s'.total = s.total ++ src)
    (hoff : s'.off = s.off) (hpend' : s'.pending = src.length) : FileInv L i s₀ s' := by
  have hat : s.off = s₀.off + s.total.length := by
    have := h.off
    omega
  have hstored := hw.stored rfl
  have hfields := hw.fields
  have hsize := hw.size
  have hold := h.size
  rw [h.stored] at hfields hsize
  have hlen : s'.total.length = s.total.length + src.length := by
    rw [htotal, List.length_append]
  refine ⟨?_, ?_, ?_, ?_, ?_, ?_, ?_⟩
  · rw [hkern]
    exact Own.of_update hw.own hw.inodes hstored
  · rw [hkern, hcopy]
    exact hstored
  · rw [hcopy, hfields]
    exact h.type
  · rw [hkern, hcopy]
    exact hw.noHoles
  · rw [hcopy, hsize, hlen]
    omega
  · rw [hkern, hcopy, hlen]
    intro o ho
    rw [hw.bytes o ho, h.stored]
    by_cases hnew : InRange s.off src.length o
    · -- one of the new bytes
      have hin : InRange s₀.off (s.total.length + src.length) o := by
        unfold InRange at hnew ⊢
        omega
      rw [if_pos hnew, if_pos hin]
      unfold InRange at hnew
      rw [htotal, List.getD_append_right _ _ _ _ (by omega)]
      congr 1
      omega
    · rw [if_neg hnew]
      have holdlt : o < s.copy.size.toNat := by
        unfold InRange at hnew
        omega
      rw [h.bytes o holdlt]
      by_cases hin : InRange s₀.off s.total.length o
      · have hin' : InRange s₀.off (s.total.length + src.length) o := by
          unfold InRange at hin ⊢
          omega
        rw [if_pos hin, if_pos hin']
        unfold InRange at hin
        rw [htotal, List.getD_append _ _ _ _ (by omega)]
      · have hin' : ¬ InRange s₀.off (s.total.length + src.length) o := by
          unfold InRange at hin hnew ⊢
          omega
        rw [if_neg hin, if_neg hin']
  · rw [hoff, hpend', hlen]
    omega

end

/-! ### The calls -/

/-- The call that a process is in. -/
def WritePc.call : WritePc → Option Nat
  | .idle => none
  | .loop c _ | .locked c _ | .wrote c _ _ | .moved c _ _ => some c

/-- What is not yet written of the call. -/
def WritePc.rest : WritePc → List Byte
  | .idle => []
  | .loop _ rest | .locked _ rest | .wrote _ rest none | .moved _ rest none => rest
  | .wrote _ rest (some _) | .moved _ rest (some _) => rest.drop WRITEMAX

/-- `writei` has returned -1. -/
def WritePc.broken : WritePc → Bool
  | .wrote _ _ none | .moved _ _ none => true
  | _ => false

/-- The pieces of call `c`, in order. -/
def Shared.pieces (s : Shared P) (c : Nat) : List Byte :=
  ((s.chunks.filter (fun x => x.1 = c)).map Prod.snd).flatten

/-- The bytes of all calls. -/
def Shared.asked (s : Shared P) : Nat := (s.data.map List.length).sum

/-- The bytes of all calls that are not written. -/
def Shared.missing (s : Shared P) : Nat := ∑ c ∈ Finset.range s.data.length, (s.left c).length

/-- Who is in which call. -/
structure Turns (s : Shared P) : Prop where
  /-- a call in progress has been made, and what is left of it is known -/
  calls : ∀ p c, (s.pc p).call = some c → c < s.data.length ∧ s.left c = (s.pc p).rest
  distinct : ∀ p q c, (s.pc p).call = some c → (s.pc q).call = some c → p = q
  done : ∀ c, c < s.data.length → (∀ p, (s.pc p).call ≠ some c) → c ∈ s.failed ∨ s.left c = []
  nonempty : ∀ p c rest, s.pc p = .locked c rest → rest ≠ []
  broken : ∀ p c, (s.pc p).broken = true → (s.pc p).call = some c → c ∈ s.failed

structure CallInv (s₀ s : Shared P) : Prop extends Turns s where
  split : ∀ c, c < s.data.length → s.data.getD c [] = s.pieces c ++ s.left c
  known : ∀ x ∈ s.chunks, x.1 < s.data.length
  size : ∀ x ∈ s.chunks, x.2 ≠ [] ∧ x.2.length ≤ WRITEMAX
  sum : s.total.length + s.missing = s.asked
  failed : s.failed ≠ [] → MAXFILE * BSIZE < s₀.off + s.asked

/-- A process goes on in its call. -/
theorem Turns.stay (h : Turns s) (hc : (s.pc p).call = some c)
    (hpc : s'.pc = Function.update s.pc p pc)
    (hcall : pc.call = some c) (hrest : s'.left c = pc.rest) (hdata : s'.data = s.data)
    (hleft : ∀ c', c' ≠ c → s'.left c' = s.left c')
    (hne : ∀ c' rest, pc = .locked c' rest → rest ≠ []) (hfailed : ∀ c' ∈ s.failed, c' ∈ s'.failed)
    (hbroken : pc.broken = true → c ∈ s'.failed) : Turns s' := by
  have hself : s'.pc p = pc := by rw [hpc, update_self]
  have hother : ∀ q, q ≠ p → s'.pc q = s.pc q := fun q hq => by rw [hpc, update_of_ne hq]
  have hsame : ∀ q, (s'.pc q).call = (s.pc q).call := by
    rw [hpc]
    exact (forall_update_iff s.pc (fun q b => b.call = (s.pc q).call)).mpr
      ⟨hcall.trans hc.symm, fun _ _ => rfl⟩
  refine ⟨fun q c' hq => ?_, fun q r c' hq hr => ?_, fun c' hc' hno => ?_, fun q c' rest hq => ?_,
    fun q c' hb hq => ?_⟩
  · rw [hsame] at hq
    rw [hdata]
    refine ⟨(h.calls q c' hq).1, ?_⟩
    by_cases hqp : q = p
    · rw [hqp, hc] at hq
      cases hq
      rw [hqp, hself]
      exact hrest
    · -- another process is in another call
      have hcc : c' ≠ c := by
        rintro rfl
        exact hqp (h.distinct q p c' hq hc)
      rw [hother q hqp, hleft c' hcc]
      exact (h.calls q c' hq).2
  · rw [hsame] at hq hr
    exact h.distinct q r c' hq hr
  · have hcc : c' ≠ c := by
      rintro rfl
      exact hno p ((hsame p).trans hc)
    rw [hdata] at hc'
    rw [hleft c' hcc]
    exact (h.done c' hc' fun q hq => hno q ((hsame q).trans hq)).imp_left (hfailed c')
  · by_cases hqp : q = p
    · rw [hqp, hself] at hq
      exact hne c' rest hq
    · rw [hother q hqp] at hq
      exact h.nonempty q c' rest hq
  · rw [hsame] at hq
    by_cases hqp : q = p
    · rw [hqp, hc] at hq
      cases hq
      rw [hqp, hself] at hb
      exact hbroken hb
    · rw [hother q hqp] at hb
      exact hfailed c' (h.broken q c' hb hq)

/-- A process moves on in its call. -/
theorem CallInv.move (h : CallInv s₀ s) (hc : (s.pc p).call = some c) (hcall : pc.call = some c)
    (hrest : pc.rest = (s.pc p).rest) (hbroken : pc.broken = true → (s.pc p).broken = true)
    (hne : ∀ c rest, pc = .locked c rest → rest ≠ []) : CallInv s₀ (s.goto p pc) :=
  { h with
    toTurns := h.stay hc rfl hcall ((h.calls p c hc).2.trans hrest.symm) rfl (fun _ _ => rfl) hne
      (fun _ => id) (fun hb => h.broken p c (hbroken hb) hc) }

/-- A process returns from its call. -/
theorem CallInv.leave (h : CallInv s₀ s) (hc : (s.pc p).call = some c)
    (hdone : c ∈ s.failed ∨ s.left c = []) : CallInv s₀ (s.goto p .idle) := by
  have hback : ∀ q c', ((s.goto p .idle).pc q).call = some c' → (s.pc q).call = some c' :=
    (forall_update_iff s.pc (fun q b => ∀ c', b.call = some c' → (s.pc q).call = some c')).mpr
      ⟨nofun, fun _ _ _ => id⟩
  refine { h with
    calls := (forall_update_iff s.pc (fun _ b => ∀ c', b.call = some c' →
      c' < s.data.length ∧ s.left c' = b.rest)).mpr ⟨nofun, fun q _ => h.calls q⟩
    distinct := fun q r c' hq hr => h.distinct q r c' (hback q c' hq) (hback r c' hr)
    done := fun c' hc' hno => ?_
    nonempty := (forall_update_iff s.pc (fun _ b => ∀ c' rest, b = .locked c' rest →
      rest ≠ [])).mpr ⟨nofun, fun q _ => h.nonempty q⟩
    broken := (forall_update_iff s.pc (fun _ b => ∀ c', b.broken = true → b.call = some c' →
      c' ∈ s.failed)).mpr ⟨nofun, fun q _ => h.broken q⟩ }
  by_cases heq : c' = c
  · rw [heq]
    exact hdone
  · refine h.done c' hc' fun q hq => ?_
    by_cases hqp : q = p
    · rw [hqp, hc] at hq
      exact heq (Option.some.inj hq).symm
    · refine hno q ?_
      rw [pc_goto_of_ne _ hqp]
      exact hq

/-- What is missing changes with what is left of one call. -/
theorem sum_length_update {n : Nat} (hc : c < n) (left : Nat → List Byte) (x : List Byte) :
    (∑ j ∈ Finset.range n, (Function.update left c x j).length) + (left c).length =
      (∑ j ∈ Finset.range n, (left j).length) + x.length := by
  have hmem := Finset.mem_range.mpr hc
  have hrest : ∑ j ∈ (Finset.range n).erase c, (Function.update left c x j).length =
      ∑ j ∈ (Finset.range n).erase c, (left j).length := by
    refine Finset.sum_congr rfl fun j hj => ?_
    rw [update_of_ne (Finset.ne_of_mem_erase hj)]
  rw [← Finset.add_sum_erase _ _ hmem, ← Finset.add_sum_erase _ (fun j => (left j).length) hmem,
    hrest, update_self]
  omega

omit [DecidableEq P] in
theorem length_left_le (hc : c < s.data.length) : (s.left c).length ≤ s.missing := by
  unfold Shared.missing
  rw [← Finset.add_sum_erase _ _ (Finset.mem_range.mpr hc)]
  exact Nat.le_add_right _ _

/-- A new call. -/
theorem CallInv.start (h : CallInv s₀ s) (src : List Byte) (hpc : s.pc p = .idle) :
    CallInv s₀ ({ s with
      data := s.data ++ [src]
      left := Function.update s.left s.data.length src }.goto p (.loop s.data.length src)) := by
  have hlen : (s.data ++ [src]).length = s.data.length + 1 := by simp
  have hold : ∀ c, c < s.data.length → Function.update s.left s.data.length src c = s.left c :=
    fun c hc => update_of_ne (Nat.ne_of_lt hc) _ _
  have hasked : ((s.data ++ [src]).map List.length).sum = s.asked + src.length := by
    simp [Shared.asked]
  refine ⟨⟨fun q c hq => ?_, fun q r c hq hr => ?_, fun c hc hno => ?_,
    (forall_update_iff s.pc (fun _ b => ∀ c rest, b = .locked c rest → rest ≠ [])).mpr
      ⟨nofun, fun q _ => h.nonempty q⟩,
    (forall_update_iff s.pc (fun _ b => ∀ c, b.broken = true → b.call = some c →
      c ∈ s.failed)).mpr ⟨nofun, fun q _ => h.broken q⟩⟩,
    fun c hc => ?_, fun x hx => ?_, h.size, ?_, fun hf => ?_⟩
  · by_cases hqp : q = p
    · rw [hqp, pc_goto_self] at hq ⊢
      cases hq
      refine ⟨?_, update_self _ _ _⟩
      show s.data.length < (s.data ++ [src]).length
      omega
    · rw [pc_goto_of_ne _ hqp] at hq ⊢
      obtain ⟨hlt, hleft⟩ := h.calls q c hq
      refine ⟨?_, (hold c hlt).trans hleft⟩
      show c < (s.data ++ [src]).length
      omega
  · by_cases hqp : q = p
    · by_cases hrp : r = p
      · rw [hqp, hrp]
      · rw [hqp, pc_goto_self] at hq
        rw [pc_goto_of_ne _ hrp] at hr
        cases hq
        exact absurd (h.calls r _ hr).1 (Nat.lt_irrefl _)
    · by_cases hrp : r = p
      · rw [hrp, pc_goto_self] at hr
        rw [pc_goto_of_ne _ hqp] at hq
        cases hr
        exact absurd (h.calls q _ hq).1 (Nat.lt_irrefl _)
      · rw [pc_goto_of_ne _ hqp] at hq
        rw [pc_goto_of_ne _ hrp] at hr
        exact h.distinct q r c hq hr
  · have hc' : c < (s.data ++ [src]).length := hc
    by_cases hnew : c = s.data.length
    · refine absurd ?_ (hno p)
      rw [pc_goto_self, hnew]
      rfl
    · have hlt : c < s.data.length := by omega
      refine (h.done c hlt fun q hq => hno q ?_).imp id fun hnil => (hold c hlt).trans hnil
      by_cases hqp : q = p
      · rw [hqp, hpc] at hq
        cases hq
      · rw [pc_goto_of_ne _ hqp]
        exact hq
  · show (s.data ++ [src]).getD c [] = s.pieces c ++ Function.update s.left s.data.length src c
    have hc' : c < (s.data ++ [src]).length := hc
    by_cases hnew : c = s.data.length
    · -- no piece of the new call has been written
      have hnone : s.pieces c = [] := by
        have hfilter : s.chunks.filter (fun x => x.1 = c) = [] := by
          refine List.filter_eq_nil_iff.mpr fun x hx => ?_
          have := h.known x hx
          simp only [decide_eq_true_eq]
          omega
        unfold Shared.pieces
        rw [hfilter]
        rfl
      rw [hnone, hnew, update_self, List.getD_append_right _ _ _ _ (Nat.le_refl _)]
      simp
    · have hlt : c < s.data.length := by omega
      rw [hold c hlt, List.getD_append _ _ _ _ hlt]
      exact h.split c hlt
  · show x.1 < (s.data ++ [src]).length
    have := h.known x hx
    omega
  · show s.total.length + (∑ j ∈ Finset.range (s.data ++ [src]).length,
      (Function.update s.left s.data.length src j).length) = ((s.data ++ [src]).map List.length).sum
    have hsum : ∑ j ∈ Finset.range s.data.length,
        (Function.update s.left s.data.length src j).length = s.missing :=
      Finset.sum_congr rfl fun j hj => by rw [hold j (Finset.mem_range.mp hj)]
    rw [hasked, hlen, Finset.sum_range_succ, hsum, update_self]
    have := h.sum
    omega
  · have := h.failed hf
    show MAXFILE * BSIZE < s₀.off + ((s.data ++ [src]).map List.length).sum
    omega

/-- A write that fails: then all calls together ask for more than a file can hold. -/
theorem CallInv.writeFailed (h : CallInv s₀ s) {rest : List Byte} (hpc : s.pc p = .locked c rest)
    (hmax : MAXFILE * BSIZE < s₀.off + s.asked) :
    CallInv s₀ ((s.record c rest none).goto p (.wrote c rest none)) := by
  have hcall : (s.pc p).call = some c := by rw [hpc]; rfl
  have hleft := (h.calls p c hcall).2
  rw [hpc] at hleft
  exact { h with
    toTurns := h.stay hcall rfl rfl hleft rfl (fun _ _ => rfl) nofun
      (fun _ => List.mem_cons_of_mem _) (fun _ => List.mem_cons_self)
    failed := fun _ => hmax }

section

omit [DecidableEq P]

theorem total_record (c : Nat) (rest : List Byte) (n : Nat) :
    (s.record c rest (some n)).total = s.total ++ rest.take WRITEMAX := by
  simp [Shared.total, Shared.record]

theorem pieces_record (c c' : Nat) (rest : List Byte) (n : Nat) :
    (s.record c rest (some n)).pieces c' =
      s.pieces c' ++ if c = c' then rest.take WRITEMAX else [] := by
  by_cases hc : c = c'
  · simp [Shared.pieces, Shared.record, List.filter_append, hc]
  · simp [Shared.pieces, Shared.record, List.filter_append, hc]

end

/-- A write that succeeds. -/
theorem CallInv.writeDone (h : CallInv s₀ s) {rest : List Byte} {n : Nat}
    (hpc : s.pc p = .locked c rest) :
    CallInv s₀ ((s.record c rest (some n)).goto p (.wrote c rest (some n))) := by
  have hcall : (s.pc p).call = some c := by rw [hpc]; rfl
  obtain ⟨hlt, hleft⟩ := h.calls p c hcall
  rw [hpc] at hleft
  have hleft : s.left c = rest := hleft
  have hne := h.nonempty p c rest hpc
  refine { h with
    toTurns := h.stay hcall rfl rfl (update_self _ _ _) rfl (fun c' hcc => update_of_ne hcc _ _)
      nofun (fun _ => id) nofun
    split := fun c' hc' => ?_
    known := fun x hx => ?_
    size := fun x hx => ?_
    sum := ?_ }
  · show s.data.getD c' [] = (s.record c rest (some n)).pieces c' ++
      Function.update s.left c (rest.drop WRITEMAX) c'
    rw [pieces_record, h.split c' hc']
    by_cases hcc : c = c'
    · subst hcc
      rw [if_pos rfl, update_self, hleft, List.append_assoc, List.take_append_drop]
    · rw [if_neg hcc, List.append_nil, update_of_ne (Ne.symm hcc)]
  · rcases List.mem_append.mp hx with hx | hx
    · exact h.known x hx
    · rw [List.mem_singleton.mp hx]
      exact hlt
  · rcases List.mem_append.mp hx with hx | hx
    · exact h.size x hx
    · rw [List.mem_singleton.mp hx]
      refine ⟨fun hnil => ?_, List.length_take_le _ _⟩
      rcases List.take_eq_nil_iff.mp hnil with hzero | hnil
      · exact absurd hzero (by decide)
      · exact hne hnil
  · show (s.record c rest (some n)).total.length + (∑ j ∈ Finset.range s.data.length,
      (Function.update s.left c (rest.drop WRITEMAX) j).length) = s.asked
    have hupdate := sum_length_update hlt s.left (rest.drop WRITEMAX)
    have hmissing : s.missing = ∑ j ∈ Finset.range s.data.length, (s.left j).length := rfl
    have hsum := h.sum
    have hcut : (rest.take WRITEMAX).length + (rest.drop WRITEMAX).length = rest.length := by
      rw [← List.length_append, List.take_append_drop]
    rw [hleft] at hupdate
    rw [total_record, List.length_append]
    omega

/-! ### Runs -/

structure SharedInv (C : Config) (i : Nat) (s₀ s : Shared P) : Prop where
  lock : LockInv s
  file : FileInv C.layout i s₀ s
  calls : CallInv s₀ s

section

omit [DecidableEq P]

theorem SharedInv.init (h : OpenFile C.layout i s₀) : SharedInv C i s₀ s₀ := by
  obtain ⟨hdata, hchunks, hfailed⟩ := h.history
  have htotal : s₀.total = [] := by
    unfold Shared.total
    rw [hchunks]
    rfl
  have hnocall : ∀ p, (s₀.pc p).call = none := fun p => by rw [h.idle p]; rfl
  refine ⟨fun p => ?_, ⟨h.own, h.stored, h.type, h.noHoles, ?_, fun o _ => ?_, ?_⟩, ?_⟩
  · rw [h.lock, h.idle p]
    constructor
    · intro heq
      cases heq
    · intro heq
      cases heq
  · rw [htotal]
    have := h.off_le
    simp only [List.length_nil]
    omega
  · rw [htotal, if_neg]
    rintro ⟨hge, hlt⟩
    simp only [List.length_nil] at hlt
    omega
  · unfold Shared.pending
    rw [h.lock, htotal]
    rfl
  · refine ⟨⟨fun p c hc => ?_, fun p q c hc => ?_, fun c hc => ?_, fun p c rest hpc => ?_,
      fun p c _ hc => ?_⟩, fun c hc => ?_, fun x hx => ?_, fun x hx => ?_, ?_,
      fun hf => absurd hfailed hf⟩
    · rw [hnocall] at hc
      cases hc
    · rw [hnocall] at hc
      cases hc
    · rw [hdata] at hc
      exact absurd hc (Nat.not_lt_zero _)
    · rw [h.idle p] at hpc
      cases hpc
    · rw [hnocall] at hc
      cases hc
    · rw [hdata] at hc
      exact absurd hc (Nat.not_lt_zero _)
    · rw [hchunks] at hx
      exact absurd hx List.not_mem_nil
    · rw [hchunks] at hx
      exact absurd hx List.not_mem_nil
    · unfold Shared.missing Shared.asked
      rw [htotal, hdata]
      rfl

/-- The process that holds the lock says what is pending. -/
theorem LockInv.pending_eq (h : LockInv s) (hin : (s.pc p).inside = true) :
    s.pending = (s.pc p).pending := by
  unfold Shared.pending
  rw [(h p).mpr hin]

end

/-- `writei` of the next piece. -/
theorem SharedInv.write (h : SharedInv C i s₀ s) (hi : i < C.layout.ninodes) {rest : List Byte} {r : Option Nat}
    {copy : Dinode} {kern : Kern} (hpc : s.pc p = .locked c rest)
    (hw : writei C s.kern i s.copy s.off (rest.take WRITEMAX) = .ok (r, copy, kern))
    (hlock : LockInv
      (({ s with kern := kern, copy := copy }.record c rest r).goto p (.wrote c rest r))) :
    SharedInv C i s₀
      (({ s with kern := kern, copy := copy }.record c rest r).goto p (.wrote c rest r)) := by
  have hcall : (s.pc p).call = some c := by rw [hpc]; rfl
  obtain ⟨hlt, hleft⟩ := h.calls.calls p c hcall
  rw [hpc] at hleft
  have hpend : s.pending = 0 := by
    rw [h.lock.pending_eq (by rw [hpc]; rfl), hpc]
    rfl
  have hpend' : (({ s with kern := kern, copy := copy }.record c rest r).goto p
      (.wrote c rest r)).pending = r.getD 0 := by
    rw [hlock.pending_eq (p := p) (by rw [pc_goto_self]; rfl), pc_goto_self]
    rfl
  have hoff := h.file.off
  have hsize := h.file.size
  have htake : (rest.take WRITEMAX).length < 4294967296 :=
    Nat.lt_of_le_of_lt (List.length_take_le _ _) (by decide)
  have ht : s.copy.type ≠ 0 := by rw [h.file.type]; decide
  have hdev : s.copy.type ≠ T_DEV := by rw [h.file.type]; decide
  have hno := h.file.noHoles
  rw [← h.file.stored] at hw ht hdev hno
  rcases writei_ok rfl hi h.file.own ht hdev hno htake hw with
    ⟨rfl, hcopy, hkern, hwhy⟩ | ⟨rfl, _, _, hdone⟩
  · -- nothing was written: the offset is inside the file, so the file would be too long
    have hcopy' : copy = s.copy := hcopy.trans h.file.stored
    have hmax : MAXFILE * BSIZE < s₀.off + s.asked := by
      have hle := length_left_le hlt
      have hsum := h.calls.sum
      have hcut := List.length_take_le' WRITEMAX rest
      rw [hleft] at hle
      have hle : rest.length ≤ s.missing := hle
      rw [h.file.stored] at hwhy
      omega
    refine ⟨hlock, h.file.congr hkern hcopy' rfl ?_, ?_⟩
    · rw [hpend', hpend]
      rfl
    · exact { h.calls.writeFailed hpc hmax with }
  · refine ⟨hlock, h.file.append hpend hdone rfl rfl ?_ rfl hpend', ?_⟩
    · show ((s.chunks ++ [(c, rest.take WRITEMAX)]).map Prod.snd).flatten = _
      simp [Shared.total]
    · exact { h.calls.writeDone (n := (rest.take WRITEMAX).length) hpc with }

theorem SharedInv.step (h : SharedInv C i s₀ s) (hi : i < C.layout.ninodes)
    (hst : SharedStep C i s s') : SharedInv C i s₀ s' := by
  have hlock := h.lock.step hst
  cases hst with
  | call p src hpc =>
    refine ⟨hlock, h.file.congr rfl rfl rfl ?_, h.calls.start src hpc⟩
    exact congrArg (s.off + ·) (h.lock.pending_outside rfl rfl (by rw [hpc]; rfl))
  | lock p c rest hpc hfree hne =>
    refine ⟨hlock, h.file.congr rfl rfl rfl ?_, ?_⟩
    · have hnone : s.pending = 0 := by
        unfold Shared.pending
        rw [hfree]
      rw [hlock.pending_eq (p := p) (by rw [pc_goto_self]; rfl), pc_goto_self, hnone]
      rfl
    · have hmove : CallInv s₀ (s.goto p (.locked c rest)) := by
        refine h.calls.move (by rw [hpc]; rfl) rfl (by rw [hpc]; rfl) nofun fun c' rest' heq => ?_
        cases heq
        exact hne
      exact { hmove with }
  | write p c rest r copy kern hpc hw => exact h.write hi hpc hw hlock
  | advance p c rest r hpc =>
    refine ⟨hlock, h.file.congr rfl rfl rfl ?_, ?_⟩
    · -- what was pending is now in `f->off`
      have hpend : s.pending = r.getD 0 := by
        rw [h.lock.pending_eq (by rw [hpc]; rfl), hpc]
        rfl
      rw [hlock.pending_eq (p := p) (by rw [pc_goto_self]; rfl), pc_goto_self, hpend]
      rfl
    · have hmove : CallInv s₀ (s.goto p (.moved c rest r)) := by
        refine h.calls.move (by rw [hpc]; rfl) rfl ?_ (fun hb => ?_) nofun
        · rw [hpc]
          cases r <;> rfl
        · rw [hpc]
          cases r with
          | none => rfl
          | some n => cases hb
      exact { hmove with }
  | fail p c rest hpc =>
    refine ⟨hlock, h.file.congr rfl rfl rfl ?_, ?_⟩
    · rw [h.lock.pending_eq (by rw [hpc]; rfl), hpc]
      rfl
    · have hcall : (s.pc p).call = some c := by rw [hpc]; rfl
      have hfailed := h.calls.broken p c (by rw [hpc]; rfl) hcall
      exact { h.calls.leave hcall (Or.inl hfailed) with }
  | unlock p c rest n hpc =>
    refine ⟨hlock, h.file.congr rfl rfl rfl ?_, ?_⟩
    · rw [h.lock.pending_eq (by rw [hpc]; rfl), hpc]
      rfl
    · have hmove : CallInv s₀ (s.goto p (.loop c (rest.drop WRITEMAX))) :=
        h.calls.move (by rw [hpc]; rfl) rfl (by rw [hpc]; rfl) nofun nofun
      exact { hmove with }
  | ret p c hpc =>
    have hcall : (s.pc p).call = some c := by rw [hpc]; rfl
    have hleft := (h.calls.calls p c hcall).2
    rw [hpc] at hleft
    refine ⟨hlock, h.file.congr rfl rfl rfl ?_, h.calls.leave hcall (Or.inr hleft)⟩
    exact congrArg (s.off + ·) (h.lock.pending_outside rfl rfl (by rw [hpc]; rfl))
  | other kern copy helse =>
    refine ⟨hlock, ⟨helse.own, helse.stored, ?_, helse.noHoles, ?_, fun o ho => ?_, h.file.off⟩,
      { h.calls with }⟩
    · exact helse.type.trans h.file.type
    · show copy.size.toNat = _
      rw [helse.size]
      exact h.file.size
    · have ho' : o < s.copy.size.toNat := by
        rw [← helse.size]
        exact ho
      exact (helse.bytes o ho).trans (h.file.bytes o ho')

theorem sharedInv_reachable (h : Reachable (sharedSystem C i s₀) s) : SharedInv C i s₀ s := by
  have hopen : OpenFile C.layout i s₀ := by
    induction h with
    | init h0 => exact h0.2
    | step _ _ _ ih => exact ih
  have hinit : ∀ t, (sharedSystem C i s₀).init t → SharedInv C i s₀ t := by
    rintro t ⟨rfl, hopen⟩
    exact SharedInv.init hopen
  have hstep : ∀ t l t', SharedInv C i s₀ t → (sharedSystem C i s₀).step t l t' →
      SharedInv C i s₀ t' := fun t l t' ht hst =>
    ht.step hopen.inode_lt (sharedStep_of_step hst)
  exact h.invariant hinit hstep

omit [DecidableEq P] in
/-- The bytes from the first offset on are those written, in order. -/
theorem FileInv.region (h : FileInv L i s₀ s) :
    fileBytes s.kern.disk s.copy s₀.off s.total.length = s.total := by
  have hsize := h.size
  refine List.ext_getElem (by simp [fileBytes]) fun j hj hj' => ?_
  have hbyte := h.bytes (s₀.off + j) (by omega)
  have hin : InRange s₀.off s.total.length (s₀.off + j) := ⟨by omega, by omega⟩
  rw [if_pos hin, Nat.add_sub_cancel_left, List.getD_eq_getElem _ _ hj'] at hbyte
  simp only [fileBytes, List.getElem_map, List.getElem_range]
  exact hbyte

/-- **Shared offset.** In every state of every run, at most one process is between
    `ilock` and `iunlock`; the file holds, from the first offset on, the pieces that
    were written, one behind the other, and is as before elsewhere; a piece has at most
    `WRITEMAX` bytes, and the pieces of a call, in order, are its data up to what is
    left of it; while the lock is free, `f->off` is behind the last byte written. If all
    calls together fit into a file, no write fails, and once they have returned all
    their bytes are there. -/
theorem shared_offset (C : Config) (i : Nat) {s₀ s : Shared P}
    (h : Reachable (sharedSystem C i s₀) s) :
    (∀ p q, (s.pc p).inside = true → (s.pc q).inside = true → p = q) ∧
    fileBytes s.kern.disk s.copy s₀.off s.total.length = s.total ∧
    (∀ o, o < s₀.copy.size.toNat → ¬ InRange s₀.off s.total.length o →
      fileByte s.kern.disk s.copy o = fileByte s₀.kern.disk s₀.copy o) ∧
    (∀ x ∈ s.chunks, x.2 ≠ [] ∧ x.2.length ≤ WRITEMAX) ∧
    (∀ c, c < s.data.length → s.data.getD c [] = s.pieces c ++ s.left c) ∧
    (s.lock = none → s.off = s₀.off + s.total.length) ∧
    (s₀.off + s.asked ≤ MAXFILE * BSIZE → s.failed = [] ∧
      ((∀ p, s.pc p = .idle) → s.off = s₀.off + s.asked ∧
        ∀ c, c < s.data.length → s.pieces c = s.data.getD c [])) := by
  have hinv := sharedInv_reachable h
  have hsize := hinv.file.size
  refine ⟨fun p q hp hq => ?_, hinv.file.region, fun o ho hout => ?_, hinv.calls.size,
    hinv.calls.split, fun hfree => ?_, fun hfit => ?_⟩
  · have hlp := (hinv.lock p).mpr hp
    rw [(hinv.lock q).mpr hq] at hlp
    exact (Option.some.inj hlp).symm
  · rw [hinv.file.bytes o (by omega), if_neg hout]
  · have hoff := hinv.file.off
    unfold Shared.pending at hoff
    rw [hfree] at hoff
    exact hoff
  · have hnone : s.failed = [] := by
      by_contra hne
      exact Nat.not_lt.mpr hfit (hinv.calls.failed hne)
    refine ⟨hnone, fun hidle => ?_⟩
    -- every call has returned, and none has failed
    have hleft : ∀ c, c < s.data.length → s.left c = [] := by
      intro c hc
      have hdone := hinv.calls.done c hc fun p hp => by rw [hidle p] at hp; cases hp
      rw [hnone] at hdone
      exact hdone.resolve_left List.not_mem_nil
    have hmissing : s.missing = 0 := by
      refine Finset.sum_eq_zero fun c hc => ?_
      rw [hleft c (Finset.mem_range.mp hc)]
      rfl
    have hfree : s.lock = none := by
      cases hl : s.lock with
      | none => rfl
      | some p =>
        have hin := (hinv.lock p).mp hl
        rw [hidle p] at hin
        cases hin
    have hpend : s.pending = 0 := by
      unfold Shared.pending
      rw [hfree]
    have hoff := hinv.file.off
    have hsum := hinv.calls.sum
    refine ⟨by omega, fun c hc => ?_⟩
    rw [hinv.calls.split c hc, hleft c hc, List.append_nil]

/-! ### Two processes -/

/-- The small disk after `/a` has been created; its inode has number 2. -/
def createdState : FsState :=
  match (createA.body smallConfig).run (bootState smallImage) with
  | .ok (_, t) => t
  | .error _ => bootState smallImage

theorem createdState_sound : Sound smallLayout createdState.kern.disk := by
  unfold createdState
  cases hrun : (createA.body smallConfig).run (bootState smallImage) with
  | error e => exact smallImage_sound
  | ok r =>
    have hreach : Reachable (fsCalls smallConfig smallImage) (r.2, .ret ()) :=
      Reachable.calls_call createA (.init ⟨bootState_booted smallImage, rfl⟩) Nat.zero_lt_one hrun
    exact (fsCalls_inv smallImage_sound (by decide) hreach).sound

/-- The new file is open. -/
def openedA : Shared Bool where
  kern := createdState.kern
  copy := dinode smallLayout createdState.kern.disk 2
  off := 0
  lock := none
  pc := fun _ => .idle
  data := []
  left := fun _ => []
  chunks := []
  failed := []

theorem openedA_openFile : OpenFile smallLayout 2 openedA where
  inode_lt := by decide
  own := createdState_sound.own
  stored := rfl
  type := by decide +kernel
  noHoles := createdState_sound.noHoles 2 (by decide) (by decide +kernel)
  off_le := Nat.zero_le _
  lock := rfl
  idle := fun _ => rfl
  history := ⟨rfl, rfl, rfl⟩

/-- One process writes two bytes and the other one, and both calls have been made before
    the first write. -/
def twoWriters : List (SharedLabel Bool) :=
  [.call true [1, 2], .call false [3], .lock true, .write true, .advance true, .unlock true,
    .lock false, .write false, .advance false, .unlock false, .ret true, .ret false]

theorem shared_offset_two_writers : ∃ s : Shared Bool,
    Reachable (sharedSystem smallConfig 2 openedA) s ∧ s.off = 3 ∧ s.total = [1, 2, 3] ∧
    fileBytes s.kern.disk s.copy 0 3 = [1, 2, 3] := by
  have hrun : (twoWriters.foldlM (nextShared smallConfig 2) openedA).any
      (fun s => decide (s.off = 3 ∧ s.total = [1, 2, 3])) = true := by decide +kernel
  obtain ⟨s, hsome, hdec⟩ := (Option.any_eq_true _ _).mp hrun
  obtain ⟨hoff, htotal⟩ := of_decide_eq_true hdec
  have hnext : ∀ (t : Shared Bool) l t', nextShared smallConfig 2 t l = some t' →
      (sharedSystem smallConfig 2 openedA).step t l t' := by
    intro t l t' h
    cases l with
    | other kern copy => cases h
    | call p src => exact h
    | lock p => exact h
    | write p => exact h
    | advance p => exact h
    | unlock p => exact h
    | ret p => exact h
  have hreach := Reachable.foldlM hnext twoWriters (.init ⟨rfl, openedA_openFile⟩) hsome
  have hregion := (shared_offset smallConfig 2 hreach).2.1
  rw [htotal] at hregion
  exact ⟨s, hreach, hoff, htotal, hregion⟩

end Xv6.Disk
