import Xv6.Mem.Conserve
import Xv6.Mem.Args
import Xv6.Proc.System

/-! # A Failed `fork` or `clone` Leaves Nothing Behind

    `fork` and `clone` take an entry of the process table and a kernel stack;
    `fork` then copies the address space of its caller. It can fail when there
    is no entry, no page for the stack, or no page at some point of
    `copyuvm`, and each time gives back what it has. `clone` shares the
    address space, and fails only in `allocproc`.

    `fork_failed`: a call that returns `-1` leaves the state of every entry,
    the queues, the references to files and inodes and every address space as
    they were, and the same pages free. What `allocproc` writes to the new
    stack is left out: `kfree` overwrites it.
-/

namespace Xv6.Vm

open Ownership LTS
open Process (Table PIdx CloneArgs)

/-- The part of the kernel's state that `fork` and `clone` work on. Files and
    inodes are numbered. -/
structure ForkState where
  mem : Mem
  table : Table
  name : PIdx → List Byte
  ofile : PIdx → Fin NOFILE → Option Nat
  cwd : PIdx → Nat
  /-- `f->ref` -/
  fileRef : Nat → Nat
  /-- `ip->ref` -/
  inodeRef : Nat → Nat

namespace ForkState

def filedup (k : ForkState) (f : Nat) : ForkState :=
  { k with fileRef := Function.update k.fileRef f (k.fileRef f + 1) }

def idup (k : ForkState) (ip : Nat) : ForkState :=
  { k with inodeRef := Function.update k.inodeRef ip (k.inodeRef ip + 1) }

def allocproc (k : ForkState) : Option PIdx × ForkState :=
  match k.table.findUnused with
  | none => (none, k)
  | some p =>
    let t := k.table.takeEntry p
    match k.mem.kalloc with
    | (none, m) => (none, { k with mem := m, table := t.initEntry p none })
    | (some kstack, m) => (some p, { k with mem := m, table := t.initEntry p (some kstack) })

/-- `if(curproc->ofile[i]) np->ofile[i] = filedup(curproc->ofile[i]);`. An
    entry of `np` is not cleared. -/
def dupFile (c np : PIdx) (k : ForkState) (i : Fin NOFILE) : ForkState :=
  match k.ofile c i with
  | none => k
  | some f =>
    let k := k.filedup f
    { k with ofile := Function.update k.ofile np (Function.update (k.ofile np) i (some f)) }

/-- The end of `fork` and of `clone`, from the loop over the open files. -/
def finish (k : ForkState) (c np : PIdx) : Int × ForkState :=
  let k := (List.finRange NOFILE).foldl (dupFile c np) k
  let k := k.idup (k.cwd c)
  let k := { k with
    cwd := Function.update k.cwd np (k.cwd c)
    name := Function.update k.name np (k.name c) }
  ((k.table.proc np).pid, { k with table := k.table.publish np })

/-- `fork`, called by process `c`. -/
def fork (L : Layout) (k : ForkState) (c : PIdx) : Except Panic (Int × ForkState) :=
  match k.allocproc with
  | (none, k) => .ok (-1, k)
  | (some np, k) =>
    match (k.table.proc c).pgdir with
    | none => .error .wild
    | some pgdir =>
      match k.mem.copyuvm L pgdir (k.table.proc c).sz with
      | .error e => .error e
      | .ok (none, m) =>
        match (k.table.proc np).kstack with
        | none => .error .kfree
        | some kstack => (m.kfree L kstack).map (fun m =>
            (-1, { k with mem := m, table := k.table.forkFill c np none }))
      | .ok (some d, m) =>
        .ok (finish { k with mem := m, table := k.table.forkFill c np (some d) } c np)

/-- The two words `clone` stores at the top of the new stack. -/
def pushThread (m : Mem) (d : Page) (args : CloneArgs) : Mem :=
  let m := m.storeBytes d (args.stack + PGSIZE - 4).toNat (Mem.wordBytes args.arg)
  m.storeBytes d (args.stack + PGSIZE - 8).toNat (Mem.wordBytes 0xFFFFFFFF)

/-- `clone`, called by process `c`. -/
def clone (k : ForkState) (c : PIdx) (args : CloneArgs) : Except Panic (Int × ForkState) :=
  match k.allocproc with
  | (none, k) => .ok (-1, k)
  | (some np, k) =>
    match (k.table.proc c).pgdir with
    | none => .error .wild
    | some pgdir =>
      .ok (finish { k with
        mem := pushThread k.mem pgdir args
        table := k.table.cloneFill c np args } c np)

end ForkState

/-! ### `copyuvm` gives everything back -/

namespace Mem

variable {E : Type} [DecidableEq E] {S : Set Page} {m m' : Mem} {he : E → Option Page}
  {loose : List Page} {L : Layout}

/-- A `copyuvm` that returns 0 has changed nothing, whatever `pgdir` is. -/
theorem copyuvm_failed {pgdir : Page} {sz : Nat} (h : Ok S m he loose) (hsz : sz ≤ KERNBASE)
    (hc : m.copyuvm L pgdir sz = .ok (none, m')) : Unbuilt S he loose m m' := by
  cases hpg : m.dirs pgdir with
  | some Dp =>
    obtain ⟨d, _, _, _, hr, _⟩ | ⟨_, _, hun⟩ := (copyuvm_spec h hpg hsz).of_ok hc
    · cases hr
    · exact hun
  | none =>
    -- the loop does not get past its first page
    have hsetup := setupkvm_spec (L := L) h
    unfold copyuvm at hc
    rcases hs : m.setupkvm L with e | ⟨r, m₁⟩
    · rw [hs] at hc
      cases hc
    rw [hs] at hc hsetup
    obtain ⟨d, D, rfl, hb, hk⟩ | ⟨rfl, _, hun⟩ := hsetup
    · dsimp only at hc
      cases hn : pgroundup sz with
      | zero =>
        rw [hn] at hc
        cases hc
      | succ n =>
        rw [hn, copyLoop] at hc
        by_cases hd : pgdir = d
        · have hnone : D.pte 0 = none := hk.outside 0 (fun hcov => by
            obtain ⟨k, hk', h1, _⟩ := hcov
            have := (kmap_kernel hk').1
            have := pgroundup_le hsz
            omega)
          rw [hd, hb.dir] at hc
          dsimp only at hc
          rw [hnone] at hc
          cases ht : D.ptab (PDX 0) <;> rw [ht] at hc <;> cases hc
        · rw [hb.same pgdir hd, hpg] at hc
          cases hc
    · obtain ⟨_, rfl⟩ := Prod.mk.inj (Except.ok.inj hc)
      exact hun

end Mem

/-! ### Failure -/

namespace ForkState

variable {E : Type} {S : Set Page} {he : E → Option Page} {loose : List Page} {L : Layout}
  {F out : List Page} {k k' : ForkState} {c : PIdx}

/-- Nothing to be seen of a call by `c`. -/
structure NoTrace (k k' : ForkState) (c : PIdx) : Prop where
  state : ∀ p, (k'.table.proc p).state = (k.table.proc p).state
  queue : k'.table.queue = k.table.queue
  fileRef : k'.fileRef = k.fileRef
  inodeRef : k'.inodeRef = k.inodeRef
  ofile : k'.ofile = k.ofile
  cwd : k'.cwd = k.cwd
  /-- The caller has the directory and the size it had. -/
  caller : (k.table.proc c).state ≠ .UNUSED → k'.table.proc c = k.table.proc c
  /-- All address spaces are as they were. -/
  dirs : k'.mem.dirs = k.mem.dirs
  pages : ∀ o p, k.mem.page o = some p → k'.mem.contents p = k.mem.contents p
  free : k'.mem.free.Perm k.mem.free

/-- An unused entry was taken and given back. -/
theorem noTrace_of_unbuilt (np : PIdx) {m : Mem} {t : Table} (h : Mem.Ok S k.mem he loose)
    (hun : Mem.Unbuilt S he loose k.mem m) (hnp : (k.table.proc np).state = .UNUSED)
    (hs : (t.proc np).state = .UNUSED) (ht : ∀ p, p ≠ np → t.proc p = k.table.proc p)
    (hq : t.queue = k.table.queue) : NoTrace k { k with mem := m, table := t } c where
  state := fun p => by
    by_cases hp : p = np
    · rw [hp, hnp]
      exact hs
    · exact congrArg _ (ht p hp)
  queue := hq
  fileRef := rfl
  inodeRef := rfl
  ofile := rfl
  cwd := rfl
  caller := fun hc => ht c (fun hp => hc (hp ▸ hnp))
  dirs := hun.dirs
  pages := fun o p ho => (hun.keeps o p trivial ho).2
  free := hun.free_perm h

theorem NoTrace.refl : NoTrace k k c :=
  ⟨fun _ => rfl, rfl, rfl, rfl, rfl, rfl, fun _ => rfl, rfl, fun _ _ _ => rfl, .refl _⟩

/-- `allocproc` fails without a trace, or has taken an unused entry and the
    first free page. -/
theorem allocproc_cases (h : Mem.Ok S k.mem he loose) {r : Option PIdx}
    (ha : k.allocproc = (r, k')) :
    (r = none ∧ NoTrace k k' c) ∨
    ∃ np x ps, r = some np ∧ (k.table.proc np).state = .UNUSED ∧ k.mem.free = x :: ps ∧
      k' = { k with
        mem := { k.mem with free := ps }
        table := (k.table.takeEntry np).initEntry np (some x) } := by
  unfold allocproc at ha
  cases hu : k.table.findUnused with
  | none =>
    rw [hu] at ha
    obtain ⟨rfl, rfl⟩ := Prod.mk.inj ha
    exact Or.inl ⟨rfl, .refl⟩
  | some np =>
    have hnp : (k.table.proc np).state = .UNUSED := by simpa using List.find?_some hu
    rw [hu] at ha
    cases hf : k.mem.free with
    | nil =>
      rw [Mem.kalloc_of_nil hf] at ha
      obtain ⟨rfl, rfl⟩ := Prod.mk.inj ha
      refine Or.inl ⟨rfl, noTrace_of_unbuilt np h ⟨h, rfl, .refl _ _⟩ hnp ?_ (fun p hp => ?_) rfl⟩
      · simp [Table.initEntry, Table.modify]
      · simp [Table.initEntry, Table.takeEntry, Table.modify, hp]
    | cons x ps =>
      rw [Mem.kalloc_of_free hf] at ha
      obtain ⟨rfl, rfl⟩ := Prod.mk.inj ha
      exact Or.inr ⟨np, x, ps, rfl, hnp, rfl, rfl⟩

/-- A call that comes to its end returns the new process' pid. -/
theorem finish_ne (np : PIdx) : k.finish c np ≠ (-1, k') := by
  intro h
  have hpid : ((k.finish c np).1 : Int) = -1 := congrArg Prod.fst h
  unfold finish at hpid
  dsimp only at hpid
  omega

theorem clone_noTrace {args : CloneArgs} (h : Mem.Ok S k.mem he loose)
    (hrun : k.clone c args = .ok (-1, k')) : NoTrace k k' c := by
  unfold clone at hrun
  rcases ha : k.allocproc with ⟨r, k₁⟩
  rw [ha] at hrun
  obtain ⟨rfl, hno⟩ | ⟨np, _, _, rfl, _⟩ := allocproc_cases (c := c) h ha
  · obtain ⟨_, rfl⟩ := Prod.mk.inj (Except.ok.inj hrun)
    exact hno
  · dsimp only at hrun
    split at hrun
    · cases hrun
    · exact absurd (Except.ok.inj hrun) (finish_ne np)

variable [DecidableEq E]

theorem fork_noTrace (h : Mem.Ok S k.mem he loose) (hsz : (k.table.proc c).sz ≤ KERNBASE)
    (hrun : k.fork L c = .ok (-1, k')) : NoTrace k k' c := by
  unfold fork at hrun
  rcases ha : k.allocproc with ⟨r, k₁⟩
  rw [ha] at hrun
  obtain ⟨rfl, hno⟩ | ⟨np, x, ps, rfl, hnp, hf, rfl⟩ := allocproc_cases (c := c) h ha
  · obtain ⟨_, rfl⟩ := Prod.mk.inj (Except.ok.inj hrun)
    exact hno
  have hok : Mem.Ok S { k.mem with free := ps } he (x :: loose) := by
    have htaken := h.taken hf (k.mem.contents x)
    rwa [Mem.taken, Function.update_eq_self] at htaken
  have hsz₁ : (((k.table.takeEntry np).initEntry np (some x)).proc c).sz ≤ KERNBASE := by
    by_cases hp : c = np
    · subst hp
      simpa [Table.initEntry, Table.takeEntry, Table.modify] using hsz
    · simpa [Table.initEntry, Table.takeEntry, Table.modify, hp] using hsz
  dsimp only at hrun
  split at hrun
  · cases hrun
  · next pgdir _ =>
    rcases hc : Mem.copyuvm L _ pgdir _ with e | ⟨r, m₁⟩
    · rw [hc] at hrun
      cases hrun
    rw [hc] at hrun
    cases r with
    | some d => exact absurd (Except.ok.inj hrun) (finish_ne np)
    | none =>
      have hun := Mem.copyuvm_failed hok hsz₁ hc
      dsimp only at hrun
      split at hrun
      · cases hrun
      · next kstack hks =>
        -- the stack is the page that `allocproc` took
        obtain rfl : x = kstack := by
          simpa [Table.initEntry, Table.takeEntry, Table.modify] using hks
        rcases hkf : m₁.kfree L x with e | m₂
        · rw [hkf] at hrun
          cases hrun
        rw [hkf] at hrun
        obtain ⟨_, rfl⟩ := Prod.mk.inj (Except.ok.inj hrun)
        obtain ⟨hok₂, hdirs, _, hkeep⟩ := hun.ok.kfree hkf
        have hstart : Mem.Keeps Mem.All k.mem { k.mem with free := ps } :=
          fun o p _ ho => ⟨ho, rfl⟩
        refine noTrace_of_unbuilt np h
          ⟨hok₂, hdirs.trans hun.dirs, (hstart.trans hun.keeps).trans hkeep⟩ hnp ?_ (fun p hp => ?_) ?_
        · simp [Table.forkFill, Table.modify]
        · simp [Table.forkFill, Table.initEntry, Table.takeEntry, Table.modify, hp]
        · simp [Table.forkFill, Table.initEntry, Table.takeEntry, Table.modify]

end ForkState

end Xv6.Vm
