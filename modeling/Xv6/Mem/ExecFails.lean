import Xv6.Mem.ElfFile

/-! # A Failed `exec` Leaves Nothing Behind

    The whole of `exec`, with the inode it holds and the file system call it
    is in: it begins with `begin_op` and `namei`, releases the inode and ends
    the call when the program is loaded, and commits at the end. All failures
    go to one label, where `pgdir` and `ip` say what there is to give back.

    `exec_failed`: whatever the file, the arguments and the free list are, a
    call that returns `-1` leaves the caller as it was, and every page, inode
    reference, lock and file system call that it took is given back.
-/

namespace Xv6.Vm

open Ownership
open Process (Table PIdx)

/-- What `exec` asks the file system for. Inodes are numbered. -/
structure Files where
  namei : List Byte → Option Nat
  content : Nat → List Byte

/-- The part of the kernel's state that `exec` works on. The process table has
    the directory, the size and the trap frame of each process. -/
structure ExecState where
  mem : Mem
  table : Table
  name : PIdx → List Byte
  ofile : PIdx → Nat → Option Nat
  cwd : PIdx → Nat
  /-- references to inodes -/
  ref : Nat → Nat
  /-- how often the caller has locked an inode and not unlocked it -/
  held : Nat → Nat
  /-- how many file system calls the caller has begun and not ended -/
  ops : Nat

namespace ExecState

def begin_op (s : ExecState) : ExecState := { s with ops := s.ops + 1 }

def end_op (s : ExecState) : ExecState := { s with ops := s.ops - 1 }

/-- The reference that `namei` returns. -/
def iget (s : ExecState) (ip : Nat) : ExecState :=
  { s with ref := Function.update s.ref ip (s.ref ip + 1) }

def ilock (s : ExecState) (ip : Nat) : ExecState :=
  { s with held := Function.update s.held ip (s.held ip + 1) }

def iunlockput (s : ExecState) (ip : Nat) : ExecState :=
  { s with
    held := Function.update s.held ip (s.held ip - 1)
    ref := Function.update s.ref ip (s.ref ip - 1) }

/-- `if(pgdir) freevm(pgdir)`. -/
def freeNew (L : Layout) (m : Mem) : (pgdir : Option Page) → Except Panic Mem
  | none => .ok m
  | some d => m.freevm L d

/-- `if(ip){ iunlockput(ip); end_op(); }`. -/
def release (s : ExecState) : (ip : Option Nat) → ExecState
  | none => s
  | some ip => (s.iunlockput ip).end_op

/-- `bad:`. The result is `-1`. -/
def bad (L : Layout) (s : ExecState) (pgdir : Option Page) (ip : Option Nat) :
    Except Panic (Bool × ExecState) :=
  (freeNew L s.mem pgdir).map (fun m => (false, { s with mem := m }.release ip))

/-- What is after the last slash of the path, cut to 15 characters. -/
def execName (path : List Byte) : List Byte :=
  ((path.reverse.takeWhile (· ≠ 0x2F)).reverse).take 15

/-- `exec` from "Save program name for debugging". -/
def commit (L : Layout) (s : ExecState) (c : PIdx) (path : List Byte) (img : ExecImage) :
    Except Panic (Bool × ExecState) :=
  match s.table.execCommit c img with
  | .error e => .error e
  | .ok t =>
    match (s.table.proc c).pgdir with
    | none => .error .freevmNoPgdir
    | some old => (s.mem.freevm L old).map (fun m =>
        (true, { s with mem := m, table := t, name := Function.update s.name c (execName path) }))

/-- `exec`, called by process `c`. -/
def exec (L : Layout) (files : Files) (s : ExecState) (c : PIdx) (path : List Byte)
    (argv : List (List Byte)) : Except Panic (Bool × ExecState) :=
  let s := s.begin_op
  match files.namei path with
  | none => .ok (false, s.end_op)
  | some ip =>
    let s := (s.iget ip).ilock ip
    let f := elfFile (files.content ip)
    if !f.elf then s.bad L none (some ip)
    else
      match s.mem.setupkvm L with
      | .error e => .error e
      | .ok (none, m) => { s with mem := m }.bad L none (some ip)
      | .ok (some pgdir, m) =>
        match m.loadAll L pgdir f.phdrs 0 with
        | .error e => .error e
        | .ok (none, m) => { s with mem := m }.bad L (some pgdir) (some ip)
        | .ok (some sz, m) =>
          let s := ({ s with mem := m }.iunlockput ip).end_op
          match m.growStack L pgdir sz with
          | .error e => .error e
          | .ok (none, m) => { s with mem := m }.bad L (some pgdir) none
          | .ok (some sz, m) =>
            match m.pushArgs pgdir sz argv with
            | .error e => .error e
            | .ok (none, m) => { s with mem := m }.bad L (some pgdir) none
            | .ok (some esp, m) =>
              { s with mem := m }.commit L c path ⟨pgdir, sz, f.entry, esp⟩

end ExecState

/-! ### The arguments go to the new address space -/

namespace Mem

variable {E : Type} [DecidableEq E] {S : Set Page} {m m' : Mem} {he : E → Option Page}
  {loose : List Page} {L : Layout} {d : Page} {D : PageDir}

omit [DecidableEq E]

/-- `copyout` writes to user pages of its directory. -/
theorem copyout_fills {va : Word} {p : List Byte} {b : Bool} (h : Ok S m he loose)
    (hd : m.dirs d = some D) (hk : KernelHalf D) (hc : m.copyout d va p = .ok (b, m')) :
    Fills S he loose d m m' ∧ m'.dirs d = some D := by
  have hstores : ∀ q, (∀ i, i < q.length → UserByte D va.toNat i) →
      Fills S he loose d m (m.storeBytes d va.toNat q) ∧
        (m.storeBytes d va.toNat q).dirs d = some D := by
    intro q huser
    have hst := stores_storeBytes hd va.toNat q
    refine ⟨fills_of_write h hd hst.map (fun x hx => ?_), by rw [hst.map.1]; exact hd⟩
    funext j
    have hbyte := hst.kept x j.val (fun i e hi hp hxe => by
      obtain ⟨e', hp', hu⟩ := huser i hi
      obtain rfl := Option.some.inj (hp.symm.trans hp')
      refine absurd hxe.symm (hx (pageAt va.toNat i) e (Nat.lt_of_not_le fun hge => ?_) hp)
      rw [hk.user _ e hge hp] at hu
      cases hu)
    simpa [Bytes.Buf.get] using hbyte
  obtain ⟨k, hk', huser, ⟨rfl, hc'⟩ | ⟨hlt, _, hc'⟩ | ⟨_, _, hc'⟩⟩ := copyout_spec m d va p hd
  · rw [hc] at hc'
    obtain ⟨_, rfl⟩ := Prod.mk.inj (Except.ok.inj hc')
    exact hstores p huser
  · rw [hc] at hc'
    obtain ⟨_, rfl⟩ := Prod.mk.inj (Except.ok.inj hc')
    refine hstores (p.take k) (fun i hi => huser i ?_)
    rw [List.length_take_of_le hk'] at hi
    exact hi
  · rw [hc] at hc'
    cases hc'

theorem pushStrings_fills (hk : KernelHalf D) (argv : List (List Byte)) : ∀ {m : Mem} {argc : Nat}
    {sp : Word} {ustack : List Word} {r : Option (Word × List Word)}, Ok S m he loose →
    m.dirs d = some D → m.pushStrings d argv argc sp ustack = .ok (r, m') →
    Fills S he loose d m m' ∧ m'.dirs d = some D := by
  induction argv with
  | nil =>
    intro m argc sp ustack r h hd hp
    obtain ⟨_, rfl⟩ := Prod.mk.inj (Except.ok.inj hp)
    exact ⟨.refl h hd, hd⟩
  | cons s argv ih =>
    intro m argc sp ustack r h hd hp
    rw [pushStrings] at hp
    split at hp
    · obtain ⟨_, rfl⟩ := Prod.mk.inj (Except.ok.inj hp)
      exact ⟨.refl h hd, hd⟩
    rcases hc : m.copyout d (pushed sp s) (s ++ [0]) with e | ⟨b, m₁⟩
    · rw [hc] at hp
      cases hp
    obtain ⟨hfill, hd₁⟩ := copyout_fills h hd hk hc
    rw [hc] at hp
    cases b with
    | false =>
      obtain ⟨_, rfl⟩ := Prod.mk.inj (Except.ok.inj hp)
      exact ⟨hfill, hd₁⟩
    | true =>
      obtain ⟨hrest, hd'⟩ := ih hfill.ok hd₁ hp
      exact ⟨hfill.trans hrest, hd'⟩

theorem pushArgs_fills {sz : Nat} {argv : List (List Byte)} {r : Option Word} (h : Ok S m he loose)
    (hd : m.dirs d = some D) (hk : KernelHalf D) (hp : m.pushArgs d sz argv = .ok (r, m')) :
    Fills S he loose d m m' := by
  unfold pushArgs at hp
  rcases hs : m.pushStrings d argv 0 (BitVec.ofNat 32 sz) [] with e | ⟨r₁, m₁⟩
  · rw [hs] at hp
    cases hp
  obtain ⟨hfill, hd₁⟩ := pushStrings_fills hk argv h hd hs
  rw [hs] at hp
  cases r₁ with
  | none =>
    obtain ⟨_, rfl⟩ := Prod.mk.inj (Except.ok.inj hp)
    exact hfill
  | some q =>
    dsimp only at hp
    split at hp
    · cases hp
    · next hc =>
      obtain ⟨_, rfl⟩ := Prod.mk.inj (Except.ok.inj hp)
      exact hfill.trans (copyout_fills hfill.ok hd₁ hk hc).1
    · next hc =>
      obtain ⟨_, rfl⟩ := Prod.mk.inj (Except.ok.inj hp)
      exact hfill.trans (copyout_fills hfill.ok hd₁ hk hc).1

end Mem

/-! ### Failure -/

namespace ExecState

variable {E : Type} [DecidableEq E] {S : Set Page} {he : E → Option Page} {loose : List Page}
  {L : Layout} {s s' : ExecState}

/-- Nothing has changed: the process table, names, descriptors and current
    directories, all address spaces and what is in their pages, the free pages
    (in some order), the references and locks of inodes, and the file system
    calls that are open. -/
structure Intact (s s' : ExecState) : Prop where
  table : s'.table = s.table
  name : s'.name = s.name
  ofile : s'.ofile = s.ofile
  cwd : s'.cwd = s.cwd
  dirs : s'.mem.dirs = s.mem.dirs
  pages : ∀ o p, s.mem.page o = some p → s'.mem.contents p = s.mem.contents p
  free : s'.mem.free.Perm s.mem.free
  ref : s'.ref = s.ref
  held : s'.held = s.held
  ops : s'.ops = s.ops

omit [DecidableEq E] in
theorem intact_of_unbuilt {m : Mem} (h : Mem.Ok S s.mem he loose)
    (hun : Mem.Unbuilt S he loose s.mem m) : Intact s { s with mem := m } :=
  ⟨rfl, rfl, rfl, rfl, hun.dirs, fun o p ho => (hun.keeps o p trivial ho).2, hun.free_perm h,
    rfl, rfl, rfl⟩

/-- What was taken before the program was loaded is given back at the end. -/
theorem iunlockput_ilock (m : Mem) (ip : Nat) :
    ({ ((s.begin_op.iget ip).ilock ip) with mem := m }.iunlockput ip).end_op = { s with mem := m } := by
  simp [begin_op, end_op, iget, ilock, iunlockput]

omit [DecidableEq E] in
/-- The label `bad`. -/
theorem bad_intact (m : Mem) (pgdir : Option Page) {ip : Option Nat} {s₁ : ExecState} {b : Bool}
    (h : Mem.Ok S s.mem he loose)
    (hun : Mem.Ends (freeNew L m pgdir) (Mem.Fails L S) (Mem.Unbuilt S he loose s.mem))
    (hgive : ∀ m, { s₁ with mem := m }.release ip = { s with mem := m })
    (hbad : { s₁ with mem := m }.bad L pgdir ip = .ok (b, s')) : Intact s s' := by
  unfold bad at hbad
  dsimp only at hbad
  rcases hf : freeNew L m pgdir with e | m'
  · rw [hf] at hbad
    cases hbad
  rw [hf] at hbad hun
  obtain ⟨_, rfl⟩ := Prod.mk.inj (Except.ok.inj hbad)
  rw [hgive]
  exact intact_of_unbuilt h hun

/-- **A failed `exec`** leaves the caller and everything else as it was, for
    every path, argument vector, file and free list. -/
theorem exec_failed {files : Files} {c : PIdx} {path : List Byte} {argv : List (List Byte)}
    (h : Mem.Ok S s.mem he loose) (hrun : s.exec L files c path argv = .ok (false, s')) :
    Intact s s' := by
  have hself : Mem.Unbuilt S he loose s.mem s.mem := ⟨h, rfl, .refl _ _⟩
  unfold exec at hrun
  dsimp only at hrun
  cases hn : files.namei path with
  | none =>
    rw [hn] at hrun
    obtain ⟨_, rfl⟩ := Prod.mk.inj (Except.ok.inj hrun)
    exact intact_of_unbuilt h hself
  | some ip =>
    simp only [hn] at hrun
    -- with the inode in hand, and after it has been released
    have hheld : ∀ m, { ((s.begin_op.iget ip).ilock ip) with mem := m }.release (some ip) =
        { s with mem := m } := fun m => iunlockput_ilock m ip
    have hdone : ∀ m m', { ((({ ((s.begin_op.iget ip).ilock ip) with mem := m }).iunlockput ip).end_op)
        with mem := m' }.release none = { s with mem := m' } := fun m m' => by
      rw [iunlockput_ilock]
      rfl
    split at hrun
    · exact bad_intact s.mem none h hself hheld hrun
    have hmem : ((s.begin_op.iget ip).ilock ip).mem = s.mem := rfl
    rw [hmem] at hrun
    have hsetup := Mem.setupkvm_spec (L := L) h
    rcases hs : s.mem.setupkvm L with e | ⟨r, m₁⟩
    · rw [hs] at hrun
      cases hrun
    rw [hs] at hrun hsetup
    obtain ⟨d, D₁, rfl, hb, hk⟩ | ⟨rfl, _, hun⟩ := hsetup
    swap
    · exact bad_intact m₁ none h hun hheld hrun
    have hb₁ : Mem.Fills S he loose d s.mem m₁ := ⟨hb.ok, ⟨D₁, hb.dir⟩, hb.same, hb.keeps.of_all⟩
    dsimp only at hrun
    have hload := Mem.loadAll_spec (L := L) (elfFile (files.content ip)).phdrs hb.ok
      (Mem.program_empty hb.dir hk)
    rcases hla : m₁.loadAll L d (elfFile (files.content ip)).phdrs 0 with e | ⟨r, m₂⟩
    · rw [hla] at hrun
      cases hrun
    rw [hla] at hrun hload
    obtain ⟨hfill₂, hprog⟩ := hload
    have hb₂ := hb₁.trans hfill₂
    cases r with
    | none => exact bad_intact m₂ (some d) h (hb₂.freevm hb.absent) hheld hrun
    | some sz =>
      obtain ⟨_, _, D₂, hp₂⟩ := hprog sz rfl
      dsimp only at hrun
      rcases hg : m₂.growStack L d sz with e | ⟨r, m₃⟩
      · rw [hg] at hrun
        cases hrun
      rw [hg] at hrun
      obtain ⟨hfill₃, hgrown⟩ := Mem.growStack_spec hb₂.ok hp₂ hg
      have hb₃ := hb₂.trans hfill₃
      cases r with
      | none => exact bad_intact m₃ (some d) h (hb₃.freevm hb.absent) (hdone m₂) hrun
      | some sz =>
        obtain ⟨_, D₃, hl, _⟩ := hgrown sz rfl
        dsimp only at hrun
        rcases hpush : m₃.pushArgs d sz argv with e | ⟨r, m₄⟩
        · rw [hpush] at hrun
          cases hrun
        rw [hpush] at hrun
        have hb₄ := hb₃.trans (Mem.pushArgs_fills hb₃.ok hl.dir hl.kernel hpush)
        cases r with
        | none => exact bad_intact m₄ (some d) h (hb₄.freevm hb.absent) (hdone m₂) hrun
        | some esp =>
          -- the commit does not fail
          unfold commit at hrun
          dsimp only at hrun
          split at hrun
          · cases hrun
          split at hrun
          · cases hrun
          · rcases hf : m₄.freevm L _ with e | m₅
            · rw [hf] at hrun
              cases hrun
            · rw [hf] at hrun
              cases hrun

end ExecState

/-- `exec` of an empty file. -/
theorem ExecState.exec_failed_empty :
    ∃ s s' : ExecState, s.exec Mem.exampleLayout ⟨fun _ => some 7, fun _ => []⟩ 0 [] [] = .ok (false, s') ∧
      Intact s s' := by
  have hrun : ExecState.exec Mem.exampleLayout ⟨fun _ => some 7, fun _ => []⟩
      ⟨⟨[], fun _ => none, fun _ _ => 0⟩, Table.boot, fun _ => [], fun _ _ => none, fun _ => 1,
        fun _ => 0, fun _ => 0, 0⟩ 0 [] [] = .ok (false, _) := rfl
  exact ⟨_, _, hrun, exec_failed (Mem.ok_initial (fun _ => rfl) List.nodup_nil) hrun⟩

end Xv6.Vm
