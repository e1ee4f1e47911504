import Xv6.Icache
import Mathlib.Algebra.BigOperators.Fin

/-! # Open Files

    `filealloc`, `filedup` and `fileclose` of `file.c`, the calls that use
    them (`sys_dup`, `sys_close`, `sys_open`, `sys_pipe`, `fork`, `clone`,
    `exec`, `exit`), and `pipealloc` and `pipeclose` of `pipe.c`. A step is a
    critical section of `ftable.lock` or of a pipe's lock, a call of `kalloc`,
    `kfree` or `iput`, or a change of a process's own `ofile`.

    `open` obtains a reference to an inode, and `pipealloc` a page. Both are
    numbered, so that a reference or a page is told from a later one to the
    same inode or at the same address; the numbers are not in the code.
    `issued` and `spent` record what was handed out and what was given back.
-/

open LTS Function

namespace Xv6.Ftable

abbrev FIdx : Type := Fin NFILE

/-- A file descriptor. -/
abbrev FD : Type := Fin NOFILE

/-! ### State -/

/-- A `struct inode *` with a reference. -/
structure IRef where
  ip : Icache.NIdx
  serial : Nat
  deriving DecidableEq

/-- A `struct pipe *`. -/
structure PRef where
  page : Page
  serial : Nat
  deriving DecidableEq

inductive FdType where
  | FD_NONE | FD_PIPE | FD_INODE
  deriving DecidableEq

/-- `struct file`, without its offset. -/
structure File where
  type : FdType
  ref : Nat
  readable : Bool
  writable : Bool
  pipe : PRef
  ip : IRef
  deriving DecidableEq

/-- `struct pipe`, without its buffer. -/
structure Pipe where
  serial : Nat
  readopen : Bool
  writeopen : Bool
  deriving DecidableEq

/-- The end is open that `pipeclose(p, writable)` closes. -/
def Pipe.isOpen (P : Pipe) (writable : Bool) : Bool :=
  if writable then P.writeopen else P.readopen

/-- What is handed out: a reference to an inode, an end of a pipe, and the page
    of a pipe to whoever has to free it. -/
inductive Res where
  | inode (r : IRef)
  | pipeEnd (pr : PRef) (writable : Bool)
  | page (pr : PRef)
  deriving DecidableEq

def Res.serial : Res → Nat
  | .inode r => r.serial
  | .pipeEnd pr _ => pr.serial
  | .page pr => pr.serial

/-- Where a process is in `fileclose`. -/
inductive Closing where
  /-- `acquire(&ftable.lock)` -/
  | enter (f : FIdx)
  /-- `pipeclose(ff.pipe, ff.writable)` -/
  | pipeclose (pr : PRef) (writable : Bool)
  /-- `kfree((char*)p)` in `pipeclose` -/
  | kfree (pr : PRef)
  /-- `iput(ff.ip)` -/
  | iput (r : IRef)
  deriving DecidableEq

/-- What comes after `fileclose`. -/
inductive After where
  /-- the end of the call -/
  | done
  /-- `iunlockput(ip)` in `sys_open` -/
  | iunlockput (r : IRef)
  /-- `fileclose` of the other file, in `sys_pipe` and in `pipealloc` -/
  | fileclose (f : FIdx)
  /-- `curproc->ofile[fd] = 0` in `exit` -/
  | exit (fd : FD) (f : FIdx)
  deriving DecidableEq

/-- Where a process is. -/
inductive Pc (P : Type) where
  | idle
  /-- in `piperead` or `pipewrite` -/
  | pipeUse (pr : PRef)
  /-- in `sys_dup`, at `filedup(f)`; `fdalloc` has put `f` in slot `fd` -/
  | dup (src fd : FD) (f : FIdx)
  | closing (st : Closing) (k : After)
  /-- in `sys_open`, at `filealloc()` -/
  | openFile (r : IRef) (omode : Nat)
  /-- in `sys_open`, at `fdalloc(f)` -/
  | openFd (r : IRef) (omode : Nat) (f : FIdx)
  /-- in `sys_open`, at `f->type = FD_INODE` -/
  | openSet (r : IRef) (omode : Nat) (f : FIdx) (fd : FD)
  /-- in `pipealloc`, at `*f0 = filealloc()` -/
  | pipeFile0
  /-- in `pipealloc`, at `*f1 = filealloc()` -/
  | pipeFile1 (f0 : FIdx)
  /-- in `pipealloc`, at `kalloc()` -/
  | pipeKalloc (f0 f1 : FIdx)
  /-- in `sys_pipe`, at `fdalloc(rf)` -/
  | pipeFd0 (rf wf : FIdx)
  /-- in `sys_pipe`, at `fdalloc(wf)` -/
  | pipeFd1 (rf wf : FIdx) (fd0 : FD)
  /-- in `fork`, at `copyuvm` -/
  | copyuvm (np : P)
  /-- in the loop of `fork` or `clone` over the slots -/
  | fill (np : P) (i : Nat)
  /-- there, at `np->ofile[i] = f`, after `filedup(f)` -/
  | fillSet (np : P) (i : FD) (f : FIdx)
  /-- in the loop of `exit` over the slots -/
  | exit (i : Nat)
  /-- there, at `curproc->ofile[fd] = 0`, after `fileclose(f)` -/
  | exitClear (fd : FD) (f : FIdx)
  deriving DecidableEq

/-- What `p->state` tells of an entry of the process table here. -/
inductive Life where
  | unused | embryo | live | zombie
  deriving DecidableEq

/-- The panics of `filedup` and `fileclose`; `fault` stands for the use of a
    page that is no longer the pipe's, or for freeing it again. -/
inductive FPanic where
  | filedup | fileclose | fault
  deriving DecidableEq

structure State (P : Type) where
  file : FIdx → File
  /-- `p->ofile[fd]` -/
  ofile : P × FD → Option FIdx
  life : P → Life
  pc : P → Pc P
  /-- the pipes, by their pages -/
  pipe : Page → Option Pipe
  panic : Option FPanic
  /-- the next serial number -/
  serial : Nat
  /-- how often something was handed out -/
  issued : Res → Nat
  /-- how often it was given back -/
  spent : Res → Nat

section

variable {P : Type} [DecidableEq P] {e : Res} {pr : PRef} {fd : FD} {life : P → Life}
  {ofile : P × FD → Option FIdx} {np : P} {o v : Option FIdx} {r : IRef} {st : Closing}

namespace State

def goto (s : State P) (p : P) (pc : Pc P) : State P :=
  { s with pc := Function.update s.pc p pc }

def setFile (s : State P) (f : FIdx) (x : File) : State P :=
  { s with file := Function.update s.file f x }

def setSlot (s : State P) (p : P) (fd : FD) (v : Option FIdx) : State P :=
  { s with ofile := Function.update s.ofile (p, fd) v }

def setLife (s : State P) (p : P) (x : Life) : State P :=
  { s with life := Function.update s.life p x }

def setPipe (s : State P) (pg : Page) (x : Option Pipe) : State P :=
  { s with pipe := Function.update s.pipe pg x }

def issue (s : State P) (e : Res) : State P :=
  { s with issued := Function.update s.issued e (s.issued e + 1) }

def spend (s : State P) (e : Res) : State P :=
  { s with spent := Function.update s.spent e (s.spent e + 1) }

/-- The pipe that `pr` points to, if it is still there. -/
def pipeAt (s : State P) (pr : PRef) : Option Pipe :=
  match s.pipe pr.page with
  | some x => if x.serial = pr.serial then some x else none
  | none => none

/-- The file that `filealloc` finds. -/
def freeFile (s : State P) : Option FIdx :=
  (List.finRange NFILE).find? (fun f => decide ((s.file f).ref = 0))

/-- `filealloc`, having found a file. -/
def filealloc (s : State P) (f : FIdx) : State P :=
  s.setFile f { s.file f with ref := 1 }

/-- The slot that `fdalloc` finds. -/
def freeSlot (s : State P) (p : P) : Option FD :=
  (List.finRange NOFILE).find? (fun fd => decide (s.ofile (p, fd) = none))

/-- `filedup`; `p` goes on at `pc`. -/
def filedup (s : State P) (p : P) (f : FIdx) (pc : Pc P) : State P :=
  if (s.file f).ref < 1 then { s with panic := some .filedup }
  else (s.setFile f { s.file f with ref := (s.file f).ref + 1 }).goto p pc

/-- Back from `fileclose`. -/
def resume : After → Pc P
  | .done => .idle
  | .iunlockput r => .closing (.iput r) .done
  | .fileclose f => .closing (.enter f) .done
  | .exit fd f => .exitClear fd f

/-- The critical section of `fileclose`. -/
def fileclose (s : State P) (p : P) (f : FIdx) (k : After) : State P :=
  let ff := s.file f
  if ff.ref < 1 then { s with panic := some .fileclose }
  else if 0 < ff.ref - 1 then (s.setFile f { ff with ref := ff.ref - 1 }).goto p (resume k)
  else
    let s₁ := s.setFile f { ff with ref := 0, type := .FD_NONE }
    match ff.type with
    | .FD_PIPE => s₁.goto p (.closing (.pipeclose ff.pipe ff.writable) k)
    | .FD_INODE => s₁.goto p (.closing (.iput ff.ip) k)
    | .FD_NONE => s₁.goto p (resume k)

/-- `pipeclose`, up to the release of the lock. -/
def pipeclose (s : State P) (p : P) (pr : PRef) (writable : Bool) (k : After) : State P :=
  match s.pipeAt pr with
  | none => { s with panic := some .fault }
  | some x =>
    let x' := if writable then { x with writeopen := false } else { x with readopen := false }
    let s₁ := (s.setPipe pr.page (some x')).spend (.pipeEnd pr writable)
    if x'.readopen = false ∧ x'.writeopen = false then
      (s₁.issue (.page pr)).goto p (.closing (.kfree pr) k)
    else s₁.goto p (resume k)

/-- A statement of `fileclose` and of what it calls. -/
def closeStep (s : State P) (p : P) (k : After) : Closing → State P
  | .enter f => s.fileclose p f k
  | .pipeclose pr w => s.pipeclose p pr w k
  | .kfree pr =>
    if s.pipeAt pr = none then { s with panic := some .fault }
    else ((s.setPipe pr.page none).spend (.page pr)).goto p (resume k)
  | .iput r => (s.spend (.inode r)).goto p (resume k)

/-- `f->type = FD_INODE` and the rest of `sys_open`. -/
def openSet (s : State P) (r : IRef) (omode : Nat) (f : FIdx) : State P :=
  s.setFile f { s.file f with
    type := .FD_INODE
    ip := r
    readable := decide (omode &&& O_WRONLY = 0)
    writable := decide (omode &&& O_WRONLY ≠ 0 ∨ omode &&& O_RDWR ≠ 0) }

/-- An end of a pipe, as `pipealloc` sets it up. -/
def asPipeEnd (x : File) (pr : PRef) (writable : Bool) : File :=
  { x with type := .FD_PIPE, readable := !writable, writable := writable, pipe := pr }

/-- What `pipealloc` does with the page it got. -/
def pipeSet (s : State P) (f0 f1 : FIdx) (pg : Page) : State P :=
  let pr : PRef := ⟨pg, s.serial⟩
  let s₁ := s.setPipe pg (some ⟨s.serial, true, true⟩)
  let s₂ := s₁.setFile f0 (asPipeEnd (s₁.file f0) pr false)
  let s₃ := s₂.setFile f1 (asPipeEnd (s₂.file f1) pr true)
  { (s₃.issue (.pipeEnd pr false)).issue (.pipeEnd pr true) with serial := s.serial + 1 }

/-- The next statement of the call that `p` is in; `none` where it calls
    `kalloc`, or is in no call. -/
def run (s : State P) (p : P) : Pc P → Option (State P)
  | .idle => none
  | .pipeUse pr =>
    some (if s.pipeAt pr = none then { s with panic := some .fault } else s.goto p .idle)
  | .dup _ _ f => some (s.filedup p f .idle)
  | .closing st k => some (s.closeStep p k st)
  | .openFile r omode =>
    match s.freeFile with
    | none => some (s.goto p (.closing (.iput r) .done))
    | some f => some ((s.filealloc f).goto p (.openFd r omode f))
  | .openFd r omode f =>
    match s.freeSlot p with
    | none => some (s.goto p (.closing (.enter f) (.iunlockput r)))
    | some fd => some ((s.setSlot p fd (some f)).goto p (.openSet r omode f fd))
  | .openSet r omode f _ => some ((s.openSet r omode f).goto p .idle)
  | .pipeFile0 =>
    match s.freeFile with
    | none => some (s.goto p .idle)
    | some f0 => some ((s.filealloc f0).goto p (.pipeFile1 f0))
  | .pipeFile1 f0 =>
    match s.freeFile with
    | none => some (s.goto p (.closing (.enter f0) .done))
    | some f1 => some ((s.filealloc f1).goto p (.pipeKalloc f0 f1))
  | .pipeKalloc _ _ => none
  | .pipeFd0 rf wf =>
    match s.freeSlot p with
    | none => some (s.goto p (.closing (.enter rf) (.fileclose wf)))
    | some fd0 => some ((s.setSlot p fd0 (some rf)).goto p (.pipeFd1 rf wf fd0))
  | .pipeFd1 rf wf fd0 =>
    match s.freeSlot p with
    | none => some ((s.setSlot p fd0 none).goto p (.closing (.enter rf) (.fileclose wf)))
    | some fd1 => some ((s.setSlot p fd1 (some wf)).goto p .idle)
  | .copyuvm np => some (s.goto p (.fill np 0))
  | .fill np i =>
    if h : i < NOFILE then
      match s.ofile (p, ⟨i, h⟩) with
      | none => some (s.goto p (.fill np (i + 1)))
      | some f => some (s.filedup p f (.fillSet np ⟨i, h⟩ f))
    else some ((s.setLife np .live).goto p .idle)
  | .fillSet np i f => some ((s.setSlot np i (some f)).goto p (.fill np (i.val + 1)))
  | .exit i =>
    if h : i < NOFILE then
      match s.ofile (p, ⟨i, h⟩) with
      | none => some (s.goto p (.exit (i + 1)))
      | some f => some (s.goto p (.closing (.enter f) (.exit ⟨i, h⟩ f)))
    else some ((s.setLife p .zombie).goto p .idle)
  | .exitClear fd _ => some ((s.setSlot p fd none).goto p (.exit (fd.val + 1)))

/-- `p` is between two system calls. -/
def Ready (s : State P) (p : P) : Prop :=
  s.life p = .live ∧ s.pc p = .idle

instance (s : State P) (p : P) : Decidable (s.Ready p) :=
  inferInstanceAs (Decidable (_ ∧ _))

end State

/-! ### Steps -/

inductive Label (P : Type) where
  | dup (p : P) (fd : FD)
  | close (p : P) (fd : FD)
  /-- `open`, where the path is that of the inode `ip` -/
  | open (p : P) (ip : Icache.NIdx) (isDir : Bool) (omode : Nat)
  | pipe (p : P)
  /-- `fork` and `clone`, where `allocproc` returned `np` -/
  | fork (p np : P)
  | clone (p np : P)
  /-- `exec`, which keeps the open files; or a call that fails before it has
      done anything -/
  | exec (p : P)
  | exit (p : P)
  /-- `wait`, `waitx` or `join` finds the zombie `q` -/
  | reap (q : P)
  /-- `read` or `write` of a pipe -/
  | pipeUse (p : P) (fd : FD)
  /-- `p` goes on with its call -/
  | run (p : P)
  /-- `kalloc` returns a page to `p` -/
  | kalloc (p : P) (pg : Page)
  /-- `kalloc` returns 0 to `p` -/
  | noMemory (p : P)
  deriving DecidableEq

/-- One step; `none` where it is not possible. A call that fails before it
    does anything leaves the state as it is. -/
def next (s : State P) (l : Label P) : Option (State P) :=
  if s.panic ≠ none then none
  else match l with
    | .dup p fd =>
      if s.Ready p then
        match s.ofile (p, fd), s.freeSlot p with
        | some f, some fd' => some ((s.setSlot p fd' (some f)).goto p (.dup fd fd' f))
        | _, _ => some s
      else none
    | .close p fd =>
      if s.Ready p then
        match s.ofile (p, fd) with
        | some f => some ((s.setSlot p fd none).goto p (.closing (.enter f) .done))
        | none => some s
      else none
    | .open p ip isDir omode =>
      if s.Ready p then
        let r : IRef := ⟨ip, s.serial⟩
        let s₁ := { s.issue (.inode r) with serial := s.serial + 1 }
        if omode &&& O_CREATE = 0 ∧ isDir = true ∧ omode ≠ O_RDONLY then
          some (s₁.goto p (.closing (.iput r) .done))
        else some (s₁.goto p (.openFile r omode))
      else none
    | .pipe p => if s.Ready p then some (s.goto p .pipeFile0) else none
    | .fork p np =>
      if s.Ready p ∧ s.life np = .unused then
        some ((s.setLife np .embryo).goto p (.copyuvm np))
      else none
    | .clone p np =>
      if s.Ready p ∧ s.life np = .unused then
        some ((s.setLife np .embryo).goto p (.fill np 0))
      else none
    | .exec p => if s.Ready p then some s else none
    | .exit p => if s.Ready p then some (s.goto p (.exit 0)) else none
    | .reap q => if s.life q = .zombie then some (s.setLife q .unused) else none
    | .pipeUse p fd =>
      if s.Ready p then
        match s.ofile (p, fd) with
        | some f =>
          if (s.file f).type = .FD_PIPE then some (s.goto p (.pipeUse (s.file f).pipe)) else none
        | none => some s
      else none
    | .run p => s.run p (s.pc p)
    | .kalloc p pg =>
      match s.pc p with
      | .pipeKalloc f0 f1 =>
        if s.pipe pg = none then some ((s.pipeSet f0 f1 pg).goto p (.pipeFd0 f0 f1)) else none
      | _ => none
    | .noMemory p =>
      match s.pc p with
      | .pipeKalloc f0 f1 => some (s.goto p (.closing (.enter f0) (.fileclose f1)))
      | .copyuvm np => some ((s.setLife np .unused).goto p .idle)
      | _ => none

/-- No file is open. -/
structure Init (s : State P) : Prop where
  ref : ∀ f, (s.file f).ref = 0
  type : ∀ f, (s.file f).type = .FD_NONE
  ofile : ∀ x, s.ofile x = none
  life : ∀ p, s.life p = .unused ∨ s.life p = .live
  pc : ∀ p, s.pc p = .idle
  pipe : ∀ pg, s.pipe pg = none
  panic : s.panic = none
  issued : ∀ e, s.issued e = 0
  spent : ∀ e, s.spent e = 0

/-- The open files of the processes of `P`. -/
def ftable (P : Type) [DecidableEq P] : System (State P) (Label P) where
  init := Init
  step := fun s l s' => next s l = some s'

end

/-! ### What a process and a file hold -/

variable {P : Type}

/-- A reference to a file that `fileclose` is about to drop. -/
def Closing.taken : Closing → List FIdx
  | .enter f => [f]
  | _ => []

def After.taken : After → List FIdx
  | .fileclose f => [f]
  | _ => []

/-- References to files that the call has and that are in no slot. -/
def Pc.taken : Pc P → List FIdx
  | .openFd _ _ f => [f]
  | .pipeFile1 f0 => [f0]
  | .pipeKalloc f0 f1 => [f0, f1]
  | .pipeFd0 rf wf => [rf, wf]
  | .pipeFd1 _ wf _ => [wf]
  | .fillSet _ _ f => [f]
  | .closing st k => st.taken ++ k.taken
  | _ => []

def After.owed : After → List FIdx
  | .exit _ f => [f]
  | _ => []

/-- Files in a slot that has no reference: `sys_dup` has not yet called
    `filedup`, or `exit` has already called `fileclose`. -/
def Pc.owed : Pc P → List FIdx
  | .dup _ _ f => [f]
  | .closing _ k => k.owed
  | .exitClear _ f => [f]
  | _ => []

/-- Files that the call has allocated and not yet set up. -/
def Pc.fresh : Pc P → List FIdx
  | .openFd _ _ f => [f]
  | .openSet _ _ f _ => [f]
  | .pipeFile1 f0 => [f0]
  | .pipeKalloc f0 f1 => [f0, f1]
  | _ => []

def Closing.holds : Closing → List Res
  | .enter _ => []
  | .pipeclose pr w => [.pipeEnd pr w]
  | .kfree pr => [.page pr]
  | .iput r => [.inode r]

def After.holds : After → List Res
  | .iunlockput r => [.inode r]
  | _ => []

/-- What the call has to give back, or to put in a file. -/
def Pc.holds : Pc P → List Res
  | .openFile r _ => [.inode r]
  | .openFd r _ _ => [.inode r]
  | .openSet r _ _ _ => [.inode r]
  | .closing st k => st.holds ++ k.holds
  | _ => []

/-- What an open file has to give back. -/
def File.holds (x : File) : List Res :=
  match x.type with
  | .FD_NONE => []
  | .FD_PIPE => [.pipeEnd x.pipe x.writable]
  | .FD_INODE => [.inode x.ip]

/-- The entry that `fork` or `clone` is filling. -/
def Pc.target : Pc P → Option P
  | .copyuvm np => some np
  | .fill np _ => some np
  | .fillSet np _ _ => some np
  | _ => none

/-- The pipe that `p` reads or writes. -/
def Pc.io : Pc P → Option PRef
  | .pipeUse pr => some pr
  | _ => none

theorem Pc.ne_pipeUse {a : Pc P} (h : a.io = none) (pr : PRef) : a ≠ .pipeUse pr := by
  rintro rfl
  cases h

/-- The pipe that something is of. -/
def Res.pipe : Res → Option PRef
  | .inode _ => none
  | .pipeEnd pr _ => some pr
  | .page pr => some pr

theorem Res.ne_of_pipe {e' : Res} {pr' : PRef} (he : e.pipe = some pr') (he' : e'.pipe = some pr)
    (hne : pr' ≠ pr) : e ≠ e' := by
  rintro rfl
  exact hne (Option.some.inj (he.symm.trans he'))

section resume

variable (k : After)

theorem taken_resume : (State.resume k : Pc P).taken = k.taken := by
  cases k <;> rfl

theorem owed_resume : (State.resume k : Pc P).owed = k.owed := by
  cases k <;> rfl

theorem holds_resume : (State.resume k : Pc P).holds = k.holds := by
  cases k <;> rfl

theorem fresh_resume : (State.resume k : Pc P).fresh = [] := by
  cases k <;> rfl

theorem target_resume : (State.resume k : Pc P).target = none := by
  cases k <;> rfl

theorem io_resume : (State.resume k : Pc P).io = none := by
  cases k <;> rfl

end resume

/-! ### The invariant -/

/-- What the place of a process says of the slots. -/
def PcOk (life : P → Life) (ofile : P × FD → Option FIdx) (p : P) : Pc P → Prop
  | .dup src fd f => src ≠ fd ∧ ofile (p, src) = some f ∧ ofile (p, fd) = some f
  | .openSet _ _ f fd => ofile (p, fd) = some f
  | .pipeFd1 rf _ fd0 => ofile (p, fd0) = some rf
  | .closing _ (.exit fd f) => ofile (p, fd) = some f ∧ ∀ j, j < fd → ofile (p, j) = none
  | .exitClear fd f => ofile (p, fd) = some f ∧ ∀ j, j < fd → ofile (p, j) = none
  | .exit i => ∀ j : FD, j.val < i → ofile (p, j) = none
  | .copyuvm np => life np = .embryo ∧ ∀ j, ofile (np, j) = none
  | .fill np i => life np = .embryo ∧ ∀ j : FD, i ≤ j.val → ofile (np, j) = none
  | .fillSet np i _ => life np = .embryo ∧ ∀ j, i ≤ j → ofile (np, j) = none
  | _ => True

/-- Where the processes are, and which slots are in use. -/
structure ShapeInv (s : State P) : Prop where
  ok : ∀ p, PcOk s.life s.ofile p (s.pc p)
  idle : ∀ p, s.life p ≠ .live → s.pc p = .idle
  /-- an entry that no process has is left with empty slots -/
  empty : ∀ p, s.life p = .unused ∨ s.life p = .zombie → ∀ fd, s.ofile (p, fd) = none
  target : ∀ p q np, (s.pc p).target = some np → (s.pc q).target = some np → p = q

namespace State

variable [Fintype P]

/-- The slots that hold `f`. -/
def slots (s : State P) (f : FIdx) : Nat :=
  ∑ x : P × FD, if s.ofile x = some f then 1 else 0

def slotsOf (s : State P) (p : P) (f : FIdx) : Nat :=
  ∑ fd : FD, if s.ofile (p, fd) = some f then 1 else 0

def taken (s : State P) (f : FIdx) : Nat := ∑ p, (s.pc p).taken.count f

def owed (s : State P) (f : FIdx) : Nat := ∑ p, (s.pc p).owed.count f

/-- How many processes and files hold `e`. -/
def held (s : State P) (e : Res) : Nat :=
  ∑ p, (s.pc p).holds.count e + ∑ f, (s.file f).holds.count e

end State

section invariant

variable [Fintype P]

/-- The reference counts. -/
structure CountInv (s : State P) : Prop where
  count : ∀ f, (s.file f).ref + s.owed f = s.slots f + s.taken f
  free : ∀ f, (s.file f).ref = 0 → (s.file f).type = .FD_NONE
  fresh : ∀ p, ∀ f ∈ (s.pc p).fresh, (s.file f).ref = 1 ∧ (s.file f).type = .FD_NONE
  /-- who reads or writes a pipe has it open -/
  io : ∀ p pr, s.pc p = .pipeUse pr → ∃ fd f, s.ofile (p, fd) = some f ∧
    (s.file f).type = .FD_PIPE ∧ (s.file f).pipe = pr

/-- What was handed out and given back of a pipe: all that is left of it is in
    `readopen` and `writeopen`, and when it is gone everything was given back. -/
def PipeOk (s : State P) (pr : PRef) : Prop :=
  match s.pipeAt pr with
  | some x =>
    (∀ w, s.issued (.pipeEnd pr w) = 1 ∧
      s.spent (.pipeEnd pr w) = if x.isOpen w = true then 0 else 1) ∧
    s.issued (.page pr) = (if x.readopen = false ∧ x.writeopen = false then 1 else 0) ∧
    s.spent (.page pr) = 0
  | none => ∃ n, n ≤ 1 ∧
    (∀ w, s.issued (.pipeEnd pr w) = n ∧ s.spent (.pipeEnd pr w) = n) ∧
    s.issued (.page pr) = n ∧ s.spent (.page pr) = n

/-- What is handed out is with one holder until it is given back. -/
structure LedgerInv (s : State P) : Prop where
  balance : ∀ e, s.held e + s.spent e = s.issued e
  once : ∀ e, s.issued e ≤ 1
  later : ∀ e : Res, s.serial ≤ e.serial → s.issued e = 0
  pipes : ∀ pr, PipeOk s pr

structure FtableInv (s : State P) : Prop where
  shape : ShapeInv s
  counts : CountInv s
  ledger : LedgerInv s
  panic : s.panic = none

end invariant

section fields

variable (s : State P) (f : FIdx) (x : File)

@[simp]
theorem file_setFile_self : (s.setFile f x).file f = x :=
  update_self _ _ _

theorem file_setFile_of_ne {g : FIdx} (h : g ≠ f) : (s.setFile f x).file g = s.file g :=
  update_of_ne h _ _

end fields

/-! ### Totals -/

section totals

variable (s : State P) (p : P)

theorem le_slotsOf {f : FIdx} (h : s.ofile (p, fd) = some f) : 1 ≤ s.slotsOf p f := by
  have hle := le_sum_tally (fun fd : FD => if s.ofile (p, fd) = some f then 1 else 0) fd
  simp only [h, if_true] at hle
  exact hle

theorem two_le_slotsOf {fd' : FD} {f : FIdx} (hne : fd ≠ fd') (h : s.ofile (p, fd) = some f)
    (h' : s.ofile (p, fd') = some f) : 2 ≤ s.slotsOf p f := by
  unfold State.slotsOf
  rw [← Finset.card_filter]
  have hsub : ({fd, fd'} : Finset FD) ⊆ Finset.univ.filter (fun x => s.ofile (p, x) = some f) := by
    intro x hx
    rw [Finset.mem_insert, Finset.mem_singleton] at hx
    rcases hx with rfl | rfl
    · simpa using h
    · simpa using h'
  calc 2 = ({fd, fd'} : Finset FD).card := (Finset.card_pair hne).symm
    _ ≤ _ := Finset.card_le_card hsub

variable [Fintype P]

theorem slots_eq_sum (f : FIdx) : s.slots f = ∑ p, s.slotsOf p f :=
  Fintype.sum_prod_type _

theorem slots_eq_card (f : FIdx) :
    s.slots f = (Finset.univ.filter (fun x : P × FD => s.ofile x = some f)).card :=
  (Finset.card_filter _ _).symm

end totals

/-! ### Slots and places -/

section shape

variable {s s' : State P} {p : P}

/-- What a place says of the slots depends on the slots of the process, and on
    the entry it fills. -/
theorem PcOk.congr {life' : P → Life} {ofile' : P × FD → Option FIdx} {a : Pc P}
    (h : PcOk life ofile p a) (hp : ∀ fd, ofile' (p, fd) = ofile (p, fd))
    (hnp : ∀ np, a.target = some np → life' np = life np ∧ ∀ fd, ofile' (np, fd) = ofile (np, fd)) :
    PcOk life' ofile' p a := by
  cases a with
  | dup src fd f => exact ⟨h.1, (hp src).trans h.2.1, (hp fd).trans h.2.2⟩
  | openSet r omode f fd => exact (hp fd).trans h
  | pipeFd1 rf wf fd0 => exact (hp fd0).trans h
  | closing st k =>
    cases k with
    | exit fd f => exact ⟨(hp fd).trans h.1, fun j hj => (hp j).trans (h.2 j hj)⟩
    | done => exact trivial
    | iunlockput r => exact trivial
    | fileclose f => exact trivial
  | exitClear fd f => exact ⟨(hp fd).trans h.1, fun j hj => (hp j).trans (h.2 j hj)⟩
  | exit i => exact fun j hj => (hp j).trans (h j hj)
  | copyuvm np =>
    obtain ⟨hl, ho⟩ := hnp np rfl
    exact ⟨hl.trans h.1, fun j => (ho j).trans (h.2 j)⟩
  | fill np i =>
    obtain ⟨hl, ho⟩ := hnp np rfl
    exact ⟨hl.trans h.1, fun j hj => (ho j).trans (h.2 j hj)⟩
  | fillSet np i f =>
    obtain ⟨hl, ho⟩ := hnp np rfl
    exact ⟨hl.trans h.1, fun j hj => (ho j).trans (h.2 j hj)⟩
  | _ => exact trivial

/-- An entry that is being filled is an embryo. -/
theorem PcOk.embryo {a : Pc P} (h : PcOk life ofile p a) (ht : a.target = some np) :
    life np = .embryo := by
  cases a <;> cases ht <;> exact h.1

theorem ShapeInv.live (h : ShapeInv s) (hp : s.pc p ≠ .idle) : s.life p = .live := by
  by_contra hne
  exact hp (h.idle p hne)

/-- Nobody fills an entry that is not an embryo. -/
theorem ShapeInv.target_ne (h : ShapeInv s) {q : P} (hq : s.life q ≠ .embryo) (r : P) :
    (s.pc r).target ≠ some q :=
  fun hr => hq ((h.ok r).embryo hr)

variable [DecidableEq P]

/-- A step of `p` changes the entry `q` of the process table at most, which is
    its own or is in no call. -/
theorem ShapeInv.change (h : ShapeInv s) {a : Pc P} {q : P}
    (hpc : s'.pc = update s.pc p a)
    (hsame : ∀ r, r ≠ q → s'.life r = s.life r ∧ ∀ fd, s'.ofile (r, fd) = s.ofile (r, fd))
    (hok : PcOk s'.life s'.ofile p a) (hq : q ≠ p → s.pc q = .idle)
    (hfilled : ∀ r, r ≠ p → (s.pc r).target ≠ some q) (hlive : s'.life p ≠ .live → a = .idle)
    (hempty : s'.life q = .unused ∨ s'.life q = .zombie → ∀ fd, s'.ofile (q, fd) = none)
    (htarget : ∀ r np, r ≠ p → a.target = some np → (s.pc r).target ≠ some np) :
    ShapeInv s' := by
  have hself : s'.pc p = a := by rw [hpc, update_self]
  have hother : ∀ r, r ≠ p → s'.pc r = s.pc r := by
    intro r hr
    rw [hpc, update_of_ne hr]
  refine ⟨fun r => ?_, fun r hr => ?_, fun r hr fd => ?_, fun r t np hr ht => ?_⟩
  · by_cases hrp : r = p
    · rw [hrp, hself]
      exact hok
    · rw [hother r hrp]
      by_cases hrq : r = q
      · rw [hrq, hq (by rw [← hrq]; exact hrp)]
        exact trivial
      · refine (h.ok r).congr (hsame r hrq).2 (fun np hnp => hsame np (fun heq => ?_))
        rw [heq] at hnp
        exact hfilled r hrp hnp
  · by_cases hrp : r = p
    · rw [hrp] at hr ⊢
      rw [hself]
      exact hlive hr
    · rw [hother r hrp]
      by_cases hrq : r = q
      · rw [hrq] at hrp ⊢
        exact hq hrp
      · rw [(hsame r hrq).1] at hr
        exact h.idle r hr
  · by_cases hrq : r = q
    · rw [hrq] at hr ⊢
      exact hempty hr fd
    · rw [(hsame r hrq).1] at hr
      rw [(hsame r hrq).2]
      exact h.empty r hr fd
  · by_cases hrp : r = p
    · by_cases htp : t = p
      · rw [hrp, htp]
      · rw [hrp, hself] at hr
        rw [hother t htp] at ht
        exact absurd ht (htarget t np htp hr)
    · rw [hother r hrp] at hr
      by_cases htp : t = p
      · rw [htp, hself] at ht
        exact absurd hr (htarget r np hrp ht)
      · rw [hother t htp] at ht
        exact h.target r t np hr ht

/-- A process moves, and changes its own slots at most. -/
theorem ShapeInv.move (h : ShapeInv s) {a b : Pc P} (hp : s.pc p = b) (hlive : s.life p = .live)
    (hpc : s'.pc = update s.pc p a) (hlife : s'.life = s.life)
    (hofile : ∀ q, q ≠ p → ∀ fd, s'.ofile (q, fd) = s.ofile (q, fd))
    (hok : PcOk s.life s'.ofile p a) (htarget : a.target = none ∨ a.target = b.target) :
    ShapeInv s' := by
  have hlive' : s'.life p = .live := by rw [hlife, hlive]
  refine h.change hpc (fun r hr => ⟨by rw [hlife], hofile r hr⟩) (by rw [hlife]; exact hok)
    (fun hne => absurd rfl hne) (fun r _ => h.target_ne (by rw [hlive]; simp) r)
    (fun hdead => absurd hlive' hdead) (fun hx => ?_) (fun r np hr ha hnp => ?_)
  · rw [hlive'] at hx
    rcases hx with hx | hx <;> cases hx
  · rcases htarget with hnone | hsame
    · rw [hnone] at ha
      cases ha
    · exact hr (h.target r p np hnp (by rw [hp, ← hsame]; exact ha))

/-- `np->ofile[i] = f`. -/
theorem ShapeInv.fillSet (h : ShapeInv s) {i : FD} {f : FIdx} (hp : s.pc p = .fillSet np i f) :
    ShapeInv ((s.setSlot np i (some f)).goto p (.fill np (i.val + 1))) := by
  have hok := h.ok p
  rw [hp] at hok
  obtain ⟨hembryo, hempty⟩ := hok
  have hsole : ∀ r np', r ≠ p → some np = some np' → (s.pc r).target ≠ some np' := by
    intro r np' hr heq hnp
    exact hr (h.target r p np' hnp (by rw [hp]; exact heq))
  refine h.change (q := np) rfl (fun r hr => ⟨rfl, fun fd => ?_⟩) ⟨hembryo, fun j hj => ?_⟩
    (fun _ => h.idle np (by rw [hembryo]; simp)) (fun r hr => hsole r np hr rfl)
    (fun hdead => absurd (h.live (by rw [hp]; simp)) hdead) (fun hx => ?_) hsole
  · exact update_of_ne (fun heq => hr (congrArg Prod.fst heq)) _ _
  · have hne : (np, j) ≠ (np, i) := by
      intro heq
      have hji : j = i := congrArg Prod.snd heq
      rw [hji] at hj
      omega
    show update s.ofile (np, i) (some f) (np, j) = none
    rw [update_of_ne hne]
    exact hempty j (Fin.le_def.mpr (by omega))
  · have hx' : s.life np = .unused ∨ s.life np = .zombie := hx
    rw [hembryo] at hx'
    rcases hx' with hx' | hx' <;> cases hx'

end shape

/-! ### Reference counts -/

section counts

variable {s s' : State P} {p q : P} {f g : FIdx}

/-- The references of `p` to `f`. -/
def own (s : State P) (p : P) (f : FIdx) : Nat :=
  s.slotsOf p f + (s.pc p).taken.count f - (s.pc p).owed.count f

/-- A slot without a reference is a slot. -/
theorem owed_le (h : ShapeInv s) (p : P) (f : FIdx) :
    (s.pc p).owed.count f ≤ s.slotsOf p f := by
  have hone : ∀ g fd, s.ofile (p, fd) = some g → [g].count f ≤ s.slotsOf p f := by
    intro g fd hg
    by_cases heq : g = f
    · subst heq
      rw [List.count_singleton_self]
      exact le_slotsOf s p hg
    · rw [List.count_singleton, beq_false_of_ne heq]
      exact Nat.zero_le _
  have hok := h.ok p
  cases hp : s.pc p with
  | dup src fd g =>
    rw [hp] at hok
    exact hone g src hok.2.1
  | closing st k =>
    rw [hp] at hok
    cases k with
    | exit fd g => exact hone g fd hok.1
    | done => exact Nat.zero_le _
    | iunlockput r => exact Nat.zero_le _
    | fileclose g => exact Nat.zero_le _
  | exitClear fd g =>
    rw [hp] at hok
    exact hone g fd hok.1
  | _ => exact Nat.zero_le _

theorem own_pos_of_taken (h : ShapeInv s) (hf : f ∈ (s.pc p).taken) : 0 < own s p f := by
  have hle := owed_le h p f
  have hpos : 0 < (s.pc p).taken.count f := List.count_pos_iff.mpr hf
  unfold own
  omega

theorem own_pos_of_slot (hf : s.ofile (p, fd) = some f) (ho : (s.pc p).owed = []) :
    0 < own s p f := by
  have hle := le_slotsOf s p hf
  unfold own
  rw [ho, List.count_nil]
  omega

/-- `sys_dup` has the reference of the slot it copies. -/
theorem own_pos_of_dup (h : ShapeInv s) {src : FD} (hp : s.pc p = .dup src fd f) :
    0 < own s p f := by
  have hok := h.ok p
  rw [hp] at hok
  have htwo := two_le_slotsOf s p hok.1 hok.2.1 hok.2.2
  have hone : (s.pc p).owed.count f = 1 := by
    rw [hp]
    exact List.count_singleton_self
  unfold own
  omega

/-- A file that is being set up belongs to the call that does it. -/
theorem own_pos_of_fresh (h : ShapeInv s) (hf : f ∈ (s.pc p).fresh) : 0 < own s p f := by
  have hok := h.ok p
  cases hp : s.pc p with
  | openFd r omode g =>
    rw [hp] at hf
    exact own_pos_of_taken h (by rw [hp]; exact hf)
  | openSet r omode g fd =>
    rw [hp] at hf hok
    obtain rfl : f = g := List.mem_singleton.mp hf
    exact own_pos_of_slot hok (by rw [hp]; rfl)
  | pipeFile1 f0 =>
    rw [hp] at hf
    exact own_pos_of_taken h (by rw [hp]; exact hf)
  | pipeKalloc f0 f1 =>
    rw [hp] at hf
    exact own_pos_of_taken h (by rw [hp]; exact hf)
  | _ =>
    rw [hp] at hf
    cases hf

variable [Fintype P]

/-- `ref` is the number of references that the processes have. -/
theorem ref_eq_own (h : ShapeInv s) (hc : CountInv s) (f : FIdx) :
    (s.file f).ref = ∑ p, own s p f := by
  have hsum : ∑ p, own s p f + s.owed f = s.slots f + s.taken f := by
    rw [slots_eq_sum]
    unfold State.owed State.taken
    rw [← Finset.sum_add_distrib, ← Finset.sum_add_distrib]
    refine Finset.sum_congr rfl (fun p _ => ?_)
    have hle := owed_le h p f
    unfold own
    omega
  have hcount := hc.count f
  omega

theorem ref_pos_of_own (h : ShapeInv s) (hc : CountInv s) (hp : 0 < own s p f) :
    0 < (s.file f).ref := by
  rw [ref_eq_own h hc f]
  exact Nat.lt_of_lt_of_le hp (le_sum_tally (fun q => own s q f) p)

theorem not_fresh_of_free (hc : CountInv s) (hf : (s.file f).ref = 0) : f ∉ (s.pc q).fresh := by
  intro hfresh
  rw [(hc.fresh q f hfresh).1] at hf
  cases hf

variable [DecidableEq P]

/-- The last reference is with one process. -/
theorem own_sole (h : ShapeInv s) (hc : CountInv s) (hone : (s.file f).ref = 1)
    (hp : 0 < own s p f) (hq : q ≠ p) : own s q f = 0 :=
  (sum_eq_one (n := fun q => own s q f) ((ref_eq_own h hc f).symm.trans hone) hp).2 q hq

/-- Nobody sets up a file that somebody else refers to. -/
theorem not_fresh_of_own (h : ShapeInv s) (hc : CountInv s) (hp : 0 < own s p f) (hq : q ≠ p) :
    f ∉ (s.pc q).fresh := by
  intro hf
  have hown := own_pos_of_fresh h hf
  rw [own_sole h hc (hc.fresh q f hf).1 hp hq] at hown
  cases hown

omit [Fintype P] [DecidableEq P] in
theorem count_toList (o : Option FIdx) (f : FIdx) :
    o.toList.count f = if o = some f then 1 else 0 := by
  cases o with
  | none => rfl
  | some g =>
    rw [Option.toList_some, List.count_singleton]
    by_cases hg : g = f
    · rw [hg]
      simp
    · simp [hg]

/-- One step: a process moves, a slot changes, and files change. The lists are
    those of the references that go and that come. -/
theorem CountInv.change (hc : CountInv s) {a b : Pc P} {x : P × FD}
    (hp : s.pc p = b) (hpc : s'.pc = update s.pc p a) (hold : s.ofile x = o)
    (hofile : s'.ofile = update s.ofile x v)
    (hbal : ∀ f, (s'.file f).ref + (a.owed ++ b.taken ++ o.toList).count f =
      (s.file f).ref + (b.owed ++ a.taken ++ v.toList).count f)
    (hfree : ∀ f, (s'.file f).ref = 0 → (s'.file f).type = .FD_NONE)
    (hfresh : ∀ f ∈ a.fresh, (s'.file f).ref = 1 ∧ (s'.file f).type = .FD_NONE)
    (hothers : ∀ q f, q ≠ p → f ∈ (s.pc q).fresh → s'.file f = s.file f)
    (hio : ∀ pr, a = .pipeUse pr → ∃ fd f, s'.ofile (p, fd) = some f ∧
      (s'.file f).type = .FD_PIPE ∧ (s'.file f).pipe = pr)
    (hslot : ∀ q pr, q ≠ p → s.pc q = .pipeUse pr → x.1 ≠ q)
    (hkeep : ∀ f, ((s'.file f).type = (s.file f).type ∧ (s'.file f).pipe = (s.file f).pipe) ∨
      ∀ q, q ≠ p → own s q f = 0) : CountInv s' := by
  have hself : s'.pc p = a := by rw [hpc, update_self]
  have hother : ∀ q, q ≠ p → s'.pc q = s.pc q := by
    intro q hq
    rw [hpc, update_of_ne hq]
  refine ⟨fun f => ?_, hfree, fun q f hf => ?_, fun q pr hq => ?_⟩
  · have htaken := sum_comp_update (fun x : Pc P => x.taken.count f) s.pc p a
    have howed := sum_comp_update (fun x : Pc P => x.owed.count f) s.pc p a
    have hslots := sum_comp_update (fun x : Option FIdx => if x = some f then 1 else 0) s.ofile x v
    have hcount := hc.count f
    have hlocal := hbal f
    simp only [List.count_append, count_toList] at hlocal
    rw [hp] at htaken howed
    rw [hold] at hslots
    unfold State.owed State.slots State.taken at hcount ⊢
    rw [hpc, hofile]
    omega
  · by_cases hqp : q = p
    · rw [hqp, hself] at hf
      exact hfresh f hf
    · rw [hother q hqp] at hf
      rw [hothers q f hqp hf]
      exact hc.fresh q f hf
  · by_cases hqp : q = p
    · rw [hqp, hself] at hq
      rw [hqp]
      exact hio pr hq
    · rw [hother q hqp] at hq
      obtain ⟨fd, f, hf, htype, hpipe⟩ := hc.io q pr hq
      have hsame : s'.ofile (q, fd) = some f := by
        rw [hofile, update_of_ne (fun heq => hslot q pr hqp hq (congrArg Prod.fst heq).symm)]
        exact hf
      refine ⟨fd, f, hsame, ?_⟩
      rcases hkeep f with ⟨ht, hp⟩ | hzero
      · exact ⟨ht.trans htype, hp.trans hpipe⟩
      · -- `q` has the file open, so nobody else has the last reference
        have hpos := own_pos_of_slot hf (by rw [hq]; rfl)
        rw [hzero q hqp] at hpos
        cases hpos

/-- A process moves and changes a slot. -/
theorem CountInv.slot (hc : CountInv s) {a b : Pc P} {x : P × FD} (hp : s.pc p = b)
    (hpc : s'.pc = update s.pc p a) (hold : s.ofile x = o)
    (hofile : s'.ofile = update s.ofile x v) (hfile : s'.file = s.file)
    (hbal : (a.owed ++ b.taken ++ o.toList).Perm (b.owed ++ a.taken ++ v.toList))
    (hfresh : a.fresh ⊆ b.fresh) (hio : a.io = none)
    (hslot : ∀ q pr, q ≠ p → s.pc q = .pipeUse pr → x.1 ≠ q) : CountInv s' := by
  refine hc.change hp hpc hold hofile (fun f => ?_) (by rw [hfile]; exact hc.free) (fun f hf => ?_)
    (fun _ f _ _ => by rw [hfile]) (fun pr hpr => absurd hpr (Pc.ne_pipeUse hio pr)) hslot
    (fun f => Or.inl (by rw [hfile]; exact ⟨rfl, rfl⟩))
  · rw [hfile, hbal.count_eq]
  · rw [hfile]
    refine hc.fresh p f ?_
    rw [hp]
    exact hfresh hf

/-- A process moves, and nothing else changes. -/
theorem CountInv.move (hc : CountInv s) {a b : Pc P} (hp : s.pc p = b)
    (hpc : s'.pc = update s.pc p a) (hofile : s'.ofile = s.ofile)
    (hfile : s'.file = s.file) (hbal : (a.owed ++ b.taken).Perm (b.owed ++ a.taken))
    (hfresh : a.fresh = []) (hio : a.io = none) : CountInv s' := by
  have hfd : 0 < NOFILE := by decide
  refine hc.slot (x := (p, ⟨0, hfd⟩)) hp hpc rfl ?_ hfile (hbal.append_right _) ?_ hio
    (fun q _ hq _ heq => hq heq.symm)
  · rw [hofile, update_eq_self]
  · rw [hfresh]
    exact List.nil_subset _

/-- A process moves and changes a file. -/
theorem CountInv.refile (hc : CountInv s) {a b : Pc P} (hp : s.pc p = b)
    (hpc : s'.pc = update s.pc p a) (hofile : s'.ofile = s.ofile)
    (hbal : ∀ f, (s'.file f).ref + (a.owed ++ b.taken).count f =
      (s.file f).ref + (b.owed ++ a.taken).count f)
    (hfree : ∀ f, (s'.file f).ref = 0 → (s'.file f).type = .FD_NONE)
    (hfresh : ∀ f ∈ a.fresh, (s'.file f).ref = 1 ∧ (s'.file f).type = .FD_NONE)
    (hothers : ∀ q f, q ≠ p → f ∈ (s.pc q).fresh → s'.file f = s.file f) (hio : a.io = none)
    (hkeep : ∀ f, ((s'.file f).type = (s.file f).type ∧ (s'.file f).pipe = (s.file f).pipe) ∨
      ∀ q, q ≠ p → own s q f = 0) : CountInv s' := by
  have hfd : 0 < NOFILE := by decide
  refine hc.change (x := (p, ⟨0, hfd⟩)) hp hpc rfl (v := s.ofile (p, ⟨0, hfd⟩)) ?_ (fun f => ?_)
    hfree hfresh hothers (fun pr hpr => absurd hpr (Pc.ne_pipeUse hio pr))
    (fun q _ hq _ heq => hq heq.symm) hkeep
  · rw [hofile, update_eq_self]
  · have hlocal := hbal f
    simp only [List.count_append] at hlocal ⊢
    omega

/-- A process has set up the files it allocated. -/
theorem CountInv.setup (h : ShapeInv s) (hc : CountInv s) {a b : Pc P} (hp : s.pc p = b)
    (hpc : s'.pc = update s.pc p a) (hofile : s'.ofile = s.ofile)
    (href : ∀ f, (s'.file f).ref = (s.file f).ref)
    (hfile : ∀ f, f ∉ b.fresh → s'.file f = s.file f)
    (hbal : (a.owed ++ b.taken).Perm (b.owed ++ a.taken)) (hfresh : a.fresh = [])
    (hio : a.io = none) : CountInv s' := by
  rw [← hp] at hfile
  refine hc.refile hp hpc hofile (fun f => ?_) (fun f hf => ?_) (fun f hf => ?_)
    (fun q f hq hf => ?_) hio (fun f => ?_)
  · rw [href, hbal.count_eq]
  · rw [href] at hf
    rw [hfile f (not_fresh_of_free hc hf)]
    exact hc.free f hf
  · rw [hfresh] at hf
    cases hf
  · exact hfile f (not_fresh_of_own h hc (own_pos_of_fresh h hf) (Ne.symm hq))
  · by_cases hf : f ∈ (s.pc p).fresh
    · exact Or.inr (fun q hq => own_sole h hc (hc.fresh p f hf).1 (own_pos_of_fresh h hf) hq)
    · rw [hfile f hf]
      exact Or.inl ⟨rfl, rfl⟩

end counts

/-! ### What is handed out -/

section ledger

variable {s s' : State P} {p : P} {g : FIdx} {k : After}

theorem PipeOk.congr (h : PipeOk s pr) (hpipe : s'.pipeAt pr = s.pipeAt pr)
    (hsame : ∀ e : Res, e.pipe = some pr → s'.issued e = s.issued e ∧ s'.spent e = s.spent e) :
    PipeOk s' pr := by
  have hpage := hsame (.page pr) rfl
  have hends := fun w => hsame (.pipeEnd pr w) rfl
  unfold PipeOk at h ⊢
  rw [hpipe, hpage.1, hpage.2]
  simp only [hends]
  exact h

theorem pipeAt_eq_some {x : Pipe} :
    s.pipeAt pr = some x ↔ s.pipe pr.page = some x ∧ x.serial = pr.serial := by
  unfold State.pipeAt
  cases s.pipe pr.page with
  | none => simp
  | some y =>
    simp only [Option.ite_none_right_eq_some, Option.some.injEq]
    constructor
    · rintro ⟨hserial, rfl⟩
      exact ⟨rfl, hserial⟩
    · rintro ⟨rfl, hserial⟩
      exact ⟨hserial, rfl⟩

/-- No pipe but `pr` is at that page, before or after. -/
theorem pipeAt_update_of_ne {pr' : PRef} {y : Option Pipe} (hne : pr' ≠ pr)
    (hpipe : s'.pipe = update s.pipe pr.page y)
    (hold : ∀ x, s.pipe pr.page = some x → x.serial = pr.serial)
    (hnew : ∀ x, y = some x → x.serial = pr.serial) : s'.pipeAt pr' = s.pipeAt pr' := by
  by_cases hpage : pr'.page = pr.page
  · have hgone : ∀ t : State P, (∀ x, t.pipe pr.page = some x → x.serial = pr.serial) →
        t.pipeAt pr' = none := by
      intro t ht
      refine Option.eq_none_iff_forall_ne_some.mpr (fun x hx => hne ?_)
      obtain ⟨hx, hserial⟩ := pipeAt_eq_some.mp hx
      rw [hpage] at hx
      have heq := hserial.symm.trans (ht x hx)
      cases pr
      cases pr'
      simp only at hpage heq
      rw [hpage, heq]
    rw [hgone s hold, hgone s' (fun x hx => hnew x ?_)]
    rw [← hx, hpipe, update_self]
  · unfold State.pipeAt
    rw [hpipe, update_of_ne hpage]

/-- The count of one thing, whether it is the one in question or not. -/
theorem count_single {α : Type} [DecidableEq α] (e e' : α) :
    [e'].count e = if e = e' then 1 else 0 := by
  by_cases he : e = e'
  · rw [if_pos he, he, List.count_singleton_self]
  · rw [if_neg he, List.count_singleton, beq_false_of_ne (Ne.symm he)]
    rfl

theorem update_succ_apply (n : Res → Nat) (e e' : Res) :
    update n e' (n e' + 1) e = n e + if e = e' then 1 else 0 := by
  by_cases he : e = e'
  · rw [if_pos he, he, update_self]
  · rw [if_neg he, update_of_ne he, Nat.add_zero]

theorem count_holds_closing (st : Closing) (k : After) (e : Res) :
    (Pc.closing st k : Pc P).holds.count e = st.holds.count e + k.holds.count e :=
  List.count_append ..

variable [Fintype P]

theorem held_pos_of_pc (h : e ∈ (s.pc p).holds) : 0 < s.held e := by
  have hle := le_sum_tally (fun q => (s.pc q).holds.count e) p
  have hpos : 0 < (s.pc p).holds.count e := List.count_pos_iff.mpr h
  unfold State.held
  omega

theorem held_pos_of_file (h : e ∈ (s.file g).holds) : 0 < s.held e := by
  have hle := le_sum_tally (fun f => (s.file f).holds.count e) g
  have hpos : 0 < (s.file g).holds.count e := List.count_pos_iff.mpr h
  unfold State.held
  omega

/-- Somebody holds it, so it was handed out and not given back. -/
theorem LedgerInv.outstanding (h : LedgerInv s) (he : 0 < s.held e) :
    s.issued e = 1 ∧ s.spent e = 0 := by
  have hb := h.balance e
  have ho := h.once e
  omega

/-- The pipe is there as long as somebody holds an end of it, and the end is
    open. -/
theorem LedgerInv.pipe_of_end (h : LedgerInv s) {w : Bool} (he : 0 < s.held (.pipeEnd pr w)) :
    ∃ x, s.pipeAt pr = some x ∧ x.isOpen w = true := by
  obtain ⟨hissued, hspent⟩ := h.outstanding he
  have hok := h.pipes pr
  unfold PipeOk at hok
  cases hx : s.pipeAt pr with
  | none =>
    rw [hx] at hok
    obtain ⟨n, _, hends, _⟩ := hok
    rw [(hends w).1] at hissued
    rw [(hends w).2] at hspent
    omega
  | some x =>
    rw [hx] at hok
    refine ⟨x, rfl, ?_⟩
    by_contra hclosed
    rw [(hok.1 w).2, if_neg hclosed] at hspent
    cases hspent

/-- The pipe is there until its page is freed, and then both ends are closed. -/
theorem LedgerInv.pipe_of_page (h : LedgerInv s) (he : 0 < s.held (.page pr)) :
    ∃ x, s.pipeAt pr = some x ∧ x.readopen = false ∧ x.writeopen = false := by
  obtain ⟨hissued, hspent⟩ := h.outstanding he
  have hok := h.pipes pr
  unfold PipeOk at hok
  cases hx : s.pipeAt pr with
  | none =>
    rw [hx] at hok
    obtain ⟨n, _, _, hi, hs⟩ := hok
    omega
  | some x =>
    rw [hx] at hok
    refine ⟨x, rfl, ?_⟩
    by_contra hopen
    rw [hok.2.1, if_neg hopen] at hissued
    cases hissued

variable [DecidableEq P]

variable (h : LedgerInv s)

include h

/-- A process moves, `gets` is handed out and `gives` given back. -/
theorem LedgerInv.change {a b : Pc P} (gets gives : Res → Nat)
    (hp : s.pc p = b) (hpc : s'.pc = update s.pc p a)
    (hissued : ∀ e, s'.issued e = s.issued e + gets e)
    (hspent : ∀ e, s'.spent e = s.spent e + gives e)
    (hbal : ∀ e, a.holds.count e + ∑ f, (s'.file f).holds.count e + gives e =
      b.holds.count e + ∑ f, (s.file f).holds.count e + gets e)
    (hserial : s.serial ≤ s'.serial)
    (hgets : ∀ e, gets e = 0 ∨ (gets e = 1 ∧ s.issued e = 0 ∧ e.serial < s'.serial))
    (hpipes : ∀ pr, PipeOk s' pr ∨ (s'.pipeAt pr = s.pipeAt pr ∧
      ∀ e : Res, e.pipe = some pr → gets e = 0 ∧ gives e = 0)) : LedgerInv s' := by
  refine ⟨fun e => ?_, fun e => ?_, fun e he => ?_, fun pr => ?_⟩
  · have hpcs := sum_comp_update (fun x : Pc P => x.holds.count e) s.pc p a
    have hb := h.balance e
    have hlocal := hbal e
    rw [hp] at hpcs
    unfold State.held at hb ⊢
    rw [hpc, hissued, hspent]
    omega
  · have honce := h.once e
    have hg := hgets e
    rw [hissued]
    omega
  · rw [hissued]
    rcases hgets e with hz | ⟨_, _, hlt⟩
    · rw [hz, h.later e (le_trans hserial he)]
    · omega
  · rcases hpipes pr with hok | ⟨hat, hnone⟩
    · exact hok
    · refine (h.pipes pr).congr hat (fun e he => ?_)
      rw [hissued, hspent, (hnone e he).1, (hnone e he).2]
      exact ⟨rfl, rfl⟩

/-- A process and the files exchange what they hold. -/
theorem LedgerInv.exchange {a b : Pc P} (hp : s.pc p = b)
    (hpc : s'.pc = update s.pc p a) (hpipe : s'.pipe = s.pipe)
    (hissued : s'.issued = s.issued) (hspent : s'.spent = s.spent) (hserial : s'.serial = s.serial)
    (hbal : ∀ e, a.holds.count e + ∑ f, (s'.file f).holds.count e =
      b.holds.count e + ∑ f, (s.file f).holds.count e) : LedgerInv s' := by
  refine h.change (fun _ => 0) (fun _ => 0) hp hpc (fun e => by rw [hissued]; rfl)
    (fun e => by rw [hspent]; rfl) (fun e => by rw [hbal e]) (Nat.le_of_eq hserial.symm)
    (fun _ => Or.inl rfl) (fun pr => Or.inr ⟨?_, fun _ _ => ⟨rfl, rfl⟩⟩)
  unfold State.pipeAt
  rw [hpipe]

/-- A process moves and keeps what it holds. -/
theorem LedgerInv.move {a b : Pc P} (hp : s.pc p = b) (hpc : s'.pc = update s.pc p a)
    (hfile : ∀ f, (s'.file f).holds = (s.file f).holds) (hpipe : s'.pipe = s.pipe)
    (hissued : s'.issued = s.issued) (hspent : s'.spent = s.spent) (hserial : s'.serial = s.serial)
    (hholds : a.holds = b.holds) : LedgerInv s' := by
  refine h.exchange hp hpc hpipe hissued hspent hserial (fun e => ?_)
  rw [hholds]
  simp only [hfile]

/-- `open` obtains a reference to an inode. -/
theorem LedgerInv.issueInode {a : Pc P} (hr : r.serial = s.serial) (hp : s.pc p = .idle)
    (ha : a.holds = [.inode r]) :
    LedgerInv ({ s.issue (.inode r) with serial := s.serial + 1 }.goto p a) := by
  refine h.change (fun e => if e = .inode r then 1 else 0) (fun _ => 0) hp rfl
    (fun e => update_succ_apply s.issued e _) (fun _ => rfl) (fun e => ?_) (Nat.le_succ _)
    (fun e => ?_) (fun pr => Or.inr ⟨rfl, fun e he => ⟨if_neg ?_, rfl⟩⟩)
  · rw [ha, count_single]
    show _ + ∑ f, (s.file f).holds.count e + 0 = 0 + _ + _
    omega
  · by_cases he : e = .inode r
    · rw [he]
      exact Or.inr ⟨if_pos rfl, h.later (.inode r) (Nat.le_of_eq hr.symm), Nat.lt_succ_of_le
        (Nat.le_of_eq hr)⟩
    · exact Or.inl (if_neg he)
  · rintro rfl
    cases he

/-- `iput` gives it back. -/
theorem LedgerInv.spendInode (hp : s.pc p = .closing (.iput r) k) :
    LedgerInv ((s.spend (.inode r)).goto p (State.resume k)) := by
  refine h.change (fun _ => 0) (fun e => if e = .inode r then 1 else 0) hp rfl (fun _ => rfl)
    (fun e => update_succ_apply s.spent e _) (fun e => ?_) (Nat.le_refl _) (fun _ => Or.inl rfl)
    (fun pr => Or.inr ⟨rfl, fun e he => ⟨rfl, if_neg ?_⟩⟩)
  · rw [count_holds_closing, holds_resume, Closing.holds, count_single]
    show _ + ∑ f, (s.file f).holds.count e + _ = _
    omega
  · rintro rfl
    cases he

/-- `pipeclose`: the end is given back, and the page is handed to the process
    that finds both ends closed. -/
theorem LedgerInv.pipeclose {w : Bool} (hp : s.pc p = .closing (.pipeclose pr w) k) :
    LedgerInv (s.pipeclose p pr w k) := by
  obtain ⟨x, hx, hopen⟩ := h.pipe_of_end (held_pos_of_pc (p := p) (e := .pipeEnd pr w)
    (by rw [hp]; exact List.mem_cons_self))
  obtain ⟨hpage, hserial⟩ := pipeAt_eq_some.mp hx
  have hok := h.pipes pr
  unfold PipeOk at hok
  rw [hx] at hok
  obtain ⟨hends, hissue, hfree⟩ := hok
  have hnone : s.issued (.page pr) = 0 := by
    rw [hissue, if_neg]
    rintro ⟨hr, hw⟩
    cases w <;> simp [Pipe.isOpen, hr, hw] at hopen
  have hlt : pr.serial < s.serial := by
    by_contra hle
    have hzero := h.later (.pipeEnd pr w) (Nat.le_of_not_lt hle)
    rw [(hends w).1] at hzero
    cases hzero
  generalize hx' : (if w then { x with writeopen := false } else { x with readopen := false } : Pipe)
    = x'
  have hclosed : ∀ w', x'.isOpen w' = if w' = w then false else x.isOpen w' := by
    intro w'
    rw [← hx']
    cases w <;> cases w' <;> rfl
  have hserial' : x'.serial = pr.serial := by
    rw [← hx', ← hserial]
    cases w <;> rfl
  -- what holds of either outcome, with `n` for whether the page is handed out
  have key : ∀ (n : Nat) (t : State P) (a : Pc P),
      n = (if x'.readopen = false ∧ x'.writeopen = false then 1 else 0) → n ≤ 1 →
      t.pc = update s.pc p a → t.file = s.file → t.serial = s.serial →
      t.pipe = update s.pipe pr.page (some x') →
      (∀ e, t.spent e = s.spent e + if e = .pipeEnd pr w then 1 else 0) →
      (∀ e, t.issued e = s.issued e + if e = .page pr then n else 0) →
      (∀ e, a.holds.count e = (if e = .page pr then n else 0) + k.holds.count e) →
      LedgerInv t := by
    intro n t a hn hle hpc hfile hser hpipe hspent hissued ha
    refine h.change _ _ hp hpc hissued hspent (fun e => ?_) (Nat.le_of_eq hser.symm) (fun e => ?_)
      (fun pr' => ?_)
    · rw [ha, count_holds_closing, Closing.holds, count_single, hfile]
      omega
    · by_cases he : e = .page pr
      · rw [if_pos he, he, hnone, hser]
        have hlt' : (Res.page pr).serial < s.serial := hlt
        omega
      · exact Or.inl (if_neg he)
    · by_cases hpr : pr' = pr
      · refine Or.inl ?_
        have hat : t.pipeAt pr = some x' := by
          rw [pipeAt_eq_some, hpipe]
          exact ⟨update_self _ _ _, hserial'⟩
        unfold PipeOk
        rw [hpr, hat]
        refine ⟨fun w' => ⟨?_, ?_⟩, ?_, ?_⟩
        · rw [hissued, if_neg (by simp), (hends w').1]
        · rw [hspent, (hends w').2, hclosed]
          by_cases hw : w' = w
          · rw [hw, if_pos rfl, if_pos rfl, hopen]
            rfl
          · rw [if_neg (show Res.pipeEnd pr w' ≠ .pipeEnd pr w by simpa using hw), if_neg hw,
              Nat.add_zero]
        · rw [hissued, if_pos rfl, hnone, Nat.zero_add, hn]
        · rw [hspent, hfree, if_neg (by simp)]
      · refine Or.inr ⟨pipeAt_update_of_ne hpr hpipe (fun y hy => ?_) (fun y hy => ?_),
          fun e he => ⟨if_neg (Res.ne_of_pipe he rfl hpr), if_neg (Res.ne_of_pipe he rfl hpr)⟩⟩
        · rw [hpage] at hy
          cases hy
          exact hserial
        · cases hy
          exact hserial'
  unfold State.pipeclose
  rw [hx]
  simp only [hx']
  split
  · next hboth =>
    refine key 1 _ _ (if_pos hboth).symm (Nat.le_refl 1) rfl rfl rfl rfl
      (fun e => update_succ_apply s.spent e _) (fun e => update_succ_apply s.issued e _)
      (fun e => ?_)
    rw [← count_single]
    exact List.count_append ..
  · next hboth =>
    refine key 0 _ _ (if_neg hboth).symm (Nat.zero_le 1) rfl rfl rfl rfl
      (fun e => update_succ_apply s.spent e _) (fun e => ?_) (fun e => ?_)
    · rw [ite_self, Nat.add_zero]
      rfl
    · rw [ite_self, Nat.zero_add, holds_resume]

/-- `kfree` of the page of a pipe. -/
theorem LedgerInv.kfree (hp : s.pc p = .closing (.kfree pr) k) :
    LedgerInv (((s.setPipe pr.page none).spend (.page pr)).goto p (State.resume k)) := by
  obtain ⟨x, hx, hread, hwrite⟩ := h.pipe_of_page (held_pos_of_pc (p := p) (e := .page pr)
    (by rw [hp]; exact List.mem_cons_self))
  obtain ⟨hpage, hserial⟩ := pipeAt_eq_some.mp hx
  have hok := h.pipes pr
  unfold PipeOk at hok
  rw [hx] at hok
  obtain ⟨hends, hissue, hfree⟩ := hok
  have hspend : ∀ e, (((s.setPipe pr.page none).spend (.page pr)).goto p (State.resume k)).spent e =
      s.spent e + if e = .page pr then 1 else 0 := fun e => update_succ_apply s.spent e _
  refine h.change (fun _ => 0) _ hp rfl (fun _ => rfl) hspend (fun e => ?_) (Nat.le_refl _)
    (fun _ => Or.inl rfl) (fun pr' => ?_)
  · rw [count_holds_closing, holds_resume, Closing.holds, count_single]
    show _ + ∑ f, (s.file f).holds.count e + _ = _
    omega
  · by_cases hpr : pr' = pr
    · refine Or.inl ?_
      have hat : (((s.setPipe pr.page none).spend (.page pr)).goto p (State.resume k)).pipeAt pr =
          none := by
        refine Option.eq_none_iff_forall_ne_some.mpr (fun y hy => ?_)
        have hy' : update s.pipe pr.page none pr.page = some y := (pipeAt_eq_some.mp hy).1
        rw [update_self] at hy'
        cases hy'
      unfold PipeOk
      rw [hpr, hat]
      refine ⟨1, Nat.le_refl 1, fun w => ⟨(hends w).1, ?_⟩, ?_, ?_⟩
      · rw [hspend, if_neg (by simp), (hends w).2, if_neg]
        cases w
        · simp [Pipe.isOpen, hread]
        · simp [Pipe.isOpen, hwrite]
      · exact hissue.trans (if_pos ⟨hread, hwrite⟩)
      · rw [hspend, if_pos rfl, hfree]
    · refine Or.inr ⟨pipeAt_update_of_ne (y := none) hpr rfl (fun y hy => ?_)
        (fun y hy => by cases hy), fun e he => ⟨rfl, if_neg (Res.ne_of_pipe he rfl hpr)⟩⟩
      rw [hpage] at hy
      cases hy
      exact hserial

/-- `pipealloc` hands out the two ends of a new pipe. -/
theorem LedgerInv.pipeSet {f0 f1 : FIdx} {pg : Page} (hne : f0 ≠ f1)
    (h0 : (s.file f0).type = .FD_NONE) (h1 : (s.file f1).type = .FD_NONE) (hpg : s.pipe pg = none)
    (hp : s.pc p = .pipeKalloc f0 f1) :
    LedgerInv ((s.pipeSet f0 f1 pg).goto p (.pipeFd0 f0 f1)) := by
  obtain ⟨pr, hpr⟩ : ∃ pr : PRef, pr = ⟨pg, s.serial⟩ := ⟨_, rfl⟩
  have hissued : ∀ e, ((s.pipeSet f0 f1 pg).goto p (.pipeFd0 f0 f1)).issued e = s.issued e +
      ((if e = .pipeEnd pr false then 1 else 0) + if e = .pipeEnd pr true then 1 else 0) := by
    intro e
    rw [hpr, ← Nat.add_assoc]
    exact (update_succ_apply _ e _).trans (by rw [← update_succ_apply s.issued e _]; rfl)
  have hnothing : ∀ e : Res, e.serial = s.serial → s.issued e = 0 := fun e he =>
    h.later e (Nat.le_of_eq he.symm)
  have hserial : pr.serial = s.serial := by rw [hpr]
  have hpage : pr.page = pg := by rw [hpr]
  refine h.change _ (fun _ => 0) hp rfl hissued (fun _ => rfl) (fun e => ?_) (Nat.le_succ _)
    (fun e => ?_) (fun pr' => ?_)
  · -- two files get an end each
    have hfiles0 := sum_comp_update (fun x : File => x.holds.count e) s.file f0
      (State.asPipeEnd (s.file f0) pr false)
    have hfiles1 := sum_comp_update (fun x : File => x.holds.count e)
      (update s.file f0 (State.asPipeEnd (s.file f0) pr false)) f1
      (State.asPipeEnd (s.file f1) pr true)
    have hempty : ∀ x : File, x.type = .FD_NONE → x.holds.count e = 0 := by
      intro x hx
      unfold File.holds
      rw [hx]
      rfl
    have hgets : ∀ (x : File) w, (State.asPipeEnd x pr w).holds.count e =
        if e = .pipeEnd pr w then 1 else 0 := fun x w => count_single e _
    have hf1 : update s.file f0 (State.asPipeEnd (s.file f0) pr false) f1 = s.file f1 :=
      update_of_ne hne.symm _ _
    rw [hempty _ h0, hgets] at hfiles0
    rw [hf1, hempty _ h1, hgets] at hfiles1
    have hfile : ((s.pipeSet f0 f1 pg).goto p (.pipeFd0 f0 f1)).file =
        update (update s.file f0 (State.asPipeEnd (s.file f0) pr false)) f1
          (State.asPipeEnd (s.file f1) pr true) := by
      rw [← hf1, hpr]
      rfl
    rw [hfile]
    show 0 + _ + 0 = 0 + _ + _
    omega
  · have hnew : ∀ w, s.issued (.pipeEnd pr w) = 0 ∧ (Res.pipeEnd pr w).serial < s.serial + 1 :=
      fun w => ⟨hnothing (.pipeEnd pr w) hserial, Nat.lt_succ_of_le (Nat.le_of_eq hserial)⟩
    by_cases hf : e = .pipeEnd pr false
    · rw [if_pos hf, if_neg (by rw [hf]; simp), hf]
      exact Or.inr ⟨rfl, hnew false⟩
    · by_cases ht : e = .pipeEnd pr true
      · rw [if_neg hf, if_pos ht, ht]
        exact Or.inr ⟨rfl, hnew true⟩
      · rw [if_neg hf, if_neg ht]
        exact Or.inl rfl
  · by_cases heq : pr' = pr
    · refine Or.inl ?_
      have hat : ((s.pipeSet f0 f1 pg).goto p (.pipeFd0 f0 f1)).pipeAt pr =
          some ⟨s.serial, true, true⟩ := by
        rw [pipeAt_eq_some, hpr]
        exact ⟨update_self _ _ _, rfl⟩
      have hspent : ∀ e : Res, e.serial = s.serial → s.spent e = 0 := by
        intro e he
        have hb := h.balance e
        rw [hnothing e he] at hb
        omega
      unfold PipeOk
      rw [heq, hat]
      refine ⟨fun w => ⟨?_, ?_⟩, ?_, hspent (.page pr) hserial⟩
      · rw [hissued, hnothing (.pipeEnd pr w) hserial]
        cases w
        · rw [if_pos rfl, if_neg (by simp)]
        · rw [if_neg (by simp), if_pos rfl]
      · cases w
        · exact hspent (.pipeEnd pr false) hserial
        · exact hspent (.pipeEnd pr true) hserial
      · rw [hissued, hnothing (.page pr) hserial, if_neg (by simp), if_neg (by simp)]
        rfl
    · refine Or.inr ⟨pipeAt_update_of_ne (y := some ⟨s.serial, true, true⟩) heq (by rw [hpage]; rfl)
        (fun y hy => ?_) (fun y hy => ?_), fun e he => ⟨?_, rfl⟩⟩
      · rw [hpage, hpg] at hy
        cases hy
      · cases hy
        exact hserial.symm
      · rw [if_neg (Res.ne_of_pipe he rfl heq), if_neg (Res.ne_of_pipe he rfl heq)]

end ledger

/-! ### Steps -/

section steps

variable {s s' : State P} {p : P} {f : FIdx} {a b : Pc P} {k : After}

theorem freeFile_spec (h : s.freeFile = some f) : (s.file f).ref = 0 := by
  have hf := List.find?_some h
  exact of_decide_eq_true hf

theorem freeSlot_spec (h : s.freeSlot p = some fd) : s.ofile (p, fd) = none := by
  have hf := List.find?_some h
  exact of_decide_eq_true hf

/-- Back from `fileclose`. -/
theorem PcOk.resume (h : PcOk life ofile p (.closing st k)) :
    PcOk life ofile p (State.resume k) := by
  cases k with
  | exit fd f => exact h
  | done => exact trivial
  | iunlockput r => exact trivial
  | fileclose f => exact trivial

theorem PcOk.closing {st' : Closing} (h : PcOk life ofile p (.closing st k)) :
    PcOk life ofile p (.closing st' k) := by
  cases k with
  | exit fd f => exact h
  | done => exact trivial
  | iunlockput r => exact trivial
  | fileclose f => exact trivial

/-- The references after one to `f` has gone. -/
theorem perm_enter (f : FIdx) (howed : a.owed = k.owed) (htaken : a.taken = k.taken) :
    (a.owed ++ (Pc.closing (.enter f) k : Pc P).taken).Perm
      ((Pc.closing (.enter f) k : Pc P).owed ++ a.taken ++ [f]) := by
  rw [howed, htaken, List.append_assoc]
  have hswap : ([f] ++ k.taken).Perm (k.taken ++ [f]) := List.perm_append_comm
  exact hswap.append_left _

variable [Fintype P]

/-- Who reads or writes a pipe finds it there. -/
theorem FtableInv.pipe_of_io (h : FtableInv s) (hp : s.pc p = .pipeUse pr) :
    ∃ x, s.pipeAt pr = some x := by
  obtain ⟨fd, f, _, htype, hpipe⟩ := h.counts.io p pr hp
  have hheld : 0 < s.held (.pipeEnd pr (s.file f).writable) := by
    refine held_pos_of_file (g := f) ?_
    unfold File.holds
    rw [htype, hpipe]
    exact List.mem_cons_self
  obtain ⟨x, hx, _⟩ := h.ledger.pipe_of_end hheld
  exact ⟨x, hx⟩

variable [DecidableEq P]

/-- A process goes on with its call. -/
theorem FtableInv.goto (h : FtableInv s) (hp : s.pc p = b) (hlive : s.life p = .live)
    (hok : PcOk s.life s.ofile p a) (htarget : a.target = none ∨ a.target = b.target)
    (hbal : (a.owed ++ b.taken).Perm (b.owed ++ a.taken) := by exact List.Perm.refl _)
    (hfresh : a.fresh = [] := by rfl) (hholds : a.holds = b.holds := by rfl)
    (hio : a.io = none := by rfl) : FtableInv (s.goto p a) :=
  ⟨h.shape.move hp hlive rfl rfl (fun _ _ _ => rfl) hok htarget,
   h.counts.move hp rfl rfl rfl hbal hfresh hio,
   h.ledger.move hp rfl (fun _ => rfl) rfl rfl rfl rfl hholds, h.panic⟩

/-- A process changes a slot of its own. -/
theorem FtableInv.setSlot (h : FtableInv s) (hp : s.pc p = b) (hlive : s.life p = .live)
    (hold : s.ofile (p, fd) = o) (hok : PcOk s.life (update s.ofile (p, fd) v) p a)
    (htarget : a.target = none)
    (hbal : (a.owed ++ b.taken ++ o.toList).Perm (b.owed ++ a.taken ++ v.toList))
    (hfresh : a.fresh ⊆ b.fresh) (hholds : a.holds = b.holds) (hio : a.io = none) :
    FtableInv ((s.setSlot p fd v).goto p a) := by
  refine ⟨h.shape.move hp hlive rfl rfl (fun q hq fd' => ?_) hok (Or.inl htarget),
    h.counts.slot hp rfl hold rfl rfl hbal hfresh hio (fun q _ hq _ heq => hq heq.symm),
    h.ledger.move hp rfl (fun _ => rfl) rfl rfl rfl rfl hholds, h.panic⟩
  exact update_of_ne (fun heq => hq (congrArg Prod.fst heq)) _ _

omit [Fintype P] [DecidableEq P] in
/-- The count of a file goes up by `j` and down by `i`. -/
theorem count_setFile {y : File} {l l' : List FIdx} {i j : Nat}
    (hy : y.ref + i = (s.file f).ref + j)
    (hbal : (l ++ List.replicate j f).Perm (l' ++ List.replicate i f)) (g : FIdx) :
    ((s.setFile f y).file g).ref + l.count g = (s.file g).ref + l'.count g := by
  have hcount := hbal.count_eq g
  rw [List.count_append, List.count_append] at hcount
  by_cases hg : g = f
  · rw [hg] at hcount ⊢
    rw [List.count_replicate_self, List.count_replicate_self] at hcount
    rw [file_setFile_self]
    omega
  · rw [List.count_replicate, List.count_replicate, beq_false_of_ne (Ne.symm hg)] at hcount
    rw [file_setFile_of_ne s f y hg]
    exact congrArg _ hcount

section

variable (h : FtableInv s)

include h

/-- A process changes the count of a file. -/
theorem FtableInv.setFile (hp : s.pc p = b) (hlive : s.life p = .live) {n : Nat} {i j : Nat}
    (hn : n + i = (s.file f).ref + j) (hpos : 0 < n) (hok : PcOk s.life s.ofile p a)
    (htarget : a.target = none ∨ a.target = b.target)
    (hbal : (a.owed ++ b.taken ++ List.replicate j f).Perm (b.owed ++ a.taken ++ List.replicate i f))
    (hfresh : ∀ g ∈ a.fresh, (g = f ∧ n = 1 ∧ (s.file f).ref = 0) ∨ (g ≠ f ∧ g ∈ b.fresh))
    (hothers : ∀ q, q ≠ p → f ∉ (s.pc q).fresh) (hio : a.io = none) (hholds : a.holds = b.holds) :
    FtableInv ((s.setFile f { s.file f with ref := n }).goto p a) := by
  have hself := file_setFile_self s f { s.file f with ref := n }
  have hother := fun g => file_setFile_of_ne s f { s.file f with ref := n } (g := g)
  have hsame : ∀ g, ((s.setFile f { s.file f with ref := n }).file g).type = (s.file g).type ∧
      ((s.setFile f { s.file f with ref := n }).file g).pipe = (s.file g).pipe ∧
      ((s.setFile f { s.file f with ref := n }).file g).holds = (s.file g).holds := by
    intro g
    by_cases hg : g = f
    · rw [hg, hself]
      exact ⟨rfl, rfl, rfl⟩
    · rw [hother g hg]
      exact ⟨rfl, rfl, rfl⟩
  refine ⟨h.shape.move hp hlive rfl rfl (fun _ _ _ => rfl) hok htarget,
    h.counts.refile hp rfl rfl (count_setFile hn hbal) (fun g hg => ?_) (fun g hg => ?_)
      (fun q g hq hg => hother g ?_) hio (fun g => Or.inl ⟨(hsame g).1, (hsame g).2.1⟩),
    h.ledger.move hp rfl (fun g => (hsame g).2.2) rfl rfl rfl rfl hholds, h.panic⟩
  · refine (hsame g).1.trans (h.counts.free g ?_)
    have hg' : ((s.setFile f { s.file f with ref := n }).file g).ref = 0 := hg
    by_cases hgf : g = f
    · rw [hgf, hself] at hg'
      exact absurd hg' (Nat.pos_iff_ne_zero.mp hpos)
    · rw [hother g hgf] at hg'
      exact hg'
  · refine (show _ ∧ (s.file g).type = .FD_NONE from ?_).imp_right (hsame g).1.trans
    rcases hfresh g hg with ⟨rfl, hone, hzero⟩ | ⟨hgf, hmem⟩
    · exact ⟨(congrArg File.ref hself).trans hone, h.counts.free g hzero⟩
    · obtain ⟨hone, htype⟩ := h.counts.fresh p g (by rw [hp]; exact hmem)
      exact ⟨(congrArg File.ref (hother g hgf)).trans hone, htype⟩
  · rintro rfl
    exact hothers q hq hg

/-- `filealloc` finds a file. -/
theorem FtableInv.filealloc (hp : s.pc p = b) (hlive : s.life p = .live) (hf : s.freeFile = some f)
    (hok : PcOk s.life s.ofile p a) (htarget : a.target = none)
    (hbal : (a.owed ++ b.taken ++ [f]).Perm (b.owed ++ a.taken))
    (hfresh : ∀ g ∈ a.fresh, g = f ∨ g ∈ b.fresh) (hio : a.io = none) (hholds : a.holds = b.holds) :
    FtableInv ((s.filealloc f).goto p a) := by
  have hzero := freeFile_spec hf
  refine h.setFile (i := 0) (j := 1) hp hlive (by rw [hzero]) Nat.one_pos hok (Or.inl htarget)
    (by rw [List.replicate_zero, List.append_nil]; exact hbal) (fun g hg => ?_)
    (fun q _ => not_fresh_of_free h.counts hzero) hio hholds
  by_cases heq : g = f
  · exact Or.inl ⟨heq, rfl, hzero⟩
  · exact Or.inr ⟨heq, (hfresh g hg).resolve_left heq⟩

/-- `filedup` of a file that `p` refers to does not panic. -/
theorem FtableInv.filedup (hp : s.pc p = b) (hown : 0 < own s p f) (hlive : s.life p = .live)
    (hok : PcOk s.life s.ofile p a) (htarget : a.target = none ∨ a.target = b.target)
    (hbal : (a.owed ++ b.taken ++ [f]).Perm (b.owed ++ a.taken)) (hfresh : a.fresh = [])
    (hio : a.io = none) (hholds : a.holds = b.holds) : FtableInv (s.filedup p f a) := by
  have hpos := ref_pos_of_own h.shape h.counts hown
  unfold State.filedup
  rw [if_neg (by omega)]
  exact h.setFile (i := 0) (j := 1) hp hlive rfl (Nat.succ_pos _) hok htarget
    (by rw [List.replicate_zero, List.append_nil]; exact hbal)
    (fun g hg => by rw [hfresh] at hg; cases hg)
    (fun q hq => not_fresh_of_own h.shape h.counts hown hq) hio hholds

/-- The last reference to a file goes, and the call holds what the file held. -/
theorem FtableInv.release (hp : s.pc p = .closing (.enter f) k) (hone : (s.file f).ref = 1)
    (hok : PcOk s.life s.ofile p a) (htarget : a.target = none) (htaken : a.taken = k.taken)
    (howed : a.owed = k.owed) (hfresh : a.fresh = []) (hio : a.io = none)
    (hholds : a.holds = (s.file f).holds ++ k.holds) :
    FtableInv ((s.setFile f { s.file f with ref := 0, type := .FD_NONE }).goto p a) := by
  have hlive := h.shape.live (p := p) (by rw [hp]; simp)
  have hown : 0 < own s p f := own_pos_of_taken h.shape (by rw [hp]; exact List.mem_cons_self)
  have hself := file_setFile_self s f { s.file f with ref := 0, type := .FD_NONE }
  have hother := fun g => file_setFile_of_ne s f { s.file f with ref := 0, type := .FD_NONE } (g := g)
  refine ⟨h.shape.move hp hlive rfl rfl (fun _ _ _ => rfl) hok (Or.inl htarget),
    h.counts.refile hp rfl rfl
      (count_setFile (i := 1) (j := 0) hone.symm (by
        rw [List.replicate_zero, List.append_nil]
        exact perm_enter f howed htaken)) (fun g hg => ?_) (fun g hg => ?_)
      (fun q g hq hg => hother g ?_) hio (fun g => ?_),
    h.ledger.exchange hp rfl rfl rfl rfl rfl (fun e => ?_), h.panic⟩
  · show ((s.setFile f _).file g).type = .FD_NONE
    by_cases hgf : g = f
    · rw [hgf, hself]
    · rw [hother g hgf]
      refine h.counts.free g ?_
      rw [← hother g hgf]
      exact hg
  · rw [hfresh] at hg
    cases hg
  · rintro rfl
    exact not_fresh_of_own h.shape h.counts hown hq hg
  · by_cases hgf : g = f
    · rw [hgf]
      exact Or.inr (fun q hq => own_sole h.shape h.counts hone hown hq)
    · refine Or.inl ⟨congrArg File.type (hother g hgf), congrArg File.pipe (hother g hgf)⟩
  · have hfiles := sum_comp_update (fun x : File => x.holds.count e) s.file f
      { s.file f with ref := 0, type := .FD_NONE }
    have hnone : File.holds { s.file f with ref := 0, type := .FD_NONE } = [] := rfl
    rw [hnone, List.count_nil] at hfiles
    rw [hholds, List.count_append, count_holds_closing, Closing.holds, List.count_nil]
    show _ + ∑ g, (update s.file f _ g).holds.count e = _
    omega

/-- `fileclose` of a file that `p` refers to does not panic. -/
theorem FtableInv.fileclose (hp : s.pc p = .closing (.enter f) k) :
    FtableInv (s.fileclose p f k) := by
  have hlive := h.shape.live (p := p) (by rw [hp]; simp)
  have hok := h.shape.ok p
  rw [hp] at hok
  have hown : 0 < own s p f := own_pos_of_taken h.shape (by rw [hp]; exact List.mem_cons_self)
  have hpos := ref_pos_of_own h.shape h.counts hown
  unfold State.fileclose
  simp only
  rw [if_neg (by omega)]
  split
  · next hmore =>
    refine h.setFile (i := 1) (j := 0) hp hlive (by omega) hmore hok.resume
      (Or.inl (target_resume k)) ?_ (fun g hg => ?_)
      (fun q hq => not_fresh_of_own h.shape h.counts hown hq) (io_resume k) (holds_resume k)
    · rw [List.replicate_zero, List.append_nil]
      exact perm_enter f (owed_resume k) (taken_resume k)
    · rw [fresh_resume] at hg
      cases hg
  · next hlast =>
    have hone : (s.file f).ref = 1 := by omega
    split
    · next htype =>
      refine h.release hp hone hok.closing rfl rfl rfl rfl rfl ?_
      unfold File.holds
      rw [htype]
      rfl
    · next htype =>
      refine h.release hp hone hok.closing rfl rfl rfl rfl rfl ?_
      unfold File.holds
      rw [htype]
      rfl
    · next htype =>
      refine h.release hp hone hok.resume (target_resume k) (taken_resume k) (owed_resume k)
        (fresh_resume k) (io_resume k) ?_
      unfold File.holds
      rw [htype, holds_resume]
      rfl

/-- The rest of `fileclose`, which leaves files and slots alone. -/
theorem FtableInv.closed (hp : s.pc p = .closing st k) (hst : st.taken = []) (hl : LedgerInv s')
    (ha : a = State.resume k ∨ ∃ st', st'.taken = [] ∧ a = .closing st' k)
    (hpc : s'.pc = update s.pc p a) (hfile : s'.file = s.file)
    (hofile : s'.ofile = s.ofile) (hlife : s'.life = s.life) (hpanic : s'.panic = s.panic) :
    FtableInv s' := by
  have hlive := h.shape.live (p := p) (by rw [hp]; simp)
  have hok := h.shape.ok p
  rw [hp] at hok
  have hstk : (Pc.closing st k : Pc P).taken = k.taken := by
    show st.taken ++ k.taken = k.taken
    rw [hst]
    rfl
  obtain ⟨hok', htaken, howed, hfresh, htarget, hio⟩ : PcOk s.life s.ofile p a ∧
      a.taken = k.taken ∧ a.owed = k.owed ∧ a.fresh = [] ∧ a.target = none ∧ a.io = none := by
    rcases ha with rfl | ⟨st', hst', rfl⟩
    · exact ⟨hok.resume, taken_resume k, owed_resume k, fresh_resume k, target_resume k,
        io_resume k⟩
    · refine ⟨hok.closing, ?_, rfl, rfl, rfl, rfl⟩
      show st'.taken ++ k.taken = k.taken
      rw [hst']
      rfl
  refine ⟨h.shape.move hp hlive hpc hlife (fun q _ fd => by rw [hofile]) ?_ (Or.inl htarget),
    h.counts.move hp hpc hofile hfile ?_ hfresh hio, hl, hpanic.trans h.panic⟩
  · rw [hofile]
    exact hok'
  · rw [htaken, howed, hstk]
    exact List.Perm.refl _

end

omit [Fintype P] in
/-- What `pipeclose` leaves alone. -/
theorem pipeclose_frame {x : Pipe} (hx : s.pipeAt pr = some x) (p : P) (w : Bool) (k : After) :
    ∃ a : Pc P, (a = State.resume k ∨ ∃ st', st'.taken = [] ∧ a = .closing st' k) ∧
      (s.pipeclose p pr w k).pc = update s.pc p a ∧
      (s.pipeclose p pr w k).file = s.file ∧ (s.pipeclose p pr w k).ofile = s.ofile ∧
      (s.pipeclose p pr w k).life = s.life ∧ (s.pipeclose p pr w k).panic = s.panic := by
  unfold State.pipeclose
  rw [hx]
  simp only
  generalize (if w then { x with writeopen := false } else { x with readopen := false } : Pipe) = x'
  split
  · exact ⟨_, Or.inr ⟨.kfree pr, rfl, rfl⟩, rfl, rfl, rfl, rfl, rfl⟩
  · exact ⟨_, Or.inl rfl, rfl, rfl, rfl, rfl, rfl⟩

variable (h : FtableInv s)

include h

/-- A statement of `fileclose`: what it accesses is there. -/
theorem FtableInv.closeStep (hp : s.pc p = .closing st k) : FtableInv (s.closeStep p k st) := by
  cases st with
  | enter f => exact h.fileclose hp
  | pipeclose pr w =>
    obtain ⟨x, hx, _⟩ := h.ledger.pipe_of_end (held_pos_of_pc (p := p) (e := .pipeEnd pr w)
      (by rw [hp]; exact List.mem_cons_self))
    obtain ⟨a, ha, hpc, hfile, hofile, hlife, hpanic⟩ := pipeclose_frame hx p w k
    exact h.closed hp rfl (h.ledger.pipeclose hp) ha hpc hfile hofile hlife hpanic
  | kfree pr =>
    have hl := h.ledger.kfree hp
    obtain ⟨x, hx, _⟩ := h.ledger.pipe_of_page (held_pos_of_pc (p := p) (e := .page pr)
      (by rw [hp]; exact List.mem_cons_self))
    simp only [State.closeStep]
    rw [if_neg (by rw [hx]; simp)]
    exact h.closed hp rfl hl (Or.inl rfl) rfl rfl rfl rfl rfl
  | iput r => exact h.closed hp rfl (h.ledger.spendInode hp) (Or.inl rfl) rfl rfl rfl rfl rfl

/-- `sys_open` sets up its file. -/
theorem FtableInv.openSet {omode : Nat} (hp : s.pc p = .openSet r omode f fd) :
    FtableInv ((s.openSet r omode f).goto p .idle) := by
  have hlive := h.shape.live (p := p) (by rw [hp]; simp)
  have htype := (h.counts.fresh p f (by rw [hp]; exact List.mem_cons_self)).2
  obtain ⟨y, hy, href, hinode⟩ : ∃ y, s.openSet r omode f = s.setFile f y ∧
      y.ref = (s.file f).ref ∧ y.holds = [.inode r] := ⟨_, rfl, rfl, rfl⟩
  rw [hy]
  refine ⟨h.shape.move hp hlive rfl rfl (fun _ _ _ => rfl) trivial (Or.inl rfl),
    h.counts.setup h.shape hp rfl rfl (fun g => ?_) (fun g hg => ?_) (List.Perm.refl _) rfl rfl,
    h.ledger.exchange hp rfl rfl rfl rfl rfl (fun e => ?_), h.panic⟩
  · show ((s.setFile f y).file g).ref = (s.file g).ref
    by_cases hg : g = f
    · rw [hg, file_setFile_self, href]
    · rw [file_setFile_of_ne s f y hg]
  · exact file_setFile_of_ne s f y (fun heq => hg (List.mem_singleton.mpr heq))
  · have hfiles := sum_comp_update (fun x : File => x.holds.count e) s.file f y
    have hnone : (s.file f).holds = [] := by
      unfold File.holds
      rw [htype]
    rw [hnone, hinode, List.count_nil] at hfiles
    show 0 + ∑ g, (update s.file f y g).holds.count e = [Res.inode r].count e + _
    omega

/-- `pipealloc` sets up its files. -/
theorem FtableInv.pipeSet {f0 f1 : FIdx} {pg : Page} (hp : s.pc p = .pipeKalloc f0 f1)
    (hpg : s.pipe pg = none) : FtableInv ((s.pipeSet f0 f1 pg).goto p (.pipeFd0 f0 f1)) := by
  have hlive := h.shape.live (p := p) (by rw [hp]; simp)
  have hfresh : (s.pc p).fresh = [f0, f1] := by
    rw [hp]
    rfl
  obtain ⟨hone, htype0⟩ := h.counts.fresh p f0 (by rw [hfresh]; simp)
  have htype1 := (h.counts.fresh p f1 (by rw [hfresh]; simp)).2
  -- one file cannot be both ends: it would have two references
  have hne : f0 ≠ f1 := by
    intro heq
    have hown : 2 ≤ own s p f0 := by
      unfold own
      rw [hp, ← heq]
      show 2 ≤ s.slotsOf p f0 + [f0, f0].count f0 - 0
      rw [List.count_cons_self, List.count_singleton_self]
      omega
    have hle := le_sum_tally (fun q => own s q f0) p
    rw [← ref_eq_own h.shape h.counts f0, hone] at hle
    omega
  refine ⟨h.shape.move hp hlive rfl rfl (fun _ _ _ => rfl) trivial (Or.inl rfl),
    h.counts.setup h.shape hp rfl rfl (fun g => ?_) (fun g hg => ?_) (List.Perm.refl _) rfl rfl,
    h.ledger.pipeSet hne htype0 htype1 hpg hp, h.panic⟩
  · show (update (update s.file f0 _) f1 _ g).ref = _
    by_cases hg1 : g = f1
    · rw [hg1, update_self]
      show (update s.file f0 _ f1).ref = _
      rw [update_of_ne hne.symm]
    · rw [update_of_ne hg1]
      by_cases hg0 : g = f0
      · rw [hg0, update_self]
        rfl
      · rw [update_of_ne hg0]
  · have hg' : g ≠ f0 ∧ g ≠ f1 := by
      simpa [Pc.fresh] using hg
    show update (update s.file f0 _) f1 _ g = _
    rw [update_of_ne hg'.2, update_of_ne hg'.1]

/-- `fork` and `clone` get an entry of the process table. -/
theorem FtableInv.allocproc (hready : s.Ready p) (hnp : s.life np = .unused)
    (ha : a = .copyuvm np ∨ a = .fill np 0) : FtableInv ((s.setLife np .embryo).goto p a) := by
  obtain ⟨hlive, hidle⟩ := hready
  have hne : p ≠ np := by
    rintro rfl
    rw [hnp] at hlive
    cases hlive
  have hembryo : (s.setLife np .embryo).life np = .embryo := update_self _ _ _
  have hempty := h.shape.empty np (Or.inl hnp)
  have hnobody := h.shape.target_ne (q := np) (by rw [hnp]; simp)
  obtain ⟨hok, htarget, howed, htaken, hfresh, hholds, hio⟩ :
      PcOk (s.setLife np .embryo).life s.ofile p a ∧ a.target = some np ∧ a.owed = [] ∧
      a.taken = [] ∧ a.fresh = [] ∧ a.holds = [] ∧ a.io = none := by
    rcases ha with rfl | rfl
    · exact ⟨⟨hembryo, hempty⟩, rfl, rfl, rfl, rfl, rfl, rfl⟩
    · exact ⟨⟨hembryo, fun j _ => hempty j⟩, rfl, rfl, rfl, rfl, rfl, rfl⟩
  refine ⟨h.shape.change (q := np) rfl (fun r hr => ⟨update_of_ne hr _ _, fun _ => rfl⟩)
    hok (fun _ => h.shape.idle np (by rw [hnp]; simp)) (fun r _ => hnobody r) (fun hdead => ?_)
    (fun _ => hempty) (fun r np' _ hr => ?_),
    h.counts.move hidle rfl rfl rfl (by rw [howed, htaken]; exact List.Perm.refl _) hfresh hio,
    h.ledger.move hidle rfl (fun _ => rfl) rfl rfl rfl rfl hholds, h.panic⟩
  · exact absurd ((update_of_ne hne _ _).trans hlive) hdead
  · rw [htarget] at hr
    cases hr
    exact hnobody r

/-- A process is done with its call, and an entry of the process table, its own
    or the one it was filling, changes its state. -/
theorem FtableInv.setLife (hp : s.pc p = b) {q : P} {x : Life} (hlive : s.life p = .live)
    (hq : q = p ∨ b.target = some q)
    (hempty : x = .unused ∨ x = .zombie → ∀ fd, s.ofile (q, fd) = none) (howed : b.owed = [])
    (htaken : b.taken = []) (hholds : b.holds = []) : FtableInv ((s.setLife q x).goto p .idle) := by
  have hx : (s.setLife q x).life q = x := update_self _ _ _
  rw [← hp] at hq
  refine ⟨h.shape.change (q := q) rfl (fun r hr => ⟨update_of_ne hr _ _, fun _ => rfl⟩)
    trivial (fun hqp => ?_) (fun r hr hnp => ?_) (fun _ => rfl)
    (fun hdead => hempty (by rw [← hx]; exact hdead)) (fun _ _ _ hnp => by cases hnp),
    h.counts.move hp rfl rfl rfl (by rw [howed, htaken]; exact List.Perm.refl _) rfl rfl,
    h.ledger.move hp rfl (fun _ => rfl) rfl rfl rfl rfl hholds.symm, h.panic⟩
  · have hembryo := (h.shape.ok p).embryo (hq.resolve_left hqp)
    exact h.shape.idle q (by rw [hembryo]; simp)
  · rcases hq with rfl | ht
    · exact h.shape.target_ne (by rw [hlive]; simp) r hnp
    · exact hr (h.shape.target r p q hnp ht)

/-- `wait` and its variants free an entry. -/
theorem FtableInv.reap {q : P} (hzombie : s.life q = .zombie) :
    FtableInv (s.setLife q .unused) := by
  have hidle := h.shape.idle q (by rw [hzombie]; simp)
  have hpc : s.pc = update s.pc q .idle := by rw [← hidle, update_eq_self]
  exact ⟨h.shape.change (p := q) (q := q) hpc
      (fun r hr => ⟨update_of_ne hr _ _, fun _ => rfl⟩) trivial (fun _ => hidle)
      (fun r _ => h.shape.target_ne (by rw [hzombie]; simp) r) (fun _ => rfl)
      (fun _ => h.shape.empty q (Or.inr hzombie)) (fun r np _ hnp => by cases hnp),
    ⟨h.counts.count, h.counts.free, h.counts.fresh, h.counts.io⟩,
    ⟨h.ledger.balance, h.ledger.once, h.ledger.later, h.ledger.pipes⟩, h.panic⟩

/-- `np->ofile[i] = f`. -/
theorem FtableInv.fillSet {i : FD} (hp : s.pc p = .fillSet np i f) :
    FtableInv ((s.setSlot np i (some f)).goto p (.fill np (i.val + 1))) := by
  have hok := h.shape.ok p
  rw [hp] at hok
  refine ⟨h.shape.fillSet hp,
    h.counts.slot hp rfl (hok.2 i (le_refl i)) rfl rfl (List.Perm.refl _) (List.nil_subset _) rfl
      (fun q pr _ hq heq => ?_),
    h.ledger.move hp rfl (fun _ => rfl) rfl rfl rfl rfl rfl, h.panic⟩
  -- the entry that is filled is in no call
  have hidle := h.shape.idle np (by rw [hok.1]; simp)
  rw [show np = q from heq, hq] at hidle
  cases hidle

/-- **A statement** of the call that `p` is in. -/
theorem FtableInv.run (hrun : s.run p (s.pc p) = some s') : FtableInv s' := by
  have hok := h.shape.ok p
  have hlive : s.life p = .live := h.shape.live (fun hidle => by rw [hidle] at hrun; cases hrun)
  generalize hp : s.pc p = b at hrun hok
  cases b with
  | idle | pipeKalloc => cases hrun
  | pipeUse pr =>
    obtain ⟨x, hx⟩ := h.pipe_of_io hp
    simp only [State.run, hx, reduceCtorEq, if_false, Option.some.injEq] at hrun
    subst hrun
    exact h.goto hp hlive trivial (Or.inl rfl)
  | dup src fd f =>
    cases hrun
    exact h.filedup hp (own_pos_of_dup h.shape hp) hlive trivial (Or.inl rfl) (List.Perm.refl _) rfl
      rfl rfl
  | closing st k =>
    cases hrun
    exact h.closeStep hp
  | openFile _ _ | pipeFile0 =>
    simp only [State.run] at hrun
    split at hrun
    · cases hrun
      exact h.goto hp hlive trivial (Or.inl rfl)
    · next f hfree =>
      cases hrun
      exact h.filealloc hp hlive hfree trivial rfl (List.Perm.refl _)
        (fun g hg => Or.inl (List.mem_singleton.mp hg)) rfl rfl
  | openFd r omode f =>
    simp only [State.run] at hrun
    split at hrun
    · cases hrun
      exact h.goto hp hlive trivial (Or.inl rfl)
    · next fd hfree =>
      cases hrun
      exact h.setSlot hp hlive (freeSlot_spec hfree) (update_self _ _ _) rfl
        (List.Perm.refl _) (List.Subset.refl _) rfl rfl
  | openSet r omode f fd =>
    cases hrun
    exact h.openSet hp
  | pipeFile1 f0 =>
    simp only [State.run] at hrun
    split at hrun
    · cases hrun
      exact h.goto hp hlive trivial (Or.inl rfl)
    · next f1 hfree =>
      cases hrun
      refine h.filealloc hp hlive hfree trivial rfl (List.Perm.refl _) (fun g hg => ?_) rfl rfl
      rcases List.mem_cons.mp hg with hg0 | hg1
      · exact Or.inr (List.mem_singleton.mpr hg0)
      · exact Or.inl (List.mem_singleton.mp hg1)
  | pipeFd0 rf wf =>
    simp only [State.run] at hrun
    split at hrun
    · cases hrun
      exact h.goto hp hlive trivial (Or.inl rfl)
    · next fd0 hfree =>
      cases hrun
      exact h.setSlot hp hlive (freeSlot_spec hfree) (update_self _ _ _) rfl
        (List.Perm.swap _ _ _) (List.nil_subset _) rfl rfl
  | pipeFd1 rf wf fd0 =>
    simp only [State.run] at hrun
    split at hrun
    · cases hrun
      exact h.setSlot hp hlive hok trivial rfl (List.Perm.swap _ _ _) (List.nil_subset _) rfl rfl
    · next fd1 hfree =>
      cases hrun
      exact h.setSlot hp hlive (freeSlot_spec hfree) trivial rfl (List.Perm.refl _)
        (List.nil_subset _) rfl rfl
  | copyuvm np =>
    cases hrun
    exact h.goto hp hlive ⟨hok.1, fun j _ => hok.2 j⟩ (Or.inr rfl)
  | fill np i =>
    simp only [State.run] at hrun
    split at hrun
    · next hi =>
      split at hrun
      · cases hrun
        exact h.goto hp hlive ⟨hok.1, fun j hj => hok.2 j (by omega)⟩ (Or.inr rfl)
      · next f hslot =>
        cases hrun
        exact h.filedup hp (own_pos_of_slot hslot (by rw [hp]; rfl)) hlive
          ⟨hok.1, fun j hj => hok.2 j hj⟩ (Or.inr rfl) (List.Perm.refl _) rfl rfl rfl
    · cases hrun
      refine h.setLife hp hlive (Or.inr rfl) (fun hx => ?_) rfl rfl rfl
      rcases hx with hx | hx <;> cases hx
  | fillSet np i f =>
    cases hrun
    exact h.fillSet hp
  | exit i =>
    simp only [State.run] at hrun
    split at hrun
    · next hi =>
      split at hrun
      · next hslot =>
        cases hrun
        refine h.goto hp hlive (fun j hj => ?_) (Or.inl rfl)
        rcases Nat.lt_succ_iff_lt_or_eq.mp hj with hlt | heq
        · exact hok j hlt
        · rw [show j = ⟨i, hi⟩ from Fin.ext heq]
          exact hslot
      · next f hslot =>
        cases hrun
        exact h.goto hp hlive ⟨hslot, fun j hj => hok j hj⟩ (Or.inl rfl)
    · next hi =>
      cases hrun
      exact h.setLife hp hlive (Or.inl rfl)
        (fun _ fd => hok fd (Nat.lt_of_lt_of_le fd.isLt (Nat.le_of_not_lt hi))) rfl rfl rfl
  | exitClear fd f =>
    cases hrun
    refine h.setSlot hp hlive hok.1 (fun j hj => ?_) rfl (List.Perm.refl _) (List.nil_subset _) rfl
      rfl
    by_cases hjf : j = fd
    · rw [hjf, update_self]
    · rw [update_of_ne (fun heq => hjf (congrArg Prod.snd heq))]
      refine hok.2 j (Fin.lt_def.mpr ?_)
      have hne : j.val ≠ fd.val := fun heq => hjf (Fin.ext heq)
      omega

/-- The invariant is kept by every step. -/
theorem FtableInv.step {l : Label P} (hst : next s l = some s') : FtableInv s' := by
  unfold next at hst
  rw [if_neg (by rw [h.panic]; simp)] at hst
  cases l with
  | dup p fd =>
    obtain ⟨⟨hlive, hidle⟩, hst⟩ := Option.ite_none_right_eq_some.mp hst
    split at hst
    · next f fd' hslot hfree =>
      cases hst
      have hnone := freeSlot_spec hfree
      have hne : fd ≠ fd' := by
        intro heq
        rw [heq, hnone] at hslot
        cases hslot
      have hsrc : update s.ofile (p, fd') (some f) (p, fd) = some f := by
        rw [update_of_ne (fun heq => hne (congrArg Prod.snd heq))]
        exact hslot
      exact h.setSlot hidle hlive hnone ⟨hne, hsrc, update_self _ _ _⟩ rfl
        (List.Perm.refl _) (List.nil_subset _) rfl rfl
    · cases hst
      exact h
  | close p fd =>
    obtain ⟨⟨hlive, hidle⟩, hst⟩ := Option.ite_none_right_eq_some.mp hst
    split at hst
    · next f hslot =>
      cases hst
      exact h.setSlot hidle hlive hslot trivial rfl (List.Perm.refl _) (List.nil_subset _) rfl rfl
    · cases hst
      exact h
  | «open» p ip isDir omode =>
    obtain ⟨⟨hlive, hidle⟩, hst⟩ := Option.ite_none_right_eq_some.mp hst
    have hopen : ∀ a : Pc P, a = .closing (.iput ⟨ip, s.serial⟩) .done ∨
        a = .openFile ⟨ip, s.serial⟩ omode →
        FtableInv ({ s.issue (.inode ⟨ip, s.serial⟩) with serial := s.serial + 1 }.goto p a) := by
      intro a ha
      obtain ⟨hok, htarget, howed, htaken, hfresh, hholds, hio⟩ :
          PcOk s.life s.ofile p a ∧ a.target = none ∧ a.owed = [] ∧ a.taken = [] ∧
          a.fresh = [] ∧ a.holds = [.inode ⟨ip, s.serial⟩] ∧ a.io = none := by
        rcases ha with rfl | rfl
        · exact ⟨trivial, rfl, rfl, rfl, rfl, rfl, rfl⟩
        · exact ⟨trivial, rfl, rfl, rfl, rfl, rfl, rfl⟩
      exact ⟨h.shape.move hidle hlive rfl rfl (fun _ _ _ => rfl) hok (Or.inl htarget),
        h.counts.move hidle rfl rfl rfl (by rw [howed, htaken]; exact List.Perm.refl _) hfresh hio,
        h.ledger.issueInode rfl hidle hholds, h.panic⟩
    split at hst
    · cases hst
      exact hopen _ (Or.inl rfl)
    · cases hst
      exact hopen _ (Or.inr rfl)
  | pipe p =>
    obtain ⟨⟨hlive, hidle⟩, rfl⟩ := of_guard hst
    exact h.goto hidle hlive trivial (Or.inl rfl)
  | fork p np =>
    obtain ⟨⟨hready, hnp⟩, rfl⟩ := of_guard hst
    exact h.allocproc hready hnp (Or.inl rfl)
  | clone p np =>
    obtain ⟨⟨hready, hnp⟩, rfl⟩ := of_guard hst
    exact h.allocproc hready hnp (Or.inr rfl)
  | exec p =>
    obtain ⟨_, rfl⟩ := of_guard hst
    exact h
  | exit p =>
    obtain ⟨⟨hlive, hidle⟩, rfl⟩ := of_guard hst
    exact h.goto hidle hlive (fun j hj => absurd hj (Nat.not_lt_zero _)) (Or.inl rfl)
  | reap q =>
    obtain ⟨hzombie, rfl⟩ := of_guard hst
    exact h.reap hzombie
  | pipeUse p fd =>
    obtain ⟨⟨hlive, hidle⟩, hst⟩ := Option.ite_none_right_eq_some.mp hst
    split at hst
    · next f hslot =>
      obtain ⟨htype, rfl⟩ := of_guard hst
      have hcounts : CountInv (s.goto p (.pipeUse (s.file f).pipe)) := by
        refine h.counts.change (v := s.ofile (p, fd)) hidle rfl rfl
          (update_eq_self _ _).symm (fun _ => rfl) h.counts.free
          (fun _ hf => by cases hf) (fun _ _ _ _ => rfl) (fun pr hpr => ?_)
          (fun q _ hq _ heq => hq heq.symm) (fun _ => Or.inl ⟨rfl, rfl⟩)
        cases hpr
        exact ⟨fd, f, hslot, htype, rfl⟩
      exact ⟨h.shape.move hidle hlive rfl rfl (fun _ _ _ => rfl) trivial (Or.inl rfl), hcounts,
        h.ledger.move hidle rfl (fun _ => rfl) rfl rfl rfl rfl rfl, h.panic⟩
    · cases hst
      exact h
  | run p => exact h.run hst
  | kalloc p pg =>
    simp only at hst
    split at hst
    · next f0 f1 hp =>
      obtain ⟨hpg, rfl⟩ := of_guard hst
      exact h.pipeSet hp hpg
    · cases hst
  | noMemory p =>
    simp only at hst
    split at hst
    · next f0 f1 hp =>
      cases hst
      exact h.goto hp (h.shape.live (by rw [hp]; simp)) trivial (Or.inl rfl)
    · next np hp =>
      cases hst
      have hok := h.shape.ok p
      rw [hp] at hok
      exact h.setLife hp (h.shape.live (by rw [hp]; simp)) (Or.inr rfl) (fun _ => hok.2) rfl rfl rfl
    · cases hst

end steps

/-! ### Open files -/

section results

variable [Fintype P] {s : State P}

theorem ftableInv_init (h : Init s) : FtableInv s := by
  have hpc : ∀ {p a}, s.pc p = a → a = .idle := fun {p a} hp => hp.symm.trans (h.pc p)
  have hnone : ∀ f, (s.file f).holds = [] := by
    intro f
    unfold File.holds
    rw [h.type f]
  have hheld : ∀ e, s.held e = 0 := by
    intro e
    unfold State.held
    rw [Finset.sum_eq_zero (fun p _ => by rw [h.pc p]; rfl),
      Finset.sum_eq_zero (fun f _ => by rw [hnone f]; rfl), Nat.add_zero]
  constructor
  · exact {
      ok := fun p => by rw [h.pc p]; exact trivial
      idle := fun p _ => h.pc p
      empty := fun p _ fd => h.ofile (p, fd)
      target := fun p q np hp => by rw [h.pc p] at hp; cases hp }
  · exact {
      count := fun f => by
        unfold State.owed State.slots State.taken
        rw [h.ref f, Finset.sum_eq_zero (fun p _ => by rw [h.pc p]; rfl),
          Finset.sum_eq_zero (fun x _ => by rw [h.ofile x]; rfl),
          Finset.sum_eq_zero (fun p _ => by rw [h.pc p]; rfl)]
      free := fun f _ => h.type f
      fresh := fun p f hf => by rw [h.pc p] at hf; cases hf
      io := fun p pr hp => absurd (hpc hp) (by simp) }
  · exact {
      balance := fun e => by rw [hheld, h.issued, h.spent]
      once := fun e => by rw [h.issued]; exact Nat.zero_le 1
      later := fun e _ => h.issued e
      pipes := fun pr => by
        have hat : s.pipeAt pr = none := by
          unfold State.pipeAt
          rw [h.pipe]
        unfold PipeOk
        rw [hat]
        exact ⟨0, Nat.zero_le 1, fun w => ⟨h.issued _, h.spent _⟩, h.issued _, h.spent _⟩ }
  · exact h.panic

/-- No process is in a call that changes the open files. -/
def Boundary (s : State P) : Prop :=
  ∀ p, s.pc p = .idle ∨ ∃ pr, s.pc p = .pipeUse pr

/-- The file is in some slot. -/
def IsOpen (s : State P) (f : FIdx) : Prop :=
  ∃ x, s.ofile x = some f

theorem ref_eq_slots (h : FtableInv s) (hb : Boundary s) (f : FIdx) :
    (s.file f).ref = s.slots f := by
  have hcount := h.counts.count f
  have howed : s.owed f = 0 := by
    refine Finset.sum_eq_zero (fun p _ => ?_)
    rcases hb p with hp | ⟨pr, hp⟩ <;> rw [hp] <;> rfl
  have htaken : s.taken f = 0 := by
    refine Finset.sum_eq_zero (fun p _ => ?_)
    rcases hb p with hp | ⟨pr, hp⟩ <;> rw [hp] <;> rfl
  omega

theorem isOpen_of_type (h : FtableInv s) (hb : Boundary s) {f : FIdx}
    (hf : (s.file f).type ≠ .FD_NONE) : IsOpen s f := by
  have hne : (s.file f).ref ≠ 0 := fun hz => hf (h.counts.free f hz)
  rw [ref_eq_slots h hb f] at hne
  by_contra hclosed
  refine hne (Finset.sum_eq_zero (fun x _ => if_neg (fun hx => hclosed ⟨x, hx⟩)))

/-- Between the calls, what was handed out and not given back is in an open
    file. -/
theorem outstanding_iff (h : FtableInv s) (hb : Boundary s) (he : s.issued e = 1) :
    s.spent e = 0 ↔ ∃ f, IsOpen s f ∧ e ∈ (s.file f).holds := by
  have hbal := h.ledger.balance e
  have hpcs : ∑ p, (s.pc p).holds.count e = 0 := by
    refine Finset.sum_eq_zero (fun p _ => ?_)
    rcases hb p with hp | ⟨pr, hp⟩ <;> rw [hp] <;> rfl
  constructor
  · intro hz
    by_contra hno
    push Not at hno
    have hfiles : ∑ f, (s.file f).holds.count e = 0 := by
      refine Finset.sum_eq_zero (fun f _ => List.count_eq_zero.mpr (fun hmem => ?_))
      refine hno f (isOpen_of_type h hb (fun htype => ?_)) hmem
      unfold File.holds at hmem
      rw [htype] at hmem
      cases hmem
    unfold State.held at hbal
    omega
  · rintro ⟨f, _, hmem⟩
    have hpos := held_pos_of_file (s := s) hmem
    omega

/-- Between the calls, the page of a pipe is gone exactly when both of its ends
    were given back. -/
theorem page_spent_iff (h : FtableInv s) (hb : Boundary s)
    (hpr : s.issued (.pipeEnd pr false) = 1) :
    s.spent (.page pr) = 1 ↔
      s.spent (.pipeEnd pr false) = 1 ∧ s.spent (.pipeEnd pr true) = 1 := by
  have hok := h.ledger.pipes pr
  unfold PipeOk at hok
  cases hx : s.pipeAt pr with
  | none =>
    rw [hx] at hok
    obtain ⟨n, _, hends, _, hs⟩ := hok
    have hn : n = 1 := (hends false).1.symm.trans hpr
    rw [hs, (hends false).2, (hends true).2, hn]
    simp
  | some x =>
    rw [hx] at hok
    obtain ⟨hends, hissued, hspent⟩ := hok
    -- nobody has the page to free it, so an end is open
    have hpcs : ∑ p, (s.pc p).holds.count (.page pr) = 0 := by
      refine Finset.sum_eq_zero (fun p _ => ?_)
      rcases hb p with hp | ⟨pr', hp⟩ <;> rw [hp] <;> rfl
    have hfiles : ∑ f, (s.file f).holds.count (.page pr) = 0 := by
      refine Finset.sum_eq_zero (fun f _ => List.count_eq_zero.mpr (fun hmem => ?_))
      unfold File.holds at hmem
      split at hmem <;> simp at hmem
    have hbal := h.ledger.balance (.page pr)
    have hnone : s.issued (.page pr) = 0 := by
      unfold State.held at hbal
      omega
    have hopen : ¬ (x.readopen = false ∧ x.writeopen = false) := by
      intro hboth
      rw [hissued, if_pos hboth] at hnone
      cases hnone
    rw [hspent]
    refine iff_of_false (by simp) (fun hboth => hopen ?_)
    rw [(hends false).2, (hends true).2] at hboth
    refine ⟨?_, ?_⟩
    · by_contra hread
      rw [if_pos (show x.isOpen false = true from (Bool.not_eq_false _).mp hread)] at hboth
      exact absurd hboth.1 (by simp)
    · by_contra hwrite
      rw [if_pos (show x.isOpen true = true from (Bool.not_eq_false _).mp hwrite)] at hboth
      exact absurd hboth.2 (by simp)

/-- What was given back is held by nobody. -/
theorem LedgerInv.spent_le (h : LedgerInv s) (e : Res) : s.spent e ≤ s.issued e ∧ s.issued e ≤ 1 := by
  have hbal := h.balance e
  exact ⟨by omega, h.once e⟩

/-- While the pipe is there, its page was not freed. -/
theorem LedgerInv.page_kept (h : LedgerInv s) {x : Pipe} (hx : s.pipeAt pr = some x) :
    s.spent (.page pr) = 0 := by
  have hok := h.pipes pr
  unfold PipeOk at hok
  rw [hx] at hok
  exact hok.2.2

end results

section reachable

variable [DecidableEq P] [Fintype P] {s : State P}

theorem ftableInv_reachable (h : Reachable (ftable P) s) : FtableInv s := by
  induction h with
  | init h0 => exact ftableInv_init h0
  | step l _ hst ih => exact ih.step hst

/-- **Open files**. `filedup` and `fileclose` do not panic, and no pipe is used
    once its page was freed. Between the calls `ref` is the number of slots
    that hold the file. The reference to an inode that an `open` obtained is
    released at most once, and between the calls it has been released exactly
    if its file is in no slot any more; the page of a pipe is freed at most
    once, and between the calls it has been freed exactly if neither end is
    in a slot any more. -/
theorem open_files (h : Reachable (ftable P) s) :
    s.panic = none ∧
    (∀ p pr, (s.pc p = .pipeUse pr ∨ ∃ w k, s.pc p = .closing (.pipeclose pr w) k) →
      s.spent (.page pr) = 0) ∧
    (Boundary s → ∀ f, (s.file f).ref =
      (Finset.univ.filter (fun x : P × FD => s.ofile x = some f)).card) ∧
    (∀ e, s.spent e ≤ s.issued e ∧ s.issued e ≤ 1) ∧
    (Boundary s → ∀ r, s.issued (.inode r) = 1 → (s.spent (.inode r) = 1 ↔
      ¬ ∃ f, IsOpen s f ∧ (s.file f).type = .FD_INODE ∧ (s.file f).ip = r)) ∧
    (Boundary s → ∀ pr, s.issued (.pipeEnd pr false) = 1 → (s.spent (.page pr) = 1 ↔
      ¬ ∃ f, IsOpen s f ∧ (s.file f).type = .FD_PIPE ∧ (s.file f).pipe = pr)) := by
  have hinv := ftableInv_reachable h
  refine ⟨hinv.panic, fun p pr hp => ?_, fun hb f => ?_, hinv.ledger.spent_le,
    fun hb r hr => ?_, fun hb pr hpr => ?_⟩
  · rcases hp with hio | ⟨w, k, hclose⟩
    · obtain ⟨x, hx⟩ := hinv.pipe_of_io hio
      exact hinv.ledger.page_kept hx
    · obtain ⟨x, hx, _⟩ := hinv.ledger.pipe_of_end (held_pos_of_pc (p := p) (e := .pipeEnd pr w)
        (by rw [hclose]; exact List.mem_cons_self))
      exact hinv.ledger.page_kept hx
  · rw [ref_eq_slots hinv hb f, slots_eq_card]
  · have hle := hinv.ledger.spent_le (.inode r)
    have hone : s.spent (.inode r) = 1 ↔ ¬ s.spent (.inode r) = 0 := by omega
    rw [hone, outstanding_iff hinv hb hr]
    refine not_congr (exists_congr (fun f => and_congr_right (fun _ => ?_)))
    unfold File.holds
    cases (s.file f).type <;> simp [eq_comm]
  · have hok := hinv.ledger.pipes pr
    have hends : ∀ w, s.issued (.pipeEnd pr w) = 1 := by
      intro w
      unfold PipeOk at hok
      cases hx : s.pipeAt pr with
      | none =>
        rw [hx] at hok
        obtain ⟨n, _, hn, _⟩ := hok
        rw [(hn w).1, ← (hn false).1, hpr]
      | some x =>
        rw [hx] at hok
        exact (hok.1 w).1
    have hone : ∀ w, s.spent (.pipeEnd pr w) = 1 ↔
        ¬ ∃ f, IsOpen s f ∧ Res.pipeEnd pr w ∈ (s.file f).holds := by
      intro w
      have hle := hinv.ledger.spent_le (.pipeEnd pr w)
      rw [← outstanding_iff hinv hb (hends w)]
      omega
    have hmem : ∀ f w, Res.pipeEnd pr w ∈ (s.file f).holds ↔
        (s.file f).type = .FD_PIPE ∧ (s.file f).pipe = pr ∧ (s.file f).writable = w := by
      intro f w
      unfold File.holds
      cases (s.file f).type <;> simp [eq_comm]
    rw [page_spent_iff hinv hb hpr, hone, hone, ← not_or]
    refine not_congr ⟨?_, ?_⟩
    · rintro (⟨f, hopen, hf⟩ | ⟨f, hopen, hf⟩)
      · exact ⟨f, hopen, ((hmem f false).mp hf).1, ((hmem f false).mp hf).2.1⟩
      · exact ⟨f, hopen, ((hmem f true).mp hf).1, ((hmem f true).mp hf).2.1⟩
    · rintro ⟨f, hopen, htype, hpipe⟩
      cases hw : (s.file f).writable with
      | false => exact Or.inl ⟨f, hopen, (hmem f false).mpr ⟨htype, hpipe, hw⟩⟩
      | true => exact Or.inr ⟨f, hopen, (hmem f true).mpr ⟨htype, hpipe, hw⟩⟩

end reachable

/-! ### A pipe between a process and its child -/

/-- Process 0 runs, and entry 1 is free. -/
def boot : State (Fin 2) where
  file := fun _ => ⟨.FD_NONE, 0, false, false, ⟨0, 0⟩, ⟨Icache.slot, 0⟩⟩
  ofile := fun _ => none
  life := fun p => if p = 0 then .live else .unused
  pc := fun _ => .idle
  pipe := fun _ => none
  panic := none
  serial := 0
  issued := fun _ => 0
  spent := fun _ => 0

/-- Process 0 opens a file, makes a pipe and forks; the child exits, and then
    the parent closes the two ends of the pipe. -/
def pipeRun : List (Label (Fin 2)) :=
  [.open 0 Icache.slot false O_RDWR] ++ List.replicate 3 (.run 0) ++
  [.pipe 0, .run 0, .run 0, .kalloc 0 5, .run 0, .run 0, .fork 0 1] ++
  List.replicate 21 (.run 0) ++ [.exit 1] ++ List.replicate 23 (.run 1) ++
  [.close 0 ⟨1, by decide⟩, .run 0, .run 0, .close 0 ⟨2, by decide⟩, .run 0, .run 0, .run 0]

theorem open_files_pipeRun :
    ∃ s, Reachable (ftable (Fin 2)) s ∧ Boundary s ∧
      (s.file ⟨0, by decide⟩).ref = 1 ∧ s.spent (.page ⟨5, 1⟩) = 1 ∧
      (s.file ⟨0, by decide⟩).ref =
        (Finset.univ.filter (fun x : Fin 2 × FD => s.ofile x = some ⟨0, by decide⟩)).card ∧
      ¬ ∃ f, IsOpen s f ∧ (s.file f).type = .FD_PIPE ∧ (s.file f).pipe = ⟨5, 1⟩ := by
  have hrun : (pipeRun.foldlM next boot).any (fun s => decide ((∀ p, s.pc p = .idle) ∧
      (s.file ⟨0, by decide⟩).ref = 1 ∧ s.issued (.pipeEnd ⟨5, 1⟩ false) = 1 ∧
      s.spent (.page ⟨5, 1⟩) = 1)) = true := by
    decide +kernel
  obtain ⟨s, hs, hp⟩ := (Option.any_eq_true _ _).mp hrun
  obtain ⟨hidle, href, hissued, hspent⟩ := of_decide_eq_true hp
  have hinit : Init boot := by
    refine ⟨fun _ => rfl, fun _ => rfl, fun _ => rfl, fun p => ?_, fun _ => rfl, fun _ => rfl, rfl,
      fun _ => rfl, fun _ => rfl⟩
    by_cases hp : p = 0
    · exact Or.inr (if_pos hp)
    · exact Or.inl (if_neg hp)
  have hreach : Reachable (ftable (Fin 2)) s :=
    Reachable.foldlM (fun _ _ _ h => h) pipeRun (.init hinit) hs
  have hb : Boundary s := fun p => Or.inl (hidle p)
  obtain ⟨_, _, hcount, _, _, hpages⟩ := open_files hreach
  exact ⟨s, hreach, hb, href, hspent, hcount hb _, (hpages hb _ hissued).mp hspent⟩

end Xv6.Ftable
