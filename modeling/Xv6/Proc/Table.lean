import Xv6.Params
import Xv6.Framework.ArrayQueue
import Mathlib.Data.Fin.Basic

/-! # The Process Table

    `proc.c` in the MLFQ build: the process table, the five run queues, and
    the pieces of code that run with `ptable.lock` held (or, for an entry
    in state `EMBRYO`, by the only process that knows about it).

    Memory is not modelled here. Where the code calls `kalloc`, `copyuvm`,
    `allocuvm` or `exec`'s loader, the function takes what the call returned
    as an argument, so everything proved about this table holds whatever
    the page allocator does.

    A process that is in the middle of a system call keeps a `Kont` that
    says where. `wait`, `waitx` and `join` go on with another scan of the
    table when they are woken.
-/

namespace Xv6.Process

/-! ### Types -/

/-- An index into `ptable.proc`, for a `struct proc *`. -/
abbrev PIdx : Type := Fin NPROC

/-- `enum procstate`. -/
inductive ProcState where
  | UNUSED | EMBRYO | SLEEPING | RUNNABLE | RUNNING | ZOMBIE
  deriving DecidableEq, Repr

/-- What a process sleeps on: `wait` and its variants use the process
    itself, `sys_sleep` uses `&ticks`, the rest of the kernel other addresses. -/
inductive Chan where
  | proc (p : PIdx)
  | ticks
  | other (addr : Nat)
  deriving DecidableEq, Repr

/-- The registers of `struct trapframe` that `proc.c` and `exec.c` set. -/
structure TrapFrame where
  eax : Word
  ebp : Word
  esp : Word
  eip : Word
  deriving DecidableEq

/-- `struct proc`. The `int` times are words, subtracted modulo `2^32`. -/
structure Proc where
  sz : Nat
  pgdir : Option Page
  kstack : Option Page
  tstack : Word
  state : ProcState
  pid : Nat
  tgid : Nat
  parent : Option PIdx
  tf : TrapFrame
  chan : Option Chan
  killed : Bool
  iotime : Word
  rtime : Word
  ctime : Word
  etime : Word
  qticks : Int → Word
  queue : Int
  curr_ticks : Word
  change_q : Bool
  enter : Word

/-- The arguments of `clone`. -/
structure CloneArgs where
  function : Word
  arg : Word
  stack : Word
  deriving DecidableEq

/-- Where a process is inside a system call that is not one critical
    section. `run` is everything else, user code included. -/
inductive Kont where
  | run
  /-- `fork`, in `allocproc`, before `kalloc`. -/
  | forkAlloc (np : PIdx)
  /-- `fork`, before `copyuvm`. -/
  | forkCopy (np : PIdx)
  /-- `fork`, before the child becomes `RUNNABLE`. -/
  | forkPublish (np : PIdx)
  /-- `clone`, in `allocproc`, before `kalloc`. -/
  | cloneAlloc (np : PIdx) (args : CloneArgs)
  /-- `clone`, before the thread's entry is filled in. -/
  | cloneFill (np : PIdx) (args : CloneArgs)
  /-- `clone`, before the thread becomes `RUNNABLE`. -/
  | clonePublish (np : PIdx)
  | waiting
  | waitingx
  | joining (tid : Int)
  /-- `exec`, before it commits to the new image. -/
  | execBuilt (img : ExecImage)
  deriving DecidableEq

/-- The entry a `fork` or `clone` in progress is setting up. -/
def Kont.child : Kont → Option PIdx
  | .forkAlloc np | .forkCopy np | .forkPublish np
  | .cloneAlloc np _ | .cloneFill np _ | .clonePublish np => some np
  | _ => none

/-- The process table, the run queues (`queue` and `q_tail`), the counters
    and the CPUs. `oob` records that an array indexed by a level, or one of
    the queues, has been indexed out of its bounds. `inTimer p` holds
    between the `change_q_flag` and the `yield` of a timer interrupt. -/
structure Table where
  proc : PIdx → Proc
  queue : Int → ArrayQueue PIdx
  oob : Bool
  initproc : Option PIdx
  nextpid : Nat
  nexttgid : Nat
  ticks : Word
  cpu : Fin NCPU → Option PIdx
  kont : PIdx → Kont
  inTimer : PIdx → Bool

namespace Table

/-- Change one entry of the table. -/
def modify (t : Table) (p : PIdx) (f : Proc → Proc) : Table :=
  { t with proc := Function.update t.proc p (f (t.proc p)) }

/-- Set where a process is in the kernel. -/
def goto (t : Table) (p : PIdx) (k : Kont) : Table :=
  { t with kont := Function.update t.kont p k }

/-- `c->proc = 0` on the CPU that runs `p`. -/
def offCpu (t : Table) (p : PIdx) : Table :=
  { t with cpu := fun k => if t.cpu k = some p then none else t.cpu k }

/-! ### Run queues -/

/-- The levels of the feedback queue. -/
def validLevel (i : Int) : Prop := 0 ≤ i ∧ i < 5

instance (i : Int) : Decidable (validLevel i) := inferInstanceAs (Decidable (_ ∧ _))

def add_proc_to_q (t : Table) (p : PIdx) (q_no : Int) : Table × Int :=
  if (t.queue q_no).anyBeforeTail (fun x => (t.proc p).pid = (t.proc x).pid) then
    ({ t with oob := t.oob || !decide (validLevel q_no) }, -1)
  else
    let t := t.modify p (fun pr => { pr with enter := t.ticks, queue := q_no })
    ({ t with
        queue := Function.update t.queue q_no ((t.queue q_no).push p)
        oob := t.oob || !decide (validLevel q_no ∧ (t.queue q_no).tail + 1 < NPROC) }, 1)

def remove_proc_from_q (t : Table) (p : PIdx) (q_no : Int) : Table × Int :=
  match (t.queue q_no).removeFirst (fun x => (t.proc x).pid = (t.proc p).pid) with
  | none => ({ t with oob := t.oob || !decide (validLevel q_no) }, -1)
  | some q =>
    ({ t with
        queue := Function.update t.queue q_no q
        oob := t.oob || !decide (validLevel q_no) }, 1)

/-- Make a process `RUNNABLE` and enqueue it at its level, as `wakeup1` and
    `kill` do. -/
def enqueueWoken (t : Table) (p : PIdx) : Table :=
  let t := t.modify p (fun pr => { pr with state := .RUNNABLE, curr_ticks := 0 })
  (t.add_proc_to_q p (t.proc p).queue).1

/-! ### `sleep`, `wakeup` and `kill` -/

/-- The body of the loop of `wakeup1`. -/
def wakeupOne (chan : Option Chan) (t : Table) (p : PIdx) : Table :=
  if (t.proc p).state = .SLEEPING ∧ (t.proc p).chan = chan then t.enqueueWoken p else t

def wakeup1 (t : Table) (chan : Option Chan) : Table :=
  (List.finRange NPROC).foldl (wakeupOne chan) t

/-- `sleep`, up to the switch to the scheduler, which finds a process that
    is not `RUNNABLE` and only clears `c->proc`. -/
def sleep (t : Table) (c : PIdx) (chan : Chan) : Table :=
  (t.modify c (fun pr => { pr with chan := some chan, state := .SLEEPING })).offCpu c

def kill (t : Table) (pid : Int) : Table × Int :=
  match (List.finRange NPROC).find? (fun p => ((t.proc p).pid : Int) = pid) with
  | none => (t, -1)
  | some p =>
    let t := t.modify p (fun pr => { pr with killed := true })
    if (t.proc p).state = .SLEEPING then (t.enqueueWoken p, 0) else (t, 0)

/-! ### `switchuvm` -/

/-- The checks of `switchuvm`. -/
def switchuvm (p : Proc) : Except Panic Unit :=
  if p.kstack = none then .error .switchuvmNoKstack
  else if p.pgdir = none then .error .switchuvmNoPgdir
  else .ok ()

/-! ### `allocproc` and `userinit` -/

/-- The entry `allocproc` takes. -/
def findUnused (t : Table) : Option PIdx :=
  (List.finRange NPROC).find? (fun p => (t.proc p).state = .UNUSED)

/-- `allocproc`, the critical section that takes entry `p`. -/
def takeEntry (t : Table) (p : PIdx) : Table :=
  { t.modify p (fun pr =>
      { pr with state := .EMBRYO, pid := t.nextpid, tgid := t.nexttgid }) with
    nextpid := t.nextpid + 1
    nexttgid := t.nexttgid + 1 }

/-- `allocproc` after its critical section; `kstack` is what `kalloc`
    returned. -/
def initEntry (t : Table) (p : PIdx) (kstack : Option Page) : Table :=
  match kstack with
  | none => t.modify p (fun pr => { pr with kstack := none, state := .UNUSED })
  | some _ =>
    t.modify p (fun pr =>
      { pr with
        kstack := kstack
        ctime := t.ticks
        etime := 0
        rtime := 0
        iotime := 0
        curr_ticks := 0
        queue := 0
        enter := 0
        qticks := fun _ => 0 })

/-- `np->state = RUNNABLE; add_proc_to_q(np, 0);` -/
def publish (t : Table) (np : PIdx) : Table :=
  ((t.modify np (fun pr => { pr with state := .RUNNABLE })).add_proc_to_q np 0).1

/-- `userinit`, which runs before the scheduler does; `kstack` and `pgdir`
    are what `kalloc` and `setupkvm` returned. -/
def userinit (t : Table) (p : PIdx) (kstack pgdir : Page) : Table :=
  let t := (t.takeEntry p).initEntry p (some kstack)
  let t := { t with initproc := some p }
  let t := t.modify p (fun pr =>
    { pr with pgdir := some pgdir, sz := PGSIZE, tf := ⟨0, 0, PGSIZE, 0⟩ })
  t.publish p

/-! ### `fork` and `clone` -/

/-- `fork` from the return of `copyuvm` to the copied trap frame. -/
def forkFill (t : Table) (c np : PIdx) (pgdir : Option Page) : Table :=
  match pgdir with
  | none => t.modify np (fun pr =>
      { pr with pgdir := none, kstack := none, state := .UNUSED })
  | some _ => t.modify np (fun pr =>
      { pr with
        pgdir := pgdir
        sz := (t.proc c).sz
        parent := some c
        tf := { (t.proc c).tf with eax := 0 } })

/-- `clone` from the return of `allocproc` to the new trap frame. -/
def cloneFill (t : Table) (c np : PIdx) (args : CloneArgs) : Table :=
  let sp := args.stack + PGSIZE - 8
  t.modify np (fun pr =>
    { pr with
      sz := (t.proc c).sz
      pgdir := (t.proc c).pgdir
      parent := some c
      tgid := (t.proc c).tgid
      tf := ⟨0, sp, sp, args.function⟩
      tstack := args.stack })

/-! ### `exit` -/

/-- The body of the loop of `exit` that passes children to `initproc`. -/
def reparentOne (c : PIdx) (t : Table) (p : PIdx) : Table :=
  if (t.proc p).parent = some c then
    let t := t.modify p (fun pr => { pr with parent := t.initproc })
    if (t.proc p).state = .ZOMBIE then t.wakeup1 (t.initproc.map Chan.proc) else t
  else t

/-- `wakeup1(curproc->parent)` and the loop that passes children on. -/
def abandonChildren (t : Table) (c : PIdx) : Table :=
  (List.finRange NPROC).foldl (reparentOne c)
    (t.wakeup1 ((t.proc c).parent.map Chan.proc))

/-- The critical section of `exit`, up to the switch to the scheduler. -/
def exit (t : Table) (c : PIdx) : Except Panic Table :=
  if t.initproc = some c then .error .initExiting
  else
    .ok (((t.abandonChildren c).modify c
      (fun pr => { pr with state := .ZOMBIE, etime := t.ticks })).offCpu c)

/-! ### `wait`, `waitx` and `join` -/

/-- How one pass over the table ends. -/
inductive WaitResult where
  /-- The call returns the pid of the entry it freed. -/
  | reaped (z : PIdx) (pid : Nat)
  /-- The call returns `-1`. -/
  | failed
  /-- The caller sleeps on itself. -/
  | sleeps
  deriving DecidableEq

/-- One pass of `wait`, `waitx` or `join` by `c` over the table: entries
    that do not match are skipped, the first `ZOMBIE` that matches is freed
    by `reap`. -/
def scan (t : Table) (c : PIdx) (isMatch : Proc → Bool) (reap : Table → PIdx → Table) :
    WaitResult × Table :=
  match (List.finRange NPROC).find?
      (fun p => isMatch (t.proc p) && (t.proc p).state = .ZOMBIE) with
  | some z => (.reaped z (t.proc z).pid, reap t z)
  | none =>
    let havekids := (List.finRange NPROC).any (fun p => isMatch (t.proc p))
    if !havekids || (t.proc c).killed then (.failed, t)
    else (.sleeps, t.sleep c (.proc c))

/-- `remove_proc_from_q(p, p->queue); p->queue = -1;` -/
def dropFromQueue (t : Table) (z : PIdx) : Table :=
  (t.remove_proc_from_q z (t.proc z).queue).1.modify z (fun pr => { pr with queue := -1 })

/-- What `wait` does to the entry it frees. -/
def waitReap (t : Table) (z : PIdx) : Table :=
  let t := t.modify z (fun pr => { pr with kstack := none })
  t.dropFromQueue z |>.modify z (fun pr =>
    { pr with pid := 0, tgid := 0, parent := none, killed := false, state := .UNUSED })

/-- What `waitx` does to the entry it frees: `tgid` stays. -/
def waitxReap (t : Table) (z : PIdx) : Table :=
  let t := t.modify z (fun pr => { pr with kstack := none })
  t.dropFromQueue z |>.modify z (fun pr =>
    { pr with pid := 0, parent := none, killed := false, state := .UNUSED })

/-- What `join` does to the entry it frees: the queues, `queue` and `tgid`
    are left alone. -/
def joinReap (t : Table) (z : PIdx) : Table :=
  t.modify z (fun pr =>
    { pr with
      kstack := none
      tstack := 0
      pid := 0
      parent := none
      killed := false
      state := .UNUSED })

/-- `wait` takes an entry for a child when the parent *or* the page
    directory is the caller's. -/
def waitMatch (t : Table) (c : PIdx) (p : Proc) : Bool :=
  p.parent = some c || p.pgdir = (t.proc c).pgdir

def waitxMatch (c : PIdx) (p : Proc) : Bool := p.parent = some c

def joinMatch (t : Table) (c : PIdx) (tid : Int) (p : Proc) : Bool :=
  p.parent = some c && p.pgdir = (t.proc c).pgdir && (p.pid : Int) = tid

def wait (t : Table) (c : PIdx) : WaitResult × Table :=
  t.scan c (t.waitMatch c) waitReap

def waitx (t : Table) (c : PIdx) : WaitResult × Table :=
  t.scan c (waitxMatch c) waitxReap

/-- The values `waitx` stores through `wtime` and `rtime` for the entry it
    frees. -/
def waitxTimes (p : Proc) : Word × Word :=
  (p.etime - p.ctime - p.rtime - p.iotime, p.rtime)

def join (t : Table) (c : PIdx) (tid : Int) : WaitResult × Table :=
  t.scan c (t.joinMatch c tid) joinReap

/-! ### The scheduler -/

/-- The aging loop over level `i`, from index `j`. `j` advances also after a
    removal has moved the next entry down to `j`. The fuel counts the
    iterations: there are at most `NPROC`. -/
def agingLoop : (fuel : Nat) → Table → (i : Int) → (j : Nat) → Table
  | 0, t, _, _ => t
  | fuel + 1, t, i, j =>
    if (j : Int) ≤ (t.queue i).tail then
      let p := (t.queue i).slot j
      let age := t.ticks - (t.proc p).enter
      if age.toInt > 30 then
        let t := (t.remove_proc_from_q p i).1
        let t := (t.add_proc_to_q p (i - 1)).1
        agingLoop fuel t i (j + 1)
      else agingLoop fuel t i (j + 1)
    else t

/-- The aging pass: levels 1 to 4. -/
def aging (t : Table) : Table :=
  [1, 2, 3, 4].foldl (fun t i => agingLoop NPROC t i 0) t

/-- The head of the lowest-numbered queue that is not empty, and its level. -/
def pick (t : Table) : Option (PIdx × Int) :=
  ([0, 1, 2, 3, 4].find? (fun i => 0 ≤ (t.queue i).tail)).map
    (fun i => ((t.queue i).slot 0, i))

/-- One iteration of the scheduler on CPU `k`, up to the switch to the
    process. A process that resumes inside `sleep` clears `chan` before the
    lock is free again. -/
def schedule (t : Table) (k : Fin NCPU) : Except Panic Table :=
  let t := t.aging
  match t.pick with
  | none => .ok t
  | some (p, i) =>
    let t := (t.remove_proc_from_q p i).1
    if (t.proc p).state = .RUNNABLE then
      match switchuvm (t.proc p) with
      | .error e => .error e
      | .ok () =>
        let t := t.modify p (fun pr => { pr with state := .RUNNING, chan := none })
        .ok { t with cpu := Function.update t.cpu k (some p) }
    else .ok t

/-- `yield` by `c`, and the re-enqueue in the scheduler it switches to. -/
def yield (t : Table) (c : PIdx) : Table :=
  let t := (t.modify c (fun pr => { pr with state := .RUNNABLE })).offCpu c
  let t := t.modify c (fun pr =>
    if pr.change_q then
      { pr with
        change_q := false
        curr_ticks := 0
        queue := if pr.queue ≠ 4 then pr.queue + 1 else pr.queue }
    else { pr with curr_ticks := 0 })
  (t.add_proc_to_q c (t.proc c).queue).1

/-! ### Timer interrupts -/

def q_ticks_max : Int → Int
  | 0 => 2
  | 1 => 4
  | 2 => 8
  | 3 => 16
  | _ => 32

def ticking (t : Table) : Table :=
  { t with
    proc := fun p =>
      let pr := t.proc p
      { pr with
        rtime := if pr.state = .RUNNING then pr.rtime + 1 else pr.rtime
        iotime := if pr.state = .SLEEPING then pr.iotime + 1 else pr.iotime } }

/-- The part of the timer interrupt that only CPU 0 runs. -/
def tick (t : Table) : Table :=
  ({ t with ticks := t.ticks + 1 }.wakeup1 (some .ticks)).ticking

/-- The timer interrupt of process `p`, up to a `yield`: `change_q_flag` or
    `incr_curr_ticks`. -/
def timer (t : Table) (p : PIdx) : Table :=
  let level := (t.proc p).queue
  let t := { t with oob := t.oob || !decide (validLevel level) }
  if (t.proc p).curr_ticks.toInt ≥ q_ticks_max level then
    { t.modify p (fun pr => { pr with change_q := true }) with
      inTimer := Function.update t.inTimer p true }
  else
    t.modify p (fun pr =>
      { pr with
        curr_ticks := pr.curr_ticks + 1
        qticks := Function.update pr.qticks level (pr.qticks level + 1) })

/-! ### `growproc` and `exec` -/

/-- The body of the loop of `growproc` over the table. -/
def broadcastOne (pgdir : Option Page) (sz : Nat) (t : Table) (p : PIdx) :
    Except Panic Table :=
  if (t.proc p).pgdir ≠ pgdir then .ok t
  else
    let t := t.modify p (fun pr => { pr with sz := sz })
    (switchuvm (t.proc p)).map (fun _ => t)

/-- `growproc` once `allocuvm` or `deallocuvm` has returned the new size. -/
def setSize (t : Table) (c : PIdx) (sz : Nat) : Except Panic Table := do
  let t := t.modify c (fun pr => { pr with sz := sz })
  let t ← (List.finRange NPROC).foldlM (broadcastOne (t.proc c).pgdir sz) t
  switchuvm (t.proc c)
  return t

/-- `exec` from "Commit to the user image". -/
def execCommit (t : Table) (c : PIdx) (img : ExecImage) : Except Panic Table :=
  let t := t.modify c (fun pr =>
    { pr with
      pgdir := some img.pgdir
      sz := img.sz
      tf := { pr.tf with eip := img.eip, esp := img.esp } })
  (switchuvm (t.proc c)).map (fun _ => t)

end Table

end Xv6.Process
