import Xv6.Framework.System
import Xv6.Proc.Table

/-! # Runs of the Process Table

    The process table as a labelled transition system. A label is one
    critical section of `ptable.lock`, or one stretch of code that works on
    an `EMBRYO` entry only its creator knows. Between two steps the lock is
    free, so the reachable states are the states at which another CPU can
    acquire it.

    Labels carry what the memory system returned (`kstack`, `pgdir`, `img`,
    `sz`); `tableSystem` allows every outcome.
-/

namespace Xv6.Process

open LTS

/-! ### Labels -/

/-- The atomic steps. -/
inductive Label where
  | userinit (p : PIdx) (kstack pgdir : Page)
  /-- `fork` by `c` takes a free entry. -/
  | fork (c np : PIdx)
  /-- `clone` by `c` takes a free entry. -/
  | clone (c np : PIdx) (args : CloneArgs)
  /-- The rest of `allocproc` for a `fork` or `clone` by `c`. -/
  | allocproc (c : PIdx) (kstack : Option Page)
  | forkFill (c : PIdx) (pgdir : Option Page)
  | cloneFill (c : PIdx)
  /-- The child of a `fork` or `clone` by `c` becomes `RUNNABLE`. -/
  | publish (c : PIdx)
  | exit (c : PIdx)
  | wait (c : PIdx)
  | waitx (c : PIdx)
  | join (c : PIdx) (tid : Int)
  | sleep (c : PIdx) (chan : Chan)
  | wakeup (chan : Chan)
  | kill (c : PIdx) (pid : Int)
  /-- An exception in user code: `myproc()->killed = 1`. -/
  | fault (c : PIdx)
  | schedule (k : Fin NCPU)
  | timer (c : PIdx)
  | yield (c : PIdx)
  | tick
  /-- `growproc(n)` by `c`; `sz` is the size its memory phase returned, or
      `none` if the call returned `-1`. -/
  | growproc (c : PIdx) (n : Int) (sz : Option Nat)
  /-- `exec` by `c` up to its commit; `none` if it returned `-1`. -/
  | exec (c : PIdx) (img : Option ExecImage)
  | execCommit (c : PIdx)

/-! ### Steps -/

namespace Table

/-- `c` is on a CPU and not between the two halves of a timer interrupt. -/
def Acts (t : Table) (c : PIdx) : Prop :=
  (∃ k, t.cpu k = some c) ∧ t.inTimer c = false

/-- `c` acts and is not in the middle of another system call. -/
def Idle (t : Table) (c : PIdx) : Prop := t.Acts c ∧ t.kont c = .run

/-- Where the caller of `wait`, `waitx` or `join` is after a pass that ended
    with `r`. -/
def afterScan (k : Kont) : WaitResult → Kont
  | .reaped _ _ | .failed => .run
  | .sleeps => k

/-- `t'` is the result of one pass `r` by `c`, which is either entering the
    call or has been woken inside it. -/
def ScanStep (t : Table) (c : PIdx) (k : Kont) (r : WaitResult × Table) (t' : Table) : Prop :=
  t.Acts c ∧ (t.kont c = .run ∨ t.kont c = k) ∧ t' = r.2.goto c (afterScan k r.1)

/-- The step relation. -/
def Step (t : Table) (l : Label) (t' : Table) : Prop :=
  match l with
  | .userinit p kstack pgdir =>
      t.initproc = none ∧ t.findUnused = some p ∧ t' = t.userinit p kstack pgdir
  | .fork c np =>
      t.Idle c ∧ t.findUnused = some np ∧ t' = (t.takeEntry np).goto c (.forkAlloc np)
  | .clone c np args =>
      t.Idle c ∧ t.findUnused = some np ∧
      t' = (t.takeEntry np).goto c (.cloneAlloc np args)
  | .allocproc c kstack =>
      t.Acts c ∧
      ((∃ np, t.kont c = .forkAlloc np ∧
          t' = (t.initEntry np kstack).goto c
            (if kstack.isSome then .forkCopy np else .run)) ∨
       (∃ np args, t.kont c = .cloneAlloc np args ∧
          t' = (t.initEntry np kstack).goto c
            (if kstack.isSome then .cloneFill np args else .run)))
  | .forkFill c pgdir =>
      t.Acts c ∧ ∃ np, t.kont c = .forkCopy np ∧
      t' = (t.forkFill c np pgdir).goto c
        (if pgdir.isSome then .forkPublish np else .run)
  | .cloneFill c =>
      t.Acts c ∧ ∃ np args, t.kont c = .cloneFill np args ∧
      t' = (t.cloneFill c np args).goto c (.clonePublish np)
  | .publish c =>
      t.Acts c ∧ ∃ np, (t.kont c = .forkPublish np ∨ t.kont c = .clonePublish np) ∧
      t' = (t.publish np).goto c .run
  | .exit c => t.Idle c ∧ t.exit c = .ok t'
  | .wait c => t.ScanStep c .waiting (t.wait c) t'
  | .waitx c => t.ScanStep c .waitingx (t.waitx c) t'
  | .join c tid => t.ScanStep c (.joining tid) (t.join c tid) t'
  | .sleep c chan => t.Idle c ∧ (∀ p, chan ≠ .proc p) ∧ t' = t.sleep c chan
  | .wakeup chan => (∀ p, chan ≠ .proc p) ∧ t' = t.wakeup1 (some chan)
  | .kill c pid => t.Idle c ∧ t' = (t.kill pid).1
  | .fault c => t.Idle c ∧ t' = t.modify c (fun pr => { pr with killed := true })
  | .schedule k => t.cpu k = none ∧ t.schedule k = .ok t'
  | .timer c => t.Acts c ∧ t' = t.timer c
  | .yield c =>
      (∃ k, t.cpu k = some c) ∧ t.inTimer c = true ∧
      t' = { t.yield c with inTimer := Function.update t.inTimer c false }
  | .tick => t' = t.tick
  | .growproc c _ sz =>
      t.Idle c ∧
      match sz with
      | none => t' = t
      | some sz => t.setSize c sz = .ok t'
  | .exec c img =>
      t.Idle c ∧
      match img with
      | none => t' = t
      | some img => t' = t.goto c (.execBuilt img)
  | .execCommit c =>
      t.Acts c ∧ ∃ img t₁, t.kont c = .execBuilt img ∧ t.execCommit c img = .ok t₁ ∧
      t' = t₁.goto c .run

/-- An entry of the table as the loader leaves it: all zero. -/
def zeroProc : Proc where
  sz := 0
  pgdir := none
  kstack := none
  tstack := 0
  state := .UNUSED
  pid := 0
  tgid := 0
  parent := none
  tf := ⟨0, 0, 0, 0⟩
  chan := none
  killed := false
  iotime := 0
  rtime := 0
  ctime := 0
  etime := 0
  qticks := fun _ => 0
  queue := 0
  curr_ticks := 0
  change_q := false
  enter := 0

/-- The table at boot. -/
def boot : Table where
  proc := fun _ => zeroProc
  queue := fun _ => { slot := fun _ => 0, tail := -1 }
  oob := false
  initproc := none
  nextpid := 1
  nexttgid := 1
  ticks := 0
  cpu := fun _ => none
  kont := fun _ => .run
  inTimer := fun _ => false

end Table

/-- The process table as a labelled transition system. -/
def tableSystem : System Table Label where
  init := fun t => t = Table.boot
  step := Table.Step

/-! ### Fields under the small updates -/

namespace Table

variable (t : Table) (p q : PIdx) (f : Proc → Proc) (k : Kont)

@[simp] theorem proc_modify_self : (t.modify p f).proc p = f (t.proc p) := by
  simp [modify]

@[simp] theorem proc_modify_of_ne {p q : PIdx} (h : q ≠ p) :
    (t.modify p f).proc q = t.proc q := by
  simp [modify, h]

@[simp] theorem queue_modify : (t.modify p f).queue = t.queue := rfl
@[simp] theorem oob_modify : (t.modify p f).oob = t.oob := rfl
@[simp] theorem nextpid_modify : (t.modify p f).nextpid = t.nextpid := rfl
@[simp] theorem nexttgid_modify : (t.modify p f).nexttgid = t.nexttgid := rfl
@[simp] theorem ticks_modify : (t.modify p f).ticks = t.ticks := rfl
@[simp] theorem cpu_modify : (t.modify p f).cpu = t.cpu := rfl
@[simp] theorem kont_modify : (t.modify p f).kont = t.kont := rfl
@[simp] theorem initproc_modify : (t.modify p f).initproc = t.initproc := rfl
@[simp] theorem inTimer_modify : (t.modify p f).inTimer = t.inTimer := rfl

@[simp] theorem proc_goto : (t.goto p k).proc = t.proc := rfl
@[simp] theorem queue_goto : (t.goto p k).queue = t.queue := rfl
@[simp] theorem oob_goto : (t.goto p k).oob = t.oob := rfl
@[simp] theorem nextpid_goto : (t.goto p k).nextpid = t.nextpid := rfl
@[simp] theorem cpu_goto : (t.goto p k).cpu = t.cpu := rfl

@[simp] theorem proc_offCpu : (t.offCpu p).proc = t.proc := rfl
@[simp] theorem queue_offCpu : (t.offCpu p).queue = t.queue := rfl
@[simp] theorem oob_offCpu : (t.offCpu p).oob = t.oob := rfl
@[simp] theorem nextpid_offCpu : (t.offCpu p).nextpid = t.nextpid := rfl
@[simp] theorem kont_offCpu : (t.offCpu p).kont = t.kont := rfl

/-- Two entries of a modified table, read at once. -/
theorem proc_modify (q : PIdx) :
    (t.modify p f).proc q = if q = p then f (t.proc p) else t.proc q := by
  by_cases h : q = p
  · subst h
    simp
  · simp [h]

theorem modify_modify (g : Proc → Proc) :
    (t.modify p f).modify p g = t.modify p (fun pr => g (f pr)) := by
  simp [modify]

/-! ### What moving processes between queues leaves alone -/

/-- `t'` and `t` differ in the queues and in the entries only. -/
structure QueueFrame (t t' : Table) : Prop where
  cpu : t'.cpu = t.cpu
  kont : t'.kont = t.kont
  inTimer : t'.inTimer = t.inTimer
  initproc : t'.initproc = t.initproc
  nextpid : t'.nextpid = t.nextpid
  nexttgid : t'.nexttgid = t.nexttgid
  ticks : t'.ticks = t.ticks

namespace QueueFrame

theorem refl (t : Table) : QueueFrame t t := ⟨rfl, rfl, rfl, rfl, rfl, rfl, rfl⟩

theorem trans {t t' t'' : Table} (h : QueueFrame t t') (h' : QueueFrame t' t'') :
    QueueFrame t t'' where
  cpu := h'.cpu.trans h.cpu
  kont := h'.kont.trans h.kont
  inTimer := h'.inTimer.trans h.inTimer
  initproc := h'.initproc.trans h.initproc
  nextpid := h'.nextpid.trans h.nextpid
  nexttgid := h'.nexttgid.trans h.nexttgid
  ticks := h'.ticks.trans h.ticks

end QueueFrame

theorem queueFrame_add (t : Table) (p : PIdx) (i : Int) :
    QueueFrame t (t.add_proc_to_q p i).1 := by
  unfold add_proc_to_q
  split <;> exact ⟨rfl, rfl, rfl, rfl, rfl, rfl, rfl⟩

theorem queueFrame_remove (t : Table) (p : PIdx) (i : Int) :
    QueueFrame t (t.remove_proc_from_q p i).1 := by
  unfold remove_proc_from_q
  split <;> exact ⟨rfl, rfl, rfl, rfl, rfl, rfl, rfl⟩

theorem queueFrame_agingLoop (fuel : Nat) (t : Table) (i : Int) (j : Nat) :
    QueueFrame t (agingLoop fuel t i j) := by
  induction fuel generalizing t j with
  | zero => exact .refl t
  | succ fuel ih =>
    simp only [agingLoop]
    split
    · split
      · exact ((queueFrame_remove _ _ _).trans (queueFrame_add _ _ _)).trans (ih _ _)
      · exact ih _ _
    · exact .refl t

theorem queueFrame_aging (t : Table) : QueueFrame t t.aging :=
  (((queueFrame_agingLoop _ _ _ _).trans (queueFrame_agingLoop _ _ _ _)).trans
    (queueFrame_agingLoop _ _ _ _)).trans (queueFrame_agingLoop _ _ _ _)

end Table

end Xv6.Process
