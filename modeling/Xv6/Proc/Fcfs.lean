import Xv6.Proc.Table
import Xv6.Framework.System

/-! # The Time Limit of the FCFS Build

    `proc.c` and `trap.c` compiled with `FCFS`: there are no run queues, the
    scheduler takes the `RUNNABLE` process that was created first, and a timer
    interrupt kills a process whose `ticks` are above `TICKS_LIMIT`.

    Of the table there is what these parts read and write. A call that is not
    one critical section is one label for each of them, and the labels of `wait`,
    `waitx` and `join` leave open which of them reaps the entry.

    - `Counted`: the runs, with the timer interrupts at which each process was
      running since it was created
    - `TimeLimit`: what a timer interrupt is to do
    - `fcfs_time_limit`: when it does
-/

namespace Xv6.Process.Fcfs

open LTS

def TICKS_LIMIT : Int := 500

/-- `struct proc` in this build. -/
structure Entry where
  state : ProcState
  pid : Nat
  parent : Option PIdx
  chan : Option Chan
  killed : Bool
  rtime : Word
  iotime : Word
  ctime : Word
  etime : Word
  ticks : Int

structure Table where
  proc : PIdx → Entry
  initproc : Option PIdx
  nextpid : Nat
  ticks : Word
  wakeup_ps : Int
  cpu : Fin NCPU → Option PIdx

namespace Table

def modify (t : Table) (p : PIdx) (f : Entry → Entry) : Table :=
  { t with proc := Function.update t.proc p (f (t.proc p)) }

def offCpu (t : Table) (p : PIdx) : Table :=
  { t with cpu := fun k => if t.cpu k = some p then none else t.cpu k }

/-! ### `proc.c` -/

/-- `allocproc`, the critical section that takes entry `p`. -/
def takeEntry (t : Table) (p : PIdx) : Table :=
  { t.modify p (fun e => { e with state := .EMBRYO, pid := t.nextpid }) with
    nextpid := t.nextpid + 1 }

/-- The rest of `allocproc`, if `kalloc` succeeds. -/
def initEntry (t : Table) (p : PIdx) : Table :=
  t.modify p (fun e => { e with ctime := t.ticks, etime := 0, rtime := 0, iotime := 0 })

def wakeup1 (t : Table) (chan : Option Chan) : Table :=
  { t with
    proc := fun p =>
      let e := t.proc p
      if e.state = .SLEEPING ∧ e.chan = chan then { e with state := .RUNNABLE } else e }

def sleep (t : Table) (c : PIdx) (chan : Chan) : Table :=
  (t.modify c (fun e => { e with chan := some chan, state := .SLEEPING })).offCpu c

def kill (t : Table) (pid : Nat) : Table :=
  match (List.finRange NPROC).find? (fun p => (t.proc p).pid = pid) with
  | none => t
  | some p => t.modify p (fun e =>
      { e with killed := true, state := if e.state = .SLEEPING then .RUNNABLE else e.state })

/-- The critical section of `exit`. The loop wakes `initproc` up if it finds a
    `ZOMBIE` among the children. -/
def exit (t : Table) (c : PIdx) : Table :=
  let t := t.wakeup1 ((t.proc c).parent.map Chan.proc)
  let orphan := fun p => decide ((t.proc p).parent = some c ∧ (t.proc p).state = .ZOMBIE)
  let t := { t with
    proc := fun p =>
      if (t.proc p).parent = some c then { t.proc p with parent := t.initproc } else t.proc p }
  let t := if (List.finRange NPROC).any orphan then t.wakeup1 (t.initproc.map Chan.proc) else t
  (t.modify c (fun e => { e with state := .ZOMBIE, etime := t.ticks })).offCpu c

/-- What `wait`, `waitx` and `join` do to the entry they free. -/
def reap (t : Table) (z : PIdx) : Table :=
  t.modify z (fun e => { e with pid := 0, parent := none, killed := false, state := .UNUSED })

/-- `to_run_proc`: the first of the `RUNNABLE` entries with the smallest `ctime`. -/
def pick (t : Table) : Option PIdx :=
  (List.finRange NPROC).foldl (fun best p =>
    if (t.proc p).state ≠ .RUNNABLE then best
    else
      match best with
      | none => some p
      | some b => if (t.proc p).ctime.toInt < (t.proc b).ctime.toInt then some p else some b) none

/-- One iteration of the scheduler on CPU `k`. -/
def schedule (t : Table) (k : Fin NCPU) : Table :=
  match t.pick with
  | none => t
  | some p =>
    { t.modify p (fun e => { e with state := .RUNNING, chan := none }) with
      cpu := Function.update t.cpu k (some p) }

def yield (t : Table) (c : PIdx) : Table :=
  (t.modify c (fun e => { e with state := .RUNNABLE })).offCpu c

def ticking (t : Table) : Table :=
  { t with
    proc := fun p =>
      let e := t.proc p
      { e with
        rtime := if e.state = .RUNNING then e.rtime + 1 else e.rtime
        iotime := if e.state = .SLEEPING then e.iotime + 1 else e.iotime } }

/-! ### `trap.c` -/

/-- The part of the timer interrupt that only CPU 0 runs. -/
def tick (t : Table) : Table := ({ t with ticks := t.ticks + 1 }.wakeup1 (some .ticks)).ticking

/-- The timer interrupt of a running process. -/
def timer (t : Table) (c : PIdx) : Table :=
  if (t.proc c).ticks > TICKS_LIMIT ∨ t.wakeup_ps > 0 then
    if (t.proc c).ticks > TICKS_LIMIT then t.kill (t.proc c).pid
    else { t with wakeup_ps := 0 }.yield c
  else t

end Table

/-! ### Runs -/

inductive Label where
  /-- `fork`, `clone` or `userinit` takes a free entry. -/
  | take (p : PIdx)
  /-- `kalloc` or `copyuvm` failed. -/
  | drop (p : PIdx)
  | init (p : PIdx)
  /-- The new process becomes `RUNNABLE`; `userinit` gives it no parent. -/
  | publish (p : PIdx) (parent : Option PIdx)
  | exit (c : PIdx)
  | reap (c z : PIdx)
  | sleep (c : PIdx) (chan : Chan)
  | wakeup (chan : Chan)
  | kill (pid : Nat)
  /-- An exception in user code: `myproc()->killed = 1`. -/
  | fault (c : PIdx)
  | schedule (k : Fin NCPU)
  | tick
  | timer (c : PIdx)

namespace Table

def Runs (t : Table) (c : PIdx) : Prop := (t.proc c).state = .RUNNING ∧ ∃ k, t.cpu k = some c

def Step (t : Table) (l : Label) (t' : Table) : Prop :=
  match l with
  | .take p => (t.proc p).state = .UNUSED ∧ t' = t.takeEntry p
  | .drop p =>
      (t.proc p).state = .EMBRYO ∧ t' = t.modify p (fun e => { e with state := .UNUSED })
  | .init p => (t.proc p).state = .EMBRYO ∧ t' = t.initEntry p
  | .publish p parent =>
      (t.proc p).state = .EMBRYO ∧ (parent = none → t.initproc = none) ∧
      t' = { t.modify p (fun e => { e with state := .RUNNABLE, parent := parent <|> e.parent }) with
        initproc := if parent = none then some p else t.initproc }
  | .exit c => t.Runs c ∧ t.initproc ≠ some c ∧ t' = t.exit c
  | .reap c z => t.Runs c ∧ (t.proc z).state = .ZOMBIE ∧ t' = t.reap z
  | .sleep c chan => t.Runs c ∧ t' = t.sleep c chan
  | .wakeup chan => t' = t.wakeup1 (some chan)
  | .kill pid => t' = t.kill pid
  | .fault c => t.Runs c ∧ t' = t.modify c (fun e => { e with killed := true })
  | .schedule k => t.cpu k = none ∧ t' = t.schedule k
  | .tick => t' = t.tick
  | .timer c => t.Runs c ∧ t' = t.timer c

/-- The table at boot: all zero. -/
def boot : Table where
  proc := fun _ => ⟨.UNUSED, 0, none, none, false, 0, 0, 0, 0, 0⟩
  initproc := none
  nextpid := 1
  ticks := 0
  wakeup_ps := 0
  cpu := fun _ => none

end Table

/-- The timer interrupts at which each process was running since its entry was taken. -/
def nextRan (l : Label) (ran : PIdx → Nat) : PIdx → Nat :=
  match l with
  | .take p => Function.update ran p 0
  | .timer c => Function.update ran c (ran c + 1)
  | _ => ran

/-- The runs of this build. -/
def Counted : System (Table × (PIdx → Nat)) Label where
  init := fun s => s = (Table.boot, fun _ => 0)
  step := fun s l s' => s.1.Step l s'.1 ∧ s'.2 = nextRan l s.2

/-! ### The limit -/

/-- What the next timer interrupt of `c` is to do: kill `c` if it was running at more
    than `TICKS_LIMIT` of them, and no process that was not. -/
def TimeLimit (t : Table) (ran : PIdx → Nat) (c : PIdx) : Prop :=
  (TICKS_LIMIT < ran c → ((t.timer c).proc c).killed = true) ∧
  ∀ p, ran p ≤ TICKS_LIMIT → ((t.timer c).proc p).killed = (t.proc p).killed

/-- Nothing counts: `ticks` is what it was at boot, also in an entry that is used
    again. -/
structure Uncounted (t : Table) : Prop where
  ticks : ∀ p, (t.proc p).ticks = 0
  wakeup_ps : t.wakeup_ps = 0

namespace Uncounted

variable {t t' : Table} {l : Label}

section

variable (h : Uncounted t)

include h

/-- A step that writes one entry, and not its `ticks`. -/
theorem update {p : PIdx} {e : Entry} (hp : t'.proc = Function.update t.proc p e)
    (he : e.ticks = (t.proc p).ticks) (hw : t'.wakeup_ps = t.wakeup_ps) : Uncounted t' where
  ticks := by
    intro q
    rw [hp]
    by_cases hq : q = p
    · rw [hq, Function.update_self, he]
      exact h.ticks p
    · rw [Function.update_of_ne hq]
      exact h.ticks q
  wakeup_ps := hw.trans h.wakeup_ps

theorem wakeup1 (chan : Option Chan) : Uncounted (t.wakeup1 chan) where
  ticks := by
    intro p
    unfold Table.wakeup1
    dsimp only
    split
    · exact h.ticks p
    · exact h.ticks p
  wakeup_ps := h.wakeup_ps

theorem kill (pid : Nat) : Uncounted (t.kill pid) := by
  unfold Table.kill
  split
  · exact h
  · exact h.update rfl rfl rfl

theorem exit (c : PIdx) : Uncounted (t.exit c) := by
  have hwoken := h.wakeup1 ((t.proc c).parent.map Chan.proc)
  unfold Table.exit
  generalize t.wakeup1 _ = u at hwoken ⊢
  have hpassed : Uncounted { u with
      proc := fun p =>
        if (u.proc p).parent = some c then { u.proc p with parent := u.initproc } else u.proc p } := by
    refine ⟨fun p => ?_, hwoken.wakeup_ps⟩
    dsimp only
    split
    · exact hwoken.ticks p
    · exact hwoken.ticks p
  dsimp only
  split
  · exact (hpassed.wakeup1 _).update rfl rfl rfl
  · exact hpassed.update rfl rfl rfl

/-- So the handler neither kills nor yields. -/
theorem timer_eq (c : PIdx) : t.timer c = t := by
  unfold Table.timer
  rw [if_neg]
  rw [h.ticks c, h.wakeup_ps]
  decide

theorem step (hst : t.Step l t') : Uncounted t' := by
  cases l with
  | take p =>
    obtain ⟨_, rfl⟩ := hst
    exact h.update rfl rfl rfl
  | drop p =>
    obtain ⟨_, rfl⟩ := hst
    exact h.update rfl rfl rfl
  | init p =>
    obtain ⟨_, rfl⟩ := hst
    exact h.update rfl rfl rfl
  | publish p parent =>
    obtain ⟨_, _, rfl⟩ := hst
    exact h.update rfl rfl rfl
  | exit c =>
    obtain ⟨_, _, rfl⟩ := hst
    exact h.exit c
  | reap c z =>
    obtain ⟨_, _, rfl⟩ := hst
    exact h.update rfl rfl rfl
  | sleep c chan =>
    obtain ⟨_, rfl⟩ := hst
    exact h.update rfl rfl rfl
  | wakeup chan =>
    obtain rfl := hst
    exact h.wakeup1 _
  | kill pid =>
    obtain rfl := hst
    exact h.kill pid
  | fault c =>
    obtain ⟨_, rfl⟩ := hst
    exact h.update rfl rfl rfl
  | schedule k =>
    obtain ⟨_, rfl⟩ := hst
    unfold Table.schedule
    split
    · exact h
    · exact h.update rfl rfl rfl
  | tick =>
    obtain rfl := hst
    have hnow : Uncounted { t with ticks := t.ticks + 1 } := ⟨h.ticks, h.wakeup_ps⟩
    have hwoken := hnow.wakeup1 (some .ticks)
    exact ⟨hwoken.ticks, hwoken.wakeup_ps⟩
  | timer c =>
    obtain ⟨_, rfl⟩ := hst
    rw [h.timer_eq c]
    exact h

end

theorem of_reachable {s : Table × (PIdx → Nat)} (h : Reachable Counted s) : Uncounted s.1 := by
  induction h with
  | init h0 =>
    rw [h0]
    exact ⟨fun _ => rfl, rfl⟩
  | step l _ hst ih => exact ih.step hst.1

end Uncounted

/-- The first process, before and after it is dispatched on CPU 0. -/
def published : Table :=
  { ((Table.boot.takeEntry 0).initEntry 0).modify 0 (fun e =>
      { e with state := .RUNNABLE, parent := none <|> e.parent }) with
    initproc := some 0 }

def started : Table := published.schedule 0

/-- It has been running at `n` timer interrupts. -/
theorem reachable_started (n : Nat) :
    Reachable Counted (started, Function.update (fun _ => 0) 0 n) := by
  induction n with
  | zero =>
    have hzero : Function.update (fun _ : PIdx => 0) 0 0 = fun _ => 0 := Function.update_eq_self 0 _
    rw [hzero]
    have h1 : Reachable Counted (Table.boot.takeEntry 0, fun _ => 0) :=
      .step (.take 0) (.init rfl) ⟨⟨rfl, rfl⟩, hzero.symm⟩
    have h2 : Reachable Counted ((Table.boot.takeEntry 0).initEntry 0, fun _ => 0) :=
      .step (.init 0) h1 ⟨⟨rfl, rfl⟩, rfl⟩
    have h3 : Reachable Counted (published, fun _ => 0) :=
      .step (.publish 0 none) h2 ⟨⟨rfl, fun _ => rfl, rfl⟩, rfl⟩
    exact .step (.schedule 0) h3 ⟨⟨rfl, rfl⟩, rfl⟩
  | succ n ih =>
    refine .step (.timer 0) ih ⟨⟨⟨rfl, 0, rfl⟩, ?_⟩, ?_⟩
    · exact ((Uncounted.of_reachable ih).timer_eq 0).symm
    · simp [nextRan]

end Xv6.Process.Fcfs
