import Xv6.Framework.System
import Xv6.Framework.Spinlock
import Xv6.Proc.Table

/-! # Sleep Locks

    `acquiresleep` and `releasesleep` on one `struct sleeplock`, with the
    `sleep` and `wakeup` they call, one statement at a time:

    - `sleep` takes `ptable.lock` before it gives up `lk->lk`, and gives up
      `ptable.lock` only in `sched`, when the process is `SLEEPING`;
    - `releasesleep` clears `lk->locked` and scans the table with both held,
      taken in the same order.

    The rest of the kernel appears where it can touch the same state: the
    scheduler, `yield` at a timer tick, `kill`, and sleeping and waking on
    other channels. Processes are a type `P` of any size; the process table
    lists all of them.
-/

open LTS Xv6.Process Function

namespace Xv6.SleepLock

/-- `ptable.proc`: the order in which `wakeup1` visits the processes. -/
structure PTable (P : Type) where
  proc : List P
  complete : ∀ p, p ∈ proc

/-! ### Where a process is -/

/-- The statement a process executes next. -/
inductive Pc (P : Type) where
  /-- not using the lock -/
  | outside
  /-- `acquiresleep`: `acquire(&lk->lk)` -/
  | acquire
  /-- `while (lk->locked)` -/
  | test
  | setLocked
  | setPid
  /-- `release(&lk->lk)`, the end of `acquiresleep` -/
  | unlock
  /-- `sleep`: `acquire(&ptable.lock)` -/
  | lockTable
  | unlockLk
  | setChan
  | setState
  | sched
  /-- switched out by `sched` -/
  | switched
  /-- back from `sched`, with `ptable.lock` held again -/
  | clearChan
  | unlockTable
  /-- the end of `sleep`: `acquire(lk)` -/
  | relock
  /-- between `acquiresleep` and `releasesleep` -/
  | holding
  /-- `releasesleep`: `acquire(&lk->lk)` -/
  | relAcquire
  | clearLocked
  | clearPid
  /-- `wakeup`: `acquire(&ptable.lock)` -/
  | wakeup
  /-- `wakeup1`, with the part of the table that is still to be visited -/
  | scan (rest : List P)
  | wakeupDone
  /-- `release(&lk->lk)`, the end of `releasesleep` -/
  | relUnlock
  deriving DecidableEq

namespace Pc

variable {P : Type} {p q : P}

/-- `lk->lk` is held there. -/
def holdsLk : Pc P → Bool
  | .test | .setLocked | .setPid | .unlock | .lockTable | .unlockLk | .clearLocked | .clearPid
  | .wakeup | .scan _ | .wakeupDone | .relUnlock => true
  | _ => false

/-- `ptable.lock` is held there. -/
def holdsTable : Pc P → Bool
  | .unlockLk | .setChan | .setState | .sched | .clearChan | .unlockTable | .scan _
  | .wakeupDone => true
  | _ => false

/-- From `lk->locked = 1` to `lk->locked = 0`. -/
def owns : Pc P → Bool
  | .setPid | .unlock | .holding | .relAcquire | .clearLocked => true
  | _ => false

/-- `lk->pid` is the process's there. -/
def named : Pc P → Bool
  | .unlock | .holding | .relAcquire | .clearLocked | .clearPid => true
  | _ => false

/-- In `releasesleep`. -/
def inRelease : Pc P → Bool
  | .relAcquire | .clearLocked | .clearPid | .wakeup | .scan _ | .wakeupDone | .relUnlock => true
  | _ => false

/-- In `sleep`, and `lk->lk` has been given up. -/
def asleep : Pc P → Bool
  | .setChan | .setState | .sched | .switched => true
  | _ => false

/-- `p->chan = lk` there. -/
def onChan : Pc P → Bool
  | .setState | .sched | .switched | .clearChan => true
  | _ => false

/-- No spinlock is held there, so a timer interrupt may come. -/
def preemptible : Pc P → Bool
  | .outside | .acquire | .relock | .holding | .relAcquire => true
  | _ => false

/-- The process is on a CPU there. -/
def onCpu : Pc P → Bool
  | .outside | .acquire | .relock | .holding | .relAcquire | .sched | .switched => false
  | _ => true

/-- The process is free to do something else there. -/
def free : Pc P → Bool
  | .outside | .holding => true
  | _ => false

/-- What is known of `lk->locked`, as long as `lk->lk` is held. -/
def tested : Pc P → Option Bool
  | .lockTable | .unlockLk => some true
  | .setLocked => some false
  -- `releasesleep` has cleared it
  | .clearPid | .wakeup | .scan _ | .wakeupDone | .relUnlock => some false
  | _ => none

/-- The wakeup of `p` is still to come. -/
def Pending (p : P) : Pc P → Prop
  | .clearPid | .wakeup => True
  | .scan rest => p ∈ rest
  | _ => False

end Pc

/-! ### The lock and the processes -/

/-- `struct sleeplock`, `ptable.lock`, and what the table has of each
    process. -/
structure State (P C : Type) where
  /-- `lk->lk` -/
  lkLock : Option P
  /-- `ptable.lock` -/
  ptableLock : Option P
  locked : Bool
  pid : Nat
  pc : P → Pc P
  state : P → ProcState
  chan : P → Option C

variable {P C : Type} [DecidableEq P] [DecidableEq C]

def State.goto (s : State P C) (p : P) (pc : Pc P) : State P C :=
  { s with pc := Function.update s.pc p pc }

def State.setState (s : State P C) (p : P) (st : ProcState) : State P C :=
  { s with state := Function.update s.state p st }

def State.setChan (s : State P C) (p : P) (c : Option C) : State P C :=
  { s with chan := Function.update s.chan p c }

/-- The body of `wakeup1`'s loop. -/
def State.wake (s : State P C) (c : C) (q : P) : State P C :=
  if s.state q = .SLEEPING ∧ s.chan q = some c then s.setState q .RUNNABLE else s

section model

variable (procs : PTable P) (lk : C) (pidOf : P → Nat)

/-- `p` executes its next statement; `none` where it spins. -/
def State.advance (s : State P C) (p : P) : Option (State P C) :=
  match s.pc p with
  -- acquiresleep
  | .acquire => if s.lkLock = none then some { s.goto p .test with lkLock := some p } else none
  | .test => some (s.goto p (if s.locked then .lockTable else .setLocked))
  | .setLocked => some { s.goto p .setPid with locked := true }
  | .setPid => some { s.goto p .unlock with pid := pidOf p }
  | .unlock => some { s.goto p .holding with lkLock := none }
  -- sleep
  | .lockTable => if s.ptableLock = none then some { s.goto p .unlockLk with ptableLock := some p } else none
  | .unlockLk => some { s.goto p .setChan with lkLock := none }
  | .setChan => some ((s.goto p .setState).setChan p (some lk))
  | .setState => some ((s.goto p .sched).setState p .SLEEPING)
  | .sched => some { s.goto p .switched with ptableLock := none }
  | .clearChan => some ((s.goto p .unlockTable).setChan p none)
  | .unlockTable => some { s.goto p .relock with ptableLock := none }
  | .relock => if s.lkLock = none then some { s.goto p .test with lkLock := some p } else none
  -- releasesleep
  | .relAcquire => if s.lkLock = none then some { s.goto p .clearLocked with lkLock := some p } else none
  | .clearLocked => some { s.goto p .clearPid with locked := false }
  | .clearPid => some { s.goto p .wakeup with pid := 0 }
  | .wakeup =>
    if s.ptableLock = none then some { s.goto p (.scan procs.proc) with ptableLock := some p } else none
  | .scan [] => some (s.goto p .wakeupDone)
  | .scan (q :: rest) => some ((s.goto p (.scan rest)).wake lk q)
  | .wakeupDone => some { s.goto p .relUnlock with ptableLock := none }
  | .relUnlock => some { s.goto p .outside with lkLock := none }
  | .outside | .switched | .holding => none

/-- `holdingsleep(lk)` called by `p`. -/
def State.holdingsleep (s : State P C) (p : P) : Bool :=
  s.locked && s.pid == pidOf p

inductive Label (P C : Type) where
  /-- `p` calls `acquiresleep(lk)` -/
  | acquiresleep (p : P)
  /-- the holder calls `releasesleep(lk)` -/
  | releasesleep (p : P)
  | advance (p : P)
  /-- the scheduler switches to `p` -/
  | dispatch (p : P)
  /-- `yield` at a timer tick -/
  | yield (p : P)
  | kill (q : P)
  /-- `p` sleeps on another channel -/
  | sleep (p : P) (c : C)
  /-- `wakeup` on another channel -/
  | wakeup (c : C)
  /-- another change of state of a process that does not use the lock:
      `exit`, `wait`, `fork` -/
  | restate (p : P) (st : ProcState)

/-- One step. What runs under `ptable.lock` alone is one step, possible when
    the lock is free. -/
def next (s : State P C) : Label P C → Option (State P C)
  | .acquiresleep p =>
    if s.pc p = .outside ∧ s.state p = .RUNNING then some (s.goto p .acquire) else none
  | .releasesleep p =>
    if s.pc p = .holding ∧ s.state p = .RUNNING then some (s.goto p .relAcquire) else none
  | .advance p =>
    -- the process is on a CPU, also when it has just made itself `SLEEPING`
    if s.state p = .RUNNING ∨ s.pc p = .sched then s.advance procs lk pidOf p else none
  | .dispatch p =>
    if s.ptableLock = none ∧ s.state p = .RUNNABLE then
      if s.pc p = .switched then
        -- `sched` returns with `ptable.lock` held
        some { (s.goto p .clearChan).setState p .RUNNING with ptableLock := some p }
      else some ((s.setState p .RUNNING).setChan p none)
    else none
  | .yield p =>
    if s.ptableLock = none ∧ s.state p = .RUNNING ∧ (s.pc p).preemptible then
      some (s.setState p .RUNNABLE)
    else none
  | .kill q =>
    if s.ptableLock = none then
      some (if s.state q = .SLEEPING then s.setState q .RUNNABLE else s)
    else none
  | .sleep p c =>
    if s.ptableLock = none ∧ s.state p = .RUNNING ∧ (s.pc p).free ∧ c ≠ lk then
      some ((s.setState p .SLEEPING).setChan p (some c))
    else none
  | .wakeup c =>
    if s.ptableLock = none ∧ c ≠ lk then some (procs.proc.foldl (fun s q => s.wake c q) s) else none
  | .restate p st =>
    if s.ptableLock = none ∧ s.pc p = .outside ∧ s.state p ≠ .SLEEPING ∧ st ≠ .SLEEPING then
      some (s.setState p st)
    else none

/-- After `initsleeplock`: the lock is free and nobody uses it yet. -/
structure Init (s : State P C) : Prop where
  lkLock : s.lkLock = none
  ptableLock : s.ptableLock = none
  locked : s.locked = false
  pid : s.pid = 0
  pc : ∀ p, s.pc p = .outside
  chan : ∀ p, s.chan p ≠ some lk

/-- The sleep lock `lk`. -/
def sleepLock : System (State P C) (Label P C) where
  init := Init lk
  step := fun s l s' => next procs lk pidOf s l = some s'

/-! ### The invariant -/

/-- `p` has given up `lk->lk` in `sleep` and has not been woken. -/
def Waits (s : State P C) (p : P) : Prop :=
  (s.pc p).asleep = true ∧ (s.pc p = .switched → s.state p = .SLEEPING)

structure Inv (s : State P C) : Prop where
  lkLock : Guards s.lkLock (fun p => (s.pc p).holdsLk = true)
  ptableLock : Guards s.ptableLock (fun p => (s.pc p).holdsTable = true)
  /-- `lk->locked` is a lock too: somebody is between setting and clearing it -/
  owner : ∃ o : Option P, s.locked = o.isSome ∧ Guards o (fun p => (s.pc p).owns = true)
  tested : ∀ p b, (s.pc p).tested = some b → s.locked = b
  pid : ∀ p, (s.pc p).named = true → s.pid = pidOf p
  chan : ∀ p, s.chan p = some lk ↔ (s.pc p).onChan = true
  onCpu : ∀ p, (s.pc p).onCpu = true → s.state p = .RUNNING
  /-- no lost wakeup -/
  awaited : ∀ p, Waits s p → s.locked = true ∨ ∃ q, (s.pc q).Pending p

end model

variable {procs : PTable P} {lk : C} {pidOf : P → Nat} {s s' : State P C} {l : Label P C}

section

omit [DecidableEq P] [DecidableEq C]

theorem Pc.holdsLk_of_tested {pc : Pc P} {b : Bool} (h : pc.tested = some b) :
    pc.holdsLk = true := by
  cases pc <;> simp_all [Pc.tested, Pc.holdsLk]

theorem Pc.not_pending_of_asleep {pc : Pc P} (h : pc.asleep = true) : ¬ pc.Pending p := by
  cases pc <;> simp_all [Pc.asleep, Pc.Pending]

end

/-- How a process may change `lk->locked`, which it owns or not before and after. -/
inductive FlagStep : (l l' owns owns' : Bool) → Prop where
  | keep {l o : Bool} : FlagStep l l o o
  | set {l o : Bool} (hfree : l = false) : FlagStep l true o true
  | clear {l : Bool} : FlagStep l false true false

omit [DecidableEq C] in
theorem FlagStep.owner {pc' : Pc P} (hs : FlagStep s.locked s'.locked (s.pc p).owns pc'.owns)
    (h : ∃ o : Option P, s.locked = o.isSome ∧ Guards o (fun q => (s.pc q).owns = true)) :
    ∃ o : Option P, s'.locked = o.isSome ∧
      Guards o (fun q => (update s.pc p pc' q).owns = true) := by
  obtain ⟨o, hl, ho⟩ := h
  generalize hb : (s.pc p).owns = b at hs
  generalize hb' : pc'.owns = b' at hs
  generalize hl' : s'.locked = l' at hs
  cases hs with
  | keep => exact ⟨o, hl, ho.update_keep (hb'.trans hb.symm)⟩
  | set hfree =>
    rw [hfree] at hl
    exact ⟨some p, rfl, ho.update_acquire (by simpa using hl.symm) hb'⟩
  | clear => exact ⟨none, rfl, ho.update_release hb hb'⟩

/-- `p` moves from `a` to `pc'`, and nothing changes for the others but what it
    may change with the locks it holds. The defaults are those of a step that
    only moves on. -/
structure Moves (lk : C) (pidOf : P → Nat) (s s' : State P C) (p : P) (a pc' : Pc P) : Prop where
  old : s.pc p = a
  pc : s'.pc = Function.update s.pc p pc' := by rfl
  state : ∀ q, q ≠ p → s'.state q = s.state q := by intros; rfl
  chan : ∀ q, q ≠ p → s'.chan q = s.chan q := by intros; rfl
  lkLock : LockStep p s.lkLock s'.lkLock a.holdsLk pc'.holdsLk := by exact .keep
  ptableLock : LockStep p s.ptableLock s'.ptableLock a.holdsTable pc'.holdsTable := by exact .keep
  flag : FlagStep s.locked s'.locked a.owns pc'.owns := by exact .keep
  locked : s'.locked = s.locked ∨ a.holdsLk = true := by exact Or.inl rfl
  tested : ∀ b, pc'.tested = some b → s'.locked = b ∨ (a.tested = some b ∧ s'.locked = s.locked) := by
    first | exact fun b hb => Or.inr ⟨hb, rfl⟩ | (intro b hb; cases hb)
  pid : ∀ q, q ≠ p → (s.pc q).named = true → s'.pid = s.pid := by intros; rfl
  named : pc'.named = true → s'.pid = pidOf p ∨ (a.named = true ∧ s'.pid = s.pid) := by
    first | exact fun _ => Or.inr ⟨rfl, rfl⟩ | (intro hn; cases hn)
  onChan : (s'.chan p = s.chan p ∧ pc'.onChan = a.onChan) ∨
    (s'.chan p = some lk ↔ pc'.onChan = true) := by exact Or.inl ⟨rfl, rfl⟩
  onCpu : pc'.onCpu = true → s'.state p = .RUNNING ∨ (a.onCpu = true ∧ s'.state p = s.state p) := by
    first | exact fun _ => Or.inr ⟨rfl, rfl⟩ | (intro hc; cases hc)
  /-- the wakeups that were to come are still to come -/
  pending : ∀ q, q ≠ p → Waits s q → (s.locked = true ∨ a.Pending q) →
    s'.locked = true ∨ pc'.Pending q := by exact fun _ _ _ hor => hor
  /-- and nobody starts to wait for a lock that is free -/
  awaited : pc'.asleep = true → s'.locked = true ∨
    (a.asleep = true ∧ a ≠ .switched ∧ s'.locked = s.locked) := by
    first | (intro ha; cases ha; done) | exact fun _ => Or.inr ⟨rfl, by simp, rfl⟩

namespace Inv

section

variable (h : Inv lk pidOf s)

include h

omit [DecidableEq C] in
theorem move {a : Pc P} (pc' : Pc P) (hm : Moves lk pidOf s s' p a pc') : Inv lk pidOf s' := by
  obtain rfl := hm.old
  have hself : s'.pc p = pc' := by rw [hm.pc, update_self]
  have hother : ∀ q, q ≠ p → s'.pc q = s.pc q := by
    intro q hq
    rw [hm.pc, update_of_ne hq]
  refine ⟨by rw [hm.pc]; exact h.lkLock.step hm.lkLock,
    by rw [hm.pc]; exact h.ptableLock.step hm.ptableLock,
    by rw [hm.pc]; exact hm.flag.owner h.owner, fun q b hb => ?_, fun q hn => ?_, fun q => ?_,
    fun q hr => ?_, fun q hw => ?_⟩
  · by_cases hqp : q = p
    · rcases hm.tested b (by rwa [hqp, hself] at hb) with hl | ⟨hold, heq⟩
      · exact hl
      · exact heq.trans (h.tested p b hold)
    · rw [hother q hqp] at hb
      rcases hm.locked with heq | hheld
      · rw [heq]
        exact h.tested q b hb
      · -- `lk->lk` is held by one process only
        exact absurd (h.lkLock.place_unique (Pc.holdsLk_of_tested hb) hheld) hqp
  · by_cases hqp : q = p
    · rw [hqp]
      rcases hm.named (by rwa [hqp, hself] at hn) with hpid | ⟨hold, heq⟩
      · exact hpid
      · exact heq.trans (h.pid p hold)
    · rw [hother q hqp] at hn
      rw [hm.pid q hqp hn]
      exact h.pid q hn
  · by_cases hqp : q = p
    · rw [hqp, hself]
      rcases hm.onChan with ⟨hc, hon⟩ | hon
      · rw [hc, hon]
        exact h.chan p
      · exact hon
    · rw [hother q hqp, hm.chan q hqp]
      exact h.chan q
  · by_cases hqp : q = p
    · rw [hqp]
      rcases hm.onCpu (by rwa [hqp, hself] at hr) with hrun | ⟨hold, heq⟩
      · exact hrun
      · exact heq.trans (h.onCpu p hold)
    · rw [hother q hqp] at hr
      rw [hm.state q hqp]
      exact h.onCpu q hr
  · by_cases hqp : q = p
    · rw [hqp] at hw ⊢
      rcases hm.awaited (hself ▸ hw.1) with hl | ⟨hasleep, hne, heq⟩
      · exact Or.inl hl
      · rcases h.awaited p ⟨hasleep, fun hsw => absurd hsw hne⟩ with hl | ⟨r, hr⟩
        · exact Or.inl (heq.trans hl)
        · have hrp : r ≠ p := by
            rintro rfl
            exact Pc.not_pending_of_asleep hasleep hr
          exact Or.inr ⟨r, by rwa [hother r hrp]⟩
    · have hws : Waits s q := by
        unfold Waits at hw ⊢
        rwa [hother q hqp, hm.state q hqp] at hw
      have hstill : s.locked = true ∨ (s.pc p).Pending q → s'.locked = true ∨
          ∃ r, (s'.pc r).Pending q := by
        intro hor
        rcases hm.pending q hqp hws hor with hl | hp
        · exact Or.inl hl
        · exact Or.inr ⟨p, by rwa [hself]⟩
      rcases h.awaited q hws with hl | ⟨r, hr⟩
      · exact hstill (Or.inl hl)
      · by_cases hrp : r = p
        · exact hstill (Or.inr (hrp ▸ hr))
        · exact Or.inr ⟨r, by rwa [hother r hrp]⟩

section

omit [DecidableEq P] [DecidableEq C]

theorem locked_of_owns (hp : (s.pc p).owns = true) : s.locked = true := by
  obtain ⟨o, hl, ho⟩ := h.owner
  rw [hl, (ho p).mp hp]
  rfl

theorem not_owns (hl : s.locked = false) (p : P) : (s.pc p).owns = false := by
  by_contra hne
  rw [h.locked_of_owns (p := p) (by simpa using hne)] at hl
  cases hl

/-- A process that is named owns the lock or holds `lk->lk`. -/
theorem named_eq (hp : (s.pc p).holdsLk = true) (hq : (s.pc q).named = true)
    (howns : (s.pc q).owns = true → q = p) : q = p := by
  by_cases hq' : (s.pc q).owns = true
  · exact howns hq'
  · refine h.lkLock.place_unique (f := Pc.holdsLk) ?_ hp
    cases hpc : s.pc q <;> simp_all [Pc.named, Pc.owns, Pc.holdsLk]

end

section

omit [DecidableEq C]

/-- A change of state that puts nobody to sleep on `lk` and stops no process
    that is on a CPU in the lock's code. -/
theorem setState {st : ProcState} (hcpu : (s.pc p).onCpu = true → st = .RUNNING)
    (hsleep : s.pc p = .switched → st ≠ .SLEEPING) : Inv lk pidOf (s.setState p st) := by
  have hself : (s.setState p st).state p = st := update_self p _ _
  have hother : ∀ q, q ≠ p → (s.setState p st).state q = s.state q :=
    fun q hqp => update_of_ne hqp _ _
  refine ⟨h.lkLock, h.ptableLock, h.owner, h.tested, h.pid, h.chan, fun q hq => ?_, fun q hw => ?_⟩
  · by_cases hqp : q = p
    · rw [hqp, hself]
      exact hcpu (hqp ▸ hq)
    · rw [hother q hqp]
      exact h.onCpu q hq
  · refine h.awaited q ⟨hw.1, fun hsw => ?_⟩
    by_cases hqp : q = p
    · rw [hqp] at hw hsw
      exact absurd (hself.symm.trans (hw.2 hsw)) (hsleep hsw)
    · exact (hother q hqp).symm.trans (hw.2 hsw)

/-- A process that is not in `sleep(lk)` changes its channel. -/
theorem setChan {c : Option C} (hp : (s.pc p).onChan = false) (hc : c ≠ some lk) :
    Inv lk pidOf (s.setChan p c) := by
  refine ⟨h.lkLock, h.ptableLock, h.owner, h.tested, h.pid, fun q => ?_, h.onCpu, h.awaited⟩
  by_cases hqp : q = p
  · have hself : (s.setChan p c).chan p = c := update_self p _ _
    rw [hqp, hself]
    refine iff_of_false hc ?_
    rw [show (s.setChan p c).pc p = s.pc p from rfl, hp]
    exact Bool.false_ne_true
  · have hother : (s.setChan p c).chan q = s.chan q := update_of_ne hqp _ _
    rw [hother]
    exact h.chan q

/-- A sleeper is made `RUNNABLE`. -/
theorem rouse (hq : s.state q = .SLEEPING) : Inv lk pidOf (s.setState q .RUNNABLE) := by
  refine h.setState (fun hcpu => ?_) (fun _ => by simp)
  have hrun := h.onCpu q hcpu
  rw [hq] at hrun
  cases hrun

end

theorem wake (c : C) (q : P) : Inv lk pidOf (s.wake c q) := by
  unfold State.wake
  split
  · next hq => exact h.rouse hq.1
  · exact h

end

theorem wakeAll (c : C) (qs : List P) : ∀ {s : State P C}, Inv lk pidOf s →
    Inv lk pidOf (qs.foldl (fun s q => s.wake c q) s) := by
  induction qs with
  | nil => exact id
  | cons q qs ih => exact fun h => ih (h.wake c q)

/-- The loop of `wakeup1` visits one more process. -/
theorem scan (h : Inv lk pidOf s) {rest : List P} (hp : s.pc p = .scan (q :: rest)) :
    Inv lk pidOf ((s.goto p (.scan rest)).wake lk q) := by
  have hcomm : (s.goto p (.scan rest)).wake lk q = (s.wake lk q).goto p (.scan rest) := by
    unfold State.wake State.goto
    simp only
    split <;> rfl
  have hpc : (s.wake lk q).pc = s.pc := by
    unfold State.wake
    split <;> rfl
  have hw := h.wake lk q
  rw [hcomm]
  have hp' : (s.wake lk q).pc p = .scan (q :: rest) := by rw [hpc, hp]
  refine hw.move (.scan rest) { old := hp', pending := fun r hrp hwait hor => ?_ }
  rcases hor with hl | hpend
  · exact Or.inl hl
  · refine Or.inr ?_
    rcases List.mem_cons.mp hpend with rfl | hrest
    · -- the process just visited waits no longer
      exfalso
      have hnotab : ((s.wake lk r).pc r).holdsTable = false := by
        by_contra hne
        have hheld : ((s.wake lk r).pc p).holdsTable = true := by rw [hp']; rfl
        exact hrp (hw.ptableLock.place_unique (by simpa using hne) hheld)
      have hsw : (s.wake lk r).pc r = .switched := by
        have hasleep := hwait.1
        cases hpcr : (s.wake lk r).pc r <;> simp_all [Pc.asleep, Pc.holdsTable]
      have hst := hwait.2 hsw
      have hchan : s.chan r = some lk := (h.chan r).mpr (by rw [← hpc, hsw]; rfl)
      unfold State.wake at hst
      split at hst
      · have hset : (s.setState r .RUNNABLE).state r = .RUNNABLE := update_self r _ _
        rw [hset] at hst
        cases hst
      · next hno => exact hno ⟨hst, hchan⟩
    · exact hrest

/-- **One statement** of `acquiresleep` or `releasesleep`. -/
theorem advance (h : Inv lk pidOf s) (hrun : s.state p = .RUNNING ∨ s.pc p = .sched)
    (hst : s.advance procs lk pidOf p = some s') : Inv lk pidOf s' := by
  have hcpu : s.pc p ≠ .sched → s.state p = .RUNNING := fun hne => hrun.resolve_right hne
  unfold State.advance at hst
  split at hst
  case h_1 hp =>
    obtain ⟨hfree, rfl⟩ := of_guard hst
    exact h.move .test
      { old := hp, lkLock := .acquire hfree, onCpu := fun _ => Or.inl (hcpu (by simp [hp])) }
  case h_2 hp =>
    -- the test: `lk->lk` is held, so what it says stays true
    cases hst
    by_cases hl : s.locked = true
    · rw [if_pos hl]
      exact h.move .lockTable { old := hp, tested := fun b hb => by cases hb; exact Or.inl hl }
    · rw [if_neg hl]
      exact h.move .setLocked
        { old := hp, tested := fun b hb => by cases hb; exact Or.inl (Bool.eq_false_iff.mpr hl) }
  case h_3 hp =>
    -- nobody had set `lk->locked`
    cases hst
    have hl : s.locked = false := h.tested p false (by rw [hp]; rfl)
    exact h.move .setPid
      { old := hp, flag := .set hl, locked := Or.inr rfl, pending := fun _ _ _ _ => Or.inl rfl }
  case h_4 hp =>
    cases hst
    have hl : s.locked = true := h.locked_of_owns (p := p) (by rw [hp]; rfl)
    refine h.move .unlock { old := hp, pid := fun q hqp hn => ?_, named := fun _ => Or.inl rfl }
    obtain ⟨o, _, ho⟩ := h.owner
    exact absurd (h.named_eq (by rw [hp]; rfl) hn
      (fun hq => ho.place_unique hq (by rw [hp]; rfl))) hqp
  case h_5 hp =>
    cases hst
    exact h.move .holding { old := hp, lkLock := .release }
  case h_6 hp =>
    obtain ⟨hfree, rfl⟩ := of_guard hst
    exact h.move .unlockLk { old := hp, ptableLock := .acquire hfree }
  case h_7 hp =>
    -- `lk->locked` is set when `lk->lk` is given up
    cases hst
    have hl : s.locked = true := h.tested p true (by rw [hp]; rfl)
    exact h.move .setChan { old := hp, lkLock := .release, awaited := fun _ => Or.inl hl }
  case h_8 hp =>
    cases hst
    exact h.move .setState
      { old := hp
        chan := fun q hqp => update_of_ne hqp _ _
        onChan := Or.inr (iff_of_true (update_self p _ _) rfl) }
  case h_9 hp =>
    cases hst
    exact h.move .sched { old := hp, state := fun q hqp => update_of_ne hqp _ _ }
  case h_10 hp =>
    cases hst
    exact h.move .switched { old := hp, ptableLock := .release }
  case h_11 hp =>
    cases hst
    have hnone : ((s.goto p .unlockTable).setChan p none).chan p = none := update_self p _ _
    exact h.move .unlockTable
      { old := hp
        chan := fun q hqp => update_of_ne hqp _ _
        onChan := Or.inr (by rw [hnone]; exact iff_of_false nofun Bool.false_ne_true) }
  case h_12 hp =>
    cases hst
    exact h.move .relock { old := hp, ptableLock := .release }
  case h_13 hp =>
    obtain ⟨hfree, rfl⟩ := of_guard hst
    exact h.move .test
      { old := hp, lkLock := .acquire hfree, onCpu := fun _ => Or.inl (hcpu (by simp [hp])) }
  case h_14 hp =>
    obtain ⟨hfree, rfl⟩ := of_guard hst
    exact h.move .clearLocked
      { old := hp, lkLock := .acquire hfree, onCpu := fun _ => Or.inl (hcpu (by simp [hp])) }
  case h_15 hp =>
    -- `lk->locked` is cleared: every wakeup is now to come from here
    cases hst
    exact h.move .clearPid
      { old := hp
        flag := .clear
        locked := Or.inr rfl
        tested := fun b hb => by cases hb; exact Or.inl rfl
        pending := fun _ _ _ _ => Or.inr trivial }
  case h_16 hp =>
    cases hst
    have hl : s.locked = false := h.tested p false (by rw [hp]; rfl)
    refine h.move .wakeup
      { old := hp, pid := fun q hqp hn => ?_, pending := fun _ _ _ _ => Or.inr trivial }
    refine absurd (h.named_eq (by rw [hp]; rfl) hn (fun hq => ?_)) hqp
    rw [h.not_owns hl q] at hq
    cases hq
  case h_17 hp =>
    obtain ⟨hfree, rfl⟩ := of_guard hst
    -- the scan starts with the whole table
    exact h.move (.scan procs.proc)
      { old := hp
        ptableLock := .acquire hfree
        pending := fun q _ _ _ => Or.inr (procs.complete q) }
  case h_18 hp =>
    cases hst
    exact h.move .wakeupDone
      { old := hp, pending := fun _ _ _ hor => hor.imp_right (fun hf => by cases hf) }
  case h_19 q rest hp =>
    cases hst
    exact h.scan hp
  case h_20 hp =>
    cases hst
    exact h.move .relUnlock { old := hp, ptableLock := .release }
  case h_21 hp =>
    cases hst
    exact h.move .outside { old := hp, lkLock := .release }
  all_goals cases hst

/-- **One step** of the system. -/
theorem step (h : Inv lk pidOf s) (hst : next procs lk pidOf s l = some s') : Inv lk pidOf s' := by
  cases l with
  | acquiresleep p =>
    obtain ⟨⟨hp, hrun⟩, rfl⟩ := of_guard hst
    exact h.move .acquire { old := hp }
  | releasesleep p =>
    obtain ⟨⟨hp, hrun⟩, rfl⟩ := of_guard hst
    exact h.move .relAcquire { old := hp }
  | advance p =>
    simp only [next, Option.ite_none_right_eq_some] at hst
    exact h.advance hst.1 hst.2
  | dispatch p =>
    simp only [next, Option.ite_none_right_eq_some] at hst
    obtain ⟨⟨hfree, hrunnable⟩, hst⟩ := hst
    split at hst
    · next hp =>
      cases hst
      exact h.move .clearChan
        { old := hp
          state := fun q hqp => update_of_ne hqp _ _
          ptableLock := .acquire hfree
          onCpu := fun _ => Or.inl (update_self p _ _) }
    · next hp =>
      cases hst
      -- elsewhere in the lock's code a process that is not on a CPU has no channel
      have hnochan : (s.pc p).onChan = false := by
        have hcpu : (s.pc p).onCpu = false := by
          by_contra hne
          have hrun := h.onCpu p (by simpa using hne)
          rw [hrunnable] at hrun
          cases hrun
        have hnotab : (s.pc p).holdsTable = false := by
          by_contra hne
          have hheld := (h.ptableLock p).mp (by simpa using hne)
          rw [hfree] at hheld
          cases hheld
        cases hpc : s.pc p <;> simp_all [Pc.onChan, Pc.onCpu, Pc.holdsTable]
      exact (h.setState (fun _ => rfl) (fun _ => by simp)).setChan hnochan (by simp)
  | yield p =>
    obtain ⟨⟨_, _, hpre⟩, rfl⟩ := of_guard hst
    refine h.setState (fun hcpu => ?_) (fun _ => by simp)
    cases hpc : s.pc p <;> simp_all [Pc.preemptible, Pc.onCpu]
  | kill q =>
    obtain ⟨_, rfl⟩ := of_guard hst
    split
    · next hq => exact h.rouse hq
    · exact h
  | sleep p c =>
    obtain ⟨⟨_, _, hp, hc⟩, rfl⟩ := of_guard hst
    have hfree : s.pc p = .outside ∨ s.pc p = .holding := by
      cases hpc : s.pc p <;> simp_all [Pc.free]
    have hset : Inv lk pidOf (s.setState p .SLEEPING) := by
      refine h.setState (fun hcpu => ?_) (fun hsw => ?_)
      · rcases hfree with hfree | hfree <;> rw [hfree] at hcpu <;> cases hcpu
      · rcases hfree with hfree | hfree <;> rw [hfree] at hsw <;> cases hsw
    refine hset.setChan ?_ (by simpa using hc)
    rcases hfree with hfree | hfree <;> rw [show (s.setState p .SLEEPING).pc p = s.pc p from rfl,
      hfree] <;> rfl
  | wakeup c =>
    obtain ⟨_, rfl⟩ := of_guard hst
    exact wakeAll c procs.proc h
  | restate p st =>
    obtain ⟨⟨_, hp, _, hne⟩, rfl⟩ := of_guard hst
    exact h.setState (fun hcpu => by rw [hp] at hcpu; cases hcpu) (fun _ => hne)

omit [DecidableEq P] [DecidableEq C] in
theorem init (h : Init lk s) : Inv lk pidOf s := by
  have hout : ∀ (f : Pc P → Bool), f .outside = false → Guards none (fun p => f (s.pc p) = true) := by
    intro f hf p
    show f (s.pc p) = true ↔ none = some p
    rw [h.pc p, hf]
    exact iff_of_false Bool.false_ne_true (fun hn => by cases hn)
  refine ⟨h.lkLock ▸ hout _ rfl, h.ptableLock ▸ hout _ rfl, ⟨none, h.locked, hout _ rfl⟩,
    fun p b hb => ?_, fun p hn => ?_, fun p => ?_, fun p hc => ?_, fun p hw => ?_⟩
  · rw [h.pc p] at hb
    cases hb
  · rw [h.pc p] at hn
    cases hn
  · rw [h.pc p]
    exact iff_of_false (h.chan p) Bool.false_ne_true
  · rw [h.pc p] at hc
    cases hc
  · have := hw.1
    rw [h.pc p] at this
    cases this

end Inv

theorem inv_reachable (h : Reachable (sleepLock procs lk pidOf) s) : Inv lk pidOf s :=
  h.invariant (fun _ h0 => .init h0) (fun _ _ _ hi hst => hi.step hst)

/-! ### Mutual exclusion and wakeups -/

/-- **Sleep locks**: at most one process is between `acquiresleep` and
    `releasesleep`; and when the lock is free and no `releasesleep` is under
    way, nobody sleeps on it. -/
theorem exclusion_and_no_lost_wakeup {procs : PTable P} {lk : C} {pidOf : P → Nat}
    {s : State P C} (h : Reachable (sleepLock procs lk pidOf) s) :
    (∀ p q, s.pc p = .holding → s.pc q = .holding → p = q) ∧
    ¬ (s.locked = false ∧ (∀ q, (s.pc q).inRelease = false) ∧
      ∃ p, s.state p = .SLEEPING ∧ s.chan p = some lk) := by
  have hinv := inv_reachable h
  constructor
  · intro p q hp hq
    obtain ⟨_, _, ho⟩ := hinv.owner
    exact ho.place_unique (by rw [hp]; rfl) (by rw [hq]; rfl)
  · rintro ⟨hl, hnone, p, hst, hchan⟩
    have hasleep : (s.pc p).asleep = true := by
      have hon := (hinv.chan p).mp hchan
      have hcpu : (s.pc p).onCpu = false ∨ s.state p = .RUNNING := by
        by_cases hc : (s.pc p).onCpu = true
        · exact Or.inr (hinv.onCpu p hc)
        · exact Or.inl (by simpa using hc)
      rw [hst] at hcpu
      cases hpc : s.pc p <;> simp_all [Pc.onChan, Pc.onCpu, Pc.asleep]
    rcases hinv.awaited p ⟨hasleep, fun _ => hst⟩ with hlocked | ⟨q, hq⟩
    · rw [hl] at hlocked
      cases hlocked
    · -- who still has to wake `p` is in `releasesleep`
      have hrel := hnone q
      cases hpc : s.pc q <;> simp_all [Pc.Pending, Pc.inRelease]

/-- Two processes and their table. -/
def twoProcs : PTable (Fin 2) := ⟨[0, 1], by decide⟩

def twoIdle : State (Fin 2) Bool where
  lkLock := none
  ptableLock := none
  locked := false
  pid := 0
  pc := fun _ => .outside
  state := fun _ => .RUNNING
  chan := fun _ => none

/-- Process 0 takes the lock, process 1 goes to sleep for it. -/
def contended : List (Label (Fin 2) Bool) :=
  [.acquiresleep 0, .acquiresleep 1] ++ List.replicate 5 (.advance 0) ++
  List.replicate 7 (.advance 1)

theorem exclusion_contended :
    ∃ s, contended.foldlM (next twoProcs true (fun p => p.val + 1)) twoIdle = some s ∧
      s.pc 0 = .holding ∧ s.state 1 = .SLEEPING ∧ s.chan 1 = some true ∧
      ∀ p, s.pc p = .holding → p = 0 := by
  refine ⟨_, rfl, rfl, rfl, rfl, fun p hp => ?_⟩
  have hinit : Init true twoIdle := ⟨rfl, rfl, rfl, rfl, fun _ => rfl, by decide⟩
  have hreach : Reachable (sleepLock twoProcs true (fun p => p.val + 1)) _ :=
    Reachable.foldlM (fun _ _ _ h => h) contended (.init hinit) rfl
  exact (exclusion_and_no_lost_wakeup hreach).1 p 0 hp rfl

end Xv6.SleepLock
