import Xv6.Proc.Wait

/-! # Time Accounting

    At every timer tick `ticking` charges the processes it finds running or
    sleeping, and `waitx` takes what is left of a process's life for the time
    it has waited. A `Tally` counts the same ticks without a bound; the
    counters of the process are its numbers modulo `2^32`. They are `int`s,
    so after `2^31` ticks `waitx` can report a negative time.
-/

namespace Xv6.Process

open LTS

/-! ### Counting ticks -/

/-- The timer ticks since the end of a process's `allocproc`, by the state
    in which the sweep of `ticking` finds the process. -/
structure Tally where
  ran : Nat
  slept : Nat
  waited : Nat
  /-- Ticks after the exit. -/
  dead : Nat

namespace Tally

def zero : Tally := ⟨0, 0, 0, 0⟩

/-- The ticks between creation and exit. -/
def lived (c : Tally) : Nat := c.ran + c.slept + c.waited

def age (c : Tally) : Nat := c.lived + c.dead

/-- One more tick. -/
def count (c : Tally) : ProcState → Tally
  | .RUNNING => { c with ran := c.ran + 1 }
  | .SLEEPING => { c with slept := c.slept + 1 }
  | .ZOMBIE => { c with dead := c.dead + 1 }
  | _ => { c with waited := c.waited + 1 }

end Tally

namespace Table

/-- The tally of entry `p` after the step `l` from `t` to `t'`. A new process
    starts a new tally. -/
def nextTally (t : Table) (l : Label) (t' : Table) (p : PIdx) (c : Tally) : Tally :=
  if t.born l = some p then .zero
  else
    match l with
    | .tick => c.count (t'.proc p).state
    | _ => c

theorem nextTally_tick (t t' : Table) (p : PIdx) (c : Tally) :
    nextTally t .tick t' p c = c.count (t'.proc p).state := by
  simp [nextTally, born]

theorem nextTally_of_ne {t t' : Table} {l : Label} {p : PIdx} {c : Tally} (hb : t.born l ≠ some p)
    (hl : l ≠ .tick) : nextTally t l t' p c = c := by
  unfold nextTally
  rw [if_neg hb]
  split
  · exact absurd rfl hl
  · rfl

/-- The tally of entry `p` over a run. -/
def tally (σ : Nat → Table) (ls : Nat → Label) (p : PIdx) : Nat → Tally
  | 0 => .zero
  | n + 1 => nextTally (σ n) (ls n) (σ (n + 1)) p (tally σ ls p n)

/-! ### The counters of a process -/

/-- At time `now` the counters of a process are the numbers of its tally,
    modulo `2^32`. -/
structure Accounted (now : Word) (pr : Proc) (c : Tally) : Prop where
  rtime : pr.rtime = BitVec.ofNat 32 c.ran
  iotime : pr.iotime = BitVec.ofNat 32 c.slept
  age : now - pr.ctime = BitVec.ofNat 32 c.age
  alive : pr.state ≠ .ZOMBIE → c.dead = 0
  lived : pr.state = .ZOMBIE → pr.etime - pr.ctime = BitVec.ofNat 32 c.lived

variable {t t' : Table} {p : PIdx} {l : Label} {now : Word} {pr pr' : Proc} {c : Tally}

namespace Accounted

section

variable (h : Accounted now pr c)

include h

/-- The step does not touch the times. -/
theorem same (hr : pr'.rtime = pr.rtime) (hi : pr'.iotime = pr.iotime) (hc : pr'.ctime = pr.ctime)
    (he : pr'.etime = pr.etime) (hz : pr'.state = .ZOMBIE ↔ pr.state = .ZOMBIE) :
    Accounted now pr' c where
  rtime := hr.trans h.rtime
  iotime := hi.trans h.iotime
  age := hc ▸ h.age
  alive := fun hne => h.alive (fun hz' => hne (hz.mpr hz'))
  lived := fun hz' => by rw [hc, he]; exact h.lived (hz.mp hz')

theorem roused (hr : Roused pr pr') : Accounted now pr' c := by
  cases hr with
  | same => exact h.same rfl rfl rfl rfl Iff.rfl
  | woken _ _ _ hs => exact h.same rfl rfl rfl rfl (by simp [hs])

/-- `ticking` adds the tick to the counter that the tally adds it to. -/
theorem ticked :
    Accounted (now + 1) { pr with
      rtime := if pr.state = .RUNNING then pr.rtime + 1 else pr.rtime
      iotime := if pr.state = .SLEEPING then pr.iotime + 1 else pr.iotime }
      (c.count pr.state) := by
  obtain ⟨hr, hi, ha, hal, hl⟩ := h
  have hone : (1 : Word) = BitVec.ofNat 32 1 := rfl
  have hage : (c.count pr.state).age = c.age + 1 := by
    cases pr.state <;> simp only [Tally.count, Tally.age, Tally.lived] <;> omega
  have hnow : now + 1 - pr.ctime = BitVec.ofNat 32 (c.count pr.state).age := by
    rw [hage, BitVec.ofNat_add, ← ha, ← hone]
    grind
  refine ⟨?_, ?_, hnow, fun hne => ?_, fun hz => ?_⟩
  · cases hs : pr.state <;> simp [Tally.count, hr, BitVec.ofNat_add, hone]
  · cases hs : pr.state <;> simp [Tally.count, hi, BitVec.ofNat_add, hone]
  · have hd := hal hne
    cases hs : pr.state <;> simp_all [Tally.count]
  · have hld := hl hz
    rw [show pr.state = .ZOMBIE from hz]
    exact hld

/-- A running process exits. -/
theorem exited {parent : Option PIdx} {sz : Nat} (hs : pr.state = .RUNNING) :
    Accounted now { pr with parent := parent, sz := sz, state := .ZOMBIE, etime := now } c where
  rtime := h.rtime
  iotime := h.iotime
  age := h.age
  alive := fun hne => absurd rfl hne
  lived := by
    intro _
    have hd := h.alive (by simp [hs])
    have ha := h.age
    rwa [Tally.age, hd, Nat.add_zero] at ha

end

/-- A new process. -/
theorem zero (hc : pr.ctime = now) (hr : pr.rtime = 0) (hi : pr.iotime = 0)
    (hz : pr.state ≠ .ZOMBIE) : Accounted now pr .zero where
  rtime := hr
  iotime := hi
  age := by rw [hc, BitVec.sub_self]; rfl
  alive := fun _ => rfl
  lived := fun hz' => absurd hz' hz

end Accounted

/-- **One step** keeps the counters of a process and its tally together. -/
theorem Effect.accounted (ht' : TableInv t') (he : Effect t l t')
    (h : t.Made p → Accounted t.ticks (t.proc p) c) (hm' : t'.Made p) :
    Accounted t'.ticks (t'.proc p) (nextTally t l t' p c) := by
  have hback := he.made_back hm'
  have hused := ht'.ctl.made_used hm'
  have hent := he.entry p
  by_cases hl : l = .tick
  · subst hl
    have hacc := h (hback.resolve_right (by simp [born]))
    rw [nextTally_tick, he.tick rfl]
    generalize t'.proc p = pr at hent ⊢
    generalize t'.inTimer p = b at hent
    cases hent with
    | ticked hro => exact (hacc.roused hro).ticked
    | roused hno | slept _ hno | reaped _ _ _ hno => exact absurd rfl hno
    | taken _ hno => rcases hno with hno | ⟨_, hno⟩ <;> cases hno
    | dropped _ _ hno => rcases hno with hno | hno <;> cases hno
  · rw [he.ticks hl]
    by_cases hb : t.born l = some p
    · obtain ⟨_, _, hc, hr, hi, hz⟩ := hent.at_birth hb
      unfold nextTally
      rw [if_pos hb]
      exact .zero hc hr hi hz
    · have hacc := h (hback.resolve_right hb)
      rw [nextTally_of_ne hb hl]
      generalize t'.proc p = pr at hent hused ⊢
      generalize t'.inTimer p = b at hent
      cases hent with
      | roused _ _ hro => exact hacc.roused hro
      | killed _ hro =>
        have hkilled : Accounted t.ticks { t.proc p with killed := true } c :=
          hacc.same rfl rfl rfl rfl Iff.rfl
        exact hkilled.roused hro
      | ticked => exact absurd rfl hl
      | exited _ _ hs => exact hacc.exited hs
      | aged _ hag =>
        rcases hag with rfl | ⟨_, _, _, rfl⟩ <;> exact hacc.same rfl rfl rfl rfl Iff.rfl
      | ran _ hag hs =>
        rcases hag with rfl | ⟨_, _, _, rfl⟩ <;> exact hacc.same rfl rfl rfl rfl (by simp [hs])
      | booted => exact absurd rfl hb
      | stacked _ _ hc => exact absurd hc hb
      | slept _ _ _ hs | yielded _ hs | published _ _ _ _ hs | taken _ _ hs | dropped _ _ _ _ hs =>
        exact hacc.same rfl rfl rfl rfl (by simp [hs])
      | flagged | counted | forked | cloned | faulted | committed =>
        exact hacc.same rfl rfl rfl rfl Iff.rfl
      | reaped => exact absurd rfl hused

/-- Nothing is charged to a process that has exited. -/
theorem Effect.zombie_frozen (he : Effect t l t') (hz : (t.proc p).state = .ZOMBIE) :
    (t'.proc p).rtime = (t.proc p).rtime ∧ (t'.proc p).iotime = (t.proc p).iotime := by
  have hent := he.entry p
  generalize t'.proc p = pr at hent ⊢
  generalize t'.inTimer p = b at hent
  cases hent with
  | roused _ _ hro | killed _ hro => cases hro <;> exact ⟨rfl, rfl⟩
  | ticked hro =>
    cases hro with
    | same => simp [hz]
    | woken _ _ _ hs => simp [hz] at hs
  | aged _ hag | ran _ hag => rcases hag with rfl | ⟨_, _, _, rfl⟩ <;> exact ⟨rfl, rfl⟩
  | booted _ _ _ hs | stacked _ _ _ _ hs => simp [hz] at hs
  | slept | exited | flagged | counted | yielded | taken | dropped | forked | cloned | published
  | reaped | faulted | committed => exact ⟨rfl, rfl⟩

/-- **The run**: from the end of its `allocproc` on, the counters of a
    process are its tally. -/
theorem accounted_run {σ : Nat → Table} {ls : Nat → Label} {N : Nat}
    (hrun : IsRun tableSystem σ ls N) (p : PIdx) (n : Nat) (hn : n ≤ N) (hm : (σ n).Made p) :
    Accounted (σ n).ticks ((σ n).proc p) (tally σ ls p n) := by
  induction n with
  | zero =>
    rw [show σ 0 = boot from hrun.init] at hm
    rcases hm with ha | ⟨_, hc⟩
    · exact absurd rfl ha.1
    · cases hc
  | succ n ih =>
    have htab := tableInv_reachable (hrun.reachable n (by omega))
    have hst := hrun.step n hn
    exact Effect.accounted (htab.step (l := ls n) hst) (Step.effect (l := ls n) htab hst)
      (fun hm => ih (by omega) hm) hm

/-! ### What `waitx` reports -/

/-- The times of a process are right: no more is charged to it than has
    passed, and `waitx` reports the ticks at which it was neither running nor
    sleeping. -/
structure TimesRight (now : Word) (pr : Proc) (c : Tally) : Prop where
  charged : pr.rtime.toInt + pr.iotime.toInt ≤ (now - pr.ctime).toInt
  exited : pr.state = .ZOMBIE → pr.rtime.toInt + pr.iotime.toInt ≤ (pr.etime - pr.ctime).toInt
  waited : pr.state = .ZOMBIE → 0 ≤ (waitxTimes pr).1.toInt ∧ (waitxTimes pr).1.toInt = c.waited

theorem toInt_ofNat_iff (n : Nat) : (BitVec.ofNat 32 n).toInt = n ↔ n < 2 ^ 31 := by
  rw [BitVec.toInt_ofNat']
  constructor
  · intro h
    have hlt := Int.bmod_lt (x := (n : Int)) (m := 2 ^ 32) (by decide)
    omega
  · intro h
    exact Int.bmod_eq_of_le (by omega) (by omega)

/-- What is left of a life after `rtime` and `iotime`. -/
theorem Accounted.wtime (h : Accounted now pr c) (hz : pr.state = .ZOMBIE) :
    (waitxTimes pr).1 = BitVec.ofNat 32 c.waited := by
  have hl := h.lived hz
  simp only [waitxTimes, h.rtime, h.iotime, hl, Tally.lived, BitVec.ofNat_add]
  grind

theorem Accounted.right (h : Accounted now pr c) (hage : c.age < 2 ^ 31) :
    TimesRight now pr c := by
  simp only [Tally.age, Tally.lived] at hage
  have hr : pr.rtime.toInt = c.ran := by
    rw [h.rtime]
    exact (toInt_ofNat_iff _).mpr (by omega)
  have hi : pr.iotime.toInt = c.slept := by
    rw [h.iotime]
    exact (toInt_ofNat_iff _).mpr (by omega)
  refine ⟨?_, fun hz => ?_, fun hz => ?_⟩
  · have ha : (now - pr.ctime).toInt = (c.age : Int) := by
      rw [h.age]
      exact (toInt_ofNat_iff _).mpr hage
    rw [hr, hi, ha]
    simp only [Tally.age, Tally.lived]
    omega
  · have hl : (pr.etime - pr.ctime).toInt = (c.lived : Int) := by
      rw [h.lived hz]
      exact (toInt_ofNat_iff _).mpr (by simp only [Tally.lived]; omega)
    rw [hr, hi, hl]
    simp only [Tally.lived]
    omega
  · rw [h.wtime hz, (toInt_ofNat_iff c.waited).mpr (by omega)]
    exact ⟨by omega, rfl⟩

/-- `t` after `n` ticks at which nobody sleeps. -/
def afterTicks (t : Table) (n : Nat) : Table :=
  { t with
    ticks := t.ticks + BitVec.ofNat 32 n
    proc := fun p =>
      { t.proc p with
        rtime := if (t.proc p).state = .RUNNING then (t.proc p).rtime + BitVec.ofNat 32 n
          else (t.proc p).rtime } }

theorem wakeup1_eq_self {chan : Option Chan} (h : ∀ p, (t.proc p).state ≠ .SLEEPING) :
    t.wakeup1 chan = t := by
  unfold wakeup1
  induction List.finRange NPROC with
  | nil => rfl
  | cons p ps ih =>
    rw [List.foldl_cons, show wakeupOne chan t p = t from if_neg (fun hs => h p hs.1)]
    exact ih

theorem reachable_afterTicks (h : Reachable tableSystem t)
    (hs : ∀ p, (t.proc p).state ≠ .SLEEPING) (n : Nat) :
    Reachable tableSystem (t.afterTicks n) := by
  induction n with
  | zero =>
    have heq : t.afterTicks 0 = t := by simp [afterTicks]
    rwa [heq]
  | succ n ih =>
    refine .step .tick ih ?_
    show t.afterTicks (n + 1) = (t.afterTicks n).tick
    unfold tick
    rw [wakeup1_eq_self (t := { t.afterTicks n with ticks := _ }) hs]
    have hone : (1 : Word) = BitVec.ofNat 32 1 := rfl
    have hproc : (t.afterTicks (n + 1)).proc =
        (ticking { t.afterTicks n with ticks := (t.afterTicks n).ticks + 1 }).proc := by
      funext p
      by_cases hr : (t.proc p).state = .RUNNING
      · simp [afterTicks, ticking, hr, BitVec.ofNat_add, BitVec.add_assoc, hone]
      · simp [afterTicks, ticking, hr, hs p]
    have hticks : (t.afterTicks (n + 1)).ticks = (t.afterTicks n).ticks + 1 := by
      simp [afterTicks, BitVec.ofNat_add, BitVec.add_assoc, hone]
    unfold ticking at hproc ⊢
    unfold afterTicks at hproc hticks ⊢
    simp only [Table.mk.injEq, true_and, and_true]
    exact ⟨hproc, hticks⟩

/-- The child of the first process has been `RUNNABLE` for `2^31` ticks when
    CPU 1 dispatches it. -/
def starvedChild : Table :=
  (((initForked.publish 1 |>.goto 0 .run).afterTicks (2 ^ 31)).schedule 1).toOption.getD boot

/-- It exits at once. -/
def starvedExit : Table := (starvedChild.exit 1).toOption.getD boot

theorem eq_ok_of_isSome {ε α : Type} {x : Except ε α} (d : α) (h : x.toOption.isSome = true) :
    x = .ok (x.toOption.getD d) := by
  cases x with
  | error => cases h
  | ok => rfl

end Table

end Xv6.Process
