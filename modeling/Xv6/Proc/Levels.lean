import Xv6.Proc.Mlfq

/-! # The Level Discipline of the Feedback Queues

    How `queue` and `curr_ticks` of a process change over its life. The work
    is split over several places: the timer interrupt counts ticks and raises
    `change_q`, the scheduler demotes after the context switch, the aging
    pass promotes, and `wakeup1` and `kill` enqueue on their own.

    The invariant and the theorem about runs are read off what a step can
    make of an entry.
-/

namespace Xv6.Process

open LTS

namespace Table

variable {t t' u : Table} {p : PIdx} {l : Label} {pr : Proc}

/-! ### The invariant -/

theorem two_le_q_ticks_max (i : Int) : 2 ≤ q_ticks_max i := by
  unfold q_ticks_max
  split <;> decide

theorem q_ticks_max_le (i : Int) : q_ticks_max i ≤ 32 := by
  unfold q_ticks_max
  split <;> decide

/-- The level and the ticks of one process are in range. -/
def InRange (pr : Proc) : Prop :=
  validLevel pr.queue ∧ 0 ≤ pr.curr_ticks.toInt ∧ pr.curr_ticks.toInt ≤ q_ticks_max pr.queue

/-- What holds of the levels between two steps. -/
structure LevelInv (t : Table) : Prop where
  range : ∀ p, t.Made p → InRange (t.proc p)
  runnable : ∀ p, (t.proc p).state = .RUNNABLE → (t.proc p).curr_ticks = 0
  embryo : ∀ p, (t.proc p).state = .EMBRYO → t.Made p →
    (t.proc p).queue = 0 ∧ (t.proc p).curr_ticks = 0
  timed : ∀ p, t.inTimer p = true → (t.proc p).state = .RUNNING ∧
    q_ticks_max (t.proc p).queue ≤ (t.proc p).curr_ticks.toInt
  flag : ∀ p, (t.proc p).change_q = t.inTimer p

theorem levelInv_boot : LevelInv boot where
  range := by
    rintro p (ha | ⟨c, hc⟩)
    · exact absurd rfl ha.1
    · cases hc
  runnable := fun _ hr => by cases hr
  embryo := fun _ he => by cases he
  timed := fun _ hin => by cases hin
  flag := fun _ => rfl

theorem InRange.of_zero (hl : validLevel pr.queue) (hc : pr.curr_ticks = 0) : InRange pr := by
  have hmax := two_le_q_ticks_max pr.queue
  have hzero : (0 : Word).toInt = 0 := by decide
  rw [InRange, hc, hzero]
  exact ⟨hl, Int.le_refl 0, by omega⟩

/-- A process that is woken up has its ticks reset. -/
theorem InRange.roused {pr' : Proc} (h : InRange pr) (hr : Roused pr pr') : InRange pr' := by
  cases hr with
  | same => exact h
  | woken => exact .of_zero h.1 rfl

/-- A queued process has used no ticks, so the smaller limit of the level
    above does not matter. -/
theorem InRange.aged {now : Word} {pr' : Proc} (h : InRange pr)
    (hr : pr.state = .RUNNABLE → pr.curr_ticks = 0) (hag : Aged now pr pr') : InRange pr' := by
  rcases hag with rfl | ⟨hs, h1, _, rfl⟩
  · exact h
  · obtain ⟨_, h5⟩ := h.1
    refine .of_zero (show validLevel (pr.queue - 1) from ⟨?_, ?_⟩) (hr hs)
    · omega
    · omega

/-- A tick below the limit does not overflow. -/
theorem toInt_succ {w : Word} {i : Int} (h0 : 0 ≤ w.toInt) (h : w.toInt < q_ticks_max i) :
    (w + 1).toInt = w.toInt + 1 := by
  have hmax := q_ticks_max_le i
  have hone : (1 : Word).toInt = 1 := by decide
  rw [BitVec.toInt_add, hone]
  exact Int.bmod_eq_of_le (by omega) (by omega)

namespace LevelInv

variable (h : LevelInv t)

include h

/-- The level and the ticks stay in range. -/
theorem range_step (ht' : TableInv t') (he : Effect t l t') (hm' : t'.Made p) :
    InRange (t'.proc p) := by
  have hback := he.made_back hm'
  have hused := ht'.ctl.made_used hm'
  have hent := he.entry p
  generalize t'.proc p = pr at hent hused ⊢
  generalize t'.inTimer p = b at hent
  rcases hback with hm | hb
  · have hr := h.range p hm
    cases hent with
    | roused _ _ hro | ticked hro =>
      have hro' := hr.roused hro
      exact hro'
    | killed _ hro =>
      have hkilled : InRange { t.proc p with killed := true } := hr
      exact hkilled.roused hro
    | aged _ hag | ran _ hag =>
      have hag' := hr.aged (h.runnable p) hag
      exact hag'
    | counted hs hlt =>
      obtain ⟨hl, h0, _⟩ := hr
      have hsucc := toInt_succ h0 hlt
      show validLevel (t.proc p).queue ∧ 0 ≤ ((t.proc p).curr_ticks + 1).toInt ∧
        ((t.proc p).curr_ticks + 1).toInt ≤ q_ticks_max (t.proc p).queue
      exact ⟨hl, by omega, by omega⟩
    | yielded =>
      -- demotion stops at level 4
      obtain ⟨h0, h5⟩ := hr.1
      refine .of_zero ?_ rfl
      show validLevel (if (t.proc p).change_q = true ∧ (t.proc p).queue ≠ 4 then
        (t.proc p).queue + 1 else (t.proc p).queue)
      split
      · next hcond =>
        have hne := hcond.2
        exact ⟨by omega, by omega⟩
      · exact ⟨h0, h5⟩
    | booted | stacked => exact .of_zero (show validLevel 0 by decide) rfl
    | published _ _ _ _ hemb hq =>
      obtain ⟨hq0, hct⟩ := h.embryo p hemb hm
      refine .of_zero ?_ hct
      rcases hq with rfl | rfl
      · exact (show validLevel 0 by decide)
      · exact hr.1
    | reaped => exact absurd rfl hused
    | slept | exited | flagged | taken | dropped | forked | cloned | faulted | committed =>
      exact hr
  · obtain ⟨hq, hct, _⟩ := hent.at_birth hb
    exact .of_zero (hq ▸ (show validLevel 0 by decide)) hct

theorem runnable_step (he : Effect t l t') (hr : (t'.proc p).state = .RUNNABLE) :
    (t'.proc p).curr_ticks = 0 := by
  have hback := he.made_back (p := p) (Or.inl (by simp [hr, Active]))
  have hent := he.entry p
  generalize t'.proc p = pr at hent hr ⊢
  generalize t'.inTimer p = b at hent
  cases hent with
  | roused _ _ hro | ticked hro | killed _ hro =>
    cases hro with
    | same => exact h.runnable p hr
    | woken => rfl
  | aged _ hag =>
    rcases hag with rfl | ⟨hs, _, _, rfl⟩
    · exact h.runnable p hr
    · exact h.runnable p hs
  | published _ _ _ _ hemb =>
    rcases hback with hm | hb
    · exact (h.embryo p hemb hm).2
    · cases hb
  | yielded | booted | stacked => rfl
  | slept | exited | ran | taken | dropped | reaped => cases hr
  | flagged hs | counted hs | faulted hs =>
    rw [show (t.proc p).state = .RUNNABLE from hr] at hs
    cases hs
  | forked | cloned | committed => exact h.runnable p hr

theorem embryo_step (ht : TableInv t) (he : Effect t l t') (hemb : (t'.proc p).state = .EMBRYO)
    (hm' : t'.Made p) : (t'.proc p).queue = 0 ∧ (t'.proc p).curr_ticks = 0 := by
  have hback := he.made_back hm'
  have hent := he.entry p
  generalize t'.proc p = pr at hent hemb ⊢
  generalize t'.inTimer p = b at hent
  rcases hback with hm | hb
  · cases hent with
    | roused _ _ hro | ticked hro | killed _ hro =>
      cases hro with
      | same => exact h.embryo p hemb hm
      | woken => cases hemb
    | aged _ hag =>
      rcases hag with rfl | ⟨hs, _, _, rfl⟩
      · exact h.embryo p hemb hm
      · rw [show (t.proc p).state = .EMBRYO from hemb] at hs
        cases hs
    | flagged hs | counted hs | faulted hs =>
      rw [show (t.proc p).state = .EMBRYO from hemb] at hs
      cases hs
    | slept | exited | ran | yielded | booted | dropped | published | reaped => cases hemb
    | taken _ _ hs => exact absurd hs (ht.ctl.made_used hm)
    | stacked => exact ⟨rfl, rfl⟩
    | forked | cloned | committed => exact h.embryo p hemb hm
  · obtain ⟨hq, hct, _⟩ := hent.at_birth hb
    exact ⟨hq, hct⟩

/-- Between the two halves of its timer interrupt nothing happens to a
    process. -/
theorem timed_step (he : Effect t l t') (hin : t'.inTimer p = true) :
    (t'.proc p).state = .RUNNING ∧
    q_ticks_max (t'.proc p).queue ≤ (t'.proc p).curr_ticks.toInt := by
  have hent := he.entry p
  generalize t'.proc p = pr at hent ⊢
  generalize t'.inTimer p = b at hent hin
  have hclash : ∀ {st : ProcState}, t.inTimer p = true → (t.proc p).state = st →
      st ≠ .RUNNING → False := fun hin hs hne => hne (hs.symm.trans (h.timed p hin).1)
  cases hent with
  | roused _ _ hro | ticked hro | killed _ hro =>
    cases hro with
    | same => exact h.timed p hin
    | woken _ _ _ hs => exact (hclash hin hs (by decide)).elim
  | aged _ hag =>
    rcases hag with rfl | ⟨hs, _⟩
    · exact h.timed p hin
    · exact (hclash hin hs (by decide)).elim
  | flagged hs hmax => exact ⟨hs, hmax⟩
  | counted hs hlt => exact absurd (h.timed p hin).2 (Int.not_le.mpr hlt)
  | faulted | committed => exact h.timed p hin
  | slept | exited | yielded => cases hin
  | ran _ _ hs | booted _ _ _ hs | taken _ _ hs | stacked _ _ _ _ hs | dropped _ _ _ _ hs
  | forked _ _ _ hs | cloned _ _ _ _ hs | published _ _ _ _ hs | reaped _ _ _ _ _ hs =>
    exact (hclash hin hs (by decide)).elim

theorem flag_step (he : Effect t l t') (p : PIdx) : (t'.proc p).change_q = t'.inTimer p := by
  have hent := he.entry p
  generalize t'.proc p = pr at hent ⊢
  generalize t'.inTimer p = b at hent ⊢
  have hflag := h.flag p
  cases hent with
  | roused _ _ hro | ticked hro | killed _ hro => cases hro <;> exact hflag
  | slept _ _ _ _ hin | exited _ _ _ hin => exact hflag.trans hin
  | aged _ hag | ran _ hag => rcases hag with rfl | ⟨_, _, _, rfl⟩ <;> exact hflag
  | flagged | yielded => rfl
  | counted | booted | taken | stacked | dropped | forked | cloned | published | reaped | faulted
  | committed => exact hflag

/-- **Preservation**: every step keeps the levels in order. -/
theorem step (ht : TableInv t) (hst : t.Step l t') : LevelInv t' := by
  have he := Step.effect ht hst
  exact
    { range := fun p hm => h.range_step (ht.step hst) he hm
      runnable := fun p hr => h.runnable_step he hr
      embryo := fun p hemb hm => h.embryo_step ht he hemb hm
      timed := fun p hin => h.timed_step he hin
      flag := fun p => h.flag_step he p }

end LevelInv

theorem levelInv_reachable (h : Reachable tableSystem t) : LevelInv t := by
  induction h with
  | init h0 =>
    cases h0
    exact levelInv_boot
  | step l hreach hst ih => exact ih.step (tableInv_reachable hreach) hst

/-! ### The discipline -/

/-- The ways in which the step `l` may change the level of `p`: down by one
    level in the re-enqueue of a process whose timer interrupt found its
    ticks used up, and up by one in an aging pass that found it queued
    for more than 30 ticks. -/
def LevelStep (t : Table) (l : Label) (t' : Table) (p : PIdx) : Prop :=
  (t'.proc p).queue = (t.proc p).queue ∨
  (l = .yield p ∧ t.inTimer p = true ∧ (t.proc p).queue ≠ 4 ∧
    (t.proc p).curr_ticks.toInt = q_ticks_max (t.proc p).queue ∧
    (t'.proc p).queue = (t.proc p).queue + 1) ∨
  (∃ k, l = .schedule k ∧ 1 ≤ (t.proc p).queue ∧
    p ∈ (t.queue (t.proc p).queue).toList ∧ (t.ticks - (t.proc p).enter).toInt > 30 ∧
    (t'.proc p).queue = (t.proc p).queue - 1)

/-- A process that sleeps stays at its level, until it is enqueued there
    with its ticks reset. -/
def SleepStep (t t' : Table) (p : PIdx) : Prop :=
  (t'.proc p).queue = (t.proc p).queue ∧
  ((t'.proc p).state = .SLEEPING ∨
   (t'.proc p).state = .RUNNABLE ∧ (t'.proc p).curr_ticks = 0 ∧
   p ∈ (t'.queue (t'.proc p).queue).toList)

/-- A queued process is queued at its own level. -/
theorem QueueInv.mem_own (h : QueueInv t none) (hr : (t.proc p).state = .RUNNABLE) :
    p ∈ (t.queue (t.proc p).queue).toList :=
  (h.mem_iff p _ (h.active_level (by simp [hr, Active]))).mpr ⟨hr, by simp, rfl⟩

theorem LevelInv.levelStep (h : LevelInv t) (ht : TableInv t) (hst : t.Step l t')
    (hm : t.Made p) (hm' : t'.Made p) : LevelStep t l t' p := by
  have hused := (ht.step hst).ctl.made_used hm'
  have hent := (Step.effect ht hst).entry p
  unfold LevelStep
  generalize t'.proc p = pr at hent hused ⊢
  generalize t'.inTimer p = b at hent
  cases hent with
  | roused _ _ hro | ticked hro | killed _ hro => cases hro <;> exact Or.inl rfl
  | aged k hag | ran k hag =>
    rcases hag with rfl | ⟨hs, h1, hage, rfl⟩
    · exact Or.inl rfl
    · exact Or.inr (Or.inr ⟨k, rfl, h1, ht.queues.mem_own hs, hage, rfl⟩)
  | yielded _ _ hin =>
    show (if _ then _ else _) = _ ∨ _
    split
    · next hcond =>
      obtain ⟨_, hmax⟩ := h.timed p hin
      exact Or.inr (Or.inl ⟨rfl, hin, hcond.2, Int.le_antisymm (h.range p hm).2.2 hmax, rfl⟩)
    · exact Or.inl rfl
  | booted _ _ _ hs => exact absurd hs (ht.ctl.made_used hm)
  | stacked _ _ hc hno => exact absurd hm (ht.ctl.not_made_of_child hc hno)
  | published _ _ _ _ hemb hq =>
    have hzero := (h.embryo p hemb hm).1
    rcases hq with rfl | rfl
    · exact Or.inl hzero.symm
    · exact Or.inl rfl
  | reaped => exact absurd rfl hused
  | slept | exited | flagged | counted | taken | dropped | forked | cloned | faulted | committed =>
    exact Or.inl rfl

theorem LevelInv.sleepStep (ht : TableInv t) (hst : t.Step l t')
    (hs : (t.proc p).state = .SLEEPING) : SleepStep t t' p := by
  have hown := (ht.step hst).queues.mem_own (p := p)
  have hent := (Step.effect ht hst).entry p
  unfold SleepStep
  generalize t'.proc p = pr at hent hown ⊢
  generalize t'.inTimer p = b at hent
  cases hent with
  | roused _ _ hro | ticked hro | killed _ hro =>
    cases hro with
    | same => exact ⟨rfl, Or.inl hs⟩
    | woken => exact ⟨rfl, Or.inr ⟨rfl, rfl, hown rfl⟩⟩
  | aged _ hag =>
    rcases hag with rfl | ⟨hr, _⟩
    · exact ⟨rfl, Or.inl hs⟩
    · rw [hs] at hr
      cases hr
  | committed => exact ⟨rfl, Or.inl hs⟩
  | slept _ _ _ hs' | exited _ _ hs' | ran _ _ hs' | flagged hs' | counted hs' | yielded _ hs'
  | faulted hs' | booted _ _ _ hs' | taken _ _ hs' | stacked _ _ _ _ hs' | dropped _ _ _ _ hs'
  | forked _ _ _ hs' | cloned _ _ _ _ hs' | published _ _ _ _ hs' | reaped _ _ _ _ _ hs' =>
    rw [hs] at hs'
    cases hs'

/-- A timer interrupt asks for a demotion only when the ticks are used up. -/
theorem LevelInv.timerStep (h : LevelInv t) (ht : TableInv t) (hst : t.Step l t')
    (hin : t.inTimer p = false) (hin' : t'.inTimer p = true) :
    l = .timer p ∧ (t.proc p).curr_ticks.toInt = q_ticks_max (t.proc p).queue := by
  have hent := (Step.effect ht hst).entry p
  generalize t'.proc p = pr at hent
  generalize t'.inTimer p = b at hent hin'
  cases hent with
  | flagged hs hmax =>
    have hle := (h.range p (Or.inl (by simp [hs, Active]))).2.2
    exact ⟨rfl, Int.le_antisymm hle hmax⟩
  | slept | exited | yielded => cases hin'
  | _ =>
    rw [hin] at hin'
    cases hin'

/-- **Level discipline.** In every state of every run: no array has been
    indexed out of its bounds; a process is, from the end of its
    `allocproc` until it is reaped, at one of the five levels with at most
    the ticks of its level; a queued process has used no ticks. And in every
    step from there: a level changes only as `LevelStep` says, the timer
    interrupt before a demotion found the ticks used up, and a
    sleeping process comes back at its own level with its ticks reset. -/
theorem mlfq_level_discipline {t : Table} (h : Reachable tableSystem t) :
    t.oob = false ∧
    (∀ p, t.Made p → validLevel (t.proc p).queue ∧ 0 ≤ (t.proc p).curr_ticks.toInt ∧
      (t.proc p).curr_ticks.toInt ≤ q_ticks_max (t.proc p).queue) ∧
    (∀ p i, validLevel i → p ∈ (t.queue i).toList → (t.proc p).curr_ticks = 0) ∧
    (∀ l t' p, tableSystem.step t l t' →
      (t.Made p → t'.Made p → LevelStep t l t' p) ∧
      ((t.proc p).state = .SLEEPING → SleepStep t t' p) ∧
      (t.inTimer p = false → t'.inTimer p = true →
        l = .timer p ∧ (t.proc p).curr_ticks.toInt = q_ticks_max (t.proc p).queue)) := by
  have ht := tableInv_reachable h
  have hl := levelInv_reachable h
  refine ⟨ht.queues.inBounds, hl.range, ?_, ?_⟩
  · intro p i hi hmem
    exact hl.runnable p ((ht.queues.mem_iff p i hi).mp hmem).1
  · intro l t' p hst
    exact ⟨hl.levelStep ht hst, LevelInv.sleepStep ht hst, hl.timerStep ht hst⟩

/-- The first process starts at level 0 with no ticks used. -/
theorem mlfq_level_discipline_userinit :
    ((boot.userinit 0 1 2).proc 0).state = .RUNNABLE ∧
    validLevel ((boot.userinit 0 1 2).proc 0).queue := by
  have hreach : Reachable tableSystem (boot.userinit 0 1 2) :=
    .step (.userinit 0 1 2) (.init rfl) ⟨rfl, rfl, rfl⟩
  have hr : ((boot.userinit 0 1 2).proc 0).state = .RUNNABLE := by decide
  exact ⟨hr, ((mlfq_level_discipline hreach).2.1 0 (Or.inl (by simp [hr, Active]))).1⟩

end Table

end Xv6.Process
