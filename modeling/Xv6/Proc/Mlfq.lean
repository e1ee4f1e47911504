import Xv6.Proc.Change

/-! # The Feedback Queues Agree with the Process States

    The queue invariant over whole runs. Besides `QueueInv` a run keeps
    `CtlInv`: a CPU runs a `RUNNING` process, and the entry that a `fork` or
    `clone` sets up stays an `EMBRYO` until its creator publishes it. That
    is what makes the caller of each operation a process outside the queues.
-/

namespace Xv6.Process

open LTS

namespace Table

variable {t t' : Table} {p : PIdx} {l : Label}

/-! ### Preservation -/

namespace EntryChange

variable {pr : Proc} {b : Bool}

/-- An entry under construction stays so until its creator lets go of it. -/
theorem embryo (h : EntryChange t p l pr b) (hs : (t.proc p).state = .EMBRYO) :
    pr.state = .EMBRYO ∨ ∃ c, l.releases = some c ∧ (t.kont c).child = some p := by
  cases h with
  | roused _ _ hr | ticked hr | killed _ hr =>
    cases hr with
    | same => exact Or.inl hs
    | woken _ _ _ hs' => simp [hs] at hs'
  | aged _ hag => exact Or.inl (hag.state_eq.trans hs)
  | stacked | forked | cloned | committed => exact Or.inl hs
  | dropped c _ hl hc =>
    refine Or.inr ⟨c, ?_, hc⟩
    rcases hl with rfl | rfl <;> rfl
  | published c _ _ hc =>
    refine Or.inr ⟨c, rfl, ?_⟩
    rcases hc with hc | hc <;> rw [hc] <;> rfl
  | slept _ _ _ hs' | exited _ _ hs' | ran _ _ hs' | flagged hs' | counted hs' | yielded _ hs'
  | faulted hs' | booted _ _ _ hs' | taken _ _ hs' | reaped _ _ _ _ _ hs' => simp [hs] at hs'

/-- The entry that `allocproc` takes was free. -/
theorem of_take {c : PIdx} (h : EntryChange t p l pr b)
    (hl : l = .fork c p ∨ ∃ args, l = .clone c p args) :
    (t.proc p).state = .UNUSED ∧ pr.state = .EMBRYO := by
  have hsub : t.subject l = some p := by
    rcases hl with rfl | ⟨_, rfl⟩ <;> rfl
  cases h with
  | taken _ _ hs => exact ⟨hs, rfl⟩
  | roused _ hb | slept _ _ hb | reaped _ _ _ _ hb => exact absurd hsub hb
  | dropped _ _ hl' => rcases hl' with rfl | rfl <;> rcases hl with hl | ⟨_, hl⟩ <;> cases hl
  | _ => rcases hl with hl | ⟨_, hl⟩ <;> cases hl

end EntryChange

theorem Effect.ctl (h : CtlInv t) (he : Effect t l t') : CtlInv t' where
  cpu_running := he.cpu
  embryo := by
    intro c np hc
    rcases (he.kont c).child_back hc with ⟨hold, hrel⟩ | hl
    · rcases (he.entry np).embryo (h.embryo c np hold) with hs | ⟨d, hd, hdc⟩
      · exact hs
      · exact absurd (h.embryo_inj d c np hdc hold ▸ hd) hrel
    · exact ((he.entry np).of_take hl).2
  embryo_inj := by
    -- an entry that was free is nobody's yet
    have hnew : ∀ c d np, (t.kont c).child = some np →
        ¬ (l = .fork d np ∨ ∃ args, l = .clone d np args) := by
      intro c d np hc hl
      have hu := ((he.entry np).of_take hl).1
      rw [h.embryo c np hc] at hu
      cases hu
    intro c d np hc hd
    rcases (he.kont c).child_back hc with ⟨hc, _⟩ | hlc <;>
      rcases (he.kont d).child_back hd with ⟨hd, _⟩ | hld
    · exact h.embryo_inj c d np hc hd
    · exact absurd hld (hnew c d np hc)
    · exact absurd hlc (hnew d c np hd)
    · rcases hlc with rfl | ⟨_, rfl⟩ <;> rcases hld with hl | ⟨_, hl⟩ <;> cases hl <;> rfl

/-- **Preservation**: every step keeps the invariant. -/
theorem TableInv.step (h : TableInv t) (hst : t.Step l t') : TableInv t' :=
  ⟨(Step.effect h hst).queues, (Step.effect h hst).ctl h.ctl⟩

theorem tableInv_boot : TableInv boot where
  queues :=
    { tail_ge := fun _ _ => Int.le_refl _
      nodup := fun _ _ => by simp [boot, ArrayQueue.toList, ArrayQueue.size]
      mem_iff := fun _ _ _ => by simp [boot, zeroProc, ArrayQueue.toList, ArrayQueue.size]
      level := fun _ ha _ => absurd rfl ha.1
      inBounds := rfl
      pid_inj := fun _ _ _ hne => absurd rfl hne
      pid_pos := fun _ hne => absurd rfl hne
      pid_lt := fun _ => Nat.zero_lt_one }
  ctl :=
    { cpu_running := fun _ _ hk => by simp [boot] at hk
      embryo := fun _ _ hc => by simp [boot, Kont.child] at hc
      embryo_inj := fun _ _ _ hc => by simp [boot, Kont.child] at hc }

theorem tableInv_reachable (h : Reachable tableSystem t) : TableInv t := by
  refine Reachable.invariant ?_ ?_ h
  · rintro t rfl
    exact tableInv_boot
  · intro u l u' hu hst
    exact TableInv.step (l := l) hu hst

/-! ### The queues and the states agree -/

/-- How often `p` occurs in the five queues together. -/
def occurrences (t : Table) (p : PIdx) : Nat :=
  ([0, 1, 2, 3, 4].map (fun i => (t.queue i).toList.count p)).sum

/-- A queued process is counted at its own level only. -/
theorem occurrences_of_runnable (h : QueueInv t none) (hr : (t.proc p).state = .RUNNABLE) :
    t.occurrences p = 1 := by
  have hlevel := h.active_level (p := p) (by simp [hr, Active])
  have hcount : ∀ i, validLevel i →
      (t.queue i).toList.count p = if (t.proc p).queue = i then 1 else 0 := by
    intro i hi
    have hmem := h.mem_iff p i hi
    simp only [hr, ne_eq, reduceCtorEq, not_false_eq_true, true_and] at hmem
    split
    · next heq => exact List.count_eq_one_of_mem (h.nodup i hi) (hmem.mpr heq)
    · next hne => exact List.count_eq_zero_of_not_mem (fun hin => hne (hmem.mp hin))
  obtain ⟨h0, h5⟩ := hlevel
  simp only [occurrences, List.map_cons, List.map_nil, List.sum_cons, List.sum_nil]
  rw [hcount 0 ⟨by decide, by decide⟩, hcount 1 ⟨by decide, by decide⟩,
    hcount 2 ⟨by decide, by decide⟩, hcount 3 ⟨by decide, by decide⟩,
    hcount 4 ⟨by decide, by decide⟩]
  generalize (t.proc p).queue = q at h0 h5 ⊢
  have hq : q = 0 ∨ q = 1 ∨ q = 2 ∨ q = 3 ∨ q = 4 := by omega
  rcases hq with rfl | rfl | rfl | rfl | rfl <;> rfl

/-- **Queue/state agreement.** Whenever `ptable.lock` is free: a process is
    `RUNNABLE` if and only if it is in one of the five queues, and then it
    occurs exactly once, in `queue[p->queue]`; every tail index is in
    range, and no array has ever been indexed out of bounds; and the process
    the next scheduler iteration dequeues is `RUNNABLE`. -/
theorem mlfq_queue_state_agreement {t : Table} (h : Reachable tableSystem t) :
    (∀ p, (t.proc p).state = .RUNNABLE ↔
      ∃ i, validLevel i ∧ p ∈ (t.queue i).toList) ∧
    (∀ p, (t.proc p).state = .RUNNABLE →
      t.occurrences p = 1 ∧ validLevel (t.proc p).queue ∧
      p ∈ (t.queue (t.proc p).queue).toList) ∧
    (∀ i, validLevel i → -1 ≤ (t.queue i).tail ∧ (t.queue i).tail ≤ NPROC - 1) ∧
    t.oob = false ∧
    (∀ p i, t.aging.pick = some (p, i) → (t.aging.proc p).state = .RUNNABLE) := by
  have hq := (tableInv_reachable h).queues
  have hown : ∀ p, (t.proc p).state = .RUNNABLE →
      validLevel (t.proc p).queue ∧ p ∈ (t.queue (t.proc p).queue).toList := by
    intro p hr
    have hlevel := hq.active_level (p := p) (by simp [hr, Active])
    exact ⟨hlevel, (hq.mem_iff p _ hlevel).mpr ⟨hr, by simp, rfl⟩⟩
  refine ⟨fun p => ⟨fun hr => ⟨_, hown p hr⟩, ?_⟩, ?_, ?_, hq.inBounds, ?_⟩
  · rintro ⟨i, hi, hmem⟩
    exact ((hq.mem_iff p i hi).mp hmem).1
  · intro p hr
    exact ⟨occurrences_of_runnable hq hr, hown p hr⟩
  · intro i hi
    exact ⟨hq.tail_ge i hi, hq.tail_lt hi⟩
  · intro p i hp
    exact runnable_of_pick (agedUpTo_aging hq).inv hp

/-- After `userinit` the first process is queued at level 0. -/
theorem mlfq_queue_state_agreement_userinit :
    ((boot.userinit 0 1 2).proc 0).state = .RUNNABLE ∧
    (boot.userinit 0 1 2).occurrences 0 = 1 := by
  have hreach : Reachable tableSystem (boot.userinit 0 1 2) :=
    .step (.userinit 0 1 2) (.init rfl) ⟨rfl, rfl, rfl⟩
  have hr : ((boot.userinit 0 1 2).proc 0).state = .RUNNABLE := by decide
  exact ⟨hr, ((mlfq_queue_state_agreement hreach).2.1 0 hr).1⟩

end Table

end Xv6.Process
