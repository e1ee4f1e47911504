import Xv6.Proc.Wait

/-! # Parents and Zombies

    Who waits for whom. Every process but the first has a parent that has
    not exited, and a process that sleeps in `wait`, `waitx` or `join` has
    nothing to collect.

    `exit` is what needs care: it wakes the parent before it becomes a
    `ZOMBIE`, passes its children on to `initproc`, and wakes `initproc` if
    one of them has exited already. All of that is one critical section, so
    between two steps nobody sleeps past an exit.
-/

namespace Xv6.Process

open LTS

/-- The call a process sleeps in waits for the exit of a child. -/
def Kont.isWait : Kont → Bool
  | .waiting | .waitingx | .joining _ => true
  | _ => false

namespace Table

/-- A process that has been published and has not exited. -/
def Alive (st : ProcState) : Prop := Active st ∧ st ≠ .ZOMBIE

/-- The exit of `p` would end the call that `c` is in: any child for `wait`
    and `waitx`, the child with that pid for `join`. -/
def Awaits (t : Table) (c p : PIdx) : Prop :=
  (t.proc p).parent = some c ∧
  match t.kont c with
  | .waiting | .waitingx => True
  | .joining tid => ((t.proc p).pid : Int) = tid
  | _ => False

/-- What holds of parents, children and sleepers between two steps. -/
structure ParentInv (t : Table) : Prop where
  unbooted : t.initproc = none → ∀ p, (t.proc p).parent = none
  root : ∀ i, t.initproc = some i → (t.proc i).parent = none
  irrefl : ∀ p, (t.proc p).parent ≠ some p
  booted : ∀ p, Active (t.proc p).state → ∃ i, t.initproc = some i
  init_alive : ∀ i, t.initproc = some i → Alive (t.proc i).state
  parent : ∀ p, Active (t.proc p).state → t.initproc ≠ some p →
    ∃ q, (t.proc p).parent = some q ∧ Alive (t.proc q).state
  filled : ∀ c np, t.kont c = .forkPublish np ∨ t.kont c = .clonePublish np →
    (t.proc np).parent = some c
  busy : ∀ c, t.kont c ≠ .run → Alive (t.proc c).state
  chan : ∀ c, (t.proc c).state = .SLEEPING → (t.kont c).isWait = true →
    (t.proc c).chan = some (.proc c)
  sleeper : ∀ c p, (t.proc c).state = .SLEEPING → t.Awaits c p → (t.proc p).state ≠ .ZOMBIE

variable {t t' : Table} {p : PIdx} {k : Kont}

theorem isWait_of_awaits {c p : PIdx} (h : t.Awaits c p) : (t.kont c).isWait = true := by
  have hm := h.2
  cases hk : t.kont c <;> simp_all [Kont.isWait]

theorem not_awaits {c p : PIdx} (h : (t.kont c).isWait = false) : ¬ t.Awaits c p := by
  intro ha
  rw [isWait_of_awaits ha] at h
  cases h

/-! ### Waking up -/

namespace Roused

variable {pr pr' : Proc}

theorem pid_chan (h : Roused pr pr') : pr'.pid = pr.pid ∧ pr'.chan = pr.chan := by
  cases h <;> exact ⟨rfl, rfl⟩

theorem sleeping (h : Roused pr pr') (hs : pr'.state = .SLEEPING) : pr.state = .SLEEPING := by
  cases h with
  | same => exact hs
  | woken _ _ _ hs' => exact hs'

theorem alive_iff (h : Roused pr pr') : Alive pr'.state ↔ Alive pr.state := by
  cases h with
  | same => rfl
  | woken _ _ _ hs => simp [Alive, Active, hs]

theorem zombie_iff (h : Roused pr pr') : pr'.state = .ZOMBIE ↔ pr.state = .ZOMBIE := by
  cases h with
  | same => rfl
  | woken _ _ _ hs => simp [hs]

end Roused

theorem Awaits.of_eq {c p : PIdx} (h : t'.Awaits c p) (hk : t'.kont c = t.kont c)
    (hpar : (t'.proc p).parent = (t.proc p).parent) (hpid : (t'.proc p).pid = (t.proc p).pid) :
    t.Awaits c p := by
  unfold Awaits at h ⊢
  rwa [← hk, ← hpar, ← hpid]

/-- Nobody sleeps on a channel that has been woken up. -/
theorem chan_ne_of_wakeup1 (t : Table) (ch : Option Chan) (q : PIdx)
    (hs : ((t.wakeup1 ch).proc q).state = .SLEEPING) : (t.proc q).chan ≠ ch := by
  have hfold : ∀ (l : List PIdx) (u : Table), q ∈ l →
      ((l.foldl (wakeupOne ch) u).proc q).state = .SLEEPING → (u.proc q).chan ≠ ch := by
    intro l
    induction l with
    | nil =>
      intro u hq
      cases hq
    | cons a l ih =>
      intro u hq hsl
      have hone : Rouses True u (wakeupOne ch u a) := rouses_wakeupOne ch u a
      have hrest : Rouses True (wakeupOne ch u a) (l.foldl (wakeupOne ch) (wakeupOne ch u a)) :=
        Rouses.foldl (rouses_wakeupOne ch) l _
      have hmid := (hrest.proc q).sleeping hsl
      rcases List.mem_cons.mp hq with rfl | hql
      · -- the entry itself: had it slept on `ch`, it would be RUNNABLE now
        intro hch
        have hbefore := (hone.proc q).sleeping hmid
        unfold wakeupOne enqueueWoken at hmid
        rw [if_pos ⟨hbefore, hch⟩] at hmid
        obtain ⟨_, _, _, heq⟩ := add_proc_to_q_proc (u.modify q (fun pr =>
          { pr with state := .RUNNABLE, curr_ticks := 0 })) q
          ((u.modify q (fun pr => { pr with state := .RUNNABLE, curr_ticks := 0 })).proc q).queue
        rw [heq] at hmid
        simp at hmid
      · rw [← (hone.proc q).pid_chan.2]
        exact ih _ hql hsl
  unfold wakeup1 at hs
  exact hfold (List.finRange NPROC) t (List.mem_finRange q) hs

/-! ### Passing children on -/

/-- What `exit` has done when its loop has passed the entries of `l`. -/
structure Abandoned (c : PIdx) (l : List PIdx) (t t' : Table) : Prop where
  rouses : Rouses False t t'
  parent : ∀ p, (t'.proc p).parent =
    if p ∈ l ∧ (t.proc p).parent = some c then t.initproc else (t.proc p).parent
  roused : ∀ q p, (t'.proc q).state = .SLEEPING → p ∈ l → (t.proc p).parent = some c →
    (t.proc p).state = .ZOMBIE → (t.proc q).chan ≠ t.initproc.map Chan.proc

theorem abandoned_reparentOne (c : PIdx) (t : Table) (p : PIdx) :
    Abandoned c [p] t (reparentOne c t p) := by
  unfold reparentOne
  split
  · next hp =>
    -- the entry is passed on, and `initproc` is woken if it has exited
    let t₁ := t.modify p (fun pr => { pr with parent := t.initproc })
    have hpass : Rouses False t t₁ := Rouses.modify t p rfl False.elim
    have hparent : ∀ q, (t₁.proc q).parent =
        if q ∈ [p] ∧ (t.proc q).parent = some c then t.initproc else (t.proc q).parent := by
      intro q
      simp only [t₁, proc_modify, List.mem_singleton]
      by_cases hq : q = p
      · subst hq
        simp [hp]
      · simp [hq]
    show Abandoned c [p] t (if (t₁.proc p).state = .ZOMBIE then
      t₁.wakeup1 (t₁.initproc.map Chan.proc) else t₁)
    split
    · have hwake : ∀ own, Rouses own t₁ (t₁.wakeup1 (t₁.initproc.map Chan.proc)) :=
        fun _ => rouses_wakeup1 t₁ _
      refine ⟨hpass.trans (hwake False), fun q => ?_, ?_⟩
      · rw [(hwake True).parent trivial q, hparent q]
      · intro q p' hs _ _ _
        rw [← (hpass.proc q).pid_chan.2]
        exact chan_ne_of_wakeup1 t₁ (t₁.initproc.map Chan.proc) q hs
    · next hz =>
      refine ⟨hpass, hparent, ?_⟩
      intro q p' _ hp' _ hz'
      rw [List.mem_singleton.mp hp'] at hz'
      exact absurd ((hpass.proc p).zombie_iff.mpr hz') hz
  · next hp =>
    refine ⟨.refl t, fun q => ?_, ?_⟩
    · rw [if_neg]
      rintro ⟨hq, hc⟩
      rw [List.mem_singleton.mp hq] at hc
      exact hp hc
    · intro q p' _ hp' hc _
      rw [List.mem_singleton.mp hp'] at hc
      exact absurd hc hp

theorem abandoned_reparent (c : PIdx) (l : List PIdx) : ∀ (t : Table),
    Abandoned c l t (l.foldl (reparentOne c) t) := by
  induction l with
  | nil =>
    intro t
    exact ⟨.refl t, fun _ => by simp, fun _ _ _ h => by cases h⟩
  | cons a l ih =>
    intro t
    have h1 := abandoned_reparentOne c t a
    have h2 := ih (reparentOne c t a)
    rw [List.foldl_cons]
    refine ⟨h1.rouses.trans h2.rouses, fun p => ?_, ?_⟩
    · rw [h2.parent p, h1.parent p, h1.rouses.initproc]
      by_cases hp : (t.proc p).parent = some c
      · by_cases hpa : p = a
        · subst hpa
          simp [hp]
        · simp [hp, hpa]
      · simp [hp]
    · intro q p hs hp hc hz
      have hmid := (h2.rouses.proc q).sleeping hs
      by_cases hpa : p = a
      · exact h1.roused q a hmid List.mem_cons_self (hpa ▸ hc) (hpa ▸ hz)
      · have hpl : p ∈ l := (List.mem_cons.mp hp).resolve_left hpa
        have hpar := h1.parent p
        rw [if_neg (by simp [hpa])] at hpar
        rw [← (h1.rouses.proc q).pid_chan.2, ← h1.rouses.initproc]
        exact h2.roused q p hs hpl (hpar.trans hc) ((h1.rouses.proc p).zombie_iff.mpr hz)

/-- What the critical section of `exit` has done for the family of `c`. -/
structure Left (c : PIdx) (t t' : Table) : Prop where
  running : (t.proc c).state = .RUNNING
  run : t.kont c = .run
  not_init : t.initproc ≠ some c
  kont : t'.kont = t.kont
  parent : ∀ p, (t'.proc p).parent =
    if (t.proc p).parent = some c then t.initproc else (t.proc p).parent
  /-- the parent has been woken -/
  roused : ∀ q, (t'.proc q).state = .SLEEPING →
    (t.proc q).chan ≠ (t.proc c).parent.map Chan.proc
  /-- and the first process, for a child that has exited -/
  passed : ∀ q p, (t'.proc q).state = .SLEEPING → (t.proc p).parent = some c →
    (t.proc p).state = .ZOMBIE → (t.proc q).chan ≠ t.initproc.map Chan.proc

theorem left_exit {c : PIdx} (hr : (t.proc c).state = .RUNNING) (hrun : t.kont c = .run)
    (hex : t.exit c = .ok t') : Left c t t' := by
  have hwake : Rouses True _ _ := rouses_wakeup1 t ((t.proc c).parent.map Chan.proc)
  have hrouse := chan_ne_of_wakeup1 t ((t.proc c).parent.map Chan.proc)
  have hloop := abandoned_reparent c (List.finRange NPROC)
    (t.wakeup1 ((t.proc c).parent.map Chan.proc))
  unfold Table.exit at hex
  split at hex
  · cases hex
  · next hinit =>
    simp only [Except.ok.injEq] at hex
    subst hex
    unfold abandonChildren
    -- `w` is the table after the first wakeup, `u` after the loop
    generalize t.wakeup1 ((t.proc c).parent.map Chan.proc) = w at *
    generalize (List.finRange NPROC).foldl (reparentOne c) w = u at *
    let f : Proc → Proc := fun pr => { pr with state := .ZOMBIE, etime := t.ticks }
    have hsleep : ∀ q, ((u.modify c f).proc q).state = .SLEEPING →
        (u.proc q).state = .SLEEPING := by
      intro q hs
      rw [proc_modify] at hs
      split at hs
      · cases hs
      · exact hs
    refine ⟨hr, hrun, hinit, hloop.rouses.kont.trans hwake.kont, fun p => ?_, fun q hs => ?_,
      fun q p hs hp hz => ?_⟩
    · have hpar : ((u.modify c f).proc p).parent = (u.proc p).parent := by
        rw [proc_modify]
        split
        · next heq => rw [heq]
        · rfl
      refine hpar.trans ?_
      rw [hloop.parent p, hwake.parent trivial p, hwake.initproc]
      simp [List.mem_finRange]
    · exact hrouse q ((hloop.rouses.proc q).sleeping (hsleep q hs))
    · rw [← (hwake.proc q).pid_chan.2, ← hwake.initproc]
      exact hloop.roused q p (hsleep q hs) (List.mem_finRange p)
        ((hwake.parent trivial p).trans hp) ((hwake.proc p).zombie_iff.mpr hz)

/-! ### What a step does to a family -/

theorem alive_of_running {st : ProcState} (h : st = .RUNNING) : Alive st := by
  simp [Alive, Active, h]

theorem filled_iff {np : PIdx} :
    k.filled = some np ↔ k = .forkPublish np ∨ k = .clonePublish np := by
  cases k <;> simp [Kont.filled]

namespace EntryChange

variable {l : Label} {pr : Proc} {b : Bool}

variable (h : EntryChange t p l pr b)

include h

/-- Only `exit` ends a process. -/
theorem alive (hl : l ≠ .exit p) (ha : Alive (t.proc p).state) : Alive pr.state := by
  cases h with
  | roused _ _ hr | ticked hr | killed _ hr => exact hr.alive_iff.mpr ha
  | aged _ hag => rwa [hag.state_eq]
  | exited => exact absurd rfl hl
  | slept | ran | yielded | booted | published => simp [Alive, Active]
  | flagged | counted | faulted | committed => exact ha
  | taken _ _ hs | stacked _ _ _ _ hs | dropped _ _ _ _ hs | forked _ _ _ hs
  | cloned _ _ _ _ hs | reaped _ _ _ _ _ hs => simp [Alive, Active, hs] at ha

/-- A process was one before, or is published, or is the first. -/
theorem active_back (ha : Active pr.state) :
    Active (t.proc p).state ∨ (∃ c, l = .publish c ∧ (t.kont c).filled = some p) ∨
      ∃ kstack pgdir, l = .userinit p kstack pgdir := by
  cases h with
  | roused _ _ hr | ticked hr | killed _ hr => exact Or.inl (hr.active_iff.mp ha)
  | aged _ hag => exact Or.inl (hag.state_eq ▸ ha)
  | slept _ _ _ hs | exited _ _ hs | ran _ _ hs | yielded _ hs =>
    exact Or.inl (by simp [Active, hs])
  | flagged | counted | faulted | committed => exact Or.inl ha
  | booted kstack pgdir => exact Or.inr (Or.inr ⟨kstack, pgdir, rfl⟩)
  | published c _ _ hc => exact Or.inr (Or.inl ⟨c, rfl, filled_iff.mpr hc⟩)
  | taken => simp [Active] at ha
  | stacked _ _ _ _ hs | forked _ _ _ hs | cloned _ _ _ _ hs => simp [Active, hs] at ha
  | dropped | reaped => simp [Active] at ha

/-- Apart from `exit`, the parent is set by the call that fills the entry and
    cleared when the entry is collected. -/
theorem parent (hl : ∀ c, l ≠ .exit c) :
    pr.parent = (t.proc p).parent ∨
    ((t.proc p).state = .ZOMBIE ∧ pr.state = .UNUSED ∧ pr.parent = none) ∨
    (∃ c, (t.proc p).state = .EMBRYO ∧ pr.state = .EMBRYO ∧ pr.parent = some c ∧
      (t.kont c).made = some p ∧ (t.kont c).filled = none) := by
  cases h with
  | roused _ _ _ hpar => exact Or.inl (hpar.resolve_right (fun ⟨c, hc⟩ => hl c hc))
  | ticked _ hpar | killed _ _ hpar => exact Or.inl hpar
  | aged _ hag | ran _ hag => exact Or.inl (by rcases hag with rfl | ⟨_, _, _, rfl⟩ <;> rfl)
  | exited => exact absurd rfl (hl p)
  | reaped _ _ _ _ _ hs => exact Or.inr (Or.inl ⟨hs, rfl, rfl⟩)
  | forked c _ hc hs => exact Or.inr (Or.inr ⟨c, hs, hs, rfl, by rw [hc]; rfl, by rw [hc]; rfl⟩)
  | cloned c _ hc _ hs =>
    exact Or.inr (Or.inr ⟨c, hs, hs, rfl, by rw [hc]; rfl, by rw [hc]; rfl⟩)
  | _ => exact Or.inl rfl

theorem zombie (hl : l ≠ .exit p) (hz : pr.state = .ZOMBIE) :
    (t.proc p).state = .ZOMBIE ∧ pr.pid = (t.proc p).pid := by
  cases h with
  | roused _ _ hr | ticked hr | killed _ hr => exact ⟨hr.zombie_iff.mp hz, hr.pid_chan.1⟩
  | aged _ hag => rcases hag with rfl | ⟨_, _, _, rfl⟩ <;> exact ⟨hz, rfl⟩
  | exited => exact absurd rfl hl
  | flagged | counted | faulted | committed => exact ⟨hz, rfl⟩
  | stacked _ _ _ _ hs | forked _ _ _ hs | cloned _ _ _ _ hs => simp [hs] at hz
  | slept | ran | yielded | booted | taken | dropped | published | reaped => cases hz

theorem sleeping (hs : pr.state = .SLEEPING) :
    ((t.proc p).state = .SLEEPING ∧ pr.chan = (t.proc p).chan) ∨
      ((t.proc p).state = .RUNNING ∧ l.sleeper = some p) := by
  cases h with
  | roused _ _ hr | ticked hr | killed _ hr => exact Or.inl ⟨hr.sleeping hs, hr.pid_chan.2⟩
  | aged _ hag => rcases hag with rfl | ⟨_, _, _, rfl⟩ <;> exact Or.inl ⟨hs, rfl⟩
  | slept _ _ _ hr _ hcall => exact Or.inr ⟨hr, hcall⟩
  | flagged | counted | faulted | committed => exact Or.inl ⟨hs, rfl⟩
  | stacked _ _ _ _ he | forked _ _ _ he | cloned _ _ _ _ he => simp [he] at hs
  | exited | ran | yielded | booted | taken | dropped | published | reaped => cases hs

end EntryChange

theorem KontChange.eq_or_running {l : Label} {c : PIdx} (h : KontChange t c l k) :
    k = t.kont c ∨ (t.proc c).state = .RUNNING := by
  cases h with
  | same => exact Or.inl rfl
  | clear _ _ hr | taken _ _ _ _ hr | stacked _ _ _ _ _ _ _ hr | filled _ _ _ _ _ hr =>
    exact Or.inr hr

/-- The call that fills an entry is its parent. -/
theorem Effect.parent_of_filled {l : Label} {c np : PIdx} (h : ParentInv t) (hctl : CtlInv t)
    (he : Effect t l t') (hl : ∀ c, l ≠ .exit c) (hf : (t'.kont c).filled = some np) :
    (t'.proc np).parent = some c := by
  rcases (he.kont c).filled_back hf with hold | ⟨hmade, hl'⟩
  · -- it was filled before, and nobody else fills it
    have hchild := child_of_made (made_of_filled hold)
    rcases (he.entry np).parent hl with hpar | ⟨hz, _⟩ | ⟨d, _, _, _, hmade, hno⟩
    · exact hpar.trans (h.filled c np (filled_iff.mp hold))
    · rw [hctl.embryo c np hchild] at hz
      cases hz
    · rw [hctl.embryo_inj d c np (child_of_made hmade) hchild, hold] at hno
      cases hno
  · have hsub : t.subject l = some np := by
      rcases hl' with ⟨_, rfl⟩ | rfl <;> exact child_of_made hmade
    have hent := he.entry np
    generalize t'.proc np = pr at hent ⊢
    generalize t'.inTimer np = b at hent
    cases hent with
    | forked | cloned =>
      rcases hl' with ⟨_, hl'⟩ | hl' <;> cases hl'
      rfl
    | roused _ hb | slept _ _ hb | reaped _ _ _ _ hb => exact absurd hsub hb
    | taken _ hl =>
      rcases hl' with ⟨_, rfl⟩ | rfl <;> rcases hl with hl | ⟨_, hl⟩ <;> cases hl
    | dropped _ _ hl => rcases hl' with ⟨_, rfl⟩ | rfl <;> rcases hl with hl | hl <;> cases hl
    | _ => rcases hl' with ⟨_, hl'⟩ | hl' <;> cases hl'

/-! ### Preservation -/

namespace ParentInv

variable {c : PIdx} {l : Label}

/-- What a step other than `userinit` and `exit` preserves, if whoever falls
    asleep in a call that waits has nothing to collect. -/
theorem of_effect (h : ParentInv t) (hctl : CtlInv t) (he : Effect t l t')
    (hexit : ∀ c, l ≠ .exit c) (hboot : ∀ p kstack pgdir, l ≠ .userinit p kstack pgdir)
    (hsleep : ∀ c, l.sleeper = some c → (t'.proc c).state = .SLEEPING →
      (t'.kont c).isWait = true → (t'.proc c).chan = some (.proc c) ∧
      ∀ q, t'.Awaits c q → (t'.proc q).state ≠ .ZOMBIE) : ParentInv t' := by
  have hinit := he.initproc hboot
  have halive : ∀ p, Alive (t.proc p).state → Alive (t'.proc p).state := fun p =>
    (he.entry p).alive (hexit p)
  have hactive : ∀ p, Active (t'.proc p).state →
      Active (t.proc p).state ∨ ∃ c, (t.kont c).filled = some p := by
    intro p hp
    rcases (he.entry p).active_back hp with ha | ⟨c, _, hf⟩ | ⟨kstack, pgdir, hl⟩
    · exact Or.inl ha
    · exact Or.inr ⟨c, hf⟩
    · exact absurd hl (hboot p kstack pgdir)
  have hbusy : ∀ {c np}, (t.kont c).made = some np → Alive (t.proc c).state := by
    intro c np hm
    refine h.busy c (fun hrun => ?_)
    rw [hrun] at hm
    cases hm
  have hparent := fun p => (he.entry p).parent hexit
  refine ⟨fun hnone p => ?_, fun i hi => ?_, fun p hp => ?_, fun p hp => ?_, fun i hi => ?_,
    fun p hp hi => ?_, fun c np hf => ?_, fun c hc => ?_, fun c hs hw => ?_, fun c p hs ha hz => ?_⟩
  · rcases hparent p with hpar | ⟨_, _, hpar⟩ | ⟨c, _, _, _, hm, _⟩
    · exact hpar.trans (h.unbooted (hinit ▸ hnone) p)
    · exact hpar
    · obtain ⟨i, hi⟩ := h.booted c (hbusy hm).1
      rw [hinit, hi] at hnone
      cases hnone
  · have hal := h.init_alive i (hinit ▸ hi)
    rcases hparent i with hpar | ⟨hz, _⟩ | ⟨_, hs, _⟩
    · exact hpar.trans (h.root i (hinit ▸ hi))
    · exact absurd hz hal.2
    · exact absurd hs hal.1.2
  · rcases hparent p with hpar | ⟨_, _, hpar⟩ | ⟨c, hs, _, hpar, hm, _⟩
    · exact h.irrefl p (hpar.symm.trans hp)
    · rw [hpar] at hp
      cases hp
    · rw [hpar] at hp
      rw [← Option.some.inj hp] at hs
      exact (hbusy hm).1.2 hs
  · rw [hinit]
    rcases hactive p hp with ha | ⟨c, hf⟩
    · exact h.booted p ha
    · exact h.booted c (hbusy (made_of_filled hf)).1
  · exact halive i (h.init_alive i (hinit ▸ hi))
  · rcases hactive p hp with ha | ⟨c, hf⟩
    · obtain ⟨q, hq, hal⟩ := h.parent p ha (hinit ▸ hi)
      rcases hparent p with hpar | ⟨_, hs, _⟩ | ⟨_, hs, _⟩
      · exact ⟨q, hpar.trans hq, halive q hal⟩
      · exact absurd hs hp.1
      · exact absurd hs ha.2
    · -- it has just been published by its parent
      have hm := made_of_filled hf
      have hemb := hctl.embryo c p (child_of_made hm)
      rcases hparent p with hpar | ⟨hz, _⟩ | ⟨_, _, hs, _⟩
      · exact ⟨c, hpar.trans (h.filled c p (filled_iff.mp hf)), halive c (hbusy hm)⟩
      · rw [hemb] at hz
        cases hz
      · exact absurd hs hp.2
  · exact he.parent_of_filled h hctl hexit (filled_iff.mpr hf)
  · rcases (he.kont c).eq_or_running with hk | hr
    · exact halive c (h.busy c (hk ▸ hc))
    · exact halive c (alive_of_running hr)
  · rcases (he.entry c).sleeping hs with ⟨hs₀, hchan⟩ | ⟨_, hcall⟩
    · rcases (he.kont c).eq_or_running with hk | hr
      · exact hchan.trans (h.chan c hs₀ (hk ▸ hw))
      · rw [hr] at hs₀
        cases hs₀
    · exact (hsleep c hcall hs hw).1
  · rcases (he.entry c).sleeping hs with ⟨hs₀, _⟩ | ⟨_, hcall⟩
    · rcases (he.kont c).eq_or_running with hk | hr
      · obtain ⟨hz₀, hpid⟩ := (he.entry p).zombie (hexit p) hz
        rcases hparent p with hpar | ⟨_, hu, _⟩ | ⟨_, _, hu, _⟩
        · exact h.sleeper c p hs₀ (ha.of_eq hk hpar hpid) hz₀
        · rw [hu] at hz
          cases hz
        · rw [hu] at hz
          cases hz
      · rw [hr] at hs₀
        cases hs₀
    · exact (hsleep c hcall hs (isWait_of_awaits ha)).2 p ha hz

/-- Nothing runs before `userinit`, so the first process is the only one
    afterwards. -/
theorem userinit {kstack pgdir : Page} (h : ParentInv t)
    (he : Effect t (.userinit p kstack pgdir) t') (hnone : t.initproc = none)
    (hinit : t'.initproc = some p) : ParentInv t' := by
  have hdead : ∀ q, ¬ Active (t.proc q).state := by
    intro q hq
    obtain ⟨i, hi⟩ := h.booted q hq
    rw [hnone] at hi
    cases hi
  have hkont : ∀ c, t'.kont c = .run := by
    intro c
    have hrun : t.kont c = .run := by
      by_contra hc
      exact hdead c (h.busy c hc).1
    rcases (he.kont c).eq_or_running with hk | hr
    · exact hk.trans hrun
    · exact absurd (alive_of_running hr).1 (hdead c)
  have hparent : ∀ q, (t'.proc q).parent = none := by
    intro q
    rcases (he.entry q).parent (by simp) with hpar | ⟨_, _, hpar⟩ | ⟨c, _, _, _, hm, _⟩
    · exact hpar.trans (h.unbooted hnone q)
    · exact hpar
    · refine absurd (h.busy c (fun hrun => ?_)).1 (hdead c)
      rw [hrun] at hm
      cases hm
  have hactive : ∀ q, Active (t'.proc q).state → q = p := by
    intro q hq
    rcases (he.entry q).active_back hq with ha | ⟨_, hl, _⟩ | ⟨_, _, hl⟩
    · exact absurd ha (hdead q)
    · cases hl
    · cases hl
      rfl
  have hfirst : Alive (t'.proc p).state := by
    have hent := he.entry p
    generalize t'.proc p = pr at hent ⊢
    generalize t'.inTimer p = b at hent
    cases hent with
    | booted => simp [Alive, Active]
    | roused _ hb | slept _ _ hb | reaped _ _ _ _ hb => exact absurd rfl hb
    | taken _ hl => rcases hl with hl | ⟨_, hl⟩ <;> cases hl
    | dropped _ _ hl => rcases hl with hl | hl <;> cases hl
  refine ⟨fun _ => hparent, fun i _ => hparent i, fun q hq => ?_, fun _ _ => ⟨p, hinit⟩,
    fun i hi => ?_, fun q hq hi => ?_, fun c np hc => ?_, fun c hc => absurd (hkont c) hc,
    fun c _ hc => ?_, fun c q _ ha => ?_⟩
  · rw [hparent q] at hq
    cases hq
  · rw [← Option.some.inj (hinit.symm.trans hi)]
    exact hfirst
  · rw [hactive q hq] at hi
    exact absurd hinit hi
  · rw [hkont c] at hc
    rcases hc with hc | hc <;> cases hc
  · rw [hkont c] at hc
    cases hc
  · exact absurd ha (not_awaits (by rw [hkont c]; rfl))

/-- The critical section of `exit`. -/
theorem exit (h : ParentInv t) (he : Effect t (.exit c) t') (hl : Left c t t') : ParentInv t' := by
  have hinit := he.initproc (by simp)
  obtain ⟨i, hi⟩ := h.booted c (alive_of_running hl.running).1
  have halive : ∀ q, q ≠ c → Alive (t.proc q).state → Alive (t'.proc q).state := fun q hq =>
    (he.entry q).alive (by simpa using Ne.symm hq)
  have hfirst : Alive (t'.proc i).state := by
    refine halive i ?_ (h.init_alive i hi)
    rintro rfl
    exact hl.not_init hi
  refine ⟨fun hnone => ?_, fun j hj => ?_, fun q => ?_, fun _ _ => ⟨i, hinit.trans hi⟩,
    fun j hj => ?_, fun q hq hne => ?_, fun d np hd => ?_, fun d hd => ?_, fun d hs hd => ?_,
    fun d q hs ha hz => ?_⟩
  · rw [hinit, hi] at hnone
    cases hnone
  · rw [hl.parent j, h.root j (hinit ▸ hj)]
    simp
  · rw [hl.parent q]
    split
    · next hqc =>
      -- the first process is nobody's child
      rw [hi]
      intro heq
      rw [← Option.some.inj heq, h.root i hi] at hqc
      cases hqc
    · exact h.irrefl q
  · rw [hinit, hi] at hj
    rw [← Option.some.inj hj]
    exact hfirst
  · rw [hl.parent q]
    split
    · exact ⟨i, hi, hfirst⟩
    · next hqc =>
      rcases (he.entry q).active_back hq with hact | ⟨_, hl, _⟩ | ⟨_, _, hl⟩
      · obtain ⟨r, hrp, hral⟩ := h.parent q hact (hinit ▸ hne)
        refine ⟨r, hrp, halive r ?_ hral⟩
        rintro rfl
        exact hqc hrp
      · cases hl
      · cases hl
  · rw [hl.kont] at hd
    rw [hl.parent np, h.filled d np hd, if_neg]
    intro heq
    rw [Option.some.inj heq, hl.run] at hd
    rcases hd with hd | hd <;> cases hd
  · rw [hl.kont] at hd
    refine halive d ?_ (h.busy d hd)
    rintro rfl
    exact hd hl.run
  · rw [hl.kont] at hd
    rcases (he.entry d).sleeping hs with ⟨hs₀, hchan⟩ | ⟨_, hcall⟩
    · exact hchan.trans (h.chan d hs₀ hd)
    · cases hcall
  · rcases (he.entry d).sleeping hs with ⟨hs₀, _⟩ | ⟨_, hcall⟩
    · have hchan : (t.proc d).chan = some (.proc d) := by
        refine h.chan d hs₀ ?_
        rw [← hl.kont]
        exact isWait_of_awaits ha
      have hpq := ha.1
      rw [hl.parent q] at hpq
      by_cases hqc : q = c
      · -- the parent was woken first
        rw [hqc, if_neg (h.irrefl c)] at hpq
        refine hl.roused d hs ?_
        rw [hchan, hpq]
        rfl
      · obtain ⟨hz₀, hpid⟩ := (he.entry q).zombie (by simpa using Ne.symm hqc) hz
        by_cases hcq : (t.proc q).parent = some c
        · -- a child that had exited already: the first process was woken
          rw [if_pos hcq] at hpq
          refine hl.passed d q hs hcq hz₀ ?_
          rw [hchan, hpq]
          rfl
        · refine h.sleeper d q hs₀ (ha.of_eq (congrFun hl.kont d) ?_ hpid) hz₀
          rw [hl.parent q, if_neg hcq]
    · cases hcall

/-- A pass of `wait`, `waitx` or `join` puts the caller to sleep only when no
    entry it looks for has exited. -/
theorem scan_sleeps {isMatch : Proc → Bool} {reap : Table → PIdx → Table}
    (hr : (t.proc c).state = .RUNNING)
    (hreap : ∀ z, (t.proc z).state = .ZOMBIE → ∀ q, q ≠ z → (reap t z).proc q = t.proc q)
    (hs : ((t.scan c isMatch reap).2.proc c).state = .SLEEPING) :
    t.scan c isMatch reap = (.sleeps, t.sleep c (.proc c)) ∧
    (∀ q, isMatch (t.proc q) = true → (t.proc q).state ≠ .ZOMBIE) ∧
    ∃ q, isMatch (t.proc q) = true := by
  revert hs
  unfold Table.scan
  split
  · next z hfind =>
    intro hs
    have hz := List.find?_some hfind
    simp only [Bool.and_eq_true, decide_eq_true_eq] at hz
    have hcz : c ≠ z := by
      rintro rfl
      rw [hr] at hz
      cases hz.2
    simp only [hreap z hz.2 c hcz, hr] at hs
    cases hs
  · next hfind =>
    simp only
    split
    · intro hs
      rw [hr] at hs
      cases hs
    · next hkids =>
      refine fun _ => ⟨rfl, fun q hm hz => ?_, ?_⟩
      · have hq := List.find?_eq_none.mp hfind q (List.mem_finRange q)
        simp [hm, hz] at hq
      · simp only [Bool.or_eq_true, Bool.not_eq_true', not_or, Bool.not_eq_false] at hkids
        obtain ⟨q, _, hq⟩ := List.any_eq_true.mp hkids.1
        exact ⟨q, hq⟩

theorem scan {isMatch : Proc → Bool} {reap : Table → PIdx → Table} (h : ParentInv t)
    (htab : TableInv t) (he : Effect t l t') (hl : l.sleeper = some c)
    (hreap : ∀ z, (t.proc z).state = .ZOMBIE → ∀ q, q ≠ z → (reap t z).proc q = t.proc q)
    (hmiss : (∀ q, isMatch (t.proc q) = true → (t.proc q).state ≠ .ZOMBIE) →
      (∃ q, isMatch (t.proc q) = true) → ∀ q, (t.goto c k).Awaits c q →
      (t.proc q).state ≠ .ZOMBIE)
    (hst : t.ScanStep c k (t.scan c isMatch reap) t') : ParentInv t' := by
  obtain ⟨ha, _, rfl⟩ := hst
  have hr := htab.running ha
  refine h.of_effect htab.ctl he (fun d heq => ?_) (fun d _ _ heq => ?_) (fun d hd hs _ => ?_)
  · rw [heq] at hl
    cases hl
  · rw [heq] at hl
    cases hl
  · obtain rfl : d = c := Option.some.inj (hd.symm.trans hl)
    obtain ⟨hscan, hno, hsome⟩ := scan_sleeps hr hreap hs
    have hself : ((t.sleep d (.proc d)).proc d) =
        { t.proc d with chan := some (.proc d), state := .SLEEPING } := by simp [sleep]
    have hother : ∀ q, q ≠ d → (t.sleep d (.proc d)).proc q = t.proc q := by
      intro q hq
      simp [sleep, hq]
    simp only [hscan, afterScan, proc_goto, hself]
    refine ⟨trivial, fun q hq hz => ?_⟩
    have hqd : q ≠ d := by
      rintro rfl
      rw [hself] at hz
      cases hz
    rw [hother q hqd] at hz
    refine hmiss hno hsome q (hq.of_eq rfl ?_ ?_) hz
    · rw [proc_goto, proc_goto, hother q hqd]
    · rw [proc_goto, proc_goto, hother q hqd]

/-- **Preservation**: every step keeps the invariant. -/
theorem step (h : ParentInv t) (htab : TableInv t) (hst : t.Step l t') : ParentInv t' := by
  have he := Step.effect htab hst
  cases l with
  | userinit p kstack pgdir =>
    obtain ⟨hnone, _, heq⟩ := hst
    refine h.userinit he hnone ?_
    rw [heq]
    exact (queueFrame_add _ p 0).initproc
  | exit c =>
    obtain ⟨hi, hex⟩ := hst
    exact h.exit he (left_exit (htab.running hi.1) hi.2 hex)
  | wait c =>
    refine h.scan htab he rfl (fun z hz q hq => ?_) (fun hno _ q ha => hno q ?_) hst
    · rw [waitReap_eq htab.queues hz]
      exact proc_modify_of_ne _ _ hq
    · have hpar : (t.proc q).parent = some c := ha.1
      simp [waitMatch, hpar]
  | waitx c =>
    refine h.scan htab he rfl (fun z hz q hq => ?_) (fun hno _ q ha => hno q ?_) hst
    · rw [waitxReap_eq htab.queues hz]
      exact proc_modify_of_ne _ _ hq
    · have hpar : (t.proc q).parent = some c := ha.1
      simp [waitxMatch, hpar]
  | join c tid =>
    refine h.scan htab he rfl (fun z _ q hq => proc_modify_of_ne _ _ hq)
      (fun hno hsome q ha hz => ?_) hst
    -- the entry the call waits for is the only one with that pid
    obtain ⟨q₀, hq₀⟩ := hsome
    have hpid : ((t.proc q).pid : Int) = tid := by
      have hm := ha.2
      simpa [Table.goto] using hm
    have hpid₀ : ((t.proc q₀).pid : Int) = tid := by
      simp only [joinMatch, Bool.and_eq_true, decide_eq_true_eq] at hq₀
      exact hq₀.2
    have hpos := htab.queues.pid_pos q (by simp [hz])
    have hqq : q = q₀ := htab.queues.pid_inj q q₀ (by omega) hpos
    exact hno q₀ hq₀ (hqq ▸ hz)
  | sleep c chan =>
    obtain ⟨hi, _, rfl⟩ := hst
    refine h.of_effect htab.ctl he (by simp) (by simp) (fun d hd _ hw => ?_)
    -- the call that sleeps is not one that waits for a child
    obtain rfl : c = d := Option.some.inj hd
    rw [show (t.sleep c chan).kont c = .run from hi.2] at hw
    cases hw
  | _ => exact h.of_effect htab.ctl he (by simp) (by simp) (fun _ hcall => by cases hcall)

end ParentInv

theorem parentInv_boot : ParentInv boot where
  unbooted := fun _ _ => rfl
  root := fun _ hi => by cases hi
  irrefl := fun _ h => by cases h
  booted := fun _ ha => absurd rfl ha.1
  init_alive := fun _ hi => by cases hi
  parent := fun _ ha => absurd rfl ha.1
  filled := fun _ _ hc => by rcases hc with hc | hc <;> cases hc
  busy := fun _ hc => absurd rfl hc
  chan := fun _ hs => by cases hs
  sleeper := fun _ _ hs => by cases hs

theorem parentInv_reachable (h : Reachable tableSystem t) : ParentInv t := by
  induction h with
  | init h0 =>
    rw [show _ = boot from h0]
    exact parentInv_boot
  | step l hr hst ih => exact ParentInv.step (l := l) ih (tableInv_reachable hr) hst

/-! ### Nobody is orphaned and nobody sleeps past an exit -/

/-- **Parents and sleepers.** Whenever `ptable.lock` is free: every process
    other than `initproc` has a parent that is neither `UNUSED` nor a
    `ZOMBIE`; a process that sleeps in `wait` or `waitx` has no child that is
    a `ZOMBIE`, and one that sleeps in `join(tid)` no such child with that
    pid. -/
theorem parents_and_sleepers {t : Table} (h : Reachable tableSystem t) :
    (∀ p, ((t.proc p).state = .SLEEPING ∨ (t.proc p).state = .RUNNABLE ∨
        (t.proc p).state = .RUNNING ∨ (t.proc p).state = .ZOMBIE) → t.initproc ≠ some p →
      ∃ q, (t.proc p).parent = some q ∧ (t.proc q).state ≠ .UNUSED ∧
        (t.proc q).state ≠ .ZOMBIE) ∧
    (∀ c p, (t.proc c).state = .SLEEPING → (t.kont c = .waiting ∨ t.kont c = .waitingx) →
      (t.proc p).parent = some c → (t.proc p).state ≠ .ZOMBIE) ∧
    (∀ c p tid, (t.proc c).state = .SLEEPING → t.kont c = .joining tid →
      (t.proc p).parent = some c → ((t.proc p).pid : Int) = tid →
      (t.proc p).state ≠ .ZOMBIE) := by
  have hinv := parentInv_reachable h
  refine ⟨?_, ?_, ?_⟩
  · intro p hp hi
    have hactive : Active (t.proc p).state := by
      rcases hp with hp | hp | hp | hp <;> simp [Active, hp]
    obtain ⟨q, hq, hal⟩ := hinv.parent p hactive hi
    exact ⟨q, hq, hal.1.1, hal.2⟩
  · intro c p hs hk hpar
    refine hinv.sleeper c p hs ⟨hpar, ?_⟩
    rcases hk with hk | hk <;> simp [hk]
  · intro c p tid hs hk hpar hpid
    refine hinv.sleeper c p hs ⟨hpar, ?_⟩
    simpa [hk] using hpid

/-- The first process sleeps in `wait` while its child is `RUNNABLE`. -/
theorem parents_and_sleepers_initForked :
    (((initForked.publish 1 |>.goto 0 .run).wait 0).2.goto 0 .waiting).kont 0 = .waiting ∧
    (((((initForked.publish 1 |>.goto 0 .run).wait 0).2.goto 0 .waiting).proc 1).state ≠
      .ZOMBIE) := by
  have hstep : Reachable tableSystem
      (((initForked.publish 1 |>.goto 0 .run).wait 0).2.goto 0 .waiting) :=
    .step (.wait 0) reachable_initForked ⟨⟨⟨0, rfl⟩, rfl⟩, Or.inl rfl, rfl⟩
  exact ⟨rfl, (parents_and_sleepers hstep).2.1 0 1 rfl (Or.inl rfl) rfl⟩

end Table

end Xv6.Process
