import Xv6.Proc.Entries
import Xv6.Proc.Wait

/-! # `kill`

    `kill` looks for its pid in all entries of the table, also in those that
    are not in use. A reaped entry has pid 0, and an entry whose `fork`
    failed keeps the pid it was given, so there are pids for which `kill`
    succeeds and marks an `UNUSED` entry. `allocproc` does not reset
    `killed`: the next process in that entry starts with the mark.
-/

namespace Xv6.Process

open LTS

namespace Table

variable {t t' : Table} {p : PIdx} {l : Label}

/-! ### The contract -/

/-- Some entry in use has the pid. -/
def PidInUse (t : Table) (pid : Int) : Prop :=
  ∃ p, (t.proc p).state ≠ .UNUSED ∧ ((t.proc p).pid : Int) = pid

/-- Only the entry `p` has changed: it is marked, and if it was sleeping it
    is `RUNNABLE` and stands in the queues once, at its level. -/
structure Killed (t t' : Table) (p : PIdx) : Prop where
  others : ∀ q, q ≠ p → t'.proc q = t.proc q
  awake : (t.proc p).state ≠ .SLEEPING → t' = t.modify p (fun pr => { pr with killed := true })
  asleep : (t.proc p).state = .SLEEPING →
    t'.proc p = { t.proc p with
      killed := true, state := .RUNNABLE, curr_ticks := 0, enter := t.ticks } ∧
    (t'.queue (t.proc p).queue).toList = (t.queue (t.proc p).queue).toList ++ [p] ∧
    (∀ i, i ≠ (t.proc p).queue → t'.queue i = t.queue i) ∧
    t'.occurrences p = 1

/-- `kill(pid)` returns 0 exactly if an entry in use has the pid, and then
    only changes that entry; otherwise it returns `-1` and changes nothing. -/
structure KillContract (t : Table) (pid : Int) : Prop where
  result : (t.kill pid).2 = 0 ↔ t.PidInUse pid
  hits : ∀ p, (t.proc p).state ≠ .UNUSED → ((t.proc p).pid : Int) = pid →
    Killed t (t.kill pid).1 p
  misses : ¬ t.PidInUse pid → t.kill pid = (t, -1)

/-- Waking a sleeping process up appends it to the queue of its level. -/
theorem enqueueWoken_eq (h : QueueInv t none) (hs : (t.proc p).state = .SLEEPING) :
    t.enqueueWoken p =
      { t.modify p (fun pr =>
          { pr with state := .RUNNABLE, curr_ticks := 0, enter := t.ticks }) with
        queue := Function.update t.queue (t.proc p).queue ((t.queue (t.proc p).queue).push p)
        oob := false } := by
  have hlevel : validLevel (t.proc p).queue := h.active_level (by simp [hs, Active])
  unfold enqueueWoken
  simp only [proc_modify_self]
  rw [add_proc_to_q_eq (h.waking hs) (by simp) hlevel]
  simp [modify]

/-- `kill` when the first entry with the pid is `p`. -/
theorem kill_found {pid : Int}
    (hf : (List.finRange NPROC).find? (fun p => ((t.proc p).pid : Int) = pid) = some p) :
    t.kill pid =
      if (t.proc p).state = .SLEEPING then
        ((t.modify p (fun pr => { pr with killed := true })).enqueueWoken p, 0)
      else (t.modify p (fun pr => { pr with killed := true }), 0) := by
  unfold kill
  rw [hf]
  simp only [proc_modify_self]

theorem killed_of_found {pid : Int} (h : QueueInv t none)
    (hf : (List.finRange NPROC).find? (fun p => ((t.proc p).pid : Int) = pid) = some p) :
    Killed t (t.kill pid).1 p := by
  rw [kill_found hf]
  by_cases hs : (t.proc p).state = .SLEEPING
  · have hmod : QueueInv (t.modify p (fun pr => { pr with killed := true })) none :=
      h.modifyOther rfl rfl rfl
    have hs' : ((t.modify p (fun pr => { pr with killed := true })).proc p).state = .SLEEPING := by
      simpa using hs
    have hlevel : validLevel (t.proc p).queue := h.active_level (by simp [hs, Active])
    have hwake : Rouses True _ _ := rouses_enqueueWoken _ hs'
    rw [if_pos hs]
    refine ⟨fun q hq => ?_, fun hns => absurd hs hns, fun _ => ⟨?_, ?_, ?_, ?_⟩⟩
    · rw [enqueueWoken_eq hmod hs']
      simp [hq]
    · rw [enqueueWoken_eq hmod hs']
      simp
    · rw [enqueueWoken_eq hmod hs']
      simp [ArrayQueue.toList_push _ _ (h.tail_ge _ hlevel)]
    · intro i hi
      rw [enqueueWoken_eq hmod hs']
      simp [hi]
    · refine occurrences_of_runnable (hwake.queues hmod).1 ?_
      rw [enqueueWoken_eq hmod hs']
      simp
  · rw [if_neg hs]
    refine ⟨fun q hq => ?_, fun _ => rfl, fun hs' => absurd hs' hs⟩
    simp [hq]

/-- `kill` does what it should on a table exactly for the pids that no
    `UNUSED` entry has. -/
theorem killContract_iff (h : TableInv t) (pid : Int) :
    KillContract t pid ↔ ∀ p, (t.proc p).state = .UNUSED → ((t.proc p).pid : Int) ≠ pid := by
  -- an entry in use and an unused one never share a pid
  have hshare : ∀ p q, (t.proc p).state = .UNUSED → ((t.proc p).pid : Int) = pid →
      (t.proc q).state ≠ .UNUSED → ((t.proc q).pid : Int) = pid → False := by
    intro p q hp hpp hq hqp
    have heq := h.queues.pid_inj q p (by omega) (h.queues.pid_pos q hq)
    exact hq (heq ▸ hp)
  constructor
  · intro hc p hu hp
    have hno : ¬ t.PidInUse pid := fun ⟨q, hq, hqp⟩ => hshare p q hu hp hq hqp
    have hmiss := hc.misses hno
    cases hf : (List.finRange NPROC).find? (fun p => decide (((t.proc p).pid : Int) = pid)) with
    | none =>
      rw [List.find?_eq_none] at hf
      exact absurd (decide_eq_true hp) (hf p (List.mem_finRange p))
    | some q =>
      have hzero : (t.kill pid).2 = 0 := by
        rw [kill_found hf]
        split <;> rfl
      rw [hmiss] at hzero
      cases hzero
  · intro hfree
    cases hf : (List.finRange NPROC).find? (fun p => decide (((t.proc p).pid : Int) = pid)) with
    | none =>
      have hno : ¬ t.PidInUse pid := by
        rintro ⟨q, _, hq⟩
        rw [List.find?_eq_none] at hf
        exact absurd (decide_eq_true hq) (hf q (List.mem_finRange q))
      have heq : t.kill pid = (t, -1) := by
        unfold kill
        rw [hf]
      refine ⟨?_, fun q hq hqp => absurd ⟨q, hq, hqp⟩ hno, fun _ => heq⟩
      rw [heq]
      simp [hno]
    | some q =>
      have hqp := List.find?_some hf
      simp only [decide_eq_true_eq] at hqp
      have hq : (t.proc q).state ≠ .UNUSED := fun hu => hfree q hu hqp
      have hin : t.PidInUse pid := ⟨q, hq, hqp⟩
      refine ⟨?_, fun r hr hrp => ?_, fun hno => absurd hin hno⟩
      · rw [kill_found hf]
        constructor
        · exact fun _ => hin
        · intro _
          split <;> rfl
      · have hrq : r = q := h.queues.pid_inj r q (by omega) (h.queues.pid_pos r hr)
        rw [hrq]
        exact killed_of_found h.queues hf

/-! ### New processes -/

/-- Kills are aimed at processes that have been published: no other entry
    has the pid. -/
def KillsPublished (t : Table) : Label → Prop
  | .kill _ pid => ∀ p, ¬ Active (t.proc p).state → ((t.proc p).pid : Int) ≠ pid
  | _ => True

/-- Entries that are not in use, or still under construction, are not
    marked. -/
def CleanEntries (t : Table) : Prop := ∀ p, ¬ Active (t.proc p).state → (t.proc p).killed = false

theorem CleanEntries.step (h : CleanEntries t) (htab : TableInv t) (hk : t.KillsPublished l)
    (hst : t.Step l t') : CleanEntries t' := by
  intro p hp
  have hent := (Step.effect htab hst).entry p
  generalize t'.proc p = pr at hent hp ⊢
  generalize t'.inTimer p = b at hent
  cases hent with
  | roused _ _ hro | ticked hro =>
    have hold := h p (fun ha => hp (hro.active_iff.mpr ha))
    cases hro <;> exact hold
  | aged _ hag =>
    have hold := h p (hag.state_eq ▸ hp)
    rcases hag with rfl | ⟨_, _, _, rfl⟩ <;> exact hold
  | killed c hro =>
    have hp' : ¬ Active (t.proc p).state := fun ha => hp (hro.active_iff.mpr ha)
    exact absurd rfl (hk p hp')
  | committed => exact h p hp
  | reaped => rfl
  | taken _ _ hs | stacked _ _ _ _ hs | dropped _ _ _ _ hs | forked _ _ _ hs
  | cloned _ _ _ _ hs => exact h p (by simp [hs, Active])
  | slept | exited | ran | yielded | booted | published => exact absurd (by simp [Active]) hp
  | flagged hs | counted hs | faulted hs =>
    -- an exception marks the process that runs
    exact absurd (by simp [hs, Active]) hp

theorem cleanEntries_reachable (h : ReachableUnder tableSystem KillsPublished t) :
    TableInv t ∧ CleanEntries t := by
  have hinit : ∀ s, tableSystem.init s → TableInv s ∧ CleanEntries s := by
    rintro s rfl
    exact ⟨tableInv_boot, fun _ _ => rfl⟩
  have hstep : ∀ s l s', TableInv s ∧ CleanEntries s → KillsPublished s l →
      tableSystem.step s l s' → TableInv s' ∧ CleanEntries s' := by
    rintro s l s' ⟨htab, hc⟩ hk hst
    exact ⟨TableInv.step (l := l) htab hst, hc.step (l := l) htab hk hst⟩
  exact ReachableUnder.invariant hinit hstep h

/-- **`kill`.** On a reachable table `kill(pid)` targets exactly one live
    process if and only if no `UNUSED` entry has the pid; and in every run
    whose kills are aimed at published processes only, whatever `fork` or
    `clone` takes or publishes is not marked. -/
theorem kill_targets_one (t : Table) (pid : Int) (h : Reachable tableSystem t) :
    (KillContract t pid ↔
      ∀ p, (t.proc p).state = .UNUSED → ((t.proc p).pid : Int) ≠ pid) ∧
    (ReachableUnder tableSystem KillsPublished t →
      (∀ np, t.findUnused = some np → (t.proc np).killed = false) ∧
      ∀ c np t', t.Step (.publish c) t' → (t.kont c).child = some np →
        (t'.proc np).killed = false) := by
  refine ⟨killContract_iff (tableInv_reachable h) pid, fun h => ?_⟩
  obtain ⟨htab, hclean⟩ := cleanEntries_reachable h
  refine ⟨fun np hnp => hclean np (by simp [TableInv.unused_of_find hnp, Active]), ?_⟩
  rintro c np t' hst hc
  have hemb := htab.ctl.embryo c np hc
  have hkilled : (t'.proc np).killed = (t.proc np).killed := by
    have hent := (Step.effect htab hst).entry np
    generalize t'.proc np = pr at hent ⊢
    generalize t'.inTimer np = b at hent
    cases hent with
    | roused _ _ hro => cases hro <;> rfl
    | slept | taken | published => rfl
    | reaped _ _ _ _ _ hs =>
      rw [hemb] at hs
      cases hs
    | dropped _ _ hl => rcases hl with hl | hl <;> cases hl
  rw [hkilled]
  exact hclean np (by simp [hemb, Active])

/-! ### `kill(0)` -/

/-- The first process after it has called `kill(0)` and `fork`. -/
def killedChild : Table :=
  let t := (initRunning.kill 0).1
  let t := ((((t.takeEntry 1).goto 0 (.forkAlloc 1)).initEntry 1 (some 3)).goto 0
    (.forkCopy 1)).forkFill 0 1 (some 4)
  ((t.goto 0 (.forkPublish 1)).publish 1).goto 0 .run

theorem reachable_killedChild : Reachable tableSystem killedChild := by
  have h0 : Reachable tableSystem (initRunning.kill 0).1 :=
    .step (.kill 0 0) reachable_initRunning ⟨⟨acts_initRunning, rfl⟩, rfl⟩
  have h1 : Reachable tableSystem (((initRunning.kill 0).1.takeEntry 1).goto 0 (.forkAlloc 1)) :=
    .step (.fork 0 1) h0 ⟨⟨⟨⟨0, rfl⟩, rfl⟩, rfl⟩, rfl, rfl⟩
  have h2 : Reachable tableSystem (((((initRunning.kill 0).1.takeEntry 1).goto 0
      (.forkAlloc 1)).initEntry 1 (some 3)).goto 0 (.forkCopy 1)) :=
    .step (.allocproc 0 (some 3)) h1 ⟨⟨⟨0, rfl⟩, rfl⟩, Or.inl ⟨1, rfl, rfl⟩⟩
  have h3 : Reachable tableSystem (((((((initRunning.kill 0).1.takeEntry 1).goto 0
      (.forkAlloc 1)).initEntry 1 (some 3)).goto 0 (.forkCopy 1)).forkFill 0 1 (some 4)).goto 0
      (.forkPublish 1)) :=
    .step (.forkFill 0 (some 4)) h2 ⟨⟨⟨0, rfl⟩, rfl⟩, 1, rfl, rfl⟩
  exact .step (.publish 0) h3 ⟨⟨⟨0, rfl⟩, rfl⟩, 1, Or.inl rfl, rfl⟩

/-- `kill(0)` returns 0 although no process has pid 0, and the child of the
    next `fork` starts with `killed` set. -/
theorem kill_zero_marks_next_child :
    Reachable tableSystem initRunning ∧ ¬ initRunning.PidInUse 0 ∧
    (initRunning.kill 0).2 = 0 ∧ ¬ KillContract initRunning 0 ∧
    Reachable tableSystem killedChild ∧ (killedChild.proc 1).state = .RUNNABLE ∧
    (killedChild.proc 1).pid = 2 ∧ (killedChild.proc 1).killed = true := by
  have hno : ∀ p, ¬ ((initRunning.proc p).state ≠ .UNUSED ∧
      ((initRunning.proc p).pid : Int) = 0) := by decide
  have hzero : (initRunning.kill 0).2 = 0 := by decide
  refine ⟨reachable_initRunning, fun ⟨p, hp⟩ => hno p hp, hzero, fun h => ?_,
    reachable_killedChild, by decide, by decide, by decide⟩
  obtain ⟨p, hp⟩ := h.result.mp hzero
  exact hno p hp

/-- `kill(1)` of the first process meets the contract, and the entry its
    `fork` takes is not marked. -/
theorem kill_targets_one_first :
    KillContract initRunning 1 ∧ (initRunning.proc 1).killed = false := by
  have h : ReachableUnder tableSystem KillsPublished initRunning :=
    .step (.schedule 0) (.step (.userinit 0 1 2) (.init rfl) trivial ⟨rfl, rfl, rfl⟩)
      trivial ⟨rfl, rfl⟩
  obtain ⟨hiff, hclean⟩ := kill_targets_one initRunning 1 reachable_initRunning
  exact ⟨hiff.mpr (by decide), (hclean h).1 1 (by decide)⟩

end Table

end Xv6.Process
