import Xv6.Proc.Mlfq

/-! # What `wait` Does

    `wait` should return `-1` to a caller without children, free a child
    that has exited, and otherwise sleep. Its scan takes an entry for a
    child when the entry's parent *or* its page directory is the caller's.

    The caller's own entry has the caller's page directory. So `havekids`
    is always set, and a caller without children sleeps. An entry that
    shares the page directory without being a child can be freed too: a
    thread of the same program, or the parent of the calling thread.
-/

namespace Xv6.Process

open LTS

namespace Table

variable {t : Table} {c p z : PIdx}

/-! ### The contract -/

/-- What one pass of `wait` by `c` should do. -/
structure WaitContract (t : Table) (c : PIdx) : Prop where
  /-- It returns `-1` exactly when `c` has no child. -/
  failed_iff : (t.wait c).1 = .failed ↔ ∀ p, (t.proc p).parent ≠ some c
  /-- It returns the pid of a `ZOMBIE` child, whose entry becomes `UNUSED`. -/
  reaped : ∀ z pid, (t.wait c).1 = .reaped z pid →
    0 < pid ∧ pid = (t.proc z).pid ∧
    (t.proc z).state = .ZOMBIE ∧ (t.proc z).parent = some c ∧
    ((t.wait c).2.proc z).state = .UNUSED ∧
    ∀ q, q ≠ z → (t.wait c).2.proc q = t.proc q
  /-- It sleeps only while `c` has a child and none has exited. -/
  sleeps : (t.wait c).1 = .sleeps →
    (∃ p, (t.proc p).parent = some c) ∧
    ∀ p, (t.proc p).parent = some c → (t.proc p).state ≠ .ZOMBIE

/-- `z` is an exited entry that the scan of `wait` takes for a child of `c`. -/
def ZombieMatch (t : Table) (c z : PIdx) : Prop :=
  (t.proc z).state = .ZOMBIE ∧
  ((t.proc z).parent = some c ∨ (t.proc z).pgdir = (t.proc c).pgdir)

instance (t : Table) (c z : PIdx) : Decidable (t.ZombieMatch c z) :=
  inferInstanceAs (Decidable (_ ∧ _))

/-- `z` is the entry that `wait` by `c` frees: the first match in the table. -/
def FirstZombie (t : Table) (c z : PIdx) : Prop :=
  t.ZombieMatch c z ∧ ∀ q, q < z → ¬ t.ZombieMatch c q

/-! ### The scan -/

theorem waitTest_iff : (t.waitMatch c (t.proc z) &&
    decide ((t.proc z).state = .ZOMBIE)) = true ↔ t.ZombieMatch c z := by
  simp only [waitMatch, ZombieMatch, Bool.and_eq_true, Bool.or_eq_true, decide_eq_true_eq]
  exact and_comm

/-- The caller takes its own entry for a child. -/
theorem havekids_wait (t : Table) (c : PIdx) :
    (List.finRange NPROC).any (fun p => t.waitMatch c (t.proc p)) = true := by
  rw [List.any_eq_true]
  exact ⟨c, List.mem_finRange c, by simp [waitMatch]⟩

/-- The entry a search of the table finds is the first one. -/
theorem find_finRange_eq_some {P : PIdx → Bool} :
    (List.finRange NPROC).find? P = some z ↔ P z = true ∧ ∀ q, q < z → ¬ P q = true := by
  rw [List.find?_eq_some_iff_getElem]
  constructor
  · rintro ⟨hP, i, hi, hz, hbefore⟩
    refine ⟨hP, fun q hq => ?_⟩
    have hzi : z.val = i := by
      rw [← hz]
      simp
    have hlt : q.val < i := by
      rw [← hzi]
      exact hq
    have hno := hbefore q.val hlt
    simpa using hno
  · rintro ⟨hP, hfirst⟩
    refine ⟨hP, z.val, by simp, by simp, fun j hj => ?_⟩
    have hjz : (⟨j, Nat.lt_trans hj z.isLt⟩ : PIdx) < z := hj
    simpa using hfirst _ hjz

/-- A pass of `wait` by a caller that has not been killed: it frees the first
    match, or sleeps. -/
theorem wait_cases (hk : (t.proc c).killed = false) :
    (∃ z, t.FirstZombie c z ∧ t.wait c = (.reaped z (t.proc z).pid, t.waitReap z)) ∨
    ((∀ z, ¬ t.ZombieMatch c z) ∧ t.wait c = (.sleeps, t.sleep c (.proc c))) := by
  unfold wait scan
  cases hfind : (List.finRange NPROC).find?
      (fun p => t.waitMatch c (t.proc p) && decide ((t.proc p).state = .ZOMBIE)) with
  | some z =>
    obtain ⟨hz, hfirst⟩ := find_finRange_eq_some.mp hfind
    refine Or.inl ⟨z, ⟨waitTest_iff.mp hz, fun q hq hm => ?_⟩, rfl⟩
    exact hfirst q hq (waitTest_iff.mpr hm)
  | none =>
    have hnone := List.find?_eq_none.mp hfind
    refine Or.inr ⟨fun z hm => hnone z (List.mem_finRange z) (waitTest_iff.mpr hm), ?_⟩
    simp [havekids_wait t c, hk]

/-! ### When the contract holds -/

/-- **The contract of `wait`** holds for a caller that has not been killed
    exactly when the caller has a child and the first exited entry that the
    scan takes for a child is one. -/
theorem wait_contract_iff {t : Table} {c : PIdx} (h : Reachable tableSystem t)
    (hk : (t.proc c).killed = false) :
    WaitContract t c ↔
      (∃ p, (t.proc p).parent = some c) ∧
      ∀ z, t.FirstZombie c z → (t.proc z).parent = some c := by
  have hq := (tableInv_reachable h).queues
  constructor
  · intro hw
    rcases wait_cases hk with ⟨z, hz, heq⟩ | ⟨hnone, heq⟩
    · have hparent : (t.proc z).parent = some c :=
        (hw.reaped z _ (by rw [heq])).2.2.2.1
      refine ⟨⟨z, hparent⟩, fun z' hz' => ?_⟩
      -- there is only one first match
      have hzz : z' = z := by
        apply Fin.le_antisymm
        · exact Fin.not_lt.mp (fun hlt => hz'.2 z hlt hz.1)
        · exact Fin.not_lt.mp (fun hlt => hz.2 z' hlt hz'.1)
      rw [hzz]
      exact hparent
    · refine ⟨(hw.sleeps (by rw [heq])).1, fun z hz => absurd hz.1 (hnone z)⟩
  · rintro ⟨⟨p, hp⟩, hfirst⟩
    rcases wait_cases hk with ⟨z, hz, heq⟩ | ⟨hnone, heq⟩
    · have hzombie := hz.1.1
      have hreap := waitReap_eq hq hzombie
      refine ⟨?_, ?_, ?_⟩
      · rw [heq]
        exact ⟨fun hf => (by cases hf), fun hno => absurd hp (hno p)⟩
      · intro z' pid hr
        rw [heq] at hr
        simp only [WaitResult.reaped.injEq] at hr
        obtain ⟨rfl, rfl⟩ := hr
        have hpos := hq.pid_pos z (by rw [hzombie]; decide)
        refine ⟨Nat.pos_of_ne_zero hpos, rfl, hzombie, hfirst z hz, ?_, ?_⟩
        · rw [heq, hreap, proc_modify_self]
        · intro q hqz
          rw [heq, hreap, proc_modify_of_ne _ _ hqz]
      · intro hs
        rw [heq] at hs
        cases hs
    · refine ⟨?_, ?_, ?_⟩
      · rw [heq]
        exact ⟨fun hf => (by cases hf), fun hno => absurd hp (hno p)⟩
      · intro z pid hr
        rw [heq] at hr
        cases hr
      · intro _
        exact ⟨⟨p, hp⟩, fun q hqc hqz => hnone q ⟨hqz, Or.inl hqc⟩⟩

/-! ### A run in which `wait` sleeps without children -/

/-- The first process, dispatched on CPU 0. It has no children. -/
def initRunning : Table := ((boot.userinit 0 1 2).schedule 0).toOption.getD boot

/-- The first process again, after a `fork`. -/
def initForked : Table :=
  (((((initRunning.takeEntry 1).goto 0 (.forkAlloc 1)).initEntry 1 (some 3)).goto 0
    (.forkCopy 1)).forkFill 0 1 (some 4)).goto 0 (.forkPublish 1)

theorem reachable_initRunning : Reachable tableSystem initRunning := by
  have h : Reachable tableSystem (boot.userinit 0 1 2) :=
    .step (.userinit 0 1 2) (.init rfl) ⟨rfl, rfl, rfl⟩
  exact .step (.schedule 0) h ⟨rfl, rfl⟩

theorem acts_initRunning : initRunning.Acts 0 := ⟨⟨0, rfl⟩, rfl⟩

theorem reachable_initForked : Reachable tableSystem (initForked.publish 1 |>.goto 0 .run) := by
  have h1 : Reachable tableSystem ((initRunning.takeEntry 1).goto 0 (.forkAlloc 1)) :=
    .step (.fork 0 1) reachable_initRunning ⟨⟨acts_initRunning, rfl⟩, rfl, rfl⟩
  have h2 : Reachable tableSystem ((((initRunning.takeEntry 1).goto 0
      (.forkAlloc 1)).initEntry 1 (some 3)).goto 0 (.forkCopy 1)) :=
    .step (.allocproc 0 (some 3)) h1 ⟨⟨⟨0, rfl⟩, rfl⟩, Or.inl ⟨1, rfl, rfl⟩⟩
  have h3 : Reachable tableSystem initForked :=
    .step (.forkFill 0 (some 4)) h2 ⟨⟨⟨0, rfl⟩, rfl⟩, 1, rfl, rfl⟩
  exact .step (.publish 0) h3 ⟨⟨⟨0, rfl⟩, rfl⟩, 1, Or.inl rfl, rfl⟩

/-- The first process runs, has not been killed and has no child, and its
    `wait` does not return `-1`: it sleeps. -/
theorem wait_sleeps_without_children :
    ∃ t c, Reachable tableSystem t ∧ t.Idle c ∧ (t.proc c).killed = false ∧
      (∀ p, (t.proc p).parent ≠ some c) ∧ (t.wait c).1 = .sleeps ∧ ¬ WaitContract t c := by
  have hno : ∀ p, (initRunning.proc p).parent ≠ some 0 := by decide
  have hs : (initRunning.wait 0).1 = .sleeps := by decide
  refine ⟨initRunning, 0, reachable_initRunning, ⟨acts_initRunning, rfl⟩, rfl, hno, hs, ?_⟩
  intro hw
  have hf := hw.failed_iff.mpr hno
  rw [hs] at hf
  cases hf

/-- Once the first process has forked, the contract holds for it. -/
theorem wait_contract_iff_initForked :
    WaitContract (initForked.publish 1 |>.goto 0 .run) 0 := by
  refine (wait_contract_iff reachable_initForked rfl).mpr ⟨⟨1, rfl⟩, ?_⟩
  rintro z ⟨⟨hz, _⟩, _⟩
  have hnone : ∀ z, ((initForked.publish 1 |>.goto 0 .run).proc z).state ≠ .ZOMBIE := by decide
  exact absurd hz (hnone z)

end Table

end Xv6.Process
