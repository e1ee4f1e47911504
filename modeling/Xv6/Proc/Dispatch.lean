import Xv6.Proc.Entries

/-! # The Order of Dispatch

    One iteration of the scheduler runs the head of the lowest-numbered
    queue that the aging pass leaves non-empty. Over a run, every step puts
    what it enqueues behind what stays (`Step.moves`), and only the
    scheduler takes processes out (`Step.leaves`), so the order in a queue
    is the order of enqueueing and processes of one level are dispatched in
    that order.
-/

namespace Xv6.Process

open LTS Fifo

namespace Table

variable {t t' u : Table} {p : PIdx} {i : Int} {l : Label} {k : Fin NCPU} {n : Nat}

/-! ### Steps that only enqueue -/

namespace Grows

theorem moves (h : Grows t t') (hi : validLevel i) :
    Moves (t.queue i).toList (t'.queue i).toList := by
  obtain ⟨new, heq, hnew⟩ := h i hi
  exact ⟨_, new, heq, .refl _, hnew⟩

theorem subset (h : Grows t t') (hi : validLevel i) (hp : p ∈ (t.queue i).toList) :
    p ∈ (t'.queue i).toList := by
  obtain ⟨new, heq, _⟩ := h i hi
  rw [heq]
  exact List.mem_append_left _ hp

end Grows

/-- Every step but an iteration of the scheduler only enqueues. -/
theorem Step.queues (h : TableInv t) (hst : t.Step l t') :
    (∃ k, l = .schedule k ∧ t.schedule k = .ok t') ∨ Grows t t' := by
  by_cases hl : ∃ k, l = .schedule k
  · obtain ⟨k, rfl⟩ := hl
    exact Or.inl ⟨k, rfl, hst.2⟩
  · exact Or.inr ((Step.effect h hst).grows (fun k heq => hl ⟨k, heq⟩))

/-! ### One iteration of the scheduler -/

/-- The iteration on CPU `k` that led from `t` to `t'` has run `p` from level
    `i`: the lowest level that the aging pass left non-empty, of which `p`
    was the head. All other queues, and the rest of this one, are as the
    pass left them. -/
structure Dispatches (t t' : Table) (k : Fin NCPU) (p : PIdx) (i : Int) : Prop where
  level : validLevel i
  lowest : ∀ j, 0 ≤ j → j < i → (t.aging.queue j).toList = []
  head : (t.aging.queue i).toList = p :: (t'.queue i).toList
  others : ∀ j, j ≠ i → t'.queue j = t.aging.queue j
  running : (t'.proc p).state = .RUNNING ∧ t'.cpu k = some p
  /-- Whoever stays at this level has stood behind `p` already before the
      pass, or has just come up. -/
  earliest : ∀ q, q ∈ (t.queue i).toList → q ∈ (t'.queue i).toList →
    [p, q].Sublist (t.queue i).toList
  /-- Every other process that could run is still queued. -/
  rest : ∀ q, q ≠ p → (t.proc q).state = .RUNNABLE →
    ∃ j, validLevel j ∧ q ∈ (t'.queue j).toList

theorem toList_eq_nil_of_tail {q : ArrayQueue PIdx} (h : ¬ 0 ≤ q.tail) : q.toList = [] := by
  apply List.eq_nil_of_length_eq_zero
  rw [ArrayQueue.length_toList]
  unfold ArrayQueue.size
  omega

/-- `pick` finds nothing only if all queues are empty. -/
theorem pick_none (h : t.pick = none) (hi : validLevel i) : (t.queue i).toList = [] := by
  unfold pick at h
  rw [Option.map_eq_none_iff, List.find?_eq_none] at h
  have hmem : i ∈ ([0, 1, 2, 3, 4] : List Int) := by
    obtain ⟨h0, h5⟩ := hi
    simp only [List.mem_cons, List.not_mem_nil, or_false]
    omega
  exact toList_eq_nil_of_tail (by simpa using h i hmem)

/-- `pick` looks at the levels in order. -/
theorem pick_lowest (h : t.pick = some (p, i)) {j : Int} (hj : 0 ≤ j) (hji : j < i) :
    (t.queue j).toList = [] := by
  obtain ⟨hi, _⟩ := mem_of_pick h
  unfold pick at h
  obtain ⟨i', hfind, heq⟩ := Option.map_eq_some_iff.mp h
  simp only [Prod.mk.injEq] at heq
  obtain ⟨_, rfl⟩ := heq
  obtain ⟨_, before, after, hl, hbefore⟩ := List.find?_eq_some_iff_append.mp hfind
  have hmem : j ∈ before ++ i' :: after := by
    rw [← hl]
    obtain ⟨_, h5⟩ := hi
    simp only [List.mem_cons, List.not_mem_nil, or_false]
    omega
  have hsorted : (before ++ i' :: after).Pairwise (· < ·) := by
    rw [← hl]
    decide
  have hafter := (List.pairwise_cons.mp (List.pairwise_append.mp hsorted).2.1).1
  rcases List.mem_append.mp hmem with hb | hb
  · exact toList_eq_nil_of_tail (by simpa using hbefore j hb)
  · rcases List.mem_cons.mp hb with rfl | ha
    · omega
    · have hlt := hafter j ha
      omega

theorem pick_head (h : t.pick = some (p, i)) :
    ∃ rest, (t.queue i).toList = p :: rest := by
  obtain ⟨_, hmem⟩ := mem_of_pick h
  unfold pick at h
  obtain ⟨i', _, heq⟩ := Option.map_eq_some_iff.mp h
  simp only [Prod.mk.injEq] at heq
  obtain ⟨rfl, rfl⟩ := heq
  have hpos : 0 < (t.queue i').toList.length := List.length_pos_of_mem hmem
  cases hl : (t.queue i').toList with
  | nil =>
    rw [hl] at hpos
    cases hpos
  | cons x rest =>
    refine ⟨rest, ?_⟩
    have hx := ArrayQueue.getElem_toList (t.queue i') 0 hpos
    simp only [hl, List.getElem_cons_zero] at hx
    rw [hx]

/-- The processes that were queued before and after an aging pass stand in
    the same order. -/
theorem aging_moves (h : QueueInv t none) (hi : validLevel i) :
    Moves (t.queue i).toList (t.aging.queue i).toList :=
  ⟨_, _, (agedUpTo_aging h).queues i hi, keptAt_sublist t 4 i,
    fun _ hx => not_mem_of_promotedAt h hi hx⟩

/-- An iteration with a process to run picks the head of the lowest
    non-empty queue and runs it if `switchuvm` accepts it. -/
theorem schedule_dispatches (h : QueueInv t none) (k : Fin NCPU)
    (hr : ∃ q, (t.proc q).state = .RUNNABLE) :
    ∃ p i t', Dispatches t t' k p i ∧ (t.aging.proc p).state = .RUNNABLE ∧
      t.schedule k = (switchuvm (t.aging.proc p)).map (fun _ => t') := by
  have hag := (agedUpTo_aging h).inv
  -- whoever is RUNNABLE before the pass is so after it, and queued
  have hqueued : ∀ q, (t.proc q).state = .RUNNABLE →
      validLevel (t.aging.proc q).queue ∧
      q ∈ (t.aging.queue (t.aging.proc q).queue).toList := by
    intro q hq
    have hq' : (t.aging.proc q).state = .RUNNABLE := (aged_aging h q).state_eq.trans hq
    exact ⟨hag.active_level (by simp [hq', Active]), hag.mem_own hq'⟩
  cases hpick : t.aging.pick with
  | none =>
    obtain ⟨q, hq⟩ := hr
    obtain ⟨hlevel, hmem⟩ := hqueued q hq
    rw [pick_none hpick hlevel] at hmem
    cases hmem
  | some pi =>
    obtain ⟨p, i⟩ := pi
    obtain ⟨hi, _⟩ := mem_of_pick hpick
    obtain ⟨rest, hrest⟩ := pick_head hpick
    obtain ⟨q', htl, _, heq⟩ := schedule_picked h k hpick
    rw [hrest, List.erase_cons_head] at htl
    refine ⟨p, i, _, ?_, runnable_of_pick hag hpick, heq⟩
    refine ⟨hi, fun j h0 hji => pick_lowest hpick h0 hji, ?_, ?_, ?_, ?_, ?_⟩
    · simp [dispatch, htl, hrest]
    · intro j hj
      simp [dispatch, hj]
    · simp [dispatch]
    · intro q hq hq'
      simp only [dispatch, queue_modify, Function.update_self, htl] at hq'
      have hpq : [p, q].Sublist (t.aging.queue i).toList := by
        rw [hrest]
        exact (List.singleton_sublist.mpr hq').cons_cons p
      exact (aging_moves h hi).order_back hpq hq
    · intro q hqp hq
      obtain ⟨hlevel, hmemq⟩ := hqueued q hq
      refine ⟨_, hlevel, ?_⟩
      by_cases hqi : (t.aging.proc q).queue = i
      · rw [hqi, hrest] at hmemq
        rcases List.mem_cons.mp hmemq with heq | hin
        · exact absurd heq hqp
        · simpa [dispatch, hqi, htl] using hin
      · simpa [dispatch, hqi] using hmemq

/-- An iteration that does not panic has run a process, or has found all
    queues empty. -/
theorem schedule_ok_cases (h : QueueInv t none) (hs : t.schedule k = .ok t') :
    t' = t.aging ∨ ∃ p i, Dispatches t t' k p i := by
  rcases schedule_cases h hs with ⟨_, heq⟩ | ⟨p, i, _, hpick, _⟩
  · exact Or.inl heq
  · -- the process picked was RUNNABLE before the pass as well
    have hbefore : (t.proc p).state = .RUNNABLE :=
      (aged_aging h p).state_eq.symm.trans (runnable_of_pick (agedUpTo_aging h).inv hpick)
    obtain ⟨q, j, u, hd, _, heq⟩ := schedule_dispatches h k ⟨p, hbefore⟩
    rw [heq] at hs
    cases hsw : switchuvm (t.aging.proc q) with
    | error e =>
      rw [hsw] at hs
      cases hs
    | ok v =>
      rw [hsw] at hs
      cases hs
      exact Or.inr ⟨q, j, hd⟩

theorem Dispatches.moves {j : Int} (h : QueueInv t none) (hd : Dispatches t t' k p i)
    (hj : validLevel j) : Moves (t.queue j).toList (t'.queue j).toList := by
  have hag := aging_moves h hj
  by_cases hji : j = i
  · subst hji
    rw [hd.head] at hag
    exact hag.tail
  · rw [hd.others j hji]
    exact hag

/-! ### Every step -/

/-- Every step puts what it enqueues behind what stays. -/
theorem Step.moves (h : TableInv t) (hst : t.Step l t') (hi : validLevel i) :
    Moves (t.queue i).toList (t'.queue i).toList := by
  rcases Step.queues h hst with ⟨k, _, hs⟩ | hg
  · rcases schedule_ok_cases h.queues hs with rfl | ⟨p, j, hd⟩
    · exact aging_moves h.queues hi
    · exact hd.moves h.queues hi
  · exact hg.moves hi

/-- A process leaves a queue only by being aged or dispatched. -/
theorem Step.leaves (h : TableInv t) (hst : t.Step l t') (hi : validLevel i)
    (hp : p ∈ (t.queue i).toList) (hp' : p ∉ (t'.queue i).toList) :
    ∃ k, l = .schedule k ∧ (p ∉ (t.aging.queue i).toList ∨ Dispatches t t' k p i) := by
  rcases Step.queues h hst with ⟨k, hl, hs⟩ | hg
  · refine ⟨k, hl, ?_⟩
    rcases schedule_ok_cases h.queues hs with rfl | ⟨q, j, hd⟩
    · exact Or.inl hp'
    · by_cases hji : i = j
      · subst hji
        by_cases hin : p ∈ (t.aging.queue i).toList
        · rw [hd.head] at hin
          rcases List.mem_cons.mp hin with rfl | hrest
          · exact Or.inr hd
          · exact absurd hrest hp'
        · exact Or.inl hin
      · rw [hd.others i hji] at hp'
        exact Or.inl hp'
  · exact absurd (hg.subset hi hp) hp'

/-! ### Runs -/

section Runs

variable (σ : Nat → Table) (ls : Nat → Label)

/-- Queue `i` over a run. -/
def queueOver (i : Int) (n : Nat) : List PIdx := ((σ n).queue i).toList

/-- Step `n` dispatches `p` from level `i`. -/
def DispatchedAt (n : Nat) (p : PIdx) (i : Int) : Prop :=
  ∃ k, ls n = .schedule k ∧ Dispatches (σ n) (σ (n + 1)) k p i

/-- The aging pass of step `n` takes `p` out of queue `i`. -/
def AgedAt (n : Nat) (p : PIdx) (i : Int) : Prop :=
  (∃ k, ls n = .schedule k) ∧ p ∈ ((σ n).queue i).toList ∧ p ∉ ((σ n).aging.queue i).toList

/-- Processes of one level are queued in the order in which they were
    enqueued, and dispatched in that order unless the one in front is aged
    away. -/
structure DispatchOrder (N : Nat) : Prop where
  arrival : ∀ i n x y, validLevel i → n ≤ N → [x, y].Sublist ((σ n).queue i).toList →
    ∃ a b, a ≤ b ∧ EnteredAt (queueOver σ i) n x a ∧ EnteredAt (queueOver σ i) n y b
  /-- `x` stands before `y` at time `m`, and `y` is dispatched by step `n`. -/
  standing : ∀ i x y m n, validLevel i → m ≤ n → n < N →
    [x, y].Sublist ((σ m).queue i).toList →
    (∀ j, m ≤ j → j ≤ n → y ∈ ((σ j).queue i).toList ∧ ¬ AgedAt σ ls j x i) →
    DispatchedAt σ ls n y i →
    ∃ j, m ≤ j ∧ j < n ∧ DispatchedAt σ ls j x i
  /-- `x` is enqueued by step `a`, `y` by the later step `b`, and `y` is
      dispatched by step `n`. -/
  enqueued : ∀ i x y a b n, validLevel i → a < b → n < N →
    x ∉ ((σ a).queue i).toList → x ∈ ((σ (a + 1)).queue i).toList →
    EnteredAt (queueOver σ i) n y b → (∀ j, a < j → j ≤ n → ¬ AgedAt σ ls j x i) →
    DispatchedAt σ ls n y i →
    ∃ j, a < j ∧ j < n ∧ DispatchedAt σ ls j x i

variable {σ ls} {N : Nat} (hrun : IsRun tableSystem σ ls N)

include hrun

theorem run_tableInv (hn : n ≤ N) : TableInv (σ n) :=
  tableInv_reachable (hrun.reachable n hn)

section

variable (hi : validLevel i)

include hi

theorem run_moves (n : Nat) (hn : n < N) : Moves (queueOver σ i n) (queueOver σ i (n + 1)) :=
  Step.moves (l := ls n) (run_tableInv hrun (by omega)) (hrun.step n hn) hi

theorem run_nodup (n : Nat) (hn : n ≤ N) : (queueOver σ i n).Nodup :=
  (run_tableInv hrun hn).queues.nodup i hi

/-- A process that is neither aged nor dispatched stays queued. -/
theorem stays_queued {m : Nat} (hmn : m ≤ n) (hn : n ≤ N) (hp : p ∈ queueOver σ i m)
    (hage : ∀ j, m ≤ j → j < n → ¬ AgedAt σ ls j p i)
    (hdis : ∀ j, m ≤ j → j < n → ¬ DispatchedAt σ ls j p i) : p ∈ queueOver σ i n := by
  induction hmn with
  | refl => exact hp
  | @step n hmn ih =>
    have hle : m ≤ n := hmn
    have hprev := ih (by omega) (fun j h1 h2 => hage j h1 (by omega))
      (fun j h1 h2 => hdis j h1 (by omega))
    by_contra hout
    obtain ⟨k, hl, hleft⟩ := Step.leaves (l := ls n) (run_tableInv hrun (by omega))
      (hrun.step n hn) hi hprev hout
    rcases hleft with haged | hd
    · exact hage n hle (by omega) ⟨⟨k, hl⟩, hprev, haged⟩
    · exact hdis n hle (by omega) ⟨k, hl, hd⟩

/-- Whoever stands in front is dispatched first. -/
theorem standing_first {x y : PIdx} {m : Nat} (hmn : m ≤ n) (hn : n < N)
    (hxy : [x, y].Sublist (queueOver σ i m))
    (hstay : ∀ j, m ≤ j → j ≤ n → y ∈ queueOver σ i j ∧ ¬ AgedAt σ ls j x i)
    (hy : DispatchedAt σ ls n y i) : ∃ j, m ≤ j ∧ j < n ∧ DispatchedAt σ ls j x i := by
  by_contra hno
  have hx : ∀ j, m ≤ j → j ≤ n → x ∈ queueOver σ i j := by
    intro j hmj hjn
    refine stays_queued hrun hi hmj (by omega) (hxy.subset (by simp))
      (fun d h1 h2 => (hstay d h1 (by omega)).2) (fun d h1 h2 hd => ?_)
    exact hno ⟨d, h1, by omega, hd⟩
  have hn' := order_kept (run_moves hrun hi) (run_nodup hrun hi) hmn (by omega) hxy hx
    (fun j h1 h2 => (hstay j h1 h2).1)
  -- the aging pass of step `n` leaves both, so `x` stands before the head
  obtain ⟨k, hl, hd⟩ := hy
  have hinv := (run_tableInv hrun (Nat.le_of_lt hn)).queues
  have hxag : x ∈ ((σ n).aging.queue i).toList := by
    by_contra hout
    exact (hstay n hmn (Nat.le_refl n)).2 ⟨⟨k, hl⟩, hx n hmn (Nat.le_refl n), hout⟩
  have hyag : y ∈ ((σ n).aging.queue i).toList := by
    rw [hd.head]
    exact List.mem_cons_self
  have hag := (aging_moves hinv hi).order_kept (hinv.nodup i hi) hn' hxag hyag
  have hnd := (agedUpTo_aging hinv).inv.nodup i hi
  have hxy' : x ≠ y := by
    rintro rfl
    exact hnd.order_unique hag hag
  have hyx : [y, x].Sublist ((σ n).aging.queue i).toList := by
    rw [hd.head] at hxag ⊢
    rcases List.mem_cons.mp hxag with heq | hrest
    · exact absurd heq hxy'
    · exact (List.singleton_sublist.mpr hrest).cons_cons y
  exact hnd.order_unique hag hyx

/-- Whoever is enqueued first is dispatched first. -/
theorem enqueued_first {x y : PIdx} {a b : Nat} (hab : a < b) (hn : n < N)
    (hx : x ∈ queueOver σ i (a + 1)) (hy : EnteredAt (queueOver σ i) n y b)
    (hage : ∀ j, a < j → j ≤ n → ¬ AgedAt σ ls j x i) (hdis : DispatchedAt σ ls n y i) :
    ∃ j, a < j ∧ j < n ∧ DispatchedAt σ ls j x i := by
  by_contra hno
  obtain ⟨hbn, hout, hstay⟩ := hy
  have hxs : ∀ j, a < j → j ≤ n → x ∈ queueOver σ i j := by
    intro j haj hjn
    refine stays_queued hrun hi haj (by omega) hx (fun d h1 h2 => hage d h1 (by omega))
      (fun d h1 h2 hd => ?_)
    exact hno ⟨d, h1, by omega, hd⟩
  -- `y` comes in behind `x`
  have hback := (run_moves hrun hi b (by omega)).enters_behind (hxs b hab (by omega))
    (hxs (b + 1) (by omega) (by omega)) hout (hstay (b + 1) (by omega) (by omega))
  obtain ⟨j, hj, hjn, hd⟩ := standing_first hrun hi (m := b + 1) (by omega) hn hback
    (fun j h1 h2 => ⟨hstay j (by omega) h2, hage j (by omega) h2⟩) hdis
  exact hno ⟨j, by omega, hjn, hd⟩

end

theorem dispatchOrder_of_run : DispatchOrder σ ls N where
  arrival := by
    intro i n x y hi hn hxy
    have h0 : queueOver σ i 0 = [] := by
      rw [queueOver, show σ 0 = boot from hrun.init]
      rfl
    obtain ⟨a, ha⟩ := exists_enteredAt (q := queueOver σ i) h0 (hxy.subset (by simp) : x ∈ _)
    obtain ⟨b, hb⟩ := exists_enteredAt (q := queueOver σ i) h0 (hxy.subset (by simp) : y ∈ _)
    exact ⟨a, b, entered_le (run_moves hrun hi) (run_nodup hrun hi) hn hxy ha hb, ha, hb⟩
  standing := fun i x y m n hi hmn hn hxy hstay hy =>
    standing_first hrun hi hmn hn hxy hstay hy
  enqueued := fun i x y a b n hi hab hn _ hx hy hage hdis =>
    enqueued_first hrun hi hab hn hx hy hage hdis

end Runs

/-- In a reachable state an iteration with a process to run does not panic. -/
theorem schedule_ok (h : Reachable tableSystem t) (k : Fin NCPU)
    (hr : ∃ q, (t.proc q).state = .RUNNABLE) :
    ∃ p i t', Dispatches t t' k p i ∧ t.schedule k = .ok t' := by
  have hinv := (tableInv_reachable h).queues
  obtain ⟨p, i, t', hd, hrun, heq⟩ := schedule_dispatches hinv k hr
  refine ⟨p, i, t', hd, ?_⟩
  have hag := aged_aging hinv p
  have hbacked := (backedInv_reachable h).active p (by simp [← hag.state_eq, hrun, Active])
  obtain ⟨hk, hdir⟩ : (t.aging.proc p).kstack ≠ none ∧ (t.aging.proc p).pgdir ≠ none := by
    rcases hag with hsame | ⟨_, _, _, hsame⟩ <;> rw [hsame] <;> exact hbacked
  rw [heq]
  simp [switchuvm, hk, hdir, Except.map]

/-- **Dispatch order.** In every state with the queue invariant an iteration
    with a process to run takes the head of the lowest-numbered queue that
    the aging pass leaves non-empty, which has been enqueued before all
    others there, and leaves the other processes queued in their order; in
    reachable states `switchuvm` accepts it. Over a run, processes of one
    level are dispatched in the order in which they were enqueued. -/
theorem mlfq_dispatch_order :
    (∀ (t : Table) (k : Fin NCPU), QueueInv t none → (∃ q, (t.proc q).state = .RUNNABLE) →
      ∃ p i t', Dispatches t t' k p i ∧
        t.schedule k = (switchuvm (t.aging.proc p)).map (fun _ => t')) ∧
    (∀ (t : Table) (k : Fin NCPU), Reachable tableSystem t →
      (∃ q, (t.proc q).state = .RUNNABLE) →
      ∃ p i t', Dispatches t t' k p i ∧ t.schedule k = .ok t') ∧
    (∀ (σ : Nat → Table) (ls : Nat → Label) (N : Nat), IsRun tableSystem σ ls N →
      DispatchOrder σ ls N) := by
  refine ⟨fun t k h hr => ?_, fun t k h hr => schedule_ok h k hr,
    fun σ ls N h => dispatchOrder_of_run h⟩
  obtain ⟨p, i, t', hd, _, heq⟩ := schedule_dispatches h k hr
  exact ⟨p, i, t', hd, heq⟩

/-- After `userinit` the first iteration runs the first process. -/
theorem mlfq_dispatch_order_userinit :
    ∃ t', Dispatches (boot.userinit 0 1 2) t' 0 0 0 ∧
      (boot.userinit 0 1 2).schedule 0 = .ok t' := by
  have hreach : Reachable tableSystem (boot.userinit 0 1 2) :=
    .step (.userinit 0 1 2) (.init rfl) ⟨rfl, rfl, rfl⟩
  obtain ⟨p, i, t', hd, heq⟩ := mlfq_dispatch_order.2.1 _ 0 hreach ⟨0, by decide⟩
  have hfirst : ((boot.userinit 0 1 2).aging.queue 0).toList = [0] := by decide
  have hi : i = 0 := by
    by_contra hne
    have hempty := hd.lowest 0 (Int.le_refl 0) (by have := hd.level.1; omega)
    rw [hfirst] at hempty
    cases hempty
  subst hi
  have hhead := hd.head
  rw [hfirst, List.cons.injEq] at hhead
  obtain ⟨rfl, _⟩ := hhead
  exact ⟨t', hd, heq⟩

end Table

end Xv6.Process
