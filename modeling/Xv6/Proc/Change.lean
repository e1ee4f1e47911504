import Xv6.Proc.Aging

/-! # What a Step Does to the Process Table

    `EntryChange` lists everything a step can make of one entry of the
    table, as the record the entry becomes. `KontChange` lists where the step
    can take a process inside the kernel. `Step.effect` shows that the two
    lists are complete and that the queues stay in order; it is the only
    place that looks at all labels. The other invariants are read off the
    lists.
-/

namespace Xv6.Process

open LTS Function

/-- The entry a `fork` or `clone` in progress has got back from
    `allocproc`. -/
def Kont.made : Kont → Option PIdx
  | .forkCopy np | .forkPublish np | .cloneFill np _ | .clonePublish np => some np
  | _ => none

/-- The entry whose `fork` or `clone` only has to publish it. -/
def Kont.filled : Kont → Option PIdx
  | .forkPublish np | .clonePublish np => some np
  | _ => none

/-- The process that lets go of the entry it has been setting up. -/
def Label.releases : Label → Option PIdx
  | .allocproc c none | .forkFill c none | .publish c => some c
  | _ => none

/-- The process that a step may put to sleep. -/
def Label.sleeper : Label → Option PIdx
  | .sleep c _ | .wait c | .waitx c | .join c _ => some c
  | _ => none

namespace Table

variable {t t' u : Table} {p : PIdx} {i : Int} {l : Label} {k : Fin NCPU} {pr : Proc}

theorem child_of_made {k : Kont} (h : k.made = some p) : k.child = some p := by
  cases k <;> first | exact h | cases h

theorem made_of_filled {k : Kont} (h : k.filled = some p) : k.made = some p := by
  cases k <;> first | exact h | cases h

/-- The entry that a step sets up. -/
def subject (t : Table) : Label → Option PIdx
  | .userinit p _ _ | .fork _ p | .clone _ p _ => some p
  | .allocproc c _ | .forkFill c _ | .cloneFill c | .publish c => (t.kont c).child
  | _ => none

/-! ### Between two steps -/

/-- CPUs run `RUNNING` processes, and the entry a `fork` or `clone` sets up
    is an `EMBRYO` that no other call is setting up. -/
structure CtlInv (t : Table) : Prop where
  cpu_running : ∀ k p, t.cpu k = some p → (t.proc p).state = .RUNNING
  embryo : ∀ c np, (t.kont c).child = some np → (t.proc np).state = .EMBRYO
  embryo_inj : ∀ c c' np,
    (t.kont c).child = some np → (t.kont c').child = some np → c = c'

/-- What holds between any two steps. -/
structure TableInv (t : Table) : Prop where
  queues : QueueInv t none
  ctl : CtlInv t

namespace TableInv

theorem running {c : PIdx} (h : TableInv t) (ha : t.Acts c) : (t.proc c).state = .RUNNING := by
  obtain ⟨⟨k, hk⟩, _⟩ := ha
  exact h.ctl.cpu_running k c hk

/-- Only a `RUNNING` process is on a CPU. -/
theorem off_cpu (h : TableInv t) (hs : (t.proc p).state ≠ .RUNNING) (k : Fin NCPU) :
    t.cpu k ≠ some p :=
  fun hk => hs (h.ctl.cpu_running k p hk)

theorem unused_of_find (hu : t.findUnused = some p) : (t.proc p).state = .UNUSED := by
  have h := List.find?_some hu
  simpa using h

theorem afterScan_child {k : Kont} (hk : k.child = none) (r : WaitResult) :
    (afterScan k r).child = none := by
  cases r <;> first | exact hk | rfl

end TableInv

/-! ### The scheduler -/

/-- `a` after CPU `k` has taken `p` out of the queues, which leaves `q`, to
    run it. -/
def dispatch (a : Table) (k : Fin NCPU) (p : PIdx) (q : Int → ArrayQueue PIdx) : Table :=
  { ({ a with queue := q } : Table).modify p
      (fun pr => { pr with state := .RUNNING, chan := none }) with
    cpu := update a.cpu k (some p) }

/-- An iteration that has picked `p` runs it if `switchuvm` accepts it. -/
theorem schedule_picked (h : QueueInv t none) (k : Fin NCPU)
    (hpick : t.aging.pick = some (p, i)) :
    ∃ q', q'.toList = (t.aging.queue i).toList.erase p ∧
      QueueInv { t.aging with queue := update t.aging.queue i q' } (some p) ∧
      t.schedule k = (switchuvm (t.aging.proc p)).map
        (fun _ => t.aging.dispatch k p (update t.aging.queue i q')) := by
  have hag := (agedUpTo_aging h).inv
  obtain ⟨hi, hmem⟩ := mem_of_pick hpick
  obtain ⟨q', heq, htl, _, hmove⟩ := remove_proc_from_q_spec hag hi hmem
  refine ⟨q', htl, hmove, ?_⟩
  unfold schedule
  simp only [hpick, heq, runnable_of_pick hag hpick, if_true]
  cases switchuvm (t.aging.proc p) <;> rfl

theorem schedule_cases (h : QueueInv t none) (hs : t.schedule k = .ok t') :
    (t.aging.pick = none ∧ t' = t.aging) ∨
    ∃ p i q', t.aging.pick = some (p, i) ∧ QueueInv { t.aging with queue := q' } (some p) ∧
      t' = t.aging.dispatch k p q' := by
  cases hpick : t.aging.pick with
  | none =>
    unfold schedule at hs
    simp only [hpick, Except.ok.injEq] at hs
    exact Or.inl ⟨rfl, hs.symm⟩
  | some pi =>
    obtain ⟨p, i⟩ := pi
    obtain ⟨q', _, hmove, heq⟩ := schedule_picked h k hpick
    rw [heq] at hs
    cases hsw : switchuvm (t.aging.proc p) with
    | error e =>
      rw [hsw] at hs
      cases hs
    | ok u =>
      rw [hsw] at hs
      exact Or.inr ⟨p, i, _, rfl, hmove, (Except.ok.inj hs).symm⟩

/-! ### Aging -/

/-- The level of a process before and after an aging pass at time `now`. -/
def Aged (now : Word) (pr pr' : Proc) : Prop :=
  pr' = pr ∨
  (pr.state = .RUNNABLE ∧ 1 ≤ pr.queue ∧ (now - pr.enter).toInt > 30 ∧
   pr' = { pr with queue := pr.queue - 1, enter := now })

theorem Aged.state_eq {now : Word} {pr' : Proc} (h : Aged now pr pr') : pr'.state = pr.state := by
  rcases h with rfl | ⟨_, _, _, rfl⟩ <;> rfl

theorem aged_aging (h : QueueInv t none) (p : PIdx) :
    Aged t.ticks (t.proc p) (t.aging.proc p) := by
  have hag := agedUpTo_aging h
  by_cases hp : ∃ i, p ∈ t.promotedAt 4 i
  · obtain ⟨i, hp⟩ := hp
    obtain ⟨h1, h4, hmem, hage⟩ := mem_of_promotedAt hp
    obtain ⟨hr, _, rfl⟩ := (h.mem_iff p i ⟨by omega, by omega⟩).mp hmem
    exact Or.inr ⟨hr, h1, of_decide_eq_true hage, hag.moves _ p hp⟩
  · exact Or.inl (hag.stays p (fun i hi => hp ⟨i, hi⟩))

/-! ### The two lists -/

/-- What the step `l` from `t` can make of the entry `p` and of its place
    in a timer interrupt. -/
inductive EntryChange (t : Table) (p : PIdx) : Label → Proc → Bool → Prop where
  /-- Another process acts. -/
  | roused {l : Label} {pr : Proc} (hl : l ≠ .tick) (hb : t.subject l ≠ some p)
      (h : Roused (t.proc p) pr) (hpar : pr.parent = (t.proc p).parent ∨ ∃ c, l = .exit c) :
      EntryChange t p l pr (t.inTimer p)
  | ticked {pr : Proc} (h : Roused (t.proc p) pr) (hpar : pr.parent = (t.proc p).parent) :
      EntryChange t p .tick { pr with
        rtime := if pr.state = .RUNNING then pr.rtime + 1 else pr.rtime
        iotime := if pr.state = .SLEEPING then pr.iotime + 1 else pr.iotime } (t.inTimer p)
  | slept {l : Label} (chan : Chan) (hl : l ≠ .tick) (hb : t.subject l ≠ some p)
      (hs : (t.proc p).state = .RUNNING) (hin : t.inTimer p = false)
      (hcall : l.sleeper = some p) :
      EntryChange t p l { t.proc p with chan := some chan, state := .SLEEPING } false
  | exited (parent : Option PIdx) (sz : Nat) (hs : (t.proc p).state = .RUNNING)
      (hin : t.inTimer p = false) :
      EntryChange t p (.exit p)
        { t.proc p with parent := parent, sz := sz, state := .ZOMBIE, etime := t.ticks } false
  | aged {pr : Proc} (k : Fin NCPU) (h : Aged t.ticks (t.proc p) pr) :
      EntryChange t p (.schedule k) pr (t.inTimer p)
  | ran {pr : Proc} (k : Fin NCPU) (h : Aged t.ticks (t.proc p) pr)
      (hs : (t.proc p).state = .RUNNABLE) :
      EntryChange t p (.schedule k) { pr with state := .RUNNING, chan := none } (t.inTimer p)
  /-- `change_q_flag`. -/
  | flagged (hs : (t.proc p).state = .RUNNING)
      (hmax : q_ticks_max (t.proc p).queue ≤ (t.proc p).curr_ticks.toInt) :
      EntryChange t p (.timer p) { t.proc p with change_q := true } true
  /-- `incr_curr_ticks`. -/
  | counted (hs : (t.proc p).state = .RUNNING)
      (hlt : (t.proc p).curr_ticks.toInt < q_ticks_max (t.proc p).queue) :
      EntryChange t p (.timer p) { t.proc p with
        curr_ticks := (t.proc p).curr_ticks + 1
        qticks := update (t.proc p).qticks (t.proc p).queue
          ((t.proc p).qticks (t.proc p).queue + 1) } (t.inTimer p)
  | yielded (enter : Word) (hs : (t.proc p).state = .RUNNING) (hin : t.inTimer p = true) :
      EntryChange t p (.yield p) { t.proc p with
        state := .RUNNABLE
        change_q := false
        curr_ticks := 0
        queue := if (t.proc p).change_q ∧ (t.proc p).queue ≠ 4 then (t.proc p).queue + 1
          else (t.proc p).queue
        enter := enter } false
  | booted (kstack pgdir : Page) (enter : Word) (hs : (t.proc p).state = .UNUSED) :
      EntryChange t p (.userinit p kstack pgdir) { t.proc p with
        state := .RUNNABLE, pid := t.nextpid, tgid := t.nexttgid, kstack := some kstack
        ctime := t.ticks, etime := 0, rtime := 0, iotime := 0, curr_ticks := 0, queue := 0
        enter := enter, qticks := fun _ => 0, pgdir := some pgdir, sz := PGSIZE
        tf := ⟨0, 0, PGSIZE, 0⟩ } (t.inTimer p)
  /-- The critical section of `allocproc`. -/
  | taken {l : Label} (c : PIdx) (hl : l = .fork c p ∨ ∃ args, l = .clone c p args)
      (hs : (t.proc p).state = .UNUSED) :
      EntryChange t p l { t.proc p with
        state := .EMBRYO, pid := t.nextpid, tgid := t.nexttgid } (t.inTimer p)
  /-- The end of `allocproc`. -/
  | stacked (c : PIdx) (kstack : Page) (hc : (t.kont c).child = some p)
      (hm : (t.kont c).made = none) (he : (t.proc p).state = .EMBRYO) :
      EntryChange t p (.allocproc c (some kstack)) { t.proc p with
        kstack := some kstack, ctime := t.ticks, etime := 0, rtime := 0, iotime := 0
        curr_ticks := 0, queue := 0, enter := 0, qticks := fun _ => 0 } (t.inTimer p)
  /-- `kalloc` or `copyuvm` failed: only `state` is reset. -/
  | dropped {l : Label} (c : PIdx) (pgdir : Option Page)
      (hl : l = .allocproc c none ∨ l = .forkFill c none) (hc : (t.kont c).child = some p)
      (he : (t.proc p).state = .EMBRYO) :
      EntryChange t p l { t.proc p with kstack := none, pgdir := pgdir, state := .UNUSED }
        (t.inTimer p)
  | forked (c : PIdx) (pgdir : Page) (hc : t.kont c = .forkCopy p)
      (he : (t.proc p).state = .EMBRYO) :
      EntryChange t p (.forkFill c (some pgdir)) { t.proc p with
        pgdir := some pgdir, sz := (t.proc c).sz, parent := some c
        tf := { (t.proc c).tf with eax := 0 } } (t.inTimer p)
  | cloned (c : PIdx) (args : CloneArgs) (hc : t.kont c = .cloneFill p args)
      (hs : (t.proc c).state = .RUNNING) (he : (t.proc p).state = .EMBRYO) :
      EntryChange t p (.cloneFill c) { t.proc p with
        sz := (t.proc c).sz, pgdir := (t.proc c).pgdir, parent := some c, tgid := (t.proc c).tgid
        tf := ⟨0, args.stack + PGSIZE - 8, args.stack + PGSIZE - 8, args.function⟩
        tstack := args.stack } (t.inTimer p)
  | published (c : PIdx) (queue : Int) (enter : Word)
      (hc : t.kont c = .forkPublish p ∨ t.kont c = .clonePublish p)
      (he : (t.proc p).state = .EMBRYO) (hq : queue = 0 ∨ queue = (t.proc p).queue) :
      EntryChange t p (.publish c) { t.proc p with
        state := .RUNNABLE, queue := queue, enter := enter } (t.inTimer p)
  | reaped {l : Label} (tgid : Nat) (tstack : Word) (queue : Int) (hl : l ≠ .tick)
      (hb : t.subject l ≠ some p) (hs : (t.proc p).state = .ZOMBIE) :
      EntryChange t p l { t.proc p with
        kstack := none, pid := 0, tgid := tgid, tstack := tstack, parent := none
        killed := false, queue := queue, state := .UNUSED } (t.inTimer p)
  | killed {pr : Proc} (c : PIdx) (h : Roused { t.proc p with killed := true } pr)
      (hpar : pr.parent = (t.proc p).parent) :
      EntryChange t p (.kill c (t.proc p).pid) pr (t.inTimer p)
  | faulted (hs : (t.proc p).state = .RUNNING) :
      EntryChange t p (.fault p) { t.proc p with killed := true } (t.inTimer p)
  | committed (img : ExecImage) :
      EntryChange t p (.execCommit p) { t.proc p with
        pgdir := some img.pgdir
        sz := img.sz
        tf := { (t.proc p).tf with eip := img.eip, esp := img.esp } } (t.inTimer p)

/-- Where the step `l` from `t` can take the process `c` inside the kernel. -/
inductive KontChange (t : Table) (c : PIdx) : Label → Kont → Prop where
  | same {l : Label} (hl : l.releases ≠ some c) : KontChange t c l (t.kont c)
  /-- The process sets up no entry, or no longer. -/
  | clear {l : Label} (k : Kont) (hk : k.child = none) (hr : (t.proc c).state = .RUNNING) :
      KontChange t c l k
  | taken {l : Label} (k : Kont) (np : PIdx) (hk : k.child = some np) (hm : k.made = none)
      (hr : (t.proc c).state = .RUNNING) (hl : l = .fork c np ∨ ∃ args, l = .clone c np args) :
      KontChange t c l k
  | stacked (kstack : Page) (k : Kont) (np : PIdx) (hc : (t.kont c).child = some np)
      (hm : (t.kont c).made = none) (hk : k.made = some np) (hf : k.filled = none)
      (hr : (t.proc c).state = .RUNNING) : KontChange t c (.allocproc c (some kstack)) k
  | filled {l : Label} (k : Kont) (np : PIdx)
      (hl : (∃ pgdir, l = .forkFill c (some pgdir)) ∨ l = .cloneFill c)
      (hc : (t.kont c).made = some np) (hk : k.filled = some np)
      (hr : (t.proc c).state = .RUNNING) : KontChange t c l k

/-- What the step `l` from `t` to `t'` does, apart from moving processes on
    inside the kernel. -/
structure Outcome (t : Table) (l : Label) (t' : Table) : Prop where
  entry : ∀ p, EntryChange t p l (t'.proc p) (t'.inTimer p)
  ticks : l ≠ .tick → t'.ticks = t.ticks
  tick : l = .tick → t'.ticks = t.ticks + 1
  initproc : (∀ p kstack pgdir, l ≠ .userinit p kstack pgdir) → t'.initproc = t.initproc
  ids : t.nexttgid = t.nextpid → t'.nexttgid = t'.nextpid
  cpu : ∀ k p, t'.cpu k = some p → (t'.proc p).state = .RUNNING
  queues : QueueInv t' none
  grows : (∀ k, l ≠ .schedule k) → Grows t t'

/-- The same when nobody moves on. -/
structure Changes (t : Table) (l : Label) (t' : Table) : Prop extends Outcome t l t' where
  kont : t'.kont = t.kont

/-- What the step `l` from `t` to `t'` does. -/
structure Effect (t : Table) (l : Label) (t' : Table) : Prop extends Outcome t l t' where
  kont : ∀ c, KontChange t c l (t'.kont c)

theorem Changes.stay (h : Changes t l t') (hl : l.releases = none) : Effect t l t' where
  toOutcome := h.toOutcome
  kont := by
    intro c
    rw [h.kont]
    exact .same (by simp [hl])

/-- The step also moves a process on inside a call. -/
theorem Changes.goto {c : PIdx} {k : Kont} (h : Changes t l t') (hk : KontChange t c l k)
    (hl : l.releases = none ∨ l.releases = some c) : Effect t l (t'.goto c k) where
  toOutcome := ⟨h.entry, h.ticks, h.tick, h.initproc, h.ids, h.cpu,
    h.queues.congr rfl rfl rfl (fun _ => rfl) (fun _ => rfl) (fun _ => rfl), h.grows⟩
  kont := by
    intro d
    by_cases hd : d = c
    · rw [hd, show (t'.goto c k).kont c = k from update_self _ _ _]
      exact hk
    · rw [show (t'.goto c k).kont d = t'.kont d from update_of_ne hd _ _, h.kont]
      refine .same (fun hrel => ?_)
      rcases hl with hl | hl
      · rw [hl] at hrel
        cases hrel
      · exact hd (Option.some.inj (hrel.symm.trans hl))

/-! ### The operations -/

section Operations

variable {c np : PIdx} (h : TableInv t)

include h

/-- Processes are woken up, and no entry is being set up. -/
theorem changes_of_rouses (hr : Rouses True t t') (hl : l ≠ .tick) (hb : t.subject l = none) :
    Changes t l t' where
  entry := by
    intro p
    rw [hr.inTimer]
    exact .roused hl (by simp [hb]) (hr.proc p) (Or.inl (hr.parent trivial p))
  ticks := fun _ => hr.ticks
  tick := fun htick => absurd htick hl
  initproc := fun _ => hr.initproc
  ids := by
    rw [hr.nextpid, hr.nexttgid]
    exact id
  cpu := fun k p hk => (hr.proc p).running (h.ctl.cpu_running k p (hr.cpu ▸ hk))
  queues := (hr.queues h.queues).1
  grows := fun _ => (hr.queues h.queues).2
  kont := hr.kont

/-- The step changes one entry only. -/
theorem changes_of_one (q : PIdx) (hl : l ≠ .tick)
    (hb : t.subject l = none ∨ t.subject l = some q)
    (hself : EntryChange t q l (t'.proc q) (t'.inTimer q))
    (hother : ∀ p, p ≠ q → t'.proc p = t.proc p) (hin : ∀ p, p ≠ q → t'.inTimer p = t.inTimer p)
    (hkont : t'.kont = t.kont) (hticks : t'.ticks = t.ticks)
    (hinit : (∀ p kstack pgdir, l ≠ .userinit p kstack pgdir) → t'.initproc = t.initproc)
    (hids : t.nexttgid = t.nextpid → t'.nexttgid = t'.nextpid)
    (hcpu : ∀ k p, p ≠ q → t'.cpu k = some p → t.cpu k = some p)
    (hrun : ∀ k, t'.cpu k = some q → (t'.proc q).state = .RUNNING)
    (hq : QueueInv t' none ∧ Grows t t') : Changes t l t' where
  entry := by
    intro p
    by_cases hp : p = q
    · subst hp
      exact hself
    · rw [hother p hp, hin p hp]
      refine .roused hl (fun hsub => ?_) (.refl _) (Or.inl rfl)
      rcases hb with hb | hb <;> rw [hb] at hsub
      · cases hsub
      · exact hp (Option.some.inj hsub).symm
  ticks := fun _ => hticks
  tick := fun htick => absurd htick hl
  initproc := hinit
  ids := hids
  cpu := by
    intro k p hk
    by_cases hp : p = q
    · subst hp
      exact hrun k hk
    · rw [hother p hp]
      exact h.ctl.cpu_running k p (hcpu k p hp hk)
  queues := hq.1
  grows := fun _ => hq.2
  kont := hkont

/-- The same when the change is a `modify`. -/
theorem changes_of_modify {q : PIdx} {f : Proc → Proc} (hl : l ≠ .tick)
    (hb : t.subject l = none ∨ t.subject l = some q)
    (he : EntryChange t q l (f (t.proc q)) (t.inTimer q)) (hq : QueueInv (t.modify q f) none)
    (hrun : (t.proc q).state = .RUNNING → (f (t.proc q)).state = .RUNNING) :
    Changes t l (t.modify q f) := by
  refine changes_of_one h q hl hb ?_ (fun p hp => proc_modify_of_ne t f hp) (fun _ _ => rfl) rfl
    rfl (fun _ => rfl) id (fun _ _ _ => id) (fun k hk => ?_) ⟨hq, .of_eq rfl⟩
  · rw [proc_modify_self]
    exact he
  · rw [proc_modify_self]
    exact hrun (h.ctl.cpu_running k q hk)

omit h in
theorem publish_proc (t : Table) (np : PIdx) :
    ∃ enter queue, (queue = 0 ∨ queue = (t.proc np).queue) ∧ (t.publish np).proc =
      (t.modify np (fun pr =>
        { pr with state := .RUNNABLE, enter := enter, queue := queue })).proc := by
  obtain ⟨enter, queue, hq, heq⟩ :=
    add_proc_to_q_proc (t.modify np (fun pr => { pr with state := .RUNNABLE })) np 0
  rw [modify_modify] at heq
  exact ⟨enter, queue, by simpa using hq, heq⟩

theorem changes_userinit (hu : (t.proc np).state = .UNUSED) (kstack pgdir : Page) :
    Changes t (.userinit np kstack pgdir) (t.userinit np kstack pgdir) := by
  unfold userinit
  simp only
  generalize hfill : Table.modify _ np _ = u
  have hself : u.proc np = { t.proc np with
      state := .EMBRYO, pid := t.nextpid, tgid := t.nexttgid, kstack := some kstack
      ctime := t.ticks, etime := 0, rtime := 0, iotime := 0, curr_ticks := 0, queue := 0
      enter := 0, qticks := fun _ => 0, pgdir := some pgdir, sz := PGSIZE
      tf := ⟨0, 0, PGSIZE, 0⟩ } := by
    rw [← hfill]
    simp [initEntry, takeEntry, modify]
  have hother : ∀ p, p ≠ np → u.proc p = t.proc p := by
    intro p hp
    rw [← hfill]
    simp [initEntry, takeEntry, modify, hp]
  obtain ⟨hkont, hin, hticks, hcpu, hqueue, hoob, hpid, htgid⟩ : u.kont = t.kont ∧
      u.inTimer = t.inTimer ∧ u.ticks = t.ticks ∧ u.cpu = t.cpu ∧ u.queue = t.queue ∧
      u.oob = t.oob ∧ u.nextpid = t.nextpid + 1 ∧ u.nexttgid = t.nexttgid + 1 := by
    rw [← hfill]
    exact ⟨rfl, rfl, rfl, rfl, rfl, rfl, rfl, rfl⟩
  have hinv : QueueInv u none := by
    refine h.queues.change hother hqueue hoob (by omega) (by simp [hu]) (by simp [hself])
      (fun _ _ => Iff.rfl) (by simp [hself, Active]) (Or.inr (Or.inr ⟨by rw [hself], by omega⟩)) ?_
    have hlt := h.queues.pid_lt np
    rw [hself]
    exact fun _ => Nat.ne_of_gt (Nat.lt_of_le_of_lt (Nat.zero_le _) hlt)
  obtain ⟨hpub, hgrow⟩ := enqueued_publish hinv (p := np) (by rw [hself])
  have hf := queueFrame_add (u.modify np (fun pr => { pr with state := .RUNNABLE })) np 0
  have hin' : (u.publish np).inTimer = t.inTimer := hf.inTimer.trans hin
  have hcpu' : (u.publish np).cpu = t.cpu := hf.cpu.trans hcpu
  obtain ⟨enter, queue, hq, heq⟩ := publish_proc u np
  refine changes_of_one h np (by simp) (Or.inr rfl) ?_ (fun p hp => ?_) (fun p _ => congrFun hin' p)
    (hf.kont.trans hkont) (hf.ticks.trans hticks) (fun hno => absurd rfl (hno np kstack pgdir))
    (fun hids => ?_) (fun k p _ => hcpu' ▸ id) (fun k hk => ?_)
    ⟨hpub, Grows.trans (.of_eq hqueue) hgrow⟩
  · have hzero : queue = 0 := by simpa [hself] using hq
    rw [heq, hin', proc_modify_self, hself, hzero]
    exact .booted kstack pgdir enter hu
  · rw [heq, proc_modify_of_ne _ _ hp, hother p hp]
  · rw [show (u.publish np).nextpid = t.nextpid + 1 from hf.nextpid.trans hpid, ← hids]
    exact hf.nexttgid.trans htgid
  · exact absurd (hcpu' ▸ hk) (h.off_cpu (by simp [hu]) k)

theorem changes_take (hu : (t.proc np).state = .UNUSED)
    (hl : l = .fork c np ∨ ∃ args, l = .clone c np args) : Changes t l (t.takeEntry np) := by
  have hne : l ≠ .tick ∧ t.subject l = some np := by
    rcases hl with rfl | ⟨_, rfl⟩ <;> exact ⟨by simp, rfl⟩
  refine changes_of_one h np hne.1 (Or.inr hne.2) ?_ (fun p hp => ?_) (fun _ _ => rfl) rfl rfl
    (fun _ => rfl) (congrArg (· + 1)) (fun _ _ _ => id)
    (fun k hk => absurd hk (h.off_cpu (by simp [hu]) k))
    ⟨queueInv_takeEntry h.queues hu, .of_eq rfl⟩
  · simp only [takeEntry, proc_modify_self]
    exact .taken c hl hu
  · simp [takeEntry, hp]

section

variable (he : (t.proc np).state = .EMBRYO)

include he

/-- The rest of `allocproc`. -/
theorem changes_initEntry (hc : (t.kont c).child = some np) (hm : (t.kont c).made = none)
    (kstack : Option Page) : Changes t (.allocproc c kstack) (t.initEntry np kstack) := by
  unfold initEntry
  cases kstack with
  | none =>
    exact changes_of_modify h (by simp) (Or.inr hc) (.dropped c _ (Or.inl rfl) hc he)
      (h.queues.drop (by simp [he]) rfl (Or.inl rfl)) (by simp [he])
  | some ks =>
    refine changes_of_modify h (by simp) (Or.inr hc) (.stacked c ks hc hm he) ?_ (by simp [he])
    exact h.queues.modify (by simp [he]) (by simp [he]) (fun _ _ => Iff.rfl)
      (fun ha => absurd he ha.2) (Or.inl rfl) (fun _ => h.queues.pid_pos np (by simp [he]))

theorem changes_forkFill (hc : t.kont c = .forkCopy np) (pgdir : Option Page) :
    Changes t (.forkFill c pgdir) (t.forkFill c np pgdir) := by
  have hchild : (t.kont c).child = some np := by rw [hc]; rfl
  unfold forkFill
  cases pgdir with
  | none =>
    exact changes_of_modify h (by simp) (Or.inr hchild) (.dropped c none (Or.inr rfl) hchild he)
      (h.queues.drop (by simp [he]) rfl (Or.inl rfl)) (by simp [he])
  | some d =>
    exact changes_of_modify h (by simp) (Or.inr hchild) (.forked c d hc he)
      (h.queues.modifyOther rfl rfl rfl) id

theorem changes_cloneFill {args : CloneArgs} (hs : (t.proc c).state = .RUNNING)
    (hc : t.kont c = .cloneFill np args) : Changes t (.cloneFill c) (t.cloneFill c np args) := by
  have hchild : (t.kont c).child = some np := by rw [hc]; rfl
  unfold cloneFill
  exact changes_of_modify h (by simp) (Or.inr hchild) (.cloned c args hc hs he)
    (h.queues.modifyOther rfl rfl rfl) id

theorem changes_publish (hc : t.kont c = .forkPublish np ∨ t.kont c = .clonePublish np) :
    Changes t (.publish c) (t.publish np) := by
  have hf := queueFrame_add (t.modify np (fun pr => { pr with state := .RUNNABLE })) np 0
  have hin : (t.publish np).inTimer = t.inTimer := hf.inTimer
  have hcpu : (t.publish np).cpu = t.cpu := hf.cpu
  obtain ⟨enter, queue, hq, heq⟩ := publish_proc t np
  have hchild : (t.kont c).child = some np := by
    rcases hc with hc | hc <;> rw [hc] <;> rfl
  refine changes_of_one h np (by simp) (Or.inr hchild) ?_ (fun p hp => ?_)
    (fun p _ => congrFun hin p) hf.kont hf.ticks (fun _ => hf.initproc)
    (fun hids => hf.nexttgid.trans (hids.trans hf.nextpid.symm)) (fun k p _ => hcpu ▸ id)
    (fun k hk => absurd (hcpu ▸ hk) (h.off_cpu (by simp [he]) k)) (enqueued_publish h.queues he)
  · rw [heq, hin, proc_modify_self]
    exact .published c queue enter hc he hq
  · rw [heq, proc_modify_of_ne _ _ hp]

end

omit h in
theorem cpu_offCpu {k : Fin NCPU} (hk : (t.offCpu c).cpu k = some p) :
    t.cpu k = some p ∧ p ≠ c := by
  by_cases hkc : t.cpu k = some c
  · simp [offCpu, hkc] at hk
  · have hkp : t.cpu k = some p := by simpa [offCpu, hkc] using hk
    exact ⟨hkp, fun heq => hkc (heq ▸ hkp)⟩

theorem changes_sleep (hl : l ≠ .tick) (hb : t.subject l = none) (hcall : l.sleeper = some c)
    (hr : (t.proc c).state = .RUNNING) (hin : t.inTimer c = false) (chan : Chan) :
    Changes t l (t.sleep c chan) := by
  have hself : (t.sleep c chan).proc c =
      { t.proc c with chan := some chan, state := .SLEEPING } := by simp [sleep]
  have hother : ∀ p, p ≠ c → (t.sleep c chan).proc p = t.proc p := by
    intro p hp
    simp [sleep, hp]
  refine changes_of_one h c hl (Or.inl hb) ?_ hother (fun _ _ => rfl) rfl rfl (fun _ => rfl) id
    (fun k p _ hk => (cpu_offCpu hk).1) (fun k hk => absurd rfl (cpu_offCpu hk).2) ⟨?_, .of_eq rfl⟩
  · rw [hself, show (t.sleep c chan).inTimer c = false from hin]
    exact .slept chan hl (by simp [hb]) hr hin hcall
  · exact h.queues.change hother rfl rfl (Nat.le_refl _) (by simp [hr]) (by simp [hself])
      (fun _ _ => Iff.rfl) (fun _ _ => by simpa [hself] using h.queues.active_level (by simp [hr, Active]))
      (Or.inl (by rw [hself])) (fun _ => by simpa [hself] using h.queues.pid_pos c (by simp [hr]))

theorem changes_exit (hr : (t.proc c).state = .RUNNING) (hin : t.inTimer c = false)
    (hex : t.exit c = .ok t') : Changes t (.exit c) t' := by
  have hloops := rouses_abandonChildren t c
  unfold exit at hex
  split at hex
  · cases hex
  · simp only [Except.ok.injEq] at hex
    subst hex
    generalize t.abandonChildren c = u at hloops ⊢
    obtain ⟨hinv, hgrow⟩ := hloops.queues h.queues
    have hrun := (hloops.proc c).running hr
    let f : Proc → Proc := fun pr => { pr with state := .ZOMBIE, etime := t.ticks }
    have hmod : QueueInv (u.modify c f) none :=
      hinv.modify (by simp [hrun]) (by simp [f]) (fun _ _ => Iff.rfl)
        (fun _ _ => hinv.active_level (by simp [hrun, Active])) (Or.inl rfl)
        (fun _ => hinv.pid_pos c (by simp [hrun]))
    refine ⟨⟨fun p => ?_, fun _ => hloops.ticks, fun htick => (by cases htick),
      fun _ => hloops.initproc, fun hids => hloops.nexttgid.trans (hids.trans hloops.nextpid.symm),
      fun k p hk => ?_, hmod.congr rfl rfl rfl (fun _ => rfl) (fun _ => rfl) (fun _ => rfl),
      fun _ => hgrow⟩, hloops.kont⟩
    · show EntryChange t p (.exit c) ((u.modify c f).proc p) (u.inTimer p)
      have hp := hloops.proc p
      rw [proc_modify, hloops.inTimer]
      split
      · next heq =>
        -- the caller was running, so the loops have not woken it
        subst heq
        rw [hin]
        generalize u.proc p = pr at hp ⊢
        cases hp with
        | same parent sz => exact .exited parent sz hr hin
        | woken _ _ _ hs =>
          rw [hr] at hs
          cases hs
      · exact .roused (by simp) (by simp [subject]) hp (Or.inr ⟨c, rfl⟩)
    · obtain ⟨hkp, hpc⟩ := cpu_offCpu hk
      rw [proc_offCpu, proc_modify_of_ne u f hpc]
      exact (hloops.proc p).running (h.ctl.cpu_running k p (hloops.cpu ▸ hkp))

/-- A pass of `wait`, `waitx` or `join`. -/
theorem effect_scan {k : Kont} {isMatch : Proc → Bool} {reap : Table → PIdx → Table}
    (hl : l ≠ .tick) (hb : t.subject l = none) (hcall : l.sleeper = some c) (hk : k.child = none)
    (hrel : l.releases = none) (hreap : ∀ z, (t.proc z).state = .ZOMBIE → Changes t l (reap t z))
    (hst : t.ScanStep c k (t.scan c isMatch reap) t') : Effect t l t' := by
  obtain ⟨ha, _, rfl⟩ := hst
  refine Changes.goto ?_ (.clear _ (TableInv.afterScan_child hk _) (h.running ha)) (Or.inl hrel)
  unfold scan
  split
  · next z hfind =>
    have hz := List.find?_some hfind
    simp only [Bool.and_eq_true, decide_eq_true_eq] at hz
    exact hreap z hz.2
  · simp only
    split
    · exact changes_of_rouses h (.refl t) hl hb
    · exact changes_sleep h hl hb hcall (h.running ha) ha.2 _

/-- Freeing a `ZOMBIE` entry. -/
theorem changes_free {z : PIdx} {tgid : Proc → Nat} {tstack : Proc → Word} {queue : Proc → Int}
    (hl : l ≠ .tick) (hb : t.subject l = none) (hz : (t.proc z).state = .ZOMBIE) :
    Changes t l (t.modify z (fun pr => { pr with
      kstack := none, pid := 0, tgid := tgid pr, tstack := tstack pr, parent := none
      killed := false, queue := queue pr, state := .UNUSED })) :=
  changes_of_modify h hl (Or.inl hb) (.reaped _ _ _ hl (by simp [hb]) hz)
    (h.queues.drop (by simp [hz]) rfl (Or.inr rfl)) (by simp [hz])

theorem changes_kill (pid : Int) : Changes t (.kill c pid) (t.kill pid).1 := by
  unfold kill
  split
  · exact changes_of_rouses h (.refl t) (by simp) rfl
  · next q hfind =>
    have hq := List.find?_some hfind
    simp only [decide_eq_true_eq] at hq
    subst hq
    -- the entry is marked, then it may be woken up
    have hmark : ∀ u : Table, Rouses True (t.modify q (fun pr => { pr with killed := true })) u →
        (∀ p, p ≠ q → u.proc p = t.proc p) → Changes t (.kill c (t.proc q).pid) u := by
      intro u hu hother
      have hself := hu.proc q
      have hpar := hu.parent trivial q
      rw [proc_modify_self] at hself hpar
      refine changes_of_one h q (by simp) (Or.inl rfl) ?_ hother
        (fun p _ => congrFun hu.inTimer p) hu.kont hu.ticks (fun _ => hu.initproc)
        (fun hids => hu.nexttgid.trans (hids.trans hu.nextpid.symm)) (fun k p _ => hu.cpu ▸ id)
        (fun k hk => hself.running (h.ctl.cpu_running k q (hu.cpu ▸ hk)))
        (hu.queues (h.queues.modifyOther rfl rfl rfl))
      rw [hu.inTimer]
      exact .killed c hself hpar
    simp only
    split
    · next hs =>
      refine hmark _ (rouses_enqueueWoken _ hs) (fun p hp => ?_)
      unfold enqueueWoken
      obtain ⟨_, _, _, heq⟩ := add_proc_to_q_proc (Table.modify
        (t.modify q (fun pr => { pr with killed := true })) q
        (fun pr => { pr with state := .RUNNABLE, curr_ticks := 0 })) q _
      rw [heq]
      simp [hp]
    · exact hmark _ (.refl _) (fun p hp => by simp [hp])

theorem changes_schedule (hs : t.schedule k = .ok t') : Changes t (.schedule k) t' := by
  have haged := aged_aging h.queues
  have hag := (agedUpTo_aging h.queues).inv
  have hf := queueFrame_aging t
  have hcpu : ∀ k p, t.cpu k = some p → (t.aging.proc p).state = .RUNNING := fun k p hk =>
    (haged p).state_eq.trans (h.ctl.cpu_running k p hk)
  rcases schedule_cases h.queues hs with ⟨_, rfl⟩ | ⟨r, i, q', hpick, hmove, rfl⟩
  · refine ⟨⟨fun p => ?_, fun _ => hf.ticks, fun htick => (by cases htick), fun _ => hf.initproc,
      fun hids => hf.nexttgid.trans (hids.trans hf.nextpid.symm),
      fun k p hk => hcpu k p (hf.cpu ▸ hk), hag, fun hno => absurd rfl (hno k)⟩, hf.kont⟩
    rw [hf.inTimer]
    exact .aged k (haged p)
  · have hrun := runnable_of_pick hag hpick
    have hlevel := hag.active_level (p := r) (by simp [hrun, Active])
    have hpos := hag.pid_pos r (by simp [hrun])
    have hself : (t.aging.dispatch k r q').proc r =
        { t.aging.proc r with state := .RUNNING, chan := none } := by simp [dispatch]
    have hother : ∀ p, p ≠ r → (t.aging.dispatch k r q').proc p = t.aging.proc p := by
      intro p hp
      simp [dispatch, hp]
    refine ⟨⟨fun p => ?_, fun _ => hf.ticks, fun htick => (by cases htick), fun _ => hf.initproc,
      fun hids => hf.nexttgid.trans (hids.trans hf.nextpid.symm), fun j p hj => ?_, ?_,
      fun hno => absurd rfl (hno k)⟩, hf.kont⟩
    · rw [show (t.aging.dispatch k r q').inTimer = t.inTimer from hf.inTimer]
      by_cases hp : p = r
      · -- the process that runs next may have been promoted just before
        subst hp
        rw [hself]
        exact .ran k (haged p) ((haged p).state_eq ▸ hrun)
      · rw [hother p hp]
        exact .aged k (haged p)
    · by_cases hp : p = r
      · rw [hp, hself]
      · have hjk : j ≠ k := by
          rintro rfl
          exact hp (Option.some.inj ((update_self j _ t.aging.cpu).symm.trans hj)).symm
        have hold : t.aging.cpu j = some p := (update_of_ne hjk _ _).symm.trans hj
        rw [hother p hp]
        exact hcpu j p (hf.cpu ▸ hold)
    · -- the process stops being `RUNNABLE`, which ends the move
      refine hmove.change hother rfl rfl (Nat.le_refl _) (fun _ => rfl) (by simp [hself])
        (fun q hq => by simp [Ne.symm hq]) (fun _ _ => by simpa [hself] using hlevel)
        (Or.inl (by rw [hself])) (fun _ => by simpa [hself] using hpos)

theorem changes_timer (hr : (t.proc c).state = .RUNNING) : Changes t (.timer c) (t.timer c) := by
  have hlevel : validLevel (t.proc c).queue := h.queues.active_level (by simp [hr, Active])
  have hoob : QueueInv { t with oob := t.oob || !decide (validLevel (t.proc c).queue) } none :=
    h.queues.congr rfl (by simp [hlevel]) rfl (fun _ => rfl) (fun _ => rfl) (fun _ => rfl)
  unfold timer
  simp only
  split
  · next hmax =>
    have hflag := hoob.modifyOther (p := c) (f := fun pr => { pr with change_q := true }) rfl rfl
      rfl
    refine changes_of_one h c (by simp) (Or.inl rfl) ?_ (fun p hp => by simp [modify, hp])
      (fun p hp => by simp [hp]) rfl rfl (fun _ => rfl) id (fun _ _ _ => id) (fun _ _ => by simpa)
      ⟨hflag.congr rfl rfl rfl (fun _ => rfl) (fun _ => rfl) (fun _ => rfl), .of_eq rfl⟩
    simp only [proc_modify_self, update_self]
    exact .flagged hr hmax
  · next hlt =>
    refine changes_of_one h c (by simp) (Or.inl rfl) ?_ (fun p hp => by simp [modify, hp])
      (fun _ _ => rfl) rfl rfl (fun _ => rfl) id (fun _ _ _ => id) (fun _ _ => by simpa)
      ⟨hoob.modifyOther rfl rfl rfl, .of_eq rfl⟩
    simp only [proc_modify_self]
    exact .counted hr (Int.not_le.mp hlt)

/-- `yield` and the re-enqueue, which is at the process's new level. -/
theorem changes_yield (hr : (t.proc c).state = .RUNNING) (hin : t.inTimer c = true) :
    Changes t (.yield c) { t.yield c with inTimer := update t.inTimer c false } := by
  have hlevel : validLevel (t.proc c).queue := h.queues.active_level (by simp [hr, Active])
  unfold yield
  simp only
  generalize hu : ((t.modify c (fun pr => { pr with state := .RUNNABLE })).offCpu c).modify c
    (fun pr => if pr.change_q then
      { pr with
        change_q := false
        curr_ticks := 0
        queue := if pr.queue ≠ 4 then pr.queue + 1 else pr.queue }
      else { pr with curr_ticks := 0 }) = u
  have hself : u.proc c = { t.proc c with
      state := .RUNNABLE, change_q := false, curr_ticks := 0
      queue := if (t.proc c).change_q ∧ (t.proc c).queue ≠ 4 then (t.proc c).queue + 1
        else (t.proc c).queue } := by
    rw [← hu]
    cases hflag : (t.proc c).change_q <;> simp [hflag]
  have hother : ∀ p, p ≠ c → u.proc p = t.proc p := by
    intro p hp
    rw [← hu]
    simp [hp]
  obtain ⟨hqueue, hoob, hcpu, hkont, hticks, hinit, hpid, htgid⟩ : u.queue = t.queue ∧
      u.oob = t.oob ∧ u.cpu = (t.offCpu c).cpu ∧ u.kont = t.kont ∧ u.ticks = t.ticks ∧
      u.initproc = t.initproc ∧ u.nextpid = t.nextpid ∧ u.nexttgid = t.nexttgid := by
    rw [← hu]
    exact ⟨rfl, rfl, rfl, rfl, rfl, rfl, rfl, rfl⟩
  have hlevel' : validLevel (u.proc c).queue := by
    -- demotion stops at level 4
    unfold validLevel at hlevel ⊢
    rw [hself]
    simp only
    split <;> omega
  have hmove : QueueInv u (some c) :=
    h.queues.change hother hqueue hoob (by omega) (by simp [hr]) (fun _ => rfl)
      (fun q hq => by simp [Ne.symm hq]) (fun _ hne => absurd rfl hne) (Or.inl (by rw [hself]))
      (fun _ => by simpa [hself] using h.queues.pid_pos c (by simp [hr]))
  obtain ⟨hinv, hgrow⟩ := enqueued_add hmove (by rw [hself]) hlevel'
  have hf := queueFrame_add u c (u.proc c).queue
  obtain ⟨enter, q, hq, heq⟩ := add_proc_to_q_proc u c (u.proc c).queue
  rw [or_self] at hq
  generalize (u.add_proc_to_q c (u.proc c).queue).1 = w at hinv hgrow hf heq ⊢
  have hcpu' : ∀ {k p}, w.cpu k = some p → t.cpu k = some p ∧ p ≠ c := fun hk =>
    cpu_offCpu (hcpu ▸ hf.cpu ▸ hk)
  refine changes_of_one h c (by simp) (Or.inl rfl) ?_ ?_ (fun p hp => update_of_ne hp _ _)
    (hf.kont.trans hkont) (hf.ticks.trans hticks) (fun _ => hf.initproc.trans hinit)
    (fun hids => ?_) (fun k p _ hk => (hcpu' hk).1) (fun k hk => absurd rfl (hcpu' hk).2)
    ⟨hinv.congr rfl rfl rfl (fun _ => rfl) (fun _ => rfl) (fun _ => rfl),
      Grows.trans (.of_eq hqueue) hgrow⟩
  · show EntryChange t c _ (w.proc c) (update t.inTimer c false c)
    rw [heq, proc_modify_self, hq, hself, update_self]
    exact .yielded enter hr hin
  · intro p hp
    simp only [heq, proc_modify_of_ne _ _ hp, hother p hp]
  · exact (hf.nexttgid.trans htgid).trans (hids.trans (hf.nextpid.trans hpid).symm)

theorem changes_tick : Changes t .tick t.tick := by
  have hwake : Rouses True _ _ := rouses_wakeup1 { t with ticks := t.ticks + 1 } (some .ticks)
  have hincr : QueueInv { t with ticks := t.ticks + 1 } none :=
    h.queues.congr rfl rfl rfl (fun _ => rfl) (fun _ => rfl) (fun _ => rfl)
  unfold tick
  generalize wakeup1 _ _ = u at hwake ⊢
  obtain ⟨hinv, hgrow⟩ := hwake.queues hincr
  refine ⟨⟨fun p => ?_, fun hno => absurd rfl hno, fun _ => hwake.ticks, fun _ => hwake.initproc,
    fun hids => hwake.nexttgid.trans (hids.trans hwake.nextpid.symm), fun k p hk => ?_,
    hinv.congr rfl rfl rfl (fun _ => rfl) (fun _ => rfl) (fun _ => rfl), fun _ => hgrow⟩,
    hwake.kont⟩
  · show EntryChange t p _ _ (u.inTimer p)
    rw [hwake.inTimer]
    exact .ticked (hwake.proc p) (hwake.parent trivial p)
  · exact (hwake.proc p).running (h.ctl.cpu_running k p (hwake.cpu ▸ hk))

theorem changes_setSize {sz : Nat} (hs : t.setSize c sz = .ok t') (hl : l ≠ .tick)
    (hb : t.subject l = none) : Changes t l t' := by
  refine changes_of_rouses h ?_ hl hb
  refine setSize_induction (P := Rouses True t) (fun u p hu => ?_) (.refl t) hs
  exact hu.trans (Rouses.modify u p rfl (fun _ => rfl))

end Operations

/-- **What a step does.** -/
theorem Step.effect (h : TableInv t) (hst : t.Step l t') : Effect t l t' := by
  cases l with
  | userinit q kstack pgdir =>
    obtain ⟨_, hu, rfl⟩ := hst
    exact (changes_userinit h (TableInv.unused_of_find hu) kstack pgdir).stay rfl
  | fork c np =>
    obtain ⟨hi, hu, rfl⟩ := hst
    exact (changes_take h (TableInv.unused_of_find hu) (Or.inl rfl)).goto
      (.taken _ np rfl rfl (h.running hi.1) (Or.inl rfl)) (Or.inl rfl)
  | clone c np args =>
    obtain ⟨hi, hu, rfl⟩ := hst
    exact (changes_take h (TableInv.unused_of_find hu) (Or.inr ⟨args, rfl⟩)).goto
      (.taken _ np rfl rfl (h.running hi.1) (Or.inr ⟨args, rfl⟩)) (Or.inl rfl)
  | allocproc c kstack =>
    obtain ⟨ha, ⟨np, hk, rfl⟩ | ⟨np, args, hk, rfl⟩⟩ := hst
    all_goals
      have hc : (t.kont c).child = some np := by rw [hk]; rfl
      have hm : (t.kont c).made = none := by rw [hk]; rfl
      have hinit := changes_initEntry h (h.ctl.embryo c np hc) hc hm kstack
      cases kstack with
      | none => exact hinit.goto (.clear .run rfl (h.running ha)) (Or.inr rfl)
      | some ks => exact hinit.goto (.stacked ks _ np hc hm rfl rfl (h.running ha)) (Or.inl rfl)
  | forkFill c pgdir =>
    obtain ⟨ha, np, hk, rfl⟩ := hst
    have hfill := changes_forkFill h (h.ctl.embryo c np (by rw [hk]; rfl)) hk pgdir
    cases pgdir with
    | none => exact hfill.goto (.clear .run rfl (h.running ha)) (Or.inr rfl)
    | some d =>
      exact hfill.goto (.filled _ np (Or.inl ⟨d, rfl⟩) (by rw [hk]; rfl) rfl (h.running ha))
        (Or.inl rfl)
  | cloneFill c =>
    obtain ⟨ha, np, args, hk, rfl⟩ := hst
    exact (changes_cloneFill h (h.ctl.embryo c np (by rw [hk]; rfl)) (h.running ha) hk).goto
      (.filled _ np (Or.inr rfl) (by rw [hk]; rfl) rfl (h.running ha)) (Or.inl rfl)
  | publish c =>
    obtain ⟨ha, np, hk, rfl⟩ := hst
    refine (changes_publish h (h.ctl.embryo c np ?_) hk).goto (.clear .run rfl (h.running ha))
      (Or.inr rfl)
    rcases hk with hk | hk <;> rw [hk] <;> rfl
  | exit c =>
    obtain ⟨hi, hex⟩ := hst
    exact (changes_exit h (h.running hi.1) hi.1.2 hex).stay rfl
  | wait c =>
    refine effect_scan h (by simp) rfl rfl rfl rfl (fun z hz => ?_) hst
    rw [waitReap_eq h.queues hz]
    exact changes_free h (by simp) rfl hz
  | waitx c =>
    refine effect_scan h (by simp) rfl rfl rfl rfl (fun z hz => ?_) hst
    rw [waitxReap_eq h.queues hz]
    exact changes_free h (by simp) rfl hz
  | join c tid =>
    exact effect_scan h (by simp) rfl rfl rfl rfl (fun z hz => changes_free h (by simp) rfl hz) hst
  | sleep c chan =>
    obtain ⟨hi, _, rfl⟩ := hst
    exact (changes_sleep h (by simp) rfl rfl (h.running hi.1) hi.1.2 chan).stay rfl
  | wakeup chan =>
    obtain ⟨_, heq⟩ := hst
    rw [heq]
    exact (changes_of_rouses h (rouses_wakeup1 t _) (by simp) rfl).stay rfl
  | kill c pid =>
    obtain ⟨_, rfl⟩ := hst
    exact (changes_kill h pid).stay rfl
  | fault c =>
    obtain ⟨hi, rfl⟩ := hst
    exact (changes_of_modify h (by simp) (Or.inl rfl) (.faulted (h.running hi.1))
      (h.queues.modifyOther rfl rfl rfl) id).stay rfl
  | schedule k => exact (changes_schedule h hst.2).stay rfl
  | timer c =>
    obtain ⟨ha, rfl⟩ := hst
    exact (changes_timer h (h.running ha)).stay rfl
  | yield c =>
    obtain ⟨⟨k, hk⟩, hin, rfl⟩ := hst
    exact (changes_yield h (h.ctl.cpu_running k c hk) hin).stay rfl
  | tick =>
    have heq : t' = t.tick := hst
    rw [heq]
    exact (changes_tick h).stay rfl
  | growproc c n sz =>
    obtain ⟨_, hsz⟩ := hst
    cases sz with
    | none =>
      cases hsz
      exact (changes_of_rouses h (.refl t) (by simp) rfl).stay rfl
    | some sz => exact (changes_setSize h hsz (by simp) rfl).stay rfl
  | exec c img =>
    obtain ⟨hi, himg⟩ := hst
    have hsame : Changes t (.exec c img) t := changes_of_rouses h (.refl t) (by simp) rfl
    cases img with
    | none =>
      cases himg
      exact hsame.stay rfl
    | some img =>
      cases himg
      exact hsame.goto (.clear _ rfl (h.running hi.1)) (Or.inl rfl)
  | execCommit c =>
    obtain ⟨ha, img, t₁, _, hcommit, rfl⟩ := hst
    rw [execCommit_eq hcommit]
    exact (changes_of_modify h (by simp) (Or.inl rfl) (.committed img)
      (h.queues.modifyOther rfl rfl rfl) id).goto (.clear .run rfl (h.running ha)) (Or.inl rfl)

/-! ### The life of an entry -/

/-- `p` is between the end of its `allocproc` and its being reaped. -/
def Made (t : Table) (p : PIdx) : Prop :=
  Active (t.proc p).state ∨ ∃ c, (t.kont c).made = some p

/-- The entry whose `allocproc` ends with the step. -/
def born (t : Table) : Label → Option PIdx
  | .userinit p _ _ => some p
  | .allocproc c (some _) => (t.kont c).child
  | _ => none

theorem CtlInv.made_used (h : CtlInv t) (hm : t.Made p) : (t.proc p).state ≠ .UNUSED := by
  rcases hm with ha | ⟨c, hc⟩
  · exact ha.1
  · simp [h.embryo c p (child_of_made hc)]

/-- The entry `allocproc` works on is not made yet. -/
theorem CtlInv.not_made_of_child (h : CtlInv t) {c : PIdx} (hc : (t.kont c).child = some p)
    (hm : (t.kont c).made = none) : ¬ t.Made p := by
  rintro (ha | ⟨d, hd⟩)
  · exact ha.2 (h.embryo c p hc)
  · -- only `c` is setting `p` up, and it is still in `allocproc`
    have hdc := h.embryo_inj d c p (child_of_made hd) hc
    rw [hdc, hm] at hd
    cases hd

theorem Roused.active_iff {pr' : Proc} (h : Roused pr pr') :
    Active pr'.state ↔ Active pr.state := by
  cases h with
  | same => rfl
  | woken _ _ _ hs => simp [hs, Active]

/-- A process is born with its counters reset. -/
theorem EntryChange.at_birth {b : Bool} (h : EntryChange t p l pr b) (hb : t.born l = some p) :
    pr.queue = 0 ∧ pr.curr_ticks = 0 ∧ pr.ctime = t.ticks ∧ pr.rtime = 0 ∧ pr.iotime = 0 ∧
    pr.state ≠ .ZOMBIE := by
  have hsub : t.subject l = some p := by
    unfold born at hb
    split at hb
    · exact hb
    · exact hb
    · cases hb
  cases h with
  | booted => simp
  | stacked _ _ _ _ he => simp [he]
  | roused _ hno | slept _ _ hno | reaped _ _ _ _ hno => exact absurd hsub hno
  | taken _ hl => rcases hl with rfl | ⟨_, rfl⟩ <;> cases hb
  | dropped _ _ hl => rcases hl with rfl | rfl <;> cases hb
  | _ => cases hb

/-! ### Calls in progress -/

namespace KontChange

variable {c np : PIdx} {k : Kont}

/-- The entry that a call sets up was its entry before, or is a new one. -/
theorem child_back (h : KontChange t c l k) (hc : k.child = some np) :
    ((t.kont c).child = some np ∧ l.releases ≠ some c) ∨ l = .fork c np ∨
      ∃ args, l = .clone c np args := by
  cases h with
  | same hl => exact Or.inl ⟨hc, hl⟩
  | clear _ hno =>
    rw [hno] at hc
    cases hc
  | taken _ _ hk _ _ hl =>
    cases hk.symm.trans hc
    exact Or.inr hl
  | stacked _ _ _ hchild _ hmade =>
    cases (child_of_made hmade).symm.trans hc
    exact Or.inl ⟨hchild, by simp [Label.releases]⟩
  | filled _ _ hl hmade hf =>
    cases (child_of_made (made_of_filled hf)).symm.trans hc
    refine Or.inl ⟨child_of_made hmade, ?_⟩
    rcases hl with ⟨_, rfl⟩ | rfl <;> simp [Label.releases]

theorem made_back (h : KontChange t c l k) (hm : k.made = some np) :
    (t.kont c).made = some np ∨
      ((t.kont c).child = some np ∧ ∃ kstack, l = .allocproc c (some kstack)) := by
  cases h with
  | same => exact Or.inl hm
  | clear _ hno =>
    rw [child_of_made hm] at hno
    cases hno
  | taken _ _ _ hno =>
    rw [hno] at hm
    cases hm
  | stacked kstack _ _ hchild _ hmade =>
    cases hmade.symm.trans hm
    exact Or.inr ⟨hchild, kstack, rfl⟩
  | filled _ _ _ hmade hf =>
    cases (made_of_filled hf).symm.trans hm
    exact Or.inl hmade

theorem filled_back (h : KontChange t c l k) (hf : k.filled = some np) :
    (t.kont c).filled = some np ∨
      ((t.kont c).made = some np ∧
        ((∃ pgdir, l = .forkFill c (some pgdir)) ∨ l = .cloneFill c)) := by
  cases h with
  | same => exact Or.inl hf
  | clear _ hno =>
    rw [child_of_made (made_of_filled hf)] at hno
    cases hno
  | taken _ _ _ hno =>
    rw [made_of_filled hf] at hno
    cases hno
  | stacked _ _ _ _ _ _ hno =>
    rw [hno] at hf
    cases hf
  | filled _ _ hl hmade hfill =>
    cases hfill.symm.trans hf
    exact Or.inr ⟨hmade, hl⟩

end KontChange

/-- Nothing but the end of an `allocproc` makes an entry. -/
theorem Effect.made_back (h : Effect t l t') (hm : t'.Made p) :
    t.Made p ∨ t.born l = some p := by
  rcases hm with ha | ⟨c, hc⟩
  · have he := h.entry p
    generalize t'.proc p = pr at he ha
    generalize t'.inTimer p = b at he
    cases he with
    | roused _ _ hr | ticked hr | killed _ hr => exact Or.inl (Or.inl (hr.active_iff.mp ha))
    | slept _ _ _ hs | exited _ _ hs | flagged hs | counted hs | yielded _ hs | faulted hs
    | ran _ _ hs => exact Or.inl (Or.inl (by simp [hs, Active]))
    | aged _ hag => exact Or.inl (Or.inl (hag.state_eq ▸ ha))
    | committed => exact Or.inl (Or.inl ha)
    | booted => exact Or.inr rfl
    | stacked _ _ hc => exact Or.inr hc
    | published c _ _ hc =>
      refine Or.inl (Or.inr ⟨c, ?_⟩)
      rcases hc with hc | hc <;> rw [hc] <;> rfl
    | taken => exact absurd rfl ha.2
    | dropped | reaped => exact absurd rfl ha.1
    | forked _ _ _ hemb | cloned _ _ _ _ hemb => exact absurd hemb ha.2
  · rcases (h.kont c).made_back hc with hmade | ⟨hchild, kstack, rfl⟩
    · exact Or.inl (Or.inr ⟨c, hmade⟩)
    · exact Or.inr hchild

end Table

end Xv6.Process
