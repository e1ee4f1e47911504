import Xv6.Proc.Mlfq

/-! # Process and Thread Identifiers

    `allocproc` gives an entry a pid and a tgid from two counters. `fork` keeps
    both; `clone` overwrites the tgid with its caller's. `getpid` returns the
    tgid.

    - `origin`: whether the process in an entry was created by `fork` or by
      `clone`, and by whose clones, read off the run
    - `IdInv`: the identifiers of every entry in use are those of its origin
    - `identifiers`: the two numbers in every run
-/

namespace Xv6.Process

open LTS Function

/-- How the process in an entry came to be. -/
inductive Origin where
  /-- By `userinit` or `fork`, with this pid. -/
  | process (pid : Nat)
  /-- By a `clone` that has yet to fill in the entry. -/
  | cloning
  /-- By `clone`, the first one in a chain of them being called by the process with
      pid `root`. -/
  | thread (root : Nat)

/-- The pid of the process at the root of the clones. -/
def Origin.root : Origin → Nat
  | .process pid => pid
  | .cloning => 0
  | .thread root => root

/-- What a call in progress knows of the entry that it sets up. -/
def Kont.Knows (o : PIdx → Origin) : Kont → Prop
  | .forkAlloc np | .forkCopy np | .forkPublish np => ∃ pid, o np = .process pid
  | .clonePublish np => ∃ root, o np = .thread root
  | _ => True

namespace Table

def sys_getpid (t : Table) (p : PIdx) : Nat := (t.proc p).tgid

/-- The origins after the step `l` from `t`. -/
def nextOrigin (t : Table) (l : Label) (o : PIdx → Origin) : PIdx → Origin :=
  match l with
  | .userinit p _ _ | .fork _ p => Function.update o p (.process t.nextpid)
  | .clone _ p _ => Function.update o p .cloning
  | .cloneFill c =>
    match t.kont c with
    | .cloneFill np _ => Function.update o np (.thread (o c).root)
    | _ => o
  | _ => o

/-- The origins after a run. -/
def origin (tr : List (Table × Label)) : PIdx → Origin :=
  tr.foldl (fun o s => s.1.nextOrigin s.2 o) (fun _ => .cloning)

/-- The identifiers that a process of this origin has. -/
def Identified (pr : Proc) : Origin → Prop
  | .process pid => pr.pid = pid ∧ pr.tgid = pid
  | .cloning => pr.state = .EMBRYO
  | .thread root => pr.tgid = root

structure IdInv (t : Table) (o : PIdx → Origin) : Prop where
  counters : t.nexttgid = t.nextpid
  entry : ∀ p, (t.proc p).state ≠ .UNUSED → Identified (t.proc p) (o p)
  calls : ∀ c, (t.kont c).Knows o

variable {t t' : Table} {o : PIdx → Origin} {p : PIdx} {l : Label} {pr pr' : Proc} {r : Origin}
  {k : Kont}

/-! ### Entries -/

theorem Identified.keep (h : Identified pr r) (hpid : pr'.pid = pr.pid) (htgid : pr'.tgid = pr.tgid)
    (hst : pr.state = .EMBRYO → pr'.state = .EMBRYO) : Identified pr' r := by
  cases r with
  | process pid => exact ⟨hpid.trans h.1, htgid.trans h.2⟩
  | cloning => exact hst h
  | thread root => exact htgid.trans h

theorem Identified.roused (h : Identified pr r) (hr : Roused pr pr') : Identified pr' r := by
  cases hr with
  | same => exact h.keep rfl rfl id
  | woken _ _ _ hs => exact h.keep rfl rfl (fun he => by simp [hs] at he)

theorem Roused.used (h : Roused pr pr') (hu : pr'.state ≠ .UNUSED) : pr.state ≠ .UNUSED := by
  cases h with
  | same => exact hu
  | woken _ _ _ hs => simp [hs]

/-- Outside `allocproc`, the entry of a thread has its caller's tgid. -/
theorem Identified.tgid_eq (h : Identified pr r) (hs : pr.state ≠ .EMBRYO) : pr.tgid = r.root := by
  cases r with
  | process pid => exact h.2
  | cloning => exact absurd h hs
  | thread root => exact h

theorem nextOrigin_of_ne (hb : t.subject l ≠ some p) : t.nextOrigin l o p = o p := by
  unfold nextOrigin
  split
  · exact update_of_ne (fun heq => hb (by rw [heq]; rfl)) _ _
  · exact update_of_ne (fun heq => hb (by rw [heq]; rfl)) _ _
  · exact update_of_ne (fun heq => hb (by rw [heq]; rfl)) _ _
  · next c =>
    generalize hk : t.kont c = k
    cases k with
    | cloneFill np args =>
      refine update_of_ne (fun heq => hb ?_) _ _
      rw [subject, hk, heq]
      rfl
    | _ => rfl
  · rfl

theorem IdInv.entry_step (h : IdInv t o) (he : Effect t l t')
    (hu : (t'.proc p).state ≠ .UNUSED) : Identified (t'.proc p) (t.nextOrigin l o p) := by
  have hp := he.entry p
  generalize t'.proc p = pr at hp hu
  generalize t'.inTimer p = b at hp
  cases hp with
  | roused _ hb hr =>
    rw [nextOrigin_of_ne hb]
    exact (h.entry p (hr.used hu)).roused hr
  | ticked hr => exact ((h.entry p (hr.used hu)).roused hr).keep rfl rfl id
  | killed _ hr =>
    have hid : Identified { t.proc p with killed := true } (o p) :=
      (h.entry p (hr.used hu)).keep rfl rfl id
    exact hid.roused hr
  | slept _ _ hb hs =>
    rw [nextOrigin_of_ne hb]
    exact (h.entry p (by simp [hs])).keep rfl rfl (fun he => by simp [hs] at he)
  | exited _ _ hs | yielded _ hs =>
    exact (h.entry p (by simp [hs])).keep rfl rfl (fun he => by simp [hs] at he)
  | flagged hs | counted hs | faulted hs => exact (h.entry p (by simp [hs])).keep rfl rfl id
  | aged _ hag =>
    rcases hag with rfl | ⟨hs, _, _, rfl⟩
    · exact h.entry p hu
    · exact (h.entry p hu).keep rfl rfl id
  | ran _ hag hs =>
    rcases hag with rfl | ⟨_, _, _, rfl⟩
    · exact (h.entry p (by simp [hs])).keep rfl rfl (fun he => by simp [hs] at he)
    · exact (h.entry p (by simp [hs])).keep rfl rfl (fun he => by simp [hs] at he)
  | booted =>
    rw [nextOrigin, update_self]
    exact ⟨rfl, h.counters⟩
  | taken c hl =>
    rcases hl with rfl | ⟨_, rfl⟩
    · rw [nextOrigin, update_self]
      exact ⟨rfl, h.counters⟩
    · rw [nextOrigin, update_self]
      rfl
  | stacked _ _ _ _ hemb => exact (h.entry p (by simp [hemb])).keep rfl rfl id
  | dropped | reaped => exact absurd rfl hu
  | forked _ _ _ hemb => exact (h.entry p (by simp [hemb])).keep rfl rfl id
  | cloned c args hc hs =>
    have hroot := (h.entry c (by simp [hs])).tgid_eq (by simp [hs])
    rw [nextOrigin, hc]
    simp only [update_self]
    exact hroot
  | published c _ _ hc hemb =>
    have hid := h.entry p (by simp [hemb])
    have hmade : o p ≠ .cloning := by
      have hk := h.calls c
      rcases hc with hc | hc
      · rw [hc] at hk
        obtain ⟨pid, hpid⟩ := hk
        simp [hpid]
      · rw [hc] at hk
        obtain ⟨root, hroot⟩ := hk
        simp [hroot]
    show Identified _ (o p)
    generalize o p = r at hid hmade
    cases r with
    | process pid => exact hid
    | cloning => exact absurd rfl hmade
    | thread root => exact hid
  | committed => exact (h.entry p hu).keep rfl rfl id

/-! ### Calls in progress -/

/-- A step that sets up no entry starts no call that does. -/
theorem Effect.kont_eq {c np : PIdx} (he : Effect t l t') (hb : t.subject l = none)
    (hc : (t'.kont c).child = some np) : t'.kont c = t.kont c := by
  have hk := he.kont c
  generalize t'.kont c = k at hk hc
  cases hk with
  | same => rfl
  | clear _ hno =>
    rw [hno] at hc
    cases hc
  | taken _ _ _ _ _ hl => rcases hl with rfl | ⟨_, rfl⟩ <;> cases hb
  | stacked _ _ _ hchild => simp [subject, hchild] at hb
  | filled _ _ hl hmade =>
    rcases hl with ⟨_, rfl⟩ | rfl <;> simp [subject, child_of_made hmade] at hb

theorem nextOrigin_of_none (hb : t.subject l = none) : t.nextOrigin l o = o :=
  funext (fun p => nextOrigin_of_ne (by simp [hb]))

theorem knows_of_child (hk : k.child = none) : k.Knows o := by
  cases k <;> trivial

theorem knows_congr {o' : PIdx → Origin} (h : k.Knows o)
    (ho : ∀ np, k.child = some np → o' np = o np) : k.Knows o' := by
  cases k with
  | forkAlloc np | forkCopy np | forkPublish np | clonePublish np =>
    show ∃ _, o' np = _
    rw [ho np rfl]
    exact h
  | _ => trivial

/-- One process goes on inside its call. -/
theorem IdInv.goto {o' : PIdx → Origin} {u : Table} {d : PIdx} (h : IdInv t o)
    (hu : u.kont = t.kont) (ho : ∀ c np, c ≠ d → (t.kont c).child = some np → o' np = o np)
    (hk : k.Knows o') (c : PIdx) : ((u.goto d k).kont c).Knows o' := by
  by_cases hcd : c = d
  · rw [hcd, show (u.goto d k).kont d = k from update_self _ _ _]
    exact hk
  · rw [show (u.goto d k).kont c = u.kont c from update_of_ne hcd _ _, hu]
    exact knows_congr (h.calls c) (ho c · hcd)

theorem IdInv.calls_step (h : IdInv t o) (ht : TableInv t) (hst : t.Step l t') (c : PIdx) :
    (t'.kont c).Knows (t.nextOrigin l o) := by
  -- an entry that is being set up is not the free one that the step takes
  have hfree : ∀ {q}, t.findUnused = some q → t.subject l = some q → ∀ c np,
      (t.kont c).child = some np → t.nextOrigin l o np = o np := by
    intro q hq hl c np hc
    refine nextOrigin_of_ne (fun heq => ?_)
    rw [hl, Option.some.injEq] at heq
    have hemb := ht.ctl.embryo c np hc
    rw [← heq, TableInv.unused_of_find hq] at hemb
    cases hemb
  have hother (hb : t.subject l = none) : (t'.kont c).Knows (t.nextOrigin l o) := by
    rw [nextOrigin_of_none hb]
    cases hc : (t'.kont c).child with
    | none => exact knows_of_child hc
    | some np =>
      rw [(Step.effect ht hst).kont_eq hb hc]
      exact h.calls c
  cases l with
  | userinit q kstack pgdir =>
    obtain ⟨_, hq, rfl⟩ := hst
    have hkont : (t.userinit q kstack pgdir).kont = t.kont := (queueFrame_add _ _ _).kont
    rw [hkont]
    exact knows_congr (h.calls c) (hfree hq rfl c)
  | fork d np =>
    obtain ⟨_, hq, rfl⟩ := hst
    refine h.goto rfl (fun c np _ => hfree hq rfl c np) ?_ c
    exact ⟨t.nextpid, update_self _ _ _⟩
  | clone d np args =>
    obtain ⟨_, hq, rfl⟩ := hst
    refine h.goto rfl (fun c np _ => hfree hq rfl c np) ?_ c
    trivial
  | allocproc d kstack =>
    obtain ⟨_, ⟨np, hd, rfl⟩ | ⟨np, args, hd, rfl⟩⟩ := hst
    · have hk := h.calls d
      rw [hd] at hk
      refine h.goto (by unfold initEntry; cases kstack <;> rfl) (fun _ _ _ _ => rfl) ?_ c
      cases kstack with
      | none => trivial
      | some ks => exact hk
    · refine h.goto (by unfold initEntry; cases kstack <;> rfl) (fun _ _ _ _ => rfl) ?_ c
      cases kstack <;> trivial
  | forkFill d pgdir =>
    obtain ⟨_, np, hd, rfl⟩ := hst
    have hk := h.calls d
    rw [hd] at hk
    refine h.goto (by unfold forkFill; cases pgdir <;> rfl) (fun _ _ _ _ => rfl) ?_ c
    cases pgdir with
    | none => trivial
    | some pg => exact hk
  | cloneFill d =>
    obtain ⟨_, np, args, hd, rfl⟩ := hst
    refine h.goto rfl (fun c' np' hne hc' => ?_) ?_ c
    · exact nextOrigin_of_ne (fun heq => hne (ht.ctl.embryo_inj c' d np' hc' heq))
    · refine ⟨(o d).root, ?_⟩
      rw [nextOrigin, hd]
      exact update_self _ _ _
  | publish d =>
    obtain ⟨_, np, _, rfl⟩ := hst
    have hkont : (t.publish np).kont = t.kont := (queueFrame_add _ _ _).kont
    refine h.goto hkont (fun _ _ _ _ => rfl) ?_ c
    trivial
  | _ => exact hother rfl

theorem idInv_boot : IdInv boot (fun _ => .cloning) where
  counters := rfl
  entry := fun _ hu => absurd rfl hu
  calls := fun _ => trivial

theorem idInv_trace {tr : List (Table × Label)} (h : Trace tableSystem boot tr t) :
    IdInv t (origin tr) := by
  induction h with
  | nil => exact idInv_boot
  | @snoc s s' tr l hrun hst ih =>
    have ht := tableInv_reachable (hrun.reachable rfl)
    have he := Step.effect ht hst
    unfold origin
    rw [List.foldl_append]
    exact ⟨he.ids ih.counters, fun p hu => ih.entry_step he hu, ih.calls_step ht hst⟩

/-! ### In every run -/

/-- **Identifiers.** Entries in use have different pids. A process created by
    `userinit` or `fork` gets its own pid from `getpid`, which is what the `fork`
    returns; a thread gets the pid of the process at the root of its clones. -/
theorem identifiers {t : Table} {tr : List (Table × Label)} (h : Trace tableSystem boot tr t) :
    (∀ p q, (t.proc p).state ≠ .UNUSED → (t.proc q).state ≠ .UNUSED →
      (t.proc p).pid = (t.proc q).pid → p = q) ∧
    (∀ p, Active (t.proc p).state → t.sys_getpid p = (origin tr p).root ∧ origin tr p ≠ .cloning ∧
      ∀ pid, origin tr p = .process pid → (t.proc p).pid = pid) ∧
    ∀ c np, t.kont c = .forkPublish np → origin tr np = .process (t.proc np).pid := by
  have hid := idInv_trace h
  have ht := tableInv_reachable (h.reachable rfl)
  refine ⟨fun p q hp _ heq => ht.queues.pid_inj p q heq (ht.queues.pid_pos p hp), ?_, ?_⟩
  · intro p ha
    have hp := hid.entry p ha.1
    refine ⟨hp.tgid_eq ha.2, fun hcl => ?_, fun pid hpid => ?_⟩
    · rw [hcl] at hp
      exact ha.2 hp
    · rw [hpid] at hp
      exact hp.1
  · intro c np hc
    have hk := hid.calls c
    rw [hc] at hk
    obtain ⟨pid, hpid⟩ := hk
    have hp := hid.entry np (by simp [ht.ctl.embryo c np (by rw [hc]; rfl)])
    rw [hpid] at hp ⊢
    rw [hp.1]

/-- The first process gets 1. -/
theorem identifiers_userinit : (boot.userinit 0 1 2).sys_getpid 0 = 1 := by
  have hst : tableSystem.step boot (.userinit 0 1 2) (boot.userinit 0 1 2) := ⟨rfl, rfl, rfl⟩
  have h := Trace.snoc _ (.nil boot) hst
  have hr : ((boot.userinit 0 1 2).proc 0).state = .RUNNABLE := by decide
  exact ((identifiers h).2.1 0 (by simp [hr, Active])).1

end Table

end Xv6.Process
