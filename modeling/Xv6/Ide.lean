import Xv6.Params
import Xv6.Framework.System
import Xv6.Framework.Linked

/-! # The disk request queue (`ide.c`)

    `iderw` appends a buffer to `idequeue`, starts the disk if the buffer
    is alone there, and sleeps until its flags say that it is done.
    `ideintr` takes the first buffer off, marks it done and starts the disk
    for the next one. Both hold `idelock`, and `iderw` gives it up only in
    `sleep`, so the steps are: the checks of `iderw`, which come before the
    lock is taken, the append, one test of the waiting loop, and one
    interrupt. A sleeping process may test its flags again at any time,
    which covers the `wakeup` of `ideintr` and the one of `kill`.

    A buffer belongs to the process that holds its sleep lock: this process
    may change it while it is not inside `iderw`, and a buffer that nobody
    has locked may be recycled by `bget`.
-/

open LTS Linked Function

namespace Xv6.Ide

variable {P B D : Type}

/-! ### State -/

/-- `struct buf`, as far as the driver uses it and without its lock and its
    links. -/
structure Buf (D : Type) where
  /-- `flags & B_VALID` -/
  valid : Bool
  /-- `flags & B_DIRTY` -/
  dirty : Bool
  dev : Nat
  blockno : Nat
  data : D

/-- `(b->flags & (B_VALID|B_DIRTY)) == B_VALID`. -/
def Buf.done (b : Buf D) : Prop := b.valid = true ∧ b.dirty = false

instance (b : Buf D) : Decidable b.done := inferInstanceAs (Decidable (_ ∧ _))

/-- What `idestart` writes to the registers of the disk. -/
structure Command (D : Type) where
  drive : Nat
  sector : Nat
  /-- the data of a write command -/
  write : Option D

inductive IdePanic where
  /-- `"iderw: buf not locked"` -/
  | notLocked
  /-- `"iderw: nothing to do"` -/
  | nothingToDo
  /-- `"iderw: ide disk 1 not present"` -/
  | noDisk1
  /-- `"incorrect blockno"` -/
  | incorrectBlockno
  deriving DecidableEq

/-- Where a process is. -/
inductive Pc (B : Type) where
  /-- not in `iderw` -/
  | idle
  /-- in `iderw`, at `acquire(&idelock)` -/
  | entering (b : B)
  /-- in the loop of `iderw`; the request was the `k`-th one -/
  | waiting (b : B) (k : Nat)

/-- The driver and its callers. The lists are history: the buffers
    submitted by `iderw`, those the disk was started for, and those that an
    interrupt has completed. -/
structure State (P B D : Type) where
  buf : B → Buf D
  /-- the holders of the sleep locks -/
  lock : B → Option P
  /-- `idequeue` and the `qnext` of all buffers -/
  queue : Queue B
  havedisk1 : Bool
  /-- the last command given to the disk -/
  device : Option (Command D)
  pc : P → Pc B
  panic : Option IdePanic
  submitted : List B
  started : List B
  completed : List B

namespace State

def goto [DecidableEq P] (s : State P B D) (p : P) (pc : Pc B) : State P B D :=
  { s with pc := Function.update s.pc p pc }

def setBuf [DecidableEq B] (s : State P B D) (b : B) (nb : Buf D) : State P B D :=
  { s with buf := Function.update s.buf b nb }

/-! ### `idestart`, `ideintr` and `iderw` -/

/-- The command for a buffer. A block is one sector. -/
def command (b : Buf D) : Command D where
  drive := b.dev % 2
  sector := b.blockno * (BSIZE / 512)
  write := if b.dirty = true then some b.data else none

def idestart (s : State P B D) (b : B) : State P B D :=
  if FSSIZE ≤ (s.buf b).blockno then { s with panic := some .incorrectBlockno }
  else { s with device := some (command (s.buf b)), started := s.started ++ [b] }

/-- Start the disk for the first buffer in the queue, if there is one. -/
def restart (s : State P B D) : State P B D :=
  match s.queue.head with
  | none => s
  | some b => s.idestart b

/-- `ideintr`. `data` is what `insl` reads for a buffer that is not dirty,
    and `none` if `idewait(1)` reports an error. -/
def ideintr [DecidableEq B] (s : State P B D) (data : Option D) : State P B D :=
  match s.queue.head with
  | none => s
  | some b =>
    let nb := s.buf b
    let read := if nb.dirty = true then nb.data else data.getD nb.data
    restart
      { s.setBuf b { nb with data := read, valid := true, dirty := false } with
        queue := { s.queue with head := s.queue.next b }
        completed := s.completed ++ [b] }

/-- The checks of `iderw`. -/
def iderw [DecidableEq P] (s : State P B D) (p : P) (b : B) : State P B D :=
  if s.lock b ≠ some p then { s with panic := some .notLocked }
  else if (s.buf b).done then { s with panic := some .nothingToDo }
  else if (s.buf b).dev ≠ 0 ∧ s.havedisk1 = false then { s with panic := some .noDisk1 }
  else s.goto p (.entering b)

/-- `iderw` from `acquire(&idelock)` to its waiting loop; `none` if the
    search for the end of the queue does not end. -/
def submit [DecidableEq P] [DecidableEq B] [Fintype B] (s : State P B D) (p : P) (b : B) :
    Option (State P B D) :=
  let q := { s.queue with next := Function.update s.queue.next b none }
  match q.findEnd (Fintype.card B + 1) .head with
  | none => none
  | some pp =>
    let s' := { s.goto p (.waiting b s.submitted.length) with
      queue := q.write (some b) pp
      submitted := s.submitted ++ [b] }
    some (if s'.queue.head = some b then s'.idestart b else s')

/-- The test of the waiting loop of `iderw`. -/
def check [DecidableEq P] (s : State P B D) (p : P) (b : B) : State P B D :=
  if (s.buf b).done then s.goto p .idle else s

end State

/-! ### The system -/

inductive Label (P B D : Type) where
  /-- `p` calls `iderw(b)` -/
  | iderw (p : P) (b : B)
  /-- `p` takes `idelock` in `iderw` -/
  | submit (p : P)
  /-- `p` tests its flags -/
  | check (p : P)
  | ideintr (data : Option D)
  /-- `acquiresleep(&b->lock)` returns -/
  | acquire (p : P) (b : B)
  | release (p : P) (b : B)
  /-- `p` changes a buffer it has locked -/
  | modify (p : P) (b : B) (nb : Buf D)
  /-- `bget` recycles a buffer that nobody has locked -/
  | recycle (b : B) (nb : Buf D)

/-- One step. After a panic there are none. -/
inductive Step [DecidableEq P] [DecidableEq B] [Fintype B] (s : State P B D) :
    Label P B D → State P B D → Prop where
  | iderw (p : P) (b : B) : s.panic = none → s.pc p = .idle → Step s (.iderw p b) (s.iderw p b)
  | submit (p : P) (b : B) (s' : State P B D) : s.panic = none → s.pc p = .entering b →
      s.submit p b = some s' → Step s (.submit p) s'
  | check (p : P) (b : B) (k : Nat) : s.panic = none → s.pc p = .waiting b k →
      Step s (.check p) (s.check p b)
  | ideintr (data : Option D) : s.panic = none → Step s (.ideintr data) (s.ideintr data)
  | acquire (p : P) (b : B) : s.panic = none → s.pc p = .idle → s.lock b = none →
      Step s (.acquire p b) { s with lock := Function.update s.lock b (some p) }
  | release (p : P) (b : B) : s.panic = none → s.pc p = .idle → s.lock b = some p →
      Step s (.release p b) { s with lock := Function.update s.lock b none }
  | modify (p : P) (b : B) (nb : Buf D) : s.panic = none → s.pc p = .idle → s.lock b = some p →
      Step s (.modify p b nb) (s.setBuf b nb)
  | recycle (b : B) (nb : Buf D) : s.panic = none → s.lock b = none →
      Step s (.recycle b nb) (s.setBuf b nb)

/-- The driver after `ideinit`, as a labelled transition system. -/
def ideSystem (P B D : Type) [DecidableEq P] [DecidableEq B] [Fintype B] :
    System (State P B D) (Label P B D) where
  init := fun s =>
    (∀ b, s.lock b = none) ∧ s.queue.head = none ∧ (∀ p, s.pc p = .idle) ∧ s.panic = none ∧
    s.submitted = [] ∧ s.started = [] ∧ s.completed = []
  step := Step

/-! ### The invariant -/

/-- `q` is the queue, the part of the requests that is not completed. A
    process that waits holds its buffer, which is done exactly if its
    request has been completed. -/
structure QueueInv (s : State P B D) (q : List B) : Prop where
  list : IsList s.queue q
  nodup : q.Nodup
  fifo : s.submitted = s.completed ++ q
  served : ∀ j b, q[j]? = some b → ∃ p, s.pc p = .waiting b (s.completed.length + j)
  entering : ∀ p b, s.pc p = .entering b → s.lock b = some p ∧ ¬ (s.buf b).done
  waiting : ∀ p b k, s.pc p = .waiting b k → s.lock b = some p ∧ s.submitted[k]? = some b ∧
    ((s.buf b).done ↔ k < s.completed.length)

/-- The disk has been started for the first buffer of the queue, once,
    unless the driver has panicked instead. -/
structure IdeInv (s : State P B D) (q : List B) : Prop extends QueueInv s q where
  started : s.panic = none → s.started = s.completed ++ q.take 1
  device : s.panic = none → ∀ b, q.head? = some b → s.device = some (State.command (s.buf b))

variable {s s' : State P B D} {q : List B} {p : P} {b : B}

/-- No process is inside `iderw` on the buffer. -/
def State.Outside (s : State P B D) (b : B) : Prop := ∀ p, s.lock b = some p → s.pc p = .idle

theorem QueueInv.holder (h : QueueInv s q) (hb : b ∈ q) :
    ∃ p k, s.pc p = .waiting b k ∧ s.lock b = some p := by
  obtain ⟨j, hj⟩ := List.mem_iff_getElem?.mp hb
  obtain ⟨p, hp⟩ := h.served j b hj
  exact ⟨p, _, hp, (h.waiting p b _ hp).1⟩

/-- A buffer outside `iderw` may change its holder. -/
theorem IdeInv.relock [DecidableEq B] (h : IdeInv s q) (hb : s.Outside b) (v : Option P) :
    IdeInv { s with lock := update s.lock b v } q := by
  have hne : ∀ p c pc, s.lock c = some p → s.pc p = pc → pc ≠ .idle → c ≠ b := by
    rintro p c pc hc hp hpc rfl
    exact hpc (hp.symm.trans (hb p hc))
  refine ⟨⟨h.list, h.nodup, h.fifo, h.served, ?_, ?_⟩, h.started, h.device⟩
  · intro p c hp
    obtain ⟨hlock, hdone⟩ := h.entering p c hp
    refine ⟨?_, hdone⟩
    simp only
    rw [update_of_ne (hne p c _ hlock hp (by simp))]
    exact hlock
  · intro p c k hp
    obtain ⟨hlock, hrest⟩ := h.waiting p c k hp
    refine ⟨?_, hrest⟩
    simp only
    rw [update_of_ne (hne p c _ hlock hp (by simp))]
    exact hlock

/-- A buffer outside `iderw` may be changed. -/
theorem IdeInv.setBuf [DecidableEq B] (h : IdeInv s q) (hb : s.Outside b) (nb : Buf D) :
    IdeInv (s.setBuf b nb) q := by
  have hne : ∀ p c pc, s.lock c = some p → s.pc p = pc → pc ≠ .idle →
      (s.setBuf b nb).buf c = s.buf c := by
    intro p c pc hc hp hpc
    refine update_of_ne ?_ _ _
    rintro rfl
    exact hpc (hp.symm.trans (hb p hc))
  refine ⟨⟨h.list, h.nodup, h.fifo, h.served, ?_, ?_⟩, h.started, ?_⟩
  · intro p c hp
    obtain ⟨hlock, hdone⟩ := h.entering p c hp
    rw [hne p c _ hlock hp (by simp)]
    exact ⟨hlock, hdone⟩
  · intro p c k hp
    obtain ⟨hlock, hrest⟩ := h.waiting p c k hp
    rw [hne p c _ hlock hp (by simp)]
    exact ⟨hlock, hrest⟩
  · intro hpanic c hc
    obtain ⟨p, k, hp, hlock⟩ := h.holder (List.mem_of_mem_head? hc)
    rw [hne p c _ hlock hp (by simp)]
    exact h.device hpanic c hc

/-- Who is elsewhere was there before. -/
theorem pc_of_goto [DecidableEq P] {r : P} {x y : Pc B} (hr : (s.goto p x).pc r = y)
    (hne : x ≠ y) : s.pc r = y := by
  have hr' : update s.pc p x r = y := hr
  by_cases hrp : r = p
  · rw [hrp, update_self] at hr'
    exact absurd hr' hne
  · rwa [update_of_ne hrp] at hr'

/-- A process that is not inside `iderw` enters it. -/
theorem IdeInv.enter [DecidableEq P] (h : IdeInv s q) (hp : s.pc p = .idle)
    (hlock : s.lock b = some p) (hdone : ¬ (s.buf b).done) : IdeInv (s.goto p (.entering b)) q := by
  have hpc : ∀ r pc, pc ≠ .idle → s.pc r = pc → (s.goto p (.entering b)).pc r = pc := by
    intro r pc hpc hr
    have hrp : r ≠ p := by
      rintro rfl
      exact hpc (hr.symm.trans hp)
    exact (update_of_ne hrp _ _).trans hr
  refine ⟨⟨h.list, h.nodup, h.fifo, ?_, ?_, ?_⟩, h.started, h.device⟩
  · intro j c hj
    obtain ⟨r, hr⟩ := h.served j c hj
    exact ⟨r, hpc r _ (by simp) hr⟩
  · intro r c hr
    by_cases hrp : r = p
    · rw [hrp] at hr ⊢
      simp only [State.goto, update_self, Pc.entering.injEq] at hr
      rw [← hr]
      exact ⟨hlock, hdone⟩
    · simp only [State.goto, update_of_ne hrp] at hr
      exact h.entering r c hr
  · intro r c k hr
    exact h.waiting r c k (pc_of_goto hr nofun)

/-- A process whose request has been completed returns. -/
theorem IdeInv.leave [DecidableEq P] {k : Nat} (h : IdeInv s q) (hp : s.pc p = .waiting b k)
    (hdone : (s.buf b).done) : IdeInv (s.goto p .idle) q := by
  have hk : k < s.completed.length := (h.waiting p b k hp).2.2.mp hdone
  refine ⟨⟨h.list, h.nodup, h.fifo, ?_, ?_, ?_⟩, h.started, h.device⟩
  · intro j c hj
    obtain ⟨r, hr⟩ := h.served j c hj
    have hrp : r ≠ p := by
      rintro rfl
      rw [hp] at hr
      injection hr with _ hk'
      omega
    exact ⟨r, (update_of_ne hrp _ _).trans hr⟩
  · intro r c hr
    exact h.entering r c (pc_of_goto hr nofun)
  · intro r c k' hr
    exact h.waiting r c k' (pc_of_goto hr nofun)

/-! ### Starting the disk -/

/-- A panic leaves the queue as it is. -/
theorem QueueInv.stop (h : QueueInv s q) (e : IdePanic) : IdeInv { s with panic := some e } q :=
  ⟨⟨h.list, h.nodup, h.fifo, h.served, h.entering, h.waiting⟩, nofun, nofun⟩

/-- `idestart` for the first buffer, when the disk was not started for
    it. -/
theorem QueueInv.idestart (h : QueueInv s q) (hs : s.started = s.completed)
    (hq : q.head? = some b) : IdeInv (s.idestart b) q := by
  unfold State.idestart
  by_cases hno : FSSIZE ≤ (s.buf b).blockno
  · rw [if_pos hno]
    exact h.stop _
  · rw [if_neg hno]
    refine ⟨⟨h.list, h.nodup, h.fifo, h.served, h.entering, h.waiting⟩, ?_, ?_⟩
    · intro _
      have htake : q.take 1 = [b] := by
        rw [List.take_one, hq]
        rfl
      simp only
      rw [hs, htake]
    · intro _ c hc
      rw [hq] at hc
      rw [← Option.some.inj hc]

/-- `restart` for a queue whose first buffer was not started. -/
theorem QueueInv.restart (h : QueueInv s q) (hs : s.started = s.completed) :
    IdeInv s.restart q := by
  unfold State.restart
  rw [h.list.head_eq]
  cases hq : q.head? with
  | none =>
    have hnil : q = [] := List.head?_eq_none_iff.mp hq
    refine ⟨h, ?_, ?_⟩
    · intro _
      rw [hs, hnil]
      simp
    · intro _ b hb
      rw [hq] at hb
      cases hb
  | some b => exact h.idestart hs hq

/-! ### An interrupt -/

/-- An interrupt completes the first request. -/
theorem IdeInv.ideintr [DecidableEq B] (h : IdeInv s q) (hpanic : s.panic = none)
    (data : Option D) : ∃ q', IdeInv (s.ideintr data) q' := by
  unfold State.ideintr
  cases q with
  | nil =>
    have hhead : s.queue.head = none := h.list
    rw [hhead]
    exact ⟨[], h⟩
  | cons b q =>
    have hhead : s.queue.head = some b := h.list.1
    rw [hhead]
    obtain ⟨p, hp⟩ := h.served 0 b rfl
    obtain ⟨hlock, _, _⟩ := h.waiting p b _ hp
    have hb : b ∉ q := (List.nodup_cons.mp h.nodup).1
    refine ⟨q, QueueInv.restart ⟨?_, ?_, ?_, ?_, ?_, ?_⟩ ?_⟩
    · exact h.list.tail
    · exact (List.nodup_cons.mp h.nodup).2
    · simp only
      rw [show (s.setBuf b _).submitted = s.submitted from rfl, h.fifo]
      simp
    · intro j c hj
      obtain ⟨r, hr⟩ := h.served (j + 1) c hj
      refine ⟨r, ?_⟩
      simp only [List.length_append, List.length_singleton]
      rw [Nat.add_assoc, Nat.add_comm 1 j]
      exact hr
    · -- a process that enters holds another buffer
      intro r c hr
      obtain ⟨hl, hdone⟩ := h.entering r c hr
      have hcb : c ≠ b := by
        rintro rfl
        rw [hlock] at hl
        rw [← Option.some.inj hl] at hr
        cases hp.symm.trans hr
      refine ⟨hl, ?_⟩
      simp only [State.setBuf, update_of_ne hcb]
      exact hdone
    · intro r c k hr
      obtain ⟨hl, hsub, hdone⟩ := h.waiting r c k hr
      refine ⟨hl, hsub, ?_⟩
      simp only [List.length_append, List.length_singleton]
      by_cases hcb : c = b
      · -- the holder of the first buffer has the oldest request
        rw [hcb, hlock] at hl
        rw [← Option.some.inj hl] at hr
        injection hp.symm.trans hr with _ hk
        simp only [State.setBuf, hcb, update_self, Buf.done]
        simp only [true_and, true_iff]
        omega
      · simp only [State.setBuf, update_of_ne hcb]
        rw [hdone]
        constructor
        · intro hk
          omega
        · intro hk
          by_contra hge
          have hk' : k = s.completed.length := by omega
          rw [h.fifo, hk', List.getElem?_append_right (Nat.le_refl _)] at hsub
          simp only [Nat.sub_self, List.getElem?_cons_zero, Option.some.injEq] at hsub
          exact hcb hsub.symm
    · exact h.started hpanic

/-! ### A request -/

/-- The search for the end of the queue ends. -/
theorem QueueInv.findEnd [DecidableEq B] [Fintype B] (h : QueueInv s q) (hb : b ∉ q) :
    IsList { s.queue with next := update s.queue.next b none } q ∧
    Queue.findEnd { s.queue with next := update s.queue.next b none }
      (Fintype.card B + 1) .head = some (lastLoc .head q) := by
  have hlist : IsList { s.queue with next := update s.queue.next b none } q := by
    refine Path.congr h.list ?_
    intro a ha
    refine update_of_ne ?_ _ _
    rintro rfl
    exact hb ha
  exact ⟨hlist, hlist.findEnd h.nodup⟩

/-- A buffer that is about to be submitted is not in the queue. -/
theorem QueueInv.not_mem_of_entering (h : QueueInv s q) (hp : s.pc p = .entering b) : b ∉ q := by
  intro hb
  obtain ⟨r, k, hr, hl⟩ := h.holder hb
  rw [(h.entering p b hp).1] at hl
  rw [← Option.some.inj hl, hp] at hr
  cases hr

/-- The request is appended. -/
theorem IdeInv.submit [DecidableEq P] [DecidableEq B] [Fintype B] (h : IdeInv s q)
    (hpanic : s.panic = none) (hp : s.pc p = .entering b) (hst : s.submit p b = some s') :
    IdeInv s' (q ++ [b]) := by
  have hb := h.not_mem_of_entering hp
  obtain ⟨hlist, hend⟩ := h.findEnd hb
  obtain ⟨hlock, hdone⟩ := h.entering p b hp
  have happend := hlist.append h.nodup hb (update_self ..)
  have hlen : s.submitted.length = s.completed.length + q.length := by
    rw [h.fifo, List.length_append]
  unfold State.submit at hst
  simp only [hend, Option.some.injEq] at hst
  -- the queue before the disk is started
  generalize hnew : (Queue.write { s.queue with next := update s.queue.next b none }
    (some b) (lastLoc .head q)) = new at happend hst
  have hqueue : QueueInv { s.goto p (.waiting b s.submitted.length) with
      queue := new, submitted := s.submitted ++ [b] } (q ++ [b]) := by
    refine ⟨happend, ?_, ?_, ?_, ?_, ?_⟩
    · rw [List.nodup_append]
      refine ⟨h.nodup, List.nodup_singleton b, ?_⟩
      intro a ha c hc heq
      rw [List.mem_singleton.mp hc] at heq
      exact hb (heq ▸ ha)
    · simp only
      rw [h.fifo, List.append_assoc]
      rfl
    · intro j c hj
      rw [List.getElem?_append] at hj
      by_cases hjq : j < q.length
      · rw [if_pos hjq] at hj
        obtain ⟨r, hr⟩ := h.served j c hj
        have hrp : r ≠ p := by
          rintro rfl
          rw [hp] at hr
          cases hr
        exact ⟨r, (update_of_ne hrp _ _).trans hr⟩
      · rw [if_neg hjq] at hj
        have hj0 : j - q.length = 0 := by
          by_contra hne
          rw [List.getElem?_eq_none (by simp; omega)] at hj
          cases hj
        rw [hj0] at hj
        simp only [List.getElem?_cons_zero, Option.some.injEq] at hj
        refine ⟨p, ?_⟩
        simp only [State.goto, update_self]
        rw [hj, hlen]
        congr 1
        omega
    · intro r c hr
      exact h.entering r c (pc_of_goto hr nofun)
    · intro r c k hr
      by_cases hrp : r = p
      · rw [hrp] at hr ⊢
        simp only [State.goto, update_self, Pc.waiting.injEq] at hr
        obtain ⟨rfl, rfl⟩ := hr
        refine ⟨hlock, by simp, ?_⟩
        constructor
        · intro hd
          exact absurd hd hdone
        · intro hk
          simp only [State.goto] at hk
          omega
      · simp only [State.goto, update_of_ne hrp] at hr
        obtain ⟨hl, hsub, hd⟩ := h.waiting r c k hr
        refine ⟨hl, ?_, hd⟩
        have hk : k < s.submitted.length := (List.getElem?_eq_some_iff.mp hsub).1
        simp only
        rw [List.getElem?_append_left hk]
        exact hsub
  have hhead := happend.head_eq
  by_cases hq : q = []
  · -- the buffer is alone in the queue: the disk is started for it
    have hone : (q ++ [b]).head? = some b := by rw [hq]; rfl
    rw [if_pos (hhead.trans hone)] at hst
    rw [← hst]
    refine QueueInv.idestart hqueue ?_ hone
    have hstarted := h.started hpanic
    rw [hq, List.take_nil, List.append_nil] at hstarted
    exact hstarted
  · have hsame : (q ++ [b]).head? = q.head? := List.head?_append_of_ne_nil q hq
    rw [hsame] at hhead
    have hother : new.head ≠ some b := by
      rw [hhead]
      intro heq
      exact hb (List.mem_of_mem_head? heq)
    rw [if_neg hother] at hst
    rw [← hst]
    refine ⟨hqueue, ?_, ?_⟩
    · have htake : (q ++ [b]).take 1 = q.take 1 := by
        rw [List.take_one, List.take_one, hsame]
      rw [htake]
      exact h.started
    · rw [hsame]
      exact h.device

/-! ### Every run -/

theorem IdeInv.step [DecidableEq P] [DecidableEq B] [Fintype B] {l : Label P B D}
    (h : IdeInv s q) (hst : Step s l s') : ∃ q', IdeInv s' q' := by
  cases hst with
  | iderw p b _ hp =>
    unfold State.iderw
    by_cases hlock : s.lock b ≠ some p
    · rw [if_pos hlock]
      exact ⟨q, h.stop _⟩
    rw [if_neg hlock]
    by_cases hdone : (s.buf b).done
    · rw [if_pos hdone]
      exact ⟨q, h.stop _⟩
    rw [if_neg hdone]
    by_cases hdev : (s.buf b).dev ≠ 0 ∧ s.havedisk1 = false
    · rw [if_pos hdev]
      exact ⟨q, h.stop _⟩
    rw [if_neg hdev]
    exact ⟨q, h.enter hp (not_not.mp hlock) hdone⟩
  | submit p b _ hpanic hp hs => exact ⟨_, h.submit hpanic hp hs⟩
  | check p b k _ hp =>
    unfold State.check
    by_cases hdone : (s.buf b).done
    · rw [if_pos hdone]
      exact ⟨q, h.leave hp hdone⟩
    · rw [if_neg hdone]
      exact ⟨q, h⟩
  | ideintr data hpanic => exact h.ideintr hpanic data
  | acquire p b _ hp hb =>
    refine ⟨q, h.relock ?_ (some p)⟩
    intro r hr
    rw [hb] at hr
    cases hr
  | release p b _ hp hb =>
    refine ⟨q, h.relock ?_ none⟩
    intro r hr
    rw [hb] at hr
    rw [← Option.some.inj hr]
    exact hp
  | modify p b nb _ hp hb =>
    refine ⟨q, h.setBuf ?_ nb⟩
    intro r hr
    rw [hb] at hr
    rw [← Option.some.inj hr]
    exact hp
  | recycle b nb _ hb =>
    refine ⟨q, h.setBuf ?_ nb⟩
    intro r hr
    rw [hb] at hr
    cases hr

theorem ideInv_reachable [DecidableEq P] [DecidableEq B] [Fintype B]
    (h : Reachable (ideSystem P B D) s) : ∃ q, IdeInv s q := by
  have hinit : ∀ s, (ideSystem P B D).init s → ∃ q, IdeInv s q := by
    rintro s ⟨_, hhead, hpc, _, hsub, hstart, hcomp⟩
    refine ⟨[], ⟨⟨hhead, List.nodup_nil, ?_, ?_, ?_, ?_⟩, ?_, ?_⟩⟩
    · rw [hsub, hcomp]
      rfl
    · intro j b hj
      simp at hj
    · intro p b hp
      rw [hpc p] at hp
      cases hp
    · intro p b k hp
      rw [hpc p] at hp
      cases hp
    · intro _
      rw [hstart, hcomp]
      rfl
    · intro _ b hb
      cases hb
  have hstep : ∀ s l s', (∃ q, IdeInv s q) → (ideSystem P B D).step s l s' →
      ∃ q, IdeInv s' q := by
    rintro s l s' ⟨q, h⟩ hst
    exact h.step hst
  exact Reachable.invariant hinit hstep h

/-! ### The request queue -/

/-- A process waits in `iderw` for the buffer, which is not done. -/
def State.Pending (s : State P B D) (b : B) : Prop :=
  ∃ p k, s.pc p = .waiting b k ∧ ¬ (s.buf b).done

theorem QueueInv.mem_iff_pending (h : QueueInv s q) (b : B) : b ∈ q ↔ s.Pending b := by
  constructor
  · intro hb
    obtain ⟨j, hj⟩ := List.mem_iff_getElem?.mp hb
    obtain ⟨p, hp⟩ := h.served j b hj
    refine ⟨p, _, hp, ?_⟩
    rw [(h.waiting p b _ hp).2.2]
    omega
  · rintro ⟨p, k, hp, hdone⟩
    obtain ⟨_, hsub, hiff⟩ := h.waiting p b k hp
    have hk : s.completed.length ≤ k := by
      rw [hiff] at hdone
      omega
    rw [h.fifo, List.getElem?_append_right hk] at hsub
    exact List.mem_of_getElem? hsub

/-- What is true of the request queue in a state. -/
structure DiskQueue [DecidableEq P] [DecidableEq B] [Fintype B] (s : State P B D) : Prop where
  /-- the links lead through the pending buffers, each one once and in the
      order of submission; the disk has been started for those completed
      and for the first one in the queue, unless that was a panic -/
  queue : ∃ q, IsList s.queue q ∧ q.Nodup ∧ (∀ b, b ∈ q ↔ s.Pending b) ∧
    s.submitted = s.completed ++ q ∧
    (s.panic = none → s.started = s.completed ++ q.take 1 ∧
      ∀ b, q.head? = some b → s.device = some (State.command (s.buf b)))
  /-- the search for the end of the queue ends -/
  submits : ∀ p b, s.pc p = .entering b → (s.submit p b).isSome = true
  /-- an interrupt completes the first request, or finds none -/
  completes : ∀ data, (s.queue.head = none ∧ s.ideintr data = s) ∨
    ∃ b, s.queue.head = some b ∧ (s.ideintr data).completed = s.completed ++ [b]
  /-- nothing else completes a request -/
  only_intr : ∀ l s', Step s l s' → (∀ data, l ≠ .ideintr data) → s'.completed = s.completed
  /-- `iderw` returns when its own request has been completed -/
  returns : ∀ p b k s', s.pc p = .waiting b k → Step s (.check p) s' → s'.pc p = .idle →
    s.submitted[k]? = some b ∧ k < s.completed.length ∧
    (s'.buf b).valid = true ∧ (s'.buf b).dirty = false

theorem completed_idestart (b : B) : (s.idestart b).completed = s.completed := by
  unfold State.idestart
  split <;> rfl

theorem completed_ideintr [DecidableEq B] (data : Option D) (hhead : s.queue.head = some b) :
    (s.ideintr data).completed = s.completed ++ [b] := by
  unfold State.ideintr
  simp only [hhead]
  unfold State.restart
  split
  · rfl
  · exact completed_idestart _

theorem completed_other [DecidableEq P] [DecidableEq B] [Fintype B] {l : Label P B D}
    (h : Step s l s') (hl : ∀ data, l ≠ .ideintr data) : s'.completed = s.completed := by
  cases h with
  | iderw p b =>
    unfold State.iderw
    split_ifs <;> rfl
  | submit p b _ _ _ hs =>
    unfold State.submit at hs
    dsimp only at hs
    split at hs
    · cases hs
    · rw [← Option.some.inj hs]
      split_ifs
      · exact completed_idestart _
      · rfl
  | check p b k =>
    unfold State.check
    split_ifs <;> rfl
  | ideintr data => exact absurd rfl (hl data)
  | acquire p b => rfl
  | release p b => rfl
  | modify p b nb => rfl
  | recycle b nb => rfl

/-- **The disk request queue**, in every interleaving of calls of `iderw`
    and interrupts. -/
theorem disk_request_queue [DecidableEq P] [DecidableEq B] [Fintype B]
    (h : Reachable (ideSystem P B D) s) : DiskQueue s := by
  obtain ⟨q, hinv⟩ := ideInv_reachable h
  refine ⟨⟨q, hinv.list, hinv.nodup, hinv.mem_iff_pending, hinv.fifo,
    fun hpanic => ⟨hinv.started hpanic, hinv.device hpanic⟩⟩, ?_, ?_,
    fun l s' hst hl => completed_other hst hl, ?_⟩
  · intro p b hp
    obtain ⟨_, hend⟩ := hinv.findEnd (hinv.not_mem_of_entering hp)
    unfold State.submit
    simp only [hend]
    rfl
  · intro data
    cases hhead : s.queue.head with
    | none =>
      refine Or.inl ⟨rfl, ?_⟩
      unfold State.ideintr
      rw [hhead]
    | some b => exact Or.inr ⟨b, rfl, completed_ideintr data hhead⟩
  · intro p b k s' hp hst hidle
    cases hst with
    | check _ c k' _ hp' =>
      rw [hp] at hp'
      injection hp' with hb hk
      subst hb hk
      unfold State.check at hidle ⊢
      by_cases hdone : (s.buf b).done
      · obtain ⟨_, hsub, hiff⟩ := hinv.waiting p b k hp
        rw [if_pos hdone]
        exact ⟨hsub, hiff.mp hdone, hdone⟩
      · rw [if_neg hdone, hp] at hidle
        cases hidle

/-! ### Two requests -/

/-- Two processes that hold one buffer each. -/
def twoLocked : State (Fin 2) (Fin 2) Nat where
  buf := fun b => { valid := false, dirty := false, dev := 0, blockno := b, data := 0 }
  lock := Function.update (Function.update (fun _ => none) 0 (some 0)) 1 (some 1)
  queue := { head := none, next := fun _ => none }
  havedisk1 := false
  device := none
  pc := fun _ => .idle
  panic := none
  submitted := []
  started := []
  completed := []

/-- Both call `iderw`, and there is an interrupt. -/
def oneCompleted : State (Fin 2) (Fin 2) Nat :=
  let s := twoLocked.iderw 0 0
  let s := (s.submit 0 0).getD s
  let s := s.iderw 1 1
  let s := (s.submit 1 1).getD s
  s.ideintr (some 7)

theorem reachable_oneCompleted : Reachable (ideSystem (Fin 2) (Fin 2) Nat) oneCompleted := by
  have next : ∀ {s s' : State (Fin 2) (Fin 2) Nat} {l : Label (Fin 2) (Fin 2) Nat},
      Reachable (ideSystem (Fin 2) (Fin 2) Nat) s → Step s l s' →
      Reachable (ideSystem (Fin 2) (Fin 2) Nat) s' := fun h hst => .step _ h hst
  have h0 : Reachable (ideSystem (Fin 2) (Fin 2) Nat)
      { twoLocked with lock := fun _ => none } :=
    .init ⟨fun _ => rfl, rfl, fun _ => rfl, rfl, rfl, rfl, rfl⟩
  have h2 : Reachable (ideSystem (Fin 2) (Fin 2) Nat) twoLocked :=
    next (next h0 (.acquire 0 0 rfl rfl rfl)) (.acquire 1 1 rfl rfl rfl)
  have h3 := next h2 (.iderw 0 0 rfl rfl)
  have h4 : Reachable (ideSystem (Fin 2) (Fin 2) Nat)
      (((twoLocked.iderw 0 0).submit 0 0).getD (twoLocked.iderw 0 0)) :=
    next h3 (.submit 0 0 _ rfl rfl rfl)
  have h5 := next h4 (.iderw 1 1 rfl rfl)
  have h6 : Reachable (ideSystem (Fin 2) (Fin 2) Nat)
      ((((((twoLocked.iderw 0 0).submit 0 0).getD (twoLocked.iderw 0 0)).iderw 1 1).submit 1 1).getD
        ((((twoLocked.iderw 0 0).submit 0 0).getD (twoLocked.iderw 0 0)).iderw 1 1)) :=
    next h5 (.submit 1 1 _ rfl rfl rfl)
  exact next h6 (.ideintr (some 7) rfl)

/-- The first request is completed and the disk has been started for the
    second one. -/
theorem disk_request_queue_oneCompleted :
    DiskQueue oneCompleted ∧ oneCompleted.completed = [0] ∧ oneCompleted.started = [0, 1] :=
  ⟨disk_request_queue reachable_oneCompleted, by decide, by decide⟩

end Xv6.Ide
