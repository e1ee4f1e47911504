import Xv6.Params
import Xv6.Framework.System
import Xv6.Framework.Places

/-! # Operations on the Log

    `begin_op`, `log_write` and `end_op` as any number of processes call
    them, and the `commit` that the last operation to end runs without
    `log.lock`.

    A step is one critical section of `log.lock` or one unlocked access.
    The two checks of `log_write` are made before it takes the lock, so they
    are steps of their own. A panic stops the machine.

    The ghost fields number the operations and the commits: `logged` lists
    every `log_write` with its operation and the number of commits before
    it, `wrote` every block `write_log` has written.
-/

open LTS Function

namespace Xv6.LogOps

/-! ### State -/

/-- Where a `commit` is. -/
inductive Phase where
  | start
  /-- in the loop of `write_log` -/
  | writeLog (tail : Nat)
  /-- before the first `write_head` -/
  | writeHead
  /-- in the loop of `install_trans` -/
  | install (tail : Nat)
  /-- before `log.lh.n = 0` -/
  | clear
  /-- before the second `write_head` -/
  | clearHead
  /-- back in `end_op` -/
  | finish
  deriving DecidableEq

/-- Where a process is. -/
inductive Pc where
  | idle
  /-- in the loop of `begin_op`, asleep or about to test -/
  | beginOp (asleep : Bool)
  /-- between `begin_op` and `end_op` -/
  | inOp
  /-- in `log_write`, past the check of the size -/
  | sized (b : Nat)
  /-- in `log_write`, past both checks -/
  | checked (b : Nat)
  /-- in `end_op`, running `commit` -/
  | commit (ph : Phase)
  deriving DecidableEq

/-- Between the end of `begin_op` and the decrement in `end_op`. -/
def Pc.isOp : Pc → Bool
  | .inOp | .sized _ | .checked _ => true
  | _ => false

/-- Running `commit`. -/
def Pc.isCommit : Pc → Bool
  | .commit _ => true
  | _ => false

/-- The panics of `log.c`. -/
inductive LogPanic where
  /-- `"too big a transaction"` -/
  | tooBig
  /-- `"log_write outside of trans"` -/
  | outsideTrans
  /-- `"log.committing"` -/
  | logCommitting
  deriving DecidableEq

/-- A `log_write`: the operation, the commits before it, the block. -/
structure Entry where
  op : Nat
  epoch : Nat
  block : Nat
  deriving DecidableEq

/-- A block write of `write_log`: the commit, the log slot, the block. -/
structure SlotWrite where
  epoch : Nat
  slot : Nat
  block : Nat
  deriving DecidableEq

structure State (P : Type) where
  /-- `log.lh.block[0 .. log.lh.n)` -/
  lh : List Nat
  outstanding : Int
  committing : Bool
  pc : P → Pc
  panic : Option LogPanic
  /-- the operation each process is in, or was in last -/
  op : P → Nat
  nextOp : Nat
  /-- commits that have ended -/
  epoch : Nat
  logged : List Entry
  wrote : List SlotWrite

variable {P : Type} [DecidableEq P] {ph : Phase}

namespace State

def goto (s : State P) (p : P) (pc : Pc) : State P :=
  { s with pc := Function.update s.pc p pc }

/-- `wakeup(&log)`. -/
def wakeup (s : State P) : State P :=
  { s with pc := fun p => if s.pc p = .beginOp true then .beginOp false else s.pc p }

/-- One round of the loop of `begin_op`. -/
def begin_op (s : State P) (p : P) : State P :=
  if s.committing then s.goto p (.beginOp true)
  else if LOGSIZE < s.lh.length + (s.outstanding + 1) * MAXOPBLOCKS then s.goto p (.beginOp true)
  else
    { s.goto p .inOp with
      outstanding := s.outstanding + 1
      op := Function.update s.op p s.nextOp
      nextOp := s.nextOp + 1 }

/-- `log_write`: the first check, with `log.size = size`. -/
def checkSize (s : State P) (size : Nat) (p : P) (b : Nat) : State P :=
  if LOGSIZE ≤ s.lh.length ∨ size ≤ s.lh.length + 1 then { s with panic := some .tooBig }
  else s.goto p (.sized b)

/-- `log_write`: the second check. -/
def checkTrans (s : State P) (p : P) (b : Nat) : State P :=
  if s.outstanding < 1 then { s with panic := some .outsideTrans }
  else s.goto p (.checked b)

/-- `log_write`: the critical section. -/
def append (s : State P) (p : P) (b : Nat) : State P :=
  { s.goto p .inOp with
    lh := if b ∈ s.lh then s.lh else s.lh ++ [b]
    logged := s.logged ++ [⟨s.op p, s.epoch, b⟩] }

/-- `end_op`: the first critical section. -/
def end_op (s : State P) (p : P) : State P :=
  let s := { s with outstanding := s.outstanding - 1 }
  if s.committing then { s with panic := some .logCommitting }
  else if s.outstanding = 0 then { s.goto p (.commit .start) with committing := true }
  else s.wakeup.goto p .idle

/-- One step of `commit`. -/
def commit (s : State P) (start : Nat) (p : P) : Phase → State P
  | .start => s.goto p (.commit (if s.lh = [] then .finish else .writeLog 0))
  | .writeLog tail =>
    if tail < s.lh.length then
      { s.goto p (.commit (.writeLog (tail + 1))) with
        wrote := s.wrote ++ [⟨s.epoch, start + tail + 1, s.lh.getD tail 0⟩] }
    else s.goto p (.commit .writeHead)
  | .writeHead => s.goto p (.commit (.install 0))
  | .install tail =>
    s.goto p (.commit (if tail < s.lh.length then .install (tail + 1) else .clear))
  | .clear => { s.goto p (.commit .clearHead) with lh := [] }
  | .clearHead => s.goto p (.commit .finish)
  | .finish => s

/-- `end_op`: the second critical section. -/
def endCommit (s : State P) (p : P) : State P :=
  { s.wakeup.goto p .idle with
    committing := false
    epoch := s.epoch + 1 }

end State

/-! ### Steps -/

inductive Label (P : Type) where
  /-- a round of `begin_op`'s loop -/
  | begin_op (p : P)
  /-- a sleeper is made `RUNNABLE` by `kill` -/
  | rouse (p : P)
  /-- `log_write(b)` is called -/
  | log_write (p : P) (b : Nat)
  | checkTrans (p : P)
  | append (p : P)
  | end_op (p : P)
  | commit (p : P)
  | endCommit (p : P)
  deriving DecidableEq

/-- The step a label stands for, if it can be taken. -/
def next (start size : Nat) (s : State P) (l : Label P) : Option (State P) :=
  if s.panic.isSome then none
  else
    match l with
    | .begin_op p =>
      match s.pc p with
      | .idle | .beginOp false => some (s.begin_op p)
      | _ => none
    | .rouse p =>
      match s.pc p with
      | .beginOp true => some (s.goto p (.beginOp false))
      | _ => none
    | .log_write p b =>
      match s.pc p with
      | .inOp => some (s.checkSize size p b)
      | _ => none
    | .checkTrans p =>
      match s.pc p with
      | .sized b => some (s.checkTrans p b)
      | _ => none
    | .append p =>
      match s.pc p with
      | .checked b => some (s.append p b)
      | _ => none
    | .end_op p =>
      match s.pc p with
      | .inOp => some (s.end_op p)
      | _ => none
    | .commit p =>
      match s.pc p with
      | .commit .finish => none
      | .commit ph => some (s.commit start p ph)
      | _ => none
    | .endCommit p =>
      match s.pc p with
      | .commit .finish => some (s.endCommit p)
      | _ => none

/-- After `initlog`. -/
def boot (P : Type) : State P where
  lh := []
  outstanding := 0
  committing := false
  pc := fun _ => .idle
  panic := none
  op := fun _ => 0
  nextOp := 0
  epoch := 0
  logged := []
  wrote := []

/-- The log, with its area at `[start, start + size)`. -/
def logOps (P : Type) [DecidableEq P] (start size : Nat) : System (State P) (Label P) where
  init := fun s => s = boot P
  step := fun s l s' => next start size s l = some s'

variable {s s' : State P} {l : Label P} {start size : Nat}

/-- What a step can be. -/
inductive Move (start size : Nat) (s : State P) : Label P → State P → Prop where
  | begin_op (p : P) (hp : s.pc p = .idle ∨ s.pc p = .beginOp false) :
      Move start size s (.begin_op p) (s.begin_op p)
  | rouse (p : P) (hp : s.pc p = .beginOp true) :
      Move start size s (.rouse p) (s.goto p (.beginOp false))
  | log_write (p : P) (b : Nat) (hp : s.pc p = .inOp) :
      Move start size s (.log_write p b) (s.checkSize size p b)
  | checkTrans (p : P) (b : Nat) (hp : s.pc p = .sized b) :
      Move start size s (.checkTrans p) (s.checkTrans p b)
  | append (p : P) (b : Nat) (hp : s.pc p = .checked b) :
      Move start size s (.append p) (s.append p b)
  | end_op (p : P) (hp : s.pc p = .inOp) : Move start size s (.end_op p) (s.end_op p)
  | commit (p : P) (ph : Phase) (hp : s.pc p = .commit ph) (hne : ph ≠ .finish) :
      Move start size s (.commit p) (s.commit start p ph)
  | endCommit (p : P) (hp : s.pc p = .commit .finish) :
      Move start size s (.endCommit p) (s.endCommit p)

theorem move_of_next (h : next start size s l = some s') : Move start size s l s' := by
  unfold next at h
  split at h
  · cases h
  · split at h
    · next p =>
      split at h
      · next hp => exact Option.some.inj h ▸ .begin_op p (Or.inl hp)
      · next hp => exact Option.some.inj h ▸ .begin_op p (Or.inr hp)
      · cases h
    · next p =>
      split at h
      · next hp => exact Option.some.inj h ▸ .rouse p hp
      · cases h
    · next p b =>
      split at h
      · next hp => exact Option.some.inj h ▸ .log_write p b hp
      · cases h
    · next p =>
      split at h
      · next b hp => exact Option.some.inj h ▸ .checkTrans p b hp
      · cases h
    · next p =>
      split at h
      · next b hp => exact Option.some.inj h ▸ .append p b hp
      · cases h
    · next p =>
      split at h
      · next hp => exact Option.some.inj h ▸ .end_op p hp
      · cases h
    · next p =>
      split at h
      · cases h
      · next ph hne hp => exact Option.some.inj h ▸ .commit p ph hp hne
      · cases h
    · next p =>
      split at h
      · next hp => exact Option.some.inj h ▸ .endCommit p hp
      · cases h

@[simp] theorem pc_goto_self (s : State P) (p : P) (pc : Pc) : (s.goto p pc).pc p = pc := by
  simp [State.goto]

@[simp] theorem pc_goto_of_ne (s : State P) {p q : P} (h : q ≠ p) (pc : Pc) :
    (s.goto p pc).pc q = s.pc q := by
  simp [State.goto, h]

/-! ### Waking up -/

section

omit [DecidableEq P]

theorem isOp_wakeup (s : State P) (p : P) : (s.wakeup.pc p).isOp = (s.pc p).isOp := by
  simp only [State.wakeup]
  split
  · next h => rw [h]; rfl
  · rfl

theorem isCommit_wakeup (s : State P) (p : P) :
    (s.wakeup.pc p).isCommit = (s.pc p).isCommit := by
  simp only [State.wakeup]
  split
  · next h => rw [h]; rfl
  · rfl

end

/-! ### The invariant of the protocol -/

/-- Block `b` has been logged since the last commit. -/
def InGroup (s : State P) (b : Nat) : Prop := ∃ e ∈ s.logged, e.epoch = s.epoch ∧ e.block = b

/-- The commit in progress has written block `b` to the log. -/
def Written (s : State P) (b : Nat) : Prop := ∃ w ∈ s.wrote, w.epoch = s.epoch ∧ w.block = b

/-- What `log.lh` and the log hold in each phase of a commit. `start` is also
    the state outside a commit. -/
def PhaseInv (s : State P) : Phase → Prop
  | .start => (∀ b, b ∈ s.lh ↔ InGroup s b) ∧ ∀ b, ¬ Written s b
  | .writeLog t => (∀ b, b ∈ s.lh ↔ InGroup s b) ∧ ∀ b, Written s b ↔ b ∈ s.lh.take t
  | .writeHead | .install _ | .clear =>
      (∀ b, b ∈ s.lh ↔ InGroup s b) ∧ ∀ b, Written s b ↔ b ∈ s.lh
  | .clearHead | .finish => s.lh = [] ∧ ∀ b, Written s b ↔ InGroup s b

omit [DecidableEq P] in
/-- A commit writes blocks of its own group. -/
theorem inGroup_of_written {b : Nat} (h : PhaseInv s ph) (hw : Written s b) : InGroup s b := by
  cases ph with
  | start => exact absurd hw (h.2 b)
  | writeLog t => exact (h.1 b).mp (List.mem_of_mem_take ((h.2 b).mp hw))
  | writeHead => exact (h.1 b).mp ((h.2 b).mp hw)
  | install t => exact (h.1 b).mp ((h.2 b).mp hw)
  | clear => exact (h.1 b).mp ((h.2 b).mp hw)
  | clearHead => exact (h.2 b).mp hw
  | finish => exact (h.2 b).mp hw

variable [Fintype P]

/-- The operations that have begun and not ended. -/
def State.ops (s : State P) : Finset P := Finset.univ.filter (fun p => (s.pc p).isOp = true)

/-- Operations have numbers of their own, and entries the epoch of theirs. -/
structure Stamps (s : State P) : Prop where
  op_lt : ∀ p, (s.pc p).isOp = true → s.op p < s.nextOp
  op_inj : ∀ p q, (s.pc p).isOp = true → (s.pc q).isOp = true → s.op p = s.op q → p = q
  entry_op : ∀ e ∈ s.logged, e.op < s.nextOp
  entry_epoch : ∀ e ∈ s.logged, e.epoch ≤ s.epoch
  entry_cur : ∀ e ∈ s.logged, ∀ p, (s.pc p).isOp = true → e.op = s.op p → e.epoch = s.epoch
  one_epoch : ∀ e ∈ s.logged, ∀ e' ∈ s.logged, e.op = e'.op → e.epoch = e'.epoch

/-- What holds between two steps. -/
structure CommitInv (s : State P) : Prop extends Stamps s where
  count : s.outstanding = s.ops.card
  quiet : s.committing = true → ∀ p, (s.pc p).isOp = false
  committer : s.committing = true ↔ ∃ p, (s.pc p).isCommit = true
  single : ∀ p q, (s.pc p).isCommit = true → (s.pc q).isCommit = true → p = q
  noPanic : s.panic = none ∨ s.panic = some .tooBig
  nodup : s.lh.Nodup
  empty : s.committing = false → s.outstanding = 0 → s.lh = []
  phase : ∀ p ph, s.pc p = .commit ph → PhaseInv s ph
  outside : s.committing = false → PhaseInv s .start
  wrote_epoch : ∀ w ∈ s.wrote, w.epoch ≤ s.epoch
  done : ∀ k, k < s.epoch → ∀ b,
    (∃ w ∈ s.wrote, w.epoch = k ∧ w.block = b) ↔ ∃ e ∈ s.logged, e.epoch = k ∧ e.block = b

omit [DecidableEq P] [Fintype P] in
/-- No operation begins. -/
theorem Stamps.fewer (h : Stamps s) (hpc : ∀ q, (s'.pc q).isOp = true → (s.pc q).isOp = true)
    (hop : s'.op = s.op) (hnext : s'.nextOp = s.nextOp) (hlogged : s'.logged = s.logged)
    (hepoch : s'.epoch = s.epoch) : Stamps s' := by
  refine ⟨fun q hq => ?_, fun q r hq hr => ?_, ?_, ?_, fun e he q hq => ?_, ?_⟩
  · rw [hop, hnext]
    exact h.op_lt q (hpc q hq)
  · rw [hop]
    exact h.op_inj q r (hpc q hq) (hpc r hr)
  · rw [hlogged, hnext]
    exact h.entry_op
  · rw [hlogged, hepoch]
    exact h.entry_epoch
  · rw [hlogged] at he
    rw [hop, hepoch]
    exact h.entry_cur e he q (hpc q hq)
  · rw [hlogged]
    exact h.one_epoch

omit [DecidableEq P] in
theorem mem_ops {p : P} : p ∈ s.ops ↔ (s.pc p).isOp = true := by
  simp [State.ops]

omit [DecidableEq P] in
theorem ops_eq_empty (h : ∀ q, (s.pc q).isOp = false) : s.ops = ∅ := by
  rw [Finset.eq_empty_iff_forall_notMem]
  intro q hq
  rw [mem_ops, h q] at hq
  cases hq

theorem ops_enter {p : P} (pc : Pc) (h : pc.isOp = true) (hp : (s.pc p).isOp = false) :
    (s.goto p pc).ops.card = s.ops.card + 1 :=
  card_at_enter s.pc Pc.isOp hp h

theorem ops_leave {p : P} (pc : Pc) (h : pc.isOp = false) (hp : (s.pc p).isOp = true) :
    (s.goto p pc).ops.card + 1 = s.ops.card :=
  card_at_leave s.pc Pc.isOp hp h

namespace CommitInv

variable {p : P}

variable (h : CommitInv s)

include h

section

omit [DecidableEq P]

/-- While an operation is in progress nobody commits. -/
theorem not_committing (hp : (s.pc p).isOp = true) : s.committing = false := by
  cases hc : s.committing with
  | false => rfl
  | true =>
    rw [h.quiet hc p] at hp
    cases hp

theorem no_committer (hc : s.committing = false) (q : P) : (s.pc q).isCommit = false := by
  cases hq : (s.pc q).isCommit with
  | false => rfl
  | true =>
    have htrue := h.committer.mpr ⟨q, hq⟩
    rw [hc] at htrue
    cases htrue

theorem outstanding_pos (hp : (s.pc p).isOp = true) : 0 < s.outstanding := by
  have hcard : 0 < s.ops.card := Finset.card_pos.mpr ⟨p, mem_ops.mpr hp⟩
  rw [h.count]
  exact_mod_cast hcard

/-- Processes move on without beginning or ending anything. -/
theorem control {f : P → Pc} (hop : ∀ q, (f q).isOp = (s.pc q).isOp)
    (hcm : ∀ q, (f q).isCommit = (s.pc q).isCommit)
    (hph : ∀ q ph, f q = .commit ph → PhaseInv s ph) : CommitInv { s with pc := f } where
  count := by
    have hops : ({ s with pc := f } : State P).ops = s.ops := by
      ext q
      rw [mem_ops, mem_ops, hop q]
    rw [hops]
    exact h.count
  quiet := fun hc q => (hop q).trans (h.quiet hc q)
  committer := by
    simp only [hcm]
    exact h.committer
  single := fun q r hq hr => h.single q r (hcm q ▸ hq) (hcm r ▸ hr)
  phase := hph
  toStamps := h.toStamps.fewer (fun q hq => hop q ▸ hq) rfl rfl rfl rfl
  __ := h

theorem wakeup : CommitInv s.wakeup := by
  refine h.control (isOp_wakeup s) (isCommit_wakeup s) (fun q ph hq => ?_)
  split at hq
  · cases hq
  · exact h.phase q ph hq

end

theorem goto {pc : Pc} (hop : pc.isOp = (s.pc p).isOp) (hcm : pc.isCommit = (s.pc p).isCommit)
    (hph : ∀ ph, pc = .commit ph → PhaseInv s ph) : CommitInv (s.goto p pc) := by
  refine h.control ((forall_update_iff s.pc (fun q b => b.isOp = (s.pc q).isOp)).mpr ?_)
    ((forall_update_iff s.pc (fun q b => b.isCommit = (s.pc q).isCommit)).mpr ?_)
    ((forall_update_iff s.pc (fun _ b => ∀ ph, b = .commit ph → PhaseInv s ph)).mpr ?_)
  · exact ⟨hop, fun _ _ => rfl⟩
  · exact ⟨hcm, fun _ _ => rfl⟩
  · exact ⟨hph, fun q _ => h.phase q⟩

/-- A process that is not committing moves on. -/
theorem gotoOutside {pc : Pc} (hop : pc.isOp = (s.pc p).isOp) (hcm : pc.isCommit = false)
    (hcm' : (s.pc p).isCommit = false) : CommitInv (s.goto p pc) := by
  refine h.goto hop (hcm.trans hcm'.symm) (fun ph hph => ?_)
  rw [hph] at hcm
  cases hcm

/-- `begin_op` lets an operation in. -/
theorem enter (hp : (s.pc p).isOp = false) (hcm : (s.pc p).isCommit = false)
    (hc : s.committing = false) :
    CommitInv { s.goto p .inOp with
      outstanding := s.outstanding + 1
      op := update s.op p s.nextOp
      nextOp := s.nextOp + 1 } := by
  have hcard := ops_enter (s := s) (p := p) .inOp rfl hp
  have hopAt : ∀ q, ((s.goto p .inOp).pc q).isOp = true → q = p ∨ (s.pc q).isOp = true :=
    (forall_update_iff s.pc (fun q b => b.isOp = true → q = p ∨ (s.pc q).isOp = true)).mpr
      ⟨fun _ => Or.inl rfl, fun _ _ => Or.inr⟩
  have hcmAt : ∀ q, ((s.goto p .inOp).pc q).isCommit = (s.pc q).isCommit :=
    (forall_update_iff s.pc (fun q b => b.isCommit = (s.pc q).isCommit)).mpr
      ⟨hcm.symm, fun _ _ => rfl⟩
  have hopEq : ∀ q, q ≠ p → update s.op p s.nextOp q = s.op q :=
    fun q hq => update_of_ne hq _ _
  exact
    { h with
      count := by
        show s.outstanding + 1 = ((s.goto p .inOp).ops.card : Int)
        rw [hcard, h.count]
        push_cast
        rfl
      quiet := fun hc' => by
        have hc'' : s.committing = true := hc'
        rw [hc] at hc''
        cases hc''
      committer := by
        simp only [hcmAt]
        exact h.committer
      single := fun q r hq hr => h.single q r (hcmAt q ▸ hq) (hcmAt r ▸ hr)
      empty := fun _ ho => by
        have hge : (0 : Int) ≤ s.outstanding := by
          rw [h.count]
          exact Int.natCast_nonneg _
        have ho' : s.outstanding + 1 = 0 := ho
        omega
      phase := (forall_update_iff s.pc (fun _ b => ∀ ph, b = .commit ph → PhaseInv s ph)).mpr
        ⟨nofun, fun q _ => h.phase q⟩
      op_lt := by
        intro q hq
        by_cases hqp : q = p
        · subst hqp
          simp
        · rcases hopAt q hq with hq | hq
          · exact absurd hq hqp
          · have := h.op_lt q hq
            simp only [hopEq q hqp]
            omega
      op_inj := by
        intro q r hq hr heq
        by_cases hqp : q = p <;> by_cases hrp : r = p
        · rw [hqp, hrp]
        · -- the new number is larger than any in use
          have hlt := h.op_lt r ((hopAt r hr).resolve_left hrp)
          simp only [hqp, update_self, hopEq r hrp] at heq
          omega
        · have hlt := h.op_lt q ((hopAt q hq).resolve_left hqp)
          simp only [hrp, update_self, hopEq q hqp] at heq
          omega
        · simp only [hopEq q hqp, hopEq r hrp] at heq
          exact h.op_inj q r ((hopAt q hq).resolve_left hqp) ((hopAt r hr).resolve_left hrp) heq
      entry_op := fun e he => Nat.lt_succ_of_lt (h.entry_op e he)
      entry_cur := by
        intro e he q hq heq
        have hlt := h.entry_op e he
        by_cases hqp : q = p
        · simp only [hqp, update_self] at heq
          omega
        · simp only [hopEq q hqp] at heq
          exact h.entry_cur e he q ((hopAt q hq).resolve_left hqp) heq }

theorem append {b : Nat} (hp : s.pc p = .checked b) : CommitInv (s.append p b) := by
  have hop : (s.pc p).isOp = true := by rw [hp]; rfl
  have hc := h.not_committing hop
  have hmove : CommitInv (s.goto p .inOp) :=
    h.gotoOutside (by rw [hp]; rfl) rfl (by rw [hp]; rfl)
  have hgroup : ∀ x, InGroup (s.append p b) x ↔ InGroup s x ∨ x = b := by
    intro x
    constructor
    · rintro ⟨e, he, hep, hbl⟩
      rcases List.mem_append.mp he with he | he
      · exact Or.inl ⟨e, he, hep, hbl⟩
      · rw [List.mem_singleton.mp he] at hbl
        exact Or.inr hbl.symm
    · rintro (⟨e, he, hep, hbl⟩ | rfl)
      · exact ⟨e, List.mem_append_left _ he, hep, hbl⟩
      · exact ⟨_, List.mem_append_right _ (List.mem_singleton.mpr rfl), rfl, rfl⟩
  have hlh : ∀ x, x ∈ (s.append p b).lh ↔ x ∈ s.lh ∨ x = b := by
    intro x
    simp only [State.append]
    split
    · next hb =>
      constructor
      · exact Or.inl
      · rintro (hx | rfl)
        · exact hx
        · exact hb
    · rw [List.mem_append, List.mem_singleton]
  obtain ⟨hmem, hnw⟩ := h.outside hc
  have hnone : ∀ q ph, (s.append p b).pc q ≠ .commit ph := by
    intro q ph hq
    have hcm := hmove.no_committer hc q
    rw [show (s.goto p .inOp).pc q = .commit ph from hq] at hcm
    cases hcm
  exact
    { hmove with
      nodup := by
        simp only [State.append]
        split
        · exact h.nodup
        · next hb =>
          rw [List.nodup_append]
          refine ⟨h.nodup, List.nodup_singleton b, ?_⟩
          intro x hx y hy hxy
          rw [List.mem_singleton.mp hy] at hxy
          exact hb (hxy ▸ hx)
      empty := fun _ ho => by
        have hpos := h.outstanding_pos hop
        rw [show (s.append p b).outstanding = s.outstanding from rfl] at ho
        omega
      phase := fun q ph hq => absurd hq (hnone q ph)
      outside := fun _ => by
        refine ⟨fun x => ?_, hnw⟩
        rw [hlh, hgroup, hmem]
      entry_op := by
        intro e he
        rcases List.mem_append.mp he with he | he
        · exact h.entry_op e he
        · rw [List.mem_singleton.mp he]
          exact h.op_lt p hop
      entry_epoch := by
        intro e he
        rcases List.mem_append.mp he with he | he
        · exact h.entry_epoch e he
        · rw [List.mem_singleton.mp he]
          exact Nat.le_refl _
      entry_cur := by
        intro e he q hq heq
        rcases List.mem_append.mp he with he | he
        · exact hmove.entry_cur e he q hq heq
        · rw [List.mem_singleton.mp he]
          rfl
      one_epoch := by
        -- an old entry of the same operation is of the current epoch
        have hcur : ∀ e ∈ s.logged, e.op = s.op p → e.epoch = s.epoch :=
          fun e he heq => h.entry_cur e he p hop heq
        intro e he e' he' heq
        rcases List.mem_append.mp he with he | he <;>
          rcases List.mem_append.mp he' with he' | he'
        · exact h.one_epoch e he e' he' heq
        · rw [List.mem_singleton.mp he'] at heq ⊢
          exact hcur e he heq
        · rw [List.mem_singleton.mp he] at heq ⊢
          exact (hcur e' he' heq.symm).symm
        · rw [List.mem_singleton.mp he, List.mem_singleton.mp he']
      done := by
        intro k hk x
        refine (h.done k hk x).trans ?_
        constructor
        · rintro ⟨e, he, hep, hbl⟩
          exact ⟨e, List.mem_append_left _ he, hep, hbl⟩
        · rintro ⟨e, he, hep, hbl⟩
          rcases List.mem_append.mp he with he | he
          · exact ⟨e, he, hep, hbl⟩
          · rw [List.mem_singleton.mp he] at hep
            have hlt : k < s.epoch := hk
            have heq : s.epoch = k := hep
            omega }

/-- An operation ends and others remain. -/
theorem leave (hp : (s.pc p).isOp = true) (ho : s.outstanding - 1 ≠ 0) :
    CommitInv { s.goto p .idle with outstanding := s.outstanding - 1 } := by
  have hc := h.not_committing hp
  have hcard := ops_leave (s := s) (p := p) .idle rfl hp
  have hnc : ∀ q, ((s.goto p .idle).pc q).isCommit = false :=
    (forall_update_iff s.pc (fun _ b => b.isCommit = false)).mpr
      ⟨rfl, fun q _ => h.no_committer hc q⟩
  have hopAt : ∀ q, ((s.goto p .idle).pc q).isOp = true → (s.pc q).isOp = true :=
    (forall_update_iff s.pc (fun q b => b.isOp = true → (s.pc q).isOp = true)).mpr
      ⟨fun _ => hp, fun _ _ => id⟩
  exact
    { h with
      count := by
        show s.outstanding - 1 = ((s.goto p .idle).ops.card : Int)
        have := h.count
        omega
      quiet := fun hc' => by
        have hc'' : s.committing = true := hc'
        rw [hc] at hc''
        cases hc''
      committer := by
        constructor
        · intro hc'
          have hc'' : s.committing = true := hc'
          rw [hc] at hc''
          cases hc''
        · rintro ⟨q, hq⟩
          rw [show _ = false from hnc q] at hq
          cases hq
      single := fun q _ hq _ => by
        rw [show _ = false from hnc q] at hq
        cases hq
      empty := fun _ ho' => absurd ho' ho
      phase := by
        intro q ph hq
        have hcm := hnc q
        rw [show (s.goto p .idle).pc q = .commit ph from hq] at hcm
        cases hcm
      toStamps := h.toStamps.fewer hopAt rfl rfl rfl rfl }

/-- The last operation ends and starts a commit. -/
theorem startCommit (hp : (s.pc p).isOp = true) (ho : s.outstanding - 1 = 0) :
    CommitInv { s.goto p (.commit .start) with
      outstanding := s.outstanding - 1
      committing := true } := by
  have hc := h.not_committing hp
  have hcard := ops_leave (s := s) (p := p) (.commit .start) rfl hp
  have hzero : (s.goto p (.commit .start)).ops.card = 0 := by
    have := h.count
    omega
  have hnop : ∀ q, ((s.goto p (.commit .start)).pc q).isOp = false := by
    intro q
    cases hq : ((s.goto p (.commit .start)).pc q).isOp with
    | false => rfl
    | true =>
      have hmem := mem_ops.mpr hq
      rw [Finset.card_eq_zero.mp hzero] at hmem
      cases hmem
  have hcm : ∀ q, ((s.goto p (.commit .start)).pc q).isCommit = true → q = p := by
    intro q hq
    by_contra hqp
    rw [pc_goto_of_ne s hqp, h.no_committer hc q] at hq
    cases hq
  exact
    { h with
      count := by
        show s.outstanding - 1 = ((s.goto p (.commit .start)).ops.card : Int)
        omega
      quiet := fun _ q => hnop q
      committer := by
        refine ⟨fun _ => ⟨p, ?_⟩, fun _ => rfl⟩
        show ((s.goto p (.commit .start)).pc p).isCommit = true
        rw [pc_goto_self]
        rfl
      single := fun q r hq hr => (hcm q hq).trans (hcm r hr).symm
      empty := fun hc' => by cases hc'
      phase := by
        intro q ph hq
        have hq' : (s.goto p (.commit .start)).pc q = .commit ph := hq
        have hqp : q = p := hcm q (by rw [hq']; rfl)
        rw [hqp, pc_goto_self] at hq'
        cases hq'
        exact h.outside hc
      outside := fun hc' => by cases hc'
      toStamps := h.toStamps.fewer (fun q hq => by
        rw [show _ = false from hnop q] at hq
        cases hq) rfl rfl rfl rfl }

/-- `end_op` never finds a commit in progress. -/
theorem end_op (hp : s.pc p = .inOp) : CommitInv (s.end_op p) := by
  have hop : (s.pc p).isOp = true := by rw [hp]; rfl
  have hc := h.not_committing hop
  unfold State.end_op
  simp only
  rw [if_neg (by simp [hc])]
  split
  · next ho => exact h.startCommit hop ho
  · next ho =>
    exact CommitInv.leave (p := p) h.wakeup (by rw [isOp_wakeup]; exact hop) ho

/-- The committing process goes to its next phase. It may have written to the
    log and changed `log.lh`. -/
theorem nextPhase {ph' : Phase} (hp : s.pc p = .commit ph) {lh : List Nat} {wrote : List SlotWrite}
    (hnd : lh.Nodup) (hwrote : ∀ w ∈ wrote, w ∈ s.wrote ∨ w.epoch = s.epoch)
    (hsub : ∀ w ∈ s.wrote, w ∈ wrote) (hph : PhaseInv { s with lh := lh, wrote := wrote } ph') :
    CommitInv { s.goto p (.commit ph') with lh := lh, wrote := wrote } := by
  have hc : s.committing = true := h.committer.mpr ⟨p, by rw [hp]; rfl⟩
  have hnop : ∀ q, ((s.goto p (.commit ph')).pc q).isOp = false :=
    (forall_update_iff s.pc (fun _ b => b.isOp = false)).mpr ⟨rfl, fun q _ => h.quiet hc q⟩
  have hcm : ∀ q, ((s.goto p (.commit ph')).pc q).isCommit = (s.pc q).isCommit :=
    (forall_update_iff s.pc (fun q b => b.isCommit = (s.pc q).isCommit)).mpr
      ⟨by rw [hp]; rfl, fun _ _ => rfl⟩
  have hops : (s.goto p (.commit ph')).ops = s.ops := by
    ext q
    rw [mem_ops, mem_ops, hnop q, h.quiet hc q]
  have hnot : s.committing = false → False := fun hf => by
    rw [hc] at hf
    cases hf
  exact
    { h with
      count := by
        show s.outstanding = ((s.goto p (.commit ph')).ops.card : Int)
        rw [hops]
        exact h.count
      quiet := fun _ q => hnop q
      committer := by
        simp only [hcm]
        exact h.committer
      single := fun q r hq hr => h.single q r (hcm q ▸ hq) (hcm r ▸ hr)
      nodup := hnd
      empty := fun hf => (hnot hf).elim
      phase := by
        intro q ph hq
        have hq' : (s.goto p (.commit ph')).pc q = .commit ph := hq
        have hqp : q = p := h.single q p (by rw [← hcm q, hq']; rfl) (by rw [hp]; rfl)
        rw [hqp, pc_goto_self] at hq'
        cases hq'
        exact hph
      outside := fun hf => (hnot hf).elim
      toStamps := h.toStamps.fewer (fun q hq => by
        rw [show _ = false from hnop q] at hq
        cases hq) rfl rfl rfl rfl
      wrote_epoch := by
        intro w hw
        rcases hwrote w hw with hw | hw
        · exact h.wrote_epoch w hw
        · exact Nat.le_of_eq hw
      done := by
        intro k hk b
        have hk' : k < s.epoch := hk
        refine Iff.trans ?_ (h.done k hk b)
        constructor
        · rintro ⟨w, hw, hwk, hwb⟩
          rcases hwrote w hw with hw | hw
          · exact ⟨w, hw, hwk, hwb⟩
          · omega
        · rintro ⟨w, hw, hwk, hwb⟩
          exact ⟨w, hsub w hw, hwk, hwb⟩ }

/-- A step of `commit`. -/
theorem commit (hp : s.pc p = .commit ph) (hne : ph ≠ .finish) (start : Nat) :
    CommitInv (s.commit start p ph) := by
  have hphase := h.phase p ph hp
  have hgo : ∀ {ph' : Phase}, PhaseInv s ph' → CommitInv (s.goto p (.commit ph')) :=
    fun hph' => h.nextPhase hp h.nodup (fun w hw => Or.inl hw) (fun w hw => hw) hph'
  cases ph with
  | start =>
    refine hgo ?_
    split
    · next hnil =>
      refine ⟨hnil, fun b => ⟨fun hw => absurd hw (hphase.2 b), fun hg => ?_⟩⟩
      have hb := (hphase.1 b).mpr hg
      rw [hnil] at hb
      cases hb
    · exact ⟨hphase.1, fun b => ⟨fun hw => absurd hw (hphase.2 b), fun hb => by cases hb⟩⟩
  | writeLog t =>
    simp only [State.commit]
    split
    · next ht =>
      refine h.nextPhase hp h.nodup (fun w hw => ?_) (fun w hw => List.mem_append_left _ hw) ?_
      · rcases List.mem_append.mp hw with hw | hw
        · exact Or.inl hw
        · rw [List.mem_singleton.mp hw]
          exact Or.inr rfl
      · -- one more entry of `log.lh` has been written
        have hget : s.lh.getD t 0 = s.lh[t] := by simp [ht]
        refine ⟨hphase.1, fun b => ?_⟩
        have hold := hphase.2 b
        show Written _ b ↔ b ∈ s.lh.take (t + 1)
        rw [List.take_succ_eq_append_getElem ht, List.mem_append, List.mem_singleton, ← hold]
        constructor
        · rintro ⟨w, hw, hwk, hwb⟩
          rcases List.mem_append.mp hw with hw | hw
          · exact Or.inl ⟨w, hw, hwk, hwb⟩
          · rw [List.mem_singleton.mp hw] at hwb
            exact Or.inr (hwb.symm.trans hget)
        · rintro (⟨w, hw, hwk, hwb⟩ | rfl)
          · exact ⟨w, List.mem_append_left _ hw, hwk, hwb⟩
          · exact ⟨_, List.mem_append_right _ (List.mem_singleton.mpr rfl), rfl, hget⟩
    · next ht =>
      refine hgo ⟨hphase.1, fun b => ?_⟩
      rw [hphase.2 b, List.take_of_length_le (Nat.le_of_not_lt ht)]
  | writeHead => exact hgo hphase
  | install t =>
    refine hgo ?_
    split
    · exact hphase
    · exact hphase
  | clear =>
    refine h.nextPhase hp List.nodup_nil (fun w hw => Or.inl hw) (fun w hw => hw) ⟨rfl, ?_⟩
    intro b
    have hw : Written s b ↔ InGroup s b := (hphase.2 b).trans (hphase.1 b)
    exact hw
  | clearHead => exact hgo hphase
  | finish => exact absurd rfl hne

/-- A commit is over. -/
theorem endCommit (hp : s.pc p = .commit .finish) : CommitInv (s.endCommit p) := by
  have hc : s.committing = true := h.committer.mpr ⟨p, by rw [hp]; rfl⟩
  obtain ⟨hnil, hgroup⟩ := h.phase p .finish hp
  have hnop : ∀ q, ((s.endCommit p).pc q).isOp = false :=
    (forall_update_iff s.wakeup.pc (fun _ b => b.isOp = false)).mpr
      ⟨rfl, fun q _ => (isOp_wakeup s q).trans (h.quiet hc q)⟩
  have hncm : ∀ q, ((s.endCommit p).pc q).isCommit = false := by
    refine (forall_update_iff s.wakeup.pc (fun _ b => b.isCommit = false)).mpr
      ⟨rfl, fun q hqp => ?_⟩
    rw [isCommit_wakeup]
    cases hq : (s.pc q).isCommit with
    | false => rfl
    | true => exact absurd (h.single q p hq (by rw [hp]; rfl)) hqp
  -- nothing has been logged or written since the new epoch began
  have hnoGroup : ∀ b, ¬ InGroup (s.endCommit p) b := by
    rintro b ⟨e, he, hep, _⟩
    have hle := h.entry_epoch e he
    have hep' : e.epoch = s.epoch + 1 := hep
    omega
  have hnoWritten : ∀ b, ¬ Written (s.endCommit p) b := by
    rintro b ⟨w, hw, hwe, _⟩
    have hle := h.wrote_epoch w hw
    have hwe' : w.epoch = s.epoch + 1 := hwe
    omega
  exact
    { h with
      count := by
        rw [ops_eq_empty hnop, ← ops_eq_empty (h.quiet hc)]
        exact h.count
      quiet := fun hf => by cases hf
      committer := by
        refine ⟨fun hf => (by cases hf), ?_⟩
        rintro ⟨q, hq⟩
        rw [hncm q] at hq
        cases hq
      single := fun q _ hq => by
        rw [hncm q] at hq
        cases hq
      empty := fun _ _ => hnil
      phase := by
        intro q ph hq
        have hcm := hncm q
        rw [hq] at hcm
        cases hcm
      outside := by
        intro _
        refine ⟨fun b => ⟨fun hb => ?_, fun hb => absurd hb (hnoGroup b)⟩, hnoWritten⟩
        rw [show (s.endCommit p).lh = [] from hnil] at hb
        cases hb
      op_lt := fun q hq => by
        rw [hnop q] at hq
        cases hq
      op_inj := fun q _ hq => by
        rw [hnop q] at hq
        cases hq
      entry_epoch := fun e he => Nat.le_succ_of_le (h.entry_epoch e he)
      entry_cur := fun e _ q hq => by
        rw [hnop q] at hq
        cases hq
      wrote_epoch := fun w hw => Nat.le_succ_of_le (h.wrote_epoch w hw)
      done := by
        intro k hk b
        rcases Nat.lt_succ_iff_lt_or_eq.mp hk with hk | rfl
        · exact h.done k hk b
        · exact hgroup b }

theorem begin_op (hp : s.pc p = .idle ∨ s.pc p = .beginOp false) : CommitInv (s.begin_op p) := by
  have hop : (s.pc p).isOp = false := by rcases hp with hp | hp <;> rw [hp] <;> rfl
  have hcm : (s.pc p).isCommit = false := by rcases hp with hp | hp <;> rw [hp] <;> rfl
  have hsleep : CommitInv (s.goto p (.beginOp true)) := h.gotoOutside hop.symm rfl hcm
  unfold State.begin_op
  split
  · exact hsleep
  · next hc =>
    split
    · exact hsleep
    · exact h.enter hop hcm (by simpa using hc)

/-- **Preservation**: every step keeps the invariant. -/
theorem step (hst : next start size s l = some s') : CommitInv s' := by
  cases move_of_next hst with
  | begin_op p hp => exact h.begin_op hp
  | rouse p hp => exact h.gotoOutside (by rw [hp]; rfl) rfl (by rw [hp]; rfl)
  | log_write p b hp =>
    unfold State.checkSize
    split
    · exact { h with noPanic := Or.inr rfl }
    · exact h.gotoOutside (by rw [hp]; rfl) rfl (by rw [hp]; rfl)
  | checkTrans p b hp =>
    -- the operation itself is counted
    have hpos := h.outstanding_pos (p := p) (by rw [hp]; rfl)
    unfold State.checkTrans
    rw [if_neg (by omega)]
    exact h.gotoOutside (by rw [hp]; rfl) rfl (by rw [hp]; rfl)
  | append p b hp => exact h.append hp
  | end_op p hp => exact h.end_op hp
  | commit p ph hp hne => exact h.commit hp hne start
  | endCommit p hp => exact h.endCommit hp

end CommitInv

omit [DecidableEq P] in
theorem commitInv_boot : CommitInv (boot P) where
  count := by
    rw [ops_eq_empty (fun _ => rfl)]
    rfl
  quiet := fun hf => by cases hf
  committer := ⟨fun hf => (by cases hf), fun ⟨_, hq⟩ => by cases hq⟩
  single := fun _ _ hq => by cases hq
  noPanic := Or.inl rfl
  nodup := List.nodup_nil
  empty := fun _ _ => rfl
  phase := fun _ _ hq => by cases hq
  outside := fun _ =>
    ⟨fun _ => ⟨fun hb => (by cases hb), fun ⟨_, he, _⟩ => by cases he⟩, fun _ ⟨_, hw, _⟩ => by cases hw⟩
  op_lt := fun _ hq => by cases hq
  op_inj := fun _ _ hq => by cases hq
  entry_op := fun _ he => by cases he
  entry_epoch := fun _ he => by cases he
  entry_cur := fun _ he => by cases he
  one_epoch := fun _ he => by cases he
  wrote_epoch := fun _ hw => by cases hw
  done := fun k hk => by cases hk

theorem commitInv_reachable (h : Reachable (logOps P start size) s) : CommitInv s := by
  induction h with
  | init h0 =>
    rw [show _ = boot P from h0]
    exact commitInv_boot
  | step l _ hst ih => exact ih.step hst

/-! ### The protocol -/

/-- Several steps. -/
def run (start size : Nat) (s : State P) (ls : List (Label P)) : Option (State P) :=
  ls.foldlM (next start size) s

omit [Fintype P] in
theorem reachable_run (ls : List (Label P)) : ∀ {s s' : State P},
    Reachable (logOps P start size) s → run start size s ls = some s' →
    Reachable (logOps P start size) s' :=
  Reachable.foldlM (fun _ _ _ h => h) ls

/-- **The group-commit protocol.** In every reachable state: a commit runs
    only when no operation is outstanding, and `outstanding` counts the
    operations that have begun and not ended; the panics `log.committing`
    and `log_write outside of trans` have not been reached; while a commit
    runs, no `begin_op` completes and `log.lh` is changed by the commit only;
    all blocks an operation logs are written by one and the same commit;
    and the blocks a commit writes were logged by operations of its group,
    all of which have ended when it runs. -/
theorem group_commit {start size : Nat} {s : State P}
    (h : Reachable (logOps P start size) s) :
    (s.committing = true → s.outstanding = 0) ∧
    s.outstanding = s.ops.card ∧
    s.panic ≠ some .logCommitting ∧ s.panic ≠ some .outsideTrans ∧
    (∀ l s', next start size s l = some s' → s.committing = true →
      (∀ p, l = .begin_op p → s'.pc p = .beginOp true) ∧
      (s'.lh = s.lh ∨ ∃ p, l = .commit p)) ∧
    (∀ e ∈ s.logged, ∀ e' ∈ s.logged, e'.op = e.op →
      e'.epoch = e.epoch ∧
      (e.epoch < s.epoch → ∃ w ∈ s.wrote, w.epoch = e.epoch ∧ w.block = e'.block)) ∧
    (∀ w ∈ s.wrote, ∃ e ∈ s.logged, e.epoch = w.epoch ∧ e.block = w.block) ∧
    (s.committing = true → ∀ p, (s.pc p).isOp = false) := by
  have hinv := commitInv_reachable h
  have hzero : s.committing = true → s.outstanding = 0 := by
    intro hc
    rw [hinv.count, ops_eq_empty (hinv.quiet hc)]
    rfl
  refine ⟨hzero, hinv.count, ?_, ?_, ?_, ?_, ?_, hinv.quiet⟩
  · rcases hinv.noPanic with hp | hp <;> simp [hp]
  · rcases hinv.noPanic with hp | hp <;> simp [hp]
  · intro l s' hst hc
    have hbusy : ∀ p, (s.pc p).isOp = true → False := by
      intro p hp
      rw [hinv.quiet hc p] at hp
      cases hp
    cases move_of_next hst with
    | begin_op p =>
      have hsleep : s.begin_op p = s.goto p (.beginOp true) := by
        unfold State.begin_op
        rw [if_pos hc]
      refine ⟨fun q hq => ?_, Or.inl ?_⟩
      · cases hq
        rw [hsleep, pc_goto_self]
      · rw [hsleep]
        rfl
    | rouse p => exact ⟨nofun, Or.inl rfl⟩
    | log_write p b hp => exact (hbusy p (by rw [hp]; rfl)).elim
    | checkTrans p b hp => exact (hbusy p (by rw [hp]; rfl)).elim
    | append p b hp => exact (hbusy p (by rw [hp]; rfl)).elim
    | end_op p hp => exact (hbusy p (by rw [hp]; rfl)).elim
    | commit p => exact ⟨nofun, Or.inr ⟨p, rfl⟩⟩
    | endCommit p => exact ⟨nofun, Or.inl rfl⟩
  · intro e he e' he' hop
    have hep := hinv.one_epoch e' he' e he hop
    refine ⟨hep, fun hlt => ?_⟩
    exact (hinv.done e.epoch hlt e'.block).mpr ⟨e', he', hep, rfl⟩
  · intro w hw
    rcases Nat.lt_or_eq_of_le (hinv.wrote_epoch w hw) with hlt | heq
    · exact (hinv.done w.epoch hlt w.block).mp ⟨w, hw, rfl, rfl⟩
    · -- the commit in progress writes blocks of the current group
      have hwritten : Written s w.block := ⟨w, hw, heq, rfl⟩
      have hgroup : InGroup s w.block := by
        cases hc : s.committing with
        | false => exact absurd hwritten ((hinv.outside hc).2 w.block)
        | true =>
          obtain ⟨p, hp⟩ := hinv.committer.mp hc
          cases hpc : s.pc p with
          | commit ph => exact inGroup_of_written (hinv.phase p ph hpc) hwritten
          | _ => simp [hpc, Pc.isCommit] at hp
      obtain ⟨e, he, hep, hbl⟩ := hgroup
      exact ⟨e, he, hep.trans heq.symm, hbl⟩

/-- Two operations log blocks 5 and 6; the second to end commits both. -/
def twoOps : List (Label (Fin 2)) :=
  [.begin_op 0, .begin_op 1, .log_write 0 5, .checkTrans 0, .append 0, .log_write 1 6,
   .checkTrans 1, .append 1, .end_op 0, .end_op 1, .commit 1, .commit 1, .commit 1, .commit 1,
   .commit 1, .commit 1, .commit 1, .commit 1, .commit 1, .commit 1, .endCommit 1]

theorem group_commit_twoOps :
    ∃ s, run 2 30 (boot (Fin 2)) twoOps = some s ∧ ∃ w ∈ s.wrote, w.epoch = 0 ∧ w.block = 5 := by
  refine ⟨_, rfl, ?_⟩
  have hreach : Reachable (logOps (Fin 2) 2 30) _ := reachable_run twoOps (.init rfl) rfl
  exact ((group_commit hreach).2.2.2.2.2.1 ⟨0, 0, 5⟩ (by decide) ⟨0, 0, 5⟩ (by decide) rfl).2
    (by decide)

end Xv6.LogOps
