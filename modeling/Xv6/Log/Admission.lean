import Xv6.Log.Ops

/-! # Log Space Admission

    Three places decide how much fits in the log: `begin_op` reserves
    `MAXOPBLOCKS` blocks for each operation out of `LOGSIZE`, `log_write`
    refuses to run when `log.lh.n >= log.size - 1`, and `mkfs` makes
    `log.size` equal to `LOGSIZE`, of which one block is the header.

    Operations that keep to their reservation therefore fill up to `LOGSIZE`
    entries of a log that has room for `LOGSIZE - 1`. This file says exactly
    when the check in `log_write` and the log area are respected.
-/

open LTS

namespace Xv6.LogOps

variable {P : Type} [DecidableEq P] {s s' : State P} {l : Label P} {start size : Nat}

/-! ### What has been logged -/

/-- The blocks logged by the operation `p` is in. -/
def opBlocks (s : State P) (p : P) : Finset Nat :=
  ((s.logged.filter (fun e => e.op = s.op p)).map Entry.block).toFinset

/-- The blocks logged since the last commit. -/
def groupBlocks (s : State P) : Finset Nat :=
  ((s.logged.filter (fun e => e.epoch = s.epoch)).map Entry.block).toFinset

/-- `log_write` is called for at most `k` distinct blocks in one operation. -/
def OpBound (k : Nat) (s : State P) : Label P → Prop
  | .log_write p b => (insert b (opBlocks s p)).card ≤ k
  | _ => True

/-- `log_write` is called while the group has logged fewer than
    `log.size - 1` blocks, and what it records does not make them more than
    that. -/
def Fits (size : Nat) (s : State P) : Label P → Prop
  | .log_write _ _ => (groupBlocks s).card + 1 < size
  | .append p =>
    match s.pc p with
    | .checked b => (insert b (groupBlocks s)).card < size
    | _ => True
  | _ => True

/-- `log_write` has not panicked, `log.lh.block` has no duplicates, and every
    slot that writing out `log.lh` touches is in the log area. -/
structure LogSafe (start size : Nat) (s : State P) : Prop where
  noPanic : s.panic ≠ some .tooBig
  nodup : s.lh.Nodup
  slots : ∀ tail, tail < s.lh.length →
    start ≤ start + tail + 1 ∧ start + tail + 1 < start + size

omit [DecidableEq P] in
theorem mem_groupBlocks {b : Nat} : b ∈ groupBlocks s ↔ InGroup s b := by
  simp [groupBlocks, InGroup, and_assoc]

variable [Fintype P]

omit [DecidableEq P] in
/-- Outside a commit `log.lh` lists the blocks of the group once each. -/
theorem CommitInv.card_group (h : CommitInv s) (hc : s.committing = false) :
    (groupBlocks s).card = s.lh.length := by
  have heq : groupBlocks s = s.lh.toFinset := by
    ext b
    rw [mem_groupBlocks, List.mem_toFinset]
    exact ((h.outside hc).1 b).symm
  rw [heq, List.toFinset_card_of_nodup h.nodup]

/-! ### The log area -/

section

omit [DecidableEq P] [Fintype P]

theorem LogSafe.of_lh (h : LogSafe start size s) (hp : s'.panic ≠ some .tooBig)
    (hlh : s'.lh = s.lh) : LogSafe start size s' :=
  ⟨hp, hlh ▸ h.nodup, hlh ▸ h.slots⟩

/-- The slots are in the area as long as a block is left for the header. -/
theorem slots_iff (hpos : 0 < s.lh.length) :
    (∀ tail, tail < s.lh.length → start ≤ start + tail + 1 ∧ start + tail + 1 < start + size) ↔
      s.lh.length < size := by
  constructor
  · intro h
    have := h (s.lh.length - 1) (by omega)
    omega
  · intro h tail ht
    omega

end

/-- `log.lh` after a `log_write` lists the group with the new block. -/
theorem CommitInv.card_append (h : CommitInv s) {p : P} {b : Nat} (hp : s.pc p = .checked b) :
    (s.append p b).lh.length = (insert b (groupBlocks s)).card := by
  have hc := h.not_committing (p := p) (by rw [hp]; rfl)
  have hmem : b ∈ groupBlocks s ↔ b ∈ s.lh := by
    rw [mem_groupBlocks]
    exact ((h.outside hc).1 b).symm
  by_cases hb : b ∈ s.lh
  · rw [Finset.insert_eq_self.mpr (hmem.mpr hb), h.card_group hc]
    simp only [State.append, if_pos hb]
  · rw [Finset.card_insert_of_notMem (fun hg => hb (hmem.mp hg)), h.card_group hc]
    simp only [State.append, if_neg hb, List.length_append, List.length_singleton]

/-- **One step**: from a safe state the next is safe exactly when the step
    fits. -/
theorem logSafe_next_iff (hinv : CommitInv s) (hinv' : CommitInv s')
    (hsafe : LogSafe start LOGSIZE s) (hst : next start LOGSIZE s l = some s') :
    Fits LOGSIZE s l ↔ LogSafe start LOGSIZE s' := by
  cases move_of_next hst with
  | begin_op p =>
    refine iff_of_true trivial ?_
    unfold State.begin_op
    split
    · exact hsafe.of_lh hsafe.noPanic rfl
    · split <;> exact hsafe.of_lh hsafe.noPanic rfl
  | rouse p => exact iff_of_true trivial (hsafe.of_lh hsafe.noPanic rfl)
  | log_write p b hp =>
    -- the test of `log_write` is the condition
    have hc := hinv.not_committing (p := p) (by rw [hp]; rfl)
    show (groupBlocks s).card + 1 < LOGSIZE ↔ _
    rw [hinv.card_group hc]
    unfold State.checkSize
    split
    · next hbig =>
      refine iff_of_false ?_ (fun h => h.noPanic rfl)
      omega
    · next hroom =>
      refine iff_of_true ?_ (hsafe.of_lh hsafe.noPanic rfl)
      omega
  | checkTrans p b hp =>
    refine iff_of_true trivial ?_
    unfold State.checkTrans
    split
    · exact hsafe.of_lh (fun h => by cases h) rfl
    · exact hsafe.of_lh hsafe.noPanic rfl
  | append p b hp =>
    -- the slots of what is recorded are
    have hpos : 0 < (s.append p b).lh.length := by
      rw [hinv.card_append hp]
      exact Finset.card_pos.mpr (Finset.insert_nonempty _ _)
    have hfits : Fits LOGSIZE s (.append p) ↔ (s.append p b).lh.length < LOGSIZE := by
      rw [hinv.card_append hp]
      simp only [Fits, hp]
    rw [hfits]
    constructor
    · intro h
      exact ⟨hsafe.noPanic, hinv'.nodup, (slots_iff hpos).mpr h⟩
    · intro h
      exact (slots_iff hpos).mp h.slots
  | end_op p =>
    refine iff_of_true trivial ?_
    unfold State.end_op
    simp only
    split
    · exact hsafe.of_lh (fun h => by cases h) rfl
    · split <;> exact hsafe.of_lh hsafe.noPanic rfl
  | commit p ph =>
    refine iff_of_true trivial ?_
    cases ph with
    | writeLog t =>
      simp only [State.commit]
      split <;> exact hsafe.of_lh hsafe.noPanic rfl
    | clear =>
      exact ⟨hsafe.noPanic, List.nodup_nil, fun tail ht => absurd ht (Nat.not_lt_zero _)⟩
    | _ => exact hsafe.of_lh hsafe.noPanic rfl
  | endCommit p => exact iff_of_true trivial (hsafe.of_lh hsafe.noPanic rfl)

omit [Fintype P] in
/-- What a commit writes is a slot of `log.lh`. -/
theorem wrote_next (hst : next start size s l = some s') {w : SlotWrite} (hw : w ∈ s'.wrote) :
    w ∈ s.wrote ∨ ∃ tail, tail < s.lh.length ∧ w.slot = start + tail + 1 := by
  cases move_of_next hst with
  | begin_op p =>
    left
    unfold State.begin_op at hw
    split at hw
    · exact hw
    · split at hw <;> exact hw
  | rouse p => exact Or.inl hw
  | log_write p b =>
    left
    unfold State.checkSize at hw
    split at hw <;> exact hw
  | checkTrans p b =>
    left
    unfold State.checkTrans at hw
    split at hw <;> exact hw
  | append p b => exact Or.inl hw
  | end_op p =>
    left
    unfold State.end_op at hw
    simp only at hw
    split at hw
    · exact hw
    · split at hw <;> exact hw
  | commit p ph =>
    cases ph with
    | writeLog t =>
      simp only [State.commit] at hw
      split at hw
      · next ht =>
        rcases List.mem_append.mp hw with hw | hw
        · exact Or.inl hw
        · rw [List.mem_singleton] at hw
          exact Or.inr ⟨t, ht, by rw [hw]⟩
      · exact Or.inl hw
    | _ => exact Or.inl hw
  | endCommit p => exact Or.inl hw

/-- A run whose steps all meet a condition. -/
def runUnder (Q : State P → Label P → Prop) [∀ s l, Decidable (Q s l)] (start size : Nat)
    (s : State P) (ls : List (Label P)) : Option (State P) :=
  ls.foldlM (fun s l => if Q s l then next start size s l else none) s

omit [Fintype P] in
theorem reachableUnder_run {Q : State P → Label P → Prop} [∀ s l, Decidable (Q s l)]
    (ls : List (Label P)) : ∀ {s s' : State P},
    ReachableUnder (logOps P start size) Q s → runUnder Q start size s ls = some s' →
    ReachableUnder (logOps P start size) Q s' := by
  refine ReachableUnder.foldlM (fun s l s₁ h => ?_) ls
  split at h
  · next hq => exact ⟨hq, h⟩
  · cases h

instance (k : Nat) (s : State P) : ∀ l, Decidable (OpBound k s l)
  | .log_write p b => inferInstanceAs (Decidable ((insert b (opBlocks s p)).card ≤ k))
  | .begin_op _ | .rouse _ | .checkTrans _ | .append _ | .end_op _ | .commit _ | .endCommit _ =>
    inferInstanceAs (Decidable True)

instance (size : Nat) (s : State P) : ∀ l, Decidable (Fits size s l)
  | .log_write _ _ => inferInstanceAs (Decidable ((groupBlocks s).card + 1 < size))
  | .append p =>
    match h : s.pc p with
    | .checked b =>
      decidable_of_iff ((insert b (groupBlocks s)).card < size) (by simp only [Fits, h])
    | .idle | .beginOp _ | .inOp | .sized _ | .commit _ => isTrue (by simp only [Fits, h])
  | .begin_op _ | .rouse _ | .checkTrans _ | .end_op _ | .commit _ | .endCommit _ =>
    inferInstanceAs (Decidable True)

/-- `log_write` of block `b` by `p`, step by step. -/
def logs (p : Fin 3) (b : Nat) : List (Label (Fin 3)) :=
  [.log_write p b, .checkTrans p, .append p]

/-- Three operations of ten blocks each: the last block does not get in. -/
def fullOps : List (Label (Fin 3)) :=
  [.begin_op 0, .begin_op 1, .begin_op 2] ++
  (List.range 10).flatMap (fun i => logs 0 (100 + i)) ++
  (List.range 10).flatMap (fun i => logs 1 (200 + i)) ++
  (List.range 9).flatMap (fun i => logs 2 (300 + i)) ++ [.log_write 2 309]

/-- The same, with the last two calls of `log_write` past the check together. -/
def racingOps : List (Label (Fin 3)) :=
  [.begin_op 0, .begin_op 1, .begin_op 2] ++
  (List.range 10).flatMap (fun i => logs 0 (100 + i)) ++
  (List.range 9).flatMap (fun i => logs 1 (200 + i)) ++
  (List.range 9).flatMap (fun i => logs 2 (300 + i)) ++
  [.log_write 1 209, .log_write 2 309, .checkTrans 1, .append 1, .checkTrans 2, .append 2,
   .end_op 0, .end_op 1, .end_op 2] ++ List.replicate 31 (.commit 2)

/-- Two operations that fit. -/
def fittingOps : List (Label (Fin 3)) :=
  [.begin_op 0, .begin_op 1] ++ logs 0 100 ++ logs 1 100 ++ logs 1 200 ++
  [.end_op 0, .end_op 1, .commit 1, .commit 1, .commit 1]

end Xv6.LogOps
