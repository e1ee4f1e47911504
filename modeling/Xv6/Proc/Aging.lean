import Xv6.Framework.SkipScan
import Xv6.Framework.Fifo
import Xv6.Proc.QueueInv

/-! # Adding, Removing and Aging

    What `add_proc_to_q`, `remove_proc_from_q` and the aging pass of the
    scheduler do to the queues as lists.

    Two loops do less than they seem to. The duplicate check of
    `add_proc_to_q` stops before the last entry, so a process that stands
    at the tail is added a second time. The aging loop advances its index
    also after it has removed an entry, so it never looks at the process
    behind one it has just promoted: it is `List.skipScan`.
-/

namespace Xv6.Process

open Function

namespace Table

variable {t t' : Table} {p : PIdx} {i q : Int}

/-! ### Adding to a queue -/

/-- The pids in queue `q` are pairwise distinct. -/
def DistinctPids (t : Table) (q : Int) : Prop :=
  ((t.queue q).toList.map (fun x => (t.proc x).pid)).Nodup

instance (t : Table) (q : Int) : Decidable (t.DistinctPids q) :=
  inferInstanceAs (Decidable (List.Nodup _))

/-- An entry of queue `q` has the pid of `p`. -/
def PidQueued (t : Table) (p : PIdx) (q : Int) : Prop :=
  ∃ x ∈ (t.queue q).toList, (t.proc x).pid = (t.proc p).pid

/-- `add_proc_to_q(p, q)` refuses a pid that is already queued and changes
    nothing, and appends any other; the pids stay distinct, and removing the
    process again restores the queue. -/
structure AddContract (t : Table) (p : PIdx) (q : Int) : Prop where
  refuses : t.PidQueued p q → t.add_proc_to_q p q = (t, -1)
  appends : ¬ t.PidQueued p q →
    (t.add_proc_to_q p q).2 = 1 ∧
    ((t.add_proc_to_q p q).1.queue q).toList = (t.queue q).toList ++ [p] ∧
    ((t.add_proc_to_q p q).1.proc p).queue = q ∧
    (t.add_proc_to_q p q).1.oob = t.oob
  distinct : (t.add_proc_to_q p q).1.DistinctPids q
  restores : (t.add_proc_to_q p q).2 = 1 →
    ((t.add_proc_to_q p q).1.remove_proc_from_q p q).2 = 1 ∧
    (((t.add_proc_to_q p q).1.remove_proc_from_q p q).1.queue q).toList = (t.queue q).toList

/-- The entries the duplicate check looks at: all but the last. -/
theorem add_proc_to_q_refused (hq : validLevel q)
    (h : ∃ x ∈ (t.queue q).toList.dropLast, (t.proc x).pid = (t.proc p).pid) :
    t.add_proc_to_q p q = (t, -1) := by
  obtain ⟨x, hx, hpid⟩ := h
  have hdup : (t.queue q).anyBeforeTail (fun x => decide ((t.proc p).pid = (t.proc x).pid)) =
      true := by
    rw [ArrayQueue.anyBeforeTail_eq, List.any_eq_true]
    exact ⟨x, hx, decide_eq_true hpid.symm⟩
  simp [add_proc_to_q, hdup, hq]

theorem add_proc_to_q_appended (hq : validLevel q) (hlt : (t.queue q).size < NPROC)
    (h : ¬ ∃ x ∈ (t.queue q).toList.dropLast, (t.proc x).pid = (t.proc p).pid) :
    t.add_proc_to_q p q =
      ({ t.modify p (fun pr => { pr with enter := t.ticks, queue := q }) with
          queue := update t.queue q ((t.queue q).push p)
          oob := t.oob }, 1) := by
  have hdup : (t.queue q).anyBeforeTail (fun x => decide ((t.proc p).pid = (t.proc x).pid)) =
      false := by
    rw [ArrayQueue.anyBeforeTail_eq, List.any_eq_false]
    intro x hx hpid
    exact h ⟨x, hx, (of_decide_eq_true hpid).symm⟩
  have hroom : (t.queue q).tail + 1 < NPROC := by
    unfold ArrayQueue.size at hlt
    omega
  simp [add_proc_to_q, hdup, hq, hroom]

/-- Pids do not change when a process is queued. -/
theorem pid_enqueued (t : Table) (p x : PIdx) (w : Word) (q : Int) :
    ((t.modify p (fun pr => { pr with enter := w, queue := q })).proc x).pid =
      (t.proc x).pid := by
  rw [proc_modify]
  split
  · next heq => rw [heq]
  · rfl

/-- **`add_proc_to_q` keeps queues duplicate-free** exactly as long as the
    process it is given does not stand at the tail already. -/
theorem add_proc_to_q_contract_iff {t : Table} {p : PIdx} {q : Int} (hq : validLevel q)
    (hge : -1 ≤ (t.queue q).tail) (hlt : (t.queue q).size < NPROC) (hd : t.DistinctPids q) :
    AddContract t p q ↔
      ∀ x, (t.queue q).toList.getLast? = some x → (t.proc x).pid ≠ (t.proc p).pid := by
  constructor
  · intro h x hx hpid
    -- the contract asks for a refusal, but no entry before the tail has the pid
    obtain ⟨l, hl⟩ := List.getLast?_eq_some_iff.mp hx
    have hrefuse := h.refuses ⟨x, by rw [hl]; simp, hpid⟩
    have hbefore : ¬ ∃ y ∈ (t.queue q).toList.dropLast, (t.proc y).pid = (t.proc p).pid := by
      rintro ⟨y, hy, hyp⟩
      unfold DistinctPids at hd
      rw [hl, List.dropLast_concat] at hy
      rw [hl, List.map_append, List.nodup_append] at hd
      exact hd.2.2 _ (List.mem_map_of_mem hy) _ (List.mem_map_of_mem (List.mem_singleton_self x))
        (hyp.trans hpid.symm)
    rw [add_proc_to_q_appended hq hlt hbefore] at hrefuse
    simp at hrefuse
  · intro hlast
    -- the entry the check leaves out does not matter
    have hcheck : t.PidQueued p q ↔
        ∃ x ∈ (t.queue q).toList.dropLast, (t.proc x).pid = (t.proc p).pid := by
      constructor
      · rintro ⟨x, hx, hpid⟩
        rcases List.eq_nil_or_concat' (t.queue q).toList with hnil | ⟨l, y, hl⟩
        · rw [hnil] at hx
          cases hx
        · rw [hl, List.mem_append, List.mem_singleton] at hx
          rcases hx with hin | rfl
          · exact ⟨x, by rw [hl, List.dropLast_concat]; exact hin, hpid⟩
          · exact absurd hpid (hlast x (by rw [hl, List.getLast?_concat]))
      · rintro ⟨x, hx, hpid⟩
        exact ⟨x, List.mem_of_mem_dropLast hx, hpid⟩
    by_cases hin : t.PidQueued p q
    · have heq := add_proc_to_q_refused (p := p) hq (hcheck.mp hin)
      refine ⟨fun _ => heq, fun hno => absurd hin hno, ?_, ?_⟩
      · rw [heq]
        exact hd
      · rw [heq]
        intro h
        simp at h
    · have heq := add_proc_to_q_appended hq hlt (fun h => hin (hcheck.mpr h))
      have hpush := (t.queue q).toList_push p hge
      refine ⟨fun h => absurd h hin, fun _ => ?_, ?_, fun _ => ?_⟩
      · rw [heq]
        simp [hpush]
      · rw [heq]
        unfold DistinctPids
        simp only [update_self, hpush, pid_enqueued, List.map_append, List.map_singleton]
        refine List.nodup_append.mpr ⟨hd, List.nodup_singleton _, ?_⟩
        intro a ha b hb hab
        obtain ⟨x, hx, rfl⟩ := List.mem_map.mp ha
        exact hin ⟨x, hx, hab.trans (List.mem_singleton.mp hb)⟩
      · rw [heq]
        simp only [remove_proc_from_q, pid_enqueued, update_self]
        cases hrem : ((t.queue q).push p).removeFirst
            (fun x => decide ((t.proc x).pid = (t.proc p).pid)) with
        | none =>
          have hno := (ArrayQueue.removeFirst_eq_none _ _).mp hrem p (by rw [hpush]; simp)
          simp at hno
        | some q' =>
          refine ⟨rfl, ?_⟩
          have hnone : ∀ x ∈ (t.queue q).toList,
              ¬ decide ((t.proc x).pid = (t.proc p).pid) = true := by
            intro x hx hpid
            exact hin ⟨x, hx, of_decide_eq_true hpid⟩
          simp only [update_self]
          rw [ArrayQueue.toList_removeFirst hrem, hpush, List.eraseP_append_right _ hnone]
          simp

/-- After `userinit` a process that is not queued can be added and removed. -/
theorem add_proc_to_q_contract_second : AddContract (boot.userinit 0 1 2) 1 0 :=
  (add_proc_to_q_contract_iff ⟨by decide, by decide⟩ (by decide) (by decide) (by decide)).mpr
    (by decide)

/-- The first process stands at the tail of queue 0 and is added again. -/
theorem add_proc_to_q_duplicates :
    ((boot.userinit 0 1 2).queue 0).toList = [0] ∧
    (boot.userinit 0 1 2).DistinctPids 0 ∧
    ((boot.userinit 0 1 2).add_proc_to_q 0 0).2 = 1 ∧
    (((boot.userinit 0 1 2).add_proc_to_q 0 0).1.queue 0).toList = [0, 0] ∧
    ¬ AddContract (boot.userinit 0 1 2) 0 0 := by
  refine ⟨by decide, by decide, by decide, by decide, fun h => ?_⟩
  have hrefuse := congrArg Prod.snd (h.refuses ⟨0, by decide, rfl⟩)
  revert hrefuse
  decide

/-! ### Aging -/

/-- `ticks - p->enter > 30`, computed as the scheduler does. -/
def starving (t : Table) (p : PIdx) : Bool := (t.ticks - (t.proc p).enter).toInt > 30

/-- `t'` is `t` after the processes `ps` have moved from level `i`, where
    `kept` is left, to the end of level `i - 1`. -/
structure Promotes (t t' : Table) (i : Int) (kept ps : List PIdx) : Prop where
  inv : QueueInv t' none
  upper : (t'.queue i).toList = kept
  lower : (t'.queue (i - 1)).toList = (t.queue (i - 1)).toList ++ ps
  other : ∀ j, j ≠ i → j ≠ i - 1 → t'.queue j = t.queue j
  stays : ∀ x, x ∉ ps → t'.proc x = t.proc x
  moves : ∀ x ∈ ps, t'.proc x = { t.proc x with enter := t.ticks, queue := i - 1 }
  ticks : t'.ticks = t.ticks

theorem Promotes.refl (h : QueueInv t none) (i : Int) : Promotes t t i (t.queue i).toList [] :=
  ⟨h, rfl, by simp, fun _ _ _ => rfl, fun _ _ => rfl, fun _ hx => by simp at hx, rfl⟩

theorem Promotes.trans {t'' : Table} {kept kept' ps ps' : List PIdx}
    (h : Promotes t t' i kept ps) (h' : Promotes t' t'' i kept' ps') (hd : ps.Disjoint ps') :
    Promotes t t'' i kept' (ps ++ ps') where
  inv := h'.inv
  upper := h'.upper
  lower := by rw [h'.lower, h.lower, List.append_assoc]
  other := fun j hj hj' => (h'.other j hj hj').trans (h.other j hj hj')
  stays := by
    intro x hx
    rw [List.mem_append, not_or] at hx
    rw [h'.stays x hx.2, h.stays x hx.1]
  moves := by
    intro x hx
    rcases List.mem_append.mp hx with hx | hx
    · rw [h'.stays x (fun hx' => hd hx hx'), h.moves x hx]
    · rw [h'.moves x hx, h.stays x (fun hx' => hd hx' hx), h.ticks]
  ticks := h'.ticks.trans h.ticks

/-- One promotion. -/
theorem promotes_one (h : QueueInv t none) (hi : validLevel i) (hi' : validLevel (i - 1))
    (hmem : p ∈ (t.queue i).toList) :
    Promotes t ((t.remove_proc_from_q p i).1.add_proc_to_q p (i - 1)).1 i
      ((t.queue i).toList.erase p) [p] := by
  have hr := ((h.mem_iff p i hi).mp hmem).1
  obtain ⟨q', heq, htl, _, hmove⟩ := remove_proc_from_q_spec h hi hmem
  have hadd := add_proc_to_q_spec hmove hr hi'
  have hne : i - 1 ≠ i := by omega
  rw [heq]
  refine ⟨hadd.2.1, ?_, ?_, ?_, ?_, ?_, ?_⟩
  · rw [add_proc_to_q_eq hmove hr hi']
    simp only [update_of_ne hne.symm, update_self, htl]
  · rw [hadd.2.2]
    simp only [update_of_ne hne]
  · intro j hj hj'
    rw [add_proc_to_q_eq hmove hr hi']
    simp only [update_of_ne hj', update_of_ne hj]
  · intro x hx
    have hxp : x ≠ p := by simpa using hx
    rw [add_proc_to_q_eq hmove hr hi']
    simp only [proc_modify_of_ne _ _ hxp]
  · intro x hx
    rw [List.mem_singleton.mp hx, add_proc_to_q_eq hmove hr hi']
    simp only [proc_modify_self]
  · rw [add_proc_to_q_eq hmove hr hi']
    rfl

theorem agingLoop_done {fuel j : Nat} (h : (t.queue i).size ≤ j) : agingLoop fuel t i j = t := by
  cases fuel with
  | zero => rfl
  | succ fuel =>
    have hno : ¬ (j : Int) ≤ (t.queue i).tail := by
      unfold ArrayQueue.size at h
      omega
    simp only [agingLoop, if_neg hno]

/-- The aging loop is a skipping scan of the entries from its index on. -/
theorem agingLoop_spec (hi : validLevel i) (hi' : validLevel (i - 1)) (fuel : Nat) :
    ∀ {t : Table} (pre rest : List PIdx), QueueInv t none →
    (t.queue i).toList = pre ++ rest → rest.length ≤ fuel →
    Promotes t (agingLoop fuel t i pre.length) i (pre ++ (rest.skipScan t.starving).1)
      (rest.skipScan t.starving).2 := by
  induction fuel with
  | zero =>
    intro t pre rest h hl hlen
    have hnil : rest = [] := List.eq_nil_of_length_eq_zero (Nat.le_zero.mp hlen)
    subst hnil
    simpa [agingLoop, List.skipScan, ← hl] using Promotes.refl h i
  | succ fuel ih =>
    intro t pre rest h hl hlen
    have hsize : (t.queue i).size = pre.length + rest.length := by
      rw [← ArrayQueue.length_toList, hl, List.length_append]
    cases rest with
    | nil =>
      rw [agingLoop_done (by simp [hsize])]
      simpa [List.skipScan, ← hl] using Promotes.refl h i
    | cons x xs =>
      have hj : (pre.length : Int) ≤ (t.queue i).tail := by
        unfold ArrayQueue.size at hsize
        simp only [List.length_cons] at hsize
        omega
      have hx : (t.queue i).slot pre.length = x := by
        rw [← ArrayQueue.getElem_toList _ _ (by rw [hl]; simp)]
        simp [hl]
      have hnd : (pre ++ x :: xs).Nodup := hl ▸ h.nodup i hi
      have hxpre : x ∉ pre := fun hin =>
        (List.nodup_append.mp hnd).2.2 x hin x List.mem_cons_self rfl
      have hxxs : x ∉ xs := (List.nodup_cons.mp (List.nodup_append.mp hnd).2.1).1
      simp only [agingLoop, if_pos hj, hx]
      by_cases hage : (t.ticks - (t.proc x).enter).toInt > 30
      · have hS : t.starving x = true := decide_eq_true hage
        have hone := promotes_one h hi hi' (p := x) (by rw [hl]; simp)
        have hrest : (((t.remove_proc_from_q x i).1.add_proc_to_q x (i - 1)).1.queue i).toList =
            pre ++ xs := by
          rw [hone.upper, hl, List.erase_append_right _ hxpre, List.erase_cons_head]
        rw [if_pos hage]
        generalize ((t.remove_proc_from_q x i).1.add_proc_to_q x (i - 1)).1 = u at hone hrest ⊢
        cases xs with
        | nil =>
          rw [agingLoop_done (by rw [← ArrayQueue.length_toList, hrest]; simp)]
          have hkept := hone.upper.symm.trans hrest
          simpa [List.skipScan, hS, hkept] using hone
        | cons y ys =>
          -- the next entry has moved down to the index just looked at
          have hsame : ∀ z ∈ ys, u.starving z = t.starving z := by
            intro z hz
            have hzx : z ∉ [x] := by
              rw [List.mem_singleton]
              rintro rfl
              exact hxxs (List.mem_cons_of_mem _ hz)
            unfold starving
            rw [hone.ticks, hone.stays z hzx]
          have hnext := ih (pre ++ [y]) ys hone.inv (by rw [hrest]; simp)
            (by simp only [List.length_cons] at hlen; omega)
          rw [List.skipScan_congr hsame, List.length_append, List.length_singleton] at hnext
          have hdis : [x].Disjoint (ys.skipScan t.starving).2 := by
            intro z hz hz'
            rw [List.mem_singleton.mp hz] at hz'
            exact hxxs (List.mem_cons_of_mem _ (List.mem_skipScan.mpr (Or.inr hz')))
          have hall := hone.trans hnext hdis
          rw [List.skipScan_cons_of_true y ys hS]
          simpa using hall
      · have hS : t.starving x = false := decide_eq_false hage
        have hnext := ih (pre ++ [x]) xs h (by rw [hl]; simp)
          (by simp only [List.length_cons] at hlen; omega)
        rw [List.length_append, List.length_singleton] at hnext
        rw [if_neg hage, List.skipScan_cons_of_false xs hS]
        simpa using hnext

/-! ### The whole pass -/

/-- What the loops over the levels 1 to `k` leave at level `i`, of the
    processes that were there. -/
def keptAt (t : Table) (k i : Int) : List PIdx :=
  if 1 ≤ i ∧ i ≤ k then ((t.queue i).toList.skipScan t.starving).1 else (t.queue i).toList

/-- What the loops over the levels 1 to `k` promote from level `i`. -/
def promotedAt (t : Table) (k i : Int) : List PIdx :=
  if 1 ≤ i ∧ i ≤ k then ((t.queue i).toList.skipScan t.starving).2 else []

/-- `t'` is `t` after the loops over the levels 1 to `k`. -/
structure AgedUpTo (t t' : Table) (k : Int) : Prop where
  inv : QueueInv t' none
  queues : ∀ i, validLevel i → (t'.queue i).toList = t.keptAt k i ++ t.promotedAt k (i + 1)
  stays : ∀ x, (∀ i, x ∉ t.promotedAt k i) → t'.proc x = t.proc x
  moves : ∀ i x, x ∈ t.promotedAt k i →
    t'.proc x = { t.proc x with enter := t.ticks, queue := i - 1 }
  ticks : t'.ticks = t.ticks

theorem mem_of_promotedAt {k : Int} (h : p ∈ t.promotedAt k i) :
    1 ≤ i ∧ i ≤ k ∧ p ∈ (t.queue i).toList ∧ t.starving p = true := by
  unfold promotedAt at h
  split at h
  · next hi =>
    exact ⟨hi.1, hi.2, List.mem_skipScan.mpr (Or.inr h), List.of_mem_skipScan_taken h⟩
  · simp at h

/-- A process is queued at one level only. -/
theorem QueueInv.level_unique (h : QueueInv t none) {j : Int} (hi : validLevel i)
    (hj : validLevel j) (hp : p ∈ (t.queue i).toList) (hp' : p ∈ (t.queue j).toList) : i = j :=
  ((h.mem_iff p i hi).mp hp).2.2.symm.trans ((h.mem_iff p j hj).mp hp').2.2

theorem agedUpTo_zero (h : QueueInv t none) : AgedUpTo t t 0 where
  inv := h
  queues := by
    intro i _
    have h1 : ¬ (1 ≤ i ∧ i ≤ 0) := by omega
    have h2 : ¬ (1 ≤ i + 1 ∧ i + 1 ≤ 0) := by omega
    rw [keptAt, if_neg h1, promotedAt, if_neg h2, List.append_nil]
  stays := fun _ _ => rfl
  moves := by
    intro i x hx
    obtain ⟨h1, h0, _⟩ := mem_of_promotedAt hx
    omega
  ticks := rfl

/-- The loop over the next level. -/
theorem AgedUpTo.next {k : Int} (h0 : QueueInv t none) (h : AgedUpTo t t' k) (hk : 0 ≤ k)
    (hk4 : k < 4) : AgedUpTo t (agingLoop NPROC t' (k + 1) 0) (k + 1) := by
  have hi : validLevel (k + 1) := ⟨by omega, by omega⟩
  have hi' : validLevel (k + 1 - 1) := ⟨by omega, by omega⟩
  -- level `k + 1` is still as it was
  have hl : (t'.queue (k + 1)).toList = (t.queue (k + 1)).toList := by
    have h1 : ¬ (1 ≤ k + 1 ∧ k + 1 ≤ k) := by omega
    have h2 : ¬ (1 ≤ k + 1 + 1 ∧ k + 1 + 1 ≤ k) := by omega
    rw [h.queues (k + 1) hi]
    rw [keptAt, if_neg h1, promotedAt, if_neg h2, List.append_nil]
  have hsame : ∀ x ∈ (t.queue (k + 1)).toList, t'.starving x = t.starving x := by
    intro x hx
    have hnot : ∀ i, x ∉ t.promotedAt k i := by
      intro i hxi
      obtain ⟨h1, hik, hmem, _⟩ := mem_of_promotedAt hxi
      have heq := h0.level_unique hi ⟨by omega, by omega⟩ hx hmem
      omega
    unfold starving
    rw [h.ticks, h.stays x hnot]
  have hlen : (t'.queue (k + 1)).toList.length ≤ NPROC := by
    have htail := h.inv.tail_lt hi
    rw [ArrayQueue.length_toList]
    unfold ArrayQueue.size
    omega
  have hloop := agingLoop_spec hi hi' NPROC [] (t'.queue (k + 1)).toList h.inv rfl hlen
  rw [hl, List.skipScan_congr hsame] at hloop
  simp only [List.nil_append, List.length_nil] at hloop
  -- what the loop takes out is `promotedAt`, what it leaves is `keptAt`
  have hin : 1 ≤ k + 1 ∧ k + 1 ≤ k + 1 := by omega
  have hps : ((t.queue (k + 1)).toList.skipScan t.starving).2 = t.promotedAt (k + 1) (k + 1) := by
    rw [promotedAt, if_pos hin]
  have hkept : ((t.queue (k + 1)).toList.skipScan t.starving).1 = t.keptAt (k + 1) (k + 1) := by
    rw [keptAt, if_pos hin]
  rw [hps, hkept] at hloop
  -- the other levels are as before
  have hprom : ∀ i, i ≠ k + 1 → t.promotedAt (k + 1) i = t.promotedAt k i := by
    intro i hne
    unfold promotedAt
    have hiff : (1 ≤ i ∧ i ≤ k + 1) ↔ (1 ≤ i ∧ i ≤ k) := by omega
    simp only [hiff]
  have hkeep : ∀ i, i ≠ k + 1 → t.keptAt (k + 1) i = t.keptAt k i := by
    intro i hne
    unfold keptAt
    have hiff : (1 ≤ i ∧ i ≤ k + 1) ↔ (1 ≤ i ∧ i ≤ k) := by omega
    simp only [hiff]
  refine ⟨hloop.inv, ?_, ?_, ?_, hloop.ticks.trans h.ticks⟩
  · intro i hiv
    by_cases hik : i = k + 1
    · subst hik
      have hnone : t.promotedAt (k + 1) (k + 1 + 1) = [] := by
        have hno : ¬ (1 ≤ k + 1 + 1 ∧ k + 1 + 1 ≤ k + 1) := by omega
        rw [promotedAt, if_neg hno]
      rw [hloop.upper, hnone, List.append_nil]
    · rw [hkeep i hik]
      by_cases hik' : i = k
      · subst hik'
        have hnone : t.promotedAt i (i + 1) = [] := by
          have hno : ¬ (1 ≤ i + 1 ∧ i + 1 ≤ i) := by omega
          rw [promotedAt, if_neg hno]
        have hlow := hloop.lower
        rw [Int.add_sub_cancel, h.queues i hiv, hnone, List.append_nil] at hlow
        exact hlow
      · rw [hloop.other i hik (by omega), h.queues i hiv, hprom (i + 1) (by omega)]
  · intro x hx
    have hold : ∀ i, x ∉ t.promotedAt k i := by
      intro i hxi
      by_cases hik : i = k + 1
      · obtain ⟨_, hle, _⟩ := mem_of_promotedAt hxi
        omega
      · exact hx i (by rw [hprom i hik]; exact hxi)
    rw [hloop.stays x (hx (k + 1)), h.stays x hold]
  · intro i x hx
    by_cases hik : i = k + 1
    · subst hik
      have hold : ∀ i, x ∉ t.promotedAt k i := by
        intro i hxi
        obtain ⟨h1, hle, hmem, _⟩ := mem_of_promotedAt hxi
        have heq := h0.level_unique hi ⟨by omega, by omega⟩ (mem_of_promotedAt hx).2.2.1 hmem
        omega
      rw [hloop.moves x hx, h.stays x hold, h.ticks]
    · have hx' : x ∉ t.promotedAt (k + 1) (k + 1) := by
        intro hmem
        obtain ⟨h1, hle, hmemi, _⟩ := mem_of_promotedAt hx
        exact hik (h0.level_unique ⟨by omega, by omega⟩ hi hmemi (mem_of_promotedAt hmem).2.2.1)
      rw [hprom i hik] at hx
      rw [hloop.stays x hx', h.moves i x hx]

theorem agedUpTo_aging (h : QueueInv t none) : AgedUpTo t t.aging 4 := by
  have h1 := (agedUpTo_zero h).next h (by decide) (by decide)
  have h2 := h1.next h (by decide) (by decide)
  have h3 := h2.next h (by decide) (by decide)
  exact h3.next h (by decide) (by decide)

/-- One aging pass promotes every starving process of the levels 1 to 4 and
    leaves every other process in its queue, and the processes that stay in
    a queue keep their order. -/
structure AgesAll (t : Table) : Prop where
  promotes : ∀ i p, 1 ≤ i → i ≤ 4 → p ∈ (t.queue i).toList → t.starving p = true →
    p ∈ (t.aging.queue (i - 1)).toList ∧ (t.aging.proc p).enter = t.ticks
  keeps : ∀ i p, validLevel i → p ∈ (t.queue i).toList → ¬ (1 ≤ i ∧ t.starving p = true) →
    p ∈ (t.aging.queue i).toList
  order : ∀ i, validLevel i →
    (t.aging.queue i).toList.filter (fun p => decide (p ∈ (t.queue i).toList)) =
      (t.queue i).toList.filter (fun p => decide (p ∈ (t.aging.queue i).toList))

theorem keptAt_sublist (t : Table) (k i : Int) : (t.keptAt k i).Sublist (t.queue i).toList := by
  unfold keptAt
  split
  · exact List.skipScan_kept_sublist _ _
  · exact .refl _

/-- What comes up from the level below was not in the queue before. -/
theorem not_mem_of_promotedAt (h : QueueInv t none) (hi : validLevel i)
    (hp : p ∈ t.promotedAt 4 (i + 1)) : p ∉ (t.queue i).toList := by
  intro hin
  obtain ⟨h1, h4, hmem, _⟩ := mem_of_promotedAt hp
  have heq := h.level_unique hi ⟨by omega, by omega⟩ hin hmem
  omega

/-- Whatever the pass promotes, the processes that stay keep their order. -/
theorem aging_order (h : QueueInv t none) (hi : validLevel i) :
    (t.aging.queue i).toList.filter (fun p => decide (p ∈ (t.queue i).toList)) =
      (t.queue i).toList.filter (fun p => decide (p ∈ (t.aging.queue i).toList)) := by
  have hsub := keptAt_sublist t 4 i
  have hq := (agedUpTo_aging h).queues i hi
  calc (t.aging.queue i).toList.filter (fun p => decide (p ∈ (t.queue i).toList))
      = (t.keptAt 4 i).filter (fun p => decide (p ∈ (t.queue i).toList)) ++
        (t.promotedAt 4 (i + 1)).filter (fun p => decide (p ∈ (t.queue i).toList)) := by
        rw [hq, List.filter_append]
    _ = t.keptAt 4 i ++ [] := by
        congr 1
        · rw [List.filter_eq_self]
          intro x hx
          exact decide_eq_true (hsub.subset hx)
        · rw [List.filter_eq_nil_iff]
          intro x hx
          simpa using not_mem_of_promotedAt h hi hx
    _ = (t.queue i).toList.filter (fun p => decide (p ∈ t.keptAt 4 i)) := by
        rw [List.append_nil, hsub.filter_mem (h.nodup i hi)]
    _ = (t.queue i).toList.filter (fun p => decide (p ∈ (t.aging.queue i).toList)) := by
        apply List.filter_congr
        intro x hx
        have hnot : x ∉ t.promotedAt 4 (i + 1) := fun hp => not_mem_of_promotedAt h hi hp hx
        rw [hq]
        simp [hnot]

/-- **Aging.** One pass promotes every starving process, and leaves every
    other process where it is, if and only if no two neighbours in one of
    the queues 1 to 4 are starving. -/
theorem aging_promotes_iff {t : Table} (h : QueueInv t none) :
    AgesAll t ↔ ∀ i, 1 ≤ i → i ≤ 4 → (t.queue i).toList.Apart t.starving := by
  have hag := agedUpTo_aging h
  constructor
  · intro hall i h1 h4
    have hi : validLevel i := ⟨by omega, by omega⟩
    have hi' : validLevel (i - 1) := ⟨by omega, by omega⟩
    apply List.apart_of_skipScan
    intro x hx
    by_contra hS
    -- `x` is left at level `i`, but must be at level `i - 1`
    have hmem : x ∈ (t.queue i).toList := List.mem_skipScan.mpr (Or.inl hx)
    have hup := (hall.promotes i x h1 h4 hmem (by simpa using hS)).1
    have hstay : x ∈ (t.aging.queue i).toList := by
      rw [hag.queues i hi, keptAt, if_pos ⟨h1, h4⟩]
      exact List.mem_append_left _ hx
    have heq := hag.inv.level_unique hi' hi hup hstay
    omega
  · intro hapart
    refine ⟨?_, ?_, fun i hi => aging_order h hi⟩
    · intro i p h1 h4 hp hS
      have hi' : validLevel (i - 1) := ⟨by omega, by omega⟩
      have hprom : p ∈ t.promotedAt 4 i := by
        rw [promotedAt, if_pos ⟨h1, h4⟩, List.skipScan_of_apart (hapart i h1 h4)]
        exact List.mem_filter.mpr ⟨hp, hS⟩
      refine ⟨?_, by rw [hag.moves i p hprom]⟩
      rw [hag.queues (i - 1) hi', Int.sub_add_cancel]
      exact List.mem_append_right _ hprom
    · intro i p hi hp hno
      rw [hag.queues i hi]
      apply List.mem_append_left
      unfold keptAt
      split
      · next hin =>
        rw [List.skipScan_of_apart (hapart i hin.1 hin.2)]
        refine List.mem_filter.mpr ⟨hp, ?_⟩
        have hS : ¬ t.starving p = true := fun hS => hno ⟨hin.1, hS⟩
        simpa using hS
      · exact hp

/-- Two processes in queue 1 that have been there since `e₀` and `e₁`. -/
def twoQueued (e₀ e₁ : Word) : Table :=
  { boot with
    proc := fun p =>
      if p = 0 then { zeroProc with state := .RUNNABLE, pid := 1, queue := 1, enter := e₀ }
      else if p = 1 then { zeroProc with state := .RUNNABLE, pid := 2, queue := 1, enter := e₁ }
      else zeroProc
    queue := fun i =>
      if i = 1 then { slot := fun n => if n = 0 then 0 else 1, tail := 1 }
      else { slot := fun _ => 0, tail := -1 }
    nextpid := 3
    ticks := 100 }

theorem queueInv_twoQueued (e₀ e₁ : Word) : QueueInv (twoQueued e₀ e₁) none := by
  have hlevels : ∀ i, validLevel i → i = 0 ∨ i = 1 ∨ i = 2 ∨ i = 3 ∨ i = 4 := by
    rintro i ⟨h0, h5⟩
    omega
  have hzero : QueueInv (twoQueued 0 0) none := by
    refine ⟨?_, ?_, ?_, ?_, rfl, by decide, by decide, by decide⟩
    · intro i hi
      rcases hlevels i hi with rfl | rfl | rfl | rfl | rfl <;> decide
    · intro i hi
      rcases hlevels i hi with rfl | rfl | rfl | rfl | rfl <;> decide
    · intro p i hi
      rcases hlevels i hi with rfl | rfl | rfl | rfl | rfl <;> revert p <;> decide
    · unfold Active
      decide
  -- the times are not part of the invariant
  refine hzero.congr rfl rfl rfl ?_ ?_ ?_
  all_goals
    intro p
    simp only [twoQueued]
    split
    · rfl
    · split <;> rfl

/-- One starving process is promoted. -/
theorem aging_promotes_one :
    AgesAll (twoQueued 0 100) ∧ ((twoQueued 0 100).aging.queue 0).toList = [0] ∧
    ((twoQueued 0 100).aging.queue 1).toList = [1] := by
  refine ⟨(aging_promotes_iff (queueInv_twoQueued 0 100)).mpr ?_, by decide, by decide⟩
  intro i h1 h4
  have hi : i = 1 ∨ i = 2 ∨ i = 3 ∨ i = 4 := by omega
  unfold List.Apart
  rcases hi with rfl | rfl | rfl | rfl <;> decide

/-- Of two starving neighbours only the first is promoted. -/
theorem aging_skips_neighbour :
    QueueInv (twoQueued 0 0) none ∧
    (twoQueued 0 0).starving 0 = true ∧ (twoQueued 0 0).starving 1 = true ∧
    ((twoQueued 0 0).aging.queue 0).toList = [0] ∧
    ((twoQueued 0 0).aging.queue 1).toList = [1] ∧
    ¬ AgesAll (twoQueued 0 0) := by
  refine ⟨queueInv_twoQueued 0 0, by decide, by decide, by decide, by decide, fun h => ?_⟩
  have hup := (h.promotes 1 1 (by decide) (by decide) (by decide) (by decide)).1
  revert hup
  decide

end Table

end Xv6.Process
