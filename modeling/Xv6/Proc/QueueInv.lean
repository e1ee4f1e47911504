import Xv6.Proc.System
import Mathlib.Data.Fintype.Card

/-! # The Queue Invariant

    A process is `RUNNABLE` exactly when it is in one of the feedback
    queues, and then it is there once, at its own level. This file states
    the invariant and shows that each function of `proc.c` keeps it.

    `QueueInv` has a parameter: the process that is being moved at this
    moment, which is `RUNNABLE` but not queued. Removing an entry starts a
    move and adding one ends it, so each operation is a move that begins and
    ends with nobody moving.

    The duplicate check of `add_proc_to_q` (which compares pids and skips
    the last entry) never fires: pids other than 0 are unique, and the
    process that is added is not queued.

    - `QueueInv.change`: an entry that is not queued may change
    - `Grows`: what enqueueing does to the queues
    - `Rouses`: what waking processes up does to the whole table
-/

namespace Xv6.Process

open Function

namespace Table

/-! ### The invariant -/

/-- A process that has been published and not yet reaped. -/
def Active (st : ProcState) : Prop := st ≠ .UNUSED ∧ st ≠ .EMBRYO

/-- The queues hold exactly the `RUNNABLE` processes other than `moving`. -/
structure QueueInv (t : Table) (moving : Option PIdx) : Prop where
  tail_ge : ∀ i, validLevel i → -1 ≤ (t.queue i).tail
  nodup : ∀ i, validLevel i → (t.queue i).toList.Nodup
  mem_iff : ∀ p i, validLevel i →
    (p ∈ (t.queue i).toList ↔
      (t.proc p).state = .RUNNABLE ∧ moving ≠ some p ∧ (t.proc p).queue = i)
  level : ∀ p, Active (t.proc p).state → moving ≠ some p → validLevel (t.proc p).queue
  inBounds : t.oob = false
  pid_inj : ∀ p q, (t.proc p).pid = (t.proc q).pid → (t.proc p).pid ≠ 0 → p = q
  pid_pos : ∀ p, (t.proc p).state ≠ .UNUSED → (t.proc p).pid ≠ 0
  pid_lt : ∀ p, (t.proc p).pid < t.nextpid

/-! ### Consequences -/

namespace QueueInv

variable {t t' : Table} {moving moving' : Option PIdx} {p : PIdx} {f : Proc → Proc} {sz : Nat}

theorem active_level (h : QueueInv t none) (ha : Active (t.proc p).state) :
    validLevel (t.proc p).queue :=
  h.level p ha (by simp)

/-- A queue has no more entries than the table. -/
theorem tail_lt (h : QueueInv t moving) {i : Int} (hi : validLevel i) :
    (t.queue i).tail ≤ NPROC - 1 := by
  have hcard := (h.nodup i hi).length_le_card
  rw [ArrayQueue.length_toList, Fintype.card_fin] at hcard
  have hge := h.tail_ge i hi
  unfold ArrayQueue.size at hcard
  omega

/-- The process being moved is in no queue. -/
theorem not_mem_of_moving (h : QueueInv t (some p)) {i : Int} (hi : validLevel i) :
    p ∉ (t.queue i).toList := by
  intro hmem
  exact ((h.mem_iff p i hi).mp hmem).2.1 rfl

/-- There is room in every queue for the process being moved. -/
theorem tail_lt_of_moving (h : QueueInv t (some p)) {i : Int} (hi : validLevel i) :
    (t.queue i).tail + 1 < NPROC := by
  have hnd : (p :: (t.queue i).toList).Nodup :=
    List.nodup_cons.mpr ⟨h.not_mem_of_moving hi, h.nodup i hi⟩
  have hcard := hnd.length_le_card
  rw [List.length_cons, ArrayQueue.length_toList, Fintype.card_fin] at hcard
  have hge := h.tail_ge i hi
  unfold ArrayQueue.size at hcard
  omega

/-- The invariant only reads the queues and the `state`, `queue` and `pid`
    of each entry. -/
theorem congr (h : QueueInv t moving) (hq : t'.queue = t.queue) (ho : t'.oob = t.oob)
    (hn : t'.nextpid = t.nextpid)
    (hst : ∀ p, (t'.proc p).state = (t.proc p).state)
    (hqu : ∀ p, (t'.proc p).queue = (t.proc p).queue)
    (hpid : ∀ p, (t'.proc p).pid = (t.proc p).pid) : QueueInv t' moving where
  tail_ge := by simpa only [hq] using h.tail_ge
  nodup := by simpa only [hq] using h.nodup
  mem_iff := by simpa only [hq, hst, hqu] using h.mem_iff
  level := by simpa only [hst, hqu] using h.level
  inBounds := ho.trans h.inBounds
  pid_inj := by simpa only [hpid] using h.pid_inj
  pid_pos := by simpa only [hst, hpid] using h.pid_pos
  pid_lt := by simpa only [hpid, hn] using h.pid_lt

/-- One entry changes, which is not queued before or after. It keeps its
    pid, gives it up, or gets the next one. -/
theorem change (h : QueueInv t moving) (hother : ∀ q, q ≠ p → t'.proc q = t.proc q)
    (hq : t'.queue = t.queue) (ho : t'.oob = t.oob) (hn : t.nextpid ≤ t'.nextpid)
    (hout : (t.proc p).state = .RUNNABLE → moving = some p)
    (hin : (t'.proc p).state = .RUNNABLE → moving' = some p)
    (hmv : ∀ q, q ≠ p → (moving = some q ↔ moving' = some q))
    (hlevel : Active (t'.proc p).state → moving' ≠ some p → validLevel (t'.proc p).queue)
    (hpid : (t'.proc p).pid = (t.proc p).pid ∨ (t'.proc p).pid = 0 ∨
      (t'.proc p).pid = t.nextpid ∧ t.nextpid < t'.nextpid)
    (hpos : (t'.proc p).state ≠ .UNUSED → (t'.proc p).pid ≠ 0) : QueueInv t' moving' := by
  -- no other entry has the pid
  have hself : ∀ r, r ≠ p → (t'.proc p).pid = (t.proc r).pid → (t'.proc p).pid = 0 := by
    intro r hr heq
    by_contra hne
    rcases hpid with hp | hp | ⟨hp, _⟩
    · exact hr (h.pid_inj p r (hp.symm.trans heq) (hp ▸ hne)).symm
    · exact hne hp
    · exact Nat.ne_of_lt (h.pid_lt r) (heq.symm.trans hp)
  refine ⟨hq ▸ h.tail_ge, hq ▸ h.nodup, fun q i hi => ?_, fun q => ?_, ho.trans h.inBounds,
    fun q r heq hne => ?_, fun q => ?_, fun q => ?_⟩
  · rw [hq, h.mem_iff q i hi]
    by_cases hqp : q = p
    · -- `p` is in no queue, and must not be
      subst hqp
      constructor
      · rintro ⟨hr, hm, _⟩
        exact absurd (hout hr) hm
      · rintro ⟨hr, hm, _⟩
        exact absurd (hin hr) hm
    · rw [hother q hqp, Ne, Ne, hmv q hqp]
  · by_cases hqp : q = p
    · subst hqp
      exact hlevel
    · rw [hother q hqp, Ne, ← hmv q hqp]
      exact h.level q
  · by_cases hqp : q = p <;> by_cases hrp : r = p
    · exact hqp.trans hrp.symm
    · rw [hqp, hother r hrp] at heq
      exact absurd (hself r hrp heq) (hqp ▸ hne)
    · rw [hrp, hother q hqp] at heq
      rw [hother q hqp] at hne
      exact absurd (heq.trans (hself q hqp heq.symm)) hne
    · rw [hother q hqp] at heq hne
      rw [hother r hrp] at heq
      exact h.pid_inj q r heq hne
  · by_cases hqp : q = p
    · subst hqp
      exact hpos
    · rw [hother q hqp]
      exact h.pid_pos q
  · by_cases hqp : q = p
    · subst hqp
      have hlt := h.pid_lt q
      rcases hpid with hp | hp | ⟨hp, hlt'⟩ <;> omega
    · rw [hother q hqp]
      exact Nat.lt_of_lt_of_le (h.pid_lt q) hn

theorem modify (h : QueueInv t moving) (hout : (t.proc p).state = .RUNNABLE → moving = some p)
    (hin : (f (t.proc p)).state = .RUNNABLE → moving' = some p)
    (hmv : ∀ q, q ≠ p → (moving = some q ↔ moving' = some q))
    (hlevel : Active (f (t.proc p)).state → moving' ≠ some p → validLevel (f (t.proc p)).queue)
    (hpid : (f (t.proc p)).pid = (t.proc p).pid ∨ (f (t.proc p)).pid = 0)
    (hpos : (f (t.proc p)).state ≠ .UNUSED → (f (t.proc p)).pid ≠ 0) :
    QueueInv (t.modify p f) moving' := by
  rw [← proc_modify_self t p f] at hin hlevel hpid hpos
  exact h.change (fun q hq => proc_modify_of_ne t f hq) rfl rfl (Nat.le_refl _) hout hin hmv
    hlevel (hpid.imp_right Or.inl) hpos

/-- An entry that is not `RUNNABLE` is given back. -/
theorem drop (h : QueueInv t none) (hs : (t.proc p).state ≠ .RUNNABLE)
    (hu : (f (t.proc p)).state = .UNUSED)
    (hpid : (f (t.proc p)).pid = (t.proc p).pid ∨ (f (t.proc p)).pid = 0) :
    QueueInv (t.modify p f) none :=
  h.modify (fun hr => absurd hr hs) (by simp [hu]) (fun _ _ => Iff.rfl)
    (fun ha => absurd hu ha.1) hpid (fun hne => absurd hu hne)

/-- A process that was not `RUNNABLE` becomes so and starts to move. -/
theorem start (h : QueueInv t none) (hs : (t.proc p).state ≠ .RUNNABLE)
    (hpid : (f (t.proc p)).pid = (t.proc p).pid) (hpos : (t.proc p).pid ≠ 0) :
    QueueInv (t.modify p f) (some p) := by
  refine h.modify (fun hr => absurd hr hs) (fun _ => rfl) ?_ (fun _ hne => absurd rfl hne)
    (Or.inl hpid) (fun _ => hpid ▸ hpos)
  intro q hq
  simp [Ne.symm hq]

/-- Changes to an entry that the queues do not see. -/
theorem modifyOther (h : QueueInv t moving) (hst : (f (t.proc p)).state = (t.proc p).state)
    (hqu : (f (t.proc p)).queue = (t.proc p).queue) (hpid : (f (t.proc p)).pid = (t.proc p).pid) :
    QueueInv (t.modify p f) moving := by
  refine h.congr rfl rfl rfl ?_ ?_ ?_
  all_goals
    intro q
    by_cases hq : q = p
    · subst hq
      simp [hst, hqu, hpid]
    · simp [hq]

end QueueInv

/-! ### Adding and removing -/

variable {t t' u : Table} {p : PIdx} {i : Int}

/-- The duplicate check and the array bound do not interfere with adding
    the process being moved. -/
theorem add_proc_to_q_eq (h : QueueInv t (some p)) (hr : (t.proc p).state = .RUNNABLE)
    (hi : validLevel i) :
    t.add_proc_to_q p i =
      ({ t.modify p (fun pr => { pr with enter := t.ticks, queue := i }) with
          queue := update t.queue i ((t.queue i).push p)
          oob := false }, 1) := by
  have hpos : (t.proc p).pid ≠ 0 := by
    apply h.pid_pos
    rw [hr]
    decide
  have hdup : (t.queue i).anyBeforeTail
      (fun x => decide ((t.proc p).pid = (t.proc x).pid)) = false := by
    rw [ArrayQueue.anyBeforeTail_eq, List.any_eq_false]
    intro x hx hxp
    have hpx := h.pid_inj p x (of_decide_eq_true hxp) hpos
    exact h.not_mem_of_moving hi (hpx ▸ List.mem_of_mem_dropLast hx)
  have hroom := h.tail_lt_of_moving hi
  simp [add_proc_to_q, hdup, hi, hroom, h.inBounds]

/-- Adding the process being moved puts it at the end of the queue and ends
    the move. -/
theorem add_proc_to_q_spec (h : QueueInv t (some p)) (hr : (t.proc p).state = .RUNNABLE)
    (hi : validLevel i) :
    (t.add_proc_to_q p i).2 = 1 ∧ QueueInv (t.add_proc_to_q p i).1 none ∧
    ((t.add_proc_to_q p i).1.queue i).toList = (t.queue i).toList ++ [p] := by
  have hnot := h.not_mem_of_moving hi
  have hpos : (t.proc p).pid ≠ 0 := by
    apply h.pid_pos
    rw [hr]
    decide
  have hpush := (t.queue i).toList_push p (h.tail_ge i hi)
  rw [add_proc_to_q_eq h hr hi]
  refine ⟨rfl, ?_, ?_⟩
  · have hmod : QueueInv (t.modify p (fun pr => { pr with enter := t.ticks, queue := i }))
        (some p) :=
      h.modify (fun _ => rfl) (fun _ => rfl) (fun _ _ => Iff.rfl) (fun _ _ => hi)
        (Or.inl rfl) (fun _ => hpos)
    refine { hmod with
      tail_ge := ?_, nodup := ?_, mem_iff := ?_, level := ?_, inBounds := rfl }
    · intro j hj
      by_cases hji : j = i
      · subst hji
        have hge := h.tail_ge j hj
        simp only [update_self, ArrayQueue.push]
        omega
      · simpa only [update_of_ne hji] using h.tail_ge j hj
    · intro j hj
      by_cases hji : j = i
      · subst hji
        simp only [update_self, hpush]
        exact (h.nodup j hj).append (List.nodup_singleton p)
          (by simpa using hnot)
      · simpa only [update_of_ne hji] using h.nodup j hj
    · intro q j hj
      have hold := hmod.mem_iff q j hj
      by_cases hqp : q = p
      · subst hqp
        by_cases hji : j = i
        · subst hji
          simp [hpush, hr]
        · have hno : ¬ i = j := fun hij => hji hij.symm
          simp only [update_of_ne hji, proc_modify_self, hno, and_false, iff_false]
          intro hmem
          exact (hold.mp hmem).2.1 rfl
      · have hne : some p ≠ some q := by simpa using Ne.symm hqp
        simp only [hne, ne_eq, not_false_eq_true, true_and] at hold
        by_cases hji : j = i
        · subst hji
          simp only [update_self, hpush, List.mem_append, List.mem_singleton, hqp,
            or_false, reduceCtorEq, not_false_eq_true, ne_eq, true_and]
          exact hold
        · simp only [update_of_ne hji, reduceCtorEq, not_false_eq_true, ne_eq, true_and]
          exact hold
    · intro q ha _
      by_cases hqp : q = p
      · subst hqp
        simpa using hi
      · exact hmod.level q ha (by simpa using Ne.symm hqp)
  · simp [hpush]

/-- Removing a queued process takes it out of its queue and starts a move. -/
theorem remove_proc_from_q_spec (h : QueueInv t none) (hi : validLevel i)
    (hmem : p ∈ (t.queue i).toList) :
    ∃ q', t.remove_proc_from_q p i = ({ t with queue := update t.queue i q' }, 1) ∧
      q'.toList = (t.queue i).toList.erase p ∧ q'.tail = (t.queue i).tail - 1 ∧
      QueueInv { t with queue := update t.queue i q' } (some p) := by
  obtain ⟨hr, _, hlev⟩ := (h.mem_iff p i hi).mp hmem
  have hpos : (t.proc p).pid ≠ 0 := by
    apply h.pid_pos
    rw [hr]
    decide
  -- only `p` itself has its pid
  have hpid : ∀ x, decide ((t.proc x).pid = (t.proc p).pid) = (x == p) := by
    intro x
    by_cases hxp : x = p
    · simp [hxp]
    · have hne : (t.proc x).pid ≠ (t.proc p).pid := fun heq =>
        hxp (h.pid_inj p x heq.symm hpos).symm
      simp [hxp, hne]
  cases hrem : (t.queue i).removeFirst (fun x => decide ((t.proc x).pid = (t.proc p).pid)) with
  | none =>
    have hno := (ArrayQueue.removeFirst_eq_none _ _).mp hrem p hmem
    simp at hno
  | some q' =>
    have htl : q'.toList = (t.queue i).toList.erase p := by
      rw [ArrayQueue.toList_removeFirst hrem, List.erase_eq_eraseP]
      congr 1
      funext x
      rw [hpid x, Bool.beq_comm]
    have htail := ArrayQueue.tail_removeFirst hrem
    refine ⟨q', ?_, htl, htail, ?_⟩
    · simp [remove_proc_from_q, hrem, hi]
    · refine { h with
        tail_ge := ?_, nodup := ?_, mem_iff := ?_, level := fun q ha _ => h.active_level ha }
      · intro j hj
        by_cases hji : j = i
        · subst hji
          have hlen : 0 < (t.queue j).toList.length := List.length_pos_of_mem hmem
          rw [ArrayQueue.length_toList] at hlen
          unfold ArrayQueue.size at hlen
          simp only [update_self]
          omega
        · simpa only [update_of_ne hji] using h.tail_ge j hj
      · intro j hj
        by_cases hji : j = i
        · subst hji
          simp only [update_self, htl]
          exact (h.nodup j hj).erase p
        · simpa only [update_of_ne hji] using h.nodup j hj
      · intro q j hj
        have hold := h.mem_iff q j hj
        simp only [ne_eq, reduceCtorEq, not_false_eq_true, true_and] at hold
        by_cases hji : j = i
        · subst hji
          simp only [update_self, htl, (h.nodup j hj).mem_erase_iff, hold]
          constructor
          · rintro ⟨hqp, hrq, hlq⟩
            exact ⟨hrq, fun heq => hqp (Option.some.inj heq).symm, hlq⟩
          · rintro ⟨hrq, hpq, hlq⟩
            exact ⟨fun heq => hpq (congrArg some heq.symm), hrq, hlq⟩
        · simp only [update_of_ne hji, hold]
          constructor
          · rintro ⟨hrq, hlq⟩
            refine ⟨hrq, fun heq => ?_, hlq⟩
            rw [← Option.some.inj heq] at hlq
            exact hji (hlq.symm.trans hlev)
          · rintro ⟨hrq, _, hlq⟩
            exact ⟨hrq, hlq⟩

/-- Removing a process that is not queued changes nothing. -/
theorem remove_proc_from_q_of_not_mem (h : QueueInv t none) (hi : validLevel i)
    (hpos : (t.proc p).pid ≠ 0) (hnot : p ∉ (t.queue i).toList) :
    t.remove_proc_from_q p i = (t, -1) := by
  have hrem : (t.queue i).removeFirst (fun x => decide ((t.proc x).pid = (t.proc p).pid)) =
      none := by
    rw [ArrayQueue.removeFirst_eq_none]
    intro x hx
    have hne : (t.proc x).pid ≠ (t.proc p).pid := by
      intro heq
      exact hnot (h.pid_inj p x heq.symm hpos ▸ hx)
    simp [hne]
  simp [remove_proc_from_q, hrem, hi]

/-! ### Enqueueing -/

/-- Each queue of `t'` is that of `t` with new entries behind it. -/
def Grows (t t' : Table) : Prop :=
  ∀ i, validLevel i → ∃ new, (t'.queue i).toList = (t.queue i).toList ++ new ∧
    ∀ x ∈ new, x ∉ (t.queue i).toList

namespace Grows

theorem of_eq (h : t'.queue = t.queue) : Grows t t' := by
  intro i _
  exact ⟨[], by simp [h], by simp⟩

theorem trans (h : Grows t t') (h' : Grows t' u) : Grows t u := by
  intro i hi
  obtain ⟨new, heq, hnew⟩ := h i hi
  obtain ⟨new', heq', hnew'⟩ := h' i hi
  refine ⟨new ++ new', by rw [heq', heq, List.append_assoc], ?_⟩
  intro x hx hin
  rcases List.mem_append.mp hx with hx | hx
  · exact hnew x hx hin
  · exact hnew' x hx (by rw [heq]; exact List.mem_append_left _ hin)

end Grows

/-- Adding the process being moved. -/
theorem enqueued_add (h : QueueInv t (some p)) (hr : (t.proc p).state = .RUNNABLE)
    (hi : validLevel i) :
    QueueInv (t.add_proc_to_q p i).1 none ∧ Grows t (t.add_proc_to_q p i).1 := by
  have hspec := add_proc_to_q_spec h hr hi
  refine ⟨hspec.2.1, fun j hj => ?_⟩
  by_cases hji : j = i
  · subst hji
    exact ⟨[p], hspec.2.2, by simpa using h.not_mem_of_moving hj⟩
  · refine ⟨[], ?_, by simp⟩
    rw [add_proc_to_q_eq h hr hi]
    simp only [update_of_ne hji, List.append_nil]

theorem enqueued_publish (h : QueueInv t none) (he : (t.proc p).state = .EMBRYO) :
    QueueInv (t.publish p) none ∧ Grows t (t.publish p) := by
  have hstart : QueueInv (t.modify p (fun pr => { pr with state := .RUNNABLE })) (some p) :=
    h.start (by simp [he]) rfl (h.pid_pos p (by simp [he]))
  exact enqueued_add hstart (by simp) ⟨by decide, by decide⟩

/-- `add_proc_to_q` touches one entry, and of that only `queue` and `enter`. -/
theorem add_proc_to_q_proc (t : Table) (p : PIdx) (i : Int) :
    ∃ enter q, (q = i ∨ q = (t.proc p).queue) ∧ (t.add_proc_to_q p i).1.proc =
      (t.modify p (fun pr => { pr with enter := enter, queue := q })).proc := by
  unfold add_proc_to_q
  split
  · exact ⟨(t.proc p).enter, (t.proc p).queue, Or.inr rfl, by simp [modify]⟩
  · exact ⟨t.ticks, i, Or.inl rfl, rfl⟩

/-! ### Waking up -/

/-- An entry before and after processes were woken up, children passed on
    or a size was broadcast. -/
inductive Roused (pr : Proc) : Proc → Prop where
  | same (parent : Option PIdx) (sz : Nat) : Roused pr { pr with parent := parent, sz := sz }
  | woken (parent : Option PIdx) (sz : Nat) (enter : Word) (hs : pr.state = .SLEEPING) :
      Roused pr { pr with
        parent := parent, sz := sz, state := .RUNNABLE, curr_ticks := 0, enter := enter }

/-- Some entries of `t` were woken up; with `own`, no child was passed on. -/
structure Rouses (own : Prop) (t t' : Table) : Prop extends QueueFrame t t' where
  proc : ∀ p, Roused (t.proc p) (t'.proc p)
  parent : own → ∀ p, (t'.proc p).parent = (t.proc p).parent
  queues : QueueInv t none → QueueInv t' none ∧ Grows t t'

theorem Roused.refl (pr : Proc) : Roused pr pr := .same pr.parent pr.sz

theorem Roused.trans {pr pr' pr'' : Proc} (h : Roused pr pr') (h' : Roused pr' pr'') :
    Roused pr pr'' := by
  cases h with
  | same =>
    cases h' with
    | same parent sz => exact .same parent sz
    | woken parent sz enter hs => exact .woken parent sz enter hs
  | woken _ _ enter hs =>
    cases h' with
    | same parent sz => exact .woken parent sz enter hs
    | woken _ _ _ hs' => cases hs'

/-- Waking up does not stop a process that runs. -/
theorem Roused.running {pr pr' : Proc} (h : Roused pr pr') (hr : pr.state = .RUNNING) :
    pr'.state = .RUNNING := by
  cases h with
  | same => exact hr
  | woken _ _ _ hs =>
    rw [hr] at hs
    cases hs

namespace Rouses

variable {own : Prop}

theorem refl (t : Table) : Rouses own t t :=
  ⟨.refl t, fun _ => .refl _, fun _ _ => rfl, fun h => ⟨h, .of_eq rfl⟩⟩

theorem trans (h : Rouses own t t') (h' : Rouses own t' u) : Rouses own t u where
  toQueueFrame := h.toQueueFrame.trans h'.toQueueFrame
  proc := fun p => (h.proc p).trans (h'.proc p)
  parent := fun ho p => (h'.parent ho p).trans (h.parent ho p)
  queues := by
    intro hq
    obtain ⟨hmid, hgrow⟩ := h.queues hq
    obtain ⟨hlast, hgrow'⟩ := h'.queues hmid
    exact ⟨hlast, hgrow.trans hgrow'⟩

theorem foldl {α : Type} {f : Table → α → Table} (hf : ∀ t a, Rouses own t (f t a))
    (xs : List α) (t : Table) : Rouses own t (xs.foldl f t) := by
  induction xs generalizing t with
  | nil => exact .refl t
  | cons a xs ih => exact (hf t a).trans (ih (f t a))

/-- An entry is passed on, or gets a new size. -/
theorem modify (t : Table) (p : PIdx) {parent : Option PIdx}
    (hf : f (t.proc p) = { t.proc p with parent := parent, sz := sz })
    (hpar : own → parent = (t.proc p).parent) : Rouses own t (t.modify p f) := by
  refine ⟨⟨rfl, rfl, rfl, rfl, rfl, rfl, rfl⟩, fun q => ?_, fun ho q => ?_, fun h => ⟨?_, ?_⟩⟩
  · rw [proc_modify]
    split
    · next heq =>
      rw [heq, hf]
      exact .same parent sz
    · exact .refl _
  · rw [proc_modify]
    split
    · next heq => rw [heq, hf, hpar ho]
    · rfl
  · exact h.modifyOther (by rw [hf]) (by rw [hf]) (by rw [hf])
  · exact .of_eq rfl

end Rouses

section Waking

variable {own : Prop}

/-- A sleeping process, about to be enqueued. -/
theorem QueueInv.waking (h : QueueInv t none) (hs : (t.proc p).state = .SLEEPING) :
    QueueInv (t.modify p (fun pr => { pr with state := .RUNNABLE, curr_ticks := 0 })) (some p) :=
  h.start (by simp [hs]) rfl (h.pid_pos p (by simp [hs]))

theorem rouses_enqueueWoken (t : Table) (hs : (t.proc p).state = .SLEEPING) :
    Rouses own t (t.enqueueWoken p) := by
  have hproc : ∀ q, Roused (t.proc q) ((t.enqueueWoken p).proc q) ∧
      ((t.enqueueWoken p).proc q).parent = (t.proc q).parent := by
    intro q
    unfold enqueueWoken
    obtain ⟨enter, i, hi, heq⟩ := add_proc_to_q_proc
      (t.modify p (fun pr => { pr with state := .RUNNABLE, curr_ticks := 0 })) p
      ((t.modify p (fun pr => { pr with state := .RUNNABLE, curr_ticks := 0 })).proc p).queue
    rw [heq, modify_modify, proc_modify]
    split
    · next hq =>
      -- it is enqueued at its own level
      subst hq
      rw [or_self, proc_modify_self] at hi
      subst hi
      exact ⟨.woken _ _ enter hs, rfl⟩
    · exact ⟨.refl _, rfl⟩
  have hf := queueFrame_add (t.modify p (fun pr => { pr with state := .RUNNABLE, curr_ticks := 0 }))
    p (t.proc p).queue
  refine ⟨?_, fun q => (hproc q).1, fun _ q => (hproc q).2, fun h => ?_⟩
  · unfold enqueueWoken
    simp only [proc_modify_self]
    exact ⟨hf.cpu, hf.kont, hf.inTimer, hf.initproc, hf.nextpid, hf.nexttgid, hf.ticks⟩
  · have hlevel : validLevel (t.proc p).queue := h.active_level (by simp [hs, Active])
    unfold enqueueWoken
    simp only [proc_modify_self]
    exact enqueued_add (h.waking hs) (by simp) hlevel

theorem rouses_wakeupOne (chan : Option Chan) (t : Table) (p : PIdx) :
    Rouses own t (wakeupOne chan t p) := by
  unfold wakeupOne
  split
  · next h => exact rouses_enqueueWoken t h.1
  · exact .refl t

theorem rouses_wakeup1 (t : Table) (chan : Option Chan) : Rouses own t (t.wakeup1 chan) :=
  Rouses.foldl (rouses_wakeupOne chan) _ t

theorem rouses_abandonChildren (t : Table) (c : PIdx) :
    Rouses False t (t.abandonChildren c) := by
  refine (rouses_wakeup1 t _).trans (Rouses.foldl (fun t p => ?_) _ _)
  unfold reparentOne
  split
  · have hmod : Rouses False t (t.modify p (fun pr => { pr with parent := t.initproc })) :=
      Rouses.modify t p rfl False.elim
    simp only
    split
    · exact hmod.trans (rouses_wakeup1 _ _)
    · exact hmod
  · exact .refl t

end Waking

/-! ### New entries -/

/-- A fresh entry takes the next pid, which no entry has. -/
theorem queueInv_takeEntry (h : QueueInv t none) (hu : (t.proc p).state = .UNUSED) :
    QueueInv (t.takeEntry p) none := by
  have hself : (t.takeEntry p).proc p =
      { t.proc p with state := .EMBRYO, pid := t.nextpid, tgid := t.nexttgid } := by
    simp [takeEntry]
  refine h.change (p := p) (fun q hq => ?_) rfl rfl (Nat.le_succ _) (by simp [hu]) ?_
    (fun _ _ => Iff.rfl) ?_ ?_ ?_
  · simp [takeEntry, hq]
  · simp [hself]
  · simp [hself, Active]
  · exact Or.inr (Or.inr ⟨by rw [hself], Nat.lt_succ_self _⟩)
  · have hlt := h.pid_lt p
    rw [hself]
    exact fun _ => Nat.ne_of_gt (Nat.lt_of_le_of_lt (Nat.zero_le _) hlt)

/-! ### Reaping -/

/-- A `ZOMBIE` is in no queue, so `remove_proc_from_q` finds nothing. -/
theorem dropFromQueue_eq (h : QueueInv t none) (hz : (t.proc p).state = .ZOMBIE) :
    (t.modify p (fun pr => { pr with kstack := none })).dropFromQueue p =
      t.modify p (fun pr => { pr with kstack := none, queue := -1 }) := by
  have hlevel := h.active_level (p := p) (by simp [hz, Active])
  have hnot : p ∉ (t.queue (t.proc p).queue).toList := by
    rw [h.mem_iff p _ hlevel, hz]
    simp
  have hmod : QueueInv (t.modify p (fun pr => { pr with kstack := none })) none :=
    h.modifyOther rfl rfl rfl
  unfold dropFromQueue
  rw [remove_proc_from_q_of_not_mem hmod (by simpa using hlevel)
    (by simpa using h.pid_pos p (by simp [hz])) (by simpa using hnot), modify_modify]

theorem waitReap_eq (h : QueueInv t none) (hz : (t.proc p).state = .ZOMBIE) :
    t.waitReap p = t.modify p (fun pr =>
      { pr with
        kstack := none
        queue := -1
        pid := 0
        tgid := 0
        parent := none
        killed := false
        state := .UNUSED }) := by
  unfold waitReap
  simp only
  rw [dropFromQueue_eq h hz, modify_modify]

theorem waitxReap_eq (h : QueueInv t none) (hz : (t.proc p).state = .ZOMBIE) :
    t.waitxReap p = t.modify p (fun pr =>
      { pr with
        kstack := none
        queue := -1
        pid := 0
        parent := none
        killed := false
        state := .UNUSED }) := by
  unfold waitxReap
  simp only
  rw [dropFromQueue_eq h hz, modify_modify]

/-! ### The scheduler -/

theorem mem_of_pick (hp : t.pick = some (p, i)) :
    validLevel i ∧ p ∈ (t.queue i).toList := by
  unfold pick at hp
  obtain ⟨j, hj, heq⟩ := Option.map_eq_some_iff.mp hp
  simp only [Prod.mk.injEq] at heq
  obtain ⟨hslot, rfl⟩ := heq
  have htail := List.find?_some hj
  have hmem := List.mem_of_find?_eq_some hj
  simp only [decide_eq_true_eq] at htail
  refine ⟨?_, hslot ▸ ArrayQueue.slot_mem_toList _ (by simpa using htail)⟩
  simp only [List.mem_cons, List.not_mem_nil, or_false] at hmem
  rcases hmem with rfl | rfl | rfl | rfl | rfl <;> exact ⟨by decide, by decide⟩

/-- The process at the head of a queue is `RUNNABLE`. -/
theorem runnable_of_pick (h : QueueInv t none) (hp : t.pick = some (p, i)) :
    (t.proc p).state = .RUNNABLE := by
  obtain ⟨hi, hmem⟩ := mem_of_pick hp
  exact ((h.mem_iff p i hi).mp hmem).1

/-! ### `growproc` and `exec` -/

/-- `growproc`'s loop over the table changes sizes only. -/
theorem broadcastOne_cases {pgdir : Option Page} (hb : broadcastOne pgdir sz t p = .ok t') :
    t' = t ∨ t' = t.modify p (fun pr => { pr with sz := sz }) := by
  unfold broadcastOne at hb
  split at hb
  · simp only [Except.ok.injEq] at hb
    exact Or.inl hb.symm
  · simp only at hb
    cases hsw : switchuvm ((t.modify p (fun pr => { pr with sz := sz })).proc p) with
    | error e =>
      rw [hsw] at hb
      cases hb
    | ok u =>
      rw [hsw] at hb
      simp only [Except.map, Except.ok.injEq] at hb
      exact Or.inr hb.symm

/-- A property that changing a size keeps is kept by `growproc`'s loop. -/
theorem broadcast_induction {P : Table → Prop} {pgdir : Option Page}
    (hP : ∀ t p, P t → P (t.modify p (fun pr => { pr with sz := sz })))
    (l : List PIdx) (h : P t) (hb : l.foldlM (broadcastOne pgdir sz) t = .ok t') : P t' := by
  induction l generalizing t with
  | nil =>
    simp only [List.foldlM_nil, pure, Except.pure, Except.ok.injEq] at hb
    exact hb ▸ h
  | cons p l ih =>
    rw [List.foldlM_cons] at hb
    cases hone : broadcastOne pgdir sz t p with
    | error e =>
      rw [hone] at hb
      cases hb
    | ok t₁ =>
      rw [hone] at hb
      refine ih ?_ hb
      rcases broadcastOne_cases hone with rfl | rfl
      · exact h
      · exact hP t p h

theorem setSize_induction {P : Table → Prop} {c : PIdx}
    (hP : ∀ t p, P t → P (t.modify p (fun pr => { pr with sz := sz })))
    (h : P t) (hs : t.setSize c sz = .ok t') : P t' := by
  simp only [setSize, bind, Except.bind] at hs
  split at hs
  · cases hs
  · next t₁ hb =>
    have h₁ := broadcast_induction hP _ (hP t c h) hb
    split at hs
    · cases hs
    · simp only [pure, Except.pure, Except.ok.injEq] at hs
      exact hs ▸ h₁

theorem execCommit_eq {c : PIdx} {img : ExecImage} (he : t.execCommit c img = .ok t') :
    t' = t.modify c (fun pr =>
      { pr with
        pgdir := some img.pgdir
        sz := img.sz
        tf := { pr.tf with eip := img.eip, esp := img.esp } }) := by
  unfold execCommit at he
  simp only at he
  cases hsw : switchuvm ((t.modify c (fun pr =>
      { pr with
        pgdir := some img.pgdir
        sz := img.sz
        tf := { pr.tf with eip := img.eip, esp := img.esp } })).proc c) with
  | error e =>
    rw [hsw] at he
    cases he
  | ok u =>
    rw [hsw] at he
    simp only [Except.map, Except.ok.injEq] at he
    exact he.symm

end Table

end Xv6.Process
