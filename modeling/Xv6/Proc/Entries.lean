import Xv6.Proc.Levels

/-! # Kernel Stacks and Page Directories

    An active process has a kernel stack and a page directory, so
    `switchuvm` does not panic on it.
-/

namespace Xv6.Process

open LTS

namespace Table

variable {t t' : Table} {p : PIdx} {l : Label}

/-- Every active process has a kernel stack and a page directory, and so
    does an entry under construction from the point on where it is given
    them. -/
structure BackedInv (t : Table) : Prop where
  active : ∀ p, Active (t.proc p).state → (t.proc p).kstack ≠ none ∧ (t.proc p).pgdir ≠ none
  stacked : ∀ c np, (t.kont c).made = some np → (t.proc np).kstack ≠ none
  filled : ∀ c np, (t.kont c).filled = some np → (t.proc np).pgdir ≠ none

/-- An active process stays backed. -/
theorem EntryChange.backed {pr : Proc} {b : Bool} (h : BackedInv t)
    (he : EntryChange t p l pr b) (ha : Active pr.state) : pr.kstack ≠ none ∧ pr.pgdir ≠ none := by
  cases he with
  | roused _ _ hro | ticked hro | killed _ hro =>
    have hold := h.active p (hro.active_iff.mp ha)
    cases hro <;> exact hold
  | aged _ hag =>
    have hold := h.active p (hag.state_eq ▸ ha)
    rcases hag with rfl | ⟨_, _, _, rfl⟩ <;> exact hold
  | ran _ hag hs =>
    have hold := h.active p (by simp [hs, Active])
    rcases hag with rfl | ⟨_, _, _, rfl⟩ <;> exact hold
  | slept _ _ _ hs | exited _ _ hs | flagged hs | counted hs | yielded _ hs | faulted hs =>
    exact h.active p (by simp [hs, Active])
  | booted => simp
  | committed => exact ⟨(h.active p ha).1, by simp⟩
  | published c _ _ hc =>
    rcases hc with hc | hc <;>
      exact ⟨h.stacked c p (by rw [hc]; rfl), h.filled c p (by rw [hc]; rfl)⟩
  | taken => exact absurd rfl ha.2
  | dropped | reaped => exact absurd rfl ha.1
  | stacked _ _ _ _ hs | forked _ _ _ hs | cloned _ _ _ _ hs => exact absurd hs ha.2

/-- An entry under construction keeps what it has been given. -/
theorem EntryChange.keeps_backing {pr : Proc} {b : Bool} (h : BackedInv t)
    (he : EntryChange t p l pr b) (hemb : pr.state = .EMBRYO) :
    ((t.proc p).kstack ≠ none → pr.kstack ≠ none) ∧
    ((t.proc p).pgdir ≠ none → pr.pgdir ≠ none) := by
  cases he with
  | roused _ _ hro | ticked hro | killed _ hro => cases hro <;> exact ⟨id, id⟩
  | aged _ hag | ran _ hag => rcases hag with rfl | ⟨_, _, _, rfl⟩ <;> exact ⟨id, id⟩
  | stacked => exact ⟨fun _ => by simp, id⟩
  | forked => exact ⟨id, fun _ => by simp⟩
  | cloned c _ _ hs => exact ⟨id, fun _ => (h.active c (by simp [hs, Active])).2⟩
  | committed => exact ⟨id, fun _ => by simp⟩
  | booted | dropped | reaped => cases hemb
  | slept | exited | flagged | counted | yielded | taken | published | faulted => exact ⟨id, id⟩

/-- `allocproc` has given the entry its kernel stack. -/
theorem Effect.stacked {c : PIdx} {kstack : Page} (he : Effect t (.allocproc c (some kstack)) t')
    (hc : (t.kont c).child = some p) : (t'.proc p).kstack ≠ none := by
  have hent := he.entry p
  generalize t'.proc p = pr at hent ⊢
  generalize t'.inTimer p = b at hent
  cases hent with
  | stacked => simp
  | roused _ hb | slept _ _ hb | reaped _ _ _ _ hb => exact absurd hc hb
  | taken _ hl => rcases hl with hl | ⟨_, hl⟩ <;> cases hl
  | dropped _ _ hl => rcases hl with hl | hl <;> cases hl

/-- `fork` or `clone` has given the entry its page directory. -/
theorem Effect.filled {c : PIdx} (h : BackedInv t) (he : Effect t l t')
    (hl : (∃ pgdir, l = .forkFill c (some pgdir)) ∨ l = .cloneFill c)
    (hc : (t.kont c).child = some p) : (t'.proc p).pgdir ≠ none := by
  have hsub : t.subject l = some p := by
    rcases hl with ⟨_, rfl⟩ | rfl <;> exact hc
  have hent := he.entry p
  generalize t'.proc p = pr at hent ⊢
  generalize t'.inTimer p = b at hent
  cases hent with
  | forked => simp
  | cloned c _ _ hs => exact (h.active c (by simp [hs, Active])).2
  | roused _ hb | slept _ _ hb | reaped _ _ _ _ hb => exact absurd hsub hb
  | taken _ hl' =>
    rcases hl' with rfl | ⟨_, rfl⟩ <;> rcases hl with ⟨_, hl⟩ | hl <;> cases hl
  | dropped _ _ hl' =>
    rcases hl' with rfl | rfl <;> rcases hl with ⟨_, hl⟩ | hl <;> cases hl
  | booted | stacked | published => rcases hl with ⟨_, hl⟩ | hl <;> cases hl
  | ticked | exited | aged | ran | flagged | counted | yielded | killed | faulted | committed =>
    cases hsub

theorem BackedInv.step (h : BackedInv t) (htab : TableInv t) (hst : t.Step l t') :
    BackedInv t' := by
  have he := Step.effect htab hst
  have hemb' := (htab.step hst).ctl.embryo
  -- what an entry has, it keeps until it is published
  have hkeep : ∀ c np, (t'.kont c).child = some np →
      ((t.proc np).kstack ≠ none → (t'.proc np).kstack ≠ none) ∧
      ((t.proc np).pgdir ≠ none → (t'.proc np).pgdir ≠ none) := fun c np hc =>
    (he.entry np).keeps_backing h (hemb' c np hc)
  refine ⟨fun p ha => (he.entry p).backed h ha, fun c np hm => ?_, fun c np hf => ?_⟩
  · rcases (he.kont c).made_back hm with hold | ⟨hc, kstack, rfl⟩
    · exact (hkeep c np (child_of_made hm)).1 (h.stacked c np hold)
    · exact he.stacked hc
  · rcases (he.kont c).filled_back hf with hold | ⟨hc, hl⟩
    · exact (hkeep c np (child_of_made (made_of_filled hf))).2 (h.filled c np hold)
    · exact he.filled h hl (child_of_made hc)

theorem backedInv_boot : BackedInv boot where
  active := fun _ ha => absurd rfl ha.1
  stacked := fun _ _ hm => by simp [boot, Kont.made] at hm
  filled := fun _ _ hm => by simp [boot, Kont.filled] at hm

theorem backedInv_reachable (h : Reachable tableSystem t) : BackedInv t := by
  induction h with
  | init h0 =>
    cases h0
    exact backedInv_boot
  | step l hreach hst ih => exact ih.step (tableInv_reachable hreach) hst

end Table

end Xv6.Process
