import Mathlib.Data.Set.Insert
import Mathlib.Data.List.Nodup

/-! # Exclusive Ownership

    Resources that are each in exactly one place: on a free list, in the
    hands of code that is about to place them (`loose`), or held by an
    owner. `held o` is the resource owner `o` holds, if any.

    `Owned S held free loose` says that the resources of `S` are
    partitioned that way. Allocating, freeing, assigning and releasing each
    move one resource from one place to another.
-/

namespace Ownership

open Function

universe u v

variable {O : Type u} {X : Type v} {o : O}

/-- Every resource of `S` is in exactly one place, and nothing else is. -/
structure Owned (S : Set X) (held : O → Option X) (free loose : List X) : Prop where
  inj : ∀ o o' x, held o = some x → held o' = some x → o = o'
  nodup : (free ++ loose).Nodup
  disj : ∀ o x, held o = some x → x ∉ free ++ loose
  cover : ∀ x, x ∈ S ↔ x ∈ free ++ loose ∨ ∃ o, held o = some x

namespace Owned

variable {S : Set X} {held held' : O → Option X} {free free' loose loose' : List X} {x : X}

theorem perm (h : Owned S held free loose) (hp : (free ++ loose).Perm (free' ++ loose')) :
    Owned S held free' loose' where
  inj := h.inj
  nodup := hp.nodup_iff.mp h.nodup
  disj := fun o x hx hm => h.disj o x hx (hp.mem_iff.mpr hm)
  cover := fun x => by rw [h.cover x, hp.mem_iff]

theorem congr (h : Owned S held free loose) (he : ∀ o, held' o = held o) :
    Owned S held' free loose := by
  have heq : held' = held := funext he
  rw [heq]
  exact h

/-- Take the first resource off the free list. -/
theorem alloc (h : Owned S held (x :: free) loose) : Owned S held free (x :: loose) :=
  h.perm List.perm_middle.symm

/-- Put a resource on the free list. -/
theorem dealloc (h : Owned S held free (x :: loose)) : Owned S held (x :: free) loose :=
  h.perm List.perm_middle

section

variable (h : Owned S held free loose)

include h

theorem loose_not_held (hx : x ∈ loose) (o : O) : held o ≠ some x :=
  fun ho => h.disj o x ho (List.mem_append_right _ hx)

theorem free_not_held (hx : x ∈ free) (o : O) : held o ≠ some x :=
  fun ho => h.disj o x ho (List.mem_append_left _ hx)

theorem free_not_loose (hx : x ∈ free) : x ∉ loose :=
  fun hl => (List.nodup_append.mp h.nodup).2.2 x hx x hl rfl

theorem mem_of_held (ho : held o = some x) : x ∈ S :=
  (h.cover x).mpr (Or.inr ⟨o, ho⟩)

theorem mem_of_loose (hx : x ∈ loose) : x ∈ S :=
  (h.cover x).mpr (Or.inl (List.mem_append_right _ hx))

/-- What is held determines what is free. -/
theorem free_perm (h' : Owned S held free' loose) : free.Perm free' := by
  have hsub : ∀ {l l' : List X}, Owned S held l loose → Owned S held l' loose →
      ∀ x, x ∈ l → x ∈ l' := by
    intro l l' hl hl' x hx
    have hS : x ∈ S := (hl.cover x).mpr (Or.inl (List.mem_append_left _ hx))
    rcases (hl'.cover x).mp hS with hmem | ⟨o, ho⟩
    · rcases List.mem_append.mp hmem with hmem | hmem
      · exact hmem
      · exact absurd hmem (hl.free_not_loose hx)
    · exact absurd ho (hl.free_not_held hx o)
  exact (List.perm_ext_iff_of_nodup (List.nodup_append.mp h.nodup).1
    (List.nodup_append.mp h'.nodup).1).mpr (fun x => ⟨hsub h h' x, hsub h' h x⟩)

end

variable [DecidableEq O]

/-- Give a loose resource to an owner that holds nothing. -/
theorem assign (h : Owned S held free (x :: loose)) (hn : held o = none) :
    Owned S (update held o (some x)) free loose := by
  have hcons := (List.perm_middle.nodup_iff.mp h.nodup)
  have hx : x ∉ free ++ loose := (List.nodup_cons.mp hcons).1
  have hnot : ∀ o', held o' ≠ some x := h.loose_not_held List.mem_cons_self
  refine ⟨?_, (List.nodup_cons.mp hcons).2, ?_, ?_⟩
  · intro o₁ o₂ y h1 h2
    by_cases ho1 : o₁ = o <;> by_cases ho2 : o₂ = o
    · exact ho1.trans ho2.symm
    · rw [ho1, update_self] at h1
      rw [update_of_ne ho2, ← h1] at h2
      exact absurd h2 (hnot o₂)
    · rw [ho2, update_self] at h2
      rw [update_of_ne ho1, ← h2] at h1
      exact absurd h1 (hnot o₁)
    · rw [update_of_ne ho1] at h1
      rw [update_of_ne ho2] at h2
      exact h.inj o₁ o₂ y h1 h2
  · intro o₁ y h1
    by_cases ho1 : o₁ = o
    · rw [ho1, update_self] at h1
      rw [← Option.some.inj h1]
      exact hx
    · rw [update_of_ne ho1] at h1
      intro hm
      exact h.disj o₁ y h1 (List.perm_middle.mem_iff.mpr (List.mem_cons_of_mem _ hm))
  · intro y
    rw [h.cover y, List.perm_middle.mem_iff, List.mem_cons]
    constructor
    · rintro ((rfl | hy) | ⟨o₁, h1⟩)
      · exact Or.inr ⟨o, update_self ..⟩
      · exact Or.inl hy
      · have hne : o₁ ≠ o := by
          rintro rfl
          rw [hn] at h1
          cases h1
        exact Or.inr ⟨o₁, (update_of_ne hne ..).trans h1⟩
    · rintro (hy | ⟨o₁, h1⟩)
      · exact Or.inl (Or.inr hy)
      · by_cases ho1 : o₁ = o
        · rw [ho1, update_self] at h1
          exact Or.inl (Or.inl (Option.some.inj h1).symm)
        · rw [update_of_ne ho1] at h1
          exact Or.inr ⟨o₁, h1⟩

/-- Take a resource away from its owner. -/
theorem release (h : Owned S held free loose) (ho : held o = some x) :
    Owned S (update held o none) free (x :: loose) := by
  have hother : ∀ o' y, update held o none o' = some y →
      o' ≠ o ∧ held o' = some y := by
    intro o' y hy
    by_cases heq : o' = o
    · rw [heq, update_self] at hy
      cases hy
    · rw [update_of_ne heq] at hy
      exact ⟨heq, hy⟩
  refine ⟨?_, ?_, ?_, ?_⟩
  · intro o₁ o₂ y h1 h2
    exact h.inj o₁ o₂ y (hother _ _ h1).2 (hother _ _ h2).2
  · exact List.perm_middle.nodup_iff.mpr (List.nodup_cons.mpr ⟨h.disj o x ho, h.nodup⟩)
  · intro o₁ y h1 hm
    obtain ⟨hne, h1⟩ := hother _ _ h1
    rcases List.mem_cons.mp (List.perm_middle.mem_iff.mp hm) with rfl | hy
    · exact hne (h.inj o₁ o y h1 ho)
    · exact h.disj o₁ y h1 hy
  · intro y
    rw [h.cover y, List.perm_middle.mem_iff, List.mem_cons]
    constructor
    · rintro (hy | ⟨o₁, h1⟩)
      · exact Or.inl (Or.inr hy)
      · by_cases heq : o₁ = o
        · rw [heq, ho] at h1
          exact Or.inl (Or.inl (Option.some.inj h1).symm)
        · exact Or.inr ⟨o₁, (update_of_ne heq ..).trans h1⟩
    · rintro ((rfl | hy) | ⟨o₁, h1⟩)
      · exact Or.inr ⟨o, ho⟩
      · exact Or.inl hy
      · exact Or.inr ⟨o₁, (hother _ _ h1).2⟩

/-- Take the resources of several owners away at once. -/
theorem releaseAll (h : Owned S held free loose) (l : List O) :
    l.Nodup → Owned S (fun o => if o ∈ l then none else held o) free
      (l.filterMap held ++ loose) := by
  induction l with
  | nil =>
    intro _
    exact h.congr (fun o => by simp)
  | cons o l ih =>
    intro hnd
    obtain ⟨hol, hnd⟩ := List.nodup_cons.mp hnd
    have hrest := ih hnd
    have heq : ∀ o', (if o' ∈ o :: l then none else held o') =
        update (fun o => if o ∈ l then none else held o) o none o' := by
      intro o'
      by_cases ho : o' = o
      · simp [ho]
      · simp [ho]
    cases ho : held o with
    | none =>
      rw [List.filterMap_cons_none ho]
      refine hrest.congr (fun o' => ?_)
      by_cases hoo : o' = o
      · simp [hoo, ho]
      · simp [hoo]
    | some x =>
      rw [List.filterMap_cons_some ho]
      refine Owned.congr (hrest.release (o := o) (x := x) ?_) heq
      rw [if_neg hol]
      exact ho

end Owned

end Ownership
