import Mathlib.Tactic.Common

/-! # Who Holds a Lock

    A lock is held by at most one process, and whether a process holds it can
    be read off where the process is in its code. `Guards lock holds` says
    that the two agree. The rules below carry it over the steps of one
    process: it takes the lock, gives it back, or does neither.
-/

namespace LTS

open Function

universe u

variable {P : Type u} {lock : Option P} {holds holds' : P → Prop} {p q : P}

/-- The holder of `lock` is the process that is at a point where it holds it. -/
def Guards (lock : Option P) (holds : P → Prop) : Prop :=
  ∀ p, holds p ↔ lock = some p

namespace Guards

theorem unique (h : Guards lock holds) (hp : holds p) (hq : holds q) : p = q := by
  have hpq := ((h p).mp hp).symm.trans ((h q).mp hq)
  exact Option.some.inj hpq

theorem not_holds (h : Guards none holds) (p : P) : ¬ holds p := by
  intro hp
  cases (h p).mp hp

/-- Where the others stay as they are, taking a free lock. -/
theorem acquire (h : Guards none holds) (hp : holds' p) (hoth : ∀ q, q ≠ p → (holds' q ↔ holds q)) :
    Guards (some p) holds' := by
  intro q
  by_cases hqp : q = p
  · rw [hqp]
    exact iff_of_true hp rfl
  · refine (hoth q hqp).trans (iff_of_false (h.not_holds q) ?_)
    intro he
    exact hqp (Option.some.inj he).symm

/-- The holder gives the lock back. -/
theorem release (h : Guards lock holds) (hp : holds p) (hp' : ¬ holds' p)
    (hoth : ∀ q, q ≠ p → (holds' q ↔ holds q)) : Guards none holds' := by
  intro q
  refine iff_of_false ?_ (fun he => by cases he)
  intro hq
  by_cases hqp : q = p
  · exact hp' (hqp ▸ hq)
  · exact hqp (h.unique ((hoth q hqp).mp hq) hp)

/-- Nobody takes the lock or gives it back. -/
theorem keep (h : Guards lock holds) (hsame : ∀ q, holds' q ↔ holds q) : Guards lock holds' :=
  fun q => (hsame q).trans (h q)

end Guards

/-- What a step of `p` does with a lock that it holds or not before and after. -/
inductive LockStep (p : P) : (lock lock' : Option P) → (holds holds' : Bool) → Prop where
  | keep {lock : Option P} {b : Bool} : LockStep p lock lock b b
  | acquire {lock : Option P} {b : Bool} (hfree : lock = none) : LockStep p lock (some p) b true
  | release {lock : Option P} : LockStep p lock none true false

namespace Guards

/-! #### Read off a place in the code

    Processes have a place `pc`, and `f` says where the lock is held. -/

section place

variable [DecidableEq P] {A : Type*} {pc : P → A} {a : A} {f : A → Bool}

omit [DecidableEq P] in
/-- The places at which the lock is held are those of one process. -/
theorem place_unique (h : Guards lock (fun p => f (pc p) = true)) (hp : f (pc p) = true)
    (hq : f (pc q) = true) : p = q := by
  have hp' := (h p).mp hp
  have hq' := (h q).mp hq
  exact Option.some.inj (hp'.symm.trans hq')

variable (h : Guards lock (fun q => f (pc q) = true))

include h

theorem update_acquire (hfree : lock = none) (ha : f a = true) :
    Guards (some p) (fun q => f (update pc p a q) = true) := by
  subst hfree
  refine h.acquire ?_ (fun q hqp => ?_)
  · rw [update_self]
    exact ha
  · rw [update_of_ne hqp]

theorem update_release (hp : f (pc p) = true) (ha : f a = false) :
    Guards none (fun q => f (update pc p a q) = true) := by
  refine h.release hp ?_ (fun q hqp => ?_)
  · rw [update_self, ha]
    exact Bool.false_ne_true
  · rw [update_of_ne hqp]

theorem update_keep (ha : f a = f (pc p)) : Guards lock (fun q => f (update pc p a q) = true) := by
  refine h.keep (fun q => ?_)
  by_cases hqp : q = p
  · rw [hqp, update_self, ha]
  · rw [update_of_ne hqp]

theorem step {lock' : Option P} (hs : LockStep p lock lock' (f (pc p)) (f a)) :
    Guards lock' (fun q => f (update pc p a q) = true) := by
  generalize hb : f (pc p) = b at hs
  generalize hb' : f a = b' at hs
  cases hs with
  | keep => exact h.update_keep (hb'.trans hb.symm)
  | acquire hfree => exact h.update_acquire hfree hb'
  | release => exact h.update_release hb hb'

end place

end Guards

end LTS
