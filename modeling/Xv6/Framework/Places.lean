import Mathlib.Algebra.BigOperators.Group.Finset.Piecewise
import Mathlib.Algebra.Order.BigOperators.Group.Finset

/-! # Counting Processes by Place

    Finitely many processes, each at a place `pc p` of its code. `At pc f`
    is the set of those at a place where `f` holds; the rules say how its
    size changes when one process moves. A tally `f : P → Nat` gives each
    process a number of its own, and the rules for its total are alike.
-/

namespace LTS

open Function

universe u v

variable {P : Type u} {A : Type v} [Fintype P] {pc : P → A} {f : A → Bool} {p : P} {a : A}

/-- The processes at a place where `f` holds. -/
def At (pc : P → A) (f : A → Bool) : Finset P :=
  Finset.univ.filter (fun p => f (pc p) = true)

theorem mem_at : p ∈ At pc f ↔ f (pc p) = true := by
  simp [At]

variable [DecidableEq P]

theorem mem_at_update {q : P} :
    q ∈ At (update pc p a) f ↔ (q = p ∧ f a = true) ∨ (q ≠ p ∧ q ∈ At pc f) := by
  rw [mem_at, mem_at]
  by_cases hq : q = p
  · subst hq
    simp
  · simp [hq]

theorem card_at_enter (pc : P → A) (f : A → Bool) (hp : f (pc p) = false) (ha : f a = true) :
    (At (update pc p a) f).card = (At pc f).card + 1 := by
  have hnot : p ∉ At pc f := by
    rw [mem_at, hp]
    exact Bool.false_ne_true
  have heq : At (update pc p a) f = insert p (At pc f) := by
    ext q
    rw [mem_at_update, Finset.mem_insert]
    by_cases hq : q = p
    · simp [hq, ha]
    · simp [hq]
  rw [heq, Finset.card_insert_of_notMem hnot]

theorem card_at_leave (pc : P → A) (f : A → Bool) (hp : f (pc p) = true) (ha : f a = false) :
    (At (update pc p a) f).card + 1 = (At pc f).card := by
  have heq : At (update pc p a) f = (At pc f).erase p := by
    ext q
    rw [mem_at_update, Finset.mem_erase]
    simp [ha]
  rw [heq, Finset.card_erase_add_one (mem_at.mpr hp)]

theorem at_keep (pc : P → A) (f : A → Bool) (ha : f a = f (pc p)) : At (update pc p a) f = At pc f := by
  ext q
  rw [mem_at_update, mem_at]
  by_cases hq : q = p
  · simp [hq, ha]
  · simp [hq]

/-! ### Tallies -/

section tally

variable {n : P → Nat} {k : Nat}

/-- The total over what each process has, when one process has something
    else. -/
theorem sum_comp_update (g : A → Nat) (h : P → A) (p : P) (a : A) :
    ∑ q, g (update h p a q) + g (h p) = ∑ q, g (h q) + g a := by
  have hcomp : ∀ q, g (update h p a q) = update (fun q => g (h q)) p (g a) q :=
    fun q => Function.apply_update (fun _ => g) h p a q
  rw [Finset.sum_congr rfl (fun q _ => hcomp q), Finset.sum_update_of_mem (Finset.mem_univ p),
    ← Finset.erase_eq, ← Finset.add_sum_erase _ (fun q => g (h q)) (Finset.mem_univ p)]
  omega

/-- One process has one more. -/
theorem sum_update_succ (n : P → Nat) (p : P) :
    ∑ q, update n p (n p + 1) q = ∑ q, n q + 1 := by
  have h := sum_comp_update id n p (n p + 1)
  simp only [id] at h
  omega

/-- One process has one less. -/
theorem sum_update_pred (n : P → Nat) (p : P) (hp : 0 < n p) :
    ∑ q, update n p (n p - 1) q + 1 = ∑ q, n q := by
  have h := sum_comp_update id n p (n p - 1)
  simp only [id] at h
  omega

omit [DecidableEq P] in
theorem le_sum_tally (n : P → Nat) (p : P) : n p ≤ ∑ q, n q :=
  Finset.single_le_sum (fun _ _ => Nat.zero_le _) (Finset.mem_univ p)

/-- When the total is one, it is all with one process. -/
theorem sum_eq_one (hsum : ∑ q, n q = 1) {p : P} (hp : 0 < n p) :
    n p = 1 ∧ ∀ q, q ≠ p → n q = 0 := by
  have hle := le_sum_tally n p
  have hone : n p = 1 := by omega
  refine ⟨hone, fun q hq => ?_⟩
  rw [← Finset.add_sum_erase _ n (Finset.mem_univ p), hone] at hsum
  have hzero : ∑ q ∈ Finset.univ.erase p, n q = 0 := by omega
  exact Finset.sum_eq_zero_iff.mp hzero q (Finset.mem_erase.mpr ⟨hq, Finset.mem_univ q⟩)

end tally

end LTS
