import Mathlib.Data.List.Chain
import Mathlib.Data.List.Perm.Basic

/-! # Removing While Scanning

    A loop that walks over an array by an index, takes out the entries with
    a property and advances the index also after it has taken one out. The
    entry behind a removed one moves down to the index that was just looked
    at, so the loop never looks at it.

    `skipScan` is that loop on lists. It removes every entry with the
    property if and only if no two neighbours have it.
-/

namespace List

universe u

variable {α : Type u} {S S' : α → Bool} {x : α} {l : List α}

/-- The entries a skipping scan leaves, and those it takes out. -/
def skipScan (S : α → Bool) : List α → List α × List α
  | [] => ([], [])
  | [x] => if S x then ([], [x]) else ([x], [])
  | x :: y :: l =>
    if S x then
      -- `y` is skipped
      (y :: (skipScan S l).1, x :: (skipScan S l).2)
    else
      (x :: (skipScan S (y :: l)).1, (skipScan S (y :: l)).2)

/-- No two neighbours have the property. -/
def Apart (S : α → Bool) (l : List α) : Prop :=
  l.IsChain (fun x y => ¬ (S x = true ∧ S y = true))

theorem skipScan_cons_of_false (l : List α) (hx : S x = false) :
    skipScan S (x :: l) = (x :: (skipScan S l).1, (skipScan S l).2) := by
  cases l with
  | nil => simp [skipScan, hx]
  | cons y l => simp [skipScan, hx]

theorem skipScan_cons_of_true (y : α) (l : List α) (hx : S x = true) :
    skipScan S (x :: y :: l) = (y :: (skipScan S l).1, x :: (skipScan S l).2) := by
  simp [skipScan, hx]

/-- The scan depends on the property of the entries it looks at. -/
theorem skipScan_congr (h : ∀ x ∈ l, S x = S' x) : skipScan S l = skipScan S' l := by
  fun_induction skipScan S l with
  | case1 => rfl
  | case2 x hx => simp [skipScan, ← h x (by simp), hx]
  | case3 x hx => simp [skipScan, ← h x (by simp), hx]
  | case4 x y l hx ih =>
    have hl := ih (fun z hz => h z (by simp [hz]))
    rw [skipScan_cons_of_true y l (by rw [← h x (by simp), hx]), hl]
  | case5 x y l hx ih =>
    have hl := ih (fun z hz => h z (List.mem_cons_of_mem _ hz))
    rw [skipScan_cons_of_false (y :: l) (by rw [← h x (by simp)]; simpa using hx), hl]

/-- What the scan leaves stays in order. -/
theorem skipScan_kept_sublist (S : α → Bool) (l : List α) : (skipScan S l).1.Sublist l := by
  fun_induction skipScan S l with
  | case1 => exact .refl _
  | case2 x hx => exact List.nil_sublist _
  | case3 x hx => exact .refl _
  | case4 x y l hx ih => exact (ih.cons_cons y).cons x
  | case5 x y l hx ih => exact ih.cons_cons x

theorem mem_skipScan :
    x ∈ l ↔ x ∈ (skipScan S l).1 ∨ x ∈ (skipScan S l).2 := by
  fun_induction skipScan S l with
  | case1 => simp
  | case2 y hy => simp
  | case3 y hy => simp
  | case4 y z l hy ih =>
    simp only [List.mem_cons, ih]
    tauto
  | case5 y z l hy ih =>
    rw [List.mem_cons, ih]
    simp only [List.mem_cons]
    tauto

/-- Only entries with the property are taken out. -/
theorem of_mem_skipScan_taken (h : x ∈ (skipScan S l).2) : S x = true := by
  fun_induction skipScan S l with
  | case1 => simp at h
  | case2 y hy =>
    rw [List.mem_singleton.mp h]
    exact hy
  | case3 y hy => simp at h
  | case4 y z l hy ih =>
    rcases List.mem_cons.mp h with rfl | hl
    · exact hy
    · exact ih hl
  | case5 y z l hy ih => exact ih h

/-- Where no two neighbours have the property, the scan separates the
    entries with it from those without. -/
theorem skipScan_of_apart (h : Apart S l) :
    skipScan S l = (l.filter (fun x => !S x), l.filter S) := by
  fun_induction skipScan S l with
  | case1 => rfl
  | case2 x hx => simp [hx]
  | case3 x hx => simp [hx]
  | case4 x y l hx ih =>
    -- the skipped entry does not have the property
    obtain ⟨hxy, hyl⟩ := List.isChain_cons_cons.mp h
    have hy : S y = false := by
      by_contra hne
      exact hxy ⟨hx, by simpa using hne⟩
    rw [ih hyl.tail]
    simp [hx, hy]
  | case5 x y l hx ih =>
    obtain ⟨_, hyl⟩ := List.isChain_cons_cons.mp h
    have hx' : (fun z => !S z) x = true := by simpa using hx
    rw [ih hyl, List.filter_cons_of_neg hx, List.filter_cons_of_pos (l := y :: l) hx']

/-- And only there does it take all of them out. -/
theorem apart_of_skipScan (h : ∀ x ∈ (skipScan S l).1, S x = false) : Apart S l := by
  unfold Apart
  fun_induction skipScan S l with
  | case1 => exact .nil
  | case2 x hx => exact .singleton x
  | case3 x hx => exact .singleton x
  | case4 x y l hx ih =>
    have hy : S y = false := h y (by simp)
    have hl := ih (fun z hz => h z (by simp [hz]))
    refine List.isChain_cons_cons.mpr ⟨by simp [hy], ?_⟩
    -- `y` has no neighbour to clash with
    cases l with
    | nil => exact .singleton y
    | cons z l => exact List.isChain_cons_cons.mpr ⟨by simp [hy], hl⟩
  | case5 x y l hx ih =>
    refine List.isChain_cons_cons.mpr ⟨by simp [hx], ih (fun z hz => h z (by simp [hz]))⟩

end List
