import Mathlib.Data.List.Nodup

/-! # The Order of Entries in a Queue

    A queue seen as a list that changes step by step: entries may leave from
    anywhere, and what comes in is put behind everything that stays. Over
    such a history the order in the list is the order of arrival, and two
    entries that both stay never change places.
-/

universe u

variable {α : Type u} {n : Nat}

namespace List

/-! ### Sublists of a list without duplicates -/

/-- A sublist is what filtering by membership in it leaves. -/
theorem Sublist.filter_mem [DecidableEq α] {l' l : List α} (h : l'.Sublist l) (hnd : l.Nodup) :
    l.filter (fun x => decide (x ∈ l')) = l' := by
  induction h with
  | slnil => rfl
  | @cons l' l a hsub ih =>
    obtain ⟨ha, hl⟩ := List.nodup_cons.mp hnd
    have hna : a ∉ l' := fun hin => ha (hsub.subset hin)
    rw [List.filter_cons_of_neg (by simpa using hna), ih hl]
  | @cons_cons l' l a hsub ih =>
    obtain ⟨ha, hl⟩ := List.nodup_cons.mp hnd
    have hcongr : l.filter (fun x => decide (x ∈ a :: l')) = l.filter (fun x => decide (x ∈ l')) := by
      apply List.filter_congr
      intro x hx
      have hxa : x ≠ a := fun heq => ha (heq ▸ hx)
      simp [hxa]
    rw [List.filter_cons_of_pos (by simp), hcongr, ih hl]

/-- In a list without duplicates two entries have one order. -/
theorem Nodup.order_unique {l : List α} {x y : α} (hnd : l.Nodup) (h : [x, y].Sublist l)
    (h' : [y, x].Sublist l) : False := by
  induction l with
  | nil => cases h
  | cons z l ih =>
    obtain ⟨hz, hl⟩ := List.nodup_cons.mp hnd
    rcases List.sublist_cons_iff.mp h with hxy | ⟨r, hr, hy⟩
    · rcases List.sublist_cons_iff.mp h' with hyx | ⟨r', hr', hx⟩
      · exact ih hl hxy hyx
      · -- `y` is the head, but stands behind `x` further on
        cases hr'
        exact hz (hxy.subset (by simp))
    · cases hr
      rcases List.sublist_cons_iff.mp h' with hyx | ⟨r', hr', hx⟩
      · exact hz (hyx.subset (by simp))
      · cases hr'
        exact hz (hx.subset (by simp))

end List

namespace Fifo

/-- One step of a queue: what stays keeps its order and what comes in, which
    was not there before, is put behind it. -/
def Moves (l l' : List α) : Prop :=
  ∃ kept new, l' = kept ++ new ∧ kept.Sublist l ∧ ∀ x ∈ new, x ∉ l

variable {l l' : List α} {x y : α}

/-- Two entries that stay keep their order. -/
theorem Moves.order_kept [DecidableEq α] (h : Moves l l') (hnd : l.Nodup)
    (hxy : [x, y].Sublist l) (hx : x ∈ l') (hy : y ∈ l') : [x, y].Sublist l' := by
  obtain ⟨kept, new, rfl, hsub, hnew⟩ := h
  have hstays : ∀ z, z ∈ l → z ∈ kept ++ new → z ∈ kept := by
    intro z hz hz'
    rcases List.mem_append.mp hz' with hk | hn
    · exact hk
    · exact absurd hz (hnew z hn)
  have hxk := hstays x (hxy.subset (by simp)) hx
  have hyk := hstays y (hxy.subset (by simp)) hy
  have hfilter := hxy.filter (fun z => decide (z ∈ kept))
  rw [hsub.filter_mem hnd] at hfilter
  have hself : [x, y].filter (fun z => decide (z ∈ kept)) = [x, y] := by simp [hxk, hyk]
  rw [hself] at hfilter
  exact hfilter.trans (List.sublist_append_left kept new)

/-- An entry that comes in stands behind one that stays. -/
theorem Moves.enters_behind (h : Moves l l') (hx : x ∈ l) (hx' : x ∈ l') (hy : y ∉ l)
    (hy' : y ∈ l') : [x, y].Sublist l' := by
  obtain ⟨kept, new, rfl, hsub, hnew⟩ := h
  have hxk : x ∈ kept := by
    rcases List.mem_append.mp hx' with hk | hn
    · exact hk
    · exact absurd hx (hnew x hn)
  have hyn : y ∈ new := by
    rcases List.mem_append.mp hy' with hk | hn
    · exact absurd (hsub.subset hk) hy
    · exact hn
  exact (List.singleton_sublist.mpr hxk).append (List.singleton_sublist.mpr hyn)

/-- An entry that was there before had everything that stands before it in
    front of it already then. -/
theorem Moves.order_back (h : Moves l l') (hxy : [x, y].Sublist l') (hy : y ∈ l) :
    [x, y].Sublist l := by
  obtain ⟨kept, new, rfl, hsub, hnew⟩ := h
  have hyn : y ∉ new := fun hn => hnew y hn hy
  obtain ⟨l₁, l₂, heq, h₁, h₂⟩ := List.sublist_append_iff.mp hxy
  -- nothing of the pair lies in what has come in, since `y` does not
  cases l₂ with
  | nil =>
    rw [List.append_nil] at heq
    rw [heq]
    exact h₁.trans hsub
  | cons z zs =>
    have hlast : (z :: zs).getLast? = some y := by
      have hl := congrArg List.getLast? heq
      rw [List.getLast?_append_of_ne_nil _ (List.cons_ne_nil z zs)] at hl
      exact hl.symm
    exact absurd (h₂.subset (List.mem_of_getLast? hlast)) hyn

/-- The head may leave in the same step. -/
theorem Moves.tail (h : Moves l (x :: l')) : Moves l l' := by
  obtain ⟨kept, new, heq, hsub, hnew⟩ := h
  cases kept with
  | nil =>
    rw [List.nil_append] at heq
    exact ⟨[], l', rfl, List.nil_sublist l, fun z hz => hnew z (heq ▸ List.mem_cons_of_mem x hz)⟩
  | cons y ys =>
    rw [List.cons_append, List.cons.injEq] at heq
    exact ⟨ys, new, heq.2, (List.sublist_cons_self y ys).trans hsub, hnew⟩

/-! ### Histories -/

/-- The stay of `x` that lasts to time `n` began with step `a`. -/
def EnteredAt (q : Nat → List α) (n : Nat) (x : α) (a : Nat) : Prop :=
  a < n ∧ x ∉ q a ∧ ∀ m, a < m → m ≤ n → x ∈ q m

section History

variable {q : Nat → List α} {N : Nat} (hmoves : ∀ n, n < N → Moves (q n) (q (n + 1)))
  (hnodup : ∀ n, n ≤ N → (q n).Nodup)

/-- Whatever is in a queue that was empty at first has come in at some step. -/
theorem exists_enteredAt (h0 : q 0 = []) (hx : x ∈ q n) : ∃ a, EnteredAt q n x a := by
  induction n with
  | zero =>
    rw [h0] at hx
    cases hx
  | succ n ih =>
    by_cases hin : x ∈ q n
    · obtain ⟨a, han, hout, hstay⟩ := ih hin
      refine ⟨a, by omega, hout, fun m ham hmn => ?_⟩
      rcases Nat.lt_or_eq_of_le hmn with hlt | rfl
      · exact hstay m ham (by omega)
      · exact hx
    · refine ⟨n, by omega, hin, fun m ham hmn => ?_⟩
      have hm : m = n + 1 := by omega
      rw [hm]
      exact hx

include hmoves hnodup in
/-- Two entries that stay over a stretch of time keep their order. -/
theorem order_kept [DecidableEq α] {a : Nat} (han : a ≤ n) (hn : n ≤ N) (hxy : [x, y].Sublist (q a))
    (hx : ∀ m, a ≤ m → m ≤ n → x ∈ q m) (hy : ∀ m, a ≤ m → m ≤ n → y ∈ q m) :
    [x, y].Sublist (q n) := by
  induction han with
  | refl => exact hxy
  | @step n han ih =>
    have hle : a ≤ n := han
    have hprev := ih (by omega) (fun m h1 h2 => hx m h1 (by omega))
      (fun m h1 h2 => hy m h1 (by omega))
    exact (hmoves n hn).order_kept (hnodup n (by omega)) hprev
      (hx (n + 1) (by omega) (by omega)) (hy (n + 1) (by omega) (by omega))

include hmoves hnodup in
/-- **The order in the queue is the order of arrival.** -/
theorem entered_le [DecidableEq α] {a b : Nat} (hn : n ≤ N) (hxy : [x, y].Sublist (q n))
    (ha : EnteredAt q n x a) (hb : EnteredAt q n y b) : a ≤ b := by
  by_contra hlt
  obtain ⟨han, hxa, hxs⟩ := ha
  obtain ⟨_, _, hys⟩ := hb
  -- `y` was there when `x` came in, so `x` stands behind it ever since
  have hback := (hmoves a (by omega)).enters_behind (hys a (by omega) (by omega))
    (hys (a + 1) (by omega) (by omega)) hxa (hxs (a + 1) (by omega) (by omega))
  have hyx := order_kept hmoves hnodup (by omega) hn hback
    (fun m h1 h2 => hys m (by omega) h2) (fun m h1 h2 => hxs m (by omega) h2)
  exact (hnodup n hn).order_unique hxy hyx

end History

end Fifo
