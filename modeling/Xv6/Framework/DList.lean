import Mathlib.Data.List.Nodup
import Mathlib.Data.Option.Basic

/-! # Circular Doubly Linked Lists

    Nodes are linked through `next` and `prev` and through one sentinel, the
    head of the list. An element is `some x`, the sentinel is `none`.

    - `Chain d l`: consecutive nodes of `l` are linked both ways
    - `Circular d xs`: from the sentinel through `xs` and back to it
    - unlinking a node, linking one in behind the sentinel, and walking the
      list in either direction

    The edits are local, so the argument for each cuts the list at the node
    it changes and moves the two halves over.
-/

namespace DList

open Function

universe u

variable {α : Type u} {p : α → Bool}

/-- The link fields of all nodes. -/
structure Links (α : Type u) where
  next : Option α → Option α
  prev : Option α → Option α

/-- Consecutive nodes are linked both ways. -/
def Chain (d : Links α) : List (Option α) → Prop
  | x :: y :: rest => d.next x = y ∧ d.prev y = x ∧ Chain d (y :: rest)
  | _ => True

/-- The list with elements `xs`, in the order of `next`. -/
structure Circular (d : Links α) (xs : List α) : Prop where
  chain : Chain d (none :: xs.map some ++ [none])
  nodup : xs.Nodup

/-- Only the sentinel, linked to itself. -/
def Links.empty : Links α where
  next := fun _ => none
  prev := fun _ => none

/-- The same nodes, read backwards. -/
def Links.swap (d : Links α) : Links α where
  next := d.prev
  prev := d.next

/-! ### Chains -/

section chain

variable {d d' : Links α} {x : Option α} {l l₁ l₂ : List (Option α)}

/-- A chain is cut at a node. -/
theorem chain_append (l₁ : List (Option α)) :
    Chain d (l₁ ++ x :: l₂) ↔ Chain d (l₁ ++ [x]) ∧ Chain d (x :: l₂) := by
  induction l₁ with
  | nil => simp [Chain]
  | cons a l₁ ih =>
    cases l₁ with
    | nil =>
      simp only [List.singleton_append, Chain]
      tauto
    | cons b l₁ =>
      simp only [List.cons_append, Chain] at ih ⊢
      rw [ih]
      tauto

/-- A chain reads `next` of all nodes but the last and `prev` of all nodes but
    the first. -/
theorem Chain.transport : ∀ {l : List (Option α)}, Chain d l →
    (∀ y ∈ l.dropLast, d'.next y = d.next y) → (∀ y ∈ l.tail, d'.prev y = d.prev y) → Chain d' l
  | [], _, _, _ => trivial
  | [_], _, _, _ => trivial
  | a :: b :: l, ⟨hn, hp, hc⟩, hnext, hprev => by
    refine ⟨(hnext a (by simp)).trans hn, (hprev b (by simp)).trans hp, hc.transport ?_ ?_⟩
    · intro y hy
      exact hnext y (by simp [hy])
    · intro y hy
      exact hprev y (List.mem_cons_of_mem _ hy)

theorem Chain.reverse : ∀ {l : List (Option α)}, Chain d l → Chain d.swap l.reverse
  | [], _ => trivial
  | [_], _ => trivial
  | a :: b :: l, ⟨hn, hp, hc⟩ => by
    have ih := hc.reverse
    simp only [List.reverse_cons, List.append_assoc, List.singleton_append] at ih ⊢
    rw [chain_append]
    exact ⟨ih, hp, hn, trivial⟩

end chain

theorem circular_empty : Circular (Links.empty : Links α) [] :=
  ⟨⟨rfl, rfl, trivial⟩, List.nodup_nil⟩

/-! ### Edits -/

section edit

variable [DecidableEq α] {d : Links α} {xs ys : List α} {b : α}

/-- `b->next->prev = b->prev; b->prev->next = b->next` -/
def Links.unlink (d : Links α) (b : α) : Links α :=
  let d₁ := { d with prev := Function.update d.prev (d.next (some b)) (d.prev (some b)) }
  { d₁ with next := Function.update d₁.next (d₁.prev (some b)) (d₁.next (some b)) }

/-- `b->next = head.next; b->prev = &head; head.next->prev = b; head.next = b` -/
def Links.pushFront (d : Links α) (b : α) : Links α :=
  let d₁ := { d with next := Function.update d.next (some b) (d.next none) }
  let d₂ := { d₁ with prev := Function.update d₁.prev (some b) none }
  let d₃ := { d₂ with prev := Function.update d₂.prev (d₂.next none) (some b) }
  { d₃ with next := Function.update d₃.next none (some b) }

omit [DecidableEq α] in
/-- The two halves around a node. -/
theorem chain_around {l r : List (Option α)} {u v : Option α}
    (h : Chain d (l ++ u :: some b :: v :: r)) :
    Chain d (l ++ [u]) ∧ d.next u = some b ∧ d.prev (some b) = u ∧ d.next (some b) = v ∧
      d.prev v = some b ∧ Chain d (v :: r) := by
  obtain ⟨hl, hn, hp, hn', hp', hr⟩ := (chain_append l).mp h
  exact ⟨hl, hn, hp, hn', hp', hr⟩

omit [DecidableEq α] in
/-- The node before and the node behind an element. -/
theorem split_around (xs ys : List α) (b : α) : ∃ l u v r,
    none :: xs.map some = l ++ [u] ∧ ys.map some ++ [none] = v :: r ∧
      none :: (xs ++ b :: ys).map some ++ [none] = l ++ u :: some b :: v :: r ∧
      none :: (xs ++ ys).map some ++ [none] = l ++ u :: v :: r := by
  obtain ⟨l, u, hl⟩ : ∃ l u, none :: xs.map some = l ++ [u] :=
    ⟨_, _, (List.dropLast_append_getLast (List.cons_ne_nil _ _)).symm⟩
  obtain ⟨v, r, hr⟩ : ∃ v r, ys.map some ++ [none] = v :: r :=
    List.exists_cons_of_ne_nil (by simp)
  refine ⟨l, u, v, r, hl, hr, ?_, ?_⟩
  · calc none :: (xs ++ b :: ys).map some ++ [none]
        = (none :: xs.map some) ++ some b :: (ys.map some ++ [none]) := by simp
      _ = l ++ u :: some b :: v :: r := by rw [hl, hr]; simp
  · calc none :: (xs ++ ys).map some ++ [none]
        = (none :: xs.map some) ++ (ys.map some ++ [none]) := by simp
      _ = l ++ u :: v :: r := by rw [hl, hr]; simp

/-- Taking a node out. -/
theorem Circular.unlink (h : Circular d (xs ++ b :: ys)) : Circular (d.unlink b) (xs ++ ys) := by
  obtain ⟨l, u, v, r, hl, hr, hwhole, hrest⟩ := split_around xs ys b
  have hnodup := h.nodup
  rw [List.nodup_append] at hnodup
  obtain ⟨hxs, hbys, hdisj⟩ := hnodup
  obtain ⟨hb, hys⟩ := List.nodup_cons.mp hbys
  have hchain := h.chain
  rw [hwhole] at hchain
  obtain ⟨hleft, hnu, hpb, hnb, hpv, hright⟩ := chain_around hchain
  -- the left half has no duplicates, nor has the right one
  have hlnodup : (l ++ [u]).Nodup := by
    rw [← hl]
    exact List.nodup_cons.mpr ⟨by simp, hxs.map (Option.some_injective _)⟩
  have hrnodup : (v :: r).Nodup := by
    rw [← hr]
    refine List.Nodup.append (hys.map (Option.some_injective _)) (List.nodup_singleton _) ?_
    simp
  have hbv : some b ≠ v := by
    rintro rfl
    have hmem : some b ∈ ys.map some ++ [none] := by rw [hr]; exact List.mem_cons_self
    rw [List.mem_append] at hmem
    simp [hb] at hmem
  have hunlink : (d.unlink b) =
      ⟨update d.next u v, update d.prev v u⟩ := by
    unfold Links.unlink
    simp only [hnb, hpb, update_of_ne hbv]
  refine ⟨?_, List.nodup_append.mpr ⟨hxs, hys, fun x hx y hy =>
    hdisj x hx y (List.mem_cons_of_mem _ hy)⟩⟩
  rw [hrest, hunlink, chain_append]
  -- an element is in one half only; the sentinel ends both
  have hboth : ∀ z, z ∈ l ++ [u] → z ∈ v :: r → z = none := by
    intro z hzl hzr
    rw [← hl] at hzl
    rw [← hr] at hzr
    cases z with
    | none => rfl
    | some z =>
      have hzx : z ∈ xs := by simpa using hzl
      have hzy : z ∈ ys := by simpa using hzr
      exact absurd rfl (hdisj z hzx z (List.mem_cons_of_mem _ hzy))
  constructor
  · refine hleft.transport (fun y hy => ?_) (fun y hy => ?_)
    · rw [List.dropLast_concat] at hy
      refine update_of_ne ?_ _ _
      rintro rfl
      exact (List.nodup_append.mp hlnodup).2.2 y hy y (List.mem_singleton_self _) rfl
    · refine update_of_ne ?_ _ _
      rintro rfl
      have hnone := hboth y (List.mem_of_mem_tail hy) List.mem_cons_self
      rw [hnone, ← hl] at hy
      simp at hy
  · refine ⟨update_self _ _ _, update_self _ _ _, hright.transport ?_ ?_⟩
    · intro y hy
      refine update_of_ne ?_ _ _
      rintro rfl
      have hnone := hboth y (by simp) (List.dropLast_subset _ hy)
      rw [hnone, ← hr, List.dropLast_concat] at hy
      simp at hy
    · intro y hy
      refine update_of_ne ?_ _ _
      rintro rfl
      exact (List.nodup_cons.mp hrnodup).1 hy

/-- Linking a node in behind the sentinel. -/
theorem Circular.pushFront (h : Circular d xs) (hb : b ∉ xs) :
    Circular (d.pushFront b) (b :: xs) := by
  obtain ⟨v, r, hr⟩ : ∃ v r, xs.map some ++ [none] = v :: r :=
    List.exists_cons_of_ne_nil (by simp)
  have hchain := h.chain
  rw [List.cons_append, hr] at hchain
  obtain ⟨hnext, hprev, hrest⟩ := hchain
  have hvb : v ≠ some b := by
    rintro rfl
    have hmem : some b ∈ xs.map some ++ [none] := by rw [hr]; exact List.mem_cons_self
    rw [List.mem_append] at hmem
    simp [hb] at hmem
  have hvr : v ∉ r := by
    have hnodup : (v :: r).Nodup := by
      rw [← hr]
      refine List.Nodup.append (h.nodup.map (Option.some_injective _)) (List.nodup_singleton _) ?_
      simp
    exact (List.nodup_cons.mp hnodup).1
  have hnb : (none : Option α) ≠ some b := by simp
  have hpush : d.pushFront b =
      ⟨update (update d.next (some b) v) none (some b),
       update (update d.prev (some b) none) v (some b)⟩ := by
    unfold Links.pushFront
    simp only [hnext, update_of_ne hnb]
  refine ⟨?_, List.nodup_cons.mpr ⟨hb, h.nodup⟩⟩
  rw [List.map_cons, List.cons_append, List.cons_append, hr, hpush]
  refine ⟨?_, ?_, ?_, update_self _ _ _, hrest.transport ?_ ?_⟩
  · simp only [update_self]
  · simp only [update_of_ne hvb.symm, update_self]
  · simp only [update_of_ne hnb.symm, update_self]
  · intro y hy
    rw [← hr, List.dropLast_concat] at hy
    obtain ⟨x, hx, rfl⟩ := List.mem_map.mp hy
    have hxb : (some x : Option α) ≠ some b := by
      rintro hxb
      rw [Option.some.inj hxb] at hx
      exact hb hx
    simp only [update_of_ne (Option.some_ne_none x), update_of_ne hxb]
  · intro y hy
    have hyv : y ≠ v := by
      rintro rfl
      exact hvr hy
    have hyb : y ≠ some b := by
      rintro rfl
      have hmem : some b ∈ xs.map some ++ [none] := by rw [hr]; exact List.mem_cons_of_mem _ hy
      rw [List.mem_append] at hmem
      simp [hb] at hmem
    simp only [update_of_ne hyv, update_of_ne hyb]

end edit

/-! ### Walking the list -/

/-- `for (b = ...; b != &head; b = step(b)) if (p(b)) return b`, for at most
    `fuel` tests of the loop condition; `none` when the fuel runs out. -/
def walk (step : Option α → Option α) (p : α → Bool) : Nat → Option α → Option (Option α)
  | 0, _ => none
  | _ + 1, none => some none
  | fuel + 1, some b => if p b then some (some b) else walk step p fuel (step (some b))

theorem walk_chain {d : Links α} {xs : List α} : ∀ {a : Option α} {fuel : Nat},
    Chain d (a :: xs.map some ++ [none]) → xs.length < fuel →
    walk d.next p fuel (d.next a) = some (xs.find? p) := by
  induction xs with
  | nil =>
    intro a fuel h hf
    obtain ⟨fuel, rfl⟩ := Nat.exists_eq_succ_of_ne_zero (Nat.ne_of_gt hf)
    rw [show d.next a = none from h.1]
    rfl
  | cons x xs ih =>
    intro a fuel h hf
    obtain ⟨fuel, rfl⟩ := Nat.exists_eq_succ_of_ne_zero (Nat.ne_of_gt (Nat.zero_lt_of_lt hf))
    obtain ⟨hn, _, hrest⟩ := h
    rw [hn, walk, List.find?_cons]
    cases hp : p x with
    | true => rfl
    | false => exact ih hrest (Nat.lt_of_succ_lt_succ hf)

/-- From the front. -/
theorem Circular.walk_next {d : Links α} {xs : List α} {fuel : Nat} (h : Circular d xs)
    (hf : xs.length < fuel) : walk d.next p fuel (d.next none) = some (xs.find? p) :=
  walk_chain h.chain hf

/-- From the back. -/
theorem Circular.walk_prev {d : Links α} {xs : List α} {fuel : Nat} (h : Circular d xs)
    (hf : xs.length < fuel) : walk d.prev p fuel (d.prev none) = some (xs.reverse.find? p) := by
  have hrev : Chain d.swap (none :: xs.reverse.map some ++ [none]) := by
    have := h.chain.reverse
    simpa using this
  exact walk_chain hrev (by simpa using hf)

end DList
