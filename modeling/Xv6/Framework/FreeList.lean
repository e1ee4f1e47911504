import Mathlib.Data.List.Chain
import Mathlib.Data.List.Rotate

/-! # Extents and Circular Lists

    What an allocator with an address-ordered circular free list rests on:

    - `Extent`: a run of addresses, and `cover es x`, how many of the extents
      `es` hold the address `x`. Disjointness and tiling are both statements
      about `cover`, and it adds up under splitting and joining.
    - `RingList next a l`: following `next` from `a` gives the members `l` in turn
      and then `a` again. A ring may be entered at any of its members.
    - `RingList.search`: the loop that follows `next` to the first node with a property.
-/

/-! ### Extents -/

/-- The addresses `[start, start + len)`. -/
structure Extent where
  start : Nat
  len : Nat
  deriving DecidableEq

namespace Extent

/-- The first address behind the extent. -/
def stop (e : Extent) : Nat := e.start + e.len

/-- The extent holds the address `x`. -/
def Has (e : Extent) (x : Nat) : Prop := e.start ≤ x ∧ x < e.stop

instance (e : Extent) (x : Nat) : Decidable (e.Has x) :=
  inferInstanceAs (Decidable (_ ∧ _))

/-- No address is in both. -/
def Apart (e f : Extent) : Prop := e.stop ≤ f.start ∨ f.stop ≤ e.start

/-- How many of the extents hold `x`. -/
def cover (es : List Extent) (x : Nat) : Nat := es.countP (fun e => decide (e.Has x))

@[simp] theorem cover_nil (x : Nat) : cover [] x = 0 := rfl

@[simp] theorem cover_cons (e : Extent) (es : List Extent) (x : Nat) :
    cover (e :: es) x = (if e.Has x then 1 else 0) + cover es x := by
  unfold cover
  rw [List.countP_cons, Nat.add_comm]
  simp

@[simp] theorem cover_append (es fs : List Extent) (x : Nat) :
    cover (es ++ fs) x = cover es x + cover fs x :=
  List.countP_append

theorem cover_pos {es : List Extent} {x : Nat} : 0 < cover es x ↔ ∃ e ∈ es, e.Has x := by
  simp [cover, List.countP_pos_iff]

/-- An extent that is cut in two covers what the two parts cover. -/
theorem has_split (a n k x : Nat) :
    (if Has ⟨a, n⟩ x then 1 else 0) + (if Has ⟨a + n, k⟩ x then 1 else 0) =
      if Has ⟨a, n + k⟩ x then 1 else 0 := by
  have hiff : Has ⟨a, n + k⟩ x ↔ Has ⟨a, n⟩ x ∨ Has ⟨a + n, k⟩ x := by
    unfold Has stop
    dsimp only
    omega
  have hnot : Has ⟨a, n⟩ x → ¬ Has ⟨a + n, k⟩ x := by
    unfold Has stop
    dsimp only
    omega
  by_cases h₁ : Has ⟨a, n⟩ x
  · rw [if_pos h₁, if_neg (hnot h₁), if_pos (hiff.mpr (Or.inl h₁))]
  · by_cases h₂ : Has ⟨a + n, k⟩ x
    · rw [if_neg h₁, if_pos h₂, if_pos (hiff.mpr (Or.inr h₂))]
    · rw [if_neg h₁, if_neg h₂, if_neg (fun h => (hiff.mp h).elim h₁ h₂)]

theorem Apart.symm {e f : Extent} (h : Apart e f) : Apart f e := Or.symm h

/-- Extents that share no address lie apart, unless one is empty. -/
theorem apart_of_no_common {e f : Extent} (he : 0 < e.len) (hf : 0 < f.len)
    (h : ∀ x, ¬ (e.Has x ∧ f.Has x)) : Apart e f := by
  have h₁ := h e.start
  have h₂ := h f.start
  unfold Has stop at h₁ h₂
  unfold Apart stop
  omega

theorem Apart.not_has {e f : Extent} (h : Apart e f) {x : Nat} (hx : e.Has x) : ¬ f.Has x := by
  unfold Has at *
  unfold Apart at h
  omega

/-- Extents of two lists that together cover each address at most once. -/
theorem apart_of_cover {es fs : List Extent} {e f : Extent}
    (h : ∀ x, cover es x + cover fs x ≤ 1) (he : e ∈ es) (hf : f ∈ fs)
    (hel : 0 < e.len) (hfl : 0 < f.len) : Apart e f := by
  apply apart_of_no_common hel hfl
  rintro x ⟨hex, hfx⟩
  have h₁ : 0 < cover es x := cover_pos.mpr ⟨e, he, hex⟩
  have h₂ : 0 < cover fs x := cover_pos.mpr ⟨f, hf, hfx⟩
  have := h x
  omega

/-- A list that covers each address at most once is pairwise disjoint. -/
theorem pairwise_apart : ∀ {es : List Extent}, (∀ x, cover es x ≤ 1) → (∀ e ∈ es, 0 < e.len) →
    es.Pairwise Apart
  | [], _, _ => List.Pairwise.nil
  | e :: es, h, hlen => by
    refine List.pairwise_cons.mpr ⟨fun f hf => ?_, pairwise_apart (fun x => ?_) (fun f hf => ?_)⟩
    · have hone : ∀ x, cover [e] x + cover es x ≤ 1 := fun x => by simpa using h x
      exact apart_of_cover hone (List.mem_singleton_self e) hf
        (hlen e List.mem_cons_self) (hlen f (List.mem_cons_of_mem _ hf))
    · have := h x
      rw [cover_cons] at this
      omega
    · exact hlen f (List.mem_cons_of_mem _ hf)

/-- Extents one behind the other cover each address at most once. -/
theorem cover_le_one_of_increasing : ∀ {es : List Extent},
    es.Pairwise (fun e f => e.stop ≤ f.start) → ∀ x, cover es x ≤ 1
  | [], _, _ => Nat.zero_le _
  | e :: es, h, x => by
    obtain ⟨hhead, htail⟩ := List.pairwise_cons.mp h
    have ih := cover_le_one_of_increasing htail x
    rw [cover_cons]
    split_ifs with hx
    · have hnone : ¬ 0 < cover es x := by
        rw [cover_pos]
        rintro ⟨f, hf, hfx⟩
        exact Apart.not_has (Or.inl (hhead f hf)) hx hfx
      omega
    · omega

end Extent

/-! ### Circular lists -/

/-- Following `next` from `a` gives the nodes `l` in turn, and then `a` again. -/
def RingList {α : Type*} (next : α → α) (a : α) (l : List α) : Prop :=
  (a :: l ++ [a]).IsChain (fun x y => next x = y)

namespace RingList

variable {α : Type*} {next next' : α → α} {a x : α} {l pre post : List α}

/-- The ring seen from another member. -/
theorem enter (h : RingList next a (pre ++ x :: post)) : RingList next x (post ++ a :: pre) := by
  unfold RingList at h ⊢
  have hcut : (a :: pre ++ x :: (post ++ [a])).IsChain (fun x y => next x = y) := by
    simpa using h
  obtain ⟨hleft, hright⟩ := List.isChain_split.mp hcut
  have hjoin : ((x :: post) ++ a :: (pre ++ [x])).IsChain (fun x y => next x = y) :=
    List.isChain_split.mpr ⟨by simpa using hright, by simpa using hleft⟩
  simpa using hjoin

/-- Every member may be taken as the first one. -/
theorem exists_enter (h : RingList next a l) (hx : x ∈ a :: l) :
    ∃ l', RingList next x l' ∧ (x :: l') ~r (a :: l) := by
  rcases List.mem_cons.mp hx with rfl | hx
  · exact ⟨l, h, List.IsRotated.refl _⟩
  · obtain ⟨pre, post, rfl⟩ := List.append_of_mem hx
    refine ⟨post ++ a :: pre, h.enter, ?_⟩
    have hrot : (a :: pre ++ x :: post) ~r (x :: post ++ a :: pre) := List.isRotated_append
    simpa using hrot.symm

/-- The links of a chain are read at all its nodes but the last. -/
theorem transport {l : List α} (h : l.IsChain (fun x y => next x = y))
    (hsame : ∀ x ∈ l.dropLast, next' x = next x) : l.IsChain (fun x y => next' x = y) := by
  induction l with
  | nil => exact List.IsChain.nil
  | cons a l ih =>
    cases l with
    | nil => exact List.IsChain.singleton a
    | cons b l =>
      obtain ⟨hab, hrest⟩ := List.isChain_cons_cons.mp h
      refine List.isChain_cons_cons.mpr ⟨(hsame a (by simp)).trans hab, ih hrest ?_⟩
      intro x hx
      exact hsame x (by simp [hx])

/-- The first link of a chain. -/
theorem head?_of_chain (h : (a :: l).IsChain (fun x y => next x = y)) (hl : l ≠ []) :
    l.head? = some (next a) := by
  cases l with
  | nil => exact absurd rfl hl
  | cons b l => exact congrArg some (List.isChain_cons_cons.mp h).1.symm

/-! ### The search loop -/

/-- `for (p = ...; !stop(p); p = next(p))`, for at most `fuel` nodes; `none`
    when the fuel runs out. -/
def search {α : Type*} (next : α → α) (stop : α → Bool) : Nat → α → Option α
  | 0, _ => none
  | fuel + 1, p => if stop p then some p else search next stop fuel (next p)

/-- Along a chain that holds exactly one node at which the loop stops. -/
theorem search_chain {α : Type*} {next : α → α} {stop : α → Bool} {q : α} : ∀ {l : List α} {x : α}
    {fuel : Nat}, (x :: l).IsChain (fun x y => next x = y) → q ∈ x :: l →
    (∀ y ∈ x :: l, stop y = true ↔ y = q) → l.length < fuel →
    search next stop fuel x = some q
  | l, x, fuel, hchain, hq, hstop, hfuel => by
    obtain ⟨fuel, rfl⟩ := Nat.exists_eq_succ_of_ne_zero (Nat.ne_of_gt (Nat.zero_lt_of_lt hfuel))
    by_cases hx : x = q
    · subst hx
      simp [search, (hstop x List.mem_cons_self).mpr rfl]
    · have hgo : stop x = false := by
        rw [← Bool.not_eq_true, hstop x List.mem_cons_self]
        exact hx
      cases l with
      | nil => exact absurd (List.mem_singleton.mp hq).symm hx
      | cons y l =>
        obtain ⟨hxy, hrest⟩ := List.isChain_cons_cons.mp hchain
        rw [search, hgo, hxy]
        refine search_chain hrest ?_ (fun z hz => hstop z (List.mem_cons_of_mem _ hz)) ?_
        · exact (List.mem_cons.mp hq).resolve_left (fun h => hx h.symm)
        · exact Nat.lt_of_succ_lt_succ hfuel

/-- More fuel does not change the result. -/
theorem search_mono {α : Type*} {next : α → α} {stop : α → Bool} {q : α} :
    ∀ {fuel fuel' : Nat} {x : α}, search next stop fuel x = some q → fuel ≤ fuel' →
    search next stop fuel' x = some q
  | 0, _, _, h, _ => absurd h (by simp [search])
  | fuel + 1, 0, _, _, hle => absurd hle (by omega)
  | fuel + 1, fuel' + 1, x, h, hle => by
    rw [search] at h ⊢
    split at h
    · rwa [if_pos ‹_›]
    · rw [if_neg ‹_›]
      exact search_mono h (Nat.le_of_succ_le_succ hle)

end RingList
