import Mathlib.Data.List.Basic

/-! # Queues in an Array with a Tail Index

    A queue kept in the slots `0, ..., tail` of an array, empty when
    `tail` is `-1`. `push` stores behind the tail; `removeFirst` looks for
    the first entry with a property and shifts the entries behind it down.

    `toList` is the queue as a list. The operations are characterised by
    what they do to it: `push` appends and `removeFirst` is `List.eraseP`.
-/

universe u

/-- An array of slots and the index of the last one in use. -/
structure ArrayQueue (α : Type u) where
  slot : Nat → α
  tail : Int

namespace ArrayQueue

variable {α : Type u}

/-- The number of entries. -/
def size (q : ArrayQueue α) : Nat := (q.tail + 1).toNat

/-- The entries, first to last. -/
def toList (q : ArrayQueue α) : List α := (List.range q.size).map q.slot

/-- `tail++; slot[tail] = x`. -/
def push (q : ArrayQueue α) (x : α) : ArrayQueue α :=
  { slot := Function.update q.slot (q.tail + 1).toNat x, tail := q.tail + 1 }

/-- `for (i = 0; i <= tail; i++) if (P(slot[i])) break;` -/
def findFirst (q : ArrayQueue α) (P : α → Bool) : Option Nat :=
  (List.range q.size).find? (fun i => P (q.slot i))

/-- `for (i = 0; i < tail; i++) if (P(slot[i])) return true;`, which leaves
    out the last entry. -/
def anyBeforeTail (q : ArrayQueue α) (P : α → Bool) : Bool :=
  (List.range q.tail.toNat).any (fun i => P (q.slot i))

/-- `for (i = r; i < r + k; i++) slot[i] = slot[i + 1];` -/
def shiftDown (slot : Nat → α) : (r k : Nat) → Nat → α
  | _, 0 => slot
  | r, k + 1 => shiftDown (Function.update slot r (slot (r + 1))) (r + 1) k

/-- Shift the entries behind index `r` down by one. -/
def removeAt (q : ArrayQueue α) (r : Nat) : ArrayQueue α :=
  { slot := shiftDown q.slot r (q.tail.toNat - r), tail := q.tail - 1 }

/-- Remove the first entry with property `P`, if there is one. -/
def removeFirst (q : ArrayQueue α) (P : α → Bool) : Option (ArrayQueue α) :=
  (q.findFirst P).map q.removeAt

/-! ### The list of entries -/

@[simp] theorem length_toList (q : ArrayQueue α) : q.toList.length = q.size := by
  simp [toList]

theorem getElem_toList (q : ArrayQueue α) (i : Nat) (h : i < q.toList.length) :
    q.toList[i] = q.slot i := by
  simp [toList]

theorem slot_mem_toList (q : ArrayQueue α) {i : Nat} (h : (i : Int) ≤ q.tail) :
    q.slot i ∈ q.toList := by
  have hlt : i < q.toList.length := by
    simp only [length_toList, size]
    omega
  rw [← getElem_toList q i hlt]
  exact List.getElem_mem hlt

theorem toList_push (q : ArrayQueue α) (x : α) (h : -1 ≤ q.tail) :
    (q.push x).toList = q.toList ++ [x] := by
  have hsize : (q.push x).size = q.size + 1 := by
    simp only [size, push]
    omega
  unfold toList
  rw [hsize, List.range_succ, List.map_append, List.map_singleton]
  congr 1
  · apply List.map_congr_left
    intro i hi
    have hlt : i < q.size := List.mem_range.mp hi
    have hne : i ≠ (q.tail + 1).toNat := by
      unfold size at hlt
      omega
    simp [push, hne]
  · simp [push, size]

/-- The loop that leaves out the last entry looks at `dropLast`. -/
theorem anyBeforeTail_eq (q : ArrayQueue α) (P : α → Bool) :
    q.anyBeforeTail P = q.toList.dropLast.any P := by
  have hlen : q.tail.toNat = q.toList.dropLast.length := by
    simp only [List.length_dropLast, length_toList, size]
    omega
  rw [Bool.eq_iff_iff]
  simp only [anyBeforeTail, List.any_eq_true, List.mem_range]
  constructor
  · rintro ⟨i, hi, hP⟩
    have hi' : i < q.toList.dropLast.length := by omega
    refine ⟨q.toList.dropLast[i], List.getElem_mem hi', ?_⟩
    rw [List.getElem_dropLast, getElem_toList]
    exact hP
  · rintro ⟨x, hx, hP⟩
    obtain ⟨i, hi, rfl⟩ := List.getElem_of_mem hx
    refine ⟨i, by omega, ?_⟩
    rw [List.getElem_dropLast, getElem_toList] at hP
    exact hP

theorem shiftDown_apply : ∀ (k : Nat) (slot : Nat → α) (r i : Nat),
    shiftDown slot r k i = if r ≤ i ∧ i < r + k then slot (i + 1) else slot i := by
  intro k
  induction k with
  | zero =>
    intro slot r i
    have hno : ¬ (r ≤ i ∧ i < r + 0) := by omega
    simp only [shiftDown, if_neg hno]
  | succ k ih =>
    intro slot r i
    simp only [shiftDown, ih]
    by_cases hir : i = r
    · subst hir
      have h1 : ¬ (i + 1 ≤ i ∧ i < i + 1 + k) := by omega
      have h2 : i ≤ i ∧ i < i + (k + 1) := by omega
      simp only [if_neg h1, if_pos h2, Function.update_self]
    · have hsucc : i + 1 ≠ r ∨ i < r := by omega
      by_cases hin : r + 1 ≤ i ∧ i < r + 1 + k
      · have h2 : r ≤ i ∧ i < r + (k + 1) := by omega
        have hne : i + 1 ≠ r := by omega
        rw [if_pos hin, if_pos h2, Function.update_of_ne hne]
      · have h2 : ¬ (r ≤ i ∧ i < r + (k + 1)) := by omega
        rw [if_neg hin, if_neg h2, Function.update_of_ne hir]

theorem toList_removeAt (q : ArrayQueue α) {r : Nat} (hr : r < q.size) :
    (q.removeAt r).toList = q.toList.eraseIdx r := by
  have hsize : (q.removeAt r).size = q.size - 1 := by
    unfold size removeAt at *
    simp only
    omega
  have hlen : (q.toList.eraseIdx r).length = q.size - 1 := by
    rw [List.length_eraseIdx_of_lt (by simpa using hr), length_toList]
  apply List.ext_getElem
  · rw [length_toList, hsize, hlen]
  · intro i h1 h2
    have hi : i < q.size - 1 := by omega
    rw [getElem_toList, List.getElem_eraseIdx, getElem_toList]
    simp only [removeAt, shiftDown_apply, getElem_toList]
    have htail : q.tail.toNat = q.size - 1 := by
      unfold size
      omega
    by_cases hlt : i < r
    · have hno : ¬ (r ≤ i ∧ i < r + (q.tail.toNat - r)) := by omega
      simp [hlt, hno]
    · have hyes : r ≤ i ∧ i < r + (q.tail.toNat - r) := by omega
      simp [hlt, hyes]

/-! ### Removing an entry -/

theorem removeFirst_eq_none (q : ArrayQueue α) (P : α → Bool) :
    q.removeFirst P = none ↔ ∀ x ∈ q.toList, P x = false := by
  simp [removeFirst, findFirst, toList]

/-- Removing the first entry with a property, on lists. -/
theorem toList_removeFirst {q q' : ArrayQueue α} {P : α → Bool}
    (h : q.removeFirst P = some q') : q'.toList = q.toList.eraseP P := by
  unfold removeFirst at h
  obtain ⟨r, hr, rfl⟩ := Option.map_eq_some_iff.mp h
  unfold findFirst at hr
  obtain ⟨hP, hlt, hbefore⟩ := List.find?_range_eq_some.mp hr
  rw [List.mem_range] at hlt
  rw [toList_removeAt q hlt, List.eraseP_eq_eraseIdx]
  have hidx : q.toList.findIdx? P = some r := by
    rw [List.findIdx?_eq_some_iff_getElem]
    refine ⟨by simpa using hlt, by simpa [getElem_toList] using hP, ?_⟩
    intro j hj
    simpa [getElem_toList] using hbefore j hj
  rw [hidx]

theorem tail_removeFirst {q q' : ArrayQueue α} {P : α → Bool}
    (h : q.removeFirst P = some q') : q'.tail = q.tail - 1 := by
  unfold removeFirst at h
  obtain ⟨r, _, rfl⟩ := Option.map_eq_some_iff.mp h
  rfl

end ArrayQueue
