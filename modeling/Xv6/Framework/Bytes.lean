import Mathlib.Algebra.Order.Ring.Nat

/-! # Byte Buffers and Little-Endian Fields

    A buffer is a fixed-size array of bytes. `splice` is the effect of a
    `memmove` into part of a buffer; `getLE` and `putLE` read and write a
    little-endian integer of `k` bytes, which is how the machine stores
    the fields of the on-disk structures.

    Reads outside the buffer give zero and writes outside it are dropped,
    so each law carries the bound it needs.
-/

namespace Bytes

/-- A buffer of `n` bytes. -/
abbrev Buf (n : Nat) : Type := Fin n → BitVec 8

variable {n : Nat} {j : Nat}

/-- The byte at offset `j`. -/
def Buf.get (b : Buf n) (j : Nat) : BitVec 8 :=
  if h : j < n then b ⟨j, h⟩ else 0

/-- Overwrite the bytes `[off, off + len)` with `src 0, src 1, ...`. -/
def splice (b : Buf n) (off len : Nat) (src : Nat → BitVec 8) : Buf n :=
  fun i => if off ≤ i.val ∧ i.val < off + len then src (i.val - off) else b i

theorem get_splice (b : Buf n) (off len : Nat) (src : Nat → BitVec 8) (hj : j < n) :
    (splice b off len src).get j =
      if off ≤ j ∧ j < off + len then src (j - off) else b.get j := by
  simp [Buf.get, splice, hj]

theorem get_splice_of_lt (b : Buf n) (off len : Nat) (src : Nat → BitVec 8) (h : j < off) :
    (splice b off len src).get j = b.get j := by
  by_cases hj : j < n
  · rw [get_splice b off len src hj, if_neg (by omega)]
  · simp [Buf.get, hj]

theorem get_splice_of_ge (b : Buf n) (off len : Nat) (src : Nat → BitVec 8) (h : off + len ≤ j) :
    (splice b off len src).get j = b.get j := by
  by_cases hj : j < n
  · rw [get_splice b off len src hj, if_neg (by omega)]
  · simp [Buf.get, hj]

/-! ### Little-endian integers -/

/-- The integer whose bytes are `f 0` (lowest), ..., `f (k - 1)`. -/
def le : (k : Nat) → (Nat → BitVec 8) → BitVec (8 * k)
  | 0, _ => 0#0
  | k + 1, f => (le k (fun i => f (i + 1)) ++ f 0 : BitVec (8 * k + 8))

/-- Byte `i` of an integer, counted from the lowest. -/
def byteOf {w : Nat} (v : BitVec w) (i : Nat) : BitVec 8 := v.extractLsb' (8 * i) 8

theorem le_congr : ∀ (k : Nat) {f g : Nat → BitVec 8},
    (∀ i, i < k → f i = g i) → le k f = le k g := by
  intro k
  induction k with
  | zero => intro f g _; rfl
  | succ k ih =>
    intro f g h
    have htail : le k (fun i => f (i + 1)) = le k (fun i => g (i + 1)) :=
      ih (fun i hi => h (i + 1) (by omega))
    simp only [le, htail, h 0 (by omega)]

/-- Bit `j` of the integer is bit `j % 8` of its byte `j / 8`. -/
theorem getLsbD_le : ∀ (k : Nat) (f : Nat → BitVec 8) (j : Nat), j < 8 * k →
    (le k f).getLsbD j = (f (j / 8)).getLsbD (j % 8) := by
  intro k
  induction k with
  | zero => intro f j hj; omega
  | succ k ih =>
    intro f j hj
    simp only [le, BitVec.getLsbD_append]
    by_cases hlow : j < 8
    · have hdiv : j / 8 = 0 := by omega
      have hmod : j % 8 = j := by omega
      simp [hlow, hdiv, hmod]
    · have hrec := ih (fun i => f (i + 1)) (j - 8) (by omega)
      have hdiv : (j - 8) / 8 + 1 = j / 8 := by omega
      have hmod : (j - 8) % 8 = j % 8 := by omega
      rw [hdiv, hmod] at hrec
      simp [hlow, hrec]

/-- An integer is put together again from its bytes. -/
theorem le_byteOf (k : Nat) (v : BitVec (8 * k)) : le k (byteOf v) = v := by
  apply BitVec.eq_of_getLsbD_eq
  intro j hj
  rw [getLsbD_le k _ j hj]
  have hsum : 8 * (j / 8) + j % 8 = j := Nat.div_add_mod j 8
  have hmod : j % 8 < 8 := Nat.mod_lt j (by omega)
  simp [byteOf, hsum, hmod]

/-! ### Fields of a buffer -/

/-- The `k`-byte little-endian field at offset `off`. -/
def getLE (k : Nat) (b : Buf n) (off : Nat) : BitVec (8 * k) :=
  le k (fun i => b.get (off + i))

/-- Store a `k`-byte little-endian field at offset `off`. -/
def putLE (k : Nat) (b : Buf n) (off : Nat) (v : BitVec (8 * k)) : Buf n :=
  splice b off k (byteOf v)

theorem getLE_putLE_self (k : Nat) (b : Buf n) (off : Nat) (v : BitVec (8 * k))
    (h : off + k ≤ n) : getLE k (putLE k b off v) off = v := by
  unfold getLE putLE
  rw [← le_byteOf k v]
  apply le_congr
  intro i hi
  rw [le_byteOf, get_splice _ _ _ _ (by omega), if_pos (by omega)]
  congr 1
  omega

/-- A field is unchanged by a write to other bytes. -/
theorem getLE_splice_of_disjoint (k : Nat) (b : Buf n) (off len : Nat)
    (src : Nat → BitVec 8) (o : Nat) (h : o + k ≤ off ∨ off + len ≤ o) :
    getLE k (splice b off len src) o = getLE k b o := by
  apply le_congr
  intro i hi
  rcases h with h | h
  · exact get_splice_of_lt b off len src (by omega)
  · exact get_splice_of_ge b off len src (by omega)

theorem getLE_putLE_of_disjoint (k m : Nat) (b : Buf n) (off : Nat)
    (v : BitVec (8 * m)) (o : Nat) (h : o + k ≤ off ∨ off + m ≤ o) :
    getLE k (putLE m b off v) o = getLE k b o :=
  getLE_splice_of_disjoint k b off m (byteOf v) o h

/-! ### Byte strings in a buffer -/

/-- `memmove(b + off, p, length)`. -/
def write (b : Buf n) (off : Nat) (p : List (BitVec 8)) : Buf n :=
  splice b off p.length (fun i => p.getD i 0)

theorem write_append (b : Buf n) (off : Nat) (p q : List (BitVec 8)) :
    write b off (p ++ q) = write (write b off p) (off + p.length) q := by
  funext i
  simp only [write, splice, List.length_append, List.getD_eq_getElem?_getD]
  by_cases hlt : i.val < off + p.length
  · rw [if_neg (show ¬ (off + p.length ≤ i.val ∧ _) by omega), List.getElem?_append]
    grind
  · grind

/-- The bytes of `p` are at offset `off`. -/
def Holds (b : Buf n) (off : Nat) (p : List (BitVec 8)) : Prop :=
  ∀ i x, p[i]? = some x → b.get (off + i) = x

theorem holds_write (b : Buf n) (off : Nat) (p : List (BitVec 8)) (h : off + p.length ≤ n) :
    Holds (write b off p) off p := by
  intro i x hx
  obtain ⟨hi, _⟩ := List.getElem?_eq_some_iff.mp hx
  rw [write, get_splice _ _ _ _ (by omega), if_pos (by omega), Nat.add_sub_cancel_left,
    List.getD_eq_getElem?_getD, hx]
  rfl

/-- A byte string is unchanged by a write to other bytes. -/
theorem Holds.write {b : Buf n} {o off : Nat} {p q : List (BitVec 8)} (h : Holds b o q)
    (hd : o + q.length ≤ off ∨ off + p.length ≤ o) : Holds (write b off p) o q := by
  intro i x hx
  obtain ⟨hi, _⟩ := List.getElem?_eq_some_iff.mp hx
  rw [← h i x hx, Bytes.write]
  rcases hd with hd | hd
  · exact get_splice_of_lt b off p.length _ (by omega)
  · exact get_splice_of_ge b off p.length _ (by omega)

theorem holds_append {b : Buf n} {off : Nat} {p q : List (BitVec 8)} :
    Holds b off (p ++ q) ↔ Holds b off p ∧ Holds b (off + p.length) q := by
  constructor
  · intro h
    refine ⟨fun i x hx => h i x ?_, fun i x hx => ?_⟩
    · rw [List.getElem?_append_left (List.getElem?_eq_some_iff.mp hx).1]
      exact hx
    · rw [Nat.add_assoc]
      refine h _ x ?_
      rw [List.getElem?_append_right (Nat.le_add_right _ _), Nat.add_sub_cancel_left]
      exact hx
  · rintro ⟨hp, hq⟩ i x hx
    by_cases hi : i < p.length
    · rw [List.getElem?_append_left hi] at hx
      exact hp i x hx
    · rw [List.getElem?_append_right (by omega)] at hx
      have hsum : off + i = off + p.length + (i - p.length) := by omega
      rw [hsum]
      exact hq _ x hx

end Bytes
