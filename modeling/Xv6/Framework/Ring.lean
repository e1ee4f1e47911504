import Mathlib.Data.Int.ModEq

/-! # Ring Buffers with Free-Running Counters

    A ring of `cap` slots addressed by two `w`-bit counters that are only
    ever incremented and wrap at `2 ^ w`. A counter selects the slot with
    index `counter % cap`, so `cap` has to divide `2 ^ w`; the ring is
    full when the counters differ by `cap`, so `cap` has to be less than
    `2 ^ w`.

    `RingInv` relates the slots and the counters to the whole history of
    values pushed, of which the first `taken` have been popped. The
    history is never truncated: wrapping is visible in the counters only.
-/

namespace Ring

universe u

variable {α : Type u} {cap w : Nat} [NeZero cap]

/-- The slots and counters hold the values `hist[taken..]`. -/
structure RingInv (slot : Fin cap → α) (nread nwrite : BitVec w)
    (hist : List α) (taken : Nat) : Prop where
  nread_eq  : nread = BitVec.ofNat w taken
  nwrite_eq : nwrite = BitVec.ofNat w hist.length
  taken_le  : taken ≤ hist.length
  fits      : hist.length ≤ taken + cap
  held      : ∀ (j : Nat) (h : j < hist.length), taken ≤ j →
    slot (Fin.ofNat cap j) = hist[j]

/-- An empty ring with both counters at zero. -/
theorem RingInv.nil (slot : Fin cap → α) : RingInv slot 0#w 0#w [] 0 := by
  refine ⟨rfl, rfl, Nat.le_refl _, Nat.zero_le _, ?_⟩
  intro j h
  exact absurd h (Nat.not_lt_zero j)

/-! ### The counters and the history -/

/-- The slot index computed from a wrapped counter is the one computed
    from the number of operations. -/
theorem slotIndex_ofNat (hdvd : cap ∣ 2 ^ w) (n : Nat) :
    Fin.ofNat cap (BitVec.ofNat w n).toNat = Fin.ofNat cap n := by
  apply Fin.ext
  simp only [Fin.val_ofNat, BitVec.toNat_ofNat]
  exact Nat.mod_mod_of_dvd n hdvd

section counters
variable {slot : Fin cap → α} {nread nwrite : BitVec w} {hist : List α} {taken : Nat}

section

variable (h : RingInv slot nread nwrite hist taken)

include h

/-- The wrapped distance of the counters is the number of values held. -/
theorem RingInv.toNat_sub (hlt : cap < 2 ^ w) : (nwrite - nread).toNat = hist.length - taken := by
  have hfits := h.fits
  have hle := h.taken_le
  have hadd : nwrite = BitVec.ofNat w (hist.length - taken) + nread := by
    rw [h.nwrite_eq, h.nread_eq, ← BitVec.ofNat_add]
    congr 1
    omega
  have hsub : nwrite - nread = BitVec.ofNat w (hist.length - taken) := by
    rw [hadd, BitVec.add_sub_cancel]
  rw [hsub, BitVec.toNat_ofNat]
  exact Nat.mod_eq_of_lt (by omega)

theorem RingInv.empty_iff (hlt : cap < 2 ^ w) : nread = nwrite ↔ taken = hist.length := by
  have hdist := h.toNat_sub hlt
  have hle := h.taken_le
  constructor
  · intro heq
    rw [heq, BitVec.sub_self, BitVec.toNat_zero] at hdist
    omega
  · intro heq
    rw [h.nread_eq, h.nwrite_eq, heq]

theorem RingInv.full_iff (hlt : cap < 2 ^ w) :
    nwrite = nread + BitVec.ofNat w cap ↔ hist.length = taken + cap := by
  have hdist := h.toNat_sub hlt
  have hle := h.taken_le
  constructor
  · intro heq
    have hsub : nwrite - nread = BitVec.ofNat w cap := by
      rw [heq, BitVec.add_comm, BitVec.add_sub_cancel]
    rw [hsub, BitVec.toNat_ofNat, Nat.mod_eq_of_lt hlt] at hdist
    omega
  · intro heq
    rw [h.nwrite_eq, h.nread_eq, heq, BitVec.ofNat_add]

/-! ### Push and pop -/

/-- Storing at the write counter and advancing it appends to the
    history. -/
theorem RingInv.push (hdvd : cap ∣ 2 ^ w) (hlt : cap < 2 ^ w)
    (hroom : nwrite ≠ nread + BitVec.ofNat w cap) (x : α) :
    RingInv (Function.update slot (Fin.ofNat cap nwrite.toNat) x)
      nread (nwrite + 1) (hist ++ [x]) taken := by
  have hne : hist.length ≠ taken + cap := fun heq => hroom ((h.full_iff hlt).mpr heq)
  have hfits := h.fits
  have hle := h.taken_le
  refine ⟨h.nread_eq, ?_, ?_, ?_, ?_⟩
  · rw [h.nwrite_eq, List.length_append, List.length_singleton, BitVec.ofNat_add]
    rfl
  · simp only [List.length_append, List.length_singleton]
    omega
  · simp only [List.length_append, List.length_singleton]
    omega
  · intro j hj htj
    rw [h.nwrite_eq, slotIndex_ofNat hdvd]
    by_cases hlast : j = hist.length
    · subst hlast
      simp
    · have hj' : j < hist.length := by
        simp only [List.length_append, List.length_singleton] at hj
        omega
      -- an older value sits less than `cap` behind, hence in another slot
      have hslot : Fin.ofNat cap j ≠ Fin.ofNat cap hist.length := by
        intro heq
        have hmod : j % cap = hist.length % cap := congrArg Fin.val heq
        have hdv : cap ∣ hist.length - j :=
          (Nat.modEq_iff_dvd' (by omega)).mp hmod
        have := Nat.le_of_dvd (by omega) hdv
        omega
      rw [Function.update_of_ne hslot, List.getElem_append_left hj']
      exact h.held j hj' htj

/-- Reading at the read counter delivers the oldest value held, and
    advancing the counter removes it. -/
theorem RingInv.pop (hdvd : cap ∣ 2 ^ w) (hlt : cap < 2 ^ w) (hne : nread ≠ nwrite) :
    ∃ hj : taken < hist.length,
      slot (Fin.ofNat cap nread.toNat) = hist[taken] ∧
      RingInv slot (nread + 1) nwrite hist (taken + 1) := by
  have hle := h.taken_le
  have hfits := h.fits
  have hne' : taken ≠ hist.length := fun heq => hne ((h.empty_iff hlt).mpr heq)
  have hj : taken < hist.length := by omega
  refine ⟨hj, ?_, ?_⟩
  · rw [h.nread_eq, slotIndex_ofNat hdvd]
    exact h.held taken hj (Nat.le_refl _)
  · refine ⟨?_, h.nwrite_eq, hj, by omega, ?_⟩
    · rw [h.nread_eq, BitVec.ofNat_add]
      rfl
    · intro j hj' htj
      exact h.held j hj' (by omega)

end

/-- The newest values of the history can be taken back, as long as they
    have not been popped: the write counter steps back. -/
theorem RingInv.truncate {rest : List α}
    (h : RingInv slot nread nwrite (hist ++ rest) taken) (hle : taken ≤ hist.length) :
    RingInv slot nread (BitVec.ofNat w hist.length) hist taken := by
  have hfits := h.fits
  rw [List.length_append] at hfits
  refine ⟨h.nread_eq, rfl, hle, by omega, ?_⟩
  intro j hj htj
  have hj' : j < (hist ++ rest).length := by
    rw [List.length_append]
    omega
  rw [h.held j hj' htj, List.getElem_append_left hj]

/-! ### The values between two counters -/

/-- The values in the slots from counter `i` up to, and without, counter
    `j`. -/
def between (slot : Fin cap → α) (i j : BitVec w) : List α :=
  (List.range (j - i).toNat).map
    (fun k => slot (Fin.ofNat cap (i + BitVec.ofNat w k).toNat))

/-- Between a counter that has not been popped and the write counter stands
    the history from there on. -/
theorem RingInv.between_eq (h : RingInv slot nread nwrite hist taken)
    (hdvd : cap ∣ 2 ^ w) (hlt : cap < 2 ^ w) {a : Nat} (hta : taken ≤ a)
    (ha : a ≤ hist.length) : between slot (BitVec.ofNat w a) nwrite = hist.drop a := by
  have hfits := h.fits
  have hdist : (nwrite - BitVec.ofNat w a).toNat = hist.length - a := by
    have hadd : nwrite = BitVec.ofNat w (hist.length - a) + BitVec.ofNat w a := by
      rw [h.nwrite_eq, ← BitVec.ofNat_add]
      congr 1
      omega
    rw [hadd, BitVec.add_sub_cancel, BitVec.toNat_ofNat]
    exact Nat.mod_eq_of_lt (by omega)
  unfold between
  rw [hdist]
  apply List.ext_getElem
  · simp
  · intro k h1 h2
    have hk : k < hist.length - a := by simpa using h1
    rw [List.getElem_map, List.getElem_range, ← BitVec.ofNat_add, slotIndex_ofNat hdvd,
      h.held (a + k) (by omega) (by omega), List.getElem_drop]

/-- The values held. -/
theorem RingInv.between_read (h : RingInv slot nread nwrite hist taken)
    (hdvd : cap ∣ 2 ^ w) (hlt : cap < 2 ^ w) : between slot nread nwrite = hist.drop taken := by
  rw [h.nread_eq]
  exact h.between_eq hdvd hlt (Nat.le_refl _) h.taken_le

end counters

end Ring
