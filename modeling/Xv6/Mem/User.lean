import Xv6.Mem.Build

/-! # Accesses to User Memory

    What a program sees of its address space: the byte at a user address,
    and a store to one. Two directories that share no user page do not see
    each other's stores.

    The last section is about the words of a page table. The model of
    `vm.c` keeps the page of an entry and its flags apart; here are the
    masks with which the code takes a word apart and puts it together.
-/

namespace Xv6.Vm

open Ownership

namespace Mem

variable {E : Type} {S : Set Page} {m m' : Mem} {he : E → Option Page}
  {loose : List Page} {d d' x : Page} {D D' : PageDir} {L : Layout} {a : Nat} {e : Pte}

/-! ### Bytes -/

/-- The byte at user address `a`. -/
def loadByte (m : Mem) (d : Page) (a : Nat) : Option Byte :=
  (m.dirs d).bind fun D => (D.pte (a / PGSIZE)).map fun e => (m.contents e.ppn).get (a % PGSIZE)

/-- A store to user address `a`. -/
def storeByte (m : Mem) (d : Page) (a : Nat) (b : Byte) : Mem :=
  match (m.dirs d).bind (fun D => D.pte (a / PGSIZE)) with
  | none => m
  | some e =>
    { m with
      contents := Function.update m.contents e.ppn
        (Bytes.splice (m.contents e.ppn) (a % PGSIZE) 1 (fun _ => b)) }

theorem loadByte_eq (hd : m.dirs d = some D) (hp : D.pte (a / PGSIZE) = some e) :
    m.loadByte d a = some ((m.contents e.ppn).get (a % PGSIZE)) := by
  simp [loadByte, hd, hp]

theorem loadByte_congr (hd : m.dirs d = some D) (hd' : m'.dirs d = some D')
    (hp : D.pte (a / PGSIZE) = some e) (hp' : D'.pte (a / PGSIZE) = some e)
    (hc : m'.contents e.ppn = m.contents e.ppn) : m'.loadByte d a = m.loadByte d a := by
  rw [loadByte_eq hd hp, loadByte_eq hd' hp', hc]

/-- The user address is mapped. -/
theorem user_page (ha : a < KERNBASE) (hd : m.dirs d = some D) (hp : D.pte (a / PGSIZE) = some e) :
    m.page (.user d (a / PGSIZE)) = some e.ppn := by
  refine page_user ?_ hd hp
  simp only [UPAGES, KERNBASE, PGSIZE] at ha ⊢
  omega

/-- A store through one directory is not seen through another one. -/
theorem Ok.isolated (h : Ok S m he loose) (hne : d ≠ d') {a' : Nat} (ha : a < KERNBASE)
    (ha' : a' < KERNBASE) (b : Byte) : (m.storeByte d a b).loadByte d' a' = m.loadByte d' a' := by
  unfold storeByte
  cases hd : m.dirs d with
  | none => rfl
  | some D =>
    cases hp : D.pte (a / PGSIZE) with
    | none => simp [hp]
    | some e =>
      simp only [Option.bind_some, hp]
      cases hd' : m.dirs d' with
      | none => simp [loadByte, hd']
      | some D' =>
        cases hp' : D'.pte (a' / PGSIZE) with
        | none => simp [loadByte, hd', hp']
        | some e' =>
          -- the two pages have different owners
          have hpage : e'.ppn ≠ e.ppn := by
            intro heq
            have howner := h.page_inj (user_page ha hd hp) (heq ▸ user_page ha' hd' hp')
            exact hne (Owner.user.inj howner).1
          simp [loadByte, hd', hp', Function.update_of_ne hpage]

end Mem

/-! ### Page-table words -/

def PTE_P : Word := 0x001

def PTE_FLAGS (pte : Word) : Word := pte &&& 0xFFF#32

/-- The word of the page with number `ppn` and the flags `flags`. -/
def pteWord (ppn : BitVec 20) (flags : BitVec 12) : Word := ppn ++ flags

/-- The word of an entry, with `PTE_P`, `PTE_W` and `PTE_U`. -/
def Pte.word (e : Pte) : Word :=
  pteWord (BitVec.ofNat 20 e.ppn)
    (0x001 ||| (if e.w then 0x002 else 0) ||| (if e.u then 0x004 else 0))

theorem getLsbD_pteWord (ppn : BitVec 20) (flags : BitVec 12) (i : Nat) :
    (pteWord ppn flags).getLsbD i = if i < 12 then flags.getLsbD i else ppn.getLsbD (i - 12) := by
  have happ := BitVec.getLsbD_append (x := ppn) (y := flags) (i := i)
  rw [show (pteWord ppn flags).getLsbD i = (ppn ++ flags).getLsbD i from rfl, happ]

theorem getLsbD_PTE_FLAGS (pte : Word) {i : Nat} (hi : i < 32) :
    (PTE_FLAGS pte).getLsbD i = (pte.getLsbD i && decide (i < 12)) := by
  have hmask : ∀ i : Fin 32, (0xFFF#32).getLsbD i = decide (i.val < 12) := by decide
  unfold PTE_FLAGS
  rw [BitVec.getLsbD_and, hmask ⟨i, hi⟩]

theorem pte_flags (ppn : BitVec 20) (flags : BitVec 12) :
    PTE_FLAGS (pteWord ppn flags) = pteWord 0 flags := by
  apply BitVec.eq_of_getLsbD_eq
  intro i hi
  rw [getLsbD_PTE_FLAGS _ hi, getLsbD_pteWord, getLsbD_pteWord]
  by_cases h12 : i < 12 <;> simp [h12]

/-- `pa | perm`. -/
theorem pte_or (ppn : BitVec 20) (flags : BitVec 12) :
    pteWord ppn 0 ||| pteWord 0 flags = pteWord ppn flags := by
  apply BitVec.eq_of_getLsbD_eq
  intro i _
  rw [BitVec.getLsbD_or, getLsbD_pteWord, getLsbD_pteWord, getLsbD_pteWord]
  by_cases h12 : i < 12 <;> simp [h12]

/-- The word that `mappages(d, i, PGSIZE, V2P(mem), PTE_FLAGS(*pte))` stores
    has the flags of the entry it was copied from, all twelve of them. -/
theorem pte_copied (ppn ppn' : BitVec 20) (flags : BitVec 12)
    (hp : pteWord ppn flags &&& PTE_P = PTE_P) :
    pteWord ppn' 0 ||| PTE_FLAGS (pteWord ppn flags) ||| PTE_P = pteWord ppn' flags := by
  rw [pte_flags, pte_or]
  apply BitVec.eq_of_getLsbD_eq
  intro i hi
  -- the bit that PTE_P adds is set already
  have hlow : ∀ i : Fin 32, ¬ i.val < 12 → PTE_P.getLsbD i = false := by decide
  have hbit := congrArg (fun pte => BitVec.getLsbD pte i) hp
  simp only [BitVec.getLsbD_and, getLsbD_pteWord] at hbit
  rw [BitVec.getLsbD_or, getLsbD_pteWord]
  by_cases h12 : i < 12
  · rw [if_pos h12] at hbit ⊢
    cases hf : flags.getLsbD i with
    | true => rfl
    | false =>
      rw [hf, Bool.false_and] at hbit
      rw [← hbit]
      rfl
  · rw [if_neg h12, hlow ⟨i, hi⟩ h12, Bool.or_false]

/-- The entry of the model is the word of the code. -/
theorem Pte.word_copied (e : Pte) (x : Page) :
    Pte.word ⟨x, e.w, e.u⟩ =
      pteWord (BitVec.ofNat 20 x) 0 ||| PTE_FLAGS e.word ||| PTE_P := by
  refine (pte_copied (BitVec.ofNat 20 e.ppn) (BitVec.ofNat 20 x) _ ?_).symm
  apply BitVec.eq_of_getLsbD_eq
  intro i hi
  have hlow : ∀ i : Fin 32, PTE_P.getLsbD i = decide (i.val = 0) := by decide
  rw [BitVec.getLsbD_and, getLsbD_pteWord, hlow ⟨i, hi⟩]
  by_cases hi0 : i = 0
  · subst hi0
    cases e.w <;> cases e.u <;> rfl
  · simp [hi0]

end Xv6.Vm
