import Xv6.Params
import Xv6.Framework.FreeList

/-! # The User Heap (`umalloc.c`)

    The allocator every user program is linked with. Its state is the memory
    of the process and the static variable `freep`; the free list is in the
    memory, in the headers of the free blocks and in the static header `base`.

    - Memory is the bytes of a 32-bit address space. A header is two words,
      the link and the size in units of eight bytes, and pointer and `uint`
      arithmetic wrap.
    - The loops of `free` and `malloc` take fuel; `none` means that it ran out.
    - `sbrk` is a parameter: whatever answers with regions above all earlier
      ones, or fails.
-/

namespace Xv6.Umalloc

open Bytes

/-! ### Memory -/

/-- Bytes of the address space. -/
def ADDRSPACE : Nat := 4294967296

/-- The memory of a process. -/
abbrev Mem : Type := Buf ADDRSPACE

/-- The word at address `a`. -/
def word (m : Mem) (a : Nat) : Nat := (getLE 4 m a).toNat

/-- Store `v`, as a `uint`, at address `a`. -/
def setWord (m : Mem) (a v : Nat) : Mem := putLE 4 m a (BitVec.ofNat 32 v)

/-- `sizeof(Header)` -/
def HEADER : Nat := 8

/-- `p->s.ptr` -/
def ptr (m : Mem) (p : Nat) : Nat := word m p

/-- `p->s.size` -/
def size (m : Mem) (p : Nat) : Nat := word m (p + 4)

/-- `p->s.ptr = q` -/
def setPtr (m : Mem) (p q : Nat) : Mem := setWord m p q

/-- `p->s.size = n` -/
def setSize (m : Mem) (p n : Nat) : Mem := setWord m (p + 4) n

/-- `p + n`, for a pointer to a header. -/
def after (p n : Nat) : Nat := (p + HEADER * n) % ADDRSPACE

/-- `(Header*)ap - 1` -/
def headerOf (ap : Nat) : Nat := (ap + (ADDRSPACE - HEADER)) % ADDRSPACE

/-! ### The system call -/

/-- `sbrk`. For a positive argument the answer is the start of a region of
    that many bytes above `brk`, or failure (`(char*)-1`). The regions of
    successive calls need not be adjacent. -/
structure Sbrk where
  State : Type
  call : State → Int → Option Nat × State
  /-- No region handed out so far reaches beyond this address. -/
  brk : State → Nat
  brk_lt : ∀ s, brk s < ADDRSPACE
  brk_mono : ∀ (s : State) (n : Nat), 0 < n → brk s ≤ brk (call s n).2
  region : ∀ {s : State} {n a : Nat}, 0 < n → (call s n).1 = some a →
    brk s ≤ a ∧ a + n ≤ brk (call s n).2

/-- The allocator, the process's memory and the system below. -/
structure Heap (sb : Sbrk) where
  mem : Mem
  /-- `static Header *freep` -/
  freep : Nat
  os : sb.State
  /-- The regions obtained from `sbrk`, in the order of the calls (not a
      variable of the code). -/
  regions : List Extent

variable {sb : Sbrk}

/-! ### `free` -/

/-- The search of `free` ends at `p`: `bp` lies between `p` and its successor,
    or `p` is where the list wraps and `bp` lies beyond one of its ends. -/
def placeFound (m : Mem) (bp p : Nat) : Bool :=
  (decide (p < bp) && decide (bp < ptr m p)) ||
    (decide (ptr m p ≤ p) && (decide (p < bp) || decide (bp < ptr m p)))

/-- Join `bp` to its upper neighbour, or link it to it. -/
def joinUpper (m : Mem) (bp p : Nat) : Mem :=
  if after bp (size m bp) = ptr m p then
    let m := setSize m bp (size m bp + size m (ptr m p))
    setPtr m bp (ptr m (ptr m p))
  else
    setPtr m bp (ptr m p)

/-- Join `bp` to its lower neighbour `p`, or link `p` to it. -/
def joinLower (m : Mem) (bp p : Nat) : Mem :=
  if after p (size m p) = bp then
    let m := setSize m p (size m p + size m bp)
    setPtr m p (ptr m bp)
  else
    setPtr m p bp

def free (fuel : Nat) (h : Heap sb) (ap : Nat) : Option (Heap sb) :=
  let bp := headerOf ap
  (RingList.search (ptr h.mem) (placeFound h.mem bp) fuel h.freep).map fun p =>
    { h with mem := joinLower (joinUpper h.mem bp p) bp p, freep := p }

/-! ### `morecore` and `malloc` -/

/-- The bytes `morecore` asks for, as the `int` that `sbrk` takes. -/
def increment (nu : Nat) : Int := (BitVec.ofNat 32 (nu * HEADER)).toInt

/-- `nu` is raised to at least 4096 units; the result is zero when `sbrk` fails. -/
def morecore (fuel : Nat) (h : Heap sb) (nu : Nat) : Option (Heap sb × Nat) :=
  let nu := if nu < 4096 then 4096 else nu
  match sb.call h.os (increment nu) with
  | (none, os) => some ({ h with os := os }, 0)
  | (some hp, os) =>
    let h := { h with
      mem := setSize h.mem hp nu
      os := os
      regions := h.regions ++ [⟨hp, HEADER * nu⟩] }
    (free fuel h (after hp 1)).map fun h => (h, h.freep)

/-- The two ways of taking `nunits` units from the free block `p`: the whole
    block, unlinked from `prevp`, or the tail end of it. -/
def take (h : Heap sb) (prevp p nunits : Nat) : Heap sb × Nat :=
  if size h.mem p = nunits then
    ({ h with mem := setPtr h.mem prevp (ptr h.mem p), freep := prevp }, after p 1)
  else
    let m := setSize h.mem p (size h.mem p - nunits)
    let q := after p (size m p)
    ({ h with mem := setSize m q nunits, freep := prevp }, after q 1)

/-- The search of `malloc`. When it has come round to `freep` it asks for more
    memory and goes on from where `free` has left `freep`. -/
def mallocLoop (nunits : Nat) : Nat → Heap sb → Nat → Nat → Option (Heap sb × Nat)
  | 0, _, _, _ => none
  | fuel + 1, h, prevp, p =>
    if nunits ≤ size h.mem p then
      some (take h prevp p nunits)
    else if p = h.freep then
      (morecore fuel h nunits).bind fun (h', q) =>
        if q = 0 then some (h', 0) else mallocLoop nunits fuel h' q (ptr h'.mem q)
    else
      mallocLoop nunits fuel h p (ptr h.mem p)

/-- The units of a block with room for `nbytes` and a header, as a `uint`. -/
def unitsFor (nbytes : Word) : Nat := (nbytes + 7#32).toNat / HEADER + 1

/-- The first call makes the list of the one empty block `base`. -/
def initBase (base : Nat) (h : Heap sb) : Heap sb :=
  if h.freep = 0 then
    { h with mem := setSize (setPtr h.mem base base) base 0, freep := base }
  else h

/-- `&base` is the address of the static header. -/
def malloc (base fuel : Nat) (h : Heap sb) (nbytes : Word) : Option (Heap sb × Nat) :=
  let h := initBase base h
  mallocLoop (unitsFor nbytes) fuel h h.freep (ptr h.mem h.freep)

/-! ### Words and headers -/

section words

variable {m : Mem} {a b v x : Nat}

theorem word_setWord_self (ha : a + 4 ≤ ADDRSPACE) (hv : v < ADDRSPACE) :
    word (setWord m a v) a = v := by
  have hself := getLE_putLE_self 4 m a (BitVec.ofNat 32 v) ha
  unfold word setWord
  rw [hself]
  exact (BitVec.toNat_ofNat v 32).trans (Nat.mod_eq_of_lt hv)

theorem word_setWord_of_disjoint (h : b + 4 ≤ a ∨ a + 4 ≤ b) :
    word (setWord m a v) b = word m b :=
  congrArg BitVec.toNat (getLE_putLE_of_disjoint 4 4 m a (BitVec.ofNat 32 v) b h)

/-- A store of a word changes four bytes. -/
theorem get_setWord (h : x < a ∨ a + 4 ≤ x) : (setWord m a v).get x = m.get x := by
  rcases h with h | h
  · exact get_splice_of_lt m a 4 _ h
  · exact get_splice_of_ge m a 4 _ h

theorem word_lt : word m a < ADDRSPACE := (getLE 4 m a).isLt

/-- A word is read from its four bytes. -/
theorem word_congr {m' : Mem} (h : ∀ x, a ≤ x → x < a + 4 → m'.get x = m.get x) :
    word m' a = word m a := by
  refine congrArg BitVec.toNat (le_congr 4 fun i hi => ?_)
  exact h (a + i) (Nat.le_add_right a i) (by omega)

end words

section headers

variable {m m' : Mem} {p q r n : Nat}

/-- The bytes of the header at `p`. -/
def header (p : Nat) : Extent := ⟨p, HEADER⟩

/-- Two headers that do not overlap. -/
def Clear (p q : Nat) : Prop := p + HEADER ≤ q ∨ q + HEADER ≤ p

theorem Clear.symm (h : Clear p q) : Clear q p := Or.symm h

instance : Std.Symm Clear := ⟨fun _ _ h => h.symm⟩

theorem not_header_of_clear (h : Clear p q) {x : Nat} (hx : (header p).Has x) :
    ¬ (header q).Has x := by
  unfold Extent.Has Extent.stop header at *
  unfold Clear at h
  dsimp only at hx ⊢
  omega

/-- A header is read from its eight bytes. -/
theorem header_congr (h : ∀ x, (header p).Has x → m'.get x = m.get x) :
    ptr m' p = ptr m p ∧ size m' p = size m p := by
  constructor
  · refine word_congr fun x h₁ h₂ => h x ⟨h₁, ?_⟩
    unfold Extent.stop header HEADER
    dsimp only
    omega
  · refine word_congr fun x h₁ h₂ => h x ⟨?_, ?_⟩
    · unfold header
      dsimp only
      omega
    · unfold Extent.stop header HEADER
      dsimp only
      omega

theorem get_setPtr {x : Nat} (h : ¬ (header p).Has x) : (setPtr m p q).get x = m.get x := by
  apply get_setWord
  unfold Extent.Has Extent.stop header HEADER at h
  dsimp only at h
  omega

theorem get_setSize {x : Nat} (h : ¬ (header p).Has x) : (setSize m p n).get x = m.get x := by
  apply get_setWord
  unfold Extent.Has Extent.stop header HEADER at h
  dsimp only at h
  omega

@[simp] theorem size_setPtr_self : size (setPtr m p q) p = size m p :=
  word_setWord_of_disjoint (Or.inr (Nat.le_refl _))

@[simp] theorem ptr_setSize_self : ptr (setSize m p n) p = ptr m p :=
  word_setWord_of_disjoint (Or.inl (Nat.le_refl _))

theorem ptr_setPtr_self (hp : p + HEADER ≤ ADDRSPACE) (hq : q < ADDRSPACE) :
    ptr (setPtr m p q) p = q :=
  word_setWord_self (by unfold HEADER at hp; omega) hq

theorem ptr_lt : ptr m p < ADDRSPACE := word_lt

theorem size_setSize_self (hp : p + HEADER ≤ ADDRSPACE) (hn : n < ADDRSPACE) :
    size (setSize m p n) p = n :=
  word_setWord_self (by unfold HEADER at hp; omega) hn

theorem size_setPtr_of_clear (h : Clear r p) : size (setPtr m p q) r = size m r :=
  (header_congr fun _ hx => get_setPtr (not_header_of_clear h hx)).2

theorem ptr_setSize_of_clear (h : Clear r p) : ptr (setSize m p n) r = ptr m r :=
  (header_congr fun _ hx => get_setSize (not_header_of_clear h hx)).1

theorem size_setSize_of_clear (h : Clear r p) : size (setSize m p n) r = size m r :=
  (header_congr fun _ hx => get_setSize (not_header_of_clear h hx)).2

theorem after_of_lt (h : p + HEADER * n < ADDRSPACE) : after p n = p + HEADER * n :=
  Nat.mod_eq_of_lt h

/-- `(Header*)ap - 1` undoes the `p + 1` of the return of `malloc`. -/
theorem headerOf_after (h : p + HEADER < ADDRSPACE) : headerOf (after p 1) = p := by
  rw [after_of_lt (by omega)]
  unfold headerOf HEADER ADDRSPACE at *
  omega

end headers

end Xv6.Umalloc
