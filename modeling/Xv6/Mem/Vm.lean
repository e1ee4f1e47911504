import Xv6.Params
import Mathlib.Data.Fin.Basic

/-! # Page Tables

    `kalloc.c` and `vm.c`. Physical memory is a free list, the page
    directories in use and the contents of the pages. A directory is kept
    under the page it occupies, so a page directory pointer is a `Page`.
    Using a page that is not a directory any more is the panic `wild`.

    Addresses are natural numbers below `2^32`; pages, physical and virtual,
    are addresses divided by `PGSIZE`.
-/

namespace Xv6.Vm

/-! ### State -/

/-- Where the linker put the kernel: the physical page of the symbol `data`,
    and the first page at or above `end`. -/
structure Layout where
  data : Nat
  kend : Nat
  data_gt : EXTMEM / PGSIZE < data
  data_lt : data < PHYSTOP / PGSIZE
  kend_gt : data ≤ kend

/-- The pages `kfree` accepts: `v >= end && V2P(v) < PHYSTOP`. -/
def Layout.ValidPage (L : Layout) (p : Page) : Prop := L.kend ≤ p ∧ p < PHYSTOP / PGSIZE

instance (L : Layout) (p : Page) : Decidable (L.ValidPage p) :=
  inferInstanceAs (Decidable (_ ∧ _))

/-- A present page-table entry: its page and the flags `PTE_W` and `PTE_U`. -/
structure Pte where
  ppn : Page
  w : Bool
  u : Bool
  deriving DecidableEq

/-- `PDX`, of a virtual page. -/
def PDX (v : Nat) : Fin NPDENTRIES :=
  ⟨v / NPTENTRIES % NPDENTRIES, Nat.mod_lt _ (by decide)⟩

/-- A page directory: its page-table pages, and the entry of each virtual
    page. Where there is no page table there is no entry. -/
structure PageDir where
  ptab : Fin NPDENTRIES → Option Page
  pte : Nat → Option Pte
  absent : ∀ v, ptab (PDX v) = none → pte v = none

/-- Physical memory. -/
structure Mem where
  free : List Page
  dirs : Page → Option PageDir
  contents : Page → Bytes.Buf PGSIZE

/-- A directory without entries. -/
def PageDir.empty : PageDir where
  ptab := fun _ => none
  pte := fun _ => none
  absent := fun _ _ => rfl

/-- Install a page table of zeroes. -/
def PageDir.setTable (D : PageDir) (i : Fin NPDENTRIES) (x : Page) : PageDir where
  ptab := Function.update D.ptab i (some x)
  pte := fun v => if PDX v = i then none else D.pte v
  absent := by
    intro v hv
    by_cases hi : PDX v = i
    · rw [if_pos hi]
    · rw [if_neg hi]
      rw [Function.update_of_ne hi] at hv
      exact D.absent v hv

/-- Store a page-table entry, through the pointer `walkpgdir` returned. -/
def PageDir.setPte (D : PageDir) (v : Nat) (e : Option Pte) : PageDir where
  ptab := D.ptab
  pte := fun u => if u = v ∧ (D.ptab (PDX v)).isSome then e else D.pte u
  absent := by
    intro u hu
    rw [if_neg]
    · exact D.absent u hu
    · rintro ⟨rfl, hs⟩
      rw [hu] at hs
      cases hs

namespace Mem

def setDir (m : Mem) (d : Page) (D : PageDir) : Mem :=
  { m with dirs := Function.update m.dirs d (some D) }

/-- `memset(v, b, PGSIZE)`. -/
def fill (m : Mem) (p : Page) (b : Byte) : Mem :=
  { m with contents := Function.update m.contents p (fun _ => b) }

/-! ### `kalloc.c` -/

def kalloc (m : Mem) : Option Page × Mem :=
  match m.free with
  | [] => (none, m)
  | p :: ps => (some p, { m with free := ps })

/-- The free page is filled with junk; the link to the next free page, which
    `kfree` keeps in its first word, is the list `free`. -/
def kfree (L : Layout) (m : Mem) (p : Page) : Except Panic Mem :=
  if L.ValidPage p then .ok { m.fill p 1 with free := p :: m.free } else .error .kfree

/-! ### Mapping pages -/

/-- `walkpgdir`: whether it returns an entry. -/
def walkpgdir (m : Mem) (d : Page) (v : Nat) (alloc : Bool) : Except Panic (Bool × Mem) :=
  match m.dirs d with
  | none => .error .wild
  | some D =>
    match D.ptab (PDX v) with
    | some _ => .ok (true, m)
    | none =>
      if alloc then
        match m.kalloc with
        | (none, m) => .ok (false, m)
        | (some x, m) => .ok (true, (m.fill x 0).setDir d (D.setTable (PDX v) x))
      else .ok (false, m)

/-- The loop of `mappages`: `n` pages from virtual page `v` and physical page
    `pp`. -/
def mapLoop : (n : Nat) → Mem → (d : Page) → (v pp : Nat) → (w u : Bool) →
    Except Panic (Bool × Mem)
  | 0, m, _, _, _, _, _ => .ok (true, m)
  | n + 1, m, d, v, pp, w, u =>
    match m.walkpgdir d v true with
    | .error e => .error e
    | .ok (false, m) => .ok (false, m)
    | .ok (true, m) =>
      match m.dirs d with
      | none => .error .wild
      | some D =>
        if (D.pte v).isSome then .error .remap
        else
          mapLoop n (m.setDir d (D.setPte v (some ⟨pp, w, u⟩))) d
            ((v + 1) % (NPDENTRIES * NPTENTRIES)) (pp + 1) w u

/-- The number of pages from the page of `va` to the page of the last byte
    of `[va, va + size)`, which may be the last page of the address space. -/
def pageCount (va size : Nat) : Nat :=
  (NPDENTRIES * NPTENTRIES + (va + size - 1) % 2 ^ 32 / PGSIZE - va / PGSIZE) %
    (NPDENTRIES * NPTENTRIES) + 1

/-- `mappages`. `true` is the result `0`. -/
def mappages (m : Mem) (d : Page) (va size pa : Nat) (w u : Bool) : Except Panic (Bool × Mem) :=
  m.mapLoop (pageCount va size) d (va / PGSIZE) (pa / PGSIZE) w u

/-! ### Unmapping pages -/

/-- The loop of `deallocuvm` from virtual page `a`. A missing page table is
    skipped as a whole. -/
def deallocLoop (L : Layout) (d : Page) (oldsz : Nat) (m : Mem) (a : Nat) : Except Panic Mem :=
  if a * PGSIZE < oldsz then
    match m.dirs d with
    | none => .error .wild
    | some D =>
      match D.ptab (PDX a) with
      | none => deallocLoop L d oldsz m ((a / NPTENTRIES + 1) * NPTENTRIES)
      | some _ =>
        match D.pte a with
        | none => deallocLoop L d oldsz m (a + 1)
        | some e =>
          if e.ppn = 0 then .error .kfree
          else
            match m.kfree L e.ppn with
            | .error e => .error e
            | .ok m => deallocLoop L d oldsz (m.setDir d (D.setPte a none)) (a + 1)
  else .ok m
termination_by oldsz - a * PGSIZE
decreasing_by
  all_goals
    simp only [PGSIZE, NPTENTRIES] at *
    omega

/-- `PGROUNDUP(sz)`, as a page. -/
def pgroundup (sz : Nat) : Nat := (PGSIZE - 1 + sz) % 2 ^ 32 / PGSIZE

def deallocuvm (L : Layout) (m : Mem) (d : Page) (oldsz newsz : Nat) :
    Except Panic (Nat × Mem) :=
  if newsz ≥ oldsz then .ok (oldsz, m)
  else
    (deallocLoop L d oldsz m (pgroundup newsz)).map (fun m => (newsz, m))

/-- The loop of `freevm` over the page tables. -/
def freeTables (L : Layout) (D : PageDir) (m : Mem) (i : Fin NPDENTRIES) : Except Panic Mem :=
  match D.ptab i with
  | some x => m.kfree L x
  | none => .ok m

def freevm (L : Layout) (m : Mem) (d : Page) : Except Panic Mem :=
  match m.deallocuvm L d KERNBASE 0 with
  | .error e => .error e
  | .ok (_, m) =>
    match m.dirs d with
    | none => .error .wild
    | some D =>
      match (List.finRange NPDENTRIES).foldlM (freeTables L D) m with
      | .error e => .error e
      | .ok m => { m with dirs := Function.update m.dirs d none }.kfree L d

/-! ### Setting up directories -/

/-- An entry of `kmap`. -/
structure KMap where
  virt : Nat
  phys_start : Nat
  phys_end : Nat
  w : Bool

/-- `k->phys_end - k->phys_start`, a `uint`. -/
def KMap.size (k : KMap) : Nat := (2 ^ 32 + k.phys_end - k.phys_start) % 2 ^ 32

/-- `kmap`. The end of the last range is `2^32`, which wraps to 0. -/
def kmap (L : Layout) : List KMap :=
  [⟨KERNBASE, 0, EXTMEM, true⟩,
   ⟨KERNLINK, EXTMEM, L.data * PGSIZE, false⟩,
   ⟨KERNBASE + L.data * PGSIZE, L.data * PGSIZE, PHYSTOP, true⟩,
   ⟨DEVSPACE, DEVSPACE, 0, true⟩]

/-- The loop of `setupkvm`. -/
def setupLoop (L : Layout) : List KMap → Mem → (d : Page) → Except Panic (Option Page × Mem)
  | [], m, d => .ok (some d, m)
  | k :: ks, m, d =>
    match m.mappages d k.virt k.size k.phys_start k.w false with
    | .error e => .error e
    | .ok (true, m) => setupLoop L ks m d
    | .ok (false, m) => (m.freevm L d).map (fun m => (none, m))

/-- `setupkvm`. (`PHYSTOP` is not too high.) -/
def setupkvm (L : Layout) (m : Mem) : Except Panic (Option Page × Mem) :=
  match m.kalloc with
  | (none, m) => .ok (none, m)
  | (some d, m) => setupLoop L (kmap L) ((m.fill d 0).setDir d .empty) d

/-- `inituvm`, with the first program padded to a page. `kalloc`'s result is
    not checked. -/
def inituvm (m : Mem) (d : Page) (init : Bytes.Buf PGSIZE) : Except Panic Mem :=
  match m.kalloc with
  | (none, _) => .error .wild
  | (some x, m) =>
    match (m.fill x 0).mappages d 0 PGSIZE (x * PGSIZE) true true with
    | .error e => .error e
    | .ok (_, m) => .ok { m with contents := Function.update m.contents x init }

/-! ### Growing and copying -/

/-- The loop of `allocuvm`: `n` pages from virtual page `a`. The result 0 is
    the failure of the call. -/
def allocLoop (L : Layout) (d : Page) (oldsz newsz : Nat) :
    (n : Nat) → Mem → (a : Nat) → Except Panic (Nat × Mem)
  | 0, m, _ => .ok (newsz, m)
  | n + 1, m, a =>
    match m.kalloc with
    | (none, m) => (m.deallocuvm L d newsz oldsz).map (fun r => (0, r.2))
    | (some x, m) =>
      match (m.fill x 0).mappages d (a * PGSIZE) PGSIZE (x * PGSIZE) true true with
      | .error e => .error e
      | .ok (true, m) => allocLoop L d oldsz newsz n m (a + 1)
      | .ok (false, m) =>
        match m.deallocuvm L d newsz oldsz with
        | .error e => .error e
        | .ok (_, m) => (m.kfree L x).map (fun m => (0, m))

def allocuvm (L : Layout) (m : Mem) (d : Page) (oldsz newsz : Nat) : Except Panic (Nat × Mem) :=
  if newsz ≥ KERNBASE then .ok (0, m)
  else if newsz < oldsz then .ok (oldsz, m)
  else m.allocLoop L d oldsz newsz (pgroundup newsz - pgroundup oldsz) (pgroundup oldsz)

/-- The loop of `copyuvm`: `n` pages from virtual page `i`. -/
def copyLoop (L : Layout) (pgdir d : Page) :
    (n : Nat) → Mem → (i : Nat) → Except Panic (Option Page × Mem)
  | 0, m, _ => .ok (some d, m)
  | n + 1, m, i =>
    match m.dirs pgdir with
    | none => .error .wild
    | some D =>
      match D.ptab (PDX i), D.pte i with
      | none, _ => .error .copyuvmNoPte
      | some _, none => .error .copyuvmNotPresent
      | some _, some e =>
        match m.kalloc with
        | (none, m) => (m.freevm L d).map (fun m => (none, m))
        | (some x, m) =>
          let m := { m with contents := Function.update m.contents x (m.contents e.ppn) }
          match m.mappages d (i * PGSIZE) PGSIZE (x * PGSIZE) e.w e.u with
          | .error e => .error e
          | .ok (true, m) => copyLoop L pgdir d n m (i + 1)
          | .ok (false, m) =>
            match m.kfree L x with
            | .error e => .error e
            | .ok m => (m.freevm L d).map (fun m => (none, m))

def copyuvm (L : Layout) (m : Mem) (pgdir : Page) (sz : Nat) :
    Except Panic (Option Page × Mem) :=
  match m.setupkvm L with
  | .error e => .error e
  | .ok (none, m) => .ok (none, m)
  | .ok (some d, m) => m.copyLoop L pgdir d (pgroundup sz) 0

def clearpteu (m : Mem) (d : Page) (v : Nat) : Except Panic Mem :=
  match m.dirs d with
  | none => .error .wild
  | some D =>
    match D.ptab (PDX v) with
    | none => .error .clearpteu
    | some _ => .ok (m.setDir d (D.setPte v ((D.pte v).map (fun e => { e with u := false }))))

end Mem

end Xv6.Vm
