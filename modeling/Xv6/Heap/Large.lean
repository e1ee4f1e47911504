import Xv6.Heap.Thread

/-! # Requests of Any Size

    `malloc` computes the units of a block, and `morecore` the bytes it asks
    `sbrk` for, in 32 bits, and `sbrk` takes them for an `int`. For a request
    that does not fit, the count of units wraps to one, or the argument of
    `sbrk` is zero or negative and `growproc` leaves the process as it is or
    shrinks it. Here `sbrk` is the system call as the kernel has it, for every
    argument.
-/

namespace Xv6.Umalloc

open LTS Extent

/-! ### `sbrk` as the kernel has it -/

/-- The size of a process in bytes: user memory ends below the kernel's. -/
abbrev ProcSize : Type := { sz : Nat // sz < KERNBASE }

/-- The size `growproc(n)` gives a process of `sz` bytes, `none` if it
    returns `-1`; `room` says whether `allocuvm` finds memory. For `n > 0` the sum
    of the two does not wrap. For `n < 0` it does when `n` is below `-sz`, and then
    `deallocuvm` returns the old size; a new size of 0 is taken for a failure. -/
def growproc (sz : ProcSize) (n : Int) (room : Bool) : Option ProcSize :=
  if 0 < n then
    if h : sz.val + n.toNat < KERNBASE then
      if room then some ⟨sz.val + n.toNat, h⟩ else none
    else none
  else if n < 0 then
    let newsz := ((sz.val + n) % 2 ^ 32).toNat
    if h : sz.val ≤ newsz then some sz
    else if newsz = 0 then none
    else some ⟨newsz, Nat.lt_trans (Nat.lt_of_not_le h) sz.property⟩
  else some sz

theorem growproc_pos {sz sz' : ProcSize} {n : Nat} {room : Bool} (hn : 0 < n)
    (h : growproc sz n room = some sz') : sz'.val = sz.val + n := by
  unfold growproc at h
  rw [if_pos (by omega)] at h
  split at h
  · split at h
    · exact (congrArg Subtype.val (Option.some.inj h)).symm
    · cases h
  · cases h

/-- `sys_sbrk`: the old size, or failure. The next element of the list says
    whether there is memory. -/
def sysSbrk (s : ProcSize × List Bool) (n : Int) : Option Nat × ProcSize × List Bool :=
  match growproc s.1 n (s.2.headD true) with
  | some sz => (some s.1.val, sz, s.2.tail)
  | none => (none, s.1, s.2.tail)

def kernel : Sbrk where
  State := ProcSize × List Bool
  call := sysSbrk
  brk := fun s => s.1.val
  brk_lt := fun s => Nat.lt_trans s.1.property (by decide)
  brk_mono := fun s n hn => by
    unfold sysSbrk
    split
    · next sz h => exact growproc_pos hn h ▸ Nat.le_add_right _ _
    · exact Nat.le_refl _
  region := fun {s n a} hn hsome => by
    unfold sysSbrk at *
    split at hsome
    · next sz h =>
      obtain rfl := Option.some.inj hsome
      exact ⟨Nat.le_refl _, Nat.le_of_eq (growproc_pos hn h).symm⟩
    · cases hsome

/-! ### What `malloc` promises -/

variable {sb : Sbrk} {base : Nat} {s : Program sb} {nbytes : Word}

/-- `malloc(nbytes)` returns null, or the address of `nbytes` bytes that lie below
    the break and in no other block, live or free. -/
def MallocRight (base : Nat) (s : Program sb) (nbytes : Word) : Prop :=
  ∃ fuel s' r, s.malloc base fuel nbytes = some (s', r) ∧
    (r = 0 ∨ (r + nbytes.toNat ≤ sb.brk s'.heap.os ∧
      (∀ b ∈ s.live, Apart ⟨r, nbytes.toNat⟩ b.extent) ∧
      ∃ bs, HeapOrder base s' bs ∧
        ∀ b ∈ bs, Apart ⟨r, nbytes.toNat⟩ (freeBlock s'.heap.mem b)))

/-- A part of a block is apart from what the block is apart from. -/
theorem Apart.part {b : Live} {e : Extent} {n : Nat} (h : Apart b.extent e)
    (hn : n + HEADER ≤ HEADER * b.units) : Apart ⟨b.addr + HEADER, n⟩ e := by
  unfold Apart stop Live.extent at *
  dsimp only at *
  omega

theorem HeapInv.mallocRight (h : HeapInv base s) (hround : Rounded nbytes) :
    MallocRight base s nbytes := by
  obtain ⟨N, s', r, hmalloc, ⟨bs, htiled⟩, _, hres⟩ := h.malloc_spec hround
  refine ⟨N, s', r, hmalloc N (Nat.le_refl N), ?_⟩
  rcases hres with ⟨hr, _⟩ | ⟨b, hr, _, _, hnb, hlive⟩
  · exact Or.inl hr
  · right
    have hb : b ∈ s'.live := by simp [hlive]
    have hroom := htiled.live_room b hb
    have hend := htiled.end_le hb
    rw [htiled.after_header hb] at hr
    rw [hnb] at hroom
    refine ⟨by omega, fun c hc => ?_, bs, htiled.order, fun c hc => ?_⟩
    · have hpair := htiled.live_apart
      rw [hlive, List.map_cons, List.pairwise_cons] at hpair
      rw [hr]
      exact Apart.part (hpair.1 _ (List.mem_map_of_mem hc)) hroom
    · rw [hr]
      exact Apart.part (htiled.apart_free hb c hc) hroom

/-! ### Requests that do not fit -/

/-- The first `malloc` of a program, when `sbrk` answers the address `hp` and the
    units are as many as `morecore` asks for: the new block is the only one in
    the list and is taken whole, wherever the break is. -/
theorem malloc_first {h : Heap sb} {hp : Nat} {os : sb.State} (hfresh : h.freep = 0)
    (hbase : 0 < base) (hlt : base + HEADER < hp) (hhp : hp + HEADER < ADDRSPACE)
    (hmin : 4096 ≤ unitsFor nbytes)
    (hcall : sb.call h.os (increment (unitsFor nbytes)) = (some hp, os))
    (hends : after hp (unitsFor nbytes) ≠ base) :
    ∃ h', Umalloc.malloc base 2 h nbytes = some (h', hp + HEADER) := by
  have hn : unitsFor nbytes < ADDRSPACE := by
    have hword := (nbytes + 7#32).isLt
    unfold unitsFor HEADER ADDRSPACE
    omega
  unfold Umalloc.malloc
  generalize unitsFor nbytes = n at *
  have hclear : Clear hp base := Or.inr (Nat.le_of_lt hlt)
  -- the empty list of the first call
  obtain ⟨m₀, hm₀⟩ : ∃ m, m = setSize (setPtr h.mem base base) base 0 := ⟨_, rfl⟩
  have hptr₀ : ptr m₀ base = base := by
    rw [hm₀, ptr_setSize_self, ptr_setPtr_self (by omega) (by omega)]
  have hsize₀ : size m₀ base = 0 := by
    rw [hm₀, size_setSize_self (by omega) (by decide)]
  -- the new block is linked behind `base`
  obtain ⟨m₁, hm₁⟩ : ∃ m, m = setPtr (setPtr (setSize m₀ hp n) hp base) base hp := ⟨_, rfl⟩
  have hplace : placeFound (setSize m₀ hp n) hp base = true := by
    unfold placeFound
    rw [ptr_setSize_of_clear hclear.symm, hptr₀]
    simp [show base < hp by omega]
  have hupper : joinUpper (setSize m₀ hp n) hp base = setPtr (setSize m₀ hp n) hp base := by
    unfold joinUpper
    rw [size_setSize_self (by omega) hn, ptr_setSize_of_clear hclear.symm, hptr₀, if_neg hends]
  have hlower : joinLower (setPtr (setSize m₀ hp n) hp base) hp base = m₁ := by
    unfold joinLower
    rw [size_setPtr_of_clear hclear.symm, size_setSize_of_clear hclear.symm, hsize₀,
      after_of_lt (by omega), if_neg (by omega), hm₁]
  have hptr₁ : ptr m₁ base = hp := by
    rw [hm₁, ptr_setPtr_self (by omega) (by omega)]
  have hsize₁ : size m₁ hp = n := by
    rw [hm₁, size_setPtr_of_clear hclear, size_setPtr_self, size_setSize_self (by omega) hn]
  -- the second round of the search finds it
  have hinit : initBase base h = { h with mem := m₀, freep := base } := by
    unfold initBase
    rw [if_pos hfresh, hm₀]
  have hmore : morecore 1 { h with mem := m₀, freep := base } n = some ({ h with
      mem := m₁
      freep := base
      os := os
      regions := h.regions ++ [⟨hp, HEADER * n⟩] }, base) := by
    unfold morecore
    rw [if_neg (by omega)]
    dsimp only
    rw [hcall]
    unfold free
    dsimp only
    rw [headerOf_after hhp]
    simp [RingList.search, hplace, hupper, hlower]
  have htake : after hp 1 = hp + HEADER := by
    rw [after_of_lt (by omega), Nat.mul_one]
  rw [hinit]
  simp only [mallocLoop, hsize₀, hptr₀, hmore, hptr₁, hsize₁, take, htake, Option.bind_some,
    if_neg (show ¬ n ≤ 0 by omega), if_neg (show base ≠ 0 by omega), if_true, Nat.le_refl]
  exact ⟨_, rfl⟩

/-- A process of one page, so that no call of `sbrk` takes a page from it. Its size is
    odd: a header at the break is in the page and no block that starts there ends at
    `base`. -/
def smallProgram : Program kernel where
  heap :=
    { mem := fun _ => 0
      freep := 0
      os := (⟨3001, by decide⟩, [])
      regions := [] }
  live := []

theorem reachable_smallProgram : Reachable (heapSystem kernel 2048) smallProgram :=
  .init ⟨rfl, rfl, rfl, by decide, by decide⟩

/-- An argument that is not positive as an `int` does not make `sbrk` fail. -/
theorem sysSbrk_small {n : Int} (hn : n ≤ 0) (hlo : -2 ^ 31 ≤ n) (hmul : n % 8 = 0) :
    ∃ os, sysSbrk smallProgram.heap.os n = (some 3001, os) := by
  have hgrow : ∃ sz, growproc ⟨3001, by decide⟩ n true = some sz := by
    unfold growproc
    rw [if_neg (by omega)]
    dsimp only
    split
    · split
      · exact ⟨_, rfl⟩
      · rw [if_neg (by omega)]
        exact ⟨_, rfl⟩
    · exact ⟨_, rfl⟩
  obtain ⟨sz, hsz⟩ := hgrow
  refine ⟨(sz, []), ?_⟩
  unfold sysSbrk smallProgram
  dsimp only [List.headD_nil, List.tail_nil]
  rw [hsz]

/-- `malloc` gives an address for every request that does not fit: for the last seven
    the units wrap to one, for the others `sbrk` gives up nothing. -/
theorem malloc_small (hlarge : ¬ Rounded nbytes) :
    ∃ h r, 16 ≤ r ∧ Umalloc.malloc 2048 2 smallProgram.heap nbytes = some (h, r) := by
  have hlt := nbytes.isLt
  have hunits : unitsFor nbytes = (nbytes.toNat + 7) % 2 ^ 32 / 8 + 1 := by
    unfold unitsFor HEADER
    rw [BitVec.toNat_add]
    rfl
  unfold Rounded HEADER at hlarge
  by_cases hwrap : 2 ^ 32 ≤ nbytes.toNat + 7
  · have hone : unitsFor nbytes = unitsFor 0#32 := by
      rw [hunits, show unitsFor 0#32 = 1 by decide]
      omega
    have hrun : (Umalloc.malloc 2048 2 smallProgram.heap 0#32).any (fun x => 16 ≤ x.2) = true := by
      decide +kernel
    obtain ⟨⟨h, r⟩, hmalloc, hr⟩ := (Option.any_eq_true _ _).mp hrun
    refine ⟨h, r, of_decide_eq_true hr, ?_⟩
    unfold Umalloc.malloc at *
    rwa [hone]
  · rw [Nat.mod_eq_of_lt (by omega)] at hunits
    have hinc : increment (unitsFor nbytes) = (unitsFor nbytes * 8 : Nat) - 2 ^ 32 := by
      unfold increment HEADER
      rw [BitVec.toInt_ofNat', Int.bmod_def]
      omega
    obtain ⟨os, hcall⟩ := sysSbrk_small (n := increment (unitsFor nbytes)) (by omega) (by omega)
      (by omega)
    have hends : after 3001 (unitsFor nbytes) ≠ 2048 := by
      unfold after HEADER ADDRSPACE
      omega
    have hfirst : ∃ h, Umalloc.malloc 2048 2 smallProgram.heap nbytes =
        some (h, 3001 + HEADER) :=
      malloc_first rfl (by decide) (by decide) (by decide) (by omega) hcall hends
    obtain ⟨h, hmalloc⟩ := hfirst
    exact ⟨h, 3001 + HEADER, by decide, hmalloc⟩

/-- **`malloc` of any size.** Whatever the program has allocated and freed before, and
    whether or not there is memory, `malloc(nbytes)` keeps its promise; this is so
    for exactly the requests whose block, rounded up and with its header, fits a
    positive `int`. -/
theorem malloc_right_iff (nbytes : Word) :
    (∀ base (s : Program kernel), Reachable (heapSystem kernel base) s →
      MallocRight base s nbytes) ↔ Rounded nbytes := by
  constructor
  · intro hall
    by_contra hlarge
    obtain ⟨fuel, s', r, hmalloc, hright⟩ := hall 2048 smallProgram reachable_smallProgram
    obtain ⟨h₀, r₀, hr₀, hraw⟩ := malloc_small hlarge
    have hmalloc₀ : smallProgram.malloc 2048 2 nbytes = some (⟨h₀,
        ⟨headerOf r₀, unitsFor nbytes, nbytes.toNat⟩ :: []⟩, r₀) := by
      unfold Program.malloc
      rw [hraw, Option.map_some]
      dsimp only
      rw [if_neg (by omega)]
      rfl
    obtain ⟨rfl, rfl⟩ := Prod.mk.inj (malloc_det hmalloc hmalloc₀)
    rcases hright with hnull | ⟨hroom, _⟩
    · omega
    · have hbrk : kernel.brk h₀.os < KERNBASE := h₀.os.1.property
      dsimp only at hroom
      unfold Rounded HEADER at hlarge
      unfold KERNBASE at hbrk
      omega
  · intro hround base s hreach
    exact (HeapInv.of_reachable hreach).mallocRight hround

/-- The largest request gets a block of one unit: a header and no byte behind it. -/
theorem malloc_of_largest : ∃ s' r, smallProgram.malloc 2048 2 4294967295#32 = some (s', r) ∧
    r ≠ 0 ∧ size s'.heap.mem (headerOf r) = 1 ∧
    kernel.brk s'.heap.os < r + (4294967295#32).toNat := by
  have hrun : (smallProgram.malloc 2048 2 4294967295#32).any (fun x => decide (x.2 ≠ 0 ∧
      size x.1.heap.mem (headerOf x.2) = 1 ∧
      x.1.heap.os.1.val < x.2 + (4294967295#32).toNat)) = true := by
    decide +kernel
  obtain ⟨⟨s', r⟩, hmalloc, hr⟩ := (Option.any_eq_true _ _).mp hrun
  exact ⟨s', r, hmalloc, of_decide_eq_true hr⟩

end Xv6.Umalloc
