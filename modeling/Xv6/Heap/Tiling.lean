import Xv6.Framework.System
import Xv6.Heap.Malloc

/-! # The User Heap over Whole Runs

    A program that calls `malloc` and `free` and stores into its own memory.
    The blocks it holds are kept beside the state of the code, so that the
    invariant can say that they and the free blocks tile the regions obtained
    from `sbrk`.

    - `exec`: one call, for a given fuel; a step is a call that returns
    - `Tiled`: the invariant
    - `heap_discipline`: what holds in every state of every run
-/

namespace Xv6.Umalloc

open Extent LTS

variable {sb : Sbrk} {b : Live} {x : Nat} {nbytes : Word}

/-! ### Programs -/

/-- A block the program holds: the address of its header, its units and the
    number of bytes that were asked for. -/
structure Live where
  addr : Nat
  units : Nat
  nbytes : Nat
  deriving DecidableEq

/-- The whole block, header included. -/
def Live.extent (b : Live) : Extent := ⟨b.addr, HEADER * b.units⟩

/-- The part of the block that the program may use. -/
def Live.payload (b : Live) : Extent := ⟨b.addr + HEADER, HEADER * b.units - HEADER⟩

/-- The heap and the blocks that have been handed out and not yet freed. -/
structure Program (sb : Sbrk) where
  heap : Heap sb
  live : List Live

/-- What a program does. -/
inductive Call where
  | malloc (nbytes : Word)
  | free (ap : Nat)
  /-- Store the byte `v` at `x`. -/
  | store (x : Nat) (v : Byte)

/-- The size of the block in bytes, header included, fits a positive `int`. -/
def Rounded (nbytes : Word) : Prop :=
  HEADER * ((nbytes.toNat + (HEADER - 1)) / HEADER + 1) < 2147483648

instance (nbytes : Word) : Decidable (Rounded nbytes) := inferInstanceAs (Decidable (_ < _))

/-- `x` is the program's own: in a block it holds, or in none of the allocator's
    memory. -/
def Program.Owns (base : Nat) (s : Program sb) (x : Nat) : Prop :=
  (∃ b ∈ s.live, b.payload.Has x) ∨
    (¬ (header base).Has x ∧ ∀ r ∈ s.heap.regions, ¬ r.Has x)

instance (base : Nat) (s : Program sb) (x : Nat) : Decidable (s.Owns base x) :=
  inferInstanceAs (Decidable (_ ∨ _))

/-- The calls the program may make. -/
def Program.May (base : Nat) (s : Program sb) : Call → Prop
  | .malloc nbytes => Rounded nbytes
  | .free ap => ∃ b ∈ s.live, ap = after b.addr 1
  | .store x _ => s.Owns base x

instance (base : Nat) (s : Program sb) : (c : Call) → Decidable (s.May base c)
  | .malloc nbytes => inferInstanceAs (Decidable (Rounded nbytes))
  | .free ap => inferInstanceAs (Decidable (∃ b ∈ s.live, ap = after b.addr 1))
  | .store x _ => inferInstanceAs (Decidable (s.Owns base x))

/-- `malloc`, and the block it returns entered among those the program holds. -/
def Program.malloc (base fuel : Nat) (s : Program sb) (nbytes : Word) :
    Option (Program sb × Nat) :=
  (Umalloc.malloc base fuel s.heap nbytes).map fun (h, r) =>
    if r = 0 then ({ s with heap := h }, 0)
    else ({ s with
      heap := h
      live := ⟨headerOf r, unitsFor nbytes, nbytes.toNat⟩ :: s.live }, r)

/-- `free`, and the block struck out. -/
def Program.free (fuel : Nat) (s : Program sb) (ap : Nat) : Option (Program sb) :=
  (Umalloc.free fuel s.heap ap).map fun h =>
    { s with heap := h, live := s.live.filter (fun b => decide (b.addr ≠ headerOf ap)) }

/-- One byte of the program's memory is stored. -/
def Program.store (s : Program sb) (x : Nat) (v : Byte) : Program sb :=
  { s with heap := { s.heap with mem := Bytes.splice s.heap.mem x 1 (fun _ => v) } }

/-- One call; `none` when the program may not make it or the fuel runs out. -/
def exec (base fuel : Nat) (s : Program sb) (c : Call) : Option (Program sb) :=
  if s.May base c then
    match c with
    | .malloc nbytes => (s.malloc base fuel nbytes).map Prod.fst
    | .free ap => s.free fuel ap
    | .store x v => some (s.store x v)
  else none

/-- Nothing has been allocated, and `base` is in the program's data, below the
    break. The memory is arbitrary. -/
def Program.Fresh (base : Nat) (s : Program sb) : Prop :=
  s.heap.freep = 0 ∧ s.live = [] ∧ s.heap.regions = [] ∧ 0 < base ∧
    base + HEADER ≤ sb.brk s.heap.os

/-- All runs of a program over the system call `sb`. -/
def heapSystem (sb : Sbrk) (base : Nat) : System (Program sb) Call where
  init := fun s => s.Fresh base
  step := fun s c s' => ∃ fuel, exec base fuel s c = some s'

/-! ### The invariant -/

/-- The free list stands, and free blocks and live blocks tile the regions. -/
structure Tiled (base : Nat) (s : Program sb) (bs : List Nat) : Prop where
  ready : Ready s.heap base bs
  live_size : ∀ b ∈ s.live, size s.heap.mem b.addr = b.units
  live_room : ∀ b ∈ s.live, b.nbytes + HEADER ≤ HEADER * b.units
  tiles : ∀ x, cover (bs.map (freeBlock s.heap.mem)) x + cover (s.live.map Live.extent) x =
    cover s.heap.regions x
  increasing : s.heap.regions.Pairwise (fun e f => e.stop ≤ f.start)
  above : ∀ r ∈ s.heap.regions, base + HEADER ≤ r.start
  below : ∀ r ∈ s.heap.regions, r.stop ≤ sb.brk s.heap.os

/-- The first call of `malloc` is still to come, or the heap is tiled. -/
def HeapInv (base : Nat) (s : Program sb) : Prop :=
  s.Fresh base ∨ ∃ bs, Tiled base s bs

section tiled

variable {base : Nat} {s : Program sb} {bs : List Nat}

theorem live_pos (h : b.nbytes + HEADER ≤ HEADER * b.units) : 0 < b.units := by
  unfold HEADER at h
  omega

namespace Tiled

section

variable (h : Tiled base s bs)

include h

theorem units_pos (hb : b ∈ s.live) : 0 < b.units :=
  live_pos (h.live_room b hb)

theorem cover_le_one (x : Nat) : cover s.heap.regions x ≤ 1 :=
  cover_le_one_of_increasing h.increasing x

/-- A live block lies in the regions. -/
theorem covered (hb : b ∈ s.live) (hx : b.extent.Has x) : 0 < cover s.heap.regions x := by
  have := h.tiles x
  have hpos : 0 < cover (s.live.map Live.extent) x :=
    cover_pos.mpr ⟨_, List.mem_map_of_mem hb, hx⟩
  omega

theorem not_base (hx : 0 < cover s.heap.regions x) : ¬ (header base).Has x := by
  obtain ⟨r, hr, hrx⟩ := cover_pos.mp hx
  have := h.above r hr
  unfold Has stop header at *
  dsimp only
  omega

/-- No free block holds a byte of a live one. -/
theorem free_eq_zero (hb : b ∈ s.live) (hx : b.extent.Has x) :
    cover (bs.map (freeBlock s.heap.mem)) x = 0 := by
  have h₁ := h.tiles x
  have h₂ := h.cover_le_one x
  have hpos : 0 < cover (s.live.map Live.extent) x :=
    cover_pos.mpr ⟨_, List.mem_map_of_mem hb, hx⟩
  omega

end

/-- The header of a live block is part of the block. -/
theorem has_of_header (hb : 0 < b.units) (hx : (header b.addr).Has x) : b.extent.Has x := by
  have := header_le hb
  unfold Has stop header at hx
  unfold Has stop Live.extent
  dsimp only at hx ⊢
  omega

theorem has_of_payload (hb : 0 < b.units) (hx : b.payload.Has x) : b.extent.Has x := by
  have := header_le hb
  unfold Has stop Live.payload at hx
  unfold Has stop Live.extent
  dsimp only at hx ⊢
  omega

theorem first_byte (hb : 0 < b.units) : b.extent.Has b.addr := by
  have := header_le hb
  unfold Has stop Live.extent HEADER at *
  dsimp only
  omega

variable (h : Tiled base s bs)

include h

theorem addr_ge (hb : b ∈ s.live) : base + HEADER ≤ b.addr := by
  obtain ⟨r, hr, hrx⟩ := cover_pos.mp (h.covered hb (first_byte (h.units_pos hb)))
  exact Nat.le_trans (h.above r hr) hrx.1

theorem end_le (hb : b ∈ s.live) : b.addr + HEADER * b.units ≤ sb.brk s.heap.os := by
  have hlen := header_le (h.units_pos hb)
  have hlast : b.extent.Has (b.addr + HEADER * b.units - 1) := by
    unfold Has stop Live.extent HEADER at *
    dsimp only
    omega
  obtain ⟨r, hr, hrx⟩ := cover_pos.mp (h.covered hb hlast)
  have h₁ := h.below r hr
  have h₂ := hrx.2
  omega

theorem apart_free (hb : b ∈ s.live) : ∀ a ∈ bs, Apart b.extent (freeBlock s.heap.mem a) := by
  intro a ha
  have hsum : ∀ x, cover (s.live.map Live.extent) x +
      cover (bs.map (freeBlock s.heap.mem)) x ≤ 1 := by
    intro x
    have h₁ := h.tiles x
    have h₂ := h.cover_le_one x
    omega
  refine apart_of_cover hsum (List.mem_map_of_mem hb) (List.mem_map_of_mem ha) ?_ ?_
  · exact Nat.lt_of_lt_of_le (by decide) (header_le (h.units_pos hb))
  · exact Nat.lt_of_lt_of_le (by decide) (header_le (h.ready.list.nonempty a ha))

/-- Live blocks do not overlap. -/
theorem live_apart : (s.live.map Live.extent).Pairwise Apart := by
  refine pairwise_apart (fun x => ?_) (fun e he => ?_)
  · have h₁ := h.tiles x
    have h₂ := h.cover_le_one x
    omega
  · obtain ⟨b, hb, rfl⟩ := List.mem_map.mp he
    exact Nat.lt_of_lt_of_le (by decide) (header_le (h.units_pos hb))

/-- Live blocks have different addresses. -/
theorem live_nodup : s.live.Pairwise (fun a b => a.addr ≠ b.addr) := by
  refine (List.pairwise_map.mp h.live_apart).imp_of_mem fun {a b} ha hb hab heq => ?_
  have h₁ := header_le (h.units_pos ha)
  have h₂ := header_le (h.units_pos hb)
  unfold Apart stop Live.extent at hab
  unfold HEADER at *
  dsimp only at hab
  omega

end Tiled

/-- Striking out a block takes away what it covers. -/
theorem cover_filter {l : List Live} (hl : l.Pairwise (fun a b => a.addr ≠ b.addr)) (hb : b ∈ l)
    (x : Nat) : cover (l.map Live.extent) x = (if b.extent.Has x then 1 else 0) +
      cover ((l.filter (fun c => decide (c.addr ≠ b.addr))).map Live.extent) x := by
  induction l with
  | nil => exact absurd hb List.not_mem_nil
  | cons c l ih =>
    obtain ⟨hc, hl⟩ := List.pairwise_cons.mp hl
    rcases List.mem_cons.mp hb with rfl | hb
    · have hall : l.filter (fun c => decide (c.addr ≠ b.addr)) = l :=
        List.filter_eq_self.mpr fun a ha => decide_eq_true (Ne.symm (hc a ha))
      rw [List.filter_cons_of_neg (by simp), hall, List.map_cons, cover_cons]
    · have hne : c.addr ≠ b.addr := hc b hb
      rw [List.filter_cons_of_pos (by simpa using hne), List.map_cons, List.map_cons, cover_cons,
        cover_cons, ih hl hb]
      omega

end tiled

/-! ### The calls keep the invariant -/

section calls

variable {base fuel : Nat} {s s' : Program sb} {bs : List Nat}

/-- Blocks held before and after a call have kept all their bytes. -/
def Kept (s s' : Program sb) : Prop :=
  ∀ b ∈ s.live, b ∈ s'.live → ∀ x, b.extent.Has x → s'.heap.mem.get x = s.heap.mem.get x

theorem unitsFor_eq (h : Rounded nbytes) : unitsFor nbytes = (nbytes.toNat + 7) / HEADER + 1 := by
  unfold Rounded HEADER at h
  unfold unitsFor
  rw [BitVec.toNat_add]
  congr 2
  refine Nat.mod_eq_of_lt ?_
  simp only [BitVec.toNat_ofNat]
  omega

theorem fits_unitsFor (h : Rounded nbytes) : Fits (unitsFor nbytes) := by
  unfold Fits
  rw [unitsFor_eq h]
  exact h

theorem room_unitsFor (h : Rounded nbytes) : nbytes.toNat + HEADER ≤ HEADER * unitsFor nbytes := by
  rw [unitsFor_eq h]
  unfold HEADER
  omega

/-- The heap as the search of `malloc` finds it. -/
def Program.started (base : Nat) (s : Program sb) : Program sb :=
  { s with heap := initBase base s.heap }

theorem HeapInv.started (h : HeapInv base s) :
    (∃ bs, Tiled base (s.started base) bs) ∧
      ∀ x, ¬ (header base).Has x → (s.started base).heap.mem.get x = s.heap.mem.get x := by
  rcases h with ⟨hfreep, hlive, hregions, hpos, hbrk⟩ | ⟨bs, htiled⟩
  · have hinit : initBase base s.heap =
        { s.heap with mem := setSize (setPtr s.heap.mem base base) base 0, freep := base } :=
      if_pos hfreep
    have hlt := sb.brk_lt s.heap.os
    have hptr : ptr (setSize (setPtr s.heap.mem base base) base 0) base = base := by
      rw [ptr_setSize_self, ptr_setPtr_self (by omega) (by omega)]
    have hsize : size (setSize (setPtr s.heap.mem base base) base 0) base = 0 :=
      size_setSize_self (by omega) (by decide)
    unfold Program.started
    rw [hinit]
    refine ⟨⟨[], ?_⟩, fun x hx => ?_⟩
    · refine
        { ready :=
            { list :=
                { ring := List.isChain_cons_cons.mpr ⟨hptr, List.IsChain.singleton base⟩
                  spaced := List.pairwise_singleton _ _
                  base_pos := hpos
                  base_lt := by omega
                  base_size := hsize
                  nonempty := by simp
                  above := by simp
                  below := by simp }
              freep_mem := List.mem_singleton_self base
              base_le := hbrk
              brk := by simp }
          live_size := by simp [hlive]
          live_room := by simp [hlive]
          tiles := by simp [hlive, hregions]
          increasing := by simp [hregions]
          above := by simp [hregions]
          below := by simp [hregions] }
    · dsimp only
      rw [get_setSize hx, get_setPtr hx]
  · have hne : s.heap.freep ≠ 0 :=
      Nat.ne_of_gt (htiled.ready.list.pos htiled.ready.freep_mem)
    have hinit : initBase base s.heap = s.heap := if_neg hne
    unfold Program.started
    rw [hinit]
    exact ⟨⟨bs, htiled⟩, fun x _ => rfl⟩

/-- A block that `malloc` has returned is entered among the live ones. -/
theorem Tiled.enter (h : Tiled base s bs) {h' : Heap sb} {bs' : List Nat} {bp : Nat}
    (hgot : Got s.heap h' base bs bs' bp b.units) (hb : b.addr = bp)
    (hroom : b.nbytes + HEADER ≤ HEADER * b.units) :
    Tiled base { s with heap := h', live := b :: s.live } bs' ∧
      ∀ c ∈ s.live, ∀ x, c.extent.Has x → h'.mem.get x = s.heap.mem.get x := by
  -- a live block is in the old regions, and these are apart from a new one
  have hsame : ∀ c ∈ s.live, ∀ x, c.extent.Has x → h'.mem.get x = s.heap.mem.get x := by
    intro c hc x hx
    refine hgot.same x (h.not_base (h.covered hc hx)) (h.free_eq_zero hc hx) ?_
    rcases hgot.regions with heq | ⟨r, heq, hbrk, _⟩
    · rw [heq]
    · have hnot : ¬ r.Has x := by
        intro hr
        have h₁ := h.end_le hc
        have h₂ := hr.1
        have h₃ := hx.2
        unfold stop Live.extent at h₃
        dsimp only at h₃
        omega
      rw [heq, cover_append, cover_cons, if_neg hnot, cover_nil]
      omega
  refine ⟨?_, hsame⟩
  refine
    { ready := hgot.ready
      live_size := fun c hc => ?_
      live_room := fun c hc => ?_
      tiles := fun x => ?_
      increasing := ?_
      above := ?_
      below := ?_ }
  · rcases List.mem_cons.mp hc with rfl | hc
    · rw [hb]
      exact hgot.size_eq
    · rw [← h.live_size c hc]
      exact (header_congr fun x hx => hsame c hc x (has_of_header (h.units_pos hc) hx)).2
  · rcases List.mem_cons.mp hc with rfl | hc
    · exact hroom
    · exact h.live_room c hc
  · have h₁ := h.tiles x
    have h₂ := hgot.cover_eq x
    have hext : b.extent = ⟨bp, HEADER * b.units⟩ := by
      unfold Live.extent
      rw [hb]
    dsimp only
    rw [List.map_cons, cover_cons, hext]
    omega
  · rcases hgot.regions with heq | ⟨r, heq, hbrk, _⟩
    · rw [heq]
      exact h.increasing
    · rw [heq]
      refine List.pairwise_append.mpr ⟨h.increasing, List.pairwise_singleton _ _, ?_⟩
      intro e he f hf
      rw [List.mem_singleton.mp hf]
      exact Nat.le_trans (h.below e he) hbrk
  · intro e he
    rcases hgot.regions with heq | ⟨r, heq, hbrk, _⟩
    · rw [heq] at he
      exact h.above e he
    · rw [heq] at he
      rcases List.mem_append.mp he with he | he
      · exact h.above e he
      · rw [List.mem_singleton.mp he]
        exact Nat.le_trans h.ready.base_le hbrk
  · intro e he
    rcases hgot.regions with heq | ⟨r, heq, _, hstop⟩
    · rw [heq] at he
      exact Nat.le_trans (h.below e he) hgot.brk_mono
    · rw [heq] at he
      rcases List.mem_append.mp he with he | he
      · exact Nat.le_trans (h.below e he) hgot.brk_mono
      · rw [List.mem_singleton.mp he]
        exact hstop

/-- A heap that `sbrk` has refused is still tiled. -/
theorem Tiled.refused (h : Tiled base s bs) {h' : Heap sb} (href : Refused s.heap h') :
    Tiled base { s with heap := h' } bs := by
  obtain ⟨os, hos, rfl⟩ := href
  exact
    { h with
      ready :=
        { h.ready with
          base_le := Nat.le_trans h.ready.base_le hos
          brk := fun b hb => Nat.le_trans (h.ready.brk b hb) hos }
      below := fun r hr => Nat.le_trans (h.below r hr) hos }

/-- **`malloc` returns**, the heap stays tiled, and no live block changes. A result
    other than null is the address behind the header of the new block. -/
theorem HeapInv.malloc_spec (h : HeapInv base s) (hround : Rounded nbytes) :
    ∃ N s' r, (∀ fuel, N ≤ fuel → s.malloc base fuel nbytes = some (s', r)) ∧
      (∃ bs, Tiled base s' bs) ∧ Kept s s' ∧
      ((r = 0 ∧ s'.live = s.live) ∨ ∃ b : Live, r = after b.addr 1 ∧ r ≠ 0 ∧
        b.units = unitsFor nbytes ∧ b.nbytes = nbytes.toNat ∧ s'.live = b :: s.live) := by
  obtain ⟨⟨bs, htiled⟩, hsame₀⟩ := h.started
  have hn : 0 < unitsFor nbytes := Nat.succ_pos _
  have hkept₀ : ∀ c ∈ s.live, ∀ x, c.extent.Has x →
      (s.started base).heap.mem.get x = s.heap.mem.get x := fun c hc x hx =>
    hsame₀ x (htiled.not_base (htiled.covered (b := c) hc hx))
  have hspec := mallocLoop_spec htiled.ready hn (fits_unitsFor hround) (Nat.lt_succ_self _)
  rcases hspec with ⟨h', bp, bs', heq, hgot⟩ | ⟨h', heq, href⟩
  · have hlt : bp + HEADER < ADDRSPACE := by
      have h₁ := hgot.le_brk
      have h₂ := sb.brk_lt h'.os
      have h₃ := header_le hn
      omega
    have hr : after bp 1 ≠ 0 := by
      rw [after_of_lt (by omega)]
      unfold HEADER
      omega
    obtain ⟨htiled', hkept⟩ := htiled.enter
      (b := ⟨headerOf (after bp 1), unitsFor nbytes, nbytes.toNat⟩) hgot (headerOf_after hlt)
      (room_unitsFor hround)
    refine ⟨2 * bs.length + 3, _, after bp 1, fun fuel hfuel => ?_, ⟨bs', htiled'⟩, ?_, ?_⟩
    · unfold Program.malloc
      rw [show Umalloc.malloc base fuel s.heap nbytes = some (h', after bp 1) from
        mallocLoop_mono heq hfuel, Option.map_some]
      dsimp only
      rw [if_neg hr]
      rfl
    · intro c hc _ x hx
      exact (hkept c hc x hx).trans (hkept₀ c hc x hx)
    · refine Or.inr ⟨_, ?_, hr, rfl, rfl, rfl⟩
      dsimp only
      rw [headerOf_after hlt]
  · refine ⟨2 * bs.length + 3, _, 0, fun fuel hfuel => ?_, ⟨bs, htiled.refused href⟩, ?_,
      Or.inl ⟨rfl, rfl⟩⟩
    · unfold Program.malloc
      rw [show Umalloc.malloc base fuel s.heap nbytes = some (h', 0) from
        mallocLoop_mono heq hfuel, Option.map_some]
      dsimp only
      rw [if_pos rfl]
      rfl
    · intro c hc _ x hx
      obtain ⟨os, _, rfl⟩ := href
      exact hkept₀ c hc x hx

/-- **`free` of a live block returns**, the heap stays tiled, and no other live
    block changes. -/
theorem Tiled.free_spec (h : Tiled base s bs) (hb : b ∈ s.live) :
    ∃ N s', (∀ fuel, N ≤ fuel → s.free fuel (after b.addr 1) = some s') ∧
      (∃ bs', Tiled base s' bs') ∧ Kept s s' ∧
      s'.live = s.live.filter (fun c => decide (c.addr ≠ b.addr)) := by
  have hpos := h.units_pos hb
  have hlen := header_le hpos
  have hend := h.end_le hb
  have hlt := sb.brk_lt s.heap.os
  obtain ⟨m', p, bs', hfree, hfreed⟩ := Umalloc.free_spec h.ready.list h.ready.freep_mem
    (h.live_size b hb) hpos (h.addr_ge hb) (by omega) (h.apart_free hb) (Nat.lt_succ_self _)
  have hheader : headerOf (after b.addr 1) = b.addr := headerOf_after (by omega)
  have hcover := fun x => cover_filter h.live_nodup hb x
  -- the other live blocks hold no byte of the freed one, of a free one or of `base`
  have hsame : ∀ c ∈ s.live, c.addr ≠ b.addr → ∀ x, c.extent.Has x →
      m'.get x = s.heap.mem.get x := by
    intro c hc hne x hx
    refine hfreed.same x ?_ ?_
    · intro hxb
      have hbx : b.extent.Has x := has_of_header hpos hxb
      have hcov : 0 < cover ((s.live.filter (fun c => decide (c.addr ≠ b.addr))).map
          Live.extent) x :=
        cover_pos.mpr ⟨_, List.mem_map_of_mem (List.mem_filter.mpr ⟨hc, decide_eq_true hne⟩), hx⟩
      have h₁ := hcover x
      have h₂ := h.tiles x
      have h₃ := h.cover_le_one x
      rw [if_pos hbx] at h₁
      omega
    · exact h.ready.list.not_header hfreed.was_mem (h.not_base (h.covered hc hx))
        (h.free_eq_zero hc hx)
  refine ⟨bs.length + 1, { s with
      heap := { s.heap with mem := m', freep := p }
      live := s.live.filter (fun c => decide (c.addr ≠ b.addr)) },
    fun fuel hfuel => ?_, ⟨bs', ?_⟩, ?_, rfl⟩
  · unfold Program.free
    rw [free_mono hfree hfuel, Option.map_some, hheader]
  · have hstays : ∀ c ∈ s.live.filter (fun c => decide (c.addr ≠ b.addr)),
        c ∈ s.live ∧ c.addr ≠ b.addr := fun c hc =>
      ⟨(List.mem_filter.mp hc).1, of_decide_eq_true (List.mem_filter.mp hc).2⟩
    refine
      { h with
        ready :=
          { h.ready with
            list := hfreed.list
            freep_mem := hfreed.mem
            brk := fun a ha => ?_ }
        live_size := fun c hc => ?_
        live_room := fun c hc => h.live_room c (hstays c hc).1
        tiles := fun x => ?_ }
    · -- the last byte of a free block is in a region
      have halen := header_le (hfreed.list.nonempty a ha)
      have hhas : (freeBlock m' a).Has (a + HEADER * size m' a - 1) := by
        unfold Has stop freeBlock HEADER at *
        dsimp only
        omega
      have hcov : 0 < cover (bs'.map (freeBlock m')) (a + HEADER * size m' a - 1) :=
        cover_pos.mpr ⟨_, List.mem_map_of_mem ha, hhas⟩
      have h₁ := hfreed.cover_eq (a + HEADER * size m' a - 1)
      have h₂ := h.tiles (a + HEADER * size m' a - 1)
      have h₃ := hcover (a + HEADER * size m' a - 1)
      unfold Live.extent at h₃
      have hreg : 0 < cover s.heap.regions (a + HEADER * size m' a - 1) := by
        rw [← h₂]
        unfold Live.extent
        omega
      obtain ⟨r, hr, hrx⟩ := cover_pos.mp hreg
      have h₄ := h.below r hr
      have h₅ := hrx.2
      dsimp only
      omega
    · obtain ⟨hc, hne⟩ := hstays c hc
      rw [← h.live_size c hc]
      exact (header_congr fun x hx => hsame c hc hne x (has_of_header (h.units_pos hc) hx)).2
    · have h₁ := hfreed.cover_eq x
      have h₂ := h.tiles x
      have h₃ := hcover x
      have hext : b.extent = ⟨b.addr, HEADER * b.units⟩ := rfl
      rw [hext] at h₃
      dsimp only
      omega
  · intro c hc hc' x hx
    exact hsame c hc (of_decide_eq_true (List.mem_filter.mp hc').2) x hx

/-- No header holds a byte that is the program's own. -/
theorem Tiled.not_header_of_owns (h : Tiled base s bs) {a : Nat} (hx : s.Owns base x)
    (ha : a ∈ base :: bs ∨ ∃ b ∈ s.live, a = b.addr) : ¬ (header a).Has x := by
  intro hax
  rcases hx with ⟨c, hc, hcx⟩ | ⟨hxb, hxr⟩
  · have hcext : c.extent.Has x := has_of_payload (h.units_pos hc) hcx
    rcases ha with ha | ⟨b, hb, rfl⟩
    · exact h.ready.list.not_header ha (h.not_base (h.covered hc hcext))
        (h.free_eq_zero hc hcext) hax
    · by_cases hbc : c.addr = b.addr
      · unfold Has stop Live.payload at hcx
        unfold Has stop header at hax
        dsimp only at hcx hax
        omega
      · have hsymm : Std.Symm (fun a b : Live => Apart a.extent b.extent) :=
          ⟨fun _ _ h => h.symm⟩
        have hap : Apart c.extent b.extent :=
          (List.pairwise_map.mp h.live_apart).forall hc hb (fun h => hbc (h ▸ rfl))
        exact hap.not_has hcext (has_of_header (h.units_pos hb) hax)
  · have hzero : cover s.heap.regions x = 0 := by
      by_contra hne
      obtain ⟨r, hr, hrx⟩ := cover_pos.mp (Nat.pos_of_ne_zero hne)
      exact hxr r hr hrx
    rcases ha with ha | ⟨b, hb, rfl⟩
    · have := h.tiles x
      exact h.ready.list.not_header ha hxb (by omega) hax
    · have := h.covered hb (has_of_header (h.units_pos hb) hax)
      omega

/-- Memory that is the program's own may change in any way. -/
theorem Tiled.overwrite (h : Tiled base s bs) {m : Mem}
    (hsame : ∀ x, ¬ s.Owns base x → m.get x = s.heap.mem.get x) :
    Tiled base { s with heap := { s.heap with mem := m } } bs := by
  have hheader : ∀ a, (a ∈ base :: bs ∨ ∃ b ∈ s.live, a = b.addr) →
      ptr m a = ptr s.heap.mem a ∧ size m a = size s.heap.mem a := fun a ha =>
    header_congr fun x hx => hsame x fun hown => h.not_header_of_owns hown ha hx
  have hbs : ∀ b ∈ bs, size m b = size s.heap.mem b := fun b hb =>
    (hheader b (Or.inl (List.mem_cons_of_mem _ hb))).2
  exact
    { h with
      ready :=
        { h.ready with
          list := h.ready.list.shrink (fun b hb => (hheader b (Or.inl hb)).1)
            (fun b hb => Nat.le_of_eq (hheader b (Or.inl hb)).2)
            (fun b hb => by rw [hbs b hb]; exact h.ready.list.nonempty b hb)
          brk := fun b hb => by rw [hbs b hb]; exact h.ready.brk b hb }
      live_size := fun b hb => by
        rw [(hheader b.addr (Or.inr ⟨b, hb, rfl⟩)).2]
        exact h.live_size b hb
      tiles := fun y => by
        rw [map_freeBlock_congr hbs]
        exact h.tiles y }

theorem Tiled.store (h : Tiled base s bs) (hx : s.Owns base x) (v : Byte) :
    Tiled base (s.store x v) bs := by
  refine h.overwrite fun y hy => ?_
  have hne : y ≠ x := by
    rintro rfl
    exact hy hx
  rcases Nat.lt_or_gt_of_ne hne with hlt | hgt
  · exact Bytes.get_splice_of_lt _ _ _ _ hlt
  · exact Bytes.get_splice_of_ge _ _ _ _ hgt

/-- What a step of the program does to the blocks it holds. -/
theorem HeapInv.step_malloc (h : HeapInv base s)
    (hstep : exec base fuel s (.malloc nbytes) = some s') :
    (∃ bs, Tiled base s' bs) ∧ Kept s s' ∧ (s'.live = s.live ∨ ∃ b : Live,
      b.units = unitsFor nbytes ∧ b.nbytes = nbytes.toNat ∧ s'.live = b :: s.live) := by
  unfold exec at hstep
  split at hstep
  · rename_i hmay
    obtain ⟨⟨s₁, r₁⟩, hmalloc, rfl⟩ := Option.map_eq_some_iff.mp hstep
    obtain ⟨N, s₂, r, hall, htiled, hkept, hlive⟩ := h.malloc_spec hmay
    -- the result is the one that enough fuel gives
    have hmax : s.malloc base (max N fuel) nbytes = some (s₁, r₁) := by
      obtain ⟨⟨h₁, q₁⟩, hraw, heq⟩ := Option.map_eq_some_iff.mp hmalloc
      unfold Program.malloc
      rw [malloc_mono hraw (Nat.le_max_right N fuel), Option.map_some, heq]
    rw [hall _ (Nat.le_max_left N fuel)] at hmax
    obtain ⟨rfl, rfl⟩ := Prod.mk.inj (Option.some.inj hmax)
    refine ⟨htiled, hkept, ?_⟩
    rcases hlive with ⟨_, hlive⟩ | ⟨b, _, _, hunits, hbytes, hlive⟩
    · exact Or.inl hlive
    · exact Or.inr ⟨b, hunits, hbytes, hlive⟩
  · cases hstep

theorem Tiled.step_free (h : Tiled base s bs) {ap : Nat}
    (hstep : exec base fuel s (.free ap) = some s') :
    (∃ bs', Tiled base s' bs') ∧ Kept s s' ∧
      ∀ b, b ∈ s'.live ↔ b ∈ s.live ∧ ap ≠ after b.addr 1 := by
  unfold exec at hstep
  split at hstep
  · rename_i hmay
    obtain ⟨b, hb, rfl⟩ := hmay
    obtain ⟨N, s₂, hall, htiled, hkept, hlive⟩ := h.free_spec hb
    have hmax : s.free (max N fuel) (after b.addr 1) = some s' := by
      obtain ⟨h₁, hraw, heq⟩ := Option.map_eq_some_iff.mp hstep
      unfold Program.free
      rw [free_mono hraw (Nat.le_max_right N fuel), Option.map_some, heq]
    rw [hall _ (Nat.le_max_left N fuel)] at hmax
    obtain rfl := Option.some.inj hmax
    refine ⟨htiled, hkept, fun c => ?_⟩
    have hbelow : ∀ c ∈ s.live, after c.addr 1 = c.addr + HEADER := by
      intro c hc
      have h₁ := h.end_le hc
      have h₂ := sb.brk_lt s.heap.os
      have h₃ := header_le (h.units_pos hc)
      exact after_of_lt (by omega)
    rw [hlive, List.mem_filter, decide_eq_true_iff]
    constructor
    · rintro ⟨hc, hne⟩
      rw [hbelow b hb, hbelow c hc]
      exact ⟨hc, by omega⟩
    · rintro ⟨hc, hne⟩
      rw [hbelow b hb, hbelow c hc] at hne
      exact ⟨hc, by omega⟩
  · cases hstep

/-- A program that holds no block frees none. -/
theorem not_free_of_nil {ap : Nat} (hlive : s.live = []) :
    exec base fuel s (.free ap) = none := by
  unfold exec
  rw [if_neg]
  rintro ⟨b, hb, _⟩
  rw [hlive] at hb
  exact absurd hb List.not_mem_nil

theorem HeapInv.step (h : HeapInv base s) {c : Call} (hstep : exec base fuel s c = some s') :
    HeapInv base s' := by
  cases c with
  | malloc nbytes => exact Or.inr (h.step_malloc hstep).1
  | free ap =>
    rcases h with ⟨_, hlive, _⟩ | ⟨bs, htiled⟩
    · rw [not_free_of_nil hlive] at hstep
      cases hstep
    · exact Or.inr (htiled.step_free hstep).1
  | store x v =>
    unfold exec at hstep
    split at hstep
    · rename_i hmay
      obtain rfl := Option.some.inj hstep
      rcases h with hfresh | ⟨bs, htiled⟩
      · exact Or.inl hfresh
      · exact Or.inr ⟨bs, htiled.store hmay v⟩
    · cases hstep

/-- **The invariant holds in every state.** -/
theorem HeapInv.of_reachable (h : Reachable (heapSystem sb base) s) : HeapInv base s := by
  have hinit : ∀ s, (heapSystem sb base).init s → HeapInv base s := fun s hs => Or.inl hs
  have hstep : ∀ s c s', HeapInv base s → (heapSystem sb base).step s c s' → HeapInv base s' := by
    rintro s c s' hinv ⟨fuel, hexec⟩
    exact hinv.step hexec
  exact h.invariant hinit hstep

/-- Every call the program may make returns. -/
theorem HeapInv.returns (h : HeapInv base s) {c : Call} (hmay : s.May base c) :
    ∃ N, ∀ fuel, N ≤ fuel → (exec base fuel s c).isSome = true := by
  cases c with
  | malloc nbytes =>
    obtain ⟨N, s₂, r, hall, _⟩ := h.malloc_spec hmay
    refine ⟨N, fun fuel hfuel => ?_⟩
    unfold exec
    rw [if_pos hmay]
    dsimp only
    rw [hall fuel hfuel]
    rfl
  | free ap =>
    obtain ⟨b, hb, rfl⟩ := id hmay
    rcases h with ⟨_, hlive, _⟩ | ⟨bs, htiled⟩
    · rw [hlive] at hb
      exact absurd hb List.not_mem_nil
    · obtain ⟨N, s₂, hall, _⟩ := htiled.free_spec hb
      refine ⟨N, fun fuel hfuel => ?_⟩
      unfold exec
      rw [if_pos hmay]
      dsimp only
      rw [hall fuel hfuel]
      rfl
  | store x v =>
    refine ⟨0, fun fuel _ => ?_⟩
    unfold exec
    rw [if_pos hmay]
    rfl

end calls

/-! ### What every program may rely on -/

/-- The free list through `base` and the blocks `bs`, and how free and live blocks
    lie in the regions obtained from `sbrk`. -/
structure HeapOrder (base : Nat) (s : Program sb) (bs : List Nat) : Prop where
  /-- Following the links from `freep` leads through `base` and `bs` in turn and
      back; so the addresses go up but for the one step back to `base`. -/
  circular : ∃ rest, RingList (ptr s.heap.mem) s.heap.freep rest ∧
    (s.heap.freep :: rest) ~r (base :: bs)
  increasing : (base :: bs).Pairwise (· < ·)
  /-- No free block reaches the next one. -/
  coalesced : (base :: bs).IsChain (fun a b => a + HEADER * size s.heap.mem a < b)
  disjoint : (bs.map (freeBlock s.heap.mem) ++ s.live.map Live.extent).Pairwise Apart
  tiled : ∀ x, (∃ e ∈ bs.map (freeBlock s.heap.mem) ++ s.live.map Live.extent, e.Has x) ↔
    ∃ r ∈ s.heap.regions, r.Has x

theorem Tiled.order {base : Nat} {s : Program sb} {bs : List Nat} (h : Tiled base s bs) :
    HeapOrder base s bs where
  circular := h.ready.list.ring.exists_enter h.ready.freep_mem
  increasing := h.ready.list.lt_of_spaced
  coalesced := h.ready.list.spaced.isChain
  disjoint := by
    refine pairwise_apart (fun x => ?_) (fun e he => ?_)
    · rw [cover_append, h.tiles x]
      exact h.cover_le_one x
    · rcases List.mem_append.mp he with he | he
      · obtain ⟨b, hb, rfl⟩ := List.mem_map.mp he
        exact Nat.lt_of_lt_of_le (by decide) (header_le (h.ready.list.nonempty b hb))
      · obtain ⟨b, hb, rfl⟩ := List.mem_map.mp he
        exact Nat.lt_of_lt_of_le (by decide) (header_le (h.units_pos hb))
  tiled := fun x => by
    rw [← cover_pos, ← cover_pos, cover_append, h.tiles x]

/-- **The heap discipline.** In every state that a program reaches by calls of
    `malloc` and `free` and by stores into its own memory, over any `sbrk` that
    answers with increasing regions or fails:

    - before the first call nothing is allocated; after it the free list is
      circular, in address order and coalesced, and free and live blocks tile the
      regions obtained;
    - a live block has the size it was given, and room for what was asked for;
    - a call of `free` takes one block away and changes no byte of the others, and
      a call of `malloc` changes no byte of the blocks held and adds at most one;
    - every call returns. -/
theorem heap_discipline {base : Nat} {s : Program sb} (h : Reachable (heapSystem sb base) s) :
    ((s.heap.freep = 0 ∧ s.live = [] ∧ s.heap.regions = []) ∨ ∃ bs, HeapOrder base s bs) ∧
    (∀ b ∈ s.live, size s.heap.mem b.addr = b.units ∧ b.nbytes + HEADER ≤ HEADER * b.units) ∧
    (∀ ap s', (heapSystem sb base).step s (.free ap) s' →
      (∀ b, b ∈ s'.live ↔ b ∈ s.live ∧ ap ≠ after b.addr 1) ∧
      ∀ b ∈ s'.live, ∀ x, b.extent.Has x → s'.heap.mem.get x = s.heap.mem.get x) ∧
    (∀ nbytes s', (heapSystem sb base).step s (.malloc nbytes) s' →
      (s'.live = s.live ∨ ∃ b : Live, b.units = unitsFor nbytes ∧ b.nbytes = nbytes.toNat ∧
        s'.live = b :: s.live) ∧
      ∀ b ∈ s.live, ∀ x, b.extent.Has x → s'.heap.mem.get x = s.heap.mem.get x) ∧
    ∀ c, s.May base c → ∃ N, ∀ fuel, N ≤ fuel → (exec base fuel s c).isSome = true := by
  have hinv := HeapInv.of_reachable h
  refine ⟨?_, ?_, ?_, ?_, fun c hmay => hinv.returns hmay⟩
  · rcases hinv with ⟨hfreep, hlive, hregions, _⟩ | ⟨bs, htiled⟩
    · exact Or.inl ⟨hfreep, hlive, hregions⟩
    · exact Or.inr ⟨bs, htiled.order⟩
  · rcases hinv with ⟨_, hlive, _⟩ | ⟨bs, htiled⟩
    · simp [hlive]
    · exact fun b hb => ⟨htiled.live_size b hb, htiled.live_room b hb⟩
  · rintro ap s' ⟨fuel, hstep⟩
    rcases hinv with ⟨_, hlive, _⟩ | ⟨bs, htiled⟩
    · rw [not_free_of_nil hlive] at hstep
      cases hstep
    · obtain ⟨_, hkept, hmem⟩ := htiled.step_free hstep
      exact ⟨hmem, fun b hb x hx => hkept b ((hmem b).mp hb).1 hb x hx⟩
  · rintro nbytes s' ⟨fuel, hstep⟩
    obtain ⟨_, hkept, hlive⟩ := hinv.step_malloc hstep
    refine ⟨hlive, fun b hb x hx => hkept b hb ?_ x hx⟩
    rcases hlive with hlive | ⟨c, _, _, hlive⟩
    · rwa [hlive]
    · rw [hlive]
      exact List.mem_cons_of_mem _ hb

/-- An `sbrk` that moves the break up contiguously and fails at `KERNBASE`, or when
    the next answer of `full` says that memory has run out. -/
def contiguous : Sbrk where
  State := { b : Nat // b < KERNBASE } × List Bool
  call := fun s n =>
    if h : 0 ≤ n ∧ s.1.val + n.toNat < KERNBASE ∧ s.2.head? ≠ some true then
      (some s.1.val, ⟨s.1.val + n.toNat, h.2.1⟩, s.2.tail)
    else (none, s.1, s.2.tail)
  brk := fun s => s.1.val
  brk_lt := fun s => Nat.lt_trans s.1.property (by decide)
  brk_mono := fun s n _ => by
    split
    · exact Nat.le_add_right _ _
    · exact Nat.le_refl _
  region := fun {s n a} _ hsome => by
    split at hsome
    · rename_i h
      rw [dif_pos h]
      obtain rfl := Option.some.inj hsome
      exact ⟨Nat.le_refl _, Nat.le_refl _⟩
    · cases hsome

/-- A program with its break at 12288, before its first call. -/
def bootProgram : Program contiguous where
  heap :=
    { mem := fun _ => 0
      freep := 0
      os := (⟨12288, by decide⟩, [])
      regions := [] }
  live := []

theorem bootProgram_run (calls : List Call) {s : Program contiguous}
    (h : calls.foldlM (exec 2048 8) bootProgram = some s) :
    Reachable (heapSystem contiguous 2048) s := by
  have hboot : (heapSystem contiguous 2048).init bootProgram :=
    ⟨rfl, rfl, rfl, by decide, by decide⟩
  have hnext : ∀ s c s', exec 2048 8 s c = some s' → (heapSystem contiguous 2048).step s c s' :=
    fun s c s' hs => ⟨8, hs⟩
  exact Reachable.foldlM hnext calls (.init hboot) h

/-- Two blocks are allocated and the first is freed again. -/
theorem heap_discipline_two_blocks : ∃ s bs, Reachable (heapSystem contiguous 2048) s ∧
    s.live = [⟨40840, 14, 100⟩] ∧ HeapOrder 2048 s bs := by
  have hrun : (([.malloc 4096#32, .malloc 100#32, .free 40960] : List Call).foldlM
      (exec 2048 8) bootProgram).any
        (fun s => decide (s.live = [⟨40840, 14, 100⟩] ∧ s.heap.freep ≠ 0)) = true := by
    decide +kernel
  obtain ⟨s, hs, hend⟩ := (Option.any_eq_true _ _).mp hrun
  obtain ⟨hlive, hfreep⟩ := of_decide_eq_true hend
  have hreach := bootProgram_run _ hs
  rcases (heap_discipline hreach).1 with ⟨hzero, _⟩ | ⟨bs, horder⟩
  · exact absurd hzero hfreep
  · exact ⟨s, bs, hreach, hlive, horder⟩

end Xv6.Umalloc
