import Xv6.Heap.Ring

/-! # `morecore` and `malloc`

    The search of `malloc` goes round the free list once. If no block is large
    enough it asks `sbrk` for a region, frees the region into the list, and goes
    round again; now a block is large enough, so the search ends.
-/

namespace Xv6.Umalloc

open Extent

variable {sb : Sbrk} {base fuel n : Nat} {bs : List Nat} {h : Heap sb} {bp : Nat}

/-- The heap between two calls: the free list stands, `freep` is on it, and it
    lies below the break. -/
structure Ready (h : Heap sb) (base : Nat) (bs : List Nat) : Prop where
  list : FreeList h.mem base bs
  freep_mem : h.freep ∈ base :: bs
  base_le : base + HEADER ≤ sb.brk h.os
  brk : ∀ b ∈ bs, b + HEADER * size h.mem b ≤ sb.brk h.os

/-- A free list below the break covers no address at or above it. -/
theorem Ready.cover_eq_zero (hr : Ready h base bs) {x : Nat} (hx : sb.brk h.os ≤ x) :
    cover (bs.map (freeBlock h.mem)) x = 0 := by
  by_contra hne
  obtain ⟨e, he, hex⟩ := cover_pos.mp (Nat.pos_of_ne_zero hne)
  obtain ⟨b, hb, rfl⟩ := List.mem_map.mp he
  have := hr.brk b hb
  unfold Has stop freeBlock at hex
  dsimp only at hex
  omega

/-! ### `morecore` -/

/-- The units `morecore` asks for. -/
def coreUnits (nu : Nat) : Nat := if nu < 4096 then 4096 else nu

/-- The size of a region fits a positive `int`. -/
def Fits (n : Nat) : Prop := HEADER * n < 2147483648

theorem increment_eq (hn : Fits n) : increment n = ((HEADER * n : Nat) : Int) := by
  unfold Fits at hn
  unfold increment
  rw [Nat.mul_comm n, BitVec.toInt_eq_toNat_of_lt]
  · rw [BitVec.toNat_ofNat, Nat.mod_eq_of_lt (by omega)]
  · rw [BitVec.toNat_ofNat, Nat.mod_eq_of_lt (by omega)]
    omega

theorem le_coreUnits : n ≤ coreUnits n := by
  unfold coreUnits
  split <;> omega

theorem fits_coreUnits (hn : Fits n) : Fits (coreUnits n) := by
  unfold Fits coreUnits HEADER at *
  split <;> omega

theorem morecore_none {os : sb.State} (hn : Fits n)
    (hcall : sb.call h.os ((HEADER * coreUnits n : Nat) : Int) = (none, os)) :
    morecore fuel h n = some ({ h with os := os }, 0) := by
  rw [← increment_eq (fits_coreUnits hn)] at hcall
  unfold coreUnits at hcall
  unfold morecore
  dsimp only
  rw [hcall]

theorem morecore_some {os : sb.State} {hp : Nat} (hn : Fits n)
    (hcall : sb.call h.os ((HEADER * coreUnits n : Nat) : Int) = (some hp, os)) :
    morecore fuel h n = (free fuel { h with
      mem := setSize h.mem hp (coreUnits n)
      os := os
      regions := h.regions ++ [⟨hp, HEADER * coreUnits n⟩] } (after hp 1)).map
        fun h => (h, h.freep) := by
  rw [← increment_eq (fits_coreUnits hn)] at hcall
  unfold coreUnits at hcall ⊢
  unfold morecore
  dsimp only
  rw [hcall]

/-- The heap has been given the region `r`, all of it free. -/
structure Grown (h h' : Heap sb) (base : Nat) (bs bs' : List Nat) (r : Extent) : Prop where
  ready : Ready h' base bs'
  regions : h'.regions = h.regions ++ [r]
  brk_le : sb.brk h.os ≤ r.start
  le_brk : r.stop ≤ sb.brk h'.os
  cover_eq : ∀ x, cover (bs'.map (freeBlock h'.mem)) x =
    (if r.Has x then 1 else 0) + cover (bs.map (freeBlock h.mem)) x
  same : ∀ x, ¬ (header base).Has x → cover (bs.map (freeBlock h.mem)) x = 0 → ¬ r.Has x →
    h'.mem.get x = h.mem.get x

/-- **`morecore`** fails, or returns with a region in the free list and in it a
    block of at least `nu` units. -/
theorem morecore_spec (hr : Ready h base bs) (hn : Fits n) (hfuel : bs.length < fuel) :
    (∃ os, sb.brk h.os ≤ sb.brk os ∧ morecore fuel h n = some ({ h with os := os }, 0)) ∨
    ∃ h' bs' r, morecore fuel h n = some (h', h'.freep) ∧ Grown h h' base bs bs' r ∧
      (∃ b ∈ bs', n ≤ size h'.mem b) ∧ bs'.length ≤ bs.length + 1 := by
  obtain ⟨k, hk⟩ : ∃ k, coreUnits n = k := ⟨_, rfl⟩
  have hle : n ≤ k := hk ▸ le_coreUnits
  have hkpos : 0 < k := by
    rw [← hk]
    unfold coreUnits
    split <;> omega
  have hlen := header_le hkpos
  have hlenpos : 0 < HEADER * k := by unfold HEADER at *; omega
  have hmono := sb.brk_mono h.os (HEADER * k) hlenpos
  rcases hans : sb.call h.os ((HEADER * k : Nat) : Int) with ⟨_ | hp, os⟩
  · rw [hans] at hmono
    exact Or.inl ⟨os, hmono, morecore_none hn (hk ▸ hans)⟩
  · right
    have hregion : sb.brk h.os ≤ hp ∧ hp + HEADER * k ≤ sb.brk os := by
      have := sb.region (s := h.os) (a := hp) hlenpos (by rw [hans])
      rwa [hans] at this
    rw [morecore_some hn (hk ▸ hans), hk]
    rw [hans] at hmono
    obtain ⟨hbrk, hstop⟩ := hregion
    dsimp only at hmono ⊢
    have hlt := sb.brk_lt os
    have hbase := hr.base_le
    -- the new header is beyond everything on the list
    have hsame₁ : ∀ x, ¬ (header hp).Has x → (setSize h.mem hp k).get x = h.mem.get x :=
      fun x hx => get_setSize hx
    have hclear : ∀ b ∈ base :: bs, Clear b hp := by
      intro b hb
      rcases List.mem_cons.mp hb with rfl | hb
      · exact Or.inl (by omega)
      · have h₁ := hr.brk b hb
        have h₂ := header_le (hr.list.nonempty b hb)
        exact Or.inl (by omega)
    have hkeep : ∀ b ∈ base :: bs, ptr (setSize h.mem hp k) b = ptr h.mem b ∧
        size (setSize h.mem hp k) b = size h.mem b := fun b hb =>
      same_of_clear hsame₁ (hclear b hb)
    have hlist : FreeList (setSize h.mem hp k) base bs :=
      hr.list.shrink (fun b hb => (hkeep b hb).1) (fun b hb => Nat.le_of_eq (hkeep b hb).2)
        (fun b hb => by
          rw [(hkeep b (List.mem_cons_of_mem _ hb)).2]
          exact hr.list.nonempty b hb)
    have hmap : bs.map (freeBlock (setSize h.mem hp k)) = bs.map (freeBlock h.mem) :=
      map_freeBlock_congr fun b hb => (hkeep b (List.mem_cons_of_mem _ hb)).2
    have hsize : size (setSize h.mem hp k) hp = k :=
      size_setSize_self (by omega) (by unfold HEADER at hstop; omega)
    have hapart : ∀ b ∈ bs, Apart ⟨hp, HEADER * k⟩ (freeBlock (setSize h.mem hp k) b) := by
      intro b hb
      have := hr.brk b hb
      refine Or.inr ?_
      unfold stop freeBlock
      dsimp only
      rw [(hkeep b (List.mem_cons_of_mem _ hb)).2]
      omega
    obtain ⟨m', p, bs', hfree, hfreed⟩ := free_spec
      (h := { h with
        mem := setSize h.mem hp k
        os := os
        regions := h.regions ++ [⟨hp, HEADER * k⟩] }) hlist hr.freep_mem hsize hkpos (by omega)
      (by omega) hapart hfuel
    rw [hfree]
    refine ⟨_, bs', ⟨hp, HEADER * k⟩, rfl, ?_, ?_, hfreed.length_le⟩
    · have hcover : ∀ x, cover (bs'.map (freeBlock m')) x =
          (if Has ⟨hp, HEADER * k⟩ x then 1 else 0) + cover (bs.map (freeBlock h.mem)) x := by
        intro x
        have := hfreed.cover_eq x
        dsimp only at this
        rwa [hmap] at this
      refine
        { ready :=
            { list := hfreed.list
              freep_mem := hfreed.mem
              base_le := by dsimp only; omega
              brk := fun b hb => ?_ }
          regions := rfl
          brk_le := hbrk
          le_brk := hstop
          cover_eq := hcover
          same := fun x hx hcov hnot => ?_ }
      · -- the last byte of a free block was free before or is in the region
        have hpos := hfreed.list.nonempty b hb
        have hblen := header_le hpos
        have hhas : (freeBlock m' b).Has (b + HEADER * size m' b - 1) := by
          unfold Has stop freeBlock HEADER
          dsimp only
          omega
        have hcov : 0 < cover (bs'.map (freeBlock m')) (b + HEADER * size m' b - 1) :=
          cover_pos.mpr ⟨_, List.mem_map_of_mem hb, hhas⟩
        rw [hcover] at hcov
        dsimp only
        by_contra hgt
        have hzero : cover (bs.map (freeBlock h.mem)) (b + HEADER * size m' b - 1) = 0 :=
          hr.cover_eq_zero (by omega)
        rw [hzero, if_neg] at hcov
        · exact Nat.lt_irrefl _ hcov
        · unfold Has stop
          dsimp only
          omega
      · have h₁ : ¬ (header hp).Has x := by
          intro hx'
          refine hnot ?_
          unfold Has stop header at hx'
          unfold Has stop
          dsimp only at hx' ⊢
          omega
        have h₂ : ¬ (header p).Has x := hr.list.not_header hfreed.was_mem hx hcov
        exact (hfreed.same x h₁ h₂).trans (hsame₁ x h₁)
    · obtain ⟨b, hb, hroom⟩ := hfreed.room
      exact ⟨b, hb, Nat.le_trans hle hroom⟩

/-! ### The search of `malloc` -/

/-- Once round the list from `prevp` to `freep`: either a block is large enough
    and is taken, or none is and the search has come to `morecore`. -/
theorem mallocLoop_walk {l : List Nat} : ∀ {prevp fuel : Nat},
    (prevp :: (l ++ [h.freep])).IsChain (fun x y => ptr h.mem x = y) → h.freep ∉ l →
    l.length < fuel →
    (∃ q p, q ∈ prevp :: l ∧ p ∈ l ++ [h.freep] ∧ ptr h.mem q = p ∧ n ≤ size h.mem p ∧
      mallocLoop n fuel h prevp (ptr h.mem prevp) = some (take h q p n)) ∨
    ((∀ p ∈ l ++ [h.freep], size h.mem p < n) ∧ ∃ k, fuel = k + l.length + 1 ∧
      mallocLoop n fuel h prevp (ptr h.mem prevp) = (morecore k h n).bind fun (h', q) =>
        if q = 0 then some (h', 0) else mallocLoop n k h' q (ptr h'.mem q)) := by
  induction l with
  | nil =>
    intro prevp fuel hchain _ hfuel
    obtain ⟨k, rfl⟩ := Nat.exists_eq_succ_of_ne_zero (Nat.ne_of_gt hfuel)
    have hnext : ptr h.mem prevp = h.freep := (List.isChain_cons_cons.mp hchain).1
    rw [hnext]
    by_cases hfit : n ≤ size h.mem h.freep
    · exact Or.inl ⟨prevp, h.freep, by simp, by simp, hnext, hfit, by rw [mallocLoop, if_pos hfit]⟩
    · refine Or.inr ⟨?_, k, by simp, ?_⟩
      · intro p hp
        rw [List.mem_singleton.mp hp]
        omega
      · rw [mallocLoop, if_neg hfit, if_pos rfl]
  | cons a l ih =>
    intro prevp fuel hchain hnot hfuel
    obtain ⟨k, rfl⟩ := Nat.exists_eq_succ_of_ne_zero (Nat.ne_of_gt (Nat.zero_lt_of_lt hfuel))
    obtain ⟨hnext, hrest⟩ := List.isChain_cons_cons.mp hchain
    obtain ⟨hne, hnot⟩ := not_or.mp (mt List.mem_cons.mpr hnot)
    rw [hnext]
    by_cases hfit : n ≤ size h.mem a
    · exact Or.inl ⟨prevp, a, by simp, by simp, hnext, hfit, by rw [mallocLoop, if_pos hfit]⟩
    · have hstep : mallocLoop n (k + 1) h prevp a = mallocLoop n k h a (ptr h.mem a) := by
        rw [mallocLoop, if_neg hfit, if_neg (Ne.symm hne)]
      rw [hstep]
      rcases ih hrest hnot (Nat.lt_of_succ_lt_succ hfuel) with
        ⟨q, p, hq, hp, hqp, hpfit, heq⟩ | ⟨hsmall, j, hj, heq⟩
      · exact Or.inl ⟨q, p, List.mem_cons_of_mem _ hq, List.mem_cons_of_mem _ hp, hqp, hpfit, heq⟩
      · refine Or.inr ⟨?_, j, by rw [List.length_cons]; omega, heq⟩
        intro p hp
        rcases List.mem_cons.mp hp with rfl | hp
        · omega
        · exact hsmall p hp

/-- Once round the whole list. -/
theorem mallocLoop_round (hlist : FreeList h.mem base bs) (hfreep : h.freep ∈ base :: bs)
    (hn : 0 < n) (hfuel : bs.length < fuel) :
    (∃ m' bp bs' q, mallocLoop n fuel h h.freep (ptr h.mem h.freep) =
      some ({ h with mem := m', freep := q }, after bp 1) ∧ Taken h.mem m' base bs bs' bp n q) ∨
    ((∀ p ∈ bs, size h.mem p < n) ∧ ∃ k, fuel = k + bs.length + 1 ∧
      mallocLoop n fuel h h.freep (ptr h.mem h.freep) = (morecore k h n).bind fun (h', q) =>
        if q = 0 then some (h', 0) else mallocLoop n k h' q (ptr h'.mem q)) := by
  obtain ⟨l, hl, hrot⟩ := hlist.ring.exists_enter hfreep
  have hmem : ∀ y, y ∈ h.freep :: l ↔ y ∈ base :: bs := fun y => hrot.mem_iff
  have hlen : l.length = bs.length := by
    have := hrot.perm.length_eq
    simpa using this
  have hnodup : (h.freep :: l).Nodup :=
    hrot.nodup_iff.mpr (hlist.lt_of_spaced.imp Nat.ne_of_lt)
  have hswap : ∀ y, y ∈ l ++ [h.freep] ↔ y ∈ h.freep :: l := by
    intro y
    rw [List.mem_append, List.mem_singleton, List.mem_cons]
    exact Or.comm
  rcases mallocLoop_walk (n := n) hl (List.nodup_cons.mp hnodup).1 (hlen ▸ hfuel) with
    ⟨q, p, hq, hp, hqp, hfit, heq⟩ | ⟨hsmall, k, hk, heq⟩
  · obtain ⟨m', bp, bs', htake, htaken⟩ := take_spec hlist ((hmem q).mp hq) hqp
      ((hmem p).mp ((hswap p).mp hp)) hn hfit
    exact Or.inl ⟨m', bp, bs', q, heq.trans (congrArg some htake), htaken⟩
  · refine Or.inr ⟨fun p hp => ?_, k, hlen ▸ hk, heq⟩
    exact hsmall p ((hswap p).mpr ((hmem p).mpr (List.mem_cons_of_mem _ hp)))

/-- `malloc` has returned the block `bp` of `n` units, from the free list or from
    a new region. -/
structure Got (h h' : Heap sb) (base : Nat) (bs bs' : List Nat) (bp n : Nat) : Prop where
  ready : Ready h' base bs'
  size_eq : size h'.mem bp = n
  above : base + HEADER ≤ bp
  le_brk : bp + HEADER * n ≤ sb.brk h'.os
  brk_mono : sb.brk h.os ≤ sb.brk h'.os
  regions : h'.regions = h.regions ∨
    ∃ r, h'.regions = h.regions ++ [r] ∧ sb.brk h.os ≤ r.start ∧ r.stop ≤ sb.brk h'.os
  cover_eq : ∀ x, (if Has ⟨bp, HEADER * n⟩ x then 1 else 0) +
      cover (bs'.map (freeBlock h'.mem)) x + cover h.regions x =
    cover (bs.map (freeBlock h.mem)) x + cover h'.regions x
  same : ∀ x, ¬ (header base).Has x → cover (bs.map (freeBlock h.mem)) x = 0 →
    cover h'.regions x = cover h.regions x → h'.mem.get x = h.mem.get x

/-- Bytes that come out of the free list lie below the break. -/
theorem Taken.le_brk {m' : Mem} {bs' : List Nat} {q b u : Nat} (hr : Ready h base bs)
    (ht : Taken h.mem m' base bs bs' bp n q)
    (hx : ∀ x, Has ⟨b, HEADER * u⟩ x → 0 < (if Has ⟨bp, HEADER * n⟩ x then 1 else 0) +
      cover (bs'.map (freeBlock m')) x) (hu : 0 < u) : b + HEADER * u ≤ sb.brk h.os := by
  have hlen := header_le hu
  by_contra hgt
  have hhas : Has ⟨b, HEADER * u⟩ (b + HEADER * u - 1) := by
    unfold Has stop HEADER at *
    dsimp only
    omega
  have hpos := hx _ hhas
  rw [ht.cover_eq, hr.cover_eq_zero (by omega)] at hpos
  exact Nat.lt_irrefl _ hpos

theorem Taken.got {m' : Mem} {bs' : List Nat} {q : Nat} (hr : Ready h base bs) (hn : 0 < n)
    (ht : Taken h.mem m' base bs bs' bp n q) :
    Got h { h with mem := m', freep := q } base bs bs' bp n where
  ready :=
    { list := ht.list
      freep_mem := ht.mem
      base_le := hr.base_le
      brk := fun b hb => by
        dsimp only
        refine ht.le_brk hr (fun x hx => ?_) (ht.list.nonempty b hb)
        have hcov : 0 < cover (bs'.map (freeBlock m')) x :=
          cover_pos.mpr ⟨_, List.mem_map_of_mem hb, hx⟩
        omega }
  size_eq := ht.size_eq
  above := ht.above
  le_brk := by
    dsimp only
    refine ht.le_brk hr (fun x hx => ?_) hn
    rw [if_pos hx]
    omega
  brk_mono := Nat.le_refl _
  regions := Or.inl rfl
  cover_eq := fun x => by
    have := ht.cover_eq x
    dsimp only
    omega
  same := fun x hx hcov _ => ht.same x hx hcov

/-- A block from the list after it has grown. -/
theorem Grown.got {h₁ h₂ : Heap sb} {bs₁ bs₂ : List Nat} {r : Extent}
    (hg : Grown h h₁ base bs bs₁ r) (hgot : Got h₁ h₂ base bs₁ bs₂ bp n)
    (hregions : h₂.regions = h₁.regions) (hos : h₂.os = h₁.os) : Got h h₂ base bs bs₂ bp n where
  __ := hgot
  brk_mono := by
    have h₁ := hg.brk_le
    have h₂ := hg.le_brk
    rw [hos]
    unfold stop at h₂
    omega
  regions := Or.inr ⟨r, hregions.trans hg.regions, hg.brk_le, hos ▸ hg.le_brk⟩
  cover_eq := fun x => by
    have e₁ := hgot.cover_eq x
    have e₂ := hg.cover_eq x
    rw [hregions] at e₁ ⊢
    rw [hg.regions] at e₁ ⊢
    simp only [cover_append, cover_cons, cover_nil] at e₁ ⊢
    omega
  same := fun x hx hcov hreg => by
    rw [hregions, hg.regions] at hreg
    simp only [cover_append, cover_cons, cover_nil] at hreg
    have hnot : ¬ r.Has x := by
      intro hr
      rw [if_pos hr] at hreg
      omega
    have hcov₁ : cover (bs₁.map (freeBlock h₁.mem)) x = 0 := by
      rw [hg.cover_eq, if_neg hnot, hcov]
    exact (hgot.same x hx hcov₁ (by rw [hregions])).trans (hg.same x hx hcov hnot)

/-- The heap is as it was but for the state of the system, which has refused. -/
def Refused (h h' : Heap sb) : Prop := ∃ os, sb.brk h.os ≤ sb.brk os ∧ h' = { h with os := os }

/-- **The search of `malloc` ends**, with a block or with `sbrk` having failed. -/
theorem mallocLoop_spec (hr : Ready h base bs) (hn : 0 < n) (hfits : Fits n)
    (hfuel : 2 * bs.length + 2 < fuel) :
    (∃ h' bp bs', mallocLoop n fuel h h.freep (ptr h.mem h.freep) = some (h', after bp 1) ∧
      Got h h' base bs bs' bp n) ∨
    ∃ h', mallocLoop n fuel h h.freep (ptr h.mem h.freep) = some (h', 0) ∧ Refused h h' := by
  have hround : bs.length < fuel := by omega
  rcases mallocLoop_round hr.list hr.freep_mem hn hround with
    ⟨m', bp, bs', q, heq, htaken⟩ | ⟨_, k, hk, heq⟩
  · exact Or.inl ⟨_, bp, bs', heq, htaken.got hr hn⟩
  · have hrest : bs.length + 1 < k := by omega
    rcases morecore_spec hr hfits (Nat.lt_of_succ_lt hrest) with
      ⟨os, hos, hmore⟩ | ⟨h₁, bs₁, r, hmore, hgrown, ⟨b, hb, hroom⟩, hlen⟩
    · rw [hmore] at heq
      exact Or.inr ⟨_, heq, os, hos, rfl⟩
    · left
      have hfreep : h₁.freep ≠ 0 := Nat.ne_of_gt (hgrown.ready.list.pos hgrown.ready.freep_mem)
      rw [hmore, Option.bind_some] at heq
      dsimp only at heq
      rw [if_neg hfreep] at heq
      -- the second round meets a block that is large enough
      have hround₁ : bs₁.length < k := by omega
      rcases mallocLoop_round hgrown.ready.list hgrown.ready.freep_mem hn hround₁ with
        ⟨m', bp, bs', q, heq', htaken⟩ | ⟨hsmall, _⟩
      · exact ⟨_, bp, bs', heq.trans heq', hgrown.got (htaken.got hgrown.ready hn) rfl rfl⟩
      · have := hsmall b hb
        omega

/-! ### Fuel -/

section fuel

variable {fuel' : Nat}

theorem free_mono {h' : Heap sb} {ap : Nat} (hfree : free fuel h ap = some h')
    (hle : fuel ≤ fuel') : free fuel' h ap = some h' := by
  obtain ⟨p, hp, rfl⟩ := Option.map_eq_some_iff.mp hfree
  unfold free
  dsimp only
  rw [RingList.search_mono hp hle]
  rfl

theorem morecore_mono {r : Heap sb × Nat} (hmore : morecore fuel h n = some r)
    (hle : fuel ≤ fuel') : morecore fuel' h n = some r := by
  unfold morecore at hmore ⊢
  dsimp only at hmore ⊢
  split at hmore
  · exact hmore
  · obtain ⟨h', hfree, rfl⟩ := Option.map_eq_some_iff.mp hmore
    rw [free_mono hfree hle]
    rfl

theorem mallocLoop_mono : ∀ {fuel fuel' : Nat} {h : Heap sb} {prevp p : Nat} {r : Heap sb × Nat},
    mallocLoop n fuel h prevp p = some r → fuel ≤ fuel' → mallocLoop n fuel' h prevp p = some r
  | 0, _, _, _, _, _, hloop, _ => absurd hloop (by simp [mallocLoop])
  | fuel + 1, 0, _, _, _, _, _, hle => absurd hle (by omega)
  | fuel + 1, fuel' + 1, h, prevp, p, r, hloop, hle => by
    have hle' := Nat.le_of_succ_le_succ hle
    rw [mallocLoop] at hloop ⊢
    by_cases hfit : n ≤ size h.mem p
    · rwa [if_pos hfit] at hloop ⊢
    · rw [if_neg hfit] at hloop ⊢
      by_cases hround : p = h.freep
      · rw [if_pos hround] at hloop ⊢
        obtain ⟨⟨h', q⟩, hmore, hrest⟩ := Option.bind_eq_some_iff.mp hloop
        rw [morecore_mono hmore hle', Option.bind_some]
        dsimp only at hrest ⊢
        by_cases hq : q = 0
        · rwa [if_pos hq] at hrest ⊢
        · rw [if_neg hq] at hrest ⊢
          exact mallocLoop_mono hrest hle'
      · rw [if_neg hround] at hloop ⊢
        exact mallocLoop_mono hloop hle'

theorem malloc_mono {nbytes : Word} {r : Heap sb × Nat}
    (hmalloc : malloc base fuel h nbytes = some r) (hle : fuel ≤ fuel') :
    malloc base fuel' h nbytes = some r :=
  mallocLoop_mono hmalloc hle

end fuel

end Xv6.Umalloc
