import Xv6.Disk.Kernel

/-! # Block Ownership

    Every data block is referenced from one place at most, and the bitmap marks
    the metadata and the referenced blocks, no more and no less.

    The inodes are a table `tbl`. Between two transactions it is the table on
    the disk; while an inode is locked its entry is the in-memory copy, which
    `bmap` changes before `iupdate` stores it.

    - `Own`: the invariant
    - `Assigned`: one allocation of a block for one place
    - `Mapped`: what a call of `bmap` does
-/

namespace Xv6.Disk

open Function

variable {C : Config} {L : Layout} {tbl : Nat → Dinode} {d d' : Image} {i k b : Nat}
  {x x' : Dinode} {s s' : Kern} {blk : Block}

theorem bind_ok {ε α β : Type} {e : Except ε α} {f : α → Except ε β} {r : β} :
    (e >>= f) = .ok r ↔ ∃ a, e = .ok a ∧ f a = .ok r := by
  cases e with
  | error e => simp [bind, Except.bind]
  | ok a => simp [bind, Except.bind]

/-! ### The invariant -/

/-- Place `k` of inode `i` has the address `b`. -/
structure Refs (L : Layout) (tbl : Nat → Dinode) (d : Image) (i k b : Nat) : Prop where
  inode_lt : i < L.ninodes
  alloc : (tbl i).type ≠ 0
  place_lt : k < PLACES
  addr : slotAddr d (tbl i) k = b
  ne_zero : b ≠ 0

/-- Blocks have one owner, and the bitmap knows which are owned. -/
structure Own (L : Layout) (tbl : Nat → Dinode) (d : Image) : Prop where
  range : ∀ {i k b}, Refs L tbl d i k b → L.nmeta ≤ b ∧ b < L.size
  inj : ∀ {i k j l b}, Refs L tbl d i k b → Refs L tbl d j l b → i = j ∧ k = l
  bitmap : ∀ b, b < L.size → (used L d b = true ↔ b < L.nmeta ∨ ∃ i k, Refs L tbl d i k b)

/-- The indirect block of an inode is one of its places. -/
theorem slotAddr_root : slotAddr d x NDIRECT = (x.addr NDIRECT).toNat := if_pos (Nat.le_refl _)

theorem slotAddr_direct (hk : k ≤ NDIRECT) : slotAddr d x k = (x.addr k).toNat := if_pos hk

theorem slotAddr_entry (hk : NDIRECT < k) (hroot : x.addr NDIRECT ≠ 0) :
    slotAddr d x k = (entry (d (x.addr NDIRECT).toNat) (k - (NDIRECT + 1))).toNat := by
  unfold slotAddr
  rw [if_neg (Nat.not_le.mpr hk), if_neg hroot]

theorem slotAddr_no_root (hk : NDIRECT < k) (hroot : x.addr NDIRECT = 0) : slotAddr d x k = 0 := by
  unfold slotAddr
  rw [if_neg (Nat.not_le.mpr hk), if_pos hroot]

theorem toNat_ne_zero {w : Word} (h : w ≠ 0) : w.toNat ≠ 0 := fun hz =>
  h (BitVec.eq_of_toNat_eq (by simpa using hz))

/-- The addresses of an inode depend on its slots and on its indirect block. -/
theorem slotAddr_congr (haddr : ∀ l ≤ NDIRECT, x'.addr l = x.addr l)
    (hroot : x.addr NDIRECT ≠ 0 → d' (x.addr NDIRECT).toNat = d (x.addr NDIRECT).toNat) (k : Nat) :
    slotAddr d' x' k = slotAddr d x k := by
  have h12 := haddr NDIRECT (Nat.le_refl _)
  by_cases hk : k ≤ NDIRECT
  · rw [slotAddr_direct hk, slotAddr_direct hk, haddr k hk]
  · have hk' := Nat.lt_of_not_le hk
    by_cases hz : x.addr NDIRECT = 0
    · rw [slotAddr_no_root hk' hz, slotAddr_no_root hk' (h12.trans hz)]
    · rw [slotAddr_entry hk' hz, slotAddr_entry hk' (h12 ▸ hz), h12, hroot hz]

namespace Own

theorem root_refs (hi : i < L.ninodes) (ht : (tbl i).type ≠ 0)
    (hroot : (tbl i).addr NDIRECT ≠ 0) :
    Refs L tbl d i NDIRECT ((tbl i).addr NDIRECT).toNat :=
  ⟨hi, ht, by decide, slotAddr_root, toNat_ne_zero hroot⟩

/-- A block that is not in use is a data block, and no place has its address. -/
theorem not_used (h : Own L tbl d) (hb : b < L.size) (hfree : used L d b = false) :
    L.nmeta ≤ b ∧ ∀ i k, ¬ Refs L tbl d i k b := by
  have hnot : ¬ (b < L.nmeta ∨ ∃ i k, Refs L tbl d i k b) := by
    rw [← h.bitmap b hb, hfree]
    exact Bool.false_ne_true
  constructor
  · by_contra hlt
    exact hnot (Or.inl (Nat.lt_of_not_le hlt))
  · intro i k href
    exact hnot (Or.inr ⟨i, k, href⟩)

theorem used_of_refs (h : Own L tbl d) (href : Refs L tbl d i k b) : used L d b = true :=
  (h.bitmap b (h.range href).2).mpr (Or.inr ⟨i, k, href⟩)

end Own

/-! ### Allocating a block -/

theorem log_write_ok (h : log_write C s b blk = .ok s') : s'.disk = update s.disk b blk := by
  unfold log_write at h
  split at h
  · cases h
  · cases h
    rfl

/-- What `balloc` leaves on the disk: the bit of the block is set and the block is
    zeroed. -/
theorem balloc_ok (h : balloc C s = .ok (b, s')) :
    b < C.layout.size ∧ used C.layout s.disk b = false ∧
      s'.disk = update (markUsed C.layout s.disk b) b (fun _ => 0) := by
  unfold balloc at h
  cases hfree : firstFree C s.disk with
  | none =>
    rw [hfree] at h
    cases h
  | some c =>
    rw [hfree] at h
    obtain ⟨s₁, h₁, h⟩ := bind_ok.mp h
    obtain ⟨s₂, h₂, h⟩ := bind_ok.mp h
    cases h
    have hmem := List.mem_of_find?_eq_some hfree
    have hbit := List.find?_some hfree
    refine ⟨List.mem_range.mp hmem, by simpa using hbit, ?_⟩
    rw [log_write_ok h₂, log_write_ok h₁]
    rfl

/-- The block `b`, which was free, has been given to the place `k` of inode `i`; all
    else is as it was. -/
structure Assigned (L : Layout) (x x' : Dinode) (d d' : Image) (k b : Nat) : Prop where
  fields : x' = { x with addrs := x'.addrs }
  lt : b < L.size
  free : used L d b = false
  slot : ∀ l, l < PLACES → slotAddr d' x' l = if l = k then b else slotAddr d x l
  zero : d' b = fun _ => 0
  same : ∀ c, L.nmeta ≤ c → c ≠ b → c ≠ (x'.addr NDIRECT).toNat → d' c = d c
  used_eq : ∀ c, c < L.size → used L d' c = (decide (c = b) || used L d c)
  inodes : ∀ j, j < L.ninodes → dinode L d' j = dinode L d j

/-- The inode block and the bitmap blocks are metadata. -/
theorem dinode_alloc (hb : L.nmeta ≤ b) (hi : i < L.ninodes) :
    dinode L (update (markUsed L d b) b blk) i = dinode L d i := by
  have h₁ : b ≠ L.iblock i := Nat.ne_of_gt (Nat.lt_of_lt_of_le (Layout.iblock_lt_nmeta hi) hb)
  have h₂ : L.bblock b ≠ L.iblock i := Ne.symm (Layout.iblock_ne_bblock hi)
  rw [dinode_update_of_ne h₁]
  exact dinode_update_of_ne h₂

theorem used_alloc (hb : L.nmeta ≤ b) {c : Nat} (hc : c < L.size) :
    used L (update (markUsed L d b) b blk) c = (decide (c = b) || used L d c) := by
  have h : b ≠ L.bblock c := Nat.ne_of_gt (Nat.lt_of_lt_of_le (Layout.bblock_lt hc) hb)
  rw [used_update_of_ne h, used_markUsed]

theorem alloc_same (hb : b < L.size) {c : Nat} (hc : L.nmeta ≤ c) (hne : c ≠ b) :
    update (markUsed L d b) b blk c = d c := by
  have h : c ≠ L.bblock b := Nat.ne_of_gt (Nat.lt_of_lt_of_le (Layout.bblock_lt hb) hc)
  rw [update_of_ne hne]
  exact update_of_ne h _ _

theorem Layout.toNat_block (L : Layout) (hb : b < L.size) : (BitVec.ofNat 32 b).toNat = b := by
  have := L.size_lt
  rw [BitVec.toNat_ofNat]
  exact Nat.mod_eq_of_lt (by omega)

namespace Own

variable (h : Own L tbl d) (hi : i < L.ninodes) (ht : (tbl i).type ≠ 0) (hb : b < L.size)
  (hfree : used L d b = false)

include h hi ht hb hfree in
/-- A block for a slot of the inode itself. -/
theorem assign_slot (hk : k ≤ NDIRECT) (hzero : (tbl i).addr k = 0) :
    Assigned L (tbl i) ((tbl i).setAddr k (BitVec.ofNat 32 b)) d
      (update (markUsed L d b) b (fun _ => 0)) k b := by
  obtain ⟨hmeta, hnone⟩ := h.not_used hb hfree
  have hword := L.toNat_block hb
  have hbpos : b ≠ 0 := Nat.ne_of_gt (Nat.lt_of_lt_of_le Layout.nmeta_pos hmeta)
  have hself : ((tbl i).setAddr k (BitVec.ofNat 32 b)).addr k = BitVec.ofNat 32 b :=
    addr_setAddr_self hk
  refine
    { fields := rfl
      lt := hb
      free := hfree
      slot := fun l _ => ?_
      zero := update_self _ _ _
      same := fun c hc hne _ => alloc_same hb hc hne
      used_eq := fun c hc => used_alloc hmeta hc
      inodes := fun j hj => dinode_alloc hmeta hj }
  by_cases hlk : l = k
  · rw [if_pos hlk, hlk, slotAddr_direct hk, hself, hword]
  · rw [if_neg hlk]
    by_cases hl : l ≤ NDIRECT
    · rw [slotAddr_direct hl, slotAddr_direct hl, addr_setAddr_of_ne hlk]
    · have hl' := Nat.lt_of_not_le hl
      by_cases hkroot : k = NDIRECT
      · -- a new indirect block has no entries
        subst hkroot
        rw [slotAddr_no_root hl' hzero, slotAddr_entry hl', hself, hword, update_self,
          entry_zero]
        · rfl
        · rw [hself]
          intro hz
          exact hbpos (by simpa [hword] using congrArg BitVec.toNat hz)
      · have hroot : ((tbl i).setAddr k (BitVec.ofNat 32 b)).addr NDIRECT = (tbl i).addr NDIRECT :=
          addr_setAddr_of_ne (Ne.symm hkroot)
        by_cases hz : (tbl i).addr NDIRECT = 0
        · rw [slotAddr_no_root hl' hz, slotAddr_no_root hl' (hroot.trans hz)]
        · have href := root_refs hi ht hz (d := d)
          have hne : ((tbl i).addr NDIRECT).toNat ≠ b := by
            intro heq
            exact hnone i NDIRECT (heq ▸ href)
          rw [slotAddr_entry hl' hz, slotAddr_entry hl' (hroot ▸ hz), hroot,
            alloc_same hb (h.range href).1 hne]

include h hi ht hb hfree in
/-- A block for an entry of the indirect block. -/
theorem assign_entry {j : Nat} (hj : j < NINDIRECT) (hroot : (tbl i).addr NDIRECT ≠ 0) :
    Assigned L (tbl i) (tbl i) d
      (update (update (markUsed L d b) b (fun _ => 0))
        ((tbl i).addr NDIRECT).toNat
        (setEntry (d ((tbl i).addr NDIRECT).toNat) j (BitVec.ofNat 32 b)))
      (NDIRECT + 1 + j) b := by
  obtain ⟨hmeta, hnone⟩ := h.not_used hb hfree
  have hword := L.toNat_block hb
  have href := root_refs hi ht hroot (d := d)
  have hrange := h.range href
  obtain ⟨r, hr⟩ : ∃ r, ((tbl i).addr NDIRECT).toNat = r := ⟨_, rfl⟩
  rw [hr] at href hrange ⊢
  have hrb : r ≠ b := by
    rintro rfl
    exact hnone i NDIRECT href
  refine
    { fields := rfl
      lt := hb
      free := hfree
      slot := fun l _ => ?_
      zero := ?_
      same := fun c hc hne hcr => ?_
      used_eq := fun c hc => ?_
      inodes := fun j hj => ?_ }
  · by_cases hl : l ≤ NDIRECT
    · rw [slotAddr_direct hl, slotAddr_direct hl, if_neg (by omega)]
    · have hl' := Nat.lt_of_not_le hl
      rw [slotAddr_entry hl' hroot, slotAddr_entry hl' hroot, hr, update_self]
      by_cases hlj : l = NDIRECT + 1 + j
      · rw [if_pos hlj, hlj, Nat.add_sub_cancel_left, entry_setEntry_self hj, hword]
      · rw [if_neg hlj, entry_setEntry_of_ne (by omega)]
  · rw [update_of_ne (Ne.symm hrb), update_self]
  · rw [hr] at hcr
    rw [update_of_ne hcr]
    exact alloc_same hb hc hne
  · have hne : r ≠ L.bblock c :=
      Nat.ne_of_gt (Nat.lt_of_lt_of_le (Layout.bblock_lt hc) hrange.1)
    rw [used_update_of_ne hne]
    exact used_alloc hmeta hc
  · have hne : r ≠ L.iblock j :=
      Nat.ne_of_gt (Nat.lt_of_lt_of_le (Layout.iblock_lt_nmeta hj) hrange.1)
    rw [dinode_update_of_ne hne]
    exact dinode_alloc hmeta hj

include h hi ht in
/-- The other inodes keep their addresses. -/
theorem slot_other (ha : Assigned L (tbl i) x' d d' k b) {j : Nat} (hj : j < L.ninodes)
    (hjt : (tbl j).type ≠ 0) (hji : j ≠ i) (l : Nat) :
    slotAddr d' (tbl j) l = slotAddr d (tbl j) l := by
  obtain ⟨_, hnone⟩ := h.not_used ha.lt ha.free
  refine slotAddr_congr (fun _ _ => rfl) (fun hroot => ?_) l
  have href := root_refs hj hjt hroot (d := d)
  refine ha.same _ (h.range href).1 ?_ ?_
  · intro heq
    exact hnone j NDIRECT (heq ▸ href)
  · -- the indirect block of `i` is its own, whether it is new or not
    intro heq
    have hslot := ha.slot NDIRECT (by decide)
    rw [slotAddr_root, ← heq] at hslot
    by_cases hkroot : NDIRECT = k
    · rw [if_pos hkroot] at hslot
      exact hnone j NDIRECT (hslot ▸ href)
    · rw [if_neg hkroot] at hslot
      have hown : Refs L tbl d i NDIRECT ((tbl j).addr NDIRECT).toNat :=
        ⟨hi, ht, by decide, hslot.symm, href.ne_zero⟩
      exact hji (h.inj href hown).1

include h hi ht in
/-- **Ownership is kept** when a free block is given to an empty place. -/
theorem assign (ha : Assigned L (tbl i) x' d d' k b) (hk : k < PLACES)
    (hzero : slotAddr d (tbl i) k = 0) : Own L (update tbl i x') d' := by
  obtain ⟨hmeta, hnone⟩ := h.not_used ha.lt ha.free
  have hbpos : b ≠ 0 := Nat.ne_of_gt (Nat.lt_of_lt_of_le Layout.nmeta_pos hmeta)
  have htype : x'.type = (tbl i).type := by rw [ha.fields]
  -- the references are those from before and the new one
  have hrefs : ∀ j l c, Refs L (update tbl i x') d' j l c ↔
      (j = i ∧ l = k ∧ c = b) ∨ Refs L tbl d j l c := by
    intro j l c
    by_cases hji : j = i
    · subst hji
      constructor
      · rintro ⟨hj, hjt, hl, haddr, hc⟩
        rw [update_self] at hjt haddr
        rw [ha.slot l hl] at haddr
        by_cases hlk : l = k
        · rw [if_pos hlk] at haddr
          exact Or.inl ⟨rfl, hlk, haddr.symm⟩
        · rw [if_neg hlk] at haddr
          exact Or.inr ⟨hj, ht, hl, haddr, hc⟩
      · rintro (⟨_, rfl, rfl⟩ | ⟨hj, hjt, hl, haddr, hc⟩)
        · refine ⟨hi, ?_, hk, ?_, hbpos⟩
          · rw [update_self, htype]
            exact ht
          · rw [update_self, ha.slot l hk, if_pos rfl]
        · refine ⟨hj, ?_, hl, ?_, hc⟩
          · rw [update_self, htype]
            exact hjt
          · rw [update_self, ha.slot l hl, if_neg, haddr]
            rintro rfl
            exact hc (haddr.symm.trans hzero)
    · constructor
      · rintro ⟨hj, hjt, hl, haddr, hc⟩
        rw [update_of_ne hji] at hjt haddr
        rw [h.slot_other hi ht ha hj hjt hji] at haddr
        exact Or.inr ⟨hj, hjt, hl, haddr, hc⟩
      · rintro (⟨heq, _⟩ | ⟨hj, hjt, hl, haddr, hc⟩)
        · exact absurd heq hji
        · refine ⟨hj, ?_, hl, ?_, hc⟩
          · rw [update_of_ne hji]
            exact hjt
          · rw [update_of_ne hji, h.slot_other hi ht ha hj hjt hji, haddr]
  refine ⟨fun {j l c} href => ?_, fun {j l j' l' c} h₁ h₂ => ?_, fun c hc => ?_⟩
  · rcases (hrefs j l c).mp href with ⟨_, _, rfl⟩ | href
    · exact ⟨hmeta, ha.lt⟩
    · exact h.range href
  · rcases (hrefs j l c).mp h₁ with ⟨rfl, rfl, rfl⟩ | h₁
    · rcases (hrefs j' l' c).mp h₂ with ⟨rfl, rfl, _⟩ | h₂
      · exact ⟨rfl, rfl⟩
      · exact absurd h₂ (hnone _ _)
    · rcases (hrefs j' l' c).mp h₂ with ⟨_, _, rfl⟩ | h₂
      · exact absurd h₁ (hnone _ _)
      · exact h.inj h₁ h₂
  · rw [ha.used_eq c hc, Bool.or_eq_true, decide_eq_true_iff, h.bitmap c hc]
    constructor
    · rintro (rfl | hlt | ⟨j, l, href⟩)
      · exact Or.inr ⟨i, k, (hrefs i k c).mpr (Or.inl ⟨rfl, rfl, rfl⟩)⟩
      · exact Or.inl hlt
      · exact Or.inr ⟨j, l, (hrefs j l c).mpr (Or.inr href)⟩
    · rintro (hlt | ⟨j, l, href⟩)
      · exact Or.inr (Or.inl hlt)
      · rcases (hrefs j l c).mp href with ⟨_, _, rfl⟩ | href
        · exact Or.inl rfl
        · exact Or.inr (Or.inr ⟨j, l, href⟩)

end Own

/-! ### `bmap` -/

theorem placeOf_lt {bn : Nat} (h : bn < MAXFILE) : placeOf bn < PLACES := by
  have h₁ : MAXFILE = 140 := rfl
  have h₂ : PLACES = 141 := rfl
  have h₃ : NDIRECT = 12 := rfl
  unfold placeOf
  split <;> omega

theorem placeOf_inj {bn bn' : Nat} (h : placeOf bn = placeOf bn') : bn = bn' := by
  unfold placeOf at h
  split at h <;> split at h <;> omega

/-- No block of the file is in the place of the indirect block. -/
theorem placeOf_ne_root (bn : Nat) : placeOf bn ≠ NDIRECT := by
  unfold placeOf
  split <;> omega

/-- What a call of `bmap` for block `bn` of inode `i` does: it returns the address
    `a`, which the inode now has for the block; a block that had no address gets a
    free one, zeroed. Nothing else changes but the bitmap and the inode's indirect
    block. -/
structure Mapped (L : Layout) (tbl : Nat → Dinode) (i : Nat) (x' : Dinode) (d d' : Image)
    (bn a : Nat) : Prop where
  own : Own L (Function.update tbl i x') d'
  fields : x' = { tbl i with addrs := x'.addrs }
  addr : blockAddr d' x' bn = a
  range : L.nmeta ≤ a ∧ a < L.size
  other : ∀ m, m < MAXFILE → m ≠ bn → blockAddr d' x' m = blockAddr d (tbl i) m
  old : blockAddr d (tbl i) bn ≠ 0 → x' = tbl i ∧ d' = d
  fresh : blockAddr d (tbl i) bn = 0 → d' a = fun _ => 0
  same : ∀ c, L.nmeta ≤ c → c < L.size → used L d c = true → c ≠ (x'.addr NDIRECT).toNat →
    d' c = d c
  used_mono : ∀ c, c < L.size → used L d c = true → used L d' c = true
  inodes : ∀ j, j < L.ninodes → dinode L d' j = dinode L d j
  slots : ∀ j, j < L.ninodes → (tbl j).type ≠ 0 → j ≠ i → ∀ l,
    slotAddr d' (tbl j) l = slotAddr d (tbl j) l

section bmap

variable {bn a : Nat} (h : Own L tbl d) (hi : i < L.ninodes) (ht : (tbl i).type ≠ 0)

include h hi ht in
/-- The block has an address already. -/
theorem Mapped.of_old (hbn : bn < MAXFILE) (haddr : blockAddr d (tbl i) bn = a) (ha : a ≠ 0) :
    Mapped L tbl i (tbl i) d d bn a where
  own := by rwa [update_eq_self]
  fields := rfl
  addr := haddr
  range := h.range ⟨hi, ht, placeOf_lt hbn, haddr, ha⟩
  other := fun _ _ _ => rfl
  old := fun _ => ⟨rfl, rfl⟩
  fresh := fun hz => absurd (haddr.symm.trans hz) ha
  same := fun _ _ _ _ _ => rfl
  used_mono := fun _ _ hu => hu
  inodes := fun _ _ => rfl
  slots := fun _ _ _ _ _ => rfl

include h hi ht in
/-- The block gets an address. -/
theorem Mapped.of_assigned (hbn : bn < MAXFILE) (hzero : blockAddr d (tbl i) bn = 0)
    (ha : Assigned L (tbl i) x' d d' (placeOf bn) b) : Mapped L tbl i x' d d' bn b where
  own := h.assign hi ht ha (placeOf_lt hbn) hzero
  fields := ha.fields
  addr := by
    unfold blockAddr
    rw [ha.slot _ (placeOf_lt hbn), if_pos rfl]
  range := ⟨(h.not_used ha.lt ha.free).1, ha.lt⟩
  other := fun m hm hne => by
    unfold blockAddr
    rw [ha.slot _ (placeOf_lt hm), if_neg fun heq => hne (placeOf_inj heq)]
  old := fun hne => absurd hzero hne
  fresh := fun _ => ha.zero
  same := fun c hc _ hu hroot => by
    refine ha.same c hc ?_ hroot
    rintro rfl
    rw [ha.free] at hu
    cases hu
  used_mono := fun c hc hu => by
    rw [ha.used_eq c hc, hu, Bool.or_true]
  inodes := ha.inodes
  slots := fun j hj hjt hji l => h.slot_other hi ht ha hj hjt hji l

/-- A second allocation, after the indirect block itself. -/
theorem Mapped.after_root {x₁ : Dinode} {d₁ : Image} {b₁ : Nat}
    (h : Own L tbl d) (hi : i < L.ninodes) (ht : (tbl i).type ≠ 0)
    (hroot : Assigned L (tbl i) x₁ d d₁ NDIRECT b₁) (hbn : bn < MAXFILE)
    (hzero : (tbl i).addr NDIRECT = 0) (hdirect : NDIRECT ≤ bn)
    (hm : Mapped L (update tbl i x₁) i x' d₁ d' bn a) : Mapped L tbl i x' d d' bn a := by
  have hself : update tbl i x₁ i = x₁ := update_self _ _ _
  have hplace : placeOf bn = bn + 1 := if_neg (Nat.not_lt.mpr hdirect)
  have hhole : blockAddr d (tbl i) bn = 0 := by
    unfold blockAddr
    rw [hplace, slotAddr_no_root (Nat.lt_succ_of_le hdirect) hzero]
  have hhole₁ : blockAddr d₁ x₁ bn = 0 := by
    unfold blockAddr at hhole ⊢
    rw [hroot.slot _ (placeOf_lt hbn), if_neg (placeOf_ne_root bn), hhole]
  have hrootaddr : (x₁.addr NDIRECT).toNat = b₁ := by
    have := hroot.slot NDIRECT (by decide)
    rwa [slotAddr_root, if_pos rfl] at this
  refine
    { own := by simpa using hm.own
      fields := ?_
      addr := hm.addr
      range := hm.range
      other := fun m hmx hne => ?_
      old := fun hne => absurd hhole hne
      fresh := fun _ => hm.fresh (by rw [hself]; exact hhole₁)
      same := fun c hc hlt hu hne => ?_
      used_mono := fun c hc hu => ?_
      inodes := fun j hj => (hm.inodes j hj).trans (hroot.inodes j hj)
      slots := fun j hj hjt hji l => ?_ }
  · have h₁ := hm.fields
    rw [hself, hroot.fields] at h₁
    exact h₁
  · rw [hm.other m hmx hne, hself]
    unfold blockAddr
    rw [hroot.slot _ (placeOf_lt hmx), if_neg (placeOf_ne_root m)]
  · have hcb : c ≠ b₁ := by
      rintro rfl
      rw [hroot.free] at hu
      cases hu
    have hu₁ : used L d₁ c = true := by rw [hroot.used_eq c hlt, hu, Bool.or_true]
    rw [hm.same c hc hlt hu₁ hne]
    exact hroot.same c hc hcb (by rw [hrootaddr]; exact hcb)
  · refine hm.used_mono c hc ?_
    rw [hroot.used_eq c hc, hu, Bool.or_true]
  · have hne : update tbl i x₁ j = tbl j := update_of_ne hji _ _
    have h₂ := hm.slots j hj (by rwa [hne]) hji l
    rw [hne] at h₂
    rw [h₂, h.slot_other hi ht hroot hj hjt hji l]

include h hi ht in
/-- The entry of an indirect block that is there. -/
theorem Mapped.of_entry {s₁ : Kern} (hd : s.disk = d) (hL : C.layout = L) (hdirect : NDIRECT ≤ bn)
    (hbn : bn < MAXFILE) (hroot : (tbl i).addr NDIRECT ≠ 0)
    (hentry : bmapEntry C s ((tbl i).addr NDIRECT).toNat (bn - NDIRECT) = .ok (a, s₁)) :
    Mapped L tbl i (tbl i) d s₁.disk bn a := by
  have hplace : placeOf bn = bn + 1 := if_neg (Nat.not_lt.mpr hdirect)
  have hsub : bn + 1 - (NDIRECT + 1) = bn - NDIRECT := Nat.add_sub_add_right _ _ _
  have haddr : blockAddr d (tbl i) bn =
      (entry (d ((tbl i).addr NDIRECT).toNat) (bn - NDIRECT)).toNat := by
    unfold blockAddr
    rw [hplace, slotAddr_entry (Nat.lt_succ_of_le hdirect) hroot, hsub]
  unfold bmapEntry at hentry
  rw [hd] at hentry
  split at hentry
  · rename_i hz
    obtain ⟨⟨b, s₂⟩, hballoc, hentry⟩ := bind_ok.mp hentry
    obtain ⟨s₃, hlog, hentry⟩ := bind_ok.mp hentry
    cases hentry
    obtain ⟨hb, hfree, hdisk⟩ := balloc_ok hballoc
    rw [hL, hd] at hfree hdisk
    rw [hL] at hb
    have hj : bn - NDIRECT < NINDIRECT := by
      have h₁ : MAXFILE = NDIRECT + NINDIRECT := rfl
      omega
    have hassigned := h.assign_entry hi ht hb hfree hj hroot
    have hk : NDIRECT + 1 + (bn - NDIRECT) = placeOf bn := by omega
    rw [hk, ← hdisk, ← log_write_ok hlog] at hassigned
    refine Mapped.of_assigned h hi ht hbn ?_ hassigned
    rw [haddr, hz]
    rfl
  · rename_i hz
    cases hentry
    rw [hd]
    exact Mapped.of_old h hi ht hbn haddr (toNat_ne_zero hz)

include h hi ht in
/-- **`bmap`** -/
theorem bmap_ok (hd : s.disk = d) (hL : C.layout = L) (hbn : bn < MAXFILE)
    (hmap : bmap C s (tbl i) bn = .ok (a, x', s')) : Mapped L tbl i x' d s'.disk bn a := by
  unfold bmap at hmap
  split at hmap
  · rename_i hdirect
    have hplace : placeOf bn = bn := if_pos hdirect
    have hle : bn ≤ NDIRECT := Nat.le_of_lt hdirect
    have haddr : blockAddr d (tbl i) bn = ((tbl i).addr bn).toNat := by
      unfold blockAddr
      rw [hplace, slotAddr_direct hle]
    split at hmap
    · rename_i hz
      obtain ⟨⟨b, s₁⟩, hballoc, hmap⟩ := bind_ok.mp hmap
      cases hmap
      obtain ⟨hb, hfree, hdisk⟩ := balloc_ok hballoc
      rw [hL, hd] at hfree hdisk
      rw [hL] at hb
      have hassigned := h.assign_slot hi ht hb hfree hle hz
      rw [← hdisk] at hassigned
      refine Mapped.of_assigned h hi ht hbn ?_ (by rwa [hplace])
      rw [haddr, hz]
      rfl
    · rename_i hz
      cases hmap
      rw [hd]
      exact Mapped.of_old h hi ht hbn haddr (toNat_ne_zero hz)
  · rename_i hdirect
    have hge : NDIRECT ≤ bn := Nat.le_of_not_lt hdirect
    split at hmap
    · obtain ⟨⟨x₁, s₁⟩, hroot, hmap⟩ := bind_ok.mp hmap
      obtain ⟨⟨a', s₂⟩, hentry, hmap⟩ := bind_ok.mp hmap
      cases hmap
      unfold bmapRoot at hroot
      split at hroot
      · -- the indirect block is new
        rename_i hz
        obtain ⟨⟨b, s₃⟩, hballoc, hroot⟩ := bind_ok.mp hroot
        cases hroot
        obtain ⟨hb, hfree, hdisk⟩ := balloc_ok hballoc
        rw [hL, hd] at hfree hdisk
        rw [hL] at hb
        have hassigned := h.assign_slot hi ht hb hfree (Nat.le_refl NDIRECT) hz
        rw [← hdisk] at hassigned
        have hown := h.assign hi ht hassigned (by decide) (by rw [slotAddr_root, hz]; rfl)
        obtain ⟨x₁, hx₁⟩ : ∃ x₁, (tbl i).setAddr NDIRECT (BitVec.ofNat 32 b) = x₁ := ⟨_, rfl⟩
        rw [hx₁] at hassigned hown hentry ⊢
        have hself : update tbl i x₁ i = x₁ := update_self _ _ _
        have htype : (update tbl i x₁ i).type ≠ 0 := by
          rw [hself, hassigned.fields]
          exact ht
        have hne : (update tbl i x₁ i).addr NDIRECT ≠ 0 := by
          rw [hself]
          intro hzero
          have hslot := hassigned.slot NDIRECT (by decide)
          rw [slotAddr_root, if_pos rfl, hzero] at hslot
          have := (h.not_used hb hfree).1
          have := Layout.nmeta_pos (L := L)
          have hz' : (0 : Word).toNat = 0 := rfl
          omega
        have hm := Mapped.of_entry hown hi htype rfl hL hge hbn hne
          (by rw [hself]; exact hentry)
        rw [hself] at hm
        exact Mapped.after_root h hi ht hassigned hbn hz hge hm
      · rename_i hz
        cases hroot
        exact Mapped.of_entry h hi ht hd hL hge hbn hz hentry
    · cases hmap

end bmap

end Xv6.Disk
