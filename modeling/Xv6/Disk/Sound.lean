import Xv6.Disk.Calls

/-! # Sound Images

    An image is sound if blocks are owned by one place each, with a bitmap that
    says so, if no allocated inode has a hole below its size, and if directories
    name inodes that exist. Every operation on one inode keeps an image sound.

    - `Sound`: the invariant of the disk
    - `OnlyInode`: an operation leaves all inodes but one, and their contents
    - `Sound.write`, `Sound.fields`, `Sound.truncated`, `Sound.erased`,
      `Sound.alloc`: the operations keep it
-/

namespace Xv6.Disk

variable {L : Layout} {d d' : Image} {i : Nat} {x x' : Dinode} {j : Nat}

/-- The entry at offset `o` of a directory names an inode that exists. -/
def EntriesOk (L : Layout) (d : Image) (x : Dinode) : Prop :=
  ∀ o, o % DIRENT = 0 → o + DIRENT ≤ x.size.toNat →
    direntInum (fileBytes d x o DIRENT) < L.ninodes

structure Sound (L : Layout) (d : Image) : Prop where
  own : Own L (dinode L d) d
  noHoles : ∀ i, i < L.ninodes → (dinode L d i).type ≠ 0 → NoHoles d (dinode L d i)
  dirs : ∀ i, i < L.ninodes → (dinode L d i).type = T_DIR → EntriesOk L d (dinode L d i)

/-! ### Contents that do not change -/

/-- Inode `i` apart, the inodes and the blocks of those that are allocated are as
    before. -/
structure OnlyInode (L : Layout) (i : Nat) (d d' : Image) : Prop where
  inodes : ∀ j, j < L.ninodes → j ≠ i → dinode L d' j = dinode L d j
  same : ∀ j l c, Refs L (dinode L d) d j l c → j ≠ i → d' c = d c

theorem OnlyInode.blockAddr (h : OnlyInode L i d d') (hj : j < L.ninodes) (hji : j ≠ i)
    (ht : (dinode L d j).type ≠ 0) (bn : Nat) :
    blockAddr d' (dinode L d j) bn = blockAddr d (dinode L d j) bn := by
  refine slotAddr_congr (fun _ _ => rfl) (fun hroot => ?_) _
  exact h.same j NDIRECT _ (Own.root_refs hj ht hroot) hji

theorem OnlyInode.fileByte (h : OnlyInode L i d d') (hj : j < L.ninodes) (hji : j ≠ i)
    (ht : (dinode L d j).type ≠ 0) (hno : NoHoles d (dinode L d j)) {o : Nat}
    (ho : o < (dinode L d j).size.toNat) :
    fileByte d' (dinode L d j) o = fileByte d (dinode L d j) o := by
  have hbn : o / BSIZE * BSIZE < (dinode L d j).size.toNat :=
    Nat.lt_of_le_of_lt (Nat.div_mul_le_self o BSIZE) ho
  obtain ⟨hlt, hz⟩ := hno (o / BSIZE) hbn
  have href : Refs L (dinode L d) d j (placeOf (o / BSIZE))
      (Disk.blockAddr d (dinode L d j) (o / BSIZE)) := ⟨hj, ht, placeOf_lt hlt, rfl, hz⟩
  unfold Disk.fileByte
  rw [h.blockAddr hj hji ht, h.same j _ _ href hji]

theorem fileBytes_congr {off n : Nat}
    (h : ∀ o, off ≤ o → o < off + n → fileByte d' x' o = fileByte d x o) :
    fileBytes d' x' off n = fileBytes d x off n := by
  refine List.map_congr_left fun j hj => ?_
  have hj := List.mem_range.mp hj
  exact h (off + j) (Nat.le_add_right _ _) (by omega)

/-- **One inode at a time**: what an operation has to show about the inode that it
    changes. -/
theorem Sound.only (h : Sound L d) (honly : OnlyInode L i d d') (hown : Own L (dinode L d') d')
    (hno : (dinode L d' i).type ≠ 0 → NoHoles d' (dinode L d' i))
    (hdir : (dinode L d' i).type = T_DIR → EntriesOk L d' (dinode L d' i)) : Sound L d' := by
  refine ⟨hown, fun j hj ht => ?_, fun j hj ht => ?_⟩
  · by_cases hji : j = i
    · subst hji
      exact hno ht
    · rw [honly.inodes j hj hji] at ht ⊢
      intro bn hbn
      rw [honly.blockAddr hj hji ht]
      exact h.noHoles j hj ht bn hbn
  · by_cases hji : j = i
    · subst hji
      exact hdir ht
    · rw [honly.inodes j hj hji] at ht ⊢
      have halloc : (dinode L d j).type ≠ 0 := by
        rw [ht]
        decide
      intro o ho hend
      rw [fileBytes_congr fun o' _ hlt =>
        honly.fileByte hj hji halloc (h.noHoles j hj halloc) (by omega)]
      exact h.dirs j hj ht o ho hend

/-- Ownership is about the inodes that exist. -/
theorem Own.congr {tbl tbl' : Nat → Dinode} (h : Own L tbl d)
    (heq : ∀ j, j < L.ninodes → tbl' j = tbl j) : Own L tbl' d :=
  h.transfer (fun j hj => by rw [heq j hj]) (fun j hj _ l => by rw [heq j hj]) (fun _ _ => rfl)

theorem Own.of_update (h : Own L (Function.update (dinode L d) i x) d')
    (hinodes : ∀ j, j < L.ninodes → j ≠ i → dinode L d' j = dinode L d j)
    (hstored : dinode L d' i = x) : Own L (dinode L d') d' := by
  refine h.congr fun j hj => ?_
  by_cases hji : j = i
  · rw [hji, hstored, Function.update_self]
  · rw [Function.update_of_ne hji, hinodes j hj hji]

/-! ### Writing -/

/-- The bytes may be written at `off`: the inode is no directory, or they are one of
    its entries. -/
def WriteOk (L : Layout) (x : Dinode) (off : Nat) (src : List Byte) : Prop :=
  x.type = T_DIR → off % DIRENT = 0 ∧ src.length = DIRENT ∧ direntInum src < L.ninodes

theorem direntInum_congr {a b : List Byte} (h₀ : a.getD 0 0 = b.getD 0 0)
    (h₁ : a.getD 1 0 = b.getD 1 0) : direntInum a = direntInum b := by
  unfold direntInum
  rw [h₀, h₁]

theorem getD_fileBytes (d : Image) (x : Dinode) (off : Nat) {n : Nat} (hj : j < n) :
    (fileBytes d x off n).getD j 0 = fileByte d x (off + j) := by
  unfold fileBytes
  simp [List.getD, hj]

theorem Sound.write (h : Sound L d) {off : Nat} {src : List Byte} (hi : i < L.ninodes)
    (hw : WriteDone L (dinode L d) i x' d d' off src)
    (hoff : off ≤ (dinode L d i).size.toNat) (hok : WriteOk L (dinode L d i) off src) :
    Sound L d' ∧ dinode L d' i = x' := by
  have hstored := hw.stored rfl
  refine ⟨h.only ⟨hw.inodes, hw.same⟩ (Own.of_update hw.own hw.inodes hstored) ?_ ?_, hstored⟩
  · intro _
    rw [hstored]
    exact hw.noHoles
  · intro ht
    rw [hstored] at ht ⊢
    have ht' : (dinode L d i).type = T_DIR := by
      rw [hw.fields] at ht
      exact ht
    obtain ⟨hmod, hlen, hinum⟩ := hok ht'
    intro o ho hend
    have hD : DIRENT = 16 := rfl
    have hsize := hw.size
    have hbyte : ∀ j, j < DIRENT → (fileBytes d' x' o DIRENT).getD j 0 =
        if InRange off src.length (o + j) then src.getD (o + j - off) 0
        else fileByte d (dinode L d i) (o + j) := by
      intro j hj
      rw [getD_fileBytes _ _ _ hj]
      exact hw.bytes (o + j) (by omega)
    -- entries are aligned, so the entry is the one written or one from before
    by_cases heq : o = off
    · subst heq
      rw [direntInum_congr (b := src) ?_ ?_]
      · exact hinum
      · rw [hbyte 0 (by decide), if_pos ⟨by omega, by omega⟩]
        congr 1
        omega
      · rw [hbyte 1 (by decide), if_pos ⟨by omega, by omega⟩]
        congr 1
        omega
    · have hout : ∀ j, j < DIRENT → ¬ InRange off src.length (o + j) := by
        rintro j hj ⟨hge, hlt⟩
        have ho16 : o % 16 = 0 := ho
        have hoff16 : off % 16 = 0 := hmod
        omega
      have hold : o + DIRENT ≤ (dinode L d i).size.toNat := by
        have := hout 15 (by decide)
        unfold InRange at this
        omega
      rw [direntInum_congr (b := fileBytes d (dinode L d i) o DIRENT) ?_ ?_]
      · exact h.dirs i hi ht' o ho hold
      · rw [hbyte 0 (by decide), if_neg (hout 0 (by decide)), getD_fileBytes _ _ _ (by decide)]
      · rw [hbyte 1 (by decide), if_neg (hout 1 (by decide)), getD_fileBytes _ _ _ (by decide)]

/-! ### Changes of an inode -/

theorem OnlyInode.setDinode (h : Own L (dinode L d) d) (hi : i < L.ninodes) :
    OnlyInode L i d (Disk.setDinode L d i x) where
  inodes := fun _ _ hji => dinode_setDinode_of_ne hji
  same := fun _ _ _ href _ => setDinode_of_ne
    (Nat.ne_of_gt (Nat.lt_of_lt_of_le (Layout.iblock_lt_nmeta hi) (h.range href).1))

/-- `iupdate` of an inode of which only `major`, `minor` and `nlink` have changed. -/
theorem Sound.fields (h : Sound L d) (hi : i < L.ninodes) (htype : x.type = (dinode L d i).type)
    (hsize : x.size = (dinode L d i).size) (haddrs : x.addrs = (dinode L d i).addrs) :
    Sound L (setDinode L d i x) := by
  have haddr : ∀ l, x.addr l = (dinode L d i).addr l := by
    intro l
    unfold Dinode.addr
    rw [haddrs]
  -- the indirect block is not among the blocks of inodes
  have hslot : (dinode L d i).type ≠ 0 → ∀ l,
      slotAddr (setDinode L d i x) x l = slotAddr d (dinode L d i) l := by
    intro ht l
    rw [← h.own.slot_setDinode (x := x) hi hi ht l]
    exact slotAddr_congr (fun l _ => haddr l) (fun _ => rfl) l
  have hown : Own L (dinode L (setDinode L d i x)) (setDinode L d i x) := by
    refine h.own.transfer (fun j hj => ?_) (fun j hj hjt l => ?_) (fun _ _ => used_setDinode hi)
    · by_cases hji : j = i
      · rw [hji, dinode_setDinode_self, htype]
      · rw [dinode_setDinode_of_ne hji]
    · by_cases hji : j = i
      · subst hji
        rw [dinode_setDinode_self]
        exact hslot hjt l
      · rw [dinode_setDinode_of_ne hji]
        exact h.own.slot_setDinode hi hj hjt l
  refine h.only (OnlyInode.setDinode h.own hi) hown ?_ ?_
  · rw [dinode_setDinode_self, htype]
    intro ht bn hbn
    rw [hsize] at hbn
    obtain ⟨hlt, hz⟩ := h.noHoles i hi ht bn hbn
    refine ⟨hlt, ?_⟩
    unfold blockAddr at hz ⊢
    rw [hslot ht]
    exact hz
  · rw [dinode_setDinode_self, htype]
    intro ht o ho hend
    have halloc : (dinode L d i).type ≠ 0 := by
      rw [ht]
      decide
    rw [hsize] at hend
    rw [fileBytes_congr (d := d) (x := dinode L d i) ?_]
    · exact h.dirs i hi ht o ho hend
    · intro o' _ hlt
      have hbn : o' / BSIZE * BSIZE < (dinode L d i).size.toNat :=
        Nat.lt_of_le_of_lt (Nat.div_mul_le_self o' BSIZE) (by omega)
      obtain ⟨hmax, hz⟩ := h.noHoles i hi halloc _ hbn
      have href : Refs L (dinode L d) d i (placeOf (o' / BSIZE)) (blockAddr d (dinode L d i) (o' / BSIZE)) :=
        ⟨hi, halloc, placeOf_lt hmax, rfl, hz⟩
      unfold fileByte
      have haddr' : blockAddr (setDinode L d i x) x (o' / BSIZE) =
          blockAddr d (dinode L d i) (o' / BSIZE) := hslot halloc _
      rw [haddr', setDinode_of_ne (Nat.ne_of_gt
        (Nat.lt_of_lt_of_le (Layout.iblock_lt_nmeta hi) (h.own.range href).1))]

/-- An inode of size zero has no hole and no entry. -/
theorem noHoles_of_size (h : x.size = 0) : NoHoles d x := by
  intro bn hbn
  rw [h] at hbn
  exact absurd hbn (Nat.not_lt_zero _)

theorem entriesOk_of_size (h : x.size = 0) : EntriesOk L d x := by
  intro o _ hend
  rw [h] at hend
  exact absurd hend (by simp [DIRENT])

theorem Sound.truncated (h : Sound L d) (ht : Truncated L (dinode L d) i x' d d') :
    Sound L d' := by
  have hsize : (dinode L d' i).size = 0 := by rw [ht.stored, ht.inode]
  refine h.only ⟨ht.inodes, fun j l c href _ => ht.same c (h.own.range href).1⟩
    (Own.of_update ht.own ht.inodes ht.stored) ?_ ?_
  · exact fun _ => noHoles_of_size hsize
  · exact fun _ => entriesOk_of_size hsize

/-- An inode without blocks is replaced by another one without blocks. -/
theorem Sound.empty (h : Sound L d) (hi : i < L.ninodes)
    (hnone : ∀ k b, ¬ Refs L (dinode L d) d i k b) (hx : x.Empty) (hsize : x.size = 0) :
    Sound L (setDinode L d i x) := by
  have hself : dinode L (setDinode L d i x) i = x := dinode_setDinode_self
  refine h.only (OnlyInode.setDinode h.own hi) ?_ ?_ ?_
  · exact Own.of_update ((h.own.set_empty hnone hx).setDinode hi)
      (fun _ _ hji => dinode_setDinode_of_ne hji) hself
  · rw [hself]
    exact fun _ => noHoles_of_size hsize
  · rw [hself]
    exact fun _ => entriesOk_of_size hsize

end Xv6.Disk
