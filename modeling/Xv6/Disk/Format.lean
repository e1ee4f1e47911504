import Xv6.Params
import Mathlib.Data.Fintype.Basic

/-! # The On-Disk Format (`fs.h`)

    Where the parts of a disk lie, and what the bytes of its blocks mean.

    - `Layout`: the super block, with the places of the inode blocks, the
      bitmap and the data blocks
    - `Dinode`: `struct dinode`, 64 bytes of an inode block
    - `entry`: one address of an indirect block
    - `used`: one bit of the bitmap
    - `slotAddr`: the address in one place of an inode, the places being its
      direct slots, its indirect slot and the entries of its indirect block

    Each has a lemma for reading back what was written and one for everything
    that was not.
-/

namespace Xv6.Disk

open Bytes Function

/-- The blocks of the device, as seen through the buffer cache. -/
abbrev Image : Type := Nat → Block

/-! ### Layout -/

/-- `struct superblock`, as far as the kernel uses it, and the first data block.
    The inode blocks come before the bitmap, the bitmap before the data. -/
structure Layout where
  size : Nat
  ninodes : Nat
  inodestart : Nat
  bmapstart : Nat
  nmeta : Nat
  inodes_lt : inodestart + ninodes / IPB < bmapstart
  bitmap_lt : bmapstart + size / BPB < nmeta
  nmeta_le : nmeta ≤ size
  size_lt : size < 2147483648

/-- `IBLOCK(i, sb)` -/
def Layout.iblock (L : Layout) (i : Nat) : Nat := i / IPB + L.inodestart

/-- `BBLOCK(b, sb)` -/
def Layout.bblock (L : Layout) (b : Nat) : Nat := b / BPB + L.bmapstart

namespace Layout

variable {L : Layout} {i b : Nat}

theorem iblock_lt (hi : i < L.ninodes) : L.iblock i < L.bmapstart := by
  have h₁ := Nat.div_le_div_right (c := IPB) (Nat.le_of_lt hi)
  have h₂ := L.inodes_lt
  unfold iblock
  omega

theorem iblock_lt_nmeta (hi : i < L.ninodes) : L.iblock i < L.nmeta := by
  have h₁ := iblock_lt hi
  have h₂ : L.bmapstart < L.nmeta := Nat.lt_of_le_of_lt (Nat.le_add_right _ _) L.bitmap_lt
  omega

theorem bblock_lt (hb : b < L.size) : L.bblock b < L.nmeta := by
  have h₁ := Nat.div_le_div_right (c := BPB) (Nat.le_of_lt hb)
  have h₂ := L.bitmap_lt
  unfold bblock
  omega

theorem nmeta_pos : 0 < L.nmeta := Nat.zero_lt_of_lt L.bitmap_lt

theorem le_bblock : L.bmapstart ≤ L.bblock b := Nat.le_add_left _ _

/-- An inode block is not a bitmap block. -/
theorem iblock_ne_bblock (hi : i < L.ninodes) : L.iblock i ≠ L.bblock b := by
  have h₁ := iblock_lt hi
  have h₂ : L.bmapstart ≤ L.bblock b := le_bblock
  omega

end Layout

/-! ### Inodes -/

/-- Where `struct dinode` has its fields. -/
def DINODE : Nat := 64

/-- `struct dinode` -/
@[ext]
structure Dinode where
  type : BitVec 16
  major : BitVec 16
  minor : BitVec 16
  nlink : BitVec 16
  size : Word
  addrs : Fin (NDIRECT + 1) → Word
  deriving DecidableEq

def T_DIR : BitVec 16 := 1

def T_FILE : BitVec 16 := 2

def T_DEV : BitVec 16 := 3

/-- The address in slot `k`, where slot `NDIRECT` is the indirect one. -/
def Dinode.addr (x : Dinode) (k : Nat) : Word :=
  if h : k < NDIRECT + 1 then x.addrs ⟨k, h⟩ else 0

/-- `x.addrs[k] = w` -/
def Dinode.setAddr (x : Dinode) (k : Nat) (w : Word) : Dinode :=
  { x with addrs := fun j => if j.val = k then w else x.addrs j }

/-- The bytes of the structure. -/
def Dinode.bytes (x : Dinode) (j : Nat) : Byte :=
  if j < 2 then byteOf x.type j
  else if j < 4 then byteOf x.major (j - 2)
  else if j < 6 then byteOf x.minor (j - 4)
  else if j < 8 then byteOf x.nlink (j - 6)
  else if j < 12 then byteOf x.size (j - 8)
  else byteOf (x.addr ((j - 12) / 4)) ((j - 12) % 4)

/-- The inode in place `k` of an inode block. -/
def getDinode (b : Block) (k : Nat) : Dinode where
  type := getLE 2 b (DINODE * k)
  major := getLE 2 b (DINODE * k + 2)
  minor := getLE 2 b (DINODE * k + 4)
  nlink := getLE 2 b (DINODE * k + 6)
  size := getLE 4 b (DINODE * k + 8)
  addrs := fun j => getLE 4 b (DINODE * k + 12 + 4 * j.val)

/-- Store an inode in place `k` of an inode block. -/
def putDinode (b : Block) (k : Nat) (x : Dinode) : Block :=
  splice b (DINODE * k) DINODE x.bytes

section dinode

variable {b : Block} {k l : Nat} {x : Dinode} {w : Word}

@[simp] theorem addr_setAddr_self (hk : k ≤ NDIRECT) : (x.setAddr k w).addr k = w := by
  have h : k < NDIRECT + 1 := Nat.lt_succ_of_le hk
  simp [Dinode.addr, Dinode.setAddr, h]

theorem addr_setAddr_of_ne (h : l ≠ k) : (x.setAddr k w).addr l = x.addr l := by
  unfold Dinode.addr
  by_cases hl : l < NDIRECT + 1
  · rw [dif_pos hl, dif_pos hl]
    exact if_neg h
  · rw [dif_neg hl, dif_neg hl]

/-- A field inside the structure is read back from its bytes. -/
theorem getLE_putDinode (n : Nat) (o : Nat) (v : BitVec (8 * n)) (hk : k < IPB)
    (ho : o + n ≤ DINODE) (hbytes : ∀ i, i < n → x.bytes (o + i) = byteOf v i) :
    getLE n (putDinode b k x) (DINODE * k + o) = v := by
  rw [← le_byteOf n v]
  refine le_congr n fun i hi => ?_
  have hin : DINODE * k + o + i < BSIZE := by
    unfold DINODE at ho ⊢
    have : k < 8 := hk
    have : BSIZE = 512 := rfl
    omega
  have hrange : DINODE * k ≤ DINODE * k + o + i ∧ DINODE * k + o + i < DINODE * k + DINODE := by
    omega
  unfold putDinode
  rw [get_splice _ _ _ _ hin, if_pos hrange]
  have hsub : DINODE * k + o + i - DINODE * k = o + i := by omega
  rw [hsub]
  exact hbytes i hi

theorem getDinode_putDinode_self (hk : k < IPB) : getDinode (putDinode b k x) k = x := by
  ext1
  · refine getLE_putDinode 2 0 x.type hk (by decide) fun i hi => ?_
    unfold Dinode.bytes
    rw [if_pos (by omega), Nat.zero_add]
  · refine getLE_putDinode 2 2 x.major hk (by decide) fun i hi => ?_
    unfold Dinode.bytes
    rw [if_neg (by omega), if_pos (by omega), Nat.add_sub_cancel_left]
  · refine getLE_putDinode 2 4 x.minor hk (by decide) fun i hi => ?_
    unfold Dinode.bytes
    rw [if_neg (by omega), if_neg (by omega), if_pos (by omega), Nat.add_sub_cancel_left]
  · refine getLE_putDinode 2 6 x.nlink hk (by decide) fun i hi => ?_
    unfold Dinode.bytes
    rw [if_neg (by omega), if_neg (by omega), if_neg (by omega), if_pos (by omega),
      Nat.add_sub_cancel_left]
  · refine getLE_putDinode 4 8 x.size hk (by decide) fun i hi => ?_
    unfold Dinode.bytes
    rw [if_neg (by omega), if_neg (by omega), if_neg (by omega), if_neg (by omega),
      if_pos (by omega), Nat.add_sub_cancel_left]
  · funext j
    have hj : j.val < 13 := j.isLt
    have hfield := getLE_putDinode (b := b) (x := x) 4 (12 + 4 * j.val) (x.addrs j) hk
      (by unfold DINODE; omega) fun i hi => by
        unfold Dinode.bytes Dinode.addr
        rw [if_neg (by omega), if_neg (by omega), if_neg (by omega), if_neg (by omega),
          if_neg (by omega)]
        have hdiv : (12 + 4 * j.val + i - 12) / 4 = j.val := by omega
        have hmod : (12 + 4 * j.val + i - 12) % 4 = i := by omega
        rw [hdiv, hmod, dif_pos j.isLt]
    rw [← Nat.add_assoc] at hfield
    exact hfield

/-- The other inodes of the block. -/
theorem getDinode_putDinode_of_ne (h : l ≠ k) : getDinode (putDinode b k x) l = getDinode b l := by
  have hapart : DINODE * l + DINODE ≤ DINODE * k ∨ DINODE * k + DINODE ≤ DINODE * l := by
    unfold DINODE
    omega
  have hfield : ∀ n o, o + n ≤ DINODE →
      getLE n (putDinode b k x) (DINODE * l + o) = getLE n b (DINODE * l + o) := by
    intro n o ho
    refine getLE_splice_of_disjoint n b _ _ _ _ ?_
    omega
  ext1
  · exact hfield 2 0 (by decide)
  · exact hfield 2 2 (by decide)
  · exact hfield 2 4 (by decide)
  · exact hfield 2 6 (by decide)
  · exact hfield 4 8 (by decide)
  · funext j
    have hj : j.val < 13 := j.isLt
    have := hfield 4 (12 + 4 * j.val) (by unfold DINODE; omega)
    rwa [← Nat.add_assoc] at this

end dinode

/-- The inode with number `i`. -/
def dinode (L : Layout) (d : Image) (i : Nat) : Dinode := getDinode (d (L.iblock i)) (i % IPB)

/-- Store the inode with number `i`. -/
def setDinode (L : Layout) (d : Image) (i : Nat) (x : Dinode) : Image :=
  Function.update d (L.iblock i) (putDinode (d (L.iblock i)) (i % IPB) x)

section dinodes

variable {L : Layout} {d : Image} {i j b : Nat} {x : Dinode}

theorem dinode_update_of_ne {blk : Block} (h : b ≠ L.iblock i) :
    dinode L (update d b blk) i = dinode L d i := by
  unfold dinode
  rw [update_of_ne (Ne.symm h)]

@[simp] theorem dinode_setDinode_self : dinode L (setDinode L d i x) i = x := by
  unfold dinode setDinode
  rw [update_self]
  exact getDinode_putDinode_self (Nat.mod_lt i (by decide))

theorem dinode_setDinode_of_ne (h : j ≠ i) : dinode L (setDinode L d i x) j = dinode L d j := by
  unfold dinode setDinode
  by_cases hblock : L.iblock j = L.iblock i
  · rw [hblock, update_self]
    refine getDinode_putDinode_of_ne fun hmod => h ?_
    have hdiv : j / IPB = i / IPB := Nat.add_right_cancel hblock
    rw [← Nat.div_add_mod j IPB, ← Nat.div_add_mod i IPB, hdiv, hmod]
  · rw [update_of_ne hblock]

theorem setDinode_of_ne (h : b ≠ L.iblock i) : setDinode L d i x b = d b :=
  update_of_ne h _ _

end dinodes

/-! ### Indirect blocks -/

/-- `a[j]`, for the block read as an array of `uint`. -/
def entry (b : Block) (j : Nat) : Word := getLE 4 b (4 * j)

/-- `a[j] = w` -/
def setEntry (b : Block) (j : Nat) (w : Word) : Block := putLE 4 b (4 * j) w

section entries

variable {b : Block} {j k : Nat} {w : Word}

@[simp] theorem entry_setEntry_self (hj : j < NINDIRECT) : entry (setEntry b j w) j = w := by
  refine getLE_putLE_self 4 b (4 * j) w ?_
  have h₁ : NINDIRECT = 128 := rfl
  have h₂ : BSIZE = 512 := rfl
  omega

theorem entry_setEntry_of_ne (h : k ≠ j) : entry (setEntry b j w) k = entry b k :=
  getLE_putLE_of_disjoint 4 4 b (4 * j) w (4 * k) (by omega)

/-- A zeroed block has no entries. -/
theorem entry_zero (j : Nat) : entry (fun _ => 0) j = 0 := by
  have hget : ∀ i, Buf.get (fun _ => 0 : Block) i = 0 := by
    intro i
    unfold Buf.get
    split <;> rfl
  apply BitVec.eq_of_getLsbD_eq
  intro i hi
  unfold entry getLE
  rw [getLsbD_le 4 _ i hi, hget]
  simp

end entries

/-! ### The bitmap -/

/-- `bp->data[k/8] & (1 << (k % 8))` is not zero. -/
def getBit (b : Block) (k : Nat) : Bool := (b.get (k / 8)).getLsbD (k % 8)

/-- `bp->data[k/8] |= 1 << (k % 8)` -/
def setBit (b : Block) (k : Nat) : Block :=
  splice b (k / 8) 1 (fun _ => b.get (k / 8) ||| (1#8 <<< (k % 8)))

/-- `bp->data[k/8] &= ~(1 << (k % 8))` -/
def clearBit (b : Block) (k : Nat) : Block :=
  splice b (k / 8) 1 (fun _ => b.get (k / 8) &&& ~~~(1#8 <<< (k % 8)))

section bits

variable {b : Block} {k l : Nat}

theorem getLsbD_one_shift {i j : Nat} (hi : i < 8) (hj : j < 8) :
    (1#8 <<< i).getLsbD j = decide (j = i) := by
  rw [BitVec.getLsbD_shiftLeft, decide_eq_true hj, Bool.true_and]
  by_cases h : j < i
  · rw [decide_eq_true h, Bool.not_true, Bool.false_and]
    exact (decide_eq_false (by omega)).symm
  · rw [decide_eq_false h, Bool.not_false, Bool.true_and]
    by_cases heq : j = i
    · subst heq
      simp
    · rw [decide_eq_false heq]
      have hpos : j - i ≠ 0 := by omega
      simp [hpos]

theorem getBit_setBit (hl : l < BPB) :
    getBit (setBit b k) l = (decide (l = k) || getBit b l) := by
  have hbpb : BPB = 4096 := rfl
  have hbs : BSIZE = 512 := rfl
  have hmodk : k % 8 < 8 := Nat.mod_lt k (by decide)
  have hmodl : l % 8 < 8 := Nat.mod_lt l (by decide)
  unfold getBit setBit
  rw [get_splice _ _ _ _ (by omega)]
  by_cases hbyte : l / 8 = k / 8
  · rw [if_pos (by omega), hbyte, BitVec.getLsbD_or, getLsbD_one_shift hmodk hmodl, Bool.or_comm]
    congr 1
    exact decide_eq_decide.mpr (by omega)
  · rw [if_neg (by omega), decide_eq_false (by omega), Bool.false_or]

theorem getBit_clearBit (hl : l < BPB) :
    getBit (clearBit b k) l = (!decide (l = k) && getBit b l) := by
  have hbpb : BPB = 4096 := rfl
  have hbs : BSIZE = 512 := rfl
  have hmodk : k % 8 < 8 := Nat.mod_lt k (by decide)
  have hmodl : l % 8 < 8 := Nat.mod_lt l (by decide)
  unfold getBit clearBit
  rw [get_splice _ _ _ _ (by omega)]
  by_cases hbyte : l / 8 = k / 8
  · rw [if_pos (by omega), hbyte, BitVec.getLsbD_and, BitVec.getLsbD_not, decide_eq_true hmodl,
      Bool.true_and, getLsbD_one_shift hmodk hmodl, Bool.and_comm]
    congr 2
    exact decide_eq_decide.mpr (by omega)
  · rw [if_neg (by omega), decide_eq_false (by omega), Bool.not_false, Bool.true_and]

end bits

/-- The bitmap has block `b` in use. -/
def used (L : Layout) (d : Image) (b : Nat) : Bool := getBit (d (L.bblock b)) (b % BPB)

/-- Mark block `b` in use. -/
def markUsed (L : Layout) (d : Image) (b : Nat) : Image :=
  Function.update d (L.bblock b) (setBit (d (L.bblock b)) (b % BPB))

/-- Mark block `b` free. -/
def markFree (L : Layout) (d : Image) (b : Nat) : Image :=
  Function.update d (L.bblock b) (clearBit (d (L.bblock b)) (b % BPB))

section bitmap

variable {L : Layout} {d : Image} {b c : Nat}

theorem same_bit (hblock : L.bblock c = L.bblock b) : c % BPB = b % BPB ↔ c = b := by
  have hdiv : c / BPB = b / BPB := Nat.add_right_cancel hblock
  constructor
  · intro hmod
    rw [← Nat.div_add_mod c BPB, ← Nat.div_add_mod b BPB, hdiv, hmod]
  · rintro rfl
    rfl

theorem used_markUsed : used L (markUsed L d b) c = (decide (c = b) || used L d c) := by
  have hmodc : c % BPB < BPB := Nat.mod_lt c (by decide)
  unfold used markUsed
  by_cases hblock : L.bblock c = L.bblock b
  · rw [hblock, update_self, getBit_setBit hmodc]
    congr 1
    exact decide_eq_decide.mpr (same_bit hblock)
  · rw [update_of_ne hblock, decide_eq_false, Bool.false_or]
    rintro rfl
    exact hblock rfl

theorem used_markFree : used L (markFree L d b) c = (!decide (c = b) && used L d c) := by
  have hmodc : c % BPB < BPB := Nat.mod_lt c (by decide)
  unfold used markFree
  by_cases hblock : L.bblock c = L.bblock b
  · rw [hblock, update_self, getBit_clearBit hmodc]
    congr 2
    exact decide_eq_decide.mpr (same_bit hblock)
  · rw [update_of_ne hblock, decide_eq_false, Bool.not_false, Bool.true_and]
    rintro rfl
    exact hblock rfl

theorem used_update_of_ne {blk : Block} (h : b ≠ L.bblock c) :
    used L (update d b blk) c = used L d c := by
  unfold used
  rw [update_of_ne (Ne.symm h)]

end bitmap

/-! ### The places of an inode -/

/-- The places in which an inode has the address of a block: the direct slots,
    the indirect slot `NDIRECT`, and behind it the entries of the indirect
    block. -/
def PLACES : Nat := NDIRECT + 1 + NINDIRECT

/-- The address in place `k`; zero where there is none. -/
def slotAddr (d : Image) (x : Dinode) (k : Nat) : Nat :=
  if k ≤ NDIRECT then (x.addr k).toNat
  else if x.addr NDIRECT = 0 then 0
  else (entry (d (x.addr NDIRECT).toNat) (k - (NDIRECT + 1))).toNat

/-- The place with the address of block `bn` of the file. -/
def placeOf (bn : Nat) : Nat := if bn < NDIRECT then bn else bn + 1

/-- The address of block `bn` of the file; zero where it is a hole. -/
def blockAddr (d : Image) (x : Dinode) (bn : Nat) : Nat := slotAddr d x (placeOf bn)

/-- The byte at offset `o` of the file. -/
def fileByte (d : Image) (x : Dinode) (o : Nat) : Byte :=
  (d (blockAddr d x (o / BSIZE))).get (o % BSIZE)

/-- Every block below the size of the file has an address. -/
def NoHoles (d : Image) (x : Dinode) : Prop :=
  ∀ bn, bn * BSIZE < x.size.toNat → bn < MAXFILE ∧ blockAddr d x bn ≠ 0

end Xv6.Disk
