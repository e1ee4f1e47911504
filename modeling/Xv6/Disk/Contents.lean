import Mathlib.Data.List.GetD
import Xv6.Disk.Own

/-! # Reading and Writing Files

    Over a file system in which blocks have one owner, a file is an array of
    bytes: `writei` overwrites and extends it, `readi` returns a part of it, and
    no other file changes.

    - `Written`: what the loop of `writei` does
    - `writei_ok`: what `writei` does when it returns
    - `readi_eq`: what `readi` returns for a file without holes; it changes
      nothing
-/

namespace Xv6.Disk

open Bytes Function

variable {C : Config} {L : Layout} {tbl tbl' : Nat → Dinode} {d d' : Image} {i k b : Nat}
  {x x' : Dinode} {s s' : Kern} {j o off : Nat} {src : List Byte}

/-! ### Writes that leave the addresses alone -/

/-- Ownership depends on the addresses and on the bitmap only. -/
theorem Own.transfer (h : Own L tbl d)
    (htype : ∀ j, j < L.ninodes → ((tbl' j).type ≠ 0 ↔ (tbl j).type ≠ 0))
    (hslot : ∀ j, j < L.ninodes → (tbl j).type ≠ 0 → ∀ l,
      slotAddr d' (tbl' j) l = slotAddr d (tbl j) l)
    (hused : ∀ c, c < L.size → used L d' c = used L d c) : Own L tbl' d' := by
  have hrefs : ∀ j l c, Refs L tbl' d' j l c ↔ Refs L tbl d j l c := by
    intro j l c
    constructor
    · rintro ⟨hj, hjt, hl, haddr, hc⟩
      have hjt' := (htype j hj).mp hjt
      exact ⟨hj, hjt', hl, (hslot j hj hjt' l).symm.trans haddr, hc⟩
    · rintro ⟨hj, hjt, hl, haddr, hc⟩
      exact ⟨hj, (htype j hj).mpr hjt, hl, (hslot j hj hjt l).trans haddr, hc⟩
  refine ⟨fun {j l c} href => h.range ((hrefs j l c).mp href),
    fun {j l j' l' c} h₁ h₂ => h.inj ((hrefs j l c).mp h₁) ((hrefs j' l' c).mp h₂),
    fun c hc => ?_⟩
  rw [hused c hc, h.bitmap c hc]
  refine or_congr_right ?_
  constructor
  · rintro ⟨j, l, href⟩
    exact ⟨j, l, (hrefs j l c).mpr href⟩
  · rintro ⟨j, l, href⟩
    exact ⟨j, l, (hrefs j l c).mp href⟩

section data

variable {bn : Nat} (h : Own L tbl d) (href : Refs L tbl d i (placeOf bn) b)

include h href in
/-- A data block is nobody's indirect block. -/
theorem Own.data_ne_root (hj : j < L.ninodes) (hjt : (tbl j).type ≠ 0)
    (hroot : (tbl j).addr NDIRECT ≠ 0) : ((tbl j).addr NDIRECT).toNat ≠ b := by
  intro heq
  have hr := root_refs hj hjt hroot (d := d)
  rw [heq] at hr
  exact placeOf_ne_root bn (h.inj href hr).2

include h href in
theorem Own.slot_write_data (blk : Block) (hj : j < L.ninodes) (hjt : (tbl j).type ≠ 0) (l : Nat) :
    slotAddr (update d b blk) (tbl j) l = slotAddr d (tbl j) l :=
  slotAddr_congr (fun _ _ => rfl)
    (fun hroot => update_of_ne (h.data_ne_root href hj hjt hroot) _ _) l

include h href in
/-- The contents of a data block do not matter to ownership. -/
theorem Own.write_data (blk : Block) : Own L tbl (update d b blk) := by
  refine h.transfer (fun _ _ => Iff.rfl) (fun j hj hjt l => h.slot_write_data href blk hj hjt l) ?_
  intro c hc
  refine used_update_of_ne ?_
  exact Nat.ne_of_gt (Nat.lt_of_lt_of_le (Layout.bblock_lt hc) (h.range href).1)

end data

/-- Storing an inode touches no data block and no bit of the bitmap. -/
theorem Own.slot_setDinode (h : Own L tbl d) (hi : i < L.ninodes) (hj : j < L.ninodes)
    (hjt : (tbl j).type ≠ 0) (l : Nat) :
    slotAddr (setDinode L d i x) (tbl j) l = slotAddr d (tbl j) l := by
  refine slotAddr_congr (fun _ _ => rfl) (fun hroot => setDinode_of_ne ?_) l
  have hr := h.range (root_refs hj hjt hroot)
  exact Nat.ne_of_gt (Nat.lt_of_lt_of_le (Layout.iblock_lt_nmeta hi) hr.1)

theorem used_setDinode (hi : i < L.ninodes) {c : Nat} :
    used L (setDinode L d i x) c = used L d c :=
  used_update_of_ne (Layout.iblock_ne_bblock hi)

theorem Own.setDinode (h : Own L tbl d) (hi : i < L.ninodes) : Own L tbl (setDinode L d i x) :=
  h.transfer (fun _ _ => Iff.rfl) (fun _ hj hjt l => h.slot_setDinode hi hj hjt l)
    (fun _ _ => used_setDinode hi)

/-! ### The loop of `writei` -/

/-- `o` lies in the range of `n` bytes from `off` on. -/
def InRange (off n o : Nat) : Prop := off ≤ o ∧ o < off + n

instance (off n o : Nat) : Decidable (InRange off n o) := inferInstanceAs (Decidable (_ ∧ _))

/-- The bytes `src` have been written to inode `i` from `off` on. -/
structure Written (L : Layout) (tbl : Nat → Dinode) (i : Nat) (x' : Dinode) (d d' : Image)
    (off : Nat) (src : List Byte) : Prop where
  own : Own L (Function.update tbl i x') d'
  fields : x' = { tbl i with addrs := x'.addrs }
  kept : ∀ m, m < MAXFILE → blockAddr d (tbl i) m ≠ 0 →
    blockAddr d' x' m = blockAddr d (tbl i) m
  covered : ∀ o, InRange off src.length o → blockAddr d' x' (o / BSIZE) ≠ 0
  bytes : ∀ o, o < MAXFILE * BSIZE →
    (InRange off src.length o → fileByte d' x' o = src.getD (o - off) 0) ∧
    (¬ InRange off src.length o → blockAddr d (tbl i) (o / BSIZE) ≠ 0 →
      fileByte d' x' o = fileByte d (tbl i) o)
  inplace : (∀ o, InRange off src.length o → blockAddr d (tbl i) (o / BSIZE) ≠ 0) → x' = tbl i
  same : ∀ j l c, Refs L tbl d j l c → j ≠ i → d' c = d c
  inodes : ∀ j, j < L.ninodes → dinode L d' j = dinode L d j

theorem Written.nil (h : Own L tbl d) (off : Nat) : Written L tbl i (tbl i) d d off [] where
  own := by rwa [update_eq_self]
  fields := rfl
  kept := fun _ _ _ => rfl
  covered := fun o ho => by
    have := ho.1
    have := ho.2
    simp only [List.length_nil] at this
    omega
  bytes := fun o _ => ⟨fun ho => by
    have := ho.1
    have := ho.2
    simp only [List.length_nil] at this
    omega, fun _ _ => rfl⟩
  inplace := fun _ => rfl
  same := fun _ _ _ _ _ => rfl
  inodes := fun _ _ => rfl

theorem lt_maxfile (h : o < MAXFILE * BSIZE) : o / BSIZE < MAXFILE :=
  Nat.div_lt_of_lt_mul (by rwa [Nat.mul_comm] at h)

/-- One round of the loop: the part of one block. -/
theorem Written.one {a m : Nat} {f : Nat → Byte} (h : Own L tbl d) (hi : i < L.ninodes)
    (ht : (tbl i).type ≠ 0) (hm : Mapped L tbl i x' d d' (off / BSIZE) a) (hlen : src.length = m)
    (hpos : 0 < m) (hfit : off % BSIZE + m ≤ BSIZE) (hf : ∀ j, j < m → f j = src.getD j 0)
    (hoff : off / BSIZE < MAXFILE) :
    Written L tbl i x' d (update d' a (splice (d' a) (off % BSIZE) m f)) off src := by
  have hbs : 0 < BSIZE := by decide
  have hself : update tbl i x' i = x' := update_self _ _ _
  have htype : (update tbl i x' i).type ≠ 0 := by
    rw [hself, hm.fields]
    exact ht
  have hapos : a ≠ 0 := Nat.ne_of_gt (Nat.lt_of_lt_of_le Layout.nmeta_pos hm.range.1)
  have href : Refs L (update tbl i x') d' i (placeOf (off / BSIZE)) a :=
    ⟨hi, htype, placeOf_lt hoff, by rw [hself]; exact hm.addr, hapos⟩
  -- the write changes no address
  have hslot : ∀ l, slotAddr (update d' a (splice (d' a) (off % BSIZE) m f)) x' l =
      slotAddr d' x' l := by
    intro l
    have := hm.own.slot_write_data href (splice (d' a) (off % BSIZE) m f) hi htype l
    rwa [hself] at this
  have hblock : ∀ n, blockAddr (update d' a (splice (d' a) (off % BSIZE) m f)) x' n =
      blockAddr d' x' n := fun n => hslot (placeOf n)
  -- a block of the file that was there before, other than the one written to
  have hother : ∀ n, n < MAXFILE → n ≠ off / BSIZE → blockAddr d (tbl i) n ≠ 0 →
      update d' a (splice (d' a) (off % BSIZE) m f) (blockAddr d (tbl i) n) =
        d (blockAddr d (tbl i) n) := by
    intro n hn hne hz
    have hold : Refs L tbl d i (placeOf n) (blockAddr d (tbl i) n) :=
      ⟨hi, ht, placeOf_lt hn, rfl, hz⟩
    have hnew : Refs L (update tbl i x') d' i (placeOf n) (blockAddr d (tbl i) n) :=
      ⟨hi, htype, placeOf_lt hn, by rw [hself]; exact hm.other n hn hne, hz⟩
    have hna : blockAddr d (tbl i) n ≠ a := by
      intro heq
      rw [heq] at hnew
      exact hne (placeOf_inj (hm.own.inj hnew href).2)
    rw [update_of_ne hna]
    refine hm.same _ (h.range hold).1 (h.range hold).2 (h.used_of_refs hold) ?_
    intro heq
    have hroot : Refs L (update tbl i x') d' i NDIRECT (blockAddr d (tbl i) n) :=
      ⟨hi, htype, by decide, by rw [hself, slotAddr_root, heq], hz⟩
    exact placeOf_ne_root n (hm.own.inj hnew hroot).2
  have hdiv : ∀ o, InRange off src.length o → o / BSIZE = off / BSIZE := by
    intro o ho
    obtain ⟨h₁, h₂⟩ := ho
    rw [hlen] at h₂
    have hdm := Nat.div_add_mod off BSIZE
    have hub : o < BSIZE * (off / BSIZE) + BSIZE := by omega
    refine Nat.div_eq_of_lt_le ?_ ?_
    · rw [Nat.mul_comm]
      omega
    · rw [Nat.succ_mul, Nat.mul_comm]
      exact hub
  refine
    { own := hm.own.write_data href _
      fields := hm.fields
      kept := fun n hn hz => ?_
      covered := fun o ho => ?_
      bytes := fun o ho => ⟨fun hin => ?_, fun hin hz => ?_⟩
      inplace := fun hall => ?_
      same := fun j l c hr hji => ?_
      inodes := fun j hj => ?_ }
  · rw [hblock]
    by_cases hn' : n = off / BSIZE
    · subst hn'
      obtain ⟨hx, hd⟩ := hm.old hz
      rw [hx, hd]
    · exact hm.other n hn hn'
  · rw [hblock, hdiv o ho, hm.addr]
    exact hapos
  · unfold fileByte
    rw [hblock, hdiv o hin, hm.addr, update_self]
    obtain ⟨h₁, h₂⟩ := hin
    have ho' := hdiv o ⟨h₁, h₂⟩
    rw [hlen] at h₂
    have hdo := Nat.div_add_mod o BSIZE
    have hdoff := Nat.div_add_mod off BSIZE
    rw [ho'] at hdo
    have hsub : o % BSIZE - off % BSIZE = o - off := by omega
    rw [get_splice _ _ _ _ (Nat.mod_lt o hbs), if_pos (by omega), hsub]
    exact hf _ (by omega)
  · unfold fileByte
    by_cases hn : o / BSIZE = off / BSIZE
    · rw [hn] at hz
      obtain ⟨hx, hd⟩ := hm.old hz
      have haddr : blockAddr d (tbl i) (off / BSIZE) = a := by
        have := hm.addr
        rwa [hx, hd] at this
      have hdo := Nat.div_add_mod o BSIZE
      have hdoff := Nat.div_add_mod off BSIZE
      rw [hn] at hdo
      unfold InRange at hin
      rw [hlen] at hin
      rw [hblock, hn, hm.addr, haddr, update_self,
        get_splice _ _ _ _ (Nat.mod_lt o hbs), if_neg (by omega), hd]
    · rw [hblock, hm.other _ (lt_maxfile ho) hn, hother _ (lt_maxfile ho) hn hz]
  · by_cases hz : blockAddr d (tbl i) (off / BSIZE) = 0
    · exact absurd hz (hall off ⟨Nat.le_refl _, by omega⟩)
    · exact (hm.old hz).1
  · have hold := h.range hr
    have hnew : Refs L (update tbl i x') d' j l c := by
      obtain ⟨hj, hjt, hl, haddr, hc⟩ := hr
      have hne : update tbl i x' j = tbl j := update_of_ne hji _ _
      exact ⟨hj, by rwa [hne], hl, by rw [hne, hm.slots j hj hjt hji l, haddr], hc⟩
    have hca : c ≠ a := by
      rintro rfl
      exact hji (hm.own.inj hnew href).1
    rw [update_of_ne hca]
    refine hm.same c hold.1 hold.2 (h.used_of_refs hr) ?_
    intro heq
    have hroot : Refs L (update tbl i x') d' i NDIRECT c :=
      ⟨hi, htype, by decide, by rw [hself, slotAddr_root, heq], hr.ne_zero⟩
    exact hji (hm.own.inj hnew hroot).1
  · rw [dinode_update_of_ne, hm.inodes j hj]
    exact Nat.ne_of_gt (Nat.lt_of_lt_of_le (Layout.iblock_lt_nmeta hj) hm.range.1)

/-- A write in two parts, one behind the other. -/
theorem Written.append {x₁ x₂ : Dinode} {d₁ d₂ : Image} {src₁ src₂ : List Byte}
    (hfit : off + src₁.length + src₂.length ≤ MAXFILE * BSIZE)
    (h₁ : Written L tbl i x₁ d d₁ off src₁)
    (h₂ : Written L (update tbl i x₁) i x₂ d₁ d₂ (off + src₁.length) src₂) :
    Written L tbl i x₂ d d₂ off (src₁ ++ src₂) := by
  have hself : update tbl i x₁ i = x₁ := update_self _ _ _
  have hsplit : ∀ o, InRange off (src₁ ++ src₂).length o ↔
      InRange off src₁.length o ∨ InRange (off + src₁.length) src₂.length o := by
    intro o
    unfold InRange
    rw [List.length_append]
    omega
  have hexcl : ∀ o, InRange off src₁.length o → ¬ InRange (off + src₁.length) src₂.length o := by
    intro o
    unfold InRange
    omega
  refine
    { own := by simpa using h₂.own
      fields := ?_
      kept := fun m hm hz => ?_
      covered := fun o ho => ?_
      bytes := fun o ho => ⟨fun hin => ?_, fun hin hz => ?_⟩
      inplace := fun hall => ?_
      same := fun j l c hr hji => ?_
      inodes := fun j hj => (h₂.inodes j hj).trans (h₁.inodes j hj) }
  · have hf := h₂.fields
    rw [hself, h₁.fields] at hf
    exact hf
  · have hk₁ := h₁.kept m hm hz
    have hk₂ := h₂.kept m hm (by rw [hself, hk₁]; exact hz)
    rw [hk₂, hself, hk₁]
  · rcases (hsplit o).mp ho with ho | ho
    · have hlt : o < MAXFILE * BSIZE := by
        have := ho.2
        omega
      have hz := h₁.covered o ho
      rw [h₂.kept _ (lt_maxfile hlt) (by rwa [hself]), hself]
      exact hz
    · exact h₂.covered o ho
  · rcases (hsplit o).mp hin with hin | hin
    · have hz := h₁.covered o hin
      rw [(h₂.bytes o ho).2 (hexcl o hin) (by rwa [hself]), hself, (h₁.bytes o ho).1 hin]
      rw [List.getD_append _ _ _ _ (by have := hin.1; have := hin.2; omega)]
    · have hge : off + src₁.length ≤ o := hin.1
      rw [(h₂.bytes o ho).1 hin, List.getD_append_right _ _ _ _ (by omega)]
      congr 1
      omega
  · have hnot := fun h => hin ((hsplit o).mpr h)
    have hkeep := h₁.kept _ (lt_maxfile ho) hz
    rw [(h₂.bytes o ho).2 (fun h => hnot (Or.inr h)) (by rw [hself, hkeep]; exact hz), hself,
      (h₁.bytes o ho).2 (fun h => hnot (Or.inl h)) hz]
  · have hx₁ := h₁.inplace fun o ho => hall o ((hsplit o).mpr (Or.inl ho))
    rw [h₂.inplace, hself, hx₁]
    intro o ho
    have hlt : o < MAXFILE * BSIZE := by
      have := ho.2
      omega
    have hz := hall o ((hsplit o).mpr (Or.inr ho))
    rw [hself, h₁.kept _ (lt_maxfile hlt) hz]
    exact hz
  · have hr₁ : Refs L (update tbl i x₁) d₁ j l c := by
      have hne : update tbl i x₁ j = tbl j := update_of_ne hji _ _
      obtain ⟨hj, hjt, hl, haddr, hc⟩ := hr
      refine ⟨hj, by rwa [hne], hl, ?_, hc⟩
      rw [hne]
      refine (slotAddr_congr (fun _ _ => rfl) (fun hroot => ?_) l).trans haddr
      exact h₁.same j NDIRECT _ (Own.root_refs hj hjt hroot) hji
    rw [h₂.same j l c hr₁ hji, h₁.same j l c hr hji]

theorem chunk_pos {n : Nat} (hn : 0 < n) : 0 < chunk off n := by
  have := Nat.mod_lt off (show 0 < BSIZE by decide)
  unfold chunk
  omega

theorem chunk_le (off n : Nat) : chunk off n ≤ n := Nat.min_le_left _ _

theorem chunk_fit (off n : Nat) : off % BSIZE + chunk off n ≤ BSIZE := by
  have := Nat.mod_lt off (show 0 < BSIZE by decide)
  unfold chunk
  omega

/-- **The loop of `writei`** -/
theorem writeLoop_ok (hL : C.layout = L) (hi : i < L.ninodes) : ∀ {fuel : Nat} {s s' : Kern}
    {tbl : Nat → Dinode} {x' : Dinode} {off : Nat} {src : List Byte}, Own L tbl s.disk →
    (tbl i).type ≠ 0 → src.length ≤ fuel → off + src.length ≤ MAXFILE * BSIZE →
    writeLoop C fuel s (tbl i) off src = .ok (x', s') →
    Written L tbl i x' s.disk s'.disk off src := by
  intro fuel
  induction fuel with
  | zero =>
    intro s s' tbl x' off src h _ hlen _ hloop
    have hnil : src = [] := List.eq_nil_of_length_eq_zero (Nat.le_zero.mp hlen)
    cases hloop
    rw [hnil]
    exact Written.nil h off
  | succ fuel ih =>
    intro s s' tbl x' off src h ht hlen hfit hloop
    rw [writeLoop] at hloop
    by_cases hnil : src = []
    · rw [if_pos hnil] at hloop
      cases hloop
      rw [hnil]
      exact Written.nil h off
    · rw [if_neg hnil] at hloop
      obtain ⟨⟨a, x₁, s₁⟩, hmap, hloop⟩ := bind_ok.mp hloop
      obtain ⟨s₂, hlog, hloop⟩ := bind_ok.mp hloop
      have hpos : 0 < src.length := List.length_pos_of_ne_nil hnil
      have hmpos : 0 < chunk off src.length := chunk_pos hpos
      have hmle := chunk_le off src.length
      have hoff : off / BSIZE < MAXFILE := lt_maxfile (by omega)
      have hm := bmap_ok h hi ht rfl hL hoff hmap
      have htake : (src.take (chunk off src.length)).length = chunk off src.length := by
        rw [List.length_take]
        omega
      have hone := Written.one (f := fun j => src.getD j 0) h hi ht hm htake hmpos
        (chunk_fit off src.length) (fun j hj => by
          rw [List.getD_eq_getElem?_getD, List.getD_eq_getElem?_getD, List.getElem?_take,
            if_pos hj]) hoff
      rw [← log_write_ok hlog] at hone
      have hself : update tbl i x₁ i = x₁ := update_self _ _ _
      have hrest : Written L (update tbl i x₁) i x' s₂.disk s'.disk
          (off + (src.take (chunk off src.length)).length) (src.drop (chunk off src.length)) := by
        rw [htake]
        refine ih hone.own ?_ ?_ ?_ (by rw [hself]; exact hloop)
        · rw [hself, hm.fields]
          exact ht
        · rw [List.length_drop]
          omega
        · rw [List.length_drop]
          omega
      have hboth := Written.append (by rw [htake, List.length_drop]; omega) hone hrest
      rwa [List.take_append_drop] at hboth

/-! ### `writei` -/

/-- A write that has succeeded: the file is overwritten and extended, on the disk as
    in memory, and all other files are as they were. -/
structure WriteDone (L : Layout) (tbl : Nat → Dinode) (i : Nat) (x' : Dinode) (d d' : Image)
    (off : Nat) (src : List Byte) : Prop where
  own : Own L (Function.update tbl i x') d'
  fields : x' = { tbl i with addrs := x'.addrs, size := x'.size }
  size : x'.size.toNat = max (tbl i).size.toNat (off + src.length)
  noHoles : NoHoles d' x'
  bytes : ∀ o, o < x'.size.toNat → fileByte d' x' o =
    if InRange off src.length o then src.getD (o - off) 0 else fileByte d (tbl i) o
  same : ∀ j l c, Refs L tbl d j l c → j ≠ i → d' c = d c
  inodes : ∀ j, j < L.ninodes → j ≠ i → dinode L d' j = dinode L d j
  stored : dinode L d i = tbl i → dinode L d' i = x'

theorem MAXFILE_BSIZE : MAXFILE * BSIZE = 71680 := rfl

/-- A file without holes has at most `MAXFILE` blocks. -/
theorem NoHoles.size_le (h : NoHoles d x) : x.size.toNat ≤ MAXFILE * BSIZE := by
  by_contra hgt
  exact Nat.lt_irrefl _ (h MAXFILE (Nat.lt_of_not_le hgt)).1

theorem NoHoles.addr_ne_zero (h : NoHoles d x) (ho : o < x.size.toNat) :
    blockAddr d x (o / BSIZE) ≠ 0 :=
  (h (o / BSIZE) (Nat.lt_of_le_of_lt (Nat.div_mul_le_self o BSIZE) ho)).2

section

variable (hw : Written L tbl i x' d d' off src)

include hw

/-- The write, before the inode is stored. -/
theorem Written.noHoles (hno : NoHoles d (tbl i)) (hoff : off ≤ (tbl i).size.toNat)
    (hfit : off + src.length ≤ MAXFILE * BSIZE) {bn : Nat}
    (hbn : bn * BSIZE < max (tbl i).size.toNat (off + src.length)) :
    bn < MAXFILE ∧ blockAddr d' x' bn ≠ 0 := by
  have hle := hno.size_le
  have hlt : bn < MAXFILE := Nat.lt_of_mul_lt_mul_right (a := BSIZE) (by omega)
  refine ⟨hlt, ?_⟩
  by_cases hold : bn * BSIZE < (tbl i).size.toNat
  · have hz := (hno bn hold).2
    rw [hw.kept bn hlt hz]
    exact hz
  · have hcov := hw.covered (bn * BSIZE) ⟨by omega, by omega⟩
    rwa [Nat.mul_div_cancel bn (by decide)] at hcov

theorem Written.bytes_eq (hno : NoHoles d (tbl i)) (hfit : off + src.length ≤ MAXFILE * BSIZE)
    (hlt : o < max (tbl i).size.toNat (off + src.length)) (hoff : off ≤ (tbl i).size.toNat) :
    fileByte d' x' o =
      if InRange off src.length o then src.getD (o - off) 0 else fileByte d (tbl i) o := by
  have hle := hno.size_le
  have ho : o < MAXFILE * BSIZE := by omega
  by_cases hin : InRange off src.length o
  · rw [if_pos hin, (hw.bytes o ho).1 hin]
  · rw [if_neg hin]
    refine (hw.bytes o ho).2 hin (hno.addr_ne_zero ?_)
    unfold InRange at hin
    omega

/-- A write past the end of the file, with the inode stored behind it. -/
theorem Written.grown {d₂ : Image} (hi : i < L.ninodes) (ht : (tbl i).type ≠ 0)
    (hno : NoHoles d (tbl i)) (hoff : off ≤ (tbl i).size.toNat)
    (hfit : off + src.length ≤ MAXFILE * BSIZE) (hgrow : (tbl i).size.toNat < off + src.length)
    (hdisk : d₂ = setDinode L d' i { x' with size := BitVec.ofNat 32 (off + src.length) }) :
    WriteDone L tbl i { x' with size := BitVec.ofNat 32 (off + src.length) } d d₂ off src := by
  obtain ⟨x₂, hx₂⟩ : ∃ x₂ : Dinode, { x' with size := BitVec.ofNat 32 (off + src.length) } = x₂ :=
    ⟨_, rfl⟩
  rw [hx₂] at hdisk ⊢
  have hself : update tbl i x' i = x' := update_self _ _ _
  have htype : (update tbl i x' i).type ≠ 0 := by
    rw [hself, hw.fields]
    exact ht
  have hsize : x₂.size.toNat = off + src.length := by
    rw [MAXFILE_BSIZE] at hfit
    rw [← hx₂]
    exact (BitVec.toNat_ofNat _ 32).trans (Nat.mod_eq_of_lt (by omega))
  have hmax : max (tbl i).size.toNat (off + src.length) = off + src.length := by omega
  -- neither the new size nor the store of the inode changes an address
  have hslot : ∀ l, slotAddr d₂ x₂ l = slotAddr d' x' l := by
    intro l
    have hstore := hw.own.slot_setDinode hi hi htype l (x := x₂)
    rw [hself, ← hdisk] at hstore
    rw [← hstore, ← hx₂]
    rfl
  have hroots : ∀ c, L.nmeta ≤ c → d₂ c = d' c := by
    intro c hc
    rw [hdisk]
    exact setDinode_of_ne (Nat.ne_of_gt (Nat.lt_of_lt_of_le (Layout.iblock_lt_nmeta hi) hc))
  refine
    { own := ?_
      fields := by rw [← hx₂, hw.fields]
      size := hsize.trans hmax.symm
      noHoles := fun bn hbn => ?_
      bytes := fun o ho => ?_
      same := fun j l c hr hji => ?_
      inodes := fun j hj hji => ?_
      stored := fun _ => by rw [hdisk, dinode_setDinode_self] }
  · refine hw.own.transfer (fun j hj => ?_) (fun j hj hjt l => ?_) (fun c hc => ?_)
    · by_cases hji : j = i
      · rw [hji, hself, update_self, ← hx₂]
      · rw [update_of_ne hji, update_of_ne hji]
    · by_cases hji : j = i
      · rw [hji, hself, update_self]
        exact hslot l
      · have hne : update tbl i x' j = tbl j := update_of_ne hji _ _
        have hstore := hw.own.slot_setDinode hi hj hjt l (x := x₂)
        rw [← hdisk] at hstore
        rw [update_of_ne hji]
        rwa [hne] at hstore ⊢
    · rw [hdisk]
      exact used_setDinode hi
  · rw [hsize, ← hmax] at hbn
    have := hw.noHoles hno hoff hfit hbn
    exact ⟨this.1, by unfold blockAddr at this ⊢; rw [hslot]; exact this.2⟩
  · rw [hsize, ← hmax] at ho
    rw [← hw.bytes_eq hno hfit ho hoff]
    have hbn : o / BSIZE * BSIZE < max (tbl i).size.toNat (off + src.length) :=
      Nat.lt_of_le_of_lt (Nat.div_mul_le_self o BSIZE) ho
    obtain ⟨hlt, hz⟩ := hw.noHoles hno hoff hfit hbn
    have href : Refs L (update tbl i x') d' i (placeOf (o / BSIZE))
        (blockAddr d' x' (o / BSIZE)) :=
      ⟨hi, htype, placeOf_lt hlt, by rw [hself]; rfl, hz⟩
    unfold fileByte
    rw [show blockAddr d₂ x₂ (o / BSIZE) = blockAddr d' x' (o / BSIZE) from hslot _,
      hroots _ (hw.own.range href).1]
  · have hr' : Refs L (update tbl i x') d' j l c := by
      have hne : update tbl i x' j = tbl j := update_of_ne hji _ _
      obtain ⟨hj, hjt, hl, haddr, hc⟩ := hr
      refine ⟨hj, by rwa [hne], hl, ?_, hc⟩
      rw [hne]
      refine (slotAddr_congr (fun _ _ => rfl) (fun hroot => ?_) l).trans haddr
      exact hw.same j NDIRECT _ (Own.root_refs hj hjt hroot) hji
    rw [hroots c (hw.own.range hr').1, hw.same j l c hr hji]
  · rw [hdisk, dinode_setDinode_of_ne hji, hw.inodes j hj]

/-- A write that stays inside the file needs no new block, so the inode has not
    changed. -/
theorem Written.inside (hno : NoHoles d (tbl i)) (hoff : off ≤ (tbl i).size.toNat)
    (hfit : off + src.length ≤ MAXFILE * BSIZE) (hi : i < L.ninodes)
    (hin : ¬ (0 < src.length ∧ (tbl i).size.toNat < off + src.length)) :
    WriteDone L tbl i x' d d' off src := by
  have hend : off + src.length ≤ (tbl i).size.toNat := by omega
  have hsize : x'.size = (tbl i).size := by rw [hw.fields]
  have hmax : max (tbl i).size.toNat (off + src.length) = (tbl i).size.toNat := by omega
  refine
    { own := hw.own
      fields := by rw [hw.fields]
      size := by rw [hsize, hmax]
      noHoles := fun bn hbn => hw.noHoles hno hoff hfit (by rwa [hmax, ← hsize])
      bytes := fun o ho => hw.bytes_eq hno hfit (by rwa [hmax, ← hsize]) hoff
      same := hw.same
      inodes := fun j hj _ => hw.inodes j hj
      stored := fun hsync => ?_ }
  rw [hw.inodes i hi, hsync]
  refine (hw.inplace fun o ho => hno.addr_ne_zero ?_).symm
  have := ho.2
  omega

end

/-- **`writei`** fails and changes nothing, or writes all of `src`. -/
theorem writei_ok {r : Option Nat} (hL : C.layout = L) (hi : i < L.ninodes) (h : Own L tbl s.disk)
    (ht : (tbl i).type ≠ 0) (hdev : (tbl i).type ≠ T_DEV) (hno : NoHoles s.disk (tbl i))
    (hlen : src.length < 4294967296) (hw : writei C s i (tbl i) off src = .ok (r, x', s')) :
    (r = none ∧ x' = tbl i ∧ s' = s ∧
      ((tbl i).size.toNat < off ∨ MAXFILE * BSIZE < off + src.length)) ∨
    (r = some src.length ∧ off ≤ (tbl i).size.toNat ∧ off + src.length ≤ MAXFILE * BSIZE ∧
      WriteDone L tbl i x' s.disk s'.disk off src) := by
  unfold writei at hw
  have hle := hno.size_le
  rw [if_neg hdev] at hw
  split at hw
  · rename_i hrange
    cases hw
    refine Or.inl ⟨rfl, rfl, rfl, ?_⟩
    rw [MAXFILE_BSIZE] at hle ⊢
    omega
  · rename_i hrange
    split at hw
    · rename_i hmax
      cases hw
      refine Or.inl ⟨rfl, rfl, rfl, Or.inr ?_⟩
      exact Nat.lt_of_lt_of_le hmax (Nat.mod_le _ _)
    · rename_i hmax
      obtain ⟨hoff, hwrap⟩ := not_or.mp hrange
      have hoff : off ≤ (tbl i).size.toNat := Nat.le_of_not_lt hoff
      rw [MAXFILE_BSIZE] at hmax hle
      have hsum : (off + src.length) % 4294967296 = off + src.length :=
        Nat.mod_eq_of_lt (by omega)
      have hfit : off + src.length ≤ MAXFILE * BSIZE := by
        rw [MAXFILE_BSIZE]
        omega
      obtain ⟨⟨x₁, s₁⟩, hloop, hw⟩ := bind_ok.mp hw
      have hwr := writeLoop_ok hL hi h ht (Nat.le_refl _) hfit hloop
      have hsize : x₁.size = (tbl i).size := by rw [hwr.fields]
      right
      dsimp only at hw
      split at hw
      · -- the file has grown, and the inode is stored
        rename_i hgrow
        obtain ⟨s₂, hup, hw⟩ := bind_ok.mp hw
        cases hw
        refine ⟨rfl, hoff, hfit, ?_⟩
        rw [hsize] at hgrow
        have hdisk : s'.disk = setDinode L s₁.disk i
            { x₁ with size := BitVec.ofNat 32 (off + src.length) } := by
          rw [log_write_ok hup, hL]
          rfl
        exact hwr.grown hi ht hno hoff hfit hgrow.2 hdisk
      · rename_i hgrow
        cases hw
        refine ⟨rfl, hoff, hfit, ?_⟩
        rw [hsize] at hgrow
        exact hwr.inside hno hoff hfit hi hgrow

/-! ### `readi` -/

/-- `bmap` for a block that has an address allocates nothing. -/
theorem bmap_eq {bn : Nat} (hbn : bn < MAXFILE) (h : blockAddr s.disk x bn ≠ 0) :
    bmap C s x bn = .ok (blockAddr s.disk x bn, x, s) := by
  unfold bmap
  by_cases hdirect : bn < NDIRECT
  · have haddr : blockAddr s.disk x bn = (x.addr bn).toNat := by
      unfold blockAddr placeOf
      rw [if_pos hdirect, slotAddr_direct (Nat.le_of_lt hdirect)]
    have hz : x.addr bn ≠ 0 := by
      intro hz
      rw [haddr, hz] at h
      exact h rfl
    rw [if_pos hdirect, if_neg hz, haddr]
    rfl
  · have hge : NDIRECT ≤ bn := Nat.le_of_not_lt hdirect
    have hplace : placeOf bn = bn + 1 := if_neg hdirect
    have hroot : x.addr NDIRECT ≠ 0 := by
      intro hz
      unfold blockAddr at h
      rw [hplace, slotAddr_no_root (Nat.lt_succ_of_le hge) hz] at h
      exact h rfl
    have haddr : blockAddr s.disk x bn =
        (entry (s.disk (x.addr NDIRECT).toNat) (bn - NDIRECT)).toNat := by
      unfold blockAddr
      rw [hplace, slotAddr_entry (Nat.lt_add_one_of_le hge) hroot, Nat.add_sub_add_right]
    have hentry : entry (s.disk (x.addr NDIRECT).toNat) (bn - NDIRECT) ≠ 0 := by
      intro hz
      rw [haddr, hz] at h
      exact h rfl
    have hj : bn - NDIRECT < NINDIRECT := by
      have h₁ : MAXFILE = NDIRECT + NINDIRECT := rfl
      omega
    rw [if_neg hdirect, if_pos hj, haddr]
    unfold bmapRoot bmapEntry
    rw [if_neg hroot]
    simp only [bind, Except.bind, pure, Except.pure]
    rw [if_neg hentry]

/-- The bytes `[off, off + n)` of a file. -/
def fileBytes (d : Image) (x : Dinode) (off n : Nat) : List Byte :=
  (List.range n).map (fun j => fileByte d x (off + j))

theorem fileBytes_append (d : Image) (x : Dinode) (off m n : Nat) :
    fileBytes d x off (m + n) = fileBytes d x off m ++ fileBytes d x (off + m) n := by
  unfold fileBytes
  rw [List.range_add, List.map_append, List.map_map]
  congr 2
  funext j
  simp [Nat.add_assoc]

/-- What one round of the loop of `readi` copies. -/
theorem chunk_bytes (d : Image) (x : Dinode) (off n : Nat) :
    (List.range (chunk off n)).map
        (fun j => (d (blockAddr d x (off / BSIZE))).get (off % BSIZE + j)) =
      fileBytes d x off (chunk off n) := by
  refine List.map_congr_left fun j hj => ?_
  have hfit := chunk_fit off n
  have hj := List.mem_range.mp hj
  have hoff := Nat.div_add_mod off BSIZE
  have hdiv : (off + j) / BSIZE = off / BSIZE := by
    refine Nat.div_eq_of_lt_le ?_ ?_
    · rw [Nat.mul_comm]
      omega
    · rw [Nat.succ_mul, Nat.mul_comm]
      omega
  have hmod : (off + j) % BSIZE = off % BSIZE + j := by
    have := Nat.div_add_mod (off + j) BSIZE
    rw [hdiv] at this
    omega
  unfold fileByte
  rw [hdiv, hmod]

/-- **The loop of `readi`** -/
theorem readLoop_eq (hno : NoHoles s.disk x) : ∀ {fuel off n : Nat}, n ≤ fuel →
    off + n ≤ x.size.toNat →
    readLoop C fuel s x off n = .ok (fileBytes s.disk x off n, x, s) := by
  intro fuel
  induction fuel with
  | zero =>
    intro off n hn _
    rw [Nat.le_zero.mp hn]
    rfl
  | succ fuel ih =>
    intro off n hn hend
    rw [readLoop]
    by_cases hzero : n = 0
    · rw [if_pos hzero, hzero]
      rfl
    · have hpos : 0 < n := Nat.pos_of_ne_zero hzero
      have hm : 0 < chunk off n := chunk_pos hpos
      have hle := chunk_le off n
      have hbn : off / BSIZE * BSIZE < x.size.toNat :=
        Nat.lt_of_le_of_lt (Nat.div_mul_le_self off BSIZE) (by omega)
      obtain ⟨hlt, hz⟩ := hno (off / BSIZE) hbn
      rw [if_neg hzero, bmap_eq hlt hz]
      simp only [bind, Except.bind, pure, Except.pure]
      rw [ih (by omega) (by omega), chunk_bytes]
      have hsum : n = chunk off n + (n - chunk off n) := by omega
      dsimp only
      rw [← fileBytes_append, ← hsum]

/-- **`readi`** of a file without holes: -1 behind the end of the file or where
    `off + n` wraps, and otherwise the bytes of the file up to its end. It changes
    neither the inode nor the disk nor the log. -/
theorem readi_eq (hno : NoHoles s.disk x) (hdev : x.type ≠ T_DEV) {n : Nat} (hn : n < 4294967296) :
    readi C s x off n =
      .ok (if x.size.toNat < off ∨ 4294967296 ≤ off + n then none
        else some (fileBytes s.disk x off (min n (x.size.toNat - off))), x, s) := by
  have hle := hno.size_le
  rw [MAXFILE_BSIZE] at hle
  unfold readi
  rw [if_neg hdev]
  by_cases hoff : x.size.toNat < off
  · rw [if_pos (Or.inl hoff), if_pos (Or.inl hoff)]
    rfl
  · by_cases hwrap : 4294967296 ≤ off + n
    · have hmod : (off + n) % 4294967296 < off := by omega
      rw [if_pos (Or.inr hmod), if_pos (Or.inr hwrap)]
      rfl
    · have hmod : (off + n) % 4294967296 = off + n := Nat.mod_eq_of_lt (by omega)
      have hmin : (if x.size.toNat < off + n then x.size.toNat - off else n) =
          min n (x.size.toNat - off) := by
        split <;> omega
      have hgood : ¬ (x.size.toNat < off ∨ off + n < off) := by omega
      have hgood' : ¬ (x.size.toNat < off ∨ 4294967296 ≤ off + n) := by omega
      rw [hmod, if_neg hgood, if_neg hgood', hmin]
      dsimp only
      rw [readLoop_eq hno (Nat.le_refl _) (by omega)]
      rfl

end Xv6.Disk
