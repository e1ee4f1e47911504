import Xv6.Disk.Contents

/-! # Allocating and Freeing Inodes

    `ialloc` takes an inode whose type is zero; `itrunc` gives the blocks of an
    inode back to the bitmap, and `iput` then sets its type to zero.

    - `Released`: the bitmap after some blocks have been given back
    - `itrunc_ok`: what `itrunc` does; the only panic it can meet is that of the
      log
    - `ialloc_ok`: what `ialloc` does
-/

namespace Xv6.Disk

open Function

variable {C : Config} {L : Layout} {tbl tbl' : Nat → Dinode} {d d' : Image} {i k b : Nat}
  {x x' : Dinode} {s s' : Kern}

/-! ### Giving blocks back -/

theorem bfree_ok (h : bfree C s b = .ok s') :
    used C.layout s.disk b = true ∧ s'.disk = markFree C.layout s.disk b := by
  unfold bfree at h
  split at h
  · rename_i hused
    exact ⟨hused, log_write_ok h⟩
  · cases h

/-- The blocks in `p` have been given back; no other block has changed but those of
    the bitmap. -/
structure Released (L : Layout) (d d' : Image) (p : Nat → Prop) : Prop where
  used_iff : ∀ c, c < L.size → (used L d' c = true ↔ used L d c = true ∧ ¬ p c)
  same : ∀ c, L.nmeta ≤ c → d' c = d c
  inodes : ∀ j, j < L.ninodes → dinode L d' j = dinode L d j

theorem Released.none : Released L d d (fun _ => False) where
  used_iff := fun _ _ => by simp
  same := fun _ _ => rfl
  inodes := fun _ _ => rfl

theorem Released.trans {d₁ d₂ : Image} {p q : Nat → Prop} (h₁ : Released L d d₁ p)
    (h₂ : Released L d₁ d₂ q) : Released L d d₂ (fun c => p c ∨ q c) where
  used_iff := fun c hc => by
    rw [h₂.used_iff c hc, h₁.used_iff c hc, and_assoc, not_or]
  same := fun c hc => (h₂.same c hc).trans (h₁.same c hc)
  inodes := fun j hj => (h₂.inodes j hj).trans (h₁.inodes j hj)

theorem Released.congr {p q : Nat → Prop} (h : Released L d d' p)
    (hpq : ∀ c, c < L.size → (p c ↔ q c)) : Released L d d' q where
  used_iff := fun c hc => by rw [h.used_iff c hc, hpq c hc]
  same := h.same
  inodes := h.inodes

theorem Released.one (hb : b < L.size) : Released L d (markFree L d b) (fun c => c = b) where
  used_iff := fun c _ => by
    rw [used_markFree]
    by_cases hcb : c = b
    · simp [hcb]
    · simp [hcb]
  same := fun c hc => by
    refine update_of_ne ?_ _ _
    exact Nat.ne_of_gt (Nat.lt_of_lt_of_le (Layout.bblock_lt hb) hc)
  inodes := fun j hj => dinode_update_of_ne (Ne.symm (Layout.iblock_ne_bblock hj))

/-- The addresses of a list, zeros apart. -/
def InList (as : List Word) (c : Nat) : Prop := c ≠ 0 ∧ ∃ a ∈ as, a.toNat = c

theorem freeAddrs_cons (C : Config) (s : Kern) (a : Word) (as : List Word) :
    freeAddrs C s (a :: as) =
      (if a = 0 then pure s else bfree C s a.toNat) >>= fun s => freeAddrs C s as := rfl

/-- The loops of `itrunc`. -/
theorem freeAddrs_ok (hL : C.layout = L) : ∀ {as : List Word} {s s' : Kern},
    (∀ a ∈ as, a ≠ 0 → a.toNat < L.size) → freeAddrs C s as = .ok s' →
    Released L s.disk s'.disk (InList as)
  | [], s, s', _, h => by
    cases h
    exact Released.none.congr fun c _ => by simp [InList]
  | a :: as, s, s', hlt, h => by
    rw [freeAddrs_cons] at h
    obtain ⟨s₁, h₁, h₂⟩ := bind_ok.mp h
    have hrest := freeAddrs_ok hL (fun a ha => hlt a (List.mem_cons_of_mem _ ha)) h₂
    by_cases hz : a = 0
    · rw [if_pos hz] at h₁
      cases h₁
      refine hrest.congr fun c _ => ?_
      unfold InList
      refine and_congr_right fun hc => ?_
      constructor
      · rintro ⟨w, hw, hwc⟩
        exact ⟨w, List.mem_cons_of_mem _ hw, hwc⟩
      · rintro ⟨w, hw, hwc⟩
        rcases List.mem_cons.mp hw with rfl | hw
        · rw [hz] at hwc
          exact absurd hwc.symm hc
        · exact ⟨w, hw, hwc⟩
    · rw [if_neg hz] at h₁
      obtain ⟨_, hdisk⟩ := bfree_ok h₁
      rw [hL] at hdisk
      rw [hdisk] at hrest
      refine ((Released.one (hlt a List.mem_cons_self hz)).trans hrest).congr fun c _ => ?_
      unfold InList
      constructor
      · rintro (rfl | ⟨hc, w, hw, hwc⟩)
        · exact ⟨toNat_ne_zero hz, a, List.mem_cons_self, rfl⟩
        · exact ⟨hc, w, List.mem_cons_of_mem _ hw, hwc⟩
      · rintro ⟨hc, w, hw, hwc⟩
        rcases List.mem_cons.mp hw with rfl | hw
        · exact Or.inl hwc.symm
        · exact Or.inr ⟨hc, w, hw, hwc⟩

/-! ### `itrunc` -/

/-- The addresses that `itrunc` frees, in the order in which it does. -/
def allAddrs (d : Image) (x : Dinode) : List Word :=
  (List.range NDIRECT).map x.addr ++
    if x.addr NDIRECT = 0 then []
    else (List.range NINDIRECT).map (entry (d (x.addr NDIRECT).toNat)) ++ [x.addr NDIRECT]

theorem freeAddrs_append (C : Config) (s : Kern) (as bs : List Word) :
    freeAddrs C s (as ++ bs) = freeAddrs C s as >>= fun s => freeAddrs C s bs :=
  List.foldlM_append

/-- `itrunc` has emptied the inode and stored it. -/
theorem itrunc_eq (hL : C.layout = L)
    (hroot : x.addr NDIRECT ≠ 0 → L.nmeta ≤ (x.addr NDIRECT).toNat)
    (hlt : ∀ k, k < NDIRECT → x.addr k ≠ 0 → (x.addr k).toNat < L.size) :
    itrunc C s i x = freeAddrs C s (allAddrs s.disk x) >>= fun s₁ =>
      iupdate C s₁ i { x with size := 0, addrs := fun _ => 0 } >>= fun s₂ =>
        pure ({ x with size := 0, addrs := fun _ => 0 }, s₂) := by
  unfold itrunc allAddrs
  rw [freeAddrs_append]
  cases hfirst : freeAddrs C s ((List.range NDIRECT).map x.addr) with
  | error e => rfl
  | ok s₁ =>
    simp only [bind, Except.bind]
    have hrel := freeAddrs_ok hL (fun a ha hz => by
      obtain ⟨k, hk, rfl⟩ := List.mem_map.mp ha
      exact hlt k (List.mem_range.mp hk) hz) hfirst
    unfold freeIndirect
    by_cases hz : x.addr NDIRECT = 0
    · rw [if_pos hz, if_pos hz]
      rfl
    · rw [if_neg hz, if_neg hz, hrel.same _ (hroot hz), freeAddrs_append]
      simp only [bind, Except.bind]
      cases freeAddrs C s₁ ((List.range NINDIRECT).map (entry (s.disk (x.addr NDIRECT).toNat))) with
      | error e => rfl
      | ok s₂ =>
        dsimp only
        rw [freeAddrs_cons, if_neg hz]
        cases bfree C s₂ (x.addr NDIRECT).toNat with
        | error e => rfl
        | ok s₃ => rfl

/-- The addresses are those in the places of the inode. -/
theorem mem_allAddrs {c : Nat} (hc : c ≠ 0) :
    (∃ a ∈ allAddrs d x, a.toNat = c) ↔ ∃ k, k < PLACES ∧ slotAddr d x k = c := by
  have hplaces : PLACES = NDIRECT + 1 + NINDIRECT := rfl
  unfold allAddrs
  constructor
  · rintro ⟨a, ha, rfl⟩
    rcases List.mem_append.mp ha with ha | ha
    · obtain ⟨k, hk, rfl⟩ := List.mem_map.mp ha
      have hk := List.mem_range.mp hk
      exact ⟨k, by omega, slotAddr_direct (Nat.le_of_lt hk)⟩
    · by_cases hz : x.addr NDIRECT = 0
      · rw [if_pos hz] at ha
        exact absurd ha List.not_mem_nil
      · rw [if_neg hz] at ha
        rcases List.mem_append.mp ha with ha | ha
        · obtain ⟨j, hj, rfl⟩ := List.mem_map.mp ha
          have hj := List.mem_range.mp hj
          refine ⟨NDIRECT + 1 + j, by omega, ?_⟩
          rw [slotAddr_entry (by omega) hz, Nat.add_sub_cancel_left]
        · rw [List.mem_singleton.mp ha]
          exact ⟨NDIRECT, by decide, slotAddr_root⟩
  · rintro ⟨k, hk, haddr⟩
    by_cases hd : k < NDIRECT
    · refine ⟨x.addr k, List.mem_append_left _ ?_, ?_⟩
      · exact List.mem_map.mpr ⟨k, List.mem_range.mpr hd, rfl⟩
      · rw [← haddr, slotAddr_direct (Nat.le_of_lt hd)]
    · have hroot : x.addr NDIRECT ≠ 0 := by
        intro hz
        by_cases hkr : k = NDIRECT
        · rw [hkr, slotAddr_root, hz] at haddr
          exact hc haddr.symm
        · rw [slotAddr_no_root (by omega) hz] at haddr
          exact hc haddr.symm
      rw [if_neg hroot]
      by_cases hkr : k = NDIRECT
      · refine ⟨x.addr NDIRECT, List.mem_append_right _ (List.mem_append_right _ ?_), ?_⟩
        · exact List.mem_singleton_self _
        · rw [← haddr, hkr, slotAddr_root]
      · have hj : NDIRECT < k := by omega
        refine ⟨entry (d (x.addr NDIRECT).toNat) (k - (NDIRECT + 1)),
          List.mem_append_right _ (List.mem_append_left _ ?_), ?_⟩
        · exact List.mem_map.mpr ⟨k - (NDIRECT + 1), List.mem_range.mpr (by omega), rfl⟩
        · rw [← haddr, slotAddr_entry hj hroot]

/-- Every address that `itrunc` frees is that of a place of the inode. -/
theorem refs_of_mem_allAddrs (hi : i < L.ninodes) (ht : (tbl i).type ≠ 0) {a : Word}
    (ha : a ∈ allAddrs d (tbl i)) (hz : a ≠ 0) : ∃ k, Refs L tbl d i k a.toNat := by
  obtain ⟨k, hk, haddr⟩ := (mem_allAddrs (toNat_ne_zero hz)).mp ⟨a, ha, rfl⟩
  exact ⟨k, hi, ht, hk, haddr, toNat_ne_zero hz⟩

/-- An inode without an address. -/
def Dinode.Empty (x : Dinode) : Prop := ∀ l, l ≤ NDIRECT → x.addr l = 0

theorem Dinode.Empty.slotAddr (h : x.Empty) (d : Image) (k : Nat) : slotAddr d x k = 0 := by
  by_cases hk : k ≤ NDIRECT
  · rw [slotAddr_direct hk, h k hk]
    rfl
  · exact slotAddr_no_root (Nat.lt_of_not_le hk) (h NDIRECT (Nat.le_refl _))

theorem Dinode.empty_of_addrs {x : Dinode} (h : x.addrs = fun _ => 0) : x.Empty := by
  intro l hl
  unfold Dinode.addr
  rw [h]
  simp

/-- The blocks of inode `i` have been given back and the inode is now empty. -/
theorem Own.release (h : Own L tbl d)
    (hrel : Released L d d' (fun c => ∃ k, Refs L tbl d i k c)) (hx : x.Empty) :
    Own L (update tbl i x) d' := by
  -- the references are those of the other inodes
  have hrefs : ∀ j l c, Refs L (update tbl i x) d' j l c ↔
      j ≠ i ∧ Refs L tbl d j l c := by
    intro j l c
    by_cases hji : j = i
    · subst hji
      constructor
      · intro href
        have haddr := href.addr
        rw [update_self, hx.slotAddr] at haddr
        exact absurd haddr.symm href.ne_zero
      · intro hboth
        exact absurd rfl hboth.1
    · have hslot : j < L.ninodes → (tbl j).type ≠ 0 →
          slotAddr d' (tbl j) l = slotAddr d (tbl j) l := fun hj hjt =>
        slotAddr_congr (fun _ _ => rfl)
          (fun hroot => hrel.same _ (h.range (root_refs hj hjt hroot)).1) l
      constructor
      · rintro ⟨hj, hjt, hl, haddr, hc⟩
        rw [update_of_ne hji] at hjt haddr
        exact ⟨hji, hj, hjt, hl, (hslot hj hjt).symm.trans haddr, hc⟩
      · rintro ⟨_, hj, hjt, hl, haddr, hc⟩
        refine ⟨hj, ?_, hl, ?_, hc⟩
        · rw [update_of_ne hji]
          exact hjt
        · rw [update_of_ne hji, hslot hj hjt, haddr]
  refine ⟨fun href => h.range ((hrefs _ _ _).mp href).2, fun h₁ h₂ =>
    h.inj ((hrefs _ _ _).mp h₁).2 ((hrefs _ _ _).mp h₂).2, fun b hb => ?_⟩
  rw [hrel.used_iff b hb, h.bitmap b hb]
  constructor
  · rintro ⟨hmeta | ⟨j, l, href⟩, hnot⟩
    · exact Or.inl hmeta
    · refine Or.inr ⟨j, l, (hrefs j l b).mpr ⟨?_, href⟩⟩
      rintro rfl
      exact hnot ⟨l, href⟩
  · rintro (hmeta | ⟨j, l, href⟩)
    · refine ⟨Or.inl hmeta, ?_⟩
      rintro ⟨k, href⟩
      exact Nat.not_le.mpr hmeta (h.range href).1
    · obtain ⟨hji, href⟩ := (hrefs j l b).mp href
      refine ⟨Or.inr ⟨j, l, href⟩, ?_⟩
      rintro ⟨k, hi⟩
      exact hji (h.inj href hi).1

/-- An inode from which no block is referenced can be replaced by an empty one. -/
theorem Own.set_empty (h : Own L tbl d) (hnone : ∀ k b, ¬ Refs L tbl d i k b) (hx : x.Empty) :
    Own L (update tbl i x) d := by
  refine h.release (Released.none.congr fun c _ => ?_) hx
  constructor
  · exact False.elim
  · rintro ⟨k, href⟩
    exact hnone k c href

theorem iupdate_ok (hL : C.layout = L) (h : iupdate C s i x = .ok s') :
    s'.disk = setDinode L s.disk i x := by
  subst hL
  exact log_write_ok h

/-- **`itrunc`** of an allocated inode: its blocks are free again, and it is stored
    with size zero and without an address. -/
structure Truncated (L : Layout) (tbl : Nat → Dinode) (i : Nat) (x' : Dinode)
    (d d' : Image) : Prop where
  inode : x' = { tbl i with size := 0, addrs := fun _ => 0 }
  own : Own L (Function.update tbl i x') d'
  same : ∀ c, L.nmeta ≤ c → d' c = d c
  inodes : ∀ j, j < L.ninodes → j ≠ i → dinode L d' j = dinode L d j
  stored : dinode L d' i = x'

section itrunc

variable (hL : C.layout = L) (h : Own L tbl s.disk) (hi : i < L.ninodes)
  (ht : (tbl i).type ≠ 0)

include hL h hi ht

theorem itrunc_run : itrunc C s i (tbl i) =
    freeAddrs C s (allAddrs s.disk (tbl i)) >>= fun s₁ =>
      iupdate C s₁ i { tbl i with size := 0, addrs := fun _ => 0 } >>= fun s₂ =>
        pure ({ tbl i with size := 0, addrs := fun _ => 0 }, s₂) := by
  refine itrunc_eq hL (fun hz => (h.range (Own.root_refs hi ht hz)).1) (fun k hk hz => ?_)
  have hplaces : PLACES = NDIRECT + 1 + NINDIRECT := rfl
  have href : Refs L tbl s.disk i k ((tbl i).addr k).toNat :=
    ⟨hi, ht, by omega, slotAddr_direct (Nat.le_of_lt hk), toNat_ne_zero hz⟩
  exact (h.range href).2

theorem itrunc_ok (hrun : itrunc C s i (tbl i) = .ok (x', s')) :
    Truncated L tbl i x' s.disk s'.disk := by
  rw [itrunc_run hL h hi ht] at hrun
  obtain ⟨s₁, hfree, hrun⟩ := bind_ok.mp hrun
  obtain ⟨s₂, hup, hret⟩ := bind_ok.mp hrun
  cases hret
  have hdisk := iupdate_ok hL hup
  have hrel := freeAddrs_ok hL (fun a ha hz => by
    obtain ⟨k, href⟩ := refs_of_mem_allAddrs hi ht ha hz
    exact (h.range href).2) hfree
  have hrefs : Released L s.disk s₁.disk (fun c => ∃ k, Refs L tbl s.disk i k c) := by
    refine hrel.congr fun c _ => ?_
    constructor
    · rintro ⟨hc, hmem⟩
      obtain ⟨k, hk, haddr⟩ := (mem_allAddrs hc).mp hmem
      exact ⟨k, hi, ht, hk, haddr, hc⟩
    · rintro ⟨k, href⟩
      exact ⟨href.ne_zero, (mem_allAddrs href.ne_zero).mpr ⟨k, href.place_lt, href.addr⟩⟩
  refine ⟨rfl, ?_, fun c hc => ?_, fun j hj hji => ?_, ?_⟩
  · rw [hdisk]
    exact (h.release hrefs (Dinode.empty_of_addrs rfl)).setDinode hi
  · rw [hdisk, setDinode_of_ne (Nat.ne_of_gt (Nat.lt_of_lt_of_le (Layout.iblock_lt_nmeta hi) hc)),
      hrel.same c hc]
  · rw [hdisk, dinode_setDinode_of_ne hji, hrel.inodes j hj]
  · rw [hdisk, dinode_setDinode_self]

end itrunc

/-! ### `ialloc` -/

theorem ialloc_ok {type : BitVec 16} (hL : C.layout = L)
    (hrun : ialloc C s type = .ok (i, s')) :
    0 < i ∧ i < L.ninodes ∧ (dinode L s.disk i).type = 0 ∧
      s'.disk = setDinode L s.disk i (blankDinode type) := by
  unfold ialloc at hrun
  cases hfirst : firstInode C s.disk with
  | none =>
    rw [hfirst] at hrun
    cases hrun
  | some j =>
    rw [hfirst] at hrun
    obtain ⟨s₁, hup, hret⟩ := bind_ok.mp hrun
    cases hret
    unfold firstInode at hfirst
    have hmem := List.mem_of_find?_eq_some hfirst
    have hzero := List.find?_some hfirst
    rw [hL] at hmem hzero
    have hrange := List.mem_range'_1.mp hmem
    exact ⟨by omega, by omega, of_decide_eq_true hzero, iupdate_ok hL hup⟩

end Xv6.Disk
