import Xv6.Heap.Umalloc

/-! # The Free List of the User Heap

    What `free`, `morecore` and `malloc` do to the free list in memory.

    - `FreeList m base bs`: the list through `base` and the blocks `bs`, in
      address order and with a gap behind every block
    - `free_spec`: the search ends, and the list then also covers the freed
      block, joined to its neighbours
    - `mallocLoop_spec`: the search ends, and the block returned comes out of
      the free list or of a new region
-/

namespace Xv6.Umalloc

open Extent

/-- The extent of the free block at `b`, header included. -/
def freeBlock (m : Mem) (b : Nat) : Extent := ⟨b, HEADER * size m b⟩

/-- `b` lies behind the block at `a` and does not touch it. -/
def Before (m : Mem) (a b : Nat) : Prop := a + HEADER * size m a < b

/-- The free list: circular through `base` and `bs`, in address order, with no
    two blocks touching. -/
structure FreeList (m : Mem) (base : Nat) (bs : List Nat) : Prop where
  ring : RingList (ptr m) base bs
  spaced : (base :: bs).Pairwise (Before m)
  base_pos : 0 < base
  base_lt : base + HEADER < ADDRSPACE
  base_size : size m base = 0
  nonempty : ∀ b ∈ bs, 0 < size m b
  above : ∀ b ∈ bs, base + HEADER ≤ b
  below : ∀ b ∈ bs, b + HEADER * size m b < ADDRSPACE

variable {sb : Sbrk} {m m' : Mem} {base bp p u fuel : Nat} {bs pre post A : List Nat} {n b q : Nat}
  {l : List Nat}

theorem header_le (h : 0 < n) : HEADER ≤ HEADER * n := Nat.le_mul_of_pos_right _ h

namespace FreeList

variable (h : FreeList m base bs)

include h

theorem lt_of_spaced : (base :: bs).Pairwise (· < ·) :=
  h.spaced.imp fun hab => Nat.lt_of_le_of_lt (Nat.le_add_right _ _) hab

theorem header_lt (hb : b ∈ base :: bs) : b + HEADER < ADDRSPACE := by
  rcases List.mem_cons.mp hb with rfl | hb
  · exact h.base_lt
  · have h₁ := h.below b hb
    have h₂ := header_le (h.nonempty b hb)
    omega

theorem pos (hb : b ∈ base :: bs) : 0 < b := by
  rcases List.mem_cons.mp hb with rfl | hb
  · exact h.base_pos
  · have h₁ := h.above b hb
    have h₂ := h.base_pos
    omega

/-- The headers of the list do not overlap. -/
theorem clear :
    (base :: bs).Pairwise Clear := by
  obtain ⟨_, htail⟩ := List.pairwise_cons.mp h.spaced
  refine List.pairwise_cons.mpr ⟨fun b hb => Or.inl (h.above b hb), ?_⟩
  refine htail.imp_of_mem fun {a b} ha _ hab => Or.inl ?_
  have h₁ := header_le (h.nonempty a ha)
  unfold Before at hab
  omega

theorem clear_of_ne {a : Nat} (ha : a ∈ base :: bs) (hb : b ∈ base :: bs) (hne : a ≠ b) :
    Clear a b :=
  h.clear.forall ha hb hne

end FreeList

/-! ### The search of `free` -/

/-- Where `bp` belongs: behind the blocks `pre` and before the blocks `post`,
    touching them at most. -/
structure Place (m : Mem) (base : Nat) (pre post : List Nat) (bp u : Nat) : Prop where
  list : FreeList m base (pre ++ post)
  size_eq : size m bp = u
  units_pos : 0 < u
  above : base + HEADER ≤ bp
  below : bp + HEADER * u < ADDRSPACE
  lower : ∀ b ∈ pre, b + HEADER * size m b ≤ bp
  upper : ∀ b ∈ post, bp + HEADER * u ≤ b

/-- A sorted list is cut at an address that none of its members has. -/
theorem exists_cut (hl : l.Pairwise (· < ·)) (hx : bp ∉ l) :
    ∃ pre post, l = pre ++ post ∧ (∀ b ∈ pre, b < bp) ∧ (∀ b ∈ post, bp < b) := by
  induction l with
  | nil => exact ⟨[], [], rfl, by simp, by simp⟩
  | cons a l ih =>
    obtain ⟨ha, hl⟩ := List.pairwise_cons.mp hl
    obtain ⟨hne, hx⟩ := not_or.mp (mt List.mem_cons.mpr hx)
    rcases Nat.lt_or_gt_of_ne hne with hlt | hgt
    · refine ⟨[], a :: l, rfl, by simp, ?_⟩
      intro b hb
      rcases List.mem_cons.mp hb with rfl | hb
      · exact hlt
      · exact Nat.lt_trans hlt (ha b hb)
    · obtain ⟨pre, post, rfl, hpre, hpost⟩ := ih hl hx
      refine ⟨a :: pre, post, rfl, ?_, hpost⟩
      intro b hb
      rcases List.mem_cons.mp hb with rfl | hb
      · exact hgt
      · exact hpre b hb

/-- A block apart from all free blocks has its place in the list. -/
theorem FreeList.exists_place (h : FreeList m base bs) (hsize : size m bp = u) (hu : 0 < u)
    (habove : base + HEADER ≤ bp) (hbelow : bp + HEADER * u < ADDRSPACE)
    (hapart : ∀ b ∈ bs, Apart ⟨bp, HEADER * u⟩ (freeBlock m b)) :
    ∃ pre post, bs = pre ++ post ∧ Place m base pre post bp u := by
  have hlen := header_le hu
  have hsorted : bs.Pairwise (· < ·) := (List.pairwise_cons.mp h.lt_of_spaced).2
  have hnot : bp ∉ bs := by
    intro hmem
    have h₁ := hapart bp hmem
    have h₂ := header_le (h.nonempty bp hmem)
    unfold Apart stop freeBlock HEADER at h₁
    unfold HEADER at hlen h₂
    dsimp only at h₁
    omega
  obtain ⟨pre, post, rfl, hpre, hpost⟩ := exists_cut hsorted hnot
  refine ⟨pre, post, rfl, h, hsize, hu, habove, hbelow, ?_, ?_⟩
  · intro b hb
    have h₁ := hapart b (List.mem_append_left _ hb)
    have h₂ := hpre b hb
    unfold Apart stop freeBlock HEADER at h₁
    unfold HEADER at hlen ⊢
    dsimp only at h₁
    omega
  · intro b hb
    have h₁ := hapart b (List.mem_append_right _ hb)
    have h₂ := hpost b hb
    have h₃ := header_le (h.nonempty b (List.mem_append_right _ hb))
    unfold Apart stop freeBlock HEADER at h₁
    unfold HEADER at hlen h₃ ⊢
    dsimp only at h₁
    omega

namespace Place

variable (h : Place m base pre post bp u)

include h

/-- `p` is the last member before `bp`. -/
theorem lt_of_mem (hb : b ∈ base :: pre) : b < bp := by
  rcases List.mem_cons.mp hb with rfl | hb
  · have := h.above
    unfold HEADER at this
    omega
  · have h₁ := h.lower b hb
    have h₂ := header_le (h.list.nonempty b (List.mem_append_left _ hb))
    unfold HEADER at h₁ h₂
    omega

theorem gt_of_mem (hb : b ∈ post) : bp < b := by
  have h₁ := h.upper b hb
  have h₂ := header_le h.units_pos
  unfold HEADER at h₁ h₂
  omega

/-- The search stops at the last member before `bp`, and nowhere else. -/
theorem found_iff (hA : base :: pre = A ++ [p]) (hq : q ∈ base :: (pre ++ post)) :
    placeFound m bp q = true ↔ q = p := by
  have hmem : base :: (pre ++ post) = A ++ p :: post := by
    rw [← List.cons_append, hA]
    simp
  have hring : (A ++ p :: (post ++ [base])).IsChain (fun x y => ptr m x = y) := by
    have := h.list.ring
    unfold RingList at this
    rw [hmem] at this
    simpa using this
  have hlt := h.list.lt_of_spaced
  rw [hmem] at hq hlt
  obtain ⟨hAlt, hpostlt, hApost⟩ := List.pairwise_append.mp hlt
  have hAbp : ∀ x ∈ A ++ [p], x < bp := fun x hx => h.lt_of_mem (hA ▸ hx)
  have hfound : ∀ x, placeFound m bp x = true ↔
      (x < bp ∧ bp < ptr m x) ∨ (ptr m x ≤ x ∧ (x < bp ∨ bp < ptr m x)) := by
    intro x
    simp [placeFound]
  rw [hfound]
  rcases List.mem_append.mp hq with hqA | hqp
  · -- a member before `p`: its successor is above it and still below `bp`
    obtain ⟨A₁, A₂, rfl⟩ := List.append_of_mem hqA
    obtain ⟨y, rest, hrest⟩ : ∃ y rest, A₂ ++ [p] = y :: rest :=
      List.exists_cons_of_ne_nil (by simp)
    have hnext : ptr m q = y := by
      have hcut : (A₁ ++ q :: y :: (rest ++ (post ++ [base]))).IsChain
          (fun x y => ptr m x = y) := by
        have : A₁ ++ q :: A₂ ++ p :: (post ++ [base]) =
            A₁ ++ q :: ((A₂ ++ [p]) ++ (post ++ [base])) := by simp
        rw [this, hrest] at hring
        simpa using hring
      exact (List.isChain_append_cons_cons.mp hcut).2.1
    have hy : y ∈ A₂ ++ [p] := by rw [hrest]; exact List.mem_cons_self
    have hybp : y < bp := hAbp y (by
      rcases List.mem_append.mp hy with hy | hy
      · exact List.mem_append_left _ (List.mem_append_right _ (List.mem_cons_of_mem _ hy))
      · exact List.mem_append_right _ hy)
    have hqy : q < y := by
      rcases List.mem_append.mp hy with hy | hy
      · exact (List.pairwise_cons.mp (List.pairwise_append.mp hAlt).2.1).1 y hy
      · rw [List.mem_singleton.mp hy]
        exact hApost q hqA p List.mem_cons_self
    have hqp : q < p := hApost q hqA p List.mem_cons_self
    rw [hnext]
    omega
  · rcases List.mem_cons.mp hqp with rfl | hqpost
    · -- `p` itself: its successor is above `bp`, or is `base`
      have hqbp : q < bp := hAbp q (by simp)
      cases post with
      | nil =>
        have hnext : ptr m q = base := (List.isChain_append_cons_cons.mp hring).2.1
        have hbase : base ≤ q := by
          have : base ∈ A ++ [q] := hA ▸ List.mem_cons_self
          rcases List.mem_append.mp this with hb | hb
          · exact Nat.le_of_lt (hApost base hb q List.mem_cons_self)
          · exact Nat.le_of_eq (List.mem_singleton.mp hb)
        rw [hnext]
        omega
      | cons c post =>
        have hnext : ptr m q = c := (List.isChain_append_cons_cons.mp hring).2.1
        have := h.gt_of_mem (b := c) List.mem_cons_self
        rw [hnext]
        omega
    · -- a member behind `bp`: its successor is above it, or is `base`
      have hqbp := h.gt_of_mem hqpost
      have hbase := h.lt_of_mem (b := base) List.mem_cons_self
      have hpq : p < q := (List.pairwise_cons.mp hpostlt).1 q hqpost
      obtain ⟨P₁, P₂, rfl⟩ := List.append_of_mem hqpost
      have hnext : ptr m q = base ∨ q < ptr m q := by
        have hcut : ((A ++ p :: P₁) ++ q :: (P₂ ++ [base])).IsChain (fun x y => ptr m x = y) := by
          simpa using hring
        cases P₂ with
        | nil => exact Or.inl (List.isChain_append_cons_cons.mp hcut).2.1
        | cons y P₂ =>
          right
          rw [(List.isChain_append_cons_cons.mp hcut).2.1]
          have hsub := (List.pairwise_append.mp (List.pairwise_cons.mp hpostlt).2).2.1
          exact (List.pairwise_cons.mp hsub).1 y List.mem_cons_self
      omega

/-- The search ends at the last member before `bp`. -/
theorem search_eq (hA : base :: pre = A ++ [p]) {freep : Nat}
    (hfreep : freep ∈ base :: (pre ++ post)) (hfuel : (pre ++ post).length < fuel) :
    RingList.search (ptr m) (placeFound m bp) fuel freep = some p := by
  obtain ⟨l, hl, hrot⟩ := h.list.ring.exists_enter hfreep
  have hmem : ∀ y, y ∈ freep :: l ↔ y ∈ base :: (pre ++ post) := fun y => hrot.mem_iff
  have hlen : l.length = (pre ++ post).length := by
    have := hrot.perm.length_eq
    simpa using this
  have hp : p ∈ base :: (pre ++ post) := by
    have : p ∈ base :: pre := by rw [hA]; simp
    rcases List.mem_cons.mp this with h | h
    · exact h ▸ List.mem_cons_self
    · exact List.mem_cons_of_mem _ (List.mem_append_left _ h)
  refine RingList.search_chain (List.isChain_append.mp hl).1 ((hmem p).mpr hp) (fun y hy => ?_) (by omega)
  exact h.found_iff hA ((hmem y).mp hy)

theorem clear_lower (hb : b ∈ base :: pre) : Clear b bp := by
  rcases List.mem_cons.mp hb with rfl | hb
  · exact Or.inl h.above
  · have h₁ := h.lower b hb
    have h₂ := header_le (h.list.nonempty b (List.mem_append_left _ hb))
    exact Or.inl (by omega)

theorem clear_upper (hb : b ∈ post) : Clear b bp := by
  have h₁ := h.upper b hb
  have h₂ := header_le h.units_pos
  exact Or.inr (by omega)

/-- The list cut before `bp`. -/
theorem chain_cut (hA : base :: pre = A ++ [p]) :
    (A ++ [p]).IsChain (fun x y => ptr m x = y) ∧
      (p :: (post ++ [base])).IsChain (fun x y => ptr m x = y) := by
  have hring := h.list.ring
  unfold RingList at hring
  have heq : base :: (pre ++ post) ++ [base] = A ++ p :: (post ++ [base]) := by
    rw [← List.cons_append, hA]
    simp
  rw [heq] at hring
  exact List.isChain_split.mp hring

end Place

/-! ### Joining a freed block to its neighbours -/

/-- A node linked in before a chain that the edit has left alone. -/
theorem chain_link (hchain : (l ++ [base]).IsChain (fun x y => ptr m x = y))
    (hhead : (l ++ [base]).head? = some (ptr m' p)) (hsame : ∀ b ∈ l, ptr m' b = ptr m b) :
    (p :: (l ++ [base])).IsChain (fun x y => ptr m' x = y) := by
  refine List.isChain_cons.mpr ⟨fun y hy => ?_, RingList.transport hchain fun x hx => ?_⟩
  · rw [hhead] at hy
    exact Option.some.inj hy
  · rw [List.dropLast_concat] at hx
    exact hsame x hx

/-- What `bp` and the members behind it are once `bp` has been joined or linked
    to its upper neighbour. -/
structure Upper (m m' : Mem) (base : Nat) (post post' : List Nat) (bp u u' : Nat) : Prop where
  chain : (bp :: (post' ++ [base])).IsChain (fun x y => ptr m' x = y)
  spaced : (bp :: post').Pairwise (Before m')
  size_eq : size m' bp = u'
  units_le : u ≤ u'
  below : bp + HEADER * u' < ADDRSPACE
  suffix : post' <:+ post
  cover_eq : ∀ x, cover (freeBlock m' bp :: post'.map (freeBlock m')) x =
    cover (⟨bp, HEADER * u⟩ :: post.map (freeBlock m)) x
  same : ∀ x, ¬ (header bp).Has x → m'.get x = m.get x

/-- Blocks whose headers an edit has left alone are where they were. -/
theorem map_freeBlock_congr (h : ∀ b ∈ l, size m' b = size m b) :
    l.map (freeBlock m') = l.map (freeBlock m) := by
  refine List.map_congr_left fun b hb => ?_
  unfold freeBlock
  rw [h b hb]

theorem pairwise_before_congr (hl : l.Pairwise (Before m)) (h : ∀ b ∈ l, size m' b = size m b) :
    l.Pairwise (Before m') := by
  refine hl.imp_of_mem fun {a b} ha _ hab => ?_
  unfold Before at hab ⊢
  rw [h a ha]
  exact hab

/-- Headers clear of the only one that was written. -/
theorem same_of_clear (hsame : ∀ x, ¬ (header bp).Has x → m'.get x = m.get x) (hb : Clear b bp) :
    ptr m' b = ptr m b ∧ size m' b = size m b :=
  header_congr fun x hx => hsame x (not_header_of_clear hb hx)

/-- The block is only linked in. -/
theorem Place.link_upper (h : Place m base pre post bp u) (hA : base :: pre = A ++ [p])
    (hne : ∀ b ∈ post, bp + HEADER * u < b) :
    Upper m (setPtr m bp (ptr m p)) base post post bp u u := by
  have hsame : ∀ x, ¬ (header bp).Has x → (setPtr m bp (ptr m p)).get x = m.get x :=
    fun x hx => get_setPtr hx
  have hclear : ∀ b ∈ post, ptr (setPtr m bp (ptr m p)) b = ptr m b ∧
      size (setPtr m bp (ptr m p)) b = size m b := fun b hb =>
    same_of_clear hsame (h.clear_upper hb)
  have hlen := header_le h.units_pos
  have hself : ptr (setPtr m bp (ptr m p)) bp = ptr m p :=
    ptr_setPtr_self (by have := h.below; omega) ptr_lt
  obtain ⟨_, htail⟩ := List.isChain_cons.mp (h.chain_cut hA).2
  have hpost : post.Pairwise (Before m) :=
    (List.pairwise_append.mp (List.pairwise_cons.mp h.list.spaced).2).2.1
  refine
    { chain := chain_link htail ?_ (fun b hb => (hclear b hb).1)
      spaced := List.pairwise_cons.mpr
        ⟨fun b hb => ?_, pairwise_before_congr hpost (fun b hb => (hclear b hb).2)⟩
      size_eq := size_setPtr_self.trans h.size_eq
      units_le := Nat.le_refl u
      below := h.below
      suffix := List.suffix_refl post
      cover_eq := fun x => ?_
      same := hsame }
  · rw [hself]
    exact RingList.head?_of_chain (h.chain_cut hA).2 (by simp)
  · unfold Before
    rw [size_setPtr_self, h.size_eq]
    exact hne b hb
  · have hbp : freeBlock (setPtr m bp (ptr m p)) bp = ⟨bp, HEADER * u⟩ := by
      unfold freeBlock
      rw [size_setPtr_self, h.size_eq]
    rw [hbp, map_freeBlock_congr fun b hb => (hclear b hb).2]

/-- The block is joined to the one behind it. -/
theorem Place.join_upper {c : Nat} (h : Place m base pre (c :: post) bp u)
    (hA : base :: pre = A ++ [p]) (htouch : bp + HEADER * u = c) :
    Upper m (setPtr (setSize m bp (u + size m c)) bp (ptr m c)) base (c :: post) post bp u
      (u + size m c) := by
  obtain ⟨m₁, hm₁⟩ : ∃ m₁, setPtr (setSize m bp (u + size m c)) bp (ptr m c) = m₁ := ⟨_, rfl⟩
  have hsame : ∀ x, ¬ (header bp).Has x → m₁.get x = m.get x := by
    intro x hx
    rw [← hm₁, get_setPtr hx, get_setSize hx]
  have hclear : ∀ b ∈ c :: post, ptr m₁ b = ptr m b ∧ size m₁ b = size m b := fun b hb =>
    same_of_clear hsame (h.clear_upper hb)
  have hlen := header_le h.units_pos
  have hcbelow := h.list.below c (List.mem_append_right _ List.mem_cons_self)
  have hmul : HEADER * (u + size m c) = HEADER * u + HEADER * size m c := Nat.mul_add _ _ _
  have hbelow : bp + HEADER * (u + size m c) < ADDRSPACE := by omega
  have hsizelt : u + size m c < ADDRSPACE := by
    unfold HEADER at hbelow
    omega
  have hbp : bp + HEADER ≤ ADDRSPACE := by have := h.below; omega
  have hsize : size m₁ bp = u + size m c := by
    rw [← hm₁, size_setPtr_self, size_setSize_self hbp hsizelt]
  have hptr : ptr m₁ bp = ptr m c := by
    rw [← hm₁, ptr_setPtr_self hbp ptr_lt]
  have htail : (c :: (post ++ [base])).IsChain (fun x y => ptr m x = y) :=
    (List.isChain_cons.mp (h.chain_cut hA).2).2
  obtain ⟨_, hrest⟩ := List.isChain_cons.mp htail
  have hspaced : (c :: post).Pairwise (Before m) :=
    (List.pairwise_append.mp (List.pairwise_cons.mp h.list.spaced).2).2.1
  obtain ⟨hc, hpost⟩ := List.pairwise_cons.mp hspaced
  have hclear' : ∀ b ∈ post, ptr m₁ b = ptr m b ∧ size m₁ b = size m b :=
    fun b hb => hclear b (List.mem_cons_of_mem _ hb)
  rw [hm₁]
  refine
    { chain := chain_link hrest ?_ (fun b hb => (hclear' b hb).1)
      spaced := List.pairwise_cons.mpr
        ⟨fun b hb => ?_, pairwise_before_congr hpost (fun b hb => (hclear' b hb).2)⟩
      size_eq := hsize
      units_le := Nat.le_add_right _ _
      below := hbelow
      suffix := List.suffix_cons c post
      cover_eq := fun x => ?_
      same := hsame }
  · rw [hptr]
    exact RingList.head?_of_chain htail (by simp)
  · -- the gap behind `bp` is now the one behind its former neighbour
    have := hc b hb
    unfold Before at this ⊢
    rw [hsize]
    omega
  · have hsplit := has_split bp (HEADER * u) (HEADER * size m c) x
    rw [htouch, ← hmul] at hsplit
    rw [map_freeBlock_congr fun b hb => (hclear' b hb).2]
    simp only [List.map_cons, cover_cons, freeBlock, hsize]
    omega

/-- `free` up to its first `if`. -/
theorem Place.joinUpper_spec (h : Place m base pre post bp u) (hA : base :: pre = A ++ [p]) :
    ∃ post' u', Upper m (joinUpper m bp p) base post post' bp u u' := by
  have hafter : after bp (size m bp) = bp + HEADER * u := by
    rw [h.size_eq]
    exact after_of_lt h.below
  have hhead := (List.isChain_cons.mp (h.chain_cut hA).2).1
  unfold joinUpper
  rw [hafter]
  cases post with
  | nil =>
    have hnext : ptr m p = base := hhead base rfl
    have hne : bp + HEADER * u ≠ ptr m p := by
      have := h.lt_of_mem List.mem_cons_self
      omega
    rw [if_neg hne]
    exact ⟨[], u, h.link_upper hA (by simp)⟩
  | cons c post =>
    have hnext : ptr m p = c := hhead c rfl
    by_cases htouch : bp + HEADER * u = c
    · have hclear := h.clear_upper (b := c) List.mem_cons_self
      have hp : Clear p bp := h.clear_lower (by rw [hA]; simp)
      rw [if_pos (htouch.trans hnext.symm)]
      dsimp only
      rw [ptr_setSize_of_clear hp, hnext, ptr_setSize_of_clear hclear, h.size_eq]
      exact ⟨post, u + size m c, h.join_upper hA htouch⟩
    · rw [if_neg (by rw [hnext]; exact htouch)]
      refine ⟨c :: post, u, h.link_upper hA fun b hb => ?_⟩
      have hup := h.upper c List.mem_cons_self
      have hlt := (List.pairwise_append.mp (List.pairwise_cons.mp h.list.lt_of_spaced).2).2.1
      rcases List.mem_cons.mp hb with rfl | hb
      · omega
      · have := (List.pairwise_cons.mp hlt).1 b hb
        omega

theorem Place.mem_lower (h : base :: pre = A ++ [p]) : p ∈ base :: pre := by
  rw [h]
  simp

theorem Place.clear_of_behind (h : Place m base pre post bp u) (hA : base :: pre = A ++ [p])
    (hb : b = bp ∨ b ∈ post) : Clear b p := by
  have hp := mem_lower hA
  rcases hb with rfl | hb
  · exact (h.clear_lower hp).symm
  · refine h.list.clear_of_ne ?_ ?_ ?_
    · exact List.mem_cons_of_mem _ (List.mem_append_right _ hb)
    · rcases List.mem_cons.mp hp with hp | hp
      · exact hp ▸ List.mem_cons_self
      · exact List.mem_cons_of_mem _ (List.mem_append_left _ hp)
    · have h₁ := h.lt_of_mem hp
      have h₂ := h.gt_of_mem hb
      omega

/-- The list put together again: the members up to `p`, whose header alone has
    changed, and behind it the members `T`. -/
theorem Place.relink (h : Place m base pre post bp u) (hA : base :: pre = A ++ [p])
    {m₁ m₂ : Mem} {T : List Nat}
    (hsame₁ : ∀ x, ¬ (header bp).Has x → m₁.get x = m.get x)
    (hsame₂ : ∀ x, ¬ (header p).Has x → m₂.get x = m₁.get x)
    (hT : ∀ b ∈ T, b = bp ∨ b ∈ post)
    (hchain : (T ++ [base]).IsChain (fun x y => ptr m₁ x = y))
    (hhead : (T ++ [base]).head? = some (ptr m₂ p))
    (hspaced : T.Pairwise (Before m₁))
    (hcross : ∀ b ∈ T, Before m₂ p b)
    (hsize : ∀ b ∈ T, 0 < size m₁ b ∧ b + HEADER * size m₁ b < ADDRSPACE)
    (hp : p + HEADER * size m₂ p < ADDRSPACE) (hgrow : size m p ≤ size m₂ p)
    (hbase : p = base → size m₂ p = 0) :
    FreeList m₂ base (pre ++ T) := by
  have hppre := mem_lower hA
  have hTclear : ∀ b ∈ T, ptr m₂ b = ptr m₁ b ∧ size m₂ b = size m₁ b := fun b hb =>
    same_of_clear hsame₂ (h.clear_of_behind hA (hT b hb))
  have hpremem : ∀ b ∈ base :: pre, b ∈ base :: (pre ++ post) := by
    intro b hb
    rcases List.mem_cons.mp hb with hb | hb
    · exact hb ▸ List.mem_cons_self
    · exact List.mem_cons_of_mem _ (List.mem_append_left _ hb)
  have hsorted : (A ++ [p]).Pairwise (· < ·) := by
    rw [← hA]
    exact h.list.lt_of_spaced.sublist (List.sublist_append_left (base :: pre) post)
  have hAlt : ∀ a ∈ A, a < p := fun a ha =>
    (List.pairwise_append.mp hsorted).2.2 a ha p (List.mem_singleton_self p)
  -- the members before `p` have kept their headers
  have hlow : ∀ b ∈ base :: pre, b ≠ p → ptr m₂ b = ptr m b ∧ size m₂ b = size m b := by
    intro b hb hne
    have h₁ := same_of_clear hsame₁ (h.clear_lower hb)
    have h₂ := same_of_clear hsame₂ (h.list.clear_of_ne (hpremem b hb) (hpremem p hppre) hne)
    exact ⟨h₂.1.trans h₁.1, h₂.2.trans h₁.2⟩
  have hAmem : ∀ a ∈ A, a ∈ base :: pre := fun a ha => by
    rw [hA]
    exact List.mem_append_left _ ha
  have hTgt : ∀ b ∈ T, bp ≤ b := by
    intro b hb
    rcases hT b hb with rfl | hb
    · exact Nat.le_refl _
    · exact Nat.le_of_lt (h.gt_of_mem hb)
  refine
    { ring := ?_
      spaced := ?_
      base_pos := h.list.base_pos
      base_lt := h.list.base_lt
      base_size := ?_
      nonempty := ?_
      above := ?_
      below := ?_ }
  · -- the two chains meet at `p`
    unfold RingList
    have heq : base :: (pre ++ T) ++ [base] = A ++ p :: (T ++ [base]) := by
      rw [← List.cons_append, hA]
      simp
    rw [heq]
    refine List.isChain_split.mpr ⟨RingList.transport (h.chain_cut hA).1 fun x hx => ?_, ?_⟩
    · rw [List.dropLast_concat] at hx
      exact (hlow x (hAmem x hx) (Nat.ne_of_lt (hAlt x hx))).1
    · exact chain_link hchain hhead fun b hb => (hTclear b hb).1
  · rw [← List.cons_append]
    refine List.pairwise_append.mpr ⟨?_, ?_, ?_⟩
    · -- no member lies behind `p` here, so its new size does not matter
      have hold := h.list.spaced.sublist (List.sublist_append_left (base :: pre) post)
      rw [hA] at hold ⊢
      obtain ⟨hAA, _, hAp⟩ := List.pairwise_append.mp hold
      refine List.pairwise_append.mpr ⟨?_, List.pairwise_singleton _ _, ?_⟩
      · refine pairwise_before_congr hAA fun a ha => ?_
        exact (hlow a (hAmem a ha) (Nat.ne_of_lt (hAlt a ha))).2
      · intro a ha b hb
        have := hAp a ha b hb
        unfold Before at this ⊢
        rwa [(hlow a (hAmem a ha) (Nat.ne_of_lt (hAlt a ha))).2]
    · exact pairwise_before_congr hspaced fun b hb => (hTclear b hb).2
    · intro a ha b hb
      by_cases hap : a = p
      · exact hap ▸ hcross b hb
      · unfold Before
        rw [(hlow a ha hap).2]
        have haA : a ∈ A := by
          rw [hA] at ha
          rcases List.mem_append.mp ha with ha | ha
          · exact ha
          · exact absurd (List.mem_singleton.mp ha) hap
        have hold := h.list.spaced.sublist (List.sublist_append_left (base :: pre) post)
        rw [hA] at hold
        have h₁ : a + HEADER * size m a < p :=
          (List.pairwise_append.mp hold).2.2 a haA p (List.mem_singleton_self p)
        have h₂ := h.lt_of_mem hppre
        have h₃ := hTgt b hb
        omega
  · by_cases hbp : p = base
    · rw [← hbp]
      exact hbase hbp
    · rw [(hlow base List.mem_cons_self (Ne.symm hbp)).2]
      exact h.list.base_size
  · intro b hb
    rcases List.mem_append.mp hb with hb | hb
    · have hold := h.list.nonempty b (List.mem_append_left _ hb)
      by_cases hbp : b = p
      · subst hbp
        exact Nat.lt_of_lt_of_le hold hgrow
      · rwa [(hlow b (List.mem_cons_of_mem _ hb) hbp).2]
    · rw [(hTclear b hb).2]
      exact (hsize b hb).1
  · intro b hb
    rcases List.mem_append.mp hb with hb | hb
    · exact h.list.above b (List.mem_append_left _ hb)
    · exact Nat.le_trans h.above (hTgt b hb)
  · intro b hb
    rcases List.mem_append.mp hb with hb | hb
    · by_cases hbp : b = p
      · exact hbp ▸ hp
      · rw [(hlow b (List.mem_cons_of_mem _ hb) hbp).2]
        exact h.list.below b (List.mem_append_left _ hb)
    · rw [(hTclear b hb).2]
      exact (hsize b hb).2

/-- What `free` leaves behind: a free list that also covers the freed block, of
    which one block has at least its size, and no other byte changed than those
    of two headers. -/
structure Freed (m m' : Mem) (base : Nat) (bs bs' : List Nat) (bp u p : Nat) : Prop where
  list : FreeList m' base bs'
  mem : p ∈ base :: bs'
  was_mem : p ∈ base :: bs
  cover_eq : ∀ x, cover (bs'.map (freeBlock m')) x =
    (if Has ⟨bp, HEADER * u⟩ x then 1 else 0) + cover (bs.map (freeBlock m)) x
  room : ∃ b ∈ bs', u ≤ size m' b
  length_le : bs'.length ≤ bs.length + 1
  same : ∀ x, ¬ (header bp).Has x → ¬ (header p).Has x → m'.get x = m.get x

section lower

variable {m₁ : Mem} {post' : List Nat} {u' : Nat}

theorem Upper.mem_behind (hup : Upper m m₁ base post post' bp u u') (hb : b ∈ bp :: post') :
    b = bp ∨ b ∈ post := by
  rcases List.mem_cons.mp hb with hb | hb
  · exact Or.inl hb
  · exact Or.inr (hup.suffix.subset hb)

theorem Upper.size_ok (h : Place m base pre post bp u) (hup : Upper m m₁ base post post' bp u u')
    (hb : b ∈ bp :: post') : 0 < size m₁ b ∧ b + HEADER * size m₁ b < ADDRSPACE := by
  rcases List.mem_cons.mp hb with rfl | hb
  · rw [hup.size_eq]
    exact ⟨Nat.lt_of_lt_of_le h.units_pos hup.units_le, hup.below⟩
  · have hpost := hup.suffix.subset hb
    rw [(same_of_clear hup.same (h.clear_upper hpost)).2]
    exact ⟨h.list.nonempty b (List.mem_append_right _ hpost),
      h.list.below b (List.mem_append_right _ hpost)⟩

theorem Place.mem_left (hA : base :: pre = A ++ [p]) (l : List Nat) : p ∈ base :: (pre ++ l) := by
  rcases List.mem_cons.mp (mem_lower hA) with hp | hp
  · exact hp ▸ List.mem_cons_self
  · exact List.mem_cons_of_mem _ (List.mem_append_left _ hp)

variable (h : Place m base pre post bp u) (hA : base :: pre = A ++ [p])

include h hA

/-- `p` does not reach beyond `bp`. -/
theorem Place.lower_le : p + HEADER * size m p ≤ bp := by
  rcases List.mem_cons.mp (mem_lower hA) with rfl | hp
  · have := h.above
    rw [h.list.base_size]
    omega
  · exact h.lower p hp

variable (hup : Upper m m₁ base post post' bp u u')

include hup

/-- `p` is linked to `bp`. -/
theorem Place.link_lower (hne : p + HEADER * size m p ≠ bp) :
    Freed m (setPtr m₁ p bp) base (pre ++ post) (pre ++ bp :: post') bp u p := by
  have hple := h.lower_le hA
  have hlen := header_le h.units_pos
  have hbelow := h.below
  have hsize₁ : ∀ b ∈ base :: pre, size m₁ b = size m b := fun b hb =>
    (same_of_clear hup.same (h.clear_lower hb)).2
  have hclear : ∀ b ∈ bp :: post', Clear b p := fun b hb =>
    h.clear_of_behind hA (hup.mem_behind hb)
  have hptr : ptr (setPtr m₁ p bp) p = bp :=
    ptr_setPtr_self (Nat.le_of_lt (h.list.header_lt (mem_left hA post))) (by omega)
  have hpsize : size (setPtr m₁ p bp) p = size m p :=
    size_setPtr_self.trans (hsize₁ p (mem_lower hA))
  refine
    { list := h.relink hA hup.same (fun x hx => get_setPtr hx) (fun b hb => hup.mem_behind hb)
        hup.chain (by rw [hptr]; rfl) hup.spaced (fun b hb => ?_) (fun b hb => hup.size_ok h hb)
        (by rw [hpsize]; omega) (Nat.le_of_eq hpsize.symm) (fun hpb => ?_)
      mem := mem_left hA _
      was_mem := mem_left hA _
      cover_eq := fun x => ?_
      room := ⟨bp, by simp, ?_⟩
      length_le := by
        have := hup.suffix.length_le
        simp only [List.length_append, List.length_cons]
        omega
      same := fun x h₁ h₂ => ?_ }
  · unfold Before
    rw [hpsize]
    rcases hup.mem_behind hb with rfl | hb
    · omega
    · have := h.gt_of_mem hb
      omega
  · rw [hpsize, hpb]
    exact h.list.base_size
  · have hpre : ∀ b ∈ pre, size (setPtr m₁ p bp) b = size m b := by
      intro b hb
      by_cases hbp : b = p
      · rw [hbp]
        exact hpsize
      · have hc : Clear b p := h.list.clear_of_ne
          (List.mem_cons_of_mem _ (List.mem_append_left _ hb)) (mem_left hA post) hbp
        exact (size_setPtr_of_clear hc).trans (hsize₁ b (List.mem_cons_of_mem _ hb))
    have hT : (bp :: post').map (freeBlock (setPtr m₁ p bp)) =
        (bp :: post').map (freeBlock m₁) :=
      map_freeBlock_congr fun b hb => size_setPtr_of_clear (hclear b hb)
    have hcov := hup.cover_eq x
    rw [List.map_append, List.map_append, hT, cover_append, cover_append,
      map_freeBlock_congr hpre]
    rw [List.map_cons, hcov, cover_cons]
    omega
  · rw [size_setPtr_of_clear (hclear bp List.mem_cons_self), hup.size_eq]
    exact hup.units_le
  · rw [get_setPtr h₂, hup.same x h₁]

/-- `bp` is joined to `p`. -/
theorem Place.join_lower (htouch : p + HEADER * size m p = bp) :
    Freed m (setPtr (setSize m₁ p (size m p + u')) p (ptr m₁ bp)) base (pre ++ post)
      (pre ++ post') bp u p := by
  obtain ⟨m₂, hm₂⟩ :
    ∃ m₂, setPtr (setSize m₁ p (size m p + u')) p (ptr m₁ bp) = m₂ := ⟨_, rfl⟩
  have hsame₂ : ∀ x, ¬ (header p).Has x → m₂.get x = m₁.get x := by
    intro x hx
    rw [← hm₂, get_setPtr hx, get_setSize hx]
  have hmul : HEADER * (size m p + u') = HEADER * size m p + HEADER * u' := Nat.mul_add _ _ _
  have hbelow := hup.below
  have hsum : p + HEADER * (size m p + u') < ADDRSPACE := by omega
  have hheader := Nat.le_of_lt (h.list.header_lt (mem_left hA post))
  have hpsize : size m₂ p = size m p + u' := by
    rw [← hm₂, size_setPtr_self, size_setSize_self hheader (by unfold HEADER at hsum; omega)]
  have hptr : ptr m₂ p = ptr m₁ bp := by
    rw [← hm₂, ptr_setPtr_self hheader ptr_lt]
  -- `base` is empty, so `p` is a block
  have hpb : p ≠ base := by
    intro hpb
    have := h.above
    rw [hpb, h.list.base_size] at htouch
    unfold HEADER at *
    omega
  have hppre : p ∈ pre := (List.mem_cons.mp (mem_lower hA)).resolve_left hpb
  have hclear : ∀ b ∈ post', Clear b p := fun b hb =>
    h.clear_of_behind hA (hup.mem_behind (List.mem_cons_of_mem _ hb))
  obtain ⟨hbpspaced, hspaced⟩ := List.pairwise_cons.mp hup.spaced
  rw [hm₂]
  refine
    { list := h.relink hA hup.same hsame₂
        (fun b hb => hup.mem_behind (List.mem_cons_of_mem _ hb))
        (List.isChain_cons.mp hup.chain).2 ?_ hspaced (fun b hb => ?_)
        (fun b hb => hup.size_ok h (List.mem_cons_of_mem _ hb)) (by rw [hpsize]; exact hsum)
        (by rw [hpsize]; exact Nat.le_add_right _ _) (fun hpb' => absurd hpb' hpb)
      mem := mem_left hA _
      was_mem := mem_left hA _
      cover_eq := fun x => ?_
      room := ⟨p, List.mem_append_left _ hppre, ?_⟩
      length_le := by
        have := hup.suffix.length_le
        simp only [List.length_append]
        omega
      same := fun x h₁ h₂ => by rw [hsame₂ x h₂, hup.same x h₁] }
  · rw [hptr]
    exact RingList.head?_of_chain hup.chain (by simp)
  · have := hbpspaced b hb
    unfold Before at this ⊢
    rw [hup.size_eq] at this
    rw [hpsize]
    omega
  · -- `p` with its new size covers `p` and `bp`; the others are where they were
    obtain ⟨pre₁, hpre₁⟩ : ∃ pre₁, pre = pre₁ ++ [p] := by
      cases A with
      | nil =>
        rw [List.nil_append] at hA
        exact absurd (List.cons.inj hA).1.symm hpb
      | cons a A => exact ⟨A, (List.cons.inj hA).2⟩
    have hlow : ∀ b ∈ pre₁, size m₂ b = size m b := by
      intro b hb
      have hbpre : b ∈ pre := hpre₁ ▸ List.mem_append_left _ hb
      have hlt := h.list.lt_of_spaced.sublist (List.sublist_append_left (base :: pre) post)
      rw [hpre₁, ← List.cons_append] at hlt
      have hbp : b < p := (List.pairwise_append.mp hlt).2.2 b (List.mem_cons_of_mem _ hb) p
        (List.mem_singleton_self p)
      have hc : Clear b p := h.list.clear_of_ne
        (List.mem_cons_of_mem _ (List.mem_append_left _ hbpre)) (mem_left hA post)
        (Nat.ne_of_lt hbp)
      rw [(same_of_clear hsame₂ hc).2]
      exact (same_of_clear hup.same (h.clear_lower (List.mem_cons_of_mem _ hbpre))).2
    have hT : post'.map (freeBlock m₂) = post'.map (freeBlock m₁) :=
      map_freeBlock_congr fun b hb => (same_of_clear hsame₂ (hclear b hb)).2
    have hsplit := has_split p (HEADER * size m p) (HEADER * u') x
    rw [htouch, ← hmul] at hsplit
    have hcov := hup.cover_eq x
    simp only [cover_cons, freeBlock, hup.size_eq] at hcov
    rw [hpre₁]
    simp only [List.map_append, cover_append, hT, map_freeBlock_congr hlow, List.map_cons,
      List.map_nil, cover_cons, cover_nil, freeBlock, hpsize]
    omega
  · rw [hpsize]
    exact Nat.le_trans hup.units_le (Nat.le_add_left _ _)

end lower

/-- The body of `free` behind its search. -/
theorem Place.freed (h : Place m base pre post bp u) (hA : base :: pre = A ++ [p]) :
    ∃ bs', Freed m (joinLower (joinUpper m bp p) bp p) base (pre ++ post) bs' bp u p := by
  obtain ⟨post', u', hup⟩ := h.joinUpper_spec hA
  obtain ⟨m₁, hm₁⟩ : ∃ m₁, joinUpper m bp p = m₁ := ⟨_, rfl⟩
  rw [hm₁] at hup ⊢
  have hpsize : size m₁ p = size m p :=
    (same_of_clear hup.same (h.clear_lower (mem_lower hA))).2
  have hle := h.lower_le hA
  have hbelow := h.below
  have hafter : after p (size m₁ p) = p + HEADER * size m p := by
    rw [hpsize]
    exact after_of_lt (by omega)
  unfold joinLower
  rw [hafter]
  by_cases htouch : p + HEADER * size m p = bp
  · rw [if_pos htouch]
    dsimp only
    have hc : Clear bp p := (h.clear_lower (mem_lower hA)).symm
    rw [ptr_setSize_of_clear hc, hpsize, hup.size_eq]
    exact ⟨_, h.join_lower hA hup htouch⟩
  · rw [if_neg htouch]
    exact ⟨_, h.link_lower hA hup htouch⟩

/-- **`free`** of a block apart from all free blocks returns, and leaves a free
    list. -/
theorem free_spec {h : Heap sb} (hlist : FreeList h.mem base bs) (hfreep : h.freep ∈ base :: bs)
    (hsize : size h.mem bp = u) (hu : 0 < u) (habove : base + HEADER ≤ bp)
    (hbelow : bp + HEADER * u < ADDRSPACE)
    (hapart : ∀ b ∈ bs, Apart ⟨bp, HEADER * u⟩ (freeBlock h.mem b)) (hfuel : bs.length < fuel) :
    ∃ m' p bs', free fuel h (after bp 1) = some { h with mem := m', freep := p } ∧
      Freed h.mem m' base bs bs' bp u p := by
  obtain ⟨pre, post, rfl, hplace⟩ := hlist.exists_place hsize hu habove hbelow hapart
  obtain ⟨A, p, hA⟩ : ∃ A p, base :: pre = A ++ [p] :=
    ⟨_, _, (List.dropLast_append_getLast (List.cons_ne_nil _ _)).symm⟩
  obtain ⟨bs', hfreed⟩ := hplace.freed hA
  have hheader : headerOf (after bp 1) = bp :=
    headerOf_after (by have := header_le hu; omega)
  refine ⟨_, p, bs', ?_, hfreed⟩
  unfold free
  dsimp only
  rw [hheader, hplace.search_eq hA hfreep hfuel]
  rfl

/-! ### Taking a block from the list -/

section

variable (h : FreeList m base bs)

include h

/-- The list stands when no link has changed and no block has grown. -/
theorem FreeList.shrink (hptr : ∀ b ∈ base :: bs, ptr m' b = ptr m b)
    (hsize : ∀ b ∈ base :: bs, size m' b ≤ size m b) (hpos : ∀ b ∈ bs, 0 < size m' b) :
    FreeList m' base bs where
  ring := by
    refine RingList.transport h.ring fun x hx => ?_
    rw [List.dropLast_concat] at hx
    exact hptr x hx
  spaced := by
    refine h.spaced.imp_of_mem fun {a b} ha _ hab => ?_
    have := Nat.mul_le_mul_left HEADER (hsize a ha)
    unfold Before at hab ⊢
    omega
  __ := h
  base_size := by
    have := hsize base List.mem_cons_self
    rw [h.base_size] at this
    exact Nat.le_zero.mp this
  nonempty := hpos
  below := by
    intro b hb
    have h₁ := Nat.mul_le_mul_left HEADER (hsize b (List.mem_cons_of_mem _ hb))
    have h₂ := h.below b hb
    omega

/-- A member other than `base` and the one before it. -/
theorem FreeList.exists_pred (hq : q ∈ base :: bs) (hqp : ptr m q = p) (hp : p ∈ bs) :
    ∃ pre post A, bs = pre ++ p :: post ∧ base :: pre = A ++ [q] := by
  obtain ⟨A, C, hAC⟩ := List.append_of_mem hq
  have hring := h.ring
  unfold RingList at hring
  rw [hAC] at hring
  have hnodup : (base :: bs).Nodup := h.lt_of_spaced.imp Nat.ne_of_lt
  have hpb : p ≠ base := fun hpb => (List.nodup_cons.mp hnodup).1 (hpb ▸ hp)
  cases C with
  | nil =>
    -- the last member is followed by `base`
    have hcut : (A ++ q :: base :: []).IsChain (fun x y => ptr m x = y) := by simpa using hring
    exact absurd (hqp.symm.trans (List.isChain_append_cons_cons.mp hcut).2.1) hpb
  | cons c C =>
    have hcut : (A ++ q :: c :: (C ++ [base])).IsChain (fun x y => ptr m x = y) := by
      simpa using hring
    have hc : p = c := hqp.symm.trans (List.isChain_append_cons_cons.mp hcut).2.1
    subst hc
    cases A with
    | nil =>
      obtain ⟨h₁, h₂⟩ := List.cons.inj hAC
      exact ⟨[], C, [], h₂, by rw [h₁]; rfl⟩
    | cons a A =>
      obtain ⟨h₁, h₂⟩ := List.cons.inj hAC
      exact ⟨A ++ [q], C, a :: A, by rw [h₂]; simp, by rw [h₁]; rfl⟩

/-- What is left of the free list when the block `bp` of `n` units has been taken
    from it. Only bytes of `base` and of free blocks have changed. -/
structure Taken (m m' : Mem) (base : Nat) (bs bs' : List Nat) (bp n q : Nat) : Prop where
  list : FreeList m' base bs'
  mem : q ∈ base :: bs'
  size_eq : size m' bp = n
  above : base + HEADER ≤ bp
  below : bp + HEADER * n < ADDRSPACE
  cover_eq : ∀ x, (if Has ⟨bp, HEADER * n⟩ x then 1 else 0) + cover (bs'.map (freeBlock m')) x =
    cover (bs.map (freeBlock m)) x
  same : ∀ x, ¬ (header base).Has x → cover (bs.map (freeBlock m)) x = 0 → m'.get x = m.get x

/-- The header of a free block is part of the block. -/
theorem FreeList.not_header {x : Nat} (hb : b ∈ base :: bs) (hbase : ¬ (header base).Has x)
    (hcov : cover (bs.map (freeBlock m)) x = 0) : ¬ (header b).Has x := by
  rcases List.mem_cons.mp hb with rfl | hb
  · exact hbase
  · intro hx
    have hpos : 0 < cover (bs.map (freeBlock m)) x := by
      refine cover_pos.mpr ⟨freeBlock m b, List.mem_map_of_mem hb, ?_⟩
      have := header_le (h.nonempty b hb)
      unfold Has stop header at hx
      unfold Has stop freeBlock
      dsimp only at hx ⊢
      omega
    omega

/-- The whole block is unlinked. -/
theorem FreeList.unlink (hq : q ∈ base :: bs) (hqp : ptr m q = p) (hp : p ∈ bs) :
    ∃ bs', Taken m (setPtr m q (ptr m p)) base bs bs' p (size m p) q := by
  obtain ⟨pre, post, A, rfl, hA⟩ := h.exists_pred hq hqp hp
  obtain ⟨m₁, hm₁⟩ : ∃ m₁, setPtr m q (ptr m p) = m₁ := ⟨_, rfl⟩
  have hsame : ∀ x, ¬ (header q).Has x → m₁.get x = m.get x := by
    intro x hx
    rw [← hm₁, get_setPtr hx]
  have hsize : ∀ b ∈ base :: (pre ++ p :: post), size m₁ b = size m b := by
    intro b hb
    by_cases hbq : b = q
    · rw [hbq, ← hm₁, size_setPtr_self]
    · exact (same_of_clear hsame (h.clear_of_ne hb hq hbq)).2
  have hsub : (base :: (pre ++ post)).Sublist (base :: (pre ++ p :: post)) :=
    ((List.sublist_cons_self p post).append_left pre).cons_cons base
  have hmem : ∀ b ∈ pre ++ post, b ∈ pre ++ p :: post := fun b hb =>
    ((List.sublist_cons_self p post).append_left pre).subset hb
  have hwhole : base :: (pre ++ p :: post) ++ [base] = A ++ q :: p :: (post ++ [base]) := by
    rw [← List.cons_append, hA]
    simp
  have hring := h.ring
  unfold RingList at hring
  rw [hwhole] at hring
  obtain ⟨hleft, _, hright⟩ := List.isChain_append_cons_cons.mp hring
  have hsorted := h.lt_of_spaced
  rw [← List.cons_append, hA, List.append_assoc] at hsorted
  have hAq : ∀ a ∈ A, a < q := fun a ha =>
    (List.pairwise_append.mp hsorted).2.2 a ha q (by simp)
  have hqpost : ∀ b ∈ post, q < b := fun b hb =>
    (List.pairwise_cons.mp (List.pairwise_append.mp hsorted).2.1).1 b (by simp [hb])
  have hq' : q ∈ base :: (pre ++ post) := Place.mem_left hA post
  rw [hm₁]
  refine ⟨pre ++ post,
    { list :=
        { ring := ?_
          spaced := pairwise_before_congr (h.spaced.sublist hsub)
            (fun b hb => hsize b (hsub.subset hb))
          base_pos := h.base_pos
          base_lt := h.base_lt
          base_size := (hsize base List.mem_cons_self).trans h.base_size
          nonempty := fun b hb => by
            rw [hsize b (List.mem_cons_of_mem _ (hmem b hb))]
            exact h.nonempty b (hmem b hb)
          above := fun b hb => h.above b (hmem b hb)
          below := fun b hb => by
            rw [hsize b (List.mem_cons_of_mem _ (hmem b hb))]
            exact h.below b (hmem b hb) }
      mem := hq'
      size_eq := hsize p (by simp)
      above := h.above p hp
      below := h.below p hp
      cover_eq := fun x => ?_
      same := fun x hx hcov => hsame x (h.not_header hq hx hcov) }⟩
  · unfold RingList
    have heq : base :: (pre ++ post) ++ [base] = A ++ q :: (post ++ [base]) := by
      rw [← List.cons_append, hA]
      simp
    rw [heq]
    refine List.isChain_split.mpr ⟨RingList.transport hleft fun x hx => ?_, ?_⟩
    · rw [List.dropLast_concat] at hx
      refine (same_of_clear hsame (h.clear_of_ne ?_ hq (Nat.ne_of_lt (hAq x hx)))).1
      rw [← List.cons_append, hA]
      simp [hx]
    · refine chain_link (List.isChain_cons.mp hright).2 ?_ fun b hb => ?_
      · have hptr : ptr m₁ q = ptr m p := by
          rw [← hm₁, ptr_setPtr_self (Nat.le_of_lt (h.header_lt hq)) ptr_lt]
        rw [hptr]
        exact RingList.head?_of_chain hright (by simp)
      · exact (same_of_clear hsame
          (h.clear_of_ne (by simp [hb]) hq (Nat.ne_of_gt (hqpost b hb)))).1
  · have hmap : (pre ++ post).map (freeBlock m₁) = (pre ++ post).map (freeBlock m) :=
      map_freeBlock_congr fun b hb => hsize b (List.mem_cons_of_mem _ (hmem b hb))
    rw [hmap]
    simp only [List.map_append, List.map_cons, cover_append, cover_cons, freeBlock]
    omega

/-- The tail end of the block is taken. -/
theorem FreeList.split (hq : q ∈ base :: bs) (hp : p ∈ bs) (hn : 0 < n) (hlt : n < size m p) :
    Taken m (setSize (setSize m p (size m p - n)) (p + HEADER * (size m p - n)) n) base bs bs
      (p + HEADER * (size m p - n)) n q := by
  obtain ⟨s, hs⟩ : ∃ s, size m p = s := ⟨_, rfl⟩
  obtain ⟨r, hr⟩ : ∃ r, p + HEADER * (s - n) = r := ⟨_, rfl⟩
  obtain ⟨m₁, hm₁⟩ : ∃ m₁, setSize (setSize m p (s - n)) r n = m₁ := ⟨_, rfl⟩
  rw [hs] at hlt ⊢
  have hpbelow := h.below p hp
  rw [hs] at hpbelow
  have hsum : HEADER * (s - n) + HEADER * n = HEADER * s := by
    rw [← Nat.mul_add]
    congr 1
    omega
  have hrest := header_le (Nat.sub_pos_of_lt hlt)
  have hnlen := header_le hn
  have hpmem : p ∈ base :: bs := List.mem_cons_of_mem _ hp
  -- the new header lies inside the block, behind what is left of it
  have hclear : ∀ b ∈ base :: bs, Clear b r := by
    intro b hb
    by_cases hbp : b = p
    · exact Or.inl (by omega)
    · rcases List.mem_cons.mp hb with rfl | hb'
      · have := h.above p hp
        exact Or.inl (by omega)
      · have hblen := header_le (h.nonempty b hb')
        have hspaced := (List.pairwise_cons.mp h.spaced).2
        have hord : Before m b p ∨ Before m p b := by
          have hsymm : Std.Symm (fun a b => Before m a b ∨ Before m b a) := ⟨fun _ _ h => h.symm⟩
          have hor : bs.Pairwise (fun a b => Before m a b ∨ Before m b a) :=
            hspaced.imp fun h => Or.inl h
          exact hor.forall hb' hp hbp
        unfold Before at hord
        rcases hord with hord | hord
        · exact Or.inl (by omega)
        · rw [hs] at hord
          exact Or.inr (by omega)
  have hsizep : size m₁ p = s - n := by
    rw [← hm₁, size_setSize_of_clear (hclear p hpmem),
      size_setSize_self (Nat.le_of_lt (h.header_lt hpmem)) (by unfold HEADER at hpbelow; omega)]
  have hother : ∀ b ∈ base :: bs, b ≠ p → ptr m₁ b = ptr m b ∧ size m₁ b = size m b := by
    intro b hb hbp
    have hc := h.clear_of_ne hb hpmem hbp
    rw [← hm₁]
    exact ⟨(ptr_setSize_of_clear (hclear b hb)).trans (ptr_setSize_of_clear hc),
      (size_setSize_of_clear (hclear b hb)).trans (size_setSize_of_clear hc)⟩
  have hptr : ∀ b ∈ base :: bs, ptr m₁ b = ptr m b := by
    intro b hb
    by_cases hbp : b = p
    · rw [hbp, ← hm₁, ptr_setSize_of_clear (hclear p hpmem), ptr_setSize_self]
    · exact (hother b hb hbp).1
  have hsize : ∀ b ∈ base :: bs, size m₁ b ≤ size m b := by
    intro b hb
    by_cases hbp : b = p
    · rw [hbp, hsizep, hs]
      omega
    · exact Nat.le_of_eq (hother b hb hbp).2
  have hpos : ∀ b ∈ bs, 0 < size m₁ b := by
    intro b hb
    by_cases hbp : b = p
    · rw [hbp, hsizep]
      omega
    · rw [(hother b (List.mem_cons_of_mem _ hb) hbp).2]
      exact h.nonempty b hb
  rw [hr, hm₁]
  refine
    { list := h.shrink hptr hsize hpos
      mem := hq
      size_eq := ?_
      above := by have := h.above p hp; omega
      below := by omega
      cover_eq := fun x => ?_
      same := fun x hx hcov => ?_ }
  · rw [← hm₁]
    exact size_setSize_self (by omega) (by unfold HEADER at hpbelow; omega)
  · -- the block is cut in two and the other blocks are where they were
    obtain ⟨pre, post, rfl⟩ := List.append_of_mem hp
    have hnodup := List.pairwise_append.mp (List.pairwise_cons.mp h.lt_of_spaced).2
    have hpre : ∀ b ∈ pre, size m₁ b = size m b := fun b hb =>
      (hother b (by simp [hb]) (Nat.ne_of_lt (hnodup.2.2 b hb p List.mem_cons_self))).2
    have hpost : ∀ b ∈ post, size m₁ b = size m b := fun b hb =>
      (hother b (by simp [hb])
        (Nat.ne_of_gt ((List.pairwise_cons.mp hnodup.2.1).1 b hb))).2
    have hsplit := has_split p (HEADER * (s - n)) (HEADER * n) x
    rw [hr, hsum] at hsplit
    simp only [List.map_append, List.map_cons, cover_append, cover_cons,
      map_freeBlock_congr hpre, map_freeBlock_congr hpost, freeBlock, hsizep, hs]
    omega
  · have hnot : ¬ (freeBlock m p).Has x := by
      intro hx
      have : 0 < cover (bs.map (freeBlock m)) x :=
        cover_pos.mpr ⟨freeBlock m p, List.mem_map_of_mem hp, hx⟩
      omega
    unfold Has stop freeBlock at hnot
    dsimp only at hnot
    rw [hs] at hnot
    have h₁ : ¬ (header r).Has x := by
      unfold Has stop header
      dsimp only
      omega
    have h₂ : ¬ (header p).Has x := by
      unfold Has stop header
      dsimp only
      omega
    rw [← hm₁, get_setSize h₁, get_setSize h₂]

end

/-- What `malloc` does at the block its search has found. -/
theorem take_spec {h : Heap sb} (hlist : FreeList h.mem base bs) (hq : q ∈ base :: bs)
    (hqp : ptr h.mem q = p) (hp : p ∈ base :: bs) (hn : 0 < n) (hfit : n ≤ size h.mem p) :
    ∃ m' bp bs', take h q p n = ({ h with mem := m', freep := q }, after bp 1) ∧
      Taken h.mem m' base bs bs' bp n q := by
  have hpbs : p ∈ bs := by
    rcases List.mem_cons.mp hp with rfl | hp
    · rw [hlist.base_size] at hfit
      omega
    · exact hp
  unfold take
  by_cases heq : size h.mem p = n
  · rw [if_pos heq]
    obtain ⟨bs', htaken⟩ := hlist.unlink hq hqp hpbs
    rw [heq] at htaken
    exact ⟨_, p, bs', rfl, htaken⟩
  · have hlt : n < size h.mem p := by omega
    have hbelow := hlist.below p hpbs
    have hsize : size (setSize h.mem p (size h.mem p - n)) p = size h.mem p - n :=
      size_setSize_self (Nat.le_of_lt (hlist.header_lt hp)) (by unfold HEADER at hbelow; omega)
    have hafter : after p (size h.mem p - n) = p + HEADER * (size h.mem p - n) := by
      refine after_of_lt ?_
      have := Nat.mul_le_mul_left HEADER (Nat.sub_le (size h.mem p) n)
      omega
    rw [if_neg heq]
    dsimp only
    rw [hsize, hafter]
    exact ⟨_, _, bs, rfl, hlist.split hq hpbs hn hlt⟩

end Xv6.Umalloc
