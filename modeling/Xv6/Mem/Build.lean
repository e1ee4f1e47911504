import Xv6.Mem.Unmap

/-! # Building Address Spaces

    What `walkpgdir`, `mappages`, `setupkvm`, `allocuvm` and `copyuvm` do.
    Each has one specification, for every free list: with enough pages the
    call succeeds and adds to one directory (`Adds`), with too few it takes
    back what it did. `Adds` counts the pages, so "there is enough memory" is
    part of the same statement.
-/

namespace Xv6.Vm

open Ownership Function

/-- `sz` is the size of the address space: its pages are mapped, and no
    others. -/
def PageDir.Sized (D : PageDir) (sz : Nat) : Prop :=
  sz ≤ KERNBASE ∧ ∀ v, v < UPAGES → ((D.pte v).isSome ↔ v * PGSIZE < sz)

theorem PageDir.Sized.none_above {D : PageDir} {sz v : Nat} (h : D.Sized sz) (hv : v < UPAGES)
    (hle : Mem.pgroundup sz ≤ v) : D.pte v = none := by
  rw [← Option.not_isSome_iff_eq_none, h.2 v hv, ← Mem.lt_pgroundup_iff h.1]
  omega

namespace Mem

variable {E : Type} [DecidableEq E] {S : Set Page} {m m' m'' : Mem} {he : E → Option Page}
  {loose : List Page} {d x : Page} {D D' D'' : PageDir} {L : Layout} {v : Nat} {k : KMap}
  {n a oldsz newsz : Nat} {w u : Bool} {want : Nat → NewPage} {pgdir : Page} {Dp : PageDir}

/-! ### Adding to a directory -/

/-- What adding to directory `d` does: `n` pages and those of new page tables
    leave the free list, and everything there was stays. -/
structure Adds (S : Set Page) (he : E → Option Page) (loose : List Page) (d : Page) (n : Nat)
    (m : Mem) (D : PageDir) (m' : Mem) (D' : PageDir) : Prop where
  ok : Ok S m' he loose
  dir : m'.dirs d = some D'
  same : SameElse d m m'
  owners : ∀ o p, m.page o = some p → m'.page o = some p
  free : m'.free <:+ m.free
  contents : ∀ p, p ∉ m.free → m'.contents p = m.contents p
  room : m'.free.length + n + D.missing.card = m.free.length + D'.missing.card

namespace Adds

omit [DecidableEq E]

theorem refl (h : Ok S m he loose) (hd : m.dirs d = some D) : Adds S he loose d 0 m D m D :=
  ⟨h, hd, .refl d m, fun _ _ ho => ho, List.suffix_refl _, fun _ _ => rfl, rfl⟩

theorem trans {k : Nat} {loose₁ : List Page} (h : Adds S he loose₁ d k m D m' D')
    (h' : Adds S he loose d n m' D' m'' D'') : Adds S he loose d (k + n) m D m'' D'' where
  ok := h'.ok
  dir := h'.dir
  same := h.same.trans h'.same
  owners := fun o p ho => h'.owners o p (h.owners o p ho)
  free := h'.free.trans h.free
  contents := fun p hp => (h'.contents p (fun hm => hp (h.free.subset hm))).trans (h.contents p hp)
  room := by
    have h1 := h.room
    have h2 := h'.room
    omega

theorem keeps {loose₁ : List Page} (h : Adds S he loose d n m D m' D') (hok : Ok S m he loose₁) :
    Keeps All m m' :=
  fun o p _ ho => ⟨h.owners o p ho, h.contents p (fun hm => hok.unowned (Or.inl hm) o ho)⟩

end Adds

/-! ### Mapping -/

/-- `walkpgdir` finds a page table, makes one, or finds no free page. -/
theorem walkpgdir_spec (h : Ok S m he loose) (hd : m.dirs d = some D) (v : Nat) :
    (m.walkpgdir d v true = .ok (false, m) ∧ m.free = [] ∧ D.ptab (PDX v) = none) ∨
    ∃ m' D', m.walkpgdir d v true = .ok (true, m') ∧ Adds S he loose d 0 m D m' D' ∧
      D'.pte = D.pte ∧ ∀ i, (D'.ptab i).isSome ↔ (D.ptab i).isSome ∨ i = PDX v := by
  unfold walkpgdir
  simp only [hd]
  cases ht : D.ptab (PDX v) with
  | some y =>
    refine Or.inr ⟨m, D, rfl, .refl h hd, rfl, fun i => ⟨Or.inl, ?_⟩⟩
    rintro (hi | rfl)
    · exact hi
    · rw [ht]
      rfl
  | none =>
    simp only [if_true]
    cases hf : m.free with
    | nil =>
      rw [kalloc_of_nil hf]
      exact Or.inl ⟨rfl, rfl, trivial⟩
    | cons x ps =>
      rw [kalloc_of_free hf]
      have htaken := h.taken hf (fun _ => 0)
      have hpage := page_setTable (m := m.taken x ps (fun _ => 0)) (x := x) hd ht
      have hslot : m.page (.table d (PDX v)) = none := by simp [page, hd, ht]
      have hmem : PDX v ∈ D.missing := PageDir.mem_missing.mpr ht
      refine Or.inr ⟨_, D.setTable (PDX v) x, rfl, ⟨?_, dirs_setDir_self _, sameElse_setDir _, ?_,
        ⟨[x], hf.symm⟩, ?_, ?_⟩, PageDir.pte_setTable ht, fun i => ?_⟩
      · exact htaken.assignPage (o := .table d (PDX v)) hslot hpage rfl
      · -- the table slot was empty, so nobody loses a page to it
        intro o p ho
        have hne : o ≠ .table d (PDX v) := by
          rintro rfl
          rw [hslot] at ho
          cases ho
        have hkept : ((m.taken x ps (fun _ => 0)).setDir d (D.setTable (PDX v) x)).page o = some p := by
          rw [hpage, update_of_ne hne]
          exact ho
        exact hkept
      · intro p hp
        refine update_of_ne ?_ _ _
        rintro rfl
        exact hp (by rw [hf]; exact List.mem_cons_self)
      · have hcard := Finset.card_erase_add_one hmem
        have hlen : m.free.length = ps.length + 1 := by rw [hf]; rfl
        rw [PageDir.missing_setTable]
        simp only [setDir, fill]
        omega
      · by_cases hi : i = PDX v
        · subst hi
          simp [PageDir.setTable]
        · simp [PageDir.setTable, hi]

/-- One turn of the loop of `mappages`. A page below `KERNBASE` is taken from
    the hands of the caller. -/
theorem mapLoop_turn {loose₀ : List Page} (n pp : Nat) (w u : Bool) (h : Ok S m he loose₀)
    (hd : m.dirs d = some D) (hp : D.pte v = none)
    (hown : loose₀ = if v < UPAGES then pp :: loose else loose) :
    (m.mapLoop (n + 1) d v pp w u = .ok (false, m) ∧ m.free = [] ∧ D.ptab (PDX v) = none) ∨
    ∃ m' D', m.mapLoop (n + 1) d v pp w u =
        m'.mapLoop n d ((v + 1) % (NPDENTRIES * NPTENTRIES)) (pp + 1) w u ∧
      Adds S he loose d 0 m D m' D' ∧ D'.pte = update D.pte v (some ⟨pp, w, u⟩) ∧
      ∀ i, (D'.ptab i).isSome ↔ (D.ptab i).isSome ∨ i = PDX v := by
  rw [mapLoop]
  rcases walkpgdir_spec h hd v with ⟨hw, hf, ht⟩ | ⟨m₁, D₁, hw, hadd, hpte, htab⟩
  · rw [hw]
    exact Or.inl ⟨rfl, hf, ht⟩
  · rw [hw]
    have hnone : D₁.pte v = none := by
      rw [hpte]
      exact hp
    have ht : (D₁.ptab (PDX v)).isSome := (htab _).mpr (Or.inr rfl)
    have hset : (D₁.setPte v (some ⟨pp, w, u⟩)).pte = update D.pte v (some ⟨pp, w, u⟩) := by
      rw [PageDir.pte_setPte ht, hpte]
    simp only [hadd.dir, hnone, Option.isSome_none, Bool.false_eq_true, if_false]
    refine Or.inr ⟨_, _, rfl, ⟨?_, dirs_setDir_self _, hadd.same.trans (sameElse_setDir _), ?_,
      hadd.free, hadd.contents, hadd.room⟩, hset, htab⟩
    · have hok := hadd.ok
      by_cases hv : v < UPAGES
      · rw [hown, if_pos hv] at hok
        exact hok.assignPage (o := .user d v) (by simp [page, hv, hadd.dir, hnone])
          (page_setPte_user hadd.dir hv ht) rfl
      · rw [hown, if_neg hv] at hok
        unfold Ok at hok ⊢
        rw [page_setPte_kernel hadd.dir (Nat.le_of_not_lt hv) ht]
        exact hok
    · intro o p ho
      have ho₁ := hadd.owners o p ho
      by_cases hv : v < UPAGES
      · rw [page_setPte_user hadd.dir hv ht, update_of_ne]
        · exact ho₁
        · rintro rfl
          simp [page, hv, hadd.dir, hnone] at ho₁
      · rw [page_setPte_kernel hadd.dir (Nat.le_of_not_lt hv) ht]
        exact ho₁

/-- The page tables of `D'` are those of `D` and those that the pages
    `v, ..., v + n - 1` need. -/
def Tables (D D' : PageDir) (v n : Nat) : Prop :=
  ∀ i, (D'.ptab i).isSome ↔ (D.ptab i).isSome ∨ ∃ a, v ≤ a ∧ a < v + n ∧ PDX a = i

theorem tables_none (D : PageDir) (v : Nat) : Tables D D v 0 := by
  refine fun i => ⟨Or.inl, ?_⟩
  rintro (hi | ⟨a, h1, h2, _⟩)
  · exact hi
  · omega

theorem Tables.step (htab : ∀ i, (D'.ptab i).isSome ↔ (D.ptab i).isSome ∨ i = PDX v)
    (h : Tables D' D'' (v + 1) n) : Tables D D'' v (n + 1) := by
  intro i
  refine (h i).trans ((or_congr_left (htab i)).trans (or_assoc.trans (or_congr_right ⟨?_, ?_⟩)))
  · rintro (rfl | ⟨a, h1, h2, ha⟩)
    · exact ⟨v, Nat.le_refl v, by omega, rfl⟩
    · exact ⟨a, by omega, by omega, ha⟩
  · rintro ⟨a, h1, h2, ha⟩
    by_cases hav : a = v
    · exact Or.inl (hav ▸ ha.symm)
    · exact Or.inr ⟨a, by omega, by omega, ha⟩

/-- Pages `v, ..., v + n - 1` have been mapped to the pages from `pp` on. -/
structure Maps (D D' : PageDir) (pp : Nat) (w u : Bool) (v n : Nat) : Prop where
  outside : ∀ a, ¬ (v ≤ a ∧ a < v + n) → D'.pte a = D.pte a
  inside : ∀ a, v ≤ a → a < v + n → D'.pte a = some ⟨pp + (a - v), w, u⟩
  tables : Tables D D' v n

theorem maps_none {pp : Nat} : Maps D D pp w u v 0 :=
  ⟨fun _ _ => rfl, fun a h1 h2 => by omega, tables_none D v⟩

theorem Maps.step {pp : Nat} (hpte : D'.pte = update D.pte v (some ⟨pp, w, u⟩))
    (htab : ∀ i, (D'.ptab i).isSome ↔ (D.ptab i).isSome ∨ i = PDX v)
    (h : Maps D' D'' (pp + 1) w u (v + 1) n) : Maps D D'' pp w u v (n + 1) := by
  refine ⟨fun a ha => ?_, fun a h1 h2 => ?_, h.tables.step htab⟩
  · rw [h.outside a (by omega), hpte, update_of_ne (by omega)]
  · by_cases hav : a = v
    · subst hav
      rw [h.outside a (by omega), hpte, update_self, Nat.sub_self, Nat.add_zero]
    · rw [h.inside a (by omega) (by omega)]
      have hsum : pp + 1 + (a - (v + 1)) = pp + (a - v) := by omega
      rw [hsum]

/-- There is no page for a page table. -/
theorem missing_pos (hf : m.free = []) (ht : D.ptab (PDX v) = none) :
    m.free.length < D.missing.card := by
  rw [hf]
  exact Finset.card_pos.mpr ⟨PDX v, PageDir.mem_missing.mpr ht⟩

/-- Mapping kernel pages that are not mapped. The loop ends with the last
    page, whose successor may be page 0. -/
theorem mapLoop_kernel (n : Nat) : ∀ {m : Mem} {D : PageDir} {v : Nat} (pp : Nat),
    Ok S m he loose → m.dirs d = some D → UPAGES ≤ v → v + n ≤ NPDENTRIES * NPTENTRIES →
    (∀ a, v ≤ a → a < v + n → D.pte a = none) →
    ∃ b m' D', m.mapLoop n d (v % (NPDENTRIES * NPTENTRIES)) pp w u = .ok (b, m') ∧
      Adds S he loose d 0 m D m' D' ∧ (b = true → Maps D D' pp w u v n) ∧
      (b = false → m.free.length < D.missing.card) := by
  induction n with
  | zero =>
    intro m D v pp h hd _ _ _
    exact ⟨true, m, D, rfl, .refl h hd, fun _ => maps_none, nofun⟩
  | succ n ih =>
    intro m D v pp h hd hv hvn hnone
    rw [Nat.mod_eq_of_lt (by omega)]
    rcases mapLoop_turn n pp w u h hd (hnone v (Nat.le_refl v) (by omega))
      (if_neg (Nat.not_lt.mpr hv)).symm with
      ⟨hl, hf, ht⟩ | ⟨m₁, D₁, hl, hadd, hpte, htab⟩
    · exact ⟨false, m, D, hl, .refl h hd, nofun, fun _ => missing_pos hf ht⟩
    · obtain ⟨b, m', D', hl', hadd', hmaps, hshort⟩ := ih (pp + 1) hadd.ok hadd.dir (v := v + 1)
        (by omega) (by omega) (fun a h1 h2 => by
          rw [hpte, update_of_ne (by omega)]
          exact hnone a (by omega) (by omega))
      refine ⟨b, m', D', hl.trans hl', hadd.trans hadd', fun hb => (hmaps hb).step hpte htab,
        fun hb => ?_⟩
      have h1 := hshort hb
      have h2 := hadd.room
      omega

/-- Mapping one page below `KERNBASE`. -/
theorem mappages_page (ha : a < UPAGES) (w u : Bool) :
    m.mappages d (a * PGSIZE) PGSIZE (x * PGSIZE) w u = m.mapLoop 1 d a x w u := by
  have hfirst : a * PGSIZE / PGSIZE = a := Nat.mul_div_cancel _ (by decide)
  have hx : x * PGSIZE / PGSIZE = x := Nat.mul_div_cancel _ (by decide)
  have hlast : (a * PGSIZE + PGSIZE - 1) % 2 ^ 32 / PGSIZE = a := by
    simp only [UPAGES, KERNBASE, PGSIZE] at ha ⊢
    omega
  have hcount : (NPDENTRIES * NPTENTRIES + a - a) % (NPDENTRIES * NPTENTRIES) = 0 := by
    rw [Nat.add_sub_cancel, Nat.mod_self]
  unfold mappages pageCount
  simp only [hfirst, hx, hlast, hcount, Nat.zero_add]

/-- A new page is mapped at a user address, or there is no page for the page
    table and the new page is still in the hands of the caller. -/
theorem Ok.mapNew {ps : List Page} (h : Ok S m he loose) (hf : m.free = x :: ps)
    (hv : v < UPAGES) (hd : m.dirs d = some D) (hp : D.pte v = none) (b : Bytes.Buf PGSIZE)
    (w u : Bool) :
    ((m.taken x ps b).mappages d (v * PGSIZE) PGSIZE (x * PGSIZE) w u =
        .ok (false, m.taken x ps b) ∧ m.free.length < D.missing.card + 1) ∨
    ∃ m' D', (m.taken x ps b).mappages d (v * PGSIZE) PGSIZE (x * PGSIZE) w u = .ok (true, m') ∧
      Adds S he loose d 1 m D m' D' ∧ m'.contents x = b ∧
      D'.pte = update D.pte v (some ⟨x, w, u⟩) ∧
      ∀ i, (D'.ptab i).isSome ↔ (D.ptab i).isSome ∨ i = PDX v := by
  have hd₁ : (m.taken x ps b).dirs d = some D := hd
  have hlen : m.free.length = ps.length + 1 := by rw [hf]; rfl
  have htaken := h.taken hf b
  rw [mappages_page hv]
  rcases mapLoop_turn 0 x w u htaken hd₁ hp (if_pos hv).symm with ⟨hl, hnil, ht⟩ | ⟨m', D', hl, hadd, hpte, htab⟩
  · refine Or.inl ⟨hl, ?_⟩
    have hshort : ps.length < D.missing.card := missing_pos hnil ht
    omega
  · have hroom : m'.free.length + 0 + D.missing.card = ps.length + D'.missing.card := hadd.room
    refine Or.inr ⟨m', D', hl, ⟨hadd.ok, hadd.dir, hadd.same, ?_, ?_, ?_, by omega⟩, ?_, hpte, htab⟩
    · intro o p ho
      exact hadd.owners o p ho
    · exact hadd.free.trans ⟨[x], hf.symm⟩
    · intro p hp'
      rw [hf, List.mem_cons, not_or] at hp'
      exact (hadd.contents p hp'.2).trans (update_of_ne hp'.1 _ _)
    · -- the page table is another page
      refine (hadd.contents x ?_).trans (update_self ..)
      intro hx
      exact Owned.free_not_loose htaken hx List.mem_cons_self

/-! ### Where the loop of `mappages` ends -/

/-- The loop as it is written: it ends after page `last`, for which it counts
    around the address space. `none` if `fuel` turns are not enough. -/
def mapUntil (last : Nat) (d : Page) (w u : Bool) : (fuel : Nat) → Mem → (v pp : Nat) →
    Option (Except Panic (Bool × Mem))
  | 0, _, _, _ => none
  | fuel + 1, m, v, pp =>
    match m.walkpgdir d v true with
    | .error e => some (.error e)
    | .ok (false, m) => some (.ok (false, m))
    | .ok (true, m) =>
      match m.dirs d with
      | none => some (.error .wild)
      | some D =>
        if (D.pte v).isSome then some (.error .remap)
        else if v = last then some (.ok (true, m.setDir d (D.setPte v (some ⟨pp, w, u⟩))))
        else
          mapUntil last d w u fuel (m.setDir d (D.setPte v (some ⟨pp, w, u⟩)))
            ((v + 1) % (NPDENTRIES * NPTENTRIES)) (pp + 1)

theorem mapUntil_eq {last : Nat} (n : Nat) : ∀ {fuel : Nat} {m : Mem} {v : Nat} (pp : Nat),
    v < 2 ^ 20 → n < 2 ^ 20 → last = (v + n) % 2 ^ 20 → n < fuel →
    mapUntil last d w u fuel m v pp = some (m.mapLoop (n + 1) d v pp w u) := by
  induction n with
  | zero =>
    intro fuel m v pp hv _ hlast hf
    obtain ⟨fuel, rfl⟩ := Nat.exists_eq_add_of_lt hf
    obtain rfl : last = v := by omega
    rw [Nat.zero_add, mapUntil, mapLoop]
    rcases m.walkpgdir d last true with e | ⟨_ | _, m₁⟩
    · rfl
    · rfl
    · dsimp only
      cases m₁.dirs d with
      | none => rfl
      | some D =>
        dsimp only
        split
        · rfl
        · rw [if_pos rfl, mapLoop]
  | succ n ih =>
    intro fuel m v pp hv hn hlast hf
    obtain ⟨fuel, rfl⟩ := Nat.exists_eq_add_of_lt (Nat.zero_lt_of_lt hf)
    have hne : v ≠ last := by omega
    rw [Nat.zero_add, mapUntil, mapLoop]
    rcases m.walkpgdir d v true with e | ⟨_ | _, m₁⟩
    · rfl
    · rfl
    · dsimp only
      cases m₁.dirs d with
      | none => rfl
      | some D =>
        dsimp only
        split
        · rfl
        · exact ih (v := (v + 1) % (NPDENTRIES * NPTENTRIES)) (pp + 1) (Nat.mod_lt _ (by decide))
            (by omega) (by simp only [NPDENTRIES, NPTENTRIES]; omega) (by omega)

/-- The loop ends, at the latest when it comes to its first page again. -/
theorem mappages_until {va size pa : Nat} (hva : va < 2 ^ 32) :
    mapUntil ((va + size - 1) % 2 ^ 32 / PGSIZE) d w u (2 ^ 20) m (va / PGSIZE) (pa / PGSIZE) =
      some (m.mappages d va size pa w u) := by
  have hlast : (va + size - 1) % 2 ^ 32 / PGSIZE < 2 ^ 20 := by
    simp only [PGSIZE]
    omega
  unfold mappages pageCount
  generalize (va + size - 1) % 2 ^ 32 / PGSIZE = last at hlast ⊢
  refine mapUntil_eq _ _ ?_ ?_ ?_ ?_
  all_goals
    simp only [PGSIZE, NPDENTRIES, NPTENTRIES]
    omega

/-! ### Setting up directories -/

/-- The first virtual page of a range of `kmap`. -/
def KMap.first (k : KMap) : Nat := k.virt / PGSIZE

/-- The number of pages of a range of `kmap`. -/
def KMap.count (k : KMap) : Nat := pageCount k.virt k.size

/-- The ranges of `kmap` lie in the kernel half, one after the other. -/
theorem kmap_ranges (L : Layout) :
    (kmap L).map (fun k => (k.first, k.count)) =
      [(0x80000, 0x100), (0x80100, L.data - 0x100), (0x80000 + L.data, 0xE000 - L.data),
       (0xFE000, 0x2000)] := by
  have h1 := L.data_gt
  have h2 := L.data_lt
  simp only [EXTMEM, PHYSTOP, PGSIZE] at h1 h2
  simp only [kmap, List.map_cons, List.map_nil, KMap.first, KMap.count, KMap.size, pageCount,
    KERNBASE, KERNLINK, EXTMEM, PHYSTOP, DEVSPACE, PGSIZE, NPDENTRIES, NPTENTRIES,
    List.cons.injEq, Prod.mk.injEq, and_true]
  and_intros <;> first | omega | exact True.intro

theorem kmap_kernel (hk : k ∈ kmap L) :
    UPAGES ≤ k.first ∧ k.first < NPDENTRIES * NPTENTRIES ∧
    k.first + k.count ≤ NPDENTRIES * NPTENTRIES := by
  have hmem : (k.first, k.count) ∈ (kmap L).map (fun k => (k.first, k.count)) :=
    List.mem_map_of_mem hk
  have h1 := L.data_gt
  have h2 := L.data_lt
  simp only [EXTMEM, PHYSTOP, PGSIZE] at h1 h2
  rw [kmap_ranges] at hmem
  simp only [List.mem_cons, List.not_mem_nil, or_false, Prod.mk.injEq] at hmem
  simp only [UPAGES, KERNBASE, PGSIZE, NPDENTRIES, NPTENTRIES]
  omega

/-- The ranges of `kmap` do not overlap. -/
theorem kmap_pairwise (L : Layout) :
    (kmap L).Pairwise (fun a b => KMap.first a + KMap.count a ≤ KMap.first b) := by
  have h1 := L.data_gt
  have h2 := L.data_lt
  simp only [EXTMEM, PHYSTOP, PGSIZE] at h1 h2
  have hmap : ((kmap L).map (fun k => (KMap.first k, KMap.count k))).Pairwise
      (fun a b => a.1 + a.2 ≤ b.1) := by
    rw [kmap_ranges]
    simp only [List.pairwise_cons, List.mem_cons, List.not_mem_nil, or_false, forall_eq_or_imp,
      forall_eq, List.Pairwise.nil, IsEmpty.forall_iff, implies_true, and_true]
    refine ⟨⟨?_, ?_, ?_⟩, ⟨?_, ?_⟩, ?_⟩ <;> omega
  exact List.pairwise_map.mp hmap

/-- The pages of a list of entries of `kmap`. -/
def Covered (ks : List KMap) (a : Nat) : Prop := ∃ k ∈ ks, k.first ≤ a ∧ a < k.first + k.count

/-- The entries of `ks` have been mapped, and nothing else. -/
structure KernelMaps (ks : List KMap) (D D' : PageDir) : Prop where
  outside : ∀ a, ¬ Covered ks a → D'.pte a = D.pte a
  inside : ∀ k ∈ ks, ∀ a, k.first ≤ a → a < k.first + k.count →
    D'.pte a = some ⟨k.phys_start / PGSIZE + (a - k.first), k.w, false⟩
  tables : ∀ i, (D'.ptab i).isSome ↔ (D.ptab i).isSome ∨ ∃ a, Covered ks a ∧ PDX a = i

theorem covered_cons {ks : List KMap} :
    Covered (k :: ks) a ↔ (k.first ≤ a ∧ a < k.first + k.count) ∨ Covered ks a := by
  simp [Covered]

theorem Maps.cons {ks : List KMap} (h : Maps D D' (k.phys_start / PGSIZE) k.w false k.first k.count)
    (hafter : ∀ r ∈ ks, KMap.first k + KMap.count k ≤ KMap.first r) (h' : KernelMaps ks D' D'') :
    KernelMaps (k :: ks) D D'' := by
  refine ⟨fun a ha => ?_, fun r hr a h1 h2 => ?_, fun i => ?_⟩
  · rw [covered_cons, not_or] at ha
    rw [h'.outside a ha.2, h.outside a ha.1]
  · rcases List.mem_cons.mp hr with rfl | hr
    · rw [h'.outside a, h.inside a h1 h2]
      rintro ⟨k', hk', h3, _⟩
      have := hafter k' hk'
      omega
    · exact h'.inside r hr a h1 h2
  · refine (h'.tables i).trans ((or_congr_left (h.tables i)).trans (or_assoc.trans ?_))
    refine or_congr_right ?_
    simp only [covered_cons, or_and_right, exists_or, and_assoc]

theorem mappages_kmap (hk : k ∈ kmap L) (w u : Bool) :
    m.mappages d k.virt k.size k.phys_start w u =
      m.mapLoop k.count d (k.first % (NPDENTRIES * NPTENTRIES)) (k.phys_start / PGSIZE) w u := by
  rw [Nat.mod_eq_of_lt (kmap_kernel hk).2.1]
  rfl

/-- The loop of `setupkvm` maps its ranges, or frees the directory. -/
theorem setupLoop_spec (ks : List KMap) : ∀ {m : Mem} {D : PageDir}, (∀ k ∈ ks, k ∈ kmap L) →
    ks.Pairwise (fun a b => KMap.first a + KMap.count a ≤ KMap.first b) →
    Ok S m he loose → m.dirs d = some D → (∀ a, Covered ks a → D.pte a = none) →
    Ends (setupLoop L ks m d) (Fails L S) (fun r =>
      (r.1 = some d ∧ ∃ D', Adds S he loose d 0 m D r.2 D' ∧ KernelMaps ks D D') ∨
      (r.1 = none ∧ m.free.length < D.missing.card ∧ Ok S r.2 he loose ∧
        r.2.dirs = update m.dirs d none ∧ Keeps (Elsewhere d) m r.2)) := by
  induction ks with
  | nil =>
    intro m D _ _ h hd _
    refine Or.inl ⟨rfl, D, .refl h hd, fun _ _ => rfl, nofun, fun i => ⟨Or.inl, ?_⟩⟩
    rintro (hi | ⟨a, ⟨k, hk, _⟩, _⟩)
    · exact hi
    · cases hk
  | cons k ks ih =>
    intro m D hks hpair h hd hnone
    obtain ⟨hafter, hpair'⟩ := List.pairwise_cons.mp hpair
    obtain ⟨hlo, _, hhi⟩ := kmap_kernel (hks k List.mem_cons_self)
    obtain ⟨b, m₁, D₁, hmap, hadd, hmaps, hshort⟩ := mapLoop_kernel (w := k.w) (u := false)
      k.count (k.phys_start / PGSIZE) h hd hlo hhi
      (fun a h1 h2 => hnone a (covered_cons.mpr (Or.inl ⟨h1, h2⟩)))
    rw [setupLoop, mappages_kmap (hks k List.mem_cons_self), hmap]
    cases b with
    | true =>
      have hrest := ih (fun r hr => hks r (List.mem_cons_of_mem _ hr)) hpair' hadd.ok hadd.dir
        (fun a ha => by
          rw [(hmaps rfl).outside a, hnone a (covered_cons.mpr (Or.inr ha))]
          obtain ⟨r, hr, h1, _⟩ := ha
          have := hafter r hr
          omega)
      refine hrest.mono (fun r hr => ?_)
      rcases hr with ⟨hr, D', hadd', hk'⟩ | ⟨hr, hlen, hok, hdirs, hkeep⟩
      · exact Or.inl ⟨hr, D', hadd.trans hadd', (hmaps rfl).cons hafter hk'⟩
      · refine Or.inr ⟨hr, ?_, hok, hdirs.trans hadd.same.drop, (hadd.keeps h).of_all.trans hkeep⟩
        have := hadd.room
        omega
    | false =>
      -- out of memory: the half-built directory is freed
      refine (freevm_spec hadd.ok hadd.dir).map (fun m₂ hfree => ?_)
      obtain ⟨hok, hdirs, hkeep, _⟩ := hfree
      exact Or.inr ⟨rfl, hshort rfl, hok, hdirs.trans hadd.same.drop,
        (hadd.keeps h).of_all.trans hkeep⟩

/-- `setupkvm` failed: everything is as it was. -/
structure Unbuilt (S : Set Page) (he : E → Option Page) (loose : List Page) (m m' : Mem) :
    Prop where
  ok : Ok S m' he loose
  dirs : m'.dirs = m.dirs
  keeps : Keeps All m m'

/-- A new directory `d`, of `n` pages and page tables. -/
structure Built (S : Set Page) (he : E → Option Page) (loose : List Page) (d : Page) (n : Nat)
    (m m' : Mem) (D : PageDir) : Prop where
  ok : Ok S m' he loose
  fresh : m.free.head? = some d
  absent : m.dirs d = none
  dir : m'.dirs d = some D
  same : SameElse d m m'
  keeps : Keeps All m m'
  room : m'.free.length + n + NPDENTRIES = m.free.length + D.missing.card

/-- **`setupkvm`** takes the first free page for the directory and maps the
    ranges of `kmap`, or leaves everything as it was. -/
theorem setupkvm_spec (h : Ok S m he loose) :
    Ends (m.setupkvm L) (Fails L S) (fun r =>
      (∃ d D, r.1 = some d ∧ Built S he loose d 1 m r.2 D ∧ KernelMaps (kmap L) .empty D) ∨
      (r.1 = none ∧ m.free.length < NPDENTRIES + 1 ∧ Unbuilt S he loose m r.2)) := by
  unfold setupkvm
  cases hf : m.free with
  | nil =>
    rw [kalloc_of_nil hf]
    exact Or.inr ⟨rfl, by simp, h, rfl, .refl _ m⟩
  | cons d ps =>
    rw [kalloc_of_free hf]
    have hlen : m.free.length = ps.length + 1 := by rw [hf]; rfl
    have hmem : d ∈ m.free := by
      rw [hf]
      exact List.mem_cons_self
    have hnone : m.dirs d = none := h.not_dir (Or.inl hmem)
    have hpage := page_newDir (m := m.taken d ps (fun _ => 0)) hnone
    have hnew : Ok S ((m.taken d ps (fun _ => 0)).setDir d .empty) he loose :=
      (h.taken hf _).assignPage (o := .dir d) (page_of_none hnone) hpage rfl
    have hsame : SameElse d m ((m.taken d ps (fun _ => 0)).setDir d .empty) := sameElse_setDir _
    have hkeeps : Keeps (Elsewhere d) m ((m.taken d ps (fun _ => 0)).setDir d .empty) := by
      intro o p hK ho
      have hne : o ≠ .dir d := fun heq => hK (by rw [heq]; rfl)
      refine ⟨by rw [hpage, update_of_ne hne]; exact ho, update_of_ne ?_ _ _⟩
      rintro rfl
      exact h.unowned (Or.inl hmem) o ho
    have hloop := setupLoop_spec (L := L) (kmap L) (fun _ hk => hk) (kmap_pairwise L) hnew
      (dirs_setDir_self _) (fun _ _ => rfl)
    refine hloop.mono (fun r hr => ?_)
    rcases hr with ⟨hr, D', hadd, hk⟩ | ⟨hr, hshort, hok, hdirs, hkeep⟩
    · have hroom : r.2.free.length + 0 + PageDir.empty.missing.card =
          ps.length + D'.missing.card := hadd.room
      have hempty := PageDir.missing_empty
      refine Or.inl ⟨d, D', hr, ⟨hadd.ok, by rw [hf]; rfl, hnone, hadd.dir, hsame.trans hadd.same,
        (hkeeps.trans (hadd.keeps hnew).of_all).all_of_elsewhere hnone, by omega⟩, hk⟩
    · rw [PageDir.missing_empty] at hshort
      have hshort' : ps.length < NPDENTRIES := hshort
      refine Or.inr ⟨hr, by rw [List.length_cons]; omega, hok, ?_,
        (hkeeps.trans hkeep).all_of_elsewhere hnone⟩
      rw [hdirs, hsame.drop, ← hnone, update_eq_self]

omit [DecidableEq E] in
theorem Unbuilt.free_perm (hun : Unbuilt S he loose m m') (h : Ok S m he loose) :
    m'.free.Perm m.free := by
  have hok := hun.ok
  unfold Ok at h hok
  rw [page_congr hun.dirs] at hok
  exact hok.free_perm h

theorem kmap_count (hk : k ∈ kmap L) (i : Nat) : i < k.count ↔ i * PGSIZE < k.size := by
  have h1 := L.data_gt
  have h2 := L.data_lt
  simp only [EXTMEM, PHYSTOP, PGSIZE] at h1 h2
  simp only [kmap, List.mem_cons, List.not_mem_nil, or_false] at hk
  rcases hk with rfl | rfl | rfl | rfl
  all_goals
    simp only [KMap.count, KMap.size, pageCount, KERNBASE, KERNLINK, EXTMEM, PHYSTOP, DEVSPACE,
      PGSIZE, NPDENTRIES, NPTENTRIES]
    omega

/-- **The kernel's address space.** For every place of `data` and every free
    list, `setupkvm` returns. It returns 0 and all pages are back, or a
    directory in which the ranges of `kmap` are mapped, without `PTE_U`, and
    nothing else. -/
theorem setupkvm_kernel_space (hS : ∀ p ∈ S, L.ValidPage p) (h : Ok S m he loose) :
    ∃ r m', m.setupkvm L = .ok (r, m') ∧
      ((r = none ∧ m'.dirs = m.dirs ∧ m'.free.Perm m.free) ∨
      ∃ d D, r = some d ∧ m'.dirs d = some D ∧
        (∀ k ∈ kmap L, ∀ i, i * PGSIZE < k.size → D.pte (k.virt / PGSIZE + i) =
          some ⟨k.phys_start / PGSIZE + i, k.w, false⟩) ∧
        ∀ v, (∀ k ∈ kmap L, ∀ i, i * PGSIZE < k.size → v ≠ k.virt / PGSIZE + i) →
          D.pte v = none) := by
  obtain ⟨⟨r, m'⟩, hs, hsetup⟩ := (setupkvm_spec (L := L) h).returns hS
  refine ⟨r, m', hs, ?_⟩
  obtain ⟨d, D, hr, hb, hk⟩ | ⟨hr, _, hun⟩ := hsetup
  · refine Or.inr ⟨d, D, hr, hb.dir, fun k hmem i hi => ?_, fun v hv => ?_⟩
    · have hin := (kmap_count hmem i).mpr hi
      have hpte := hk.inside k hmem _ (Nat.le_add_right _ i) (Nat.add_lt_add_left hin _)
      rw [Nat.add_sub_cancel_left] at hpte
      exact hpte
    · refine hk.outside v ?_
      rintro ⟨k, hmem, h1, h2⟩
      have hfirst : KMap.first k = k.virt / PGSIZE := rfl
      exact hv k hmem (v - k.first) ((kmap_count hmem _).mp (by omega)) (by omega)
  · exact Or.inl ⟨hr, hun.dirs, hun.free_perm h⟩

/-- A machine whose kernel is followed by free pages. -/
theorem setupkvm_kernel_space_example :
    ∃ r m', (⟨List.range' 0x400 3000, fun _ => none, fun _ _ => 0⟩ : Mem).setupkvm exampleLayout =
      .ok (r, m') := by
  obtain ⟨r, m', hs, _⟩ := setupkvm_kernel_space exampleLayout_valid
    (ok_initial (m := ⟨List.range' 0x400 3000, fun _ => none, fun _ _ => 0⟩) (fun _ => rfl)
      List.nodup_range')
  exact ⟨r, m', hs⟩

/-! ### Growing -/

/-- What a new page is to be: its contents, `PTE_W` and `PTE_U`. -/
abbrev NewPage : Type := Bytes.Buf PGSIZE × Bool × Bool

/-- The pages `a, ..., a + n - 1` have been mapped, each as `want` says. -/
structure NewPages (want : Nat → NewPage) (m' : Mem) (D D' : PageDir) (a n : Nat) : Prop where
  outside : ∀ v, ¬ (a ≤ v ∧ v < a + n) → D'.pte v = D.pte v
  inside : ∀ v, a ≤ v → v < a + n → ∃ x, D'.pte v = some ⟨x, (want v).2.1, (want v).2.2⟩ ∧
    m'.contents x = (want v).1
  tables : Tables D D' a n

theorem newPages_none : NewPages want m D D a 0 :=
  ⟨fun _ _ => rfl, fun v h1 h2 => by omega, tables_none D a⟩

/-- A page that has been mapped is kept while the next ones are. -/
theorem NewPages.step (ha : a < UPAGES) (hd : m.dirs d = some D')
    (hcont : m.contents x = (want a).1)
    (hpte : D'.pte = update D.pte a (some ⟨x, (want a).2.1, (want a).2.2⟩))
    (htab : ∀ i, (D'.ptab i).isSome ↔ (D.ptab i).isSome ∨ i = PDX a) (hkeep : Keeps All m m')
    (h : NewPages want m' D' D'' (a + 1) n) : NewPages want m' D D'' a (n + 1) := by
  refine ⟨fun v hv => ?_, fun v h1 h2 => ?_, h.tables.step htab⟩
  · rw [h.outside v (by omega), hpte, update_of_ne (by omega)]
  · by_cases hva : v = a
    · subst hva
      have hp : D'.pte v = some ⟨x, (want v).2.1, (want v).2.2⟩ := by
        rw [hpte, update_self]
      refine ⟨x, by rw [h.outside v (by omega), hp], ?_⟩
      exact (hkeep _ x trivial (page_user ha hd hp)).2.trans hcont
    · exact h.inside v (by omega) (by omega)

/-- A page of zeroes for the user. -/
def zeroPage : NewPage := (fun _ => 0, true, true)

/-- A call that ran out of memory has unmapped the pages of `d` from `a` up to
    `b`. -/
structure Undone (S : Set Page) (he : E → Option Page) (loose : List Page) (d : Page) (a b : Nat)
    (m : Mem) (D : PageDir) (m' : Mem) (D' : PageDir) : Prop where
  ok : Ok S m' he loose
  dir : m'.dirs d = some D'
  same : SameElse d m m'
  keeps : Keeps (Below d a) m m'
  pte : ∀ v, D'.pte v = if a ≤ v ∧ v < b then none else D.pte v

omit [DecidableEq E] in
/-- Unmapping, after a page was taken in vain. -/
theorem undone_of_unmapped (hlt : pgroundup oldsz < pgroundup newsz) (hkeep : Keeps All m m')
    (hdirs : m'.dirs = m.dirs) {m₃ : Mem} (hok : Ok S m₃ he loose) (hdirs₃ : m₃.dirs = m''.dirs)
    (hbelow : Keeps (Below d (pgroundup oldsz)) m' m₃)
    (hun : Unmapped d (pgroundup oldsz) (pgroundup newsz - pgroundup oldsz) m' D m'' D') :
    Undone S he loose d (pgroundup oldsz) (pgroundup newsz) m D m₃ D' := by
  refine ⟨hok, by rw [hdirs₃]; exact hun.dir, fun d' hne => ?_, hkeep.of_all.trans hbelow, fun v => ?_⟩
  · rw [hdirs₃, hun.same d' hne, hdirs]
  · rw [hun.pte v, Nat.add_sub_cancel' (Nat.le_of_lt hlt)]

/-- The loop of `allocuvm` maps zeroed pages, or unmaps what it has mapped. -/
theorem allocLoop_spec (hle : oldsz ≤ newsz) (hnew : newsz < KERNBASE) (n : Nat) :
    ∀ {m : Mem} {D : PageDir} {a : Nat}, Ok S m he loose → m.dirs d = some D →
    pgroundup oldsz ≤ a → a + n = pgroundup newsz → (∀ v, a ≤ v → v < a + n → D.pte v = none) →
    Ends (m.allocLoop L d oldsz newsz n a) (Fails L S) (fun r => ∃ D',
      (r.1 = newsz ∧ Adds S he loose d n m D r.2 D' ∧ NewPages (fun _ => zeroPage) r.2 D D' a n) ∨
      (r.1 = 0 ∧ m.free.length < D.missing.card + n ∧
        Undone S he loose d (pgroundup oldsz) (pgroundup newsz) m D r.2 D')) := by
  have htop := pgroundup_le (Nat.le_of_lt hnew)
  induction n with
  | zero =>
    intro m D a h hd _ _ _
    exact ⟨D, Or.inl ⟨rfl, .refl h hd, newPages_none⟩⟩
  | succ n ih =>
    intro m D a h hd hlo hhi hnone
    have ha : a < UPAGES := by omega
    have hrange : pgroundup oldsz < pgroundup newsz := by omega
    have hlt : oldsz < newsz := by
      refine Nat.lt_of_le_of_ne hle ?_
      rintro rfl
      exact Nat.lt_irrefl _ hrange
    rw [allocLoop]
    cases hf : m.free with
    | nil =>
      -- no page left
      rw [kalloc_of_nil hf]
      refine (deallocuvm_spec (Nat.le_of_lt hnew) hlt h hd).map (fun r hr => ?_)
      obtain ⟨_, hok, hkeep, D', hun⟩ := hr
      exact ⟨D', Or.inr ⟨rfl, by rw [List.length_nil]; omega,
        undone_of_unmapped hrange (.refl _ m) rfl hok rfl hkeep hun⟩⟩
    | cons x ps =>
      rw [kalloc_of_free hf]
      have hfill : ({ m with free := ps } : Mem).fill x 0 = m.taken x ps (fun _ => 0) := rfl
      have htaken := h.taken hf (fun _ => 0)
      have hkeep := h.keeps_taken hf (fun _ => 0)
      simp only [hfill]
      rcases h.mapNew hf ha hd (hnone a (Nat.le_refl a) (by omega)) (fun _ => 0) true true with
        ⟨hmap, hshort⟩ | ⟨m₁, D₁, hmap, hadd, hcont, hpte, htab⟩
      · -- none left for the page table
        rw [hmap]
        have hde := deallocuvm_spec (L := L) (Nat.le_of_lt hnew) hlt htaken (show _ = some D from hd)
        cases hdl : (m.taken x ps (fun _ => 0)).deallocuvm L d newsz oldsz with
        | error e =>
          rw [hdl] at hde
          simp only [hdl]
          exact hde
        | ok r =>
          rw [hdl] at hde
          simp only [hdl]
          obtain ⟨_, hok, hbelow, D', hun⟩ := hde
          refine hok.kfree_ends.map (fun m₃ hk => ⟨D', Or.inr ⟨rfl, ?_, ?_⟩⟩)
          · rw [← hf]
            omega
          · obtain ⟨hok₃, hdirs₃, _, hkeep₃⟩ := hk
            exact undone_of_unmapped hrange hkeep rfl hok₃ hdirs₃ (hbelow.trans hkeep₃.of_all) hun
      · rw [hmap]
        refine (ih hadd.ok hadd.dir (a := a + 1) (by omega) (by omega) (fun v h1 h2 => ?_)).mono
          (fun r hr => ?_)
        · rw [hpte, update_of_ne (by omega)]
          exact hnone v (by omega) (by omega)
        · obtain ⟨D', ⟨hr, hadd', hpages⟩ | ⟨hr, hshort, hun⟩⟩ := hr
          · refine ⟨D', Or.inl ⟨hr, ?_, ?_⟩⟩
            · rw [Nat.add_comm n 1]
              exact hadd.trans hadd'
            · exact hpages.step ha hadd.dir hcont hpte htab (hadd'.keeps hadd.ok)
          · refine ⟨D', Or.inr ⟨hr, ?_, hun.ok, hun.dir, hadd.same.trans hun.same,
              (hadd.keeps h).of_all.trans hun.keeps, fun v => ?_⟩⟩
            · have := hadd.room
              rw [← hf]
              omega
            · rw [hun.pte v, hpte]
              by_cases hva : v = a
              · subst hva
                rw [if_pos ⟨hlo, by omega⟩, if_pos ⟨hlo, by omega⟩]
              · rw [update_of_ne hva]

/-- What a call that fails may do to the address spaces: nothing. -/
def Untouched (m m' : Mem) : Prop :=
  ∀ d D, m.dirs d = some D → ∃ D', m'.dirs d = some D' ∧
    ∀ v, v < UPAGES → D'.pte v = D.pte v ∧
      ∀ e, D.pte v = some e → m'.contents e.ppn = m.contents e.ppn

theorem untouched_of_keeps (hk : Keeps All m m')
    (hpte : ∀ d D, m.dirs d = some D → ∃ D', m'.dirs d = some D' ∧
      ∀ v, v < UPAGES → D'.pte v = D.pte v) : Untouched m m' := by
  intro d D hd
  obtain ⟨D', hD', hsame⟩ := hpte d D hd
  refine ⟨D', hD', fun v hv => ⟨hsame v hv, fun e he => ?_⟩⟩
  exact (hk (.user d v) e.ppn trivial (page_user hv hd he)).2

theorem untouched_refl (m : Mem) : Untouched m m :=
  fun _ D hd => ⟨D, hd, fun _ _ => ⟨rfl, fun _ _ => rfl⟩⟩

omit [DecidableEq E] in
theorem Unbuilt.untouched (h : Unbuilt S he loose m m') : Untouched m m' :=
  untouched_of_keeps h.keeps (fun _ D hd => ⟨D, by rw [h.dirs]; exact hd, fun _ _ => rfl⟩)

/-- A call of `allocuvm` that failed: the pages that it mapped are free
    again. -/
structure Restored (S : Set Page) (he : E → Option Page) (loose : List Page) (d : Page)
    (m : Mem) (D : PageDir) (m' : Mem) (D' : PageDir) : Prop where
  ok : Ok S m' he loose
  dir : m'.dirs d = some D'
  same : SameElse d m m'
  keeps : Keeps All m m'
  pte : ∀ v, v < UPAGES → D'.pte v = D.pte v

omit [DecidableEq E] in
theorem Restored.untouched (h : Restored S he loose d m D m' D') (hd : m.dirs d = some D) :
    Untouched m m' := by
  refine untouched_of_keeps h.keeps (fun d₁ D₁ hd₁ => ?_)
  by_cases hdd : d₁ = d
  · subst hdd
    rw [hd] at hd₁
    obtain rfl := Option.some.inj hd₁
    exact ⟨D', h.dir, h.pte⟩
  · exact ⟨D₁, (h.same d₁ hdd).trans hd₁, fun _ _ => rfl⟩

omit [DecidableEq E] in
/-- The entries cleared on failure were clear before. -/
theorem Undone.restored {b : Nat} (hsized : D.Sized oldsz) (hd : m.dirs d = some D)
    (h : Undone S he loose d (pgroundup oldsz) b m D m' D') : Restored S he loose d m D m' D' := by
  refine ⟨h.ok, h.dir, h.same, fun o p _ ho => h.keeps o p ?_ ho, fun v hv => ?_⟩
  · rintro v rfl
    by_contra hge
    by_cases hu : v < UPAGES
    · simp [page, hu, hd, hsized.none_above hu (Nat.le_of_not_lt hge)] at ho
    · simp [page, hu] at ho
  · rw [h.pte v]
    split
    · next hrange => exact (hsized.none_above hv hrange.1).symm
    · rfl

/-- **`allocuvm`** from the current size. -/
theorem allocuvm_spec (newsz : Nat) (h : Ok S m he loose) (hd : m.dirs d = some D)
    (hsized : D.Sized oldsz) :
    Ends (m.allocuvm L d oldsz newsz) (Fails L S) (fun r => ∃ D',
      (r.1 = newsz ∧ oldsz ≤ newsz ∧ newsz < KERNBASE ∧
        Adds S he loose d (pgroundup newsz - pgroundup oldsz) m D r.2 D' ∧
        NewPages (fun _ => zeroPage) r.2 D D' (pgroundup oldsz)
          (pgroundup newsz - pgroundup oldsz)) ∨
      (r.1 = oldsz ∧ newsz < oldsz ∧ r.2 = m ∧ D' = D) ∨
      (r.1 = 0 ∧ (newsz < KERNBASE →
          m.free.length < D.missing.card + (pgroundup newsz - pgroundup oldsz)) ∧
        Restored S he loose d m D r.2 D')) := by
  unfold allocuvm
  split
  · next hge =>
    exact ⟨D, Or.inr (Or.inr ⟨rfl, fun hlt => by omega,
      h, hd, .refl d m, .refl _ m, fun _ _ => rfl⟩)⟩
  next hge =>
  split
  · next hlt => exact ⟨D, Or.inr (Or.inl ⟨rfl, hlt, rfl, rfl⟩)⟩
  next hlt =>
  have hle : oldsz ≤ newsz := Nat.le_of_not_lt hlt
  have hnew : newsz < KERNBASE := Nat.lt_of_not_ge hge
  have hmono := pgroundup_mono hle (Nat.le_of_lt hnew)
  have htop := pgroundup_le (Nat.le_of_lt hnew)
  refine (allocLoop_spec hle hnew _ h hd (Nat.le_refl _) (by omega)
    (fun v h1 h2 => hsized.none_above (by omega) h1)).mono (fun r hr => ?_)
  obtain ⟨D', ⟨hr, hadd, hpages⟩ | ⟨hr, hshort, hun⟩⟩ := hr
  · exact ⟨D', Or.inl ⟨hr, hle, hnew, hadd, hpages⟩⟩
  · exact ⟨D', Or.inr (Or.inr ⟨hr, fun _ => hshort, hun.restored hsized hd⟩)⟩

theorem allocuvm_untouched (h : Ok S m he loose) (hd : m.dirs d = some D) (hsized : D.Sized oldsz)
    (hl : m.allocuvm L d oldsz newsz = .ok (0, m')) : Untouched m m' := by
  obtain ⟨D', ⟨hr, hle, _, hadd, _⟩ | ⟨_, _, hsame, _⟩ | ⟨_, _, hres⟩⟩ :=
    (allocuvm_spec _ h hd hsized).of_ok hl
  · -- from 0 to 0
    have hnew : newsz = 0 := hr.symm
    have hold : oldsz = 0 := by omega
    subst hnew hold
    rw [allocuvm, if_neg (by decide), if_neg (by decide), Nat.sub_self, allocLoop] at hl
    obtain ⟨_, rfl⟩ := Prod.mk.inj (Except.ok.inj hl)
    exact untouched_refl m
  · obtain rfl : m' = m := hsame
    exact untouched_refl m'
  · exact hres.untouched hd

/-- The address space has its new size. -/
theorem NewPages.sized (hsized : D.Sized oldsz) (hle : oldsz ≤ newsz) (hnew : newsz < KERNBASE)
    (h : NewPages want m' D D' (pgroundup oldsz) (pgroundup newsz - pgroundup oldsz)) :
    D'.Sized newsz := by
  have hmono := pgroundup_mono hle (Nat.le_of_lt hnew)
  refine ⟨Nat.le_of_lt hnew, fun v hv => ?_⟩
  rw [← lt_pgroundup_iff (Nat.le_of_lt hnew)]
  by_cases hin : pgroundup oldsz ≤ v ∧ v < pgroundup newsz
  · obtain ⟨x, hx, _⟩ := h.inside v hin.1 (by omega)
    rw [hx]
    simp [hin.2]
  · rw [h.outside v (by omega), hsized.2 v hv, ← lt_pgroundup_iff hsized.1]
    omega

/-! ### Copying -/

/-- What the copy of page `v` of `Dp` is to be. -/
def copied (m : Mem) (Dp : PageDir) (v : Nat) : NewPage :=
  match Dp.pte v with
  | none => zeroPage
  | some e => (m.contents e.ppn, e.w, e.u)

/-- The original has not changed while it is being copied. -/
theorem copied_congr (hk : Keeps All m m') (hpg : m.dirs pgdir = some Dp) (hv : v < UPAGES) :
    copied m' Dp v = copied m Dp v := by
  unfold copied
  cases hp : Dp.pte v with
  | none => rfl
  | some e => simp only [(hk _ _ trivial (page_user hv hpg hp)).2]

/-- The loop of `copyuvm` copies pages that are present, or frees the new
    directory. -/
theorem copyLoop_spec (want : Nat → NewPage) (hne : pgdir ≠ d) (n : Nat) :
    ∀ {m : Mem} {D : PageDir} {i : Nat}, Ok S m he loose → m.dirs d = some D →
    m.dirs pgdir = some Dp → i + n ≤ UPAGES → (∀ v, i ≤ v → v < i + n → D.pte v = none) →
    (∀ v, i ≤ v → v < i + n → want v = copied m Dp v) →
    Ends (m.copyLoop L pgdir d n i)
      (fun e => Fails L S e ∨ ∃ v, i ≤ v ∧ v < i + n ∧ Dp.pte v = none) (fun r =>
      (r.1 = some d ∧ (∀ v, i ≤ v → v < i + n → (Dp.pte v).isSome) ∧
        ∃ D', Adds S he loose d n m D r.2 D' ∧ NewPages want r.2 D D' i n) ∨
      (r.1 = none ∧ m.free.length < D.missing.card + n ∧ Ok S r.2 he loose ∧
        r.2.dirs = update m.dirs d none ∧ Keeps (Elsewhere d) m r.2)) := by
  induction n with
  | zero =>
    intro m D i h hd _ _ _ _
    exact Or.inl ⟨rfl, fun v h1 h2 => by omega, D, .refl h hd, newPages_none⟩
  | succ n ih =>
    intro m D i h hd hpg hin hnone hwant
    have hi : i < UPAGES := by omega
    rw [copyLoop, hpg]
    cases hp : Dp.pte i with
    | none =>
      have habsent : ∃ v, i ≤ v ∧ v < i + (n + 1) ∧ Dp.pte v = none :=
        ⟨i, Nat.le_refl i, by omega, hp⟩
      cases ht : Dp.ptab (PDX i) with
      | none =>
        simp only [ht]
        exact Or.inr habsent
      | some y =>
        simp only [ht, hp]
        exact Or.inr habsent
    | some e =>
      obtain ⟨y, hy⟩ := Option.isSome_iff_exists.mp (PageDir.table_of_pte hp)
      simp only [hy, hp]
      have hwi : want i = (m.contents e.ppn, e.w, e.u) := by
        rw [hwant i (Nat.le_refl i) (by omega), copied, hp]
      cases hf : m.free with
      | nil =>
        rw [kalloc_of_nil hf]
        refine ((freevm_spec h hd).weaken (fun e => Or.inl)).map (fun m' hm => Or.inr ?_)
        exact ⟨rfl, by rw [List.length_nil]; omega, hm.1, hm.2.1, hm.2.2.1⟩
      | cons x ps =>
        rw [kalloc_of_free hf]
        have hcopy : ({ ({ m with free := ps } : Mem) with
            contents := update m.contents x (m.contents e.ppn) } : Mem) =
            m.taken x ps (m.contents e.ppn) := rfl
        have htaken := h.taken hf (m.contents e.ppn)
        have hkeep := h.keeps_taken hf (m.contents e.ppn)
        simp only [hcopy]
        rcases h.mapNew hf hi hd (hnone i (Nat.le_refl i) (by omega)) (m.contents e.ppn) e.w e.u with
          ⟨hmap, hshort⟩ | ⟨m₁, D₁, hmap, hadd, hcont, hpte, htab⟩
        · rw [hmap]
          have hkf := htaken.kfree_ends (L := L)
          cases hk : (m.taken x ps (m.contents e.ppn)).kfree L x with
          | error err =>
            rw [hk] at hkf
            simp only [hk]
            exact Or.inl hkf
          | ok m₂ =>
            rw [hk] at hkf
            simp only [hk]
            obtain ⟨hok₂, hdirs₂, _, hkeep₂⟩ := hkf
            have hd₂ : m₂.dirs d = some D := by
              rw [hdirs₂]
              exact hd
            refine ((freevm_spec hok₂ hd₂).weaken (fun e => Or.inl)).map (fun m' hm => Or.inr ?_)
            obtain ⟨hok, hdirs, hkeep', _⟩ := hm
            refine ⟨rfl, by rw [← hf]; omega, hok, ?_, (hkeep.trans hkeep₂).of_all.trans hkeep'⟩
            rw [hdirs, hdirs₂]
            rfl
        · rw [hmap]
          have hold := hadd.keeps h
          have hrest := ih hadd.ok hadd.dir ((hadd.same pgdir hne).trans hpg) (i := i + 1)
            (by omega) (fun v h1 h2 => by
              rw [hpte, update_of_ne (by omega)]
              exact hnone v (by omega) (by omega))
            (fun v h1 h2 => by
              rw [hwant v (by omega) (by omega), copied_congr hold hpg (by omega)])
          refine (hrest.weaken (fun err herr => ?_)).mono (fun r hr => ?_)
          · rcases herr with herr | ⟨v, h1, h2, hv⟩
            · exact Or.inl herr
            · exact Or.inr ⟨v, by omega, by omega, hv⟩
          · rcases hr with ⟨hr, hpres, D', hadd', hpages⟩ | ⟨hr, hshort, hok, hdirs, hkeep'⟩
            · refine Or.inl ⟨hr, fun v h1 h2 => ?_, D', ?_, ?_⟩
              · by_cases hvi : v = i
                · rw [hvi, hp]
                  rfl
                · exact hpres v (by omega) (by omega)
              · rw [Nat.add_comm n 1]
                exact hadd.trans hadd'
              · exact hpages.step hi hadd.dir (by rw [hwi]; exact hcont) (by rw [hwi]; exact hpte)
                  htab (hadd'.keeps hadd.ok)
            · refine Or.inr ⟨hr, ?_, hok, hdirs.trans hadd.same.drop, hold.of_all.trans hkeep'⟩
              have := hadd.room
              rw [← hf]
              omega

/-- **`copyuvm`** builds a directory with copies of the pages below `sz`, or
    leaves everything as it was. -/
theorem copyuvm_spec {sz : Nat} (h : Ok S m he loose) (hpg : m.dirs pgdir = some Dp)
    (hsz : sz ≤ KERNBASE) :
    Ends (m.copyuvm L pgdir sz) (fun e => Fails L S e ∨ ∃ v, v < pgroundup sz ∧ Dp.pte v = none)
      (fun r =>
      (∃ d m₁ D₁ D', r.1 = some d ∧ m.setupkvm L = .ok (some d, m₁) ∧ m₁.dirs d = some D₁ ∧
        KernelMaps (kmap L) .empty D₁ ∧ (∀ v, v < pgroundup sz → (Dp.pte v).isSome) ∧
        Built S he loose d (pgroundup sz + 1) m r.2 D' ∧
        NewPages (copied m Dp) r.2 D₁ D' 0 (pgroundup sz)) ∨
      (r.1 = none ∧ m.free.length < NPDENTRIES + pgroundup sz + 1 ∧ Unbuilt S he loose m r.2)) := by
  have htop := pgroundup_le hsz
  have hsetup := setupkvm_spec (L := L) h
  unfold copyuvm
  rcases hs : m.setupkvm L with e | ⟨r, m₁⟩
  · rw [hs] at hsetup
    exact Or.inl hsetup
  rw [hs] at hsetup
  rcases hsetup with ⟨d, D₁, rfl, hb, hk⟩ | ⟨rfl, hshort, hun⟩
  · have hne : pgdir ≠ d := by
      rintro rfl
      rw [hb.absent] at hpg
      cases hpg
    have hloop := copyLoop_spec (L := L) (copied m Dp) hne (pgroundup sz) hb.ok hb.dir
      ((hb.same pgdir hne).trans hpg) (i := 0) (by omega)
      (fun v _ h2 => hk.outside v (fun hcov => by
        obtain ⟨k, hk', h1, _⟩ := hcov
        have := (kmap_kernel hk').1
        omega))
      (fun v _ h2 => (copied_congr hb.keeps hpg (by omega)).symm)
    refine (hloop.weaken (fun err herr => ?_)).mono (fun r hr => ?_)
    · rcases herr with herr | ⟨v, _, h2, hv⟩
      · exact Or.inl herr
      · exact Or.inr ⟨v, by omega, hv⟩
    · rcases hr with ⟨hr, hpres, D', hadd, hpages⟩ | ⟨hr, hshort, hok, hdirs, hkeep⟩
      · have h1 := hadd.room
        have h2 := hb.room
        exact Or.inl ⟨d, m₁, D₁, D', hr, rfl, hb.dir, hk,
          fun v hv => hpres v (Nat.zero_le v) (by omega),
          ⟨hadd.ok, hb.fresh, hb.absent, hadd.dir, hb.same.trans hadd.same,
            hb.keeps.trans (hadd.keeps hb.ok), by omega⟩, hpages⟩
      · have h2 := hb.room
        refine Or.inr ⟨hr, by omega, hok, ?_,
          (hb.keeps.of_all.trans hkeep).all_of_elsewhere hb.absent⟩
        rw [hdirs, hb.same.drop, ← hb.absent, update_eq_self]
  · exact Or.inr ⟨rfl, by omega, hun⟩

/-! ### `clearpteu` -/

omit [DecidableEq E] in
/-- **`clearpteu`** takes `PTE_U` from an entry. It needs a page table. -/
theorem clearpteu_spec (h : Ok S m he loose) (hd : m.dirs d = some D) (ht : (D.ptab (PDX v)).isSome) :
    ∃ m' D', m.clearpteu d v = .ok m' ∧ Ok S m' he loose ∧ m'.dirs d = some D' ∧ SameElse d m m' ∧
      m'.contents = m.contents ∧ m'.free = m.free ∧ D'.ptab = D.ptab ∧
      D'.pte = update D.pte v ((D.pte v).map (fun e => { e with u := false })) := by
  obtain ⟨y, hy⟩ := Option.isSome_iff_exists.mp ht
  refine ⟨m.setDir d (D.setPte v ((D.pte v).map (fun e => { e with u := false }))), _,
    by simp only [clearpteu, hd, hy], ?_, dirs_setDir_self _, sameElse_setDir _, rfl, rfl, rfl,
    PageDir.pte_setPte ht⟩
  by_cases hv : v < UPAGES
  · -- the entry keeps its page
    have hsame : ((D.pte v).map (fun e => { e with u := false })).map Pte.ppn =
        m.page (.user d v) := by
      simp only [page, hv, if_true, hd, Option.bind_some, Option.map_map]
      rfl
    unfold Ok at h ⊢
    rw [page_setPte_user hd hv ht, hsame, update_eq_self]
    exact h
  · unfold Ok at h ⊢
    rw [page_setPte_kernel hd (Nat.le_of_not_lt hv) ht]
    exact h

end Mem

end Xv6.Vm
