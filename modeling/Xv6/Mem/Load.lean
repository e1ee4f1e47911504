import Xv6.Mem.Args
import Xv6.Mem.Grow

/-! # The Address Space `exec` Loads

    When `exec` comes to its arguments, the new directory maps the pages of
    the program, the guard page and the stack page, one after the other, and
    in its kernel half what `setupkvm` mapped. `Loaded` says so, page tables
    included: `uva2ka` needs one for every address it is asked about.

    What the pages of the program hold is a function of the segments
    (`image`). A load that fails leaves nothing behind.
-/

namespace Xv6.Vm

open Ownership

/-- What loading a segment does to the pages of a program. -/
def Segment.load (seg : Segment) (img : Nat → Bytes.Buf PGSIZE) : Nat → Bytes.Buf PGSIZE := fun v =>
  if seg.vaddr / PGSIZE ≤ v ∧ v < seg.vaddr / PGSIZE + Mem.pgroundup seg.filesz then
    (seg.pages (v - seg.vaddr / PGSIZE)).getD id (img v)
  else img v

/-- What loading the segments among the program headers does. -/
def loadImage (img : Nat → Bytes.Buf PGSIZE) : List ProgHdr → Nat → Bytes.Buf PGSIZE
  | [] => img
  | .load seg :: phs => loadImage (seg.load img) phs
  | _ :: phs => loadImage img phs

/-- A segment that has been loaded into an address space of size `sz`. -/
structure Segment.Accepted (seg : Segment) (sz : Nat) : Prop where
  aligned : seg.vaddr % PGSIZE = 0
  filesz_le : seg.filesz ≤ seg.memsz
  top_le : seg.vaddr + seg.memsz ≤ sz
  read : ∀ j, j < Mem.pgroundup seg.filesz → (seg.pages j).isSome

theorem Segment.Accepted.mono {seg : Segment} {sz sz' : Nat} (h : seg.Accepted sz) (hle : sz ≤ sz') :
    seg.Accepted sz' :=
  ⟨h.aligned, h.filesz_le, Nat.le_trans h.top_le hle, h.read⟩

namespace Mem

variable {E : Type} [DecidableEq E] {S : Set Page} {m m' m'' : Mem} {he : E → Option Page}
  {loose : List Page} {d : Page} {D D' : PageDir} {L : Layout} {v : Nat} {f : ExecFile}

/-! ### The kernel half -/

theorem PDX_eq_iff {a b : Nat} (ha : a < 2 ^ 20) (hb : b < 2 ^ 20) :
    PDX a = PDX b ↔ a / 1024 = b / 1024 := by
  simp only [PDX, NPTENTRIES, NPDENTRIES, Fin.mk.injEq]
  omega

/-- The kernel maps physical memory up to `PHYSTOP`, and the devices. -/
theorem covered_kmap (L : Layout) (a : Nat) :
    Covered (kmap L) a ↔ (0x80000 ≤ a ∧ a < 0x8E000) ∨ (0xFE000 ≤ a ∧ a < 0x100000) := by
  have hdata := L.data_gt
  have hstop := L.data_lt
  simp only [EXTMEM, PHYSTOP, PGSIZE] at hdata hstop
  have hmem : Covered (kmap L) a ↔
      ∃ r ∈ (kmap L).map (fun k => (k.first, k.count)), r.1 ≤ a ∧ a < r.1 + r.2 := by
    simp [Covered]
  rw [hmem, kmap_ranges]
  simp only [List.mem_cons, List.not_mem_nil, or_false, exists_eq_or_imp, exists_eq_left]
  omega

/-- The kernel half of a directory, as `setupkvm` leaves it. -/
structure KernelHalf (D : PageDir) : Prop where
  /-- no kernel page has `PTE_U` -/
  user : ∀ v e, UPAGES ≤ v → D.pte v = some e → e.u = false
  /-- there are page tables up to `PHYSTOP` and from `DEVSPACE` on -/
  tables : ∀ v, UPAGES ≤ v → v < 2 ^ 20 →
    (D.ptab (PDX v) = none ↔ (KERNBASE + PHYSTOP) / PGSIZE ≤ v ∧ v < DEVSPACE / PGSIZE)

theorem KernelMaps.half (h : KernelMaps (kmap L) .empty D) : KernelHalf D := by
  refine ⟨fun a e _ he => ?_, fun v hlo hhi => ?_⟩
  · by_cases hcov : Covered (kmap L) a
    · obtain ⟨k, hk, h1, h2⟩ := hcov
      rw [h.inside k hk a h1 h2] at he
      rw [← Option.some.inj he]
    · rw [h.outside a hcov] at he
      cases he
  · have hnone : D.ptab (PDX v) = none ↔ ¬ ∃ a, Covered (kmap L) a ∧ PDX a = PDX v := by
      rw [← Option.not_isSome_iff_eq_none, h.tables]
      simp [PageDir.empty]
    rw [hnone]
    simp only [UPAGES, KERNBASE, PHYSTOP, DEVSPACE, PGSIZE] at hlo ⊢
    constructor
    · -- outside the hole the page is mapped itself
      intro hno
      by_contra hout
      exact hno ⟨v, (covered_kmap L v).mpr (by omega), rfl⟩
    · rintro hin ⟨a, hcov, ha⟩
      rw [covered_kmap] at hcov
      rw [PDX_eq_iff (by omega) hhi] at ha
      omega

/-- The kernel halves of two directories are the same. -/
def KernelSame (D D' : PageDir) : Prop :=
  ∀ v, UPAGES ≤ v → D'.pte v = D.pte v ∧
    (v < 2 ^ 20 → ((D'.ptab (PDX v)).isSome ↔ (D.ptab (PDX v)).isSome))

theorem KernelHalf.of_same (h : KernelHalf D) (hs : KernelSame D D') : KernelHalf D' := by
  refine ⟨fun v e hv he => ?_, fun v hlo hhi => ?_⟩
  · rw [(hs v hv).1] at he
    exact h.user v e hv he
  · rw [← h.tables v hlo hhi, ← Option.not_isSome_iff_eq_none, ← Option.not_isSome_iff_eq_none,
      (hs v hlo).2 hhi]

theorem NewPages.kernelSame {want : Nat → NewPage} {n : Nat} (h : NewPages want m D D' v n)
    (hv : v + n ≤ UPAGES) : KernelSame D D' := by
  intro a ha
  refine ⟨h.outside a (by omega), fun hlt => ?_⟩
  rw [h.tables]
  refine or_iff_left ?_
  rintro ⟨b, h1, h2, hb⟩
  simp only [UPAGES, KERNBASE, PGSIZE] at ha hv
  rw [PDX_eq_iff (by omega) hlt] at hb
  omega

/-! ### Filling a new directory -/

/-- What a piece of the loader does to everything but the directory that it
    fills. -/
structure Fills (S : Set Page) (he : E → Option Page) (loose : List Page) (d : Page)
    (m m' : Mem) : Prop where
  ok : Ok S m' he loose
  dir : ∃ D', m'.dirs d = some D'
  same : SameElse d m m'
  keeps : Keeps (Elsewhere d) m m'

section

omit [DecidableEq E]

theorem Fills.refl (h : Ok S m he loose) (hd : m.dirs d = some D) : Fills S he loose d m m :=
  ⟨h, ⟨D, hd⟩, .refl d m, .refl _ m⟩

theorem Fills.trans (h : Fills S he loose d m m') (h' : Fills S he loose d m' m'') :
    Fills S he loose d m m'' :=
  ⟨h'.ok, h'.dir, h.same.trans h'.same, h.keeps.trans h'.keeps⟩

end

/-- `freevm` of a new directory, whatever it has been filled with. -/
theorem Fills.freevm (hnone : m.dirs d = none) (h : Fills S he loose d m m') :
    Ends (m'.freevm L d) (Fails L S) (Unbuilt S he loose m) := by
  obtain ⟨D', hD'⟩ := h.dir
  refine (freevm_spec h.ok hD').mono (fun m'' hfree => ?_)
  obtain ⟨hok, hdirs, hkeep, _⟩ := hfree
  refine ⟨hok, ?_, (h.keeps.trans hkeep).all_of_elsewhere hnone⟩
  rw [hdirs, h.same.drop, ← hnone, Function.update_eq_self]

section

omit [DecidableEq E]

/-- Writing to the user pages of `d`. -/
theorem fills_of_write (h : Ok S m he loose) (hd : m.dirs d = some D) (hsame : SameMap m m')
    (hc : ∀ p, (∀ v e, v < UPAGES → D.pte v = some e → p ≠ e.ppn) → m'.contents p = m.contents p) :
    Fills S he loose d m m' := by
  refine ⟨h.of_same hsame.1 hsame.2, ⟨D, by rw [hsame.1]; exact hd⟩, fun d' _ => by rw [hsame.1], ?_⟩
  intro o p hK ho
  refine ⟨by rw [page_congr hsame.1]; exact ho, hc p (fun v e hv hp heq => ?_)⟩
  -- the page belongs to another directory
  have howner := h.page_inj ho (heq ▸ page_user hv hd hp)
  exact hK (by rw [howner]; rfl)

/-- The loop of `loaduvm` over pages that are mapped: it changes these pages
    only, and each of them once. -/
theorem loadLoop_spec {seg : Segment}
    (hinj : ∀ v v' e e', v < UPAGES → v' < UPAGES → D.pte v = some e → D.pte v' = some e' →
      e.ppn = e'.ppn → v = v') (n : Nat) : ∀ {m : Mem} {i : Nat}, m.dirs d = some D →
    seg.vaddr / PGSIZE + (i + n) ≤ UPAGES →
    (∀ j, i ≤ j → j < i + n → (D.pte (seg.vaddr / PGSIZE + j)).isSome) →
    ∃ b m', m.loadLoop d seg n i = .ok (b, m') ∧ SameMap m m' ∧
      (∀ p, (∀ j e, i ≤ j → j < i + n → D.pte (seg.vaddr / PGSIZE + j) = some e → p ≠ e.ppn) →
        m'.contents p = m.contents p) ∧
      (b = true → ∀ j e, i ≤ j → j < i + n → D.pte (seg.vaddr / PGSIZE + j) = some e →
        (seg.pages j).isSome ∧ m'.contents e.ppn = (seg.pages j).getD id (m.contents e.ppn)) := by
  induction n with
  | zero =>
    intro m i _ _ _
    exact ⟨true, m, rfl, ⟨rfl, rfl⟩, fun _ _ => rfl, fun _ j e h1 h2 => by omega⟩
  | succ n ih =>
    intro m i hd hu hpres
    obtain ⟨e₀, hp₀⟩ := Option.isSome_iff_exists.mp (hpres i (Nat.le_refl i) (by omega))
    obtain ⟨y, hy⟩ := Option.isSome_iff_exists.mp (PageDir.table_of_pte hp₀)
    simp only [loadLoop, hd, hy]
    cases hf : seg.pages i with
    | none => exact ⟨false, m, rfl, ⟨rfl, rfl⟩, fun _ _ => rfl, nofun⟩
    | some f =>
      have hpatch : m.patch D (seg.vaddr / PGSIZE + i) f = m.setPage e₀.ppn (f (m.contents e₀.ppn)) := by
        simp [patch, setPage, hp₀]
      simp only [hpatch]
      obtain ⟨b, m', hl, hsame, hkept, hread⟩ := ih (m := m.setPage e₀.ppn (f (m.contents e₀.ppn)))
        (i := i + 1) hd (by omega) (fun j h1 h2 => hpres j (by omega) (by omega))
      refine ⟨b, m', hl, (sameMap_setPage _).trans hsame, fun p hp => ?_, fun hb j e h1 h2 hp => ?_⟩
      · rw [hkept p (fun j e h1 h2 => hp j e (by omega) (by omega))]
        exact Function.update_of_ne (hp i e₀ (Nat.le_refl i) (by omega) hp₀) _ _
      · by_cases hji : j = i
        · -- this page is not written again
          subst hji
          obtain rfl : e₀ = e := Option.some.inj (hp₀.symm.trans hp)
          rw [hf, hkept e₀.ppn, contents_setPage_self]
          · exact ⟨rfl, rfl⟩
          · intro k e' h3 h4 hp' heq
            have := hinj _ _ _ _ (by omega) (by omega) hp hp' heq
            omega
        · obtain ⟨hsome, hc⟩ := hread hb j e (by omega) (by omega) hp
          refine ⟨hsome, hc.trans (congrArg _ (Function.update_of_ne (fun heq => hji ?_) _ _))⟩
          have := hinj _ _ _ _ (by omega) (by omega) hp hp₀ heq
          omega

end

/-- An address space with a program in it: `sz` bytes of it are mapped, and
    its pages hold `img`. -/
structure Program (m : Mem) (d : Page) (D : PageDir) (sz : Nat) (img : Nat → Bytes.Buf PGSIZE) :
    Prop where
  dir : m.dirs d = some D
  sized : D.Sized sz
  kernel : KernelHalf D
  page : ∀ v e, v < UPAGES → D.pte v = some e →
    e.w = true ∧ e.u = true ∧ m.contents e.ppn = img v
  /-- what has not been loaded yet is zero -/
  zero : ∀ v, pgroundup sz ≤ v → img v = fun _ => 0

variable {sz : Nat} {img : Nat → Bytes.Buf PGSIZE}

omit [DecidableEq E] in
theorem Program.grow {newsz : Nat} (hp : Program m d D sz img) (h : Ok S m he loose)
    (hle : sz ≤ newsz) (hnew : newsz < KERNBASE)
    (hadd : Adds S he loose d (pgroundup newsz - pgroundup sz) m D m' D')
    (hpages : NewPages (fun _ => zeroPage) m' D D' (pgroundup sz) (pgroundup newsz - pgroundup sz)) :
    Program m' d D' newsz img := by
  have hmono := pgroundup_mono hle (Nat.le_of_lt hnew)
  have htop := pgroundup_le (Nat.le_of_lt hnew)
  refine ⟨hadd.dir, hpages.sized hp.sized hle hnew,
    hp.kernel.of_same (hpages.kernelSame (by omega)), fun v e hv hpte => ?_,
    fun v hv => hp.zero v (by omega)⟩
  by_cases hin : pgroundup sz ≤ v ∧ v < pgroundup newsz
  · obtain ⟨x, hx, hc⟩ := hpages.inside v hin.1 (by omega)
    rw [hpte] at hx
    obtain rfl := Option.some.inj hx
    exact ⟨rfl, rfl, hc.trans (hp.zero v hin.1).symm⟩
  · rw [hpages.outside v (by omega)] at hpte
    obtain ⟨hw, hu, hc⟩ := hp.page v e hv hpte
    have hkept := (hadd.keeps h (.user d v) e.ppn trivial (page_user hv hp.dir hpte)).2
    exact ⟨hw, hu, hkept.trans hc⟩

/-- `allocuvm` grows the program, or leaves it as it is. -/
theorem allocuvm_program (newsz : Nat) (h : Ok S m he loose) (hp : Program m d D sz img) :
    Ends (m.allocuvm L d sz newsz) (Fails L S) (fun r => Fills S he loose d m r.2 ∧
      (r.1 ≠ 0 → r.1 = max sz newsz ∧ newsz < KERNBASE ∧ ∃ D', Program r.2 d D' r.1 img)) := by
  refine (allocuvm_spec newsz h hp.dir hp.sized).mono (fun r hr => ?_)
  obtain ⟨D', ⟨hr, hle, hnew, hadd, hpages⟩ | ⟨hr, hlt, hm, _⟩ | ⟨hr, _, hres⟩⟩ := hr
  · refine ⟨⟨hadd.ok, ⟨D', hadd.dir⟩, hadd.same, (hadd.keeps h).of_all⟩, fun _ => ⟨by omega, hnew, D', ?_⟩⟩
    rw [hr]
    exact hp.grow h hle hnew hadd hpages
  · rw [hm]
    refine ⟨.refl h hp.dir, fun _ => ⟨by omega, Nat.lt_of_lt_of_le hlt hp.sized.1, D, ?_⟩⟩
    rw [hr]
    exact hp
  · exact ⟨⟨hres.ok, ⟨D', hres.dir⟩, hres.same, hres.keeps.of_all⟩, fun hne => absurd hr hne⟩

omit [DecidableEq E] in
/-- `loaduvm` of a segment whose pages are mapped. -/
theorem loaduvm_program {seg : Segment} (h : Ok S m he loose) (hp : Program m d D sz img)
    (hal : seg.vaddr % PGSIZE = 0) (hfs : seg.filesz ≤ seg.memsz)
    (htop : seg.vaddr + seg.memsz ≤ sz) :
    ∃ b m', m.loaduvm d seg = .ok (b, m') ∧ Fills S he loose d m m' ∧
      (b = true → seg.Accepted sz ∧ Program m' d D sz (seg.load img)) := by
  have hsz := hp.sized.1
  have hinj : ∀ v v' e e', v < UPAGES → v' < UPAGES → D.pte v = some e → D.pte v' = some e' →
      e.ppn = e'.ppn → v = v' := by
    intro v v' e e' hv hv' he he' heq
    have howner := h.page_inj (page_user hv hp.dir he) (heq ▸ page_user hv' hp.dir he')
    exact (Owner.user.inj howner).2
  have hpage : ∀ j, j < pgroundup seg.filesz → (seg.vaddr / PGSIZE + j) * PGSIZE < sz := by
    intro j hj
    rw [lt_pgroundup_iff (by omega)] at hj
    have hdiv := Nat.div_add_mod seg.vaddr PGSIZE
    rw [Nat.add_mul, Nat.mul_comm (seg.vaddr / PGSIZE)]
    omega
  have hround : seg.vaddr / PGSIZE + (0 + pgroundup seg.filesz) ≤ UPAGES := by
    by_cases h0 : pgroundup seg.filesz = 0
    · simp only [KERNBASE, UPAGES, PGSIZE] at hsz ⊢
      omega
    · have := hpage (pgroundup seg.filesz - 1) (by omega)
      simp only [KERNBASE, UPAGES, PGSIZE] at this hsz ⊢
      omega
  obtain ⟨b, m', hl, hsame, hkept, hread⟩ := loadLoop_spec hinj (pgroundup seg.filesz) hp.dir hround
    (fun j _ hj => (hp.sized.2 _ (by omega)).mpr (hpage j (by omega)))
  refine ⟨b, m', by rw [loaduvm, if_neg (by simpa using hal), hl],
    fills_of_write h hp.dir hsame (fun p hno => hkept p (fun j e _ hj => hno _ e (by omega))), ?_⟩
  intro hb
  refine ⟨⟨hal, hfs, htop, fun j hj => ?_⟩, by rw [hsame.1]; exact hp.dir, hp.sized, hp.kernel,
    fun v e hv hpte => ?_, fun v hv => ?_⟩
  · obtain ⟨e, hpte⟩ := Option.isSome_iff_exists.mp ((hp.sized.2 _ (by omega)).mpr (hpage j hj))
    exact (hread hb j e (Nat.zero_le j) (by omega) hpte).1
  · obtain ⟨hw, hu, hc⟩ := hp.page v e hv hpte
    refine ⟨hw, hu, ?_⟩
    unfold Segment.load
    split
    · next hin =>
      obtain ⟨j, rfl⟩ := Nat.exists_eq_add_of_le hin.1
      rw [(hread hb j e (Nat.zero_le j) (by omega) hpte).2, hc, Nat.add_sub_cancel_left]
    · next hout =>
      rw [hkept e.ppn, hc]
      intro j e' _ hj hpte' heq
      have := hinj _ _ _ _ hv (by omega) hpte hpte' heq
      omega
  · unfold Segment.load
    rw [if_neg, hp.zero v hv]
    rintro ⟨h1, h2⟩
    have := hpage (v - seg.vaddr / PGSIZE) (by omega)
    have hv' := (lt_pgroundup_iff (v := v) hsz).not.mp (by omega)
    have hsum : seg.vaddr / PGSIZE + (v - seg.vaddr / PGSIZE) = v := by omega
    rw [hsum] at this
    exact hv' this

/-! ### The program -/

/-- The turn of `exec`'s loop for one segment. -/
theorem loadSegment_spec (seg : Segment) (h : Ok S m he loose) (hp : Program m d D sz img) :
    Ends (m.loadSegment L d sz seg) (Fails L S) (fun r => Fills S he loose d m r.2 ∧
      ∀ s, r.1 = some s → sz ≤ s ∧ seg.Accepted s ∧ ∃ D', Program r.2 d D' s (seg.load img)) := by
  have hbad : Fills S he loose d m m ∧ ∀ s, none = some s → sz ≤ s ∧ seg.Accepted s ∧
      ∃ D', Program m d D' s (seg.load img) := ⟨.refl h hp.dir, nofun⟩
  have hmem := seg.memsz_lt
  unfold loadSegment
  dsimp only
  split
  · exact hbad
  next hfs =>
  split
  · exact hbad
  next hwrap =>
  -- the sum did not wrap
  have htop : (seg.vaddr + seg.memsz) % 2 ^ 32 = seg.vaddr + seg.memsz := by omega
  have halloc := allocuvm_program (L := L) ((seg.vaddr + seg.memsz) % 2 ^ 32) h hp
  rcases hal : m.allocuvm L d sz ((seg.vaddr + seg.memsz) % 2 ^ 32) with e | ⟨_ | s, m₁⟩
  · rw [hal] at halloc
    exact halloc
  · rw [hal] at halloc
    exact ⟨halloc.1, nofun⟩
  rw [hal] at halloc
  obtain ⟨hfill, hgrown⟩ := halloc
  obtain ⟨hmax, _, D₁, hp₁⟩ := hgrown (Nat.succ_ne_zero s)
  simp only at hmax hp₁ ⊢
  split
  · exact ⟨hfill, nofun⟩
  next haligned =>
  obtain ⟨b, m₂, hl, hfill₂, hload⟩ := loaduvm_program hfill.ok hp₁ (Decidable.not_not.mp haligned)
    (Nat.le_of_not_lt hfs) (by omega)
  rw [hl]
  cases b with
  | false => exact ⟨hfill.trans hfill₂, nofun⟩
  | true =>
    refine ⟨hfill.trans hfill₂, fun s' hs' => ?_⟩
    obtain rfl := Option.some.inj hs'
    exact ⟨by omega, (hload rfl).1, D₁, (hload rfl).2⟩

/-- The loop of `exec` over the program headers. -/
theorem loadAll_spec (phs : List ProgHdr) : ∀ {m : Mem} {D : PageDir} {sz : Nat}
    {img : Nat → Bytes.Buf PGSIZE}, Ok S m he loose → Program m d D sz img →
    Ends (m.loadAll L d phs sz) (Fails L S) (fun r => Fills S he loose d m r.2 ∧
      ∀ s, r.1 = some s → sz ≤ s ∧ (∀ seg, .load seg ∈ phs → seg.Accepted s) ∧
        ∃ D', Program r.2 d D' s (loadImage img phs)) := by
  induction phs with
  | nil =>
    intro m D sz img h hp
    refine ⟨.refl h hp.dir, fun s hs => ?_⟩
    obtain rfl := Option.some.inj hs
    exact ⟨Nat.le_refl _, nofun, D, hp⟩
  | cons ph phs ih =>
    intro m D sz img h hp
    cases ph with
    | short => exact ⟨.refl h hp.dir, nofun⟩
    | other =>
      refine (ih h hp).mono (fun r hr => ⟨hr.1, fun s hs => ?_⟩)
      obtain ⟨hle, hacc, hprog⟩ := hr.2 s hs
      refine ⟨hle, fun seg hmem => ?_, hprog⟩
      rcases List.mem_cons.mp hmem with heq | hmem
      · cases heq
      · exact hacc seg hmem
    | load seg =>
      have hseg := loadSegment_spec (L := L) seg h hp
      rw [loadAll]
      rcases hl : m.loadSegment L d sz seg with e | ⟨_ | s₁, m₁⟩
      · rw [hl] at hseg
        exact hseg
      · rw [hl] at hseg
        exact ⟨hseg.1, nofun⟩
      rw [hl] at hseg
      obtain ⟨hfill, hsome⟩ := hseg
      obtain ⟨hle₁, hacc₁, D₁, hp₁⟩ := hsome s₁ rfl
      refine (ih hfill.ok hp₁).mono (fun r hr => ⟨hfill.trans hr.1, fun s hs => ?_⟩)
      obtain ⟨hle, hacc, hprog⟩ := hr.2 s hs
      refine ⟨Nat.le_trans hle₁ hle, fun seg' hmem => ?_, hprog⟩
      rcases List.mem_cons.mp hmem with heq | hmem
      · obtain rfl := ProgHdr.load.inj heq
        exact hacc₁.mono hle
      · exact hacc seg' hmem

/-! ### The address space before the arguments are pushed -/

/-- The address space when `exec` sets `sp = sz`: `g + 2` pages, of which
    page `g` is the guard page and the last one is the stack. -/
structure Loaded (m : Mem) (d : Page) (D : PageDir) (g : Nat) : Prop where
  dir : m.dirs d = some D
  top : g + 2 < UPAGES
  mapped : ∀ v, v < g + 2 → (D.pte v).isSome
  guard : ∃ e, D.pte g = some e ∧ e.u = false
  stack : ∃ e, D.pte (g + 1) = some e ∧ e.u = true
  kernel : KernelHalf D

theorem pgroundup_mul {k : Nat} (hk : k ≤ UPAGES) : pgroundup (k * PGSIZE) = k := by
  have hle : k * PGSIZE ≤ KERNBASE := by
    simp only [UPAGES, KERNBASE, PGSIZE] at hk ⊢
    omega
  rw [pgroundup_of_lt hle]
  simp only [PGSIZE]
  omega

/-- Rounding the size up maps nothing. -/
theorem Program.round (h : Program m d D sz img) : Program m d D (pgroundup sz * PGSIZE) img := by
  have hround := pgroundup_le h.sized.1
  have hle : pgroundup sz * PGSIZE ≤ KERNBASE := by
    simp only [UPAGES, KERNBASE, PGSIZE] at hround ⊢
    omega
  refine ⟨h.dir, ⟨hle, fun v hv => ?_⟩, h.kernel, h.page, fun v hv => h.zero v ?_⟩
  · rw [h.sized.2 v hv, ← lt_pgroundup_iff h.sized.1, ← lt_pgroundup_iff hle, pgroundup_mul hround]
  · rw [pgroundup_mul hround] at hv
    exact hv

/-- The guard page and the stack page. -/
theorem growStack_spec {grown : Except Panic (Option Nat × Mem)} (h : Ok S m he loose)
    (hp : Program m d D sz img) (hg : m.growStack L d sz = grown) :
    Ends grown (Fails L S) (fun r => Fills S he loose d m r.2 ∧
      ∀ s, r.1 = some s → s = (pgroundup sz + 2) * PGSIZE ∧
        ∃ D', Loaded r.2 d D' (pgroundup sz) ∧
          ∀ v e, v < UPAGES → D'.pte v = some e → r.2.contents e.ppn = img v) := by
  have hround := pgroundup_le hp.sized.1
  have hpr := hp.round
  subst hg
  unfold growStack
  dsimp only
  generalize pgroundup sz = g at hround hpr ⊢
  have hnew : (g * PGSIZE + 2 * PGSIZE) % 2 ^ 32 = (g + 2) * PGSIZE := by
    simp only [UPAGES, KERNBASE, PGSIZE] at hround ⊢
    omega
  rw [hnew]
  have halloc := allocuvm_program (L := L) ((g + 2) * PGSIZE) h hpr
  rcases hal : m.allocuvm L d (g * PGSIZE) ((g + 2) * PGSIZE) with e | ⟨_ | s, m₁⟩
  · rw [hal] at halloc
    exact halloc
  · rw [hal] at halloc
    exact ⟨halloc.1, by simp⟩
  rw [hal] at halloc
  obtain ⟨hfill, hgrown⟩ := halloc
  obtain ⟨hmax, htop, D₁, hp₁⟩ := hgrown (Nat.succ_ne_zero s)
  have hs : s + 1 = (g + 2) * PGSIZE :=
    hmax.trans (max_eq_right (Nat.mul_le_mul_right _ (Nat.le_add_right g 2)))
  simp only [hs] at hp₁ ⊢
  have hg : g + 2 < UPAGES := by
    simp only [UPAGES, KERNBASE, PGSIZE] at htop ⊢
    omega
  have hmapped : ∀ v, v < g + 2 → (D₁.pte v).isSome := fun v hv =>
    (hp₁.sized.2 v (by omega)).mpr (Nat.mul_lt_mul_of_pos_right hv (by decide))
  obtain ⟨eg, hpg⟩ := Option.isSome_iff_exists.mp (hmapped g (by omega))
  obtain ⟨es, hps⟩ := Option.isSome_iff_exists.mp (hmapped (g + 1) (by omega))
  obtain ⟨m₂, D₂, hc, hok₂, hd₂, hsame₂, hcont, _, htab, hpte⟩ :=
    clearpteu_spec hfill.ok hp₁.dir (PageDir.table_of_pte hpg)
  rw [hpg] at hpte
  have hkeep₂ : Keeps (Elsewhere d) m₁ m₂ := by
    intro o p hK ho
    rw [page_eq, hsame₂ _ hK, ← page_eq, hcont]
    exact ⟨ho, rfl⟩
  rw [hc]
  refine ⟨hfill.trans ⟨hok₂, ⟨D₂, hd₂⟩, hsame₂, hkeep₂⟩, fun s' hs' => ?_⟩
  obtain rfl := Option.some.inj hs'
  -- only the flag of the guard page has changed
  have hother : ∀ v, v ≠ g → D₂.pte v = D₁.pte v := fun v hv => by
    rw [hpte, Function.update_of_ne hv]
  have hguard : D₂.pte g = some { eg with u := false } := by
    rw [hpte, Function.update_self]
    rfl
  refine ⟨rfl, D₂, ⟨hd₂, hg, fun v hv => ?_, ⟨_, hguard, rfl⟩,
    ⟨es, (hother _ (by omega)).trans hps, (hp₁.page _ es (by omega) hps).2.1⟩,
    hp₁.kernel.of_same (fun v hv => ⟨hother v (by omega), fun _ => by rw [htab]⟩)⟩,
    fun v e hv hpv => ?_⟩
  · by_cases hvg : v = g
    · rw [hvg, hguard]
      rfl
    · rw [hother v hvg]
      exact hmapped v hv
  · rw [hcont]
    by_cases hvg : v = g
    · subst hvg
      rw [hguard] at hpv
      obtain rfl := Option.some.inj hpv
      exact (hp₁.page v eg hv hpg).2.2
    · rw [hother v hvg] at hpv
      exact (hp₁.page v e hv hpv).2.2

/-- What `setupkvm` builds is an address space without a program. -/
theorem program_empty (hd : m.dirs d = some D) (hk : KernelMaps (kmap L) .empty D) :
    Program m d D 0 (fun _ _ => 0) := by
  have hnone : ∀ v, v < UPAGES → D.pte v = none := by
    intro v hv
    refine hk.outside v (fun hcov => ?_)
    obtain ⟨k, hk', h1, _⟩ := hcov
    have := (kmap_kernel hk').1
    omega
  refine ⟨hd, ⟨Nat.zero_le _, fun v hv => ?_⟩, hk.half, fun v e hv hpte => ?_, fun _ _ => rfl⟩
  · rw [hnone v hv]
    simp
  · rw [hnone v hv] at hpte
    cases hpte

/-- **`exec` up to `sp = sz`**: an address space with the program, the guard
    page and the stack, or everything as it was. -/
theorem execLoad_spec (f : ExecFile) (h : Ok S m he loose) :
    Ends (m.execLoad L f) (Fails L S) (fun r => (r.1 = none ∧ Unbuilt S he loose m r.2) ∨
      ∃ d D g, r.1 = some (d, (g + 2) * PGSIZE) ∧ m.dirs d = none ∧ Fills S he loose d m r.2 ∧
        Loaded r.2 d D g ∧ (∀ seg, .load seg ∈ f.phdrs → seg.Accepted (g * PGSIZE)) ∧
        ∀ v e, v < UPAGES → D.pte v = some e →
          r.2.contents e.ppn = loadImage (fun _ _ => 0) f.phdrs v) := by
  unfold execLoad
  split
  · exact Or.inl ⟨rfl, h, rfl, .refl _ m⟩
  have hsetup := setupkvm_spec (L := L) h
  rcases hs : m.setupkvm L with e | ⟨r, m₁⟩
  · rw [hs] at hsetup
    exact hsetup
  rw [hs] at hsetup
  obtain ⟨d, D₁, rfl, hb, hk⟩ | ⟨rfl, _, hun⟩ := hsetup
  swap
  · exact Or.inl ⟨rfl, hun⟩
  have hb₁ : Fills S he loose d m m₁ := ⟨hb.ok, ⟨D₁, hb.dir⟩, hb.same, hb.keeps.of_all⟩
  have hload := loadAll_spec (L := L) f.phdrs hb.ok (program_empty hb.dir hk)
  dsimp only
  rcases hla : m₁.loadAll L d f.phdrs 0 with e | ⟨r, m₂⟩
  · rw [hla] at hload
    exact hload
  rw [hla] at hload
  obtain ⟨hfill₂, hsome⟩ := hload
  have hb₂ := hb₁.trans hfill₂
  cases r with
  | none => exact (hb₂.freevm hb.absent).map (fun m₃ hun => Or.inl ⟨rfl, hun⟩)
  | some s =>
    dsimp only
    generalize hg : m₂.growStack L d s = grown
    obtain ⟨_, hacc, D₂, hp₂⟩ := hsome s rfl
    have hgrow := growStack_spec hb₂.ok hp₂ hg
    rcases grown with e | ⟨r, m₃⟩
    · exact hgrow
    obtain ⟨hfill₃, hsome⟩ := hgrow
    have hb₃ := hb₂.trans hfill₃
    cases r with
    | none => exact (hb₃.freevm hb.absent).map (fun m₄ hun => Or.inl ⟨rfl, hun⟩)
    | some sz =>
      obtain ⟨rfl, D, hl, himg⟩ := hsome sz rfl
      refine Or.inr ⟨d, D, pgroundup s, rfl, hb.absent, hb₃, hl, fun seg hmem => ?_, himg⟩
      refine (hacc seg hmem).mono ?_
      rw [pgroundup_of_lt hp₂.sized.1]
      simp only [PGSIZE]
      omega

theorem execLoad_loaded {sz : Nat} (h : Ok S m he loose)
    (hx : m.execLoad L f = .ok (some (d, sz), m')) :
    m.dirs d = none ∧ Fills S he loose d m m' ∧ ∃ D g, sz = (g + 2) * PGSIZE ∧ Loaded m' d D g := by
  obtain ⟨hr, _⟩ | ⟨d', D, g, hr, hnone, hfill, hl, _⟩ := (execLoad_spec f h).of_ok hx
  · cases hr
  · obtain ⟨rfl, rfl⟩ := Prod.mk.inj (Option.some.inj hr)
    exact ⟨hnone, hfill, D, g, rfl, hl⟩

end Mem

end Xv6.Vm
