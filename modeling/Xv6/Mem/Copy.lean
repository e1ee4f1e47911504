import Xv6.Mem.User
import Xv6.Mem.Conserve

/-! # Copying an Address Space

    `copyuvm` builds the address space of a child: the same user pages with
    the same flags, in fresh physical pages with the same contents, under a
    directory whose kernel half is the one `setupkvm` makes. The original
    stays as it is, and nothing written through one of the two directories
    is seen through the other.
-/

namespace Xv6.Vm

open Ownership

namespace Mem

variable {E : Type} {S : Set Page} {m m' : Mem} {he : E → Option Page}
  {loose : List Page} {d pgdir x : Page} {D Dp : PageDir} {L : Layout}

/-! ### The copy -/

/-- `d` is a copy of the address space `pgdir` of size `sz`, made between
    `m` and `m'`. -/
structure AddressSpaceCopy (L : Layout) (m m' : Mem) (pgdir d : Page) (sz : Nat)
    (Dp D' : PageDir) : Prop where
  /-- every page below `sz` has a fresh copy with the same flags -/
  page : ∀ v, v * PGSIZE < sz → ∃ e e', Dp.pte v = some e ∧ D'.pte v = some e' ∧
    e'.w = e.w ∧ e'.u = e.u ∧ PTE_FLAGS e'.word = PTE_FLAGS e.word ∧
    e'.ppn ∈ m.free ∧ m'.contents e'.ppn = m.contents e.ppn
  /-- the copies are none of the pages in use before -/
  fresh : ∀ v e', v < UPAGES → D'.pte v = some e' → ∀ o, m.page o ≠ some e'.ppn
  distinct : ∀ v v' e e', v < UPAGES → v' < UPAGES → D'.pte v = some e → D'.pte v' = some e' →
    e.ppn = e'.ppn → v = v'
  above : ∀ v, pgroundup sz ≤ v → v < UPAGES → D'.pte v = none
  /-- the kernel half is the one `setupkvm` makes -/
  kernel : ∃ m₁ D₁, m.setupkvm L = .ok (some d, m₁) ∧ m₁.dirs d = some D₁ ∧
    ∀ v, UPAGES ≤ v → D'.pte v = D₁.pte v
  /-- the original is unchanged, as is every other page in use -/
  original : m'.dirs pgdir = some Dp ∧
    ∀ o p, m.page o = some p → m'.page o = some p ∧ m'.contents p = m.contents p
  isolated : ∀ a a' b, a < KERNBASE → a' < KERNBASE →
    (m'.storeByte d a b).loadByte pgdir a' = m'.loadByte pgdir a' ∧
    (m'.storeByte pgdir a b).loadByte d a' = m'.loadByte d a'

/-- A page that is in use now and was not before comes from the free list. -/
theorem Ok.mem_free (h : Ok S m he loose) (h' : Ok S m' he loose) (hk : Keeps All m m') {o : Owner}
    (ho : m.page o = none) (ho' : m'.page o = some x) : x ∈ m.free := by
  rcases (h.cover x).mp (h'.mem_of_page ho') with hx | ⟨o₁, ho₁⟩
  · rcases List.mem_append.mp hx with hx | hx
    · exact hx
    · exact absurd ho' (h'.unowned (Or.inr hx) o)
  · -- who had the page before has it still
    have hstill : Sum.elim m'.page he o₁ = some x := by
      cases o₁ with
      | inl o₂ => exact (hk o₂ x trivial ho₁).1
      | inr e => exact ho₁
    have heq := h'.inj o₁ (Sum.inl o) x hstill ho'
    rw [heq] at ho₁
    have hclash : m.page o = some x := ho₁
    rw [ho] at hclash
    cases hclash

/-- **`copyuvm` copies the address space.** -/
theorem copyuvm_copies [DecidableEq E] {sz : Nat} (h : Ok S m he loose)
    (hpg : m.dirs pgdir = some Dp) (hsz : sz < KERNBASE) (hc : m.copyuvm L pgdir sz = .ok (some d, m')) :
    ∃ D', m'.dirs d = some D' ∧ AddressSpaceCopy L m m' pgdir d sz Dp D' := by
  have hle := pgroundup_le (Nat.le_of_lt hsz)
  rcases (copyuvm_spec h hpg (Nat.le_of_lt hsz)).of_ok hc with
    ⟨d₁, m₁, D₁, D', hr, hs, hd₁, hk, hpres, hb, hpages⟩ | ⟨hr, _⟩
  swap
  · cases hr
  obtain rfl := Option.some.inj hr
  have hok' : Ok S m' he loose := hb.ok
  have hall : Keeps All m m' := hb.keeps
  have hne : pgdir ≠ d := by
    rintro rfl
    rw [hb.absent] at hpg
    cases hpg
  have hno : ∀ v, m.page (.user d v) = none := fun v => page_of_none hb.absent
  have howned : ∀ v e', v < UPAGES → D'.pte v = some e' → m'.page (.user d v) = some e'.ppn :=
    fun v e' hv he' => page_user hv hb.dir he'
  refine ⟨D', hb.dir, ?_, ?_, ?_, ?_, ?_, ?_, ?_⟩
  · intro v hv
    have hlow := (lt_pgroundup_iff (Nat.le_of_lt hsz)).mpr hv
    obtain ⟨x, hx, hcont⟩ := hpages.inside v (Nat.zero_le v) (by omega)
    obtain ⟨e, hp⟩ := Option.isSome_iff_exists.mp (hpres v hlow)
    simp only [copied, hp] at hx hcont
    refine ⟨e, ⟨x, e.w, e.u⟩, hp, hx, rfl, rfl, ?_, ?_, hcont⟩
    · rw [Pte.word, Pte.word, pte_flags, pte_flags]
    · exact h.mem_free hok' hall (hno v) (howned v _ (by omega) hx)
  · intro v e' hv he' o ho
    -- an owner from before would share the page with the copy
    have heq := hok'.page_inj (hall o _ trivial ho).1 (howned v e' hv he')
    rw [heq, hno v] at ho
    cases ho
  · intro v v' e e' hv hv' hp hp' heq
    have howner := hok'.page_inj (howned v e hv hp) (heq ▸ howned v' e' hv' hp')
    exact (Owner.user.inj howner).2
  · intro v hlo hv
    rw [hpages.outside v (by omega), hk.outside v]
    · rfl
    · rintro ⟨k, hk', h1, _⟩
      have := (kmap_kernel hk').1
      omega
  · exact ⟨m₁, D₁, hs, hd₁, fun v hv => hpages.outside v (by omega)⟩
  · exact ⟨(hb.same pgdir hne).trans hpg, fun o p ho => hall o p trivial ho⟩
  · intro a a' b ha ha'
    exact ⟨hok'.isolated (Ne.symm hne) ha ha' b, hok'.isolated hne ha ha' b⟩

/-! ### An address space to copy -/

/-- With enough pages there is an address space of any size. -/
theorem exists_sized (L : Layout) {F : List Page} (hF : F.Nodup) (hL : ∀ p ∈ F, L.ValidPage p)
    (sz k : Nat) (hsz : sz < KERNBASE) (hlen : NPDENTRIES + (pgroundup sz + k) + 1 ≤ F.length) :
    ∃ m pgdir D, Ok {p | p ∈ F} m (Empty.elim : Empty → Option Page) [] ∧
      m.dirs pgdir = some D ∧ k ≤ m.free.length ∧ D.Sized sz := by
  have h0 : Ok {p | p ∈ F} ⟨F, fun _ => none, fun _ _ => 0⟩
      (Empty.elim : Empty → Option Page) [] :=
    ok_initial (m := ⟨F, fun _ => none, fun _ _ => 0⟩) (fun _ => rfl) hF
  obtain ⟨⟨r, m₁⟩, _, hs⟩ := (setupkvm_spec (L := L) h0).returns hL
  have htop := pgroundup_le (Nat.le_of_lt hsz)
  rcases hs with ⟨pgdir, D₁, _, hb, hk⟩ | ⟨_, hshort, _⟩
  swap
  · have hshort' : F.length < NPDENTRIES + 1 := hshort
    omega
  have hempty : D₁.Sized 0 := by
    refine ⟨Nat.zero_le _, fun v hv => ?_⟩
    rw [hk.outside v (fun hcov => ?_)]
    · simp [PageDir.empty]
    · obtain ⟨k', hk', h1, _⟩ := hcov
      have := (kmap_kernel hk').1
      omega
  have hroom : m₁.free.length + 1 + NPDENTRIES = F.length + D₁.missing.card := hb.room
  obtain ⟨⟨sz', m₂⟩, _, D₂, ⟨_, _, hnew, hadd, hpages⟩ | ⟨_, hlt, _⟩ | ⟨_, hshort, _⟩⟩ :=
    (allocuvm_spec (L := L) sz hb.ok hb.dir hempty).returns hL
  · refine ⟨m₂, pgdir, D₂, hadd.ok, hadd.dir, ?_, hpages.sized hempty (Nat.zero_le sz) hnew⟩
    have hroom₂ : m₂.free.length + (pgroundup sz - pgroundup 0) + D₁.missing.card =
      m₁.free.length + D₂.missing.card := hadd.room
    omega
  · omega
  · have hshort' : m₁.free.length < D₁.missing.card + (pgroundup sz - pgroundup 0) := hshort hsz
    omega

/-- A child gets its copy of an address space of one page. -/
theorem copyuvm_copies_onePage :
    ∃ (L : Layout) (m m' : Mem) (pgdir d : Page) (Dp D' : PageDir),
      m.copyuvm L pgdir PGSIZE = .ok (some d, m') ∧ m'.dirs d = some D' ∧
      AddressSpaceCopy L m m' pgdir d PGSIZE Dp D' := by
  have hone : pgroundup PGSIZE = 1 := by decide
  obtain ⟨m, pgdir, Dp, hok, hpg, hlen, hsized⟩ := exists_sized exampleLayout
    (List.nodup_range' 1) exampleLayout_valid PGSIZE (NPDENTRIES + 2) (by decide) (by rw [hone, List.length_range']; decide)
  have hcopies := ((copyuvm_spec (L := exampleLayout) hok hpg hsized.1).weaken
    (fun e he => ?_)).returns exampleLayout_valid
  · obtain ⟨⟨r, m'⟩, hc, ⟨d, _, _, _, hr, _⟩ | ⟨_, hshort, _⟩⟩ := hcopies
    · obtain rfl : r = some d := hr
      obtain ⟨D', hD', hcopy⟩ := copyuvm_copies hok hpg (by decide) hc
      exact ⟨exampleLayout, m, m', pgdir, d, Dp, D', hc, hD', hcopy⟩
    · rw [hone] at hshort
      omega
  · rcases he with he | ⟨v, hv, hnone⟩
    · exact he
    · have hsome := (hsized.2 v (by rw [hone] at hv; exact Nat.lt_of_lt_of_le hv (by decide))).mpr
        ((lt_pgroundup_iff (by decide)).mp hv)
      rw [hnone] at hsome
      cases hsome

end Mem

end Xv6.Vm
