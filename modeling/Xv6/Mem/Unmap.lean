import Xv6.Mem.Pages

/-! # Unmapping Pages

    `deallocuvm` jumps over the page tables a directory does not have.
    `plainLoop` is the same loop without the jump, one page after the other,
    and both do the same (`deallocLoop_eq`). What the plain loop does is said
    exactly: which pages are freed, in which order, and which entries are
    cleared (`Unmapped`). `freevm` unmaps the user half and frees the page
    tables and the directory.
-/

namespace Xv6.Vm

open Ownership Function

namespace Mem

variable {E : Type} {S : Set Page} {m m' : Mem} {he : E → Option Page}
  {loose : List Page} {d x : Page} {D D' : PageDir} {L : Layout} {a n : Nat} {sz oldsz newsz : Nat}

/-! ### Sizes -/

theorem pgroundup_of_lt (h : sz ≤ KERNBASE) : pgroundup sz = (PGSIZE - 1 + sz) / PGSIZE := by
  unfold pgroundup
  rw [Nat.mod_eq_of_lt]
  simp only [KERNBASE, PGSIZE] at h ⊢
  omega

theorem lt_pgroundup_iff {v : Nat} (hsz : sz ≤ KERNBASE) : v < pgroundup sz ↔ v * PGSIZE < sz := by
  rw [pgroundup_of_lt hsz]
  simp only [PGSIZE]
  omega

theorem pgroundup_le (h : sz ≤ KERNBASE) : pgroundup sz ≤ UPAGES := by
  rw [pgroundup_of_lt h]
  simp only [UPAGES, KERNBASE, PGSIZE] at h ⊢
  omega

theorem pgroundup_mono {a b : Nat} (hab : a ≤ b) (hb : b ≤ KERNBASE) :
    pgroundup a ≤ pgroundup b := by
  rw [pgroundup_of_lt hb, pgroundup_of_lt (Nat.le_trans hab hb)]
  exact Nat.div_le_div_right (by omega)

theorem pgroundup_zero : pgroundup 0 = 0 := by decide

/-! ### The loop without the jump -/

/-- The loop of `deallocuvm` without the jump: `n` pages from page `a`. -/
def plainLoop (L : Layout) (d : Page) : (n : Nat) → Mem → (a : Nat) → Except Panic Mem
  | 0, m, _ => .ok m
  | n + 1, m, a =>
    match m.dirs d with
    | none => .error .wild
    | some D =>
      match D.pte a with
      | none => plainLoop L d n m (a + 1)
      | some e =>
        if e.ppn = 0 then .error .kfree
        else
          match m.kfree L e.ppn with
          | .error e => .error e
          | .ok m => plainLoop L d n (m.setDir d (D.setPte a none)) (a + 1)

/-- Pages without an entry are passed over. -/
theorem plainLoop_skip (hd : m.dirs d = some D) (k : Nat) : ∀ {a : Nat},
    (∀ v, a ≤ v → v < a + k → D.pte v = none) →
    plainLoop L d (k + n) m a = plainLoop L d n m (a + k) := by
  induction k with
  | zero =>
    intro a _
    rw [Nat.zero_add, Nat.add_zero]
  | succ k ih =>
    intro a hnone
    rw [Nat.add_right_comm, plainLoop]
    simp only [hd, hnone a (Nat.le_refl a) (by omega)]
    rw [ih (fun v h1 h2 => hnone v (by omega) (by omega)), Nat.add_right_comm, Nat.add_assoc]

/-- Pages that share a page table share its absence. -/
theorem PDX_eq_of_skip {a v : Nat} (hav : a ≤ v) (hv : v < (a / NPTENTRIES + 1) * NPTENTRIES) :
    PDX v = PDX a := by
  have hdiv : v / NPTENTRIES = a / NPTENTRIES := by
    simp only [NPTENTRIES] at hv ⊢
    omega
  simp [PDX, hdiv]

/-- The jump over a missing page table passes no entry. -/
theorem deallocLoop_eq (hold : oldsz ≤ KERNBASE) (m : Mem) (a : Nat) :
    deallocLoop L d oldsz m a = plainLoop L d (pgroundup oldsz - a) m a := by
  have hsucc : ∀ a, a * PGSIZE < oldsz → pgroundup oldsz - a = pgroundup oldsz - (a + 1) + 1 := by
    intro a hlt
    have hin := (lt_pgroundup_iff hold).mpr hlt
    omega
  induction m, a using deallocLoop.induct L d oldsz with
  | case1 m a hlt hnone =>
    rw [deallocLoop, hsucc a hlt, plainLoop]
    simp only [hlt, if_true, hnone]
  | case2 m a hlt D hd ht ih =>
    -- up to the next table, or to the end, there are no entries
    have hin := (lt_pgroundup_iff hold).mpr hlt
    have hskip : a < (a / NPTENTRIES + 1) * NPTENTRIES := by
      simp only [NPTENTRIES]
      omega
    have hnone : ∀ v, a ≤ v → v < (a / NPTENTRIES + 1) * NPTENTRIES → D.pte v = none := by
      intro v h1 h2
      exact D.absent v (by rw [PDX_eq_of_skip h1 h2]; exact ht)
    rw [deallocLoop]
    simp only [hlt, if_true, hd, ht]
    rw [ih]
    generalize (a / NPTENTRIES + 1) * NPTENTRIES = b at hskip hnone ⊢
    by_cases hb : b ≤ pgroundup oldsz
    · have hsum : pgroundup oldsz - a = (b - a) + (pgroundup oldsz - b) := by omega
      rw [hsum, plainLoop_skip hd _ (fun v h1 h2 => hnone v h1 (by omega)),
        Nat.add_sub_cancel' (Nat.le_of_lt hskip)]
    · have hsum : pgroundup oldsz - a = (pgroundup oldsz - a) + 0 := rfl
      rw [hsum, plainLoop_skip hd _ (fun v h1 h2 => hnone v h1 (by omega)),
        Nat.sub_eq_zero_of_le (by omega)]
      rfl
  | case3 m a hlt D hd y ht hp ih =>
    rw [deallocLoop, hsucc a hlt, plainLoop]
    simp only [hlt, if_true, hd, ht, hp, ih]
  | case4 m a hlt D hd y ht e hp hzero =>
    rw [deallocLoop, hsucc a hlt, plainLoop]
    simp only [hlt, if_true, hd, ht, hp, hzero]
  | case5 m a hlt D hd y ht e hp hzero err hk =>
    rw [deallocLoop, hsucc a hlt, plainLoop]
    simp only [hlt, if_true, hd, ht, hp, hzero, if_false, hk]
  | case6 m a hlt D hd y ht e hp hzero m₁ hk ih =>
    rw [deallocLoop, hsucc a hlt, plainLoop]
    simp only [hlt, if_true, hd, ht, hp, hzero, if_false, hk, ih]
  | case7 m a hge =>
    rw [← lt_pgroundup_iff hold] at hge
    rw [deallocLoop, if_neg (by rw [← lt_pgroundup_iff hold]; exact hge),
      Nat.sub_eq_zero_of_le (Nat.le_of_not_lt hge)]
    rfl

theorem deallocuvm_of_ge (h : newsz ≥ oldsz) : m.deallocuvm L d oldsz newsz = .ok (oldsz, m) := by
  unfold deallocuvm
  rw [if_pos h]

theorem deallocuvm_of_lt (hold : oldsz ≤ KERNBASE) (hlt : newsz < oldsz) :
    m.deallocuvm L d oldsz newsz =
      (plainLoop L d (pgroundup oldsz - pgroundup newsz) m (pgroundup newsz)).map
        (fun m => (newsz, m)) := by
  unfold deallocuvm
  rw [if_neg (by omega), deallocLoop_eq hold]

/-! ### What the loop does -/

/-- The pages mapped at the virtual pages `a, ..., a + n - 1`, in this order. -/
def userFrames (D : PageDir) (a n : Nat) : List Page :=
  ((List.range' a n).filterMap D.pte).map Pte.ppn

theorem userFrames_succ (D : PageDir) (a n : Nat) :
    userFrames D a (n + 1) = ((D.pte a).map Pte.ppn).toList ++ userFrames D (a + 1) n := by
  unfold userFrames
  rw [List.range'_succ]
  cases hp : D.pte a with
  | none => rw [List.filterMap_cons_none hp]; rfl
  | some e => rw [List.filterMap_cons_some hp]; rfl

theorem userFrames_congr (h : ∀ v, a ≤ v → v < a + n → D'.pte v = D.pte v) :
    userFrames D' a n = userFrames D a n := by
  unfold userFrames
  congr 1
  refine List.filterMap_congr (fun v hv => ?_)
  obtain ⟨h1, h2⟩ := List.mem_range'_1.mp hv
  exact h v h1 h2

theorem mem_userFrames : x ∈ userFrames D a n ↔
    ∃ v e, a ≤ v ∧ v < a + n ∧ D.pte v = some e ∧ e.ppn = x := by
  simp only [userFrames, List.mem_map, List.mem_filterMap, List.mem_range'_1]
  constructor
  · rintro ⟨e, ⟨v, ⟨h1, h2⟩, hp⟩, rfl⟩
    exact ⟨v, e, h1, h2, hp, rfl⟩
  · rintro ⟨v, e, h1, h2, hp, rfl⟩
    exact ⟨e, ⟨v, ⟨h1, h2⟩, hp⟩, rfl⟩

/-- The pages `a, ..., a + n - 1` of `d` have been unmapped: their frames are
    on the free list, in the order in which they were met, filled with junk,
    and nothing else has changed. -/
structure Unmapped (d : Page) (a n : Nat) (m : Mem) (D : PageDir) (m' : Mem) (D' : PageDir) :
    Prop where
  dir : m'.dirs d = some D'
  same : SameElse d m m'
  ptab : D'.ptab = D.ptab
  pte : ∀ v, D'.pte v = if a ≤ v ∧ v < a + n then none else D.pte v
  free : m'.free = (userFrames D a n).reverse ++ m.free
  contents : ∀ p, m'.contents p = if p ∈ userFrames D a n then (fun _ => 1) else m.contents p

theorem unmapped_none (hd : m.dirs d = some D) : Unmapped d a 0 m D m D := by
  refine ⟨hd, .refl d m, rfl, fun v => ?_, rfl, fun p => ?_⟩
  · rw [if_neg (by omega)]
  · rw [if_neg (by simp [userFrames])]

/-- A page that is not mapped. -/
theorem Unmapped.skip (h : Unmapped d (a + 1) n m D m' D') (hp : D.pte a = none) :
    Unmapped d a (n + 1) m D m' D' := by
  have hframes : userFrames D a (n + 1) = userFrames D (a + 1) n := by
    rw [userFrames_succ, hp]
    rfl
  refine ⟨h.dir, h.same, h.ptab, fun v => ?_, ?_, fun p => ?_⟩
  · rw [h.pte v]
    by_cases hva : v = a
    · subst hva
      simp [hp]
    · have hiff : (a + 1 ≤ v ∧ v < a + 1 + n) ↔ (a ≤ v ∧ v < a + (n + 1)) := by omega
      simp only [hiff]
  · rw [hframes]
    exact h.free
  · rw [hframes]
    exact h.contents p

/-- A page that is mapped is freed first. -/
theorem Unmapped.step {e : Pte} (hp : D.pte a = some e)
    (h : Unmapped d (a + 1) n
      (({ m.fill e.ppn 1 with free := e.ppn :: m.free } : Mem).setDir d (D.setPte a none))
      (D.setPte a none) m' D') : Unmapped d a (n + 1) m D m' D' := by
  have hpte := PageDir.pte_setPte (e := none) (PageDir.table_of_pte hp)
  have hrest : userFrames (D.setPte a none) (a + 1) n = userFrames D (a + 1) n := by
    refine userFrames_congr (fun v h1 _ => ?_)
    rw [hpte, update_of_ne (by omega)]
  have hframes : userFrames D a (n + 1) = e.ppn :: userFrames D (a + 1) n := by
    rw [userFrames_succ, hp]
    rfl
  refine ⟨h.dir, fun d' hne => ?_, h.ptab, fun v => ?_, ?_, fun p => ?_⟩
  · rw [h.same d' hne, dirs_setDir_of_ne hne]
    rfl
  · rw [h.pte v, hpte]
    by_cases hva : v = a
    · subst hva
      rw [if_neg (by omega), if_pos (by omega), update_self]
    · have hiff : (a + 1 ≤ v ∧ v < a + 1 + n) ↔ (a ≤ v ∧ v < a + (n + 1)) := by omega
      simp only [hiff, update_of_ne hva]
  · rw [h.free, hrest, hframes, List.reverse_cons, List.append_assoc]
    rfl
  · rw [h.contents p, hrest, hframes]
    by_cases hpe : p = e.ppn
    · subst hpe
      simp [setDir, fill]
    · simp [setDir, fill, hpe]

/-- **What unmapping does.** The loop frees the pages of its range and clears
    their entries, unless `kfree` refuses one of them. -/
theorem plainLoop_spec (n : Nat) : ∀ {m : Mem} {D : PageDir} {a : Nat}, m.dirs d = some D →
    ((∀ p ∈ userFrames D a n, L.ValidPage p) ∧
      ∃ m' D', plainLoop L d n m a = .ok m' ∧ Unmapped d a n m D m' D') ∨
    ((∃ p ∈ userFrames D a n, ¬ L.ValidPage p) ∧ plainLoop L d n m a = .error .kfree) := by
  induction n with
  | zero =>
    intro m D a hd
    exact Or.inl ⟨by simp [userFrames], m, D, rfl, unmapped_none hd⟩
  | succ n ih =>
    intro m D a hd
    rw [plainLoop]
    simp only [hd]
    cases hp : D.pte a with
    | none =>
      rw [userFrames_succ, hp]
      rcases ih (a := a + 1) hd with ⟨hall, m', D', hl, hun⟩ | hfail
      · exact Or.inl ⟨hall, m', D', hl, hun.skip hp⟩
      · exact Or.inr hfail
    | some e =>
      have hframes : userFrames D a (n + 1) = e.ppn :: userFrames D (a + 1) n := by
        rw [userFrames_succ, hp]
        rfl
      have hrest : userFrames (D.setPte a none) (a + 1) n = userFrames D (a + 1) n := by
        refine userFrames_congr (fun v h1 _ => ?_)
        rw [PageDir.pte_setPte (PageDir.table_of_pte hp), update_of_ne (by omega)]
      rw [hframes]
      by_cases hv : L.ValidPage e.ppn
      · simp only [Layout.validPage_pos hv, if_false, kfree, if_pos hv]
        have hnext := ih (m := ({ m.fill e.ppn 1 with free := e.ppn :: m.free } : Mem).setDir d
          (D.setPte a none)) (a := a + 1) (dirs_setDir_self _)
        rw [hrest] at hnext
        rcases hnext with ⟨hall, m', D', hl, hun⟩ | ⟨⟨p, hp', hno⟩, hl⟩
        · exact Or.inl ⟨List.forall_mem_cons.mpr ⟨hv, hall⟩, m', D', hl, hun.step hp⟩
        · exact Or.inr ⟨⟨p, List.mem_cons_of_mem _ hp', hno⟩, hl⟩
      · refine Or.inr ⟨⟨e.ppn, List.mem_cons_self, hv⟩, ?_⟩
        by_cases hzero : e.ppn = 0
        · simp only [hzero, if_true]
        · simp only [hzero, if_false, kfree, if_neg hv]

/-- **`deallocuvm` is the plain walk.** For every directory it frees the pages
    that are mapped from `PGROUNDUP(newsz)` up to `oldsz`, one for each entry,
    and clears these entries, as the loop without the jump does. `kfree`
    panics on a page that is not one of the kernel's, and then both do. -/
theorem deallocuvm_plain_walk {oldsz newsz : Nat} (L : Layout) (hd : m.dirs d = some D)
    (hle : newsz ≤ oldsz) (hold : oldsz ≤ KERNBASE) :
    m.deallocuvm L d oldsz newsz =
      (plainLoop L d (pgroundup oldsz - pgroundup newsz) m (pgroundup newsz)).map
        (fun m => (newsz, m)) ∧
    ((∀ v e, pgroundup newsz ≤ v → v * PGSIZE < oldsz → D.pte v = some e → L.ValidPage e.ppn) →
      ∃ m' D', m.deallocuvm L d oldsz newsz = .ok (newsz, m') ∧
        Unmapped d (pgroundup newsz) (pgroundup oldsz - pgroundup newsz) m D m' D' ∧
        ∀ v, D'.pte v = if pgroundup newsz ≤ v ∧ v * PGSIZE < oldsz then none else D.pte v) ∧
    ((∃ v e, pgroundup newsz ≤ v ∧ v * PGSIZE < oldsz ∧ D.pte v = some e ∧ ¬ L.ValidPage e.ppn) →
      m.deallocuvm L d oldsz newsz = .error .kfree) := by
  have hmono := pgroundup_mono hle hold
  have hrange : ∀ v, (pgroundup newsz ≤ v ∧ v < pgroundup newsz + (pgroundup oldsz - pgroundup newsz)) ↔
      (pgroundup newsz ≤ v ∧ v * PGSIZE < oldsz) := by
    intro v
    rw [← lt_pgroundup_iff hold]
    omega
  have hwalk : m.deallocuvm L d oldsz newsz =
      (plainLoop L d (pgroundup oldsz - pgroundup newsz) m (pgroundup newsz)).map
        (fun m => (newsz, m)) := by
    rcases Nat.lt_or_eq_of_le hle with hlt | rfl
    · exact deallocuvm_of_lt hold hlt
    · rw [deallocuvm_of_ge (Nat.le_refl _), Nat.sub_self]
      rfl
  rw [hwalk]
  have hbad : (∃ v e, pgroundup newsz ≤ v ∧ v * PGSIZE < oldsz ∧ D.pte v = some e ∧
      ¬ L.ValidPage e.ppn) ↔
      ∃ p ∈ userFrames D (pgroundup newsz) (pgroundup oldsz - pgroundup newsz), ¬ L.ValidPage p := by
    constructor
    · rintro ⟨v, e, h1, h2, hp, hno⟩
      obtain ⟨h1, h2⟩ := (hrange v).mpr ⟨h1, h2⟩
      exact ⟨e.ppn, mem_userFrames.mpr ⟨v, e, h1, h2, hp, rfl⟩, hno⟩
    · rintro ⟨p, hp, hno⟩
      obtain ⟨v, e, h1, h2, hpte, rfl⟩ := mem_userFrames.mp hp
      obtain ⟨h1, h2⟩ := (hrange v).mp ⟨h1, h2⟩
      exact ⟨v, e, h1, h2, hpte, hno⟩
  rcases plainLoop_spec (L := L) _ hd with ⟨hall, m', D', hl, hun⟩ | ⟨hinvalid, hl⟩
  · rw [hl]
    refine ⟨rfl, fun _ => ⟨m', D', rfl, hun, fun v => ?_⟩, fun h => ?_⟩
    · rw [hun.pte v]
      simp only [hrange]
    · obtain ⟨p, hp, hno⟩ := hbad.mp h
      exact absurd (hall p hp) hno
  · rw [hl]
    refine ⟨rfl, fun hvalid => ?_, fun _ => rfl⟩
    obtain ⟨v, e, h1, h2, hp, hno⟩ := hbad.mpr hinvalid
    exact absurd (hvalid v e h1 h2 hp) hno

/-- Where the examples put the kernel. -/
def exampleLayout : Layout := ⟨0x104, 0x113, by decide, by decide, by decide⟩

theorem exampleLayout_valid : ∀ p ∈ List.range' 0x400 3000, exampleLayout.ValidPage p := by
  intro p hp
  obtain ⟨h1, h2⟩ := List.mem_range'_1.mp hp
  exact ⟨Nat.le_trans (by decide) h1, Nat.lt_of_lt_of_le h2 (by decide)⟩

/-- A directory with one page, at address `PGSIZE`. -/
def secondPageDir : PageDir :=
  (PageDir.empty.setTable (PDX 0) 0x401).setPte 1 (some ⟨0x402, true, true⟩)

theorem deallocuvm_plain_walk_onePage :
    ∃ m', (⟨[], fun _ => some secondPageDir, fun _ _ => 0⟩ : Mem).deallocuvm exampleLayout 0x400
      (2 * PGSIZE) PGSIZE = .ok (PGSIZE, m') ∧ m'.free = [0x402] := by
  have hold : pgroundup (2 * PGSIZE) = 2 := by decide
  have hnew : pgroundup PGSIZE = 1 := by decide
  have hone : secondPageDir.pte 1 = some ⟨0x402, true, true⟩ := rfl
  obtain ⟨m', D', hl, hun, _⟩ := (deallocuvm_plain_walk exampleLayout (d := 0x400)
    (m := ⟨[], fun _ => some secondPageDir, fun _ _ => 0⟩) rfl (show PGSIZE ≤ 2 * PGSIZE by decide)
    (by decide)).2.1 (fun v e h1 h2 hp => by
      rw [hnew] at h1
      obtain rfl : v = 1 := by
        simp only [PGSIZE] at h2
        omega
      rw [hone] at hp
      rw [← Option.some.inj hp]
      decide)
  rw [hold, hnew] at hun
  exact ⟨m', hl, hun.free⟩

/-! ### The owners -/

/-- The user pages of `d` from `a` on. -/
def userOwners (d : Page) (a n : Nat) : List Owner := (List.range' a n).map (Owner.user d)

theorem mem_userOwners {o : Owner} :
    o ∈ userOwners d a n ↔ ∃ v, o = .user d v ∧ a ≤ v ∧ v < a + n := by
  simp only [userOwners, List.mem_map, List.mem_range'_1]
  constructor
  · rintro ⟨v, hv, rfl⟩
    exact ⟨v, rfl, hv⟩
  · rintro ⟨v, rfl, hv⟩
    exact ⟨v, hv, rfl⟩

theorem nodup_userOwners (d : Page) (a n : Nat) : (userOwners d a n).Nodup :=
  (List.nodup_range' 1).map (fun _ _ h => (Owner.user.inj h).2)

theorem filterMap_userOwners (hd : m.dirs d = some D) (hn : a + n ≤ UPAGES) :
    (userOwners d a n).filterMap m.page = userFrames D a n := by
  rw [userOwners, List.filterMap_map, userFrames, List.map_filterMap]
  refine List.filterMap_congr (fun v hv => ?_)
  obtain ⟨_, h2⟩ := List.mem_range'_1.mp hv
  have hv' : v < UPAGES := by omega
  simp [page, hv', hd]

namespace Unmapped

variable (h : Unmapped d a n m D m' D')

include h

theorem page (hd : m.dirs d = some D) (o : Owner) :
    m'.page o = if o ∈ userOwners d a n then none else m.page o := by
  by_cases ho : o.home = d
  · rw [page_of_dir (D := D') (by rw [ho]; exact h.dir), page_of_dir (by rw [ho]; exact hd)]
    cases o with
    | dir d' => rw [if_neg (by simp [mem_userOwners])]; rfl
    | table d' i =>
      rw [if_neg (by simp [mem_userOwners])]
      simp only [PageDir.own, h.ptab]
    | user d' v =>
      obtain rfl : d' = d := ho
      simp only [PageDir.own, h.pte, mem_userOwners, Owner.user.injEq, true_and, exists_eq_left']
      by_cases hv : a ≤ v ∧ v < a + n
      · simp [hv]
      · simp [hv]
  · rw [page_eq, page_eq, h.same _ ho, if_neg]
    intro hmem
    obtain ⟨v, rfl, _⟩ := mem_userOwners.mp hmem
    exact ho rfl

/-- Unmapping keeps the pages of the other owners. -/
theorem keeps (hok : Ok S m he loose) (hd : m.dirs d = some D) (hn : a + n ≤ UPAGES) :
    Keeps (fun o => o ∉ userOwners d a n) m m' := by
  intro o p ho hp
  rw [h.page hd, if_neg ho, h.contents, if_neg]
  · exact ⟨hp, rfl⟩
  · rw [← filterMap_userOwners hd hn, List.mem_filterMap]
    rintro ⟨o', ho', hp'⟩
    exact ho (hok.page_inj hp hp' ▸ ho')

theorem ok [DecidableEq E] (hok : Ok S m he loose) (hd : m.dirs d = some D) (hn : a + n ≤ UPAGES) :
    Ok S m' he loose := by
  refine hok.releases (nodup_userOwners d a n) (h.page hd) ?_
  rw [h.free, filterMap_userOwners hd hn]
  exact (List.reverse_perm _).append_right _

end Unmapped

/-- A frame that `kfree` refuses was wrong from the start. -/
theorem Ok.fails (hok : Ok S m he loose) (hd : m.dirs d = some D) (hn : a + n ≤ UPAGES)
    (h : ∃ p ∈ userFrames D a n, ¬ L.ValidPage p) : Fails L S .kfree := by
  obtain ⟨p, hp, hno⟩ := h
  rw [← filterMap_userOwners hd hn, List.mem_filterMap] at hp
  obtain ⟨o, _, ho⟩ := hp
  exact ⟨rfl, p, hok.mem_of_page ho, hno⟩

variable [DecidableEq E]

/-- `deallocuvm` on a directory in use. -/
theorem deallocuvm_spec (hold : oldsz ≤ KERNBASE) (hlt : newsz < oldsz) (h : Ok S m he loose)
    (hd : m.dirs d = some D) :
    Ends (m.deallocuvm L d oldsz newsz) (Fails L S) (fun r => r.1 = newsz ∧ Ok S r.2 he loose ∧
      Keeps (Below d (pgroundup newsz)) m r.2 ∧
      ∃ D', Unmapped d (pgroundup newsz) (pgroundup oldsz - pgroundup newsz) m D r.2 D') := by
  have hmono := pgroundup_mono (Nat.le_of_lt hlt) hold
  have htop := pgroundup_le hold
  rw [deallocuvm_of_lt hold hlt]
  rcases plainLoop_spec (L := L) (pgroundup oldsz - pgroundup newsz) (a := pgroundup newsz) hd with
    ⟨_, m', D', hl, hun⟩ | ⟨hbad, hl⟩
  · rw [hl]
    refine ⟨rfl, hun.ok h hd (by omega), (hun.keeps h hd (by omega)).mono ?_, D', hun⟩
    intro o ho hmem
    obtain ⟨v, rfl, hv, _⟩ := mem_userOwners.mp hmem
    exact Nat.lt_irrefl v (Nat.lt_of_lt_of_le (ho v rfl) hv)
  · rw [hl]
    exact h.fails hd (by omega) hbad

/-! ### `freevm` -/

omit [DecidableEq E] in
/-- The loop over the page tables. -/
theorem freeTables_spec (l : List (Fin NPDENTRIES)) : ∀ {m : Mem},
    Ends (l.foldlM (freeTables L D) m) (fun e => e = .kfree ∧ ∃ p ∈ l.filterMap D.ptab, ¬ L.ValidPage p)
      (fun m' => m'.dirs = m.dirs ∧ m'.free = (l.filterMap D.ptab).reverse ++ m.free ∧
        ∀ p, p ∉ l.filterMap D.ptab → m'.contents p = m.contents p) := by
  induction l with
  | nil =>
    intro m
    exact ⟨rfl, rfl, fun _ _ => rfl⟩
  | cons i l ih =>
    intro m
    rw [List.foldlM_cons]
    simp only [freeTables, bind, Except.bind]
    cases ht : D.ptab i with
    | none =>
      rw [List.filterMap_cons_none ht]
      exact ih
    | some x =>
      rw [List.filterMap_cons_some ht]
      by_cases hv : L.ValidPage x
      · simp only [kfree, if_pos hv]
        have hrest := ih (m := { m.fill x 1 with free := x :: m.free })
        cases hl : l.foldlM (freeTables L D) { m.fill x 1 with free := x :: m.free } with
        | error e =>
          rw [hl] at hrest
          obtain ⟨he, p, hp, hno⟩ := hrest
          exact ⟨he, p, List.mem_cons_of_mem _ hp, hno⟩
        | ok m' =>
          rw [hl] at hrest
          obtain ⟨hdirs, hfree, hcont⟩ := hrest
          refine ⟨hdirs, by rw [hfree, List.reverse_cons, List.append_assoc]; rfl, fun p hp => ?_⟩
          rw [List.mem_cons, not_or] at hp
          rw [hcont p hp.2]
          exact update_of_ne hp.1 _ _
      · simp only [kfree, if_neg hv]
        exact ⟨rfl, x, List.mem_cons_self, hv⟩

/-- The owners in a directory. -/
def dirOwners (d : Page) : List Owner :=
  .dir d :: ((List.finRange NPDENTRIES).map (Owner.table d) ++ userOwners d 0 UPAGES)

theorem nodup_dirOwners (d : Page) : (dirOwners d).Nodup := by
  unfold dirOwners
  rw [List.nodup_cons, List.nodup_append]
  refine ⟨by simp [mem_userOwners], (List.nodup_finRange _).map (fun i j h => (Owner.table.inj h).2),
    nodup_userOwners d 0 UPAGES, ?_⟩
  intro o ho o' ho'
  obtain ⟨i, _, rfl⟩ := List.mem_map.mp ho
  obtain ⟨v, rfl, _⟩ := mem_userOwners.mp ho'
  exact nofun

theorem mem_dirOwners {o : Owner} (ho : m.page o ≠ none) :
    o ∈ dirOwners d ↔ o.home = d := by
  unfold dirOwners
  rw [List.mem_cons, List.mem_append, mem_userOwners]
  cases o with
  | dir d' => simp [Owner.home]
  | table d' i => simp [Owner.home, eq_comm]
  | user d' v =>
    have hv : v < UPAGES := by
      by_contra hv
      exact ho (by simp [page, hv])
    simp [Owner.home, hv]

theorem filterMap_dirOwners (hd : m.dirs d = some D) : (dirOwners d).filterMap m.page =
    d :: ((List.finRange NPDENTRIES).filterMap D.ptab ++ userFrames D 0 UPAGES) := by
  have hdir : m.page (.dir d) = some d := by simp [page, hd]
  have htab : (m.page ∘ Owner.table d) = D.ptab := by
    funext i
    simp [page, hd]
  unfold dirOwners
  rw [List.filterMap_cons_some hdir, List.filterMap_append, List.filterMap_map, htab,
    filterMap_userOwners hd (by omega)]

/-- **`freevm`** gives back every page of a directory in use, the directory
    page last, and touches nothing else. -/
theorem freevm_spec (h : Ok S m he loose) (hd : m.dirs d = some D) :
    Ends (m.freevm L d) (Fails L S) (fun m' => Ok S m' he loose ∧
      m'.dirs = update m.dirs d none ∧ Keeps (Elsewhere d) m m' ∧
      ∃ l, m'.free = d :: (l ++ m.free)) := by
  have hzero : pgroundup KERNBASE - pgroundup 0 = UPAGES := by decide
  have hde : m.deallocuvm L d KERNBASE 0 = _ := deallocuvm_of_lt (Nat.le_refl _) (by decide)
  rw [hzero, pgroundup_zero] at hde
  have hlist := filterMap_dirOwners hd
  have hmem : ∀ x, x ∈ (dirOwners d).filterMap m.page → x ∈ S := by
    intro x hx
    obtain ⟨o, _, ho⟩ := List.mem_filterMap.mp hx
    exact h.mem_of_page ho
  unfold freevm
  rw [hde]
  rcases plainLoop_spec (L := L) UPAGES (a := 0) hd with ⟨_, m₁, D₁, hl, hun⟩ | ⟨hbad, hl⟩
  swap
  · rw [hl]
    exact h.fails hd (by omega) hbad
  rw [hl]
  simp only [Except.map, hun.dir]
  generalize List.finRange NPDENTRIES = tables at hlist ⊢
  have htabs := freeTables_spec (L := L) (D := D₁) tables (m := m₁)
  rw [hun.ptab] at htabs
  cases hf : tables.foldlM (freeTables L D₁) m₁ with
  | error e =>
    rw [hf] at htabs
    obtain ⟨rfl, p, hp, hno⟩ := htabs
    exact ⟨rfl, p, hmem p (by rw [hlist]; exact List.mem_cons_of_mem _ (List.mem_append_left _ hp)),
      hno⟩
  | ok m₂ =>
    rw [hf] at htabs
    obtain ⟨hdirs, hfree, hcont⟩ := htabs
    by_cases hv : L.ValidPage d
    swap
    · simp only [kfree, if_neg hv]
      exact ⟨rfl, d, hmem d (by rw [hlist]; exact List.mem_cons_self), hv⟩
    simp only [kfree, if_pos hv]
    have hupd : update m₂.dirs d none = update m.dirs d none := by
      rw [hdirs]
      exact hun.same.drop
    have hpage : ∀ o, (({ ({ m₂ with dirs := update m₂.dirs d none } : Mem).fill d 1 with
        free := d :: m₂.free } : Mem).page o) = if o ∈ dirOwners d then none else m.page o := by
      intro o
      have hother : (({ ({ m₂ with dirs := update m₂.dirs d none } : Mem).fill d 1 with
          free := d :: m₂.free } : Mem).page o) = if o.home = d then none else m.page o := by
        rw [page_eq]
        simp only [fill, hupd]
        by_cases hd' : o.home = d
        · simp [hd']
        · rw [update_of_ne hd', if_neg hd', page_eq]
      rw [hother]
      cases ho : m.page o with
      | none => simp
      | some x => simp only [mem_dirOwners (d := d) (show m.page o ≠ none by simp [ho])]
    refine ⟨h.releases (nodup_dirOwners d) hpage ?_, hupd, fun o p hK ho => ?_, ?_⟩
    · -- the same pages in another order
      rw [hlist, hfree, hun.free, List.perm_iff_count]
      intro y
      simp only [List.cons_append, List.count_append, List.count_cons, List.count_reverse]
      omega
    · -- an owner elsewhere holds none of the pages freed
      have hnot : p ∉ (dirOwners d).filterMap m.page := by
        intro hp
        obtain ⟨o', ho', hp'⟩ := List.mem_filterMap.mp hp
        rw [← h.page_inj ho hp'] at ho'
        exact hK ((mem_dirOwners (m := m) (by simp [ho])).mp ho')
      rw [hlist, List.mem_cons, List.mem_append, not_or, not_or] at hnot
      have hkept : o ∉ dirOwners d := fun hmem =>
        hK ((mem_dirOwners (m := m) (by simp [ho])).mp hmem)
      refine ⟨by rw [hpage, if_neg hkept]; exact ho, ?_⟩
      refine (update_of_ne hnot.1 _ _).trans ((hcont p hnot.2.1).trans ?_)
      rw [hun.contents, if_neg hnot.2.2]
    · exact ⟨_, by rw [hfree, hun.free, ← List.append_assoc]⟩

end Mem

end Xv6.Vm
