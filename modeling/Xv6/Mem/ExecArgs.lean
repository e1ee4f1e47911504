import Xv6.Mem.Load

/-! # `exec` Passes its Arguments

    What a program started by `exec` finds on its stack is what `exec` was
    called with: `exec_arguments` says so for every argument vector that
    `sys_exec` accepts, and that arguments that do not fit in the stack page
    make `exec` return `-1`.

    The second part fails for one kind of argument. A string of more than
    32 MB wraps the stack pointer to an address between the direct mapping
    of physical memory and the devices, where the directory has no page
    tables, and `uva2ka` follows a null pointer.
-/

namespace Xv6.Vm

open Ownership

namespace Mem

variable {m m' m₁ : Mem} {d x : Page} {D : PageDir} {g v : Nat} {e : Pte} {n k : Nat}
  {p : List Byte} {addr : Word}

/-! ### Addresses of the new address space -/

namespace Loaded

theorem uva2ka_guard (hl : Loaded m d D g) : m.uva2ka d g = .ok none := by
  obtain ⟨e, hp, hu⟩ := hl.guard
  rw [uva2ka_of_pte hl.dir hp, hu]
  rfl

theorem uva2ka_stack (hl : Loaded m d D g) (hp : D.pte (g + 1) = some e) (hu : e.u = true) :
    m.uva2ka d (g + 1) = .ok (some e.ppn) := by
  rw [uva2ka_of_pte hl.dir hp, hu]
  rfl

/-- A kernel address is refused, or there is nothing that refuses it. -/
theorem uva2ka_kernel (hl : Loaded m d D g) (hlo : UPAGES ≤ v) (hhi : v < 2 ^ 20) :
    m.uva2ka d v =
      if (KERNBASE + PHYSTOP) / PGSIZE ≤ v ∧ v < DEVSPACE / PGSIZE then .error .wild
      else .ok none := by
  have htab := hl.kernel.tables v hlo hhi
  unfold uva2ka
  rw [hl.dir]
  cases ht : D.ptab (PDX v) with
  | none =>
    rw [if_pos (htab.mp ht)]
    simp only [ht]
  | some y =>
    rw [if_neg (fun hin => by rw [htab.mpr hin] at ht; cases ht)]
    cases hp : D.pte v with
    | none => simp only [ht, hp]
    | some e => simp [ht, hp, hl.kernel.user v e hlo hp]

end Loaded

/-! ### Pushing the strings -/

/-- The first string that does not fit in the stack page, if there is one,
    goes to an address without a page table. -/
def lands (sz : Nat) : (n : Nat) → List (List Byte) → Bool
  | _, [] => false
  | n, s :: argv =>
    if n + room s ≤ PGSIZE then lands sz (n + room s) argv
    else
      let sp := (pushed (BitVec.ofNat 32 (sz - n)) s).toNat
      decide (KERNBASE + PHYSTOP ≤ sp ∧ sp < DEVSPACE)

theorem lands_of_fits {sz : Nat} (argv : List (List Byte)) : ∀ {n : Nat},
    n + used argv ≤ PGSIZE → lands sz n argv = false := by
  induction argv with
  | nil =>
    intro n _
    rfl
  | cons s argv ih =>
    intro n hn
    rw [used_cons] at hn
    rw [lands, if_pos (by omega)]
    exact ih (by omega)

theorem setPage_contents (m : Mem) (x : Page) : m.setPage x (m.contents x) = m := by
  simp [setPage]

section Turn

variable {s : List Byte} {argv : List (List Byte)} {argc : Nat} {sp : Word} {ustack : List Word}

theorem pushStrings_copied (hargc : argc < MAXARG)
    (hc : m.copyout d (pushed sp s) (s ++ [0]) = .ok (true, m')) :
    m.pushStrings d (s :: argv) argc sp ustack =
      m'.pushStrings d argv (argc + 1) (pushed sp s) (ustack ++ [pushed sp s]) := by
  rw [pushStrings, if_neg (Nat.not_le.mpr hargc), hc]

theorem pushStrings_failed (hargc : argc < MAXARG)
    (hc : m.copyout d (pushed sp s) (s ++ [0]) = .ok (false, m')) :
    m.pushStrings d (s :: argv) argc sp ustack = .ok (none, m') := by
  rw [pushStrings, if_neg (Nat.not_le.mpr hargc), hc]

theorem pushStrings_error {err : Panic} (hargc : argc < MAXARG)
    (hc : m.copyout d (pushed sp s) (s ++ [0]) = .error err) :
    m.pushStrings d (s :: argv) argc sp ustack = .error err := by
  rw [pushStrings, if_neg (Nat.not_le.mpr hargc), hc]

end Turn

theorem four_dvd_room (s : List Byte) : 4 ∣ room s := Nat.dvd_mul_left 4 _

namespace Loaded

variable (hl : Loaded m d D g) {s : List Byte}

include hl

theorem toNat_sp :
    (BitVec.ofNat 32 ((g + 2) * PGSIZE - n)).toNat = (g + 2) * PGSIZE - n := by
  have htop := hl.top
  rw [BitVec.toNat_ofNat]
  apply Nat.mod_eq_of_lt
  simp only [UPAGES, KERNBASE, PGSIZE] at htop ⊢
  omega

/-- `sp -= (3+argc+1) * 4`. -/
theorem esp_eq {argv : List (List Byte)} (hn : need argv ≤ 2 * PGSIZE) :
    BitVec.ofNat 32 ((g + 2) * PGSIZE - used argv) - BitVec.ofNat 32 ((3 + argv.length + 1) * 4) =
      BitVec.ofNat 32 ((g + 2) * PGSIZE - need argv) := by
  have htop := hl.top
  apply BitVec.eq_of_toNat_eq
  rw [BitVec.toNat_sub, hl.toNat_sp, hl.toNat_sp, BitVec.toNat_ofNat]
  simp only [need, UPAGES, KERNBASE, PGSIZE] at htop hn ⊢
  omega

/-- Where a string goes that fits. -/
theorem pushed_fits (h4 : 4 ∣ n) (hn : n + room s ≤ PGSIZE) :
    pushed (BitVec.ofNat 32 ((g + 2) * PGSIZE - n)) s =
      BitVec.ofNat 32 ((g + 2) * PGSIZE - (n + room s)) := by
  have hroom := length_lt_room s
  apply BitVec.eq_of_toNat_eq
  rw [toNat_pushed, hl.toNat_sp, hl.toNat_sp]
  · omega
  · rw [hl.toNat_sp]
    simp only [PGSIZE] at hn ⊢
    omega
  · rw [hl.toNat_sp]
    simp only [PGSIZE] at hn ⊢
    omega

/-- A string that ends below the stack pointer is in the user half. -/
theorem pushed_user (h4 : 4 ∣ n) (hs : s.length + 1 ≤ (g + 2) * PGSIZE - n) :
    (pushed (BitVec.ofNat 32 ((g + 2) * PGSIZE - n)) s).toNat = (g + 2) * PGSIZE - n - room s ∧
    (pushed (BitVec.ofNat 32 ((g + 2) * PGSIZE - n)) s).toNat < KERNBASE := by
  have htop := hl.top
  have hsp : (pushed (BitVec.ofNat 32 ((g + 2) * PGSIZE - n)) s).toNat =
      (g + 2) * PGSIZE - n - room s := by
    rw [toNat_pushed, hl.toNat_sp]
    · rw [hl.toNat_sp]
      simp only [PGSIZE]
      omega
    · rw [hl.toNat_sp]
      exact hs
  refine ⟨hsp, ?_⟩
  rw [hsp]
  simp only [UPAGES, KERNBASE, PGSIZE] at htop ⊢
  omega

/-- A copy to the last `k` bytes of the stack page. -/
theorem copyout_stack (hsame : SameMap m m₁) (hp : D.pte (g + 1) = some e) (hu : e.u = true)
    (hne : p ≠ []) (hk : k ≤ PGSIZE) (hlen : p.length ≤ k) :
    m₁.copyout d (BitVec.ofNat 32 ((g + 2) * PGSIZE - k)) p =
      .ok (true, m₁.setPage e.ppn (Bytes.write (m₁.contents e.ppn) (PGSIZE - k) p)) := by
  have hpos := List.length_pos_iff.mpr hne
  have hdiv : ((g + 2) * PGSIZE - k) / PGSIZE = g + 1 := by
    simp only [PGSIZE] at hk ⊢
    omega
  have hmod : ((g + 2) * PGSIZE - k) % PGSIZE = PGSIZE - k := by
    simp only [PGSIZE] at hk ⊢
    omega
  have hcopy := copyout_page (m := m₁) (d := d) (x := e.ppn)
    (BitVec.ofNat 32 ((g + 2) * PGSIZE - k)) hne
  rw [hl.toNat_sp, hdiv, hmod, uva2ka_congr hsame] at hcopy
  exact hcopy (hl.uva2ka_stack hp hu) (by omega)

/-- A copy to the guard page. -/
theorem copyout_guard (hsame : SameMap m m₁) (hne : p ≠ []) (hlo : PGSIZE < k)
    (hhi : k ≤ 2 * PGSIZE) :
    m₁.copyout d (BitVec.ofNat 32 ((g + 2) * PGSIZE - k)) p = .ok (false, m₁) := by
  refine copyout_refused hne ?_
  have hpage : ((g + 2) * PGSIZE - k) / PGSIZE = g := by
    simp only [PGSIZE] at hlo hhi ⊢
    omega
  rw [hl.toNat_sp, hpage, uva2ka_congr hsame]
  exact hl.uva2ka_guard

/-- Strings that fit. -/
theorem pushStrings_fits (hp : D.pte (g + 1) = some e) (hu : e.u = true) (argv : List (List Byte)) :
    ∀ {m₁ : Mem} {n argc : Nat} {ustack : List Word}, SameMap m m₁ →
    4 ∣ n → n + used argv ≤ PGSIZE → argc + argv.length ≤ MAXARG →
    m₁.pushStrings d argv argc (BitVec.ofNat 32 ((g + 2) * PGSIZE - n)) ustack =
      .ok (some (BitVec.ofNat 32 ((g + 2) * PGSIZE - (n + used argv)),
          ustack ++ pointers ((g + 2) * PGSIZE) n argv),
        m₁.setPage e.ppn (stringsPage n argv (m₁.contents e.ppn))) := by
  induction argv with
  | nil =>
    intro m₁ n argc ustack _ _ _ _
    simp [pushStrings, pointers, stringsPage, setPage_contents]
  | cons s argv ih =>
    intro m₁ n argc ustack hsame h4 hn hargc
    rw [used_cons] at hn
    rw [List.length_cons] at hargc
    have hroom := length_lt_room s
    have hcopy := hl.copyout_stack hsame hp hu (k := n + room s) (p := s ++ [0]) (by simp)
      (by omega) (by simp only [List.length_append, List.length_singleton]; omega)
    rw [← hl.pushed_fits h4 (by omega)] at hcopy
    rw [pushStrings_copied (by omega) hcopy, hl.pushed_fits h4 (by omega),
      ih (hsame.trans (sameMap_setPage _)) (Nat.dvd_add h4 (four_dvd_room s)) (by omega)
      (by omega), setPage_setPage, contents_setPage_self, used_cons, Nat.add_assoc]
    simp [pointers, stringsPage]

/-- A string that does not fit, and does not wrap the stack pointer, runs
    into the guard page. -/
theorem copyout_overflow (hsame : SameMap m m₁) (h4 : 4 ∣ n) (hn : n ≤ PGSIZE)
    (hover : PGSIZE < n + room s) (hs : s.length + 1 ≤ (g + 2) * PGSIZE - n) :
    ∃ m', m₁.copyout d (pushed (BitVec.ofNat 32 ((g + 2) * PGSIZE - n)) s) (s ++ [0]) =
        .ok (false, m') ∧ SameMap m m' := by
  have htop := hl.top
  have hlen : room s ≤ s.length + 4 := Nat.div_mul_le_self _ _
  obtain ⟨hsp, _⟩ := hl.pushed_user h4 hs
  have hpage : (pushed (BitVec.ofNat 32 ((g + 2) * PGSIZE - n)) s).toNat / PGSIZE ≤ g := by
    rw [hsp]
    simp only [PGSIZE] at hover ⊢
    omega
  generalize pushed (BitVec.ofNat 32 ((g + 2) * PGSIZE - n)) s = sp at hsp hpage ⊢
  have hend : g * PGSIZE < sp.toNat + (s ++ [0]).length := by
    rw [hsp]
    have h4' := four_dvd_room s
    simp only [List.length_append, List.length_singleton, PGSIZE] at hs hn ⊢
    omega
  have hbefore : ∀ i, i ≤ g * PGSIZE - sp.toNat → pageAt sp.toNat i ≤ g := by
    intro i hi
    simp only [pageAt, UPAGES, KERNBASE, PGSIZE] at htop hpage hi ⊢
    omega
  have hat : pageAt sp.toNat (g * PGSIZE - sp.toNat) = g := by
    simp only [pageAt, UPAGES, KERNBASE, PGSIZE] at htop hpage ⊢
    omega
  -- the copy does not come past the guard page
  have hguard : ¬ UserByte D sp.toNat (g * PGSIZE - sp.toNat) := by
    rintro ⟨e, hp, hu⟩
    obtain ⟨e', hp', hu'⟩ := hl.guard
    rw [hat, hp'] at hp
    rw [Option.some.inj hp, hu] at hu'
    cases hu'
  have hd₁ : m₁.dirs d = some D := by
    rw [hsame.1]
    exact hl.dir
  obtain ⟨k, _, huser, hres⟩ := copyout_spec m₁ d sp (s ++ [0]) hd₁
  have hk : k ≤ g * PGSIZE - sp.toNat := Nat.le_of_not_lt (fun hlt => hguard (huser _ hlt))
  have hpos : 0 < (s ++ [0]).length := by simp
  rcases hres with ⟨rfl, _⟩ | ⟨_, _, hc⟩ | ⟨_, hno, _⟩
  · omega
  · exact ⟨_, hc, hsame.trans (sameMap_storeBytes _ _ _)⟩
  · obtain ⟨e, hp⟩ := Option.isSome_iff_exists.mp
      (hl.mapped _ (Nat.lt_of_le_of_lt (hbefore k hk) (by omega)))
    have := PageDir.table_of_pte hp
    rw [hno] at this
    cases this

/-- A string that wraps the stack pointer goes to a kernel address. -/
theorem copyout_wrapped (hsame : SameMap m m₁) (hs : (g + 2) * PGSIZE - n < s.length + 1)
    (hlen : s.length < KERNBASE) :
    m₁.copyout d (pushed (BitVec.ofNat 32 ((g + 2) * PGSIZE - n)) s) (s ++ [0]) =
      let sp := (pushed (BitVec.ofNat 32 ((g + 2) * PGSIZE - n)) s).toNat
      if KERNBASE + PHYSTOP ≤ sp ∧ sp < DEVSPACE then .error .wild else .ok (false, m₁) := by
  have hsp := toNat_pushed_wrapped (BitVec.ofNat 32 ((g + 2) * PGSIZE - n)) s
    (by rw [hl.toNat_sp]; exact hs) hlen
  rw [hl.toNat_sp] at hsp
  generalize pushed (BitVec.ofNat 32 ((g + 2) * PGSIZE - n)) s = sp at hsp ⊢
  have hlt := sp.isLt
  have hlo : UPAGES ≤ sp.toNat / PGSIZE := by
    rw [hsp]
    simp only [UPAGES, KERNBASE, PGSIZE] at hs hlen ⊢
    omega
  have hu := hl.uva2ka_kernel hlo (by simp only [PGSIZE]; omega)
  have hiff : ((KERNBASE + PHYSTOP) / PGSIZE ≤ sp.toNat / PGSIZE ∧
      sp.toNat / PGSIZE < DEVSPACE / PGSIZE) ↔
      KERNBASE + PHYSTOP ≤ sp.toNat ∧ sp.toNat < DEVSPACE := by
    simp only [KERNBASE, PHYSTOP, DEVSPACE, PGSIZE]
    omega
  rw [← uva2ka_congr hsame] at hu
  simp only [hiff] at hu
  dsimp only
  split
  · next hin =>
    rw [if_pos hin] at hu
    exact copyout_error (by simp) hu
  · next hout =>
    rw [if_neg hout] at hu
    exact copyout_refused (by simp) hu

/-- Strings that do not fit. -/
theorem pushStrings_overflow (hp : D.pte (g + 1) = some e) (hu : e.u = true)
    (argv : List (List Byte)) :
    ∀ (m₁ : Mem) (n argc : Nat) (ustack : List Word), SameMap m m₁ → 4 ∣ n → n ≤ PGSIZE →
    PGSIZE < n + used argv → argc + argv.length ≤ MAXARG → (∀ s ∈ argv, s.length < KERNBASE) →
    if lands ((g + 2) * PGSIZE) n argv then
      m₁.pushStrings d argv argc (BitVec.ofNat 32 ((g + 2) * PGSIZE - n)) ustack = .error .wild
    else ∃ m', m₁.pushStrings d argv argc (BitVec.ofNat 32 ((g + 2) * PGSIZE - n)) ustack =
      .ok (none, m') ∧ SameMap m m' := by
  induction argv with
  | nil =>
    intro m₁ n argc ustack _ _ h1 h2
    rw [used_nil] at h2
    omega
  | cons s argv ih =>
    intro m₁ n argc ustack hsame h4 hn hover hargc hlen
    rw [used_cons] at hover
    rw [List.length_cons] at hargc
    have hroom := length_lt_room s
    have hturn : argc < MAXARG := by omega
    by_cases hfits : n + room s ≤ PGSIZE
    · have hcopy := hl.copyout_stack hsame hp hu (k := n + room s) (p := s ++ [0]) (by simp)
        hfits (by simp only [List.length_append, List.length_singleton]; omega)
      rw [← hl.pushed_fits h4 hfits] at hcopy
      rw [lands, if_pos hfits, pushStrings_copied hturn hcopy, hl.pushed_fits h4 hfits]
      exact ih _ _ _ _ (hsame.trans (sameMap_setPage _)) (Nat.dvd_add h4 (four_dvd_room s)) hfits
        (by omega) (by omega) (fun t ht => hlen t (List.mem_cons_of_mem _ ht))
    · rw [lands, if_neg hfits]
      by_cases hwrap : s.length + 1 ≤ (g + 2) * PGSIZE - n
      · obtain ⟨_, hno⟩ := hl.pushed_user h4 hwrap
        obtain ⟨m', hcopy, hsame'⟩ := hl.copyout_overflow hsame h4 hn (by omega) hwrap
        rw [pushStrings_failed hturn hcopy, if_neg]
        · exact ⟨m', rfl, hsame'⟩
        · simp only [decide_eq_true_eq]
          omega
      · have hcopy := hl.copyout_wrapped (n := n) hsame (by omega) (hlen s List.mem_cons_self)
        dsimp only at hcopy ⊢
        simp only [decide_eq_true_eq]
        split at hcopy
        · next hin =>
          rw [if_pos hin]
          exact pushStrings_error hturn hcopy
        · next hout =>
          rw [if_neg hout]
          exact ⟨m₁, pushStrings_failed hturn hcopy, hsame⟩

/-! ### The whole stack -/

/-- Arguments that fit in the stack page. -/
theorem pushArgs_fits (hp : D.pte (g + 1) = some e) (hu : e.u = true) {argv : List (List Byte)}
    (hargc : argv.length ≤ MAXARG) (hfits : need argv ≤ PGSIZE) :
    m.pushArgs d ((g + 2) * PGSIZE) argv =
      .ok (some (BitVec.ofNat 32 ((g + 2) * PGSIZE - need argv)),
        m.setPage e.ppn (argsPage ((g + 2) * PGSIZE) argv (m.contents e.ppn))) := by
  have hused : used argv + 4 * (argv.length + 4) ≤ PGSIZE := hfits
  have hstrings : m.pushStrings d argv 0 (BitVec.ofNat 32 ((g + 2) * PGSIZE - 0)) [] = _ :=
    hl.pushStrings_fits hp hu argv ⟨rfl, rfl⟩ (Nat.dvd_zero 4) (by omega) (by omega)
  rw [Nat.sub_zero, Nat.zero_add, List.nil_append] at hstrings
  have hlen := length_frame ((g + 2) * PGSIZE)
    (BitVec.ofNat 32 ((g + 2) * PGSIZE - used argv)) argv
  have hframe := hl.copyout_stack
    (sameMap_setPage (m := m) (x := e.ppn) (stringsPage 0 argv (m.contents e.ppn))) hp hu
    (List.ne_nil_of_length_pos (by rw [hlen]; omega)) hfits
    (by rw [hlen]; exact Nat.le_add_left _ _)
  unfold pushArgs
  rw [hstrings]
  simp only
  rw [hl.esp_eq (Nat.le_trans hfits (by decide)), hframe, setPage_setPage, contents_setPage_self]
  rfl

/-- Arguments that do not fit. -/
theorem pushArgs_overflow {argv : List (List Byte)} (hargc : argv.length < MAXARG)
    (hlen : ∀ s ∈ argv, s.length < KERNBASE) (hover : PGSIZE < need argv) :
    if lands ((g + 2) * PGSIZE) 0 argv then
      m.pushArgs d ((g + 2) * PGSIZE) argv = .error .wild
    else ∃ m', m.pushArgs d ((g + 2) * PGSIZE) argv = .ok (none, m') ∧ SameMap m m' := by
  obtain ⟨e, hp, hu⟩ := hl.stack
  unfold pushArgs
  by_cases hstr : used argv ≤ PGSIZE
  · -- the strings fit, and the frame goes to the guard page
    have hstrings : m.pushStrings d argv 0 (BitVec.ofNat 32 ((g + 2) * PGSIZE - 0)) [] = _ :=
      hl.pushStrings_fits hp hu argv ⟨rfl, rfl⟩ (Nat.dvd_zero 4) (by omega) (by omega)
    rw [Nat.sub_zero, Nat.zero_add, List.nil_append] at hstrings
    have hsame := sameMap_setPage (m := m) (x := e.ppn) (stringsPage 0 argv (m.contents e.ppn))
    have hneed : need argv ≤ 2 * PGSIZE := by
      simp only [need, MAXARG, PGSIZE] at hstr hargc ⊢
      omega
    rw [lands_of_fits argv (by omega), if_neg Bool.false_ne_true, hstrings]
    simp only
    rw [hl.esp_eq hneed, hl.copyout_guard hsame
      (List.ne_nil_of_length_pos (by rw [length_frame]; omega)) hover hneed]
    exact ⟨_, rfl, hsame⟩
  · have hstrings := hl.pushStrings_overflow hp hu argv m 0 0 [] ⟨rfl, rfl⟩ (Nat.dvd_zero 4)
      (Nat.zero_le _) (by omega) (by omega) hlen
    rw [Nat.sub_zero] at hstrings
    split at hstrings
    · next hlands =>
      rw [if_pos hlands, hstrings]
    · next hlands =>
      rw [if_neg hlands]
      obtain ⟨m', hfail, hsame⟩ := hstrings
      rw [hfail]
      exact ⟨m', rfl, hsame⟩

end Loaded

/-! ### What the program finds -/

/-- The bytes of `p` are at user address `a`. -/
def HoldsBytes (m : Mem) (d : Page) (a : Nat) (p : List Byte) : Prop :=
  ∀ i b, p[i]? = some b → m.loadByte d (a + i) = some b

/-- The words of `ws` are at user address `a`. -/
def HoldsWords (m : Mem) (d : Page) (a : Nat) (ws : List Word) : Prop :=
  ∀ k w, ws[k]? = some w → HoldsBytes m d (a + 4 * k) (wordBytes w)

/-- The stack of a program that was started with `argv` in an address space
    of size `sz`. The memory was `m` when the program had been loaded and is
    `m'` when it starts. -/
structure ArgStack (m m' : Mem) (d : Page) (sz : Nat) (esp : Word) (argv : List (List Byte))
    (ptrs : List Word) : Prop where
  length : ptrs.length = argv.length
  /-- the fake return address, `argc` and `argv` -/
  frame : HoldsWords m' d esp.toNat
    [0xffffffff, BitVec.ofNat 32 argv.length, BitVec.ofNat 32 (esp.toNat + 12)]
  /-- the array of pointers, with a null pointer at its end -/
  array : HoldsWords m' d (esp.toNat + 12) (ptrs ++ [0])
  string : ∀ (i : Nat) (s : List Byte) (p : Word), argv[i]? = some s → ptrs[i]? = some p →
    HoldsBytes m' d p.toNat (s ++ [0])
  /-- frame, array and strings are one above the other in the stack page -/
  inside : sz - PGSIZE ≤ esp.toNat ∧ esp.toNat + 12 + 4 * (argv.length + 1) ≤ sz
  above : ∀ (i : Nat) (s : List Byte) (p : Word), argv[i]? = some s → ptrs[i]? = some p →
    esp.toNat + 12 + 4 * (argv.length + 1) ≤ p.toNat ∧ p.toNat + s.length + 1 ≤ sz
  disjoint : ∀ (i j : Nat) (s t : List Byte) (p q : Word), i < j → argv[i]? = some s →
    argv[j]? = some t → ptrs[i]? = some p → ptrs[j]? = some q → q.toNat + t.length + 1 ≤ p.toNat
  guard : ∃ D e, m'.dirs d = some D ∧ D.pte (sz / PGSIZE - 2) = some e ∧ e.u = false
  program : ∀ a, a < sz - 2 * PGSIZE → (m.loadByte d a).isSome ∧ m'.loadByte d a = m.loadByte d a

namespace Loaded

variable (hl : Loaded m d D g)

include hl

/-- The last `k` bytes of the address space are the last `k` bytes of the
    stack page. -/
theorem holdsBytes (hp : D.pte (g + 1) = some e) {b : Bytes.Buf PGSIZE} (hk : k ≤ PGSIZE)
    (hlen : p.length ≤ k) (h : Bytes.Holds b (PGSIZE - k) p) :
    HoldsBytes (m.setPage e.ppn b) d ((g + 2) * PGSIZE - k) p := by
  intro i c hc
  obtain ⟨hi, _⟩ := List.getElem?_eq_some_iff.mp hc
  have hdiv : ((g + 2) * PGSIZE - k + i) / PGSIZE = g + 1 := by
    simp only [PGSIZE] at hk ⊢
    omega
  have hmod : ((g + 2) * PGSIZE - k + i) % PGSIZE = PGSIZE - k + i := by
    simp only [PGSIZE] at hk ⊢
    omega
  have hload := loadByte_eq (m := m.setPage e.ppn b) (a := (g + 2) * PGSIZE - k + i) hl.dir
    (hdiv ▸ hp)
  rw [hload, hmod, contents_setPage_self, h i c hc]

theorem holdsWords (hp : D.pte (g + 1) = some e) {b : Bytes.Buf PGSIZE} {ws : List Word}
    (hk : k ≤ PGSIZE) (hlen : 4 * ws.length ≤ k)
    (h : Bytes.Holds b (PGSIZE - k) (ws.flatMap wordBytes)) :
    HoldsWords (m.setPage e.ppn b) d ((g + 2) * PGSIZE - k) ws := by
  intro i w hw
  obtain ⟨hi, _⟩ := List.getElem?_eq_some_iff.mp hw
  have hword := holds_words ws h hw
  have hoff : PGSIZE - k + 4 * i = PGSIZE - (k - 4 * i) := by omega
  have haddr : (g + 2) * PGSIZE - k + 4 * i = (g + 2) * PGSIZE - (k - 4 * i) := by
    simp only [PGSIZE] at hk ⊢
    omega
  rw [hoff] at hword
  rw [haddr]
  exact hl.holdsBytes hp (by omega) (by rw [length_wordBytes]; omega) hword

/-- A page of the program is another page than the stack. -/
theorem program_kept {E : Type} {S : Set Page} {he : E → Option Page} {loose : List Page}
    (hok : Ok S m he loose) (hp : D.pte (g + 1) = some e) (b : Bytes.Buf PGSIZE) {a : Nat}
    (ha : a < g * PGSIZE) :
    (m.loadByte d a).isSome ∧ (m.setPage e.ppn b).loadByte d a = m.loadByte d a := by
  have htop := hl.top
  have hv : a / PGSIZE < g := by
    simp only [PGSIZE] at ha ⊢
    omega
  obtain ⟨e', hp'⟩ := Option.isSome_iff_exists.mp (hl.mapped (a / PGSIZE) (by omega))
  have hpage : e'.ppn ≠ e.ppn := by
    intro heq
    have howner := hok.page_inj (page_user (show a / PGSIZE < UPAGES by omega) hl.dir hp')
      (heq ▸ page_user (show g + 1 < UPAGES by omega) hl.dir hp)
    have := (Owner.user.inj howner).2
    omega
  have hload := loadByte_eq (a := a) hl.dir hp'
  refine ⟨by rw [hload]; rfl, ?_⟩
  rw [hload, loadByte_eq (m := m.setPage e.ppn b) (a := a) hl.dir hp']
  simp only [setPage, Function.update_of_ne hpage]

/-- What `pushArgs` leaves is the stack of the program. -/
theorem argStack {E : Type} {S : Set Page} {he : E → Option Page} {loose : List Page}
    (hok : Ok S m he loose) (hp : D.pte (g + 1) = some e) {argv : List (List Byte)}
    (hfits : need argv ≤ PGSIZE) :
    ArgStack m (m.setPage e.ppn (argsPage ((g + 2) * PGSIZE) argv (m.contents e.ppn))) d
      ((g + 2) * PGSIZE) (BitVec.ofNat 32 ((g + 2) * PGSIZE - need argv)) argv
      (pointers ((g + 2) * PGSIZE) 0 argv) := by
  have hused : used argv + 4 * (argv.length + 4) ≤ PGSIZE := hfits
  have hneed : need argv = used argv + 4 * (argv.length + 4) := rfl
  have htop := hl.top
  have hsz : PGSIZE ≤ (g + 2) * PGSIZE := by
    simp only [PGSIZE]
    omega
  have hlt : (g + 2) * PGSIZE < 2 ^ 32 := by
    simp only [UPAGES, KERNBASE, PGSIZE] at htop ⊢
    omega
  have hesp := hl.toNat_sp (n := need argv)
  have hframe : HoldsWords (m.setPage e.ppn (argsPage ((g + 2) * PGSIZE) argv (m.contents e.ppn)))
      d ((g + 2) * PGSIZE - need argv) (frameWords argv.length
        (BitVec.ofNat 32 ((g + 2) * PGSIZE - used argv)) (pointers ((g + 2) * PGSIZE) 0 argv)) := by
    refine hl.holdsWords hp hfits ?_ (argsPage_frame _ _ hfits)
    rw [length_frameWords, length_pointers]
    omega
  have hstring : ∀ (i : Nat) (s : List Byte) (p : Word), argv[i]? = some s →
      (pointers ((g + 2) * PGSIZE) 0 argv)[i]? = some p →
      (g + 2) * PGSIZE - used argv ≤ p.toNat ∧ p.toNat + s.length + 1 ≤ (g + 2) * PGSIZE ∧
      HoldsBytes (m.setPage e.ppn (argsPage ((g + 2) * PGSIZE) argv (m.contents e.ppn))) d p.toNat
        (s ++ [0]) := by
    intro i s p hs hptr
    obtain ⟨hlow, hhigh, hholds⟩ :=
      argsPage_string hsz hlt hfits (b := m.contents e.ppn) hs hptr
    have hkeep := hl.holdsBytes hp (k := (g + 2) * PGSIZE - p.toNat) (by omega)
      (by simp only [List.length_append, List.length_singleton]; omega) hholds
    have haddr : (g + 2) * PGSIZE - ((g + 2) * PGSIZE - p.toNat) = p.toNat := by omega
    rw [haddr] at hkeep
    exact ⟨hlow, hhigh, hkeep⟩
  have hargv : BitVec.ofNat 32 ((g + 2) * PGSIZE - used argv) -
      BitVec.ofNat 32 ((argv.length + 1) * 4) =
      BitVec.ofNat 32 ((g + 2) * PGSIZE - need argv + 12) := by
    apply BitVec.eq_of_toNat_eq
    rw [BitVec.toNat_sub, hl.toNat_sp, BitVec.toNat_ofNat, BitVec.toNat_ofNat]
    omega
  unfold frameWords at hframe
  rw [hargv] at hframe
  refine ⟨length_pointers _ _ _, ?_, ?_, fun i s p hs hptr => (hstring i s p hs hptr).2.2, ?_, ?_,
    ?_, ?_, ?_⟩
  · intro k w hw
    rw [hesp] at hw ⊢
    refine hframe k w ?_
    rw [List.getElem?_append_left (List.getElem?_eq_some_iff.mp hw).1]
    exact hw
  · intro k w hw
    rw [hesp]
    have haddr : (g + 2) * PGSIZE - need argv + 12 + 4 * k =
        (g + 2) * PGSIZE - need argv + 4 * (k + 3) := by omega
    rw [haddr]
    refine hframe (k + 3) w ?_
    rw [List.getElem?_append_right (by simp)]
    exact hw
  · rw [hesp]
    omega
  · intro i s p hs hptr
    obtain ⟨hlow, hhigh, _⟩ := hstring i s p hs hptr
    rw [hesp]
    omega
  · intro i j s t p q hij hs ht hpi hpj
    exact pointers_disjoint hsz hlt argv (by omega) hij hs ht hpi hpj
  · obtain ⟨eg, hg, hu⟩ := hl.guard
    have hpage : (g + 2) * PGSIZE / PGSIZE - 2 = g := by
      simp only [PGSIZE]
      omega
    exact ⟨D, eg, hl.dir, by rw [hpage]; exact hg, hu⟩
  · intro a ha
    refine hl.program_kept hok hp _ ?_
    simp only [PGSIZE] at ha ⊢
    omega

end Loaded

/-! ### `exec` -/

section Accepted

variable {user : Nat → Byte} {sz : Nat} {uargv : Word}

theorem fetchstr_length {s : List Byte} (h : fetchstr user sz addr = some s) : s.length < sz := by
  unfold fetchstr at h
  split at h
  · cases h
  · obtain ⟨n, hn, rfl⟩ := Option.map_eq_some_iff.mp h
    have hmem := List.mem_range.mp (List.mem_of_find?_eq_some hn)
    rw [List.length_map, List.length_range]
    omega

/-- `fetchstr` finds the first zero. -/
theorem fetchstr_finds (hn : addr.toNat + n < sz) (hzero : user (addr.toNat + n) = 0)
    (hne : ∀ i, i < n → user (addr.toNat + i) ≠ 0) :
    ∃ s, fetchstr user sz addr = some s ∧ s.length = n := by
  have hfind : (List.range (sz - addr.toNat)).find? (fun i => user (addr.toNat + i) = 0) =
      some n := by
    rw [List.find?_range_eq_some]
    refine ⟨by simp [hzero], List.mem_range.mpr (by omega), fun j hj => ?_⟩
    have hj' : user (addr.toNat + j) ≠ 0#8 := hne j hj
    simp [hj']
  refine ⟨(List.range n).map (fun i => user (addr.toNat + i)), ?_, by simp⟩
  rw [fetchstr, if_neg (by omega), hfind]
  rfl

/-- A vector of one string. -/
theorem sysExecArgv_one {s : List Byte} (hfirst : fetchint user sz 0 = some addr) (hne : addr ≠ 0)
    (hs : fetchstr user sz addr = some s) (hlast : fetchint user sz 4 = some 0) :
    sysExecArgv user sz 0 = some [s] := by
  have h0 : (0 : Word) + BitVec.ofNat 32 (4 * 0) = 0 := by decide
  have h1 : (0 : Word) + BitVec.ofNat 32 (4 * (0 + 1)) = 4 := by decide
  unfold sysExecArgv MAXARG
  rw [fetchArgv, h0, hfirst]
  simp only [hne, if_false, hs]
  rw [fetchArgv, h1, hlast]
  rfl

/-- `sys_exec` accepts fewer than `MAXARG` strings, and none is longer than
    the memory of the caller. -/
theorem fetchArgv_accepted (k : Nat) : ∀ {i : Nat} {argv : List (List Byte)},
    fetchArgv user sz uargv k i = some argv → argv.length < k ∧ ∀ s ∈ argv, s.length < sz := by
  induction k with
  | zero =>
    intro i argv h
    simp [fetchArgv] at h
  | succ k ih =>
    intro i argv h
    unfold fetchArgv at h
    split at h
    · cases h
    · next uarg _ =>
      split at h
      · obtain rfl := Option.some.inj h
        exact ⟨Nat.succ_pos k, fun s hs => by cases hs⟩
      · split at h
        · cases h
        · next s hs =>
          obtain ⟨rest, hrest, rfl⟩ := Option.map_eq_some_iff.mp h
          obtain ⟨hlen, hall⟩ := ih hrest
          refine ⟨Nat.succ_lt_succ hlen, fun t ht => ?_⟩
          rcases List.mem_cons.mp ht with rfl | ht
          · exact fetchstr_length hs
          · exact hall t ht

end Accepted

/-- What a program relies on: it finds its arguments on its stack, and
    arguments that do not fit make `exec` fail. -/
structure PassesArguments (L : Layout) (m : Mem) (f : ExecFile) (argv : List (List Byte)) :
    Prop where
  stack : ∀ img m', m.exec L f argv = .ok (some img, m') →
    ∃ m₁ ptrs, m.execLoad L f = .ok (some (img.pgdir, img.sz), m₁) ∧
      ArgStack m₁ m' img.pgdir img.sz img.esp argv ptrs
  toolong : ∀ d sz m₁, m.execLoad L f = .ok (some (d, sz), m₁) → PGSIZE < need argv →
    ∃ m', m.exec L f argv = .ok (none, m')

variable {E : Type} [DecidableEq E] {S : Set Page} {he : E → Option Page} {loose : List Page}
  {L : Layout} {f : ExecFile} {argv : List (List Byte)} {sz : Nat}

/-- Arguments that fit. -/
theorem exec_fits (h : Ok S m he loose) (hx : m.execLoad L f = .ok (some (d, sz), m₁))
    (hargc : argv.length < MAXARG) (hfits : need argv ≤ PGSIZE) :
    ∃ esp m' ptrs, m.exec L f argv = .ok (some ⟨d, sz, f.entry, esp⟩, m') ∧
      ArgStack m₁ m' d sz esp argv ptrs := by
  obtain ⟨_, hfill, D, g, rfl, hl⟩ := execLoad_loaded h hx
  obtain ⟨e, hp, hu⟩ := hl.stack
  have hpush := hl.pushArgs_fits hp hu (Nat.le_of_lt hargc) hfits
  refine ⟨_, _, _, ?_, hl.argStack hfill.ok hp hfits⟩
  simp only [exec, hx, hpush]

/-- Arguments that do not fit. -/
theorem exec_toolong (hS : ∀ p ∈ S, L.ValidPage p) (h : Ok S m he loose)
    (hx : m.execLoad L f = .ok (some (d, sz), m₁)) (hargc : argv.length < MAXARG)
    (hlen : ∀ s ∈ argv, s.length < KERNBASE) (hover : PGSIZE < need argv) :
    if lands sz 0 argv then m.exec L f argv = .error .wild
    else ∃ m', m.exec L f argv = .ok (none, m') := by
  obtain ⟨_, hfill, D, g, rfl, hl⟩ := execLoad_loaded h hx
  have hpush := hl.pushArgs_overflow hargc hlen hover
  split at hpush
  · next hlands =>
    rw [if_pos hlands]
    simp only [exec, hx, hpush]
  · next hlands =>
    rw [if_neg hlands]
    obtain ⟨m₂, hpush, hsame⟩ := hpush
    obtain ⟨m', hf, _⟩ := (freevm_spec (L := L) (hfill.ok.of_same hsame.1 hsame.2)
      (show m₂.dirs d = some D by rw [hsame.1]; exact hl.dir)).returns hS
    exact ⟨m', by simp only [exec, hx, hpush, hf, Except.map]⟩

/-- A program that starts has its arguments. -/
theorem exec_started (hS : ∀ p ∈ S, L.ValidPage p) (h : Ok S m he loose)
    (hargc : argv.length < MAXARG) (hlen : ∀ s ∈ argv, s.length < KERNBASE) {img : ExecImage}
    (hrun : m.exec L f argv = .ok (some img, m')) :
    ∃ m₁ ptrs, m.execLoad L f = .ok (some (img.pgdir, img.sz), m₁) ∧
      ArgStack m₁ m' img.pgdir img.sz img.esp argv ptrs := by
  rcases hx : m.execLoad L f with err | ⟨_ | ⟨d, sz⟩, m₁⟩
  · simp [exec, hx] at hrun
  · simp [exec, hx] at hrun
  by_cases hfits : need argv ≤ PGSIZE
  · obtain ⟨esp, m₂, ptrs, hrun₂, hstack⟩ := exec_fits h hx hargc hfits
    rw [hrun₂, Except.ok.injEq, Prod.mk.injEq, Option.some.injEq] at hrun
    obtain ⟨rfl, rfl⟩ := hrun
    exact ⟨m₁, ptrs, rfl, hstack⟩
  · have hfail := exec_toolong hS h hx hargc hlen (Nat.lt_of_not_le hfits)
    rw [hrun] at hfail
    split at hfail
    · cases hfail
    · obtain ⟨m₂, hnone⟩ := hfail
      simp at hnone

/-- A string of less than 32 MB does not wrap the stack pointer that far. -/
theorem Loaded.lands_of_short (hl : Loaded m d D g) (argv : List (List Byte)) : ∀ {n : Nat},
    4 ∣ n → n ≤ PGSIZE → (∀ s ∈ argv, s.length < 0x2000000) →
    lands ((g + 2) * PGSIZE) n argv = false := by
  induction argv with
  | nil =>
    intro n _ _ _
    rfl
  | cons s argv ih =>
    intro n h4 hn hshort
    have hs := hshort s List.mem_cons_self
    rw [lands]
    split
    · next hfits =>
      exact ih (Nat.dvd_add h4 (four_dvd_room s)) hfits
        (fun t ht => hshort t (List.mem_cons_of_mem _ ht))
    · apply decide_eq_false
      by_cases hwrap : s.length + 1 ≤ (g + 2) * PGSIZE - n
      · obtain ⟨_, hlt⟩ := hl.pushed_user h4 hwrap
        omega
      · have hsp := toNat_pushed_wrapped (BitVec.ofNat 32 ((g + 2) * PGSIZE - n)) s
          (by rw [hl.toNat_sp]; omega) (by simp only [KERNBASE]; omega)
        rw [hl.toNat_sp] at hsp
        rw [hsp]
        simp only [KERNBASE, PHYSTOP, DEVSPACE, PGSIZE] at hn ⊢
        omega

/-- With enough pages a program without segments is loaded. -/
theorem execLoad_empty (L : Layout) {f : ExecFile} {F : List Page} (helf : f.elf = true)
    (hph : f.phdrs = []) (hL : ∀ p ∈ F, L.ValidPage p) (hlen : NPDENTRIES + 3 ≤ F.length)
    (hok : Ok {p | p ∈ F} ⟨F, fun _ => none, fun _ _ => 0⟩ (Empty.elim : Empty → Option Page) []) :
    ∃ (d : Page) (m₁ : Mem), (⟨F, fun _ => none, fun _ _ => 0⟩ : Mem).execLoad L f =
      .ok (some (d, 2 * PGSIZE), m₁) := by
  have h0 : pgroundup 0 = 0 := by decide
  have h2 : pgroundup (2 * PGSIZE) = 2 := by decide
  obtain ⟨⟨r, m₁⟩, hs, hsetup⟩ := (setupkvm_spec (L := L) hok).returns hL
  obtain ⟨d, D, hr, hb, hk⟩ | ⟨_, hshort, _⟩ := hsetup
  swap
  · have hshort' : F.length < NPDENTRIES + 1 := hshort
    omega
  obtain rfl : r = some d := hr
  have hroom : m₁.free.length + 1 + NPDENTRIES = F.length + D.missing.card := hb.room
  obtain ⟨⟨sz, m₂⟩, hal, D₂, ⟨hsz, _, _, hadd, hpages⟩ | ⟨_, hlt, _⟩ | ⟨_, hshort, _⟩⟩ :=
    (allocuvm_spec (L := L) (2 * PGSIZE) hb.ok hb.dir (program_empty hb.dir hk).sized).returns hL
  · obtain rfl : sz = 2 * PGSIZE := hsz
    rw [h0, h2] at hpages
    obtain ⟨x, hx, _⟩ := hpages.inside 0 (Nat.le_refl 0) (by decide)
    obtain ⟨m₃, _, hc, _⟩ := clearpteu_spec hadd.ok hadd.dir (PageDir.table_of_pte hx)
    have hgrow : m₁.growStack L d 0 = .ok (some (2 * PGSIZE), m₃) := by
      have hnew : (0 + 2 * PGSIZE) % 2 ^ 32 = 2 * PGSIZE := by decide
      have hsize : 2 * PGSIZE = 8191 + 1 := by decide
      unfold growStack
      simp only [h0, Nat.zero_mul, hnew, hal]
      rw [hsize]
      simp only [hc, Except.map]
    refine ⟨d, m₃, ?_⟩
    simp only [execLoad, helf, Bool.not_true, Bool.false_eq_true, if_false, hs, hph, loadAll, hgrow]
  · exact absurd hlt (Nat.not_lt_zero _)
  · have hshort' : m₁.free.length < D.missing.card + (pgroundup (2 * PGSIZE) - pgroundup 0) :=
      hshort (by decide)
    rw [h0, h2] at hshort'
    omega

/-- A machine on which it can be. -/
theorem exists_loaded {f : ExecFile} (helf : f.elf = true) (hph : f.phdrs = []) :
    ∃ (S : Set Page) (m : Mem) (d : Page) (m₁ : Mem), (∀ p ∈ S, exampleLayout.ValidPage p) ∧
      Ok S m (Empty.elim : Empty → Option Page) [] ∧
      m.execLoad exampleLayout f = .ok (some (d, 2 * PGSIZE), m₁) := by
  have hok : Ok {p | p ∈ List.range' 0x400 3000} ⟨List.range' 0x400 3000, fun _ => none, fun _ _ => 0⟩
      (Empty.elim : Empty → Option Page) [] :=
    ok_initial (m := ⟨List.range' 0x400 3000, fun _ => none, fun _ _ => 0⟩) (fun _ => rfl)
      List.nodup_range'
  obtain ⟨d, m₁, hx⟩ := execLoad_empty exampleLayout helf hph exampleLayout_valid
    (by rw [List.length_range']; decide) hok
  exact ⟨_, _, d, m₁, exampleLayout_valid, hok, hx⟩

/-- The memory of a caller with the argument vector `{"a", 0}` at address 0. -/
def oneArgument (a : Nat) : Byte := if a = 0 then 8 else if a = 8 then 97 else 0

/-- The memory of a caller of 64 MB, with a vector of one argument at
    address 0. The pointer is `0x01010101`, and the string goes from there to
    the end of the memory. -/
def longArgument (a : Nat) : Byte := if 4 ≤ a ∧ a < 8 ∨ a = 0x3FFFFFF then 0 else 1

theorem longArgument_argv :
    ∃ s, sysExecArgv longArgument 0x4000000 0 = some [s] ∧ s.length = 0x2FEFEFE := by
  have haddr : (0x01010101 : Word).toNat = 0x01010101 := by decide
  have hin : (0x01010101 : Word).toNat + 0x2FEFEFE < 0x4000000 := by decide
  have hend : longArgument ((0x01010101 : Word).toNat + 0x2FEFEFE) = 0 := by decide
  have hbefore : ∀ i, i < 0x2FEFEFE → longArgument ((0x01010101 : Word).toNat + i) ≠ 0 := by
    intro i hi
    have hone : longArgument ((0x01010101 : Word).toNat + i) = 1 := by
      rw [haddr]
      exact if_neg (by omega)
    rw [hone]
    decide
  obtain ⟨s, hs, hlen⟩ := fetchstr_finds hin hend hbefore
  have hfirst : fetchint longArgument 0x4000000 0 = some 0x01010101 := by decide
  have hlast : fetchint longArgument 0x4000000 4 = some 0 := by decide
  exact ⟨s, sysExecArgv_one hfirst (by decide) hs hlast, hlen⟩

end Mem

end Xv6.Vm
