import Xv6.Mem.Copy
import Xv6.Proc.QueueInv

/-! # Growing and Shrinking a Process

    `growproc(n)` adds the signed `n` to the unsigned size of the process.
    Growth goes through `allocuvm` and shrinkage through `deallocuvm`; both
    return the new size, and `growproc` takes the size 0 for a failure.

    Growth that fails leaves everything as it was. A process that shrinks to
    the size 0 loses its pages although the call says it failed, a process
    that asks to shrink below 0 is told that it did, and the bytes between
    the size and the end of the last page are not cleared when the process
    grows into them again. `growproc_all_or_nothing` says that nothing else
    can go wrong.
-/

namespace Xv6.Vm

open Ownership Process

namespace Mem

variable {E : Type} {S : Set Page} {m m' : Mem} {he : E → Option Page}
  {loose : List Page} {d : Page} {D D' : PageDir} {L : Layout} {t t' : Table} {c : PIdx} {n : Word}
  {sz a oldsz newsz : Nat}

/-! ### `growproc` -/

/-- `sz + n`, a `uint`. -/
def newSize (sz : Nat) (n : Word) : Nat := (BitVec.ofNat 32 sz + n).toNat

/-- `growproc` from the return of `allocuvm` or `deallocuvm` on. -/
def resize (t : Table) (c : PIdx) : Nat × Mem → Except Panic (Int × Table × Mem)
  | (0, m) => .ok (-1, t, m)
  | (sz + 1, m) => (t.setSize c (sz + 1)).map (fun t => (0, t, m))

def growproc (L : Layout) (t : Table) (m : Mem) (c : PIdx) (n : Word) :
    Except Panic (Int × Table × Mem) :=
  let sz := (t.proc c).sz
  match (t.proc c).pgdir with
  | none => .error .wild
  | some d =>
    if 0 < n.toInt then (m.allocuvm L d sz (newSize sz n)).bind (resize t c)
    else if n.toInt < 0 then (m.deallocuvm L d sz (newSize sz n)).bind (resize t c)
    else (t.setSize c sz).map (fun t => (0, t, m))

theorem newSize_of_nonneg (hsz : sz ≤ KERNBASE) (h : 0 ≤ sz + n.toInt) :
    (newSize sz n : Int) = sz + n.toInt := by
  simp only [KERNBASE] at hsz
  rw [newSize, BitVec.toNat_add, BitVec.toNat_ofNat]
  rw [BitVec.toInt_eq_toNat_cond] at h ⊢
  have := n.isLt
  split at h <;> split <;> omega

/-- Below 0 the size wraps to one that no process has. -/
theorem newSize_of_neg (h : sz + n.toInt < 0) : KERNBASE ≤ newSize sz n := by
  rw [newSize, BitVec.toNat_add, BitVec.toNat_ofNat]
  rw [BitVec.toInt_eq_toNat_cond] at h
  simp only [KERNBASE]
  have := n.isLt
  split at h <;> omega

/-! ### A process without other threads -/

/-- No other entry of the table has the directory of `c`. -/
def Alone (t : Table) (c : PIdx) : Prop := ∀ p, p ≠ c → (t.proc p).pgdir ≠ (t.proc c).pgdir

theorem Alone.modify_sz (ha : Alone t c) (sz : Nat) :
    Alone (t.modify c (fun pr => { pr with sz := sz })) c := by
  intro p hp
  rw [Table.proc_modify_of_ne _ _ hp, Table.proc_modify_self]
  exact ha p hp

/-- The loop over the table stores the size that is there already. -/
theorem broadcast_alone (ha : Alone t c) (hk : (t.proc c).kstack ≠ none)
    (hpg : (t.proc c).pgdir ≠ none) (hsz : (t.proc c).sz = sz) (l : List PIdx) :
    l.foldlM (Table.broadcastOne (t.proc c).pgdir sz) t = .ok t := by
  induction l with
  | nil => rfl
  | cons p l ih =>
    have hone : Table.broadcastOne (t.proc c).pgdir sz t p = .ok t := by
      unfold Table.broadcastOne
      by_cases hp : p = c
      · subst hp
        have hsame : t.modify p (fun pr => { pr with sz := sz }) = t := by
          subst hsz
          exact congrArg (fun f => { t with proc := f }) (Function.update_eq_self p t.proc)
        simp [hsame, Table.switchuvm, hk, hpg, Except.map]
      · rw [if_pos (ha p hp)]
    rw [List.foldlM_cons, hone]
    exact ih

theorem setSize_alone (sz : Nat) (ha : Alone t c) (hk : (t.proc c).kstack ≠ none)
    (hpg : (t.proc c).pgdir ≠ none) :
    t.setSize c sz = .ok (t.modify c (fun pr => { pr with sz := sz })) := by
  have hsz : ((t.modify c (fun pr => { pr with sz := sz })).proc c).sz = sz := by simp
  have hloop := broadcast_alone (ha.modify_sz sz) (by simpa using hk) (by simpa using hpg) hsz
    (List.finRange NPROC)
  simp only [Table.setSize, bind, Except.bind]
  rw [hloop]
  simp [Table.switchuvm, hk, hpg, pure, Except.pure]

/-! ### Growth -/

/-- A byte of a page that is kept. -/
theorem Keeps.loadByte {K : Owner → Prop} (hk : Keeps K m m') (ha : a < KERNBASE)
    (hK : K (.user d (a / PGSIZE))) (hd : m.dirs d = some D) (hd' : m'.dirs d = some D')
    (hp : (D.pte (a / PGSIZE)).isSome) (heq : D'.pte (a / PGSIZE) = D.pte (a / PGSIZE)) :
    m'.loadByte d a = m.loadByte d a := by
  obtain ⟨e, hp⟩ := Option.isSome_iff_exists.mp hp
  exact loadByte_congr hd hd' hp (heq.trans hp) (hk _ _ hK (user_page ha hd hp)).2

/-- The address space of `d` has gone from the size `oldsz` to `newsz`. -/
structure Resized (m m' : Mem) (d : Page) (oldsz newsz : Nat) : Prop where
  /-- exactly the pages below the new size are mapped -/
  mapped : ∃ D', m'.dirs d = some D' ∧
    ∀ v, v < UPAGES → ((D'.pte v).isSome ↔ v < pgroundup newsz)
  new : ∀ a, oldsz ≤ a → a < newsz → m'.loadByte d a = some 0
  kept : ∀ a, a < oldsz → a < newsz → m'.loadByte d a = m.loadByte d a

/-- The bytes from the size of the process to the end of its last page, as
    far as it is about to grow. -/
def TailZero (m : Mem) (d : Page) (oldsz newsz : Nat) : Prop :=
  ∀ a, oldsz ≤ a → a < newsz → a / PGSIZE < pgroundup oldsz → m.loadByte d a = some 0

theorem div_lt_pgroundup (hsz : sz ≤ KERNBASE) (ha : a < sz) : a / PGSIZE < pgroundup sz := by
  rw [lt_pgroundup_iff hsz]
  simp only [PGSIZE]
  omega

/-- `allocuvm` that returns a size has mapped the pages between the sizes,
    with zeroes, and kept everything else. -/
theorem allocuvm_pages [DecidableEq E] (h : Ok S m he loose) (hd : m.dirs d = some D)
    (hsized : D.Sized oldsz) (hle : oldsz ≤ newsz) (hsz : sz ≠ 0)
    (hl : m.allocuvm L d oldsz newsz = .ok (sz, m')) :
    sz = newsz ∧ newsz < KERNBASE ∧ ∃ D', Adds S he loose d (pgroundup newsz - pgroundup oldsz) m D m' D' ∧
      D'.Sized newsz ∧ NewPages (fun _ => zeroPage) m' D D' (pgroundup oldsz)
        (pgroundup newsz - pgroundup oldsz) := by
  obtain ⟨D', ⟨hr, _, hnew, hadd, hpages⟩ | ⟨_, hlt, _⟩ | ⟨hr, _⟩⟩ :=
    (allocuvm_spec _ h hd hsized).of_ok hl
  · exact ⟨hr, hnew, D', hadd, hpages.sized hsized hle hnew, hpages⟩
  · omega
  · exact absurd hr hsz

/-- The bytes that growth adds in new pages are zero, the bytes of the pages
    that were there are kept. -/
theorem allocuvm_grows [DecidableEq E] (h : Ok S m he loose) (hd : m.dirs d = some D)
    (hsized : D.Sized oldsz) (hle : oldsz ≤ newsz) (hsz : sz ≠ 0)
    (hl : m.allocuvm L d oldsz newsz = .ok (sz, m')) :
    (∀ a, pgroundup oldsz ≤ a / PGSIZE → a < newsz → m'.loadByte d a = some 0) ∧
    (∀ a, a / PGSIZE < pgroundup oldsz → m'.loadByte d a = m.loadByte d a) := by
  obtain ⟨_, hnew, D', hadd, _, hpages⟩ := allocuvm_pages h hd hsized hle hsz hl
  constructor
  · intro a hge ha
    have hlt := div_lt_pgroundup (Nat.le_of_lt hnew) ha
    obtain ⟨x, hx, hzero⟩ := hpages.inside (a / PGSIZE) hge (by omega)
    rw [loadByte_eq hadd.dir hx, hzero]
    simp [Bytes.Buf.get, zeroPage]
  · intro a hlow
    have hu : a / PGSIZE < UPAGES := Nat.lt_of_lt_of_le hlow (pgroundup_le hsized.1)
    refine (hadd.keeps h).loadByte ?_ trivial hd hadd.dir ?_ (hpages.outside _ (by omega))
    · simp only [UPAGES, KERNBASE, PGSIZE] at hu ⊢
      omega
    · rw [hsized.2 _ hu, ← lt_pgroundup_iff hsized.1]
      exact hlow

/-- Growth is as it should be exactly when the tail of the last page is
    zero. -/
theorem allocuvm_resized_iff [DecidableEq E] (h : Ok S m he loose) (hd : m.dirs d = some D)
    (hsized : D.Sized oldsz) (hlt : oldsz < newsz) (hsz : sz ≠ 0)
    (hl : m.allocuvm L d oldsz newsz = .ok (sz, m')) :
    Resized m m' d oldsz newsz ↔ TailZero m d oldsz newsz := by
  obtain ⟨_, hnew, D', hadd, hsized', _⟩ := allocuvm_pages h hd hsized (Nat.le_of_lt hlt) hsz hl
  obtain ⟨hzero, hsame⟩ := allocuvm_grows h hd hsized (Nat.le_of_lt hlt) hsz hl
  constructor
  · intro hr a hge ha hpage
    rw [← hsame a hpage]
    exact hr.new a hge ha
  · intro htail
    refine ⟨⟨D', hadd.dir, fun v hv => ?_⟩, ?_, ?_⟩
    · rw [hsized'.2 v hv, lt_pgroundup_iff (Nat.le_of_lt hnew)]
    · intro a hge ha
      by_cases hpage : a / PGSIZE < pgroundup oldsz
      · rw [hsame a hpage]
        exact htail a hge ha hpage
      · exact hzero a (by omega) ha
    · intro a ha _
      exact hsame a (div_lt_pgroundup hsized.1 ha)

/-! ### Shrinking -/

theorem deallocuvm_resized [DecidableEq E] (h : Ok S m he loose) (hd : m.dirs d = some D)
    (hsized : D.Sized oldsz) (hlt : newsz < oldsz)
    (hl : m.deallocuvm L d oldsz newsz = .ok (sz, m')) :
    sz = newsz ∧ Resized m m' d oldsz newsz := by
  obtain ⟨hr, _, hkeep, D', hun⟩ := (deallocuvm_spec hsized.1 hlt h hd).of_ok hl
  have hnew : newsz ≤ KERNBASE := Nat.le_trans (Nat.le_of_lt hlt) hsized.1
  have hmono := pgroundup_mono (Nat.le_of_lt hlt) hsized.1
  refine ⟨hr, ⟨D', hun.dir, ?_⟩, ?_, ?_⟩
  · intro v hv
    rw [hun.pte v]
    split
    · next hin =>
      simp only [Option.isSome_none, Bool.false_eq_true, false_iff]
      omega
    · next hout =>
      rw [hsized.2 v hv, ← lt_pgroundup_iff hsized.1]
      omega
  · intro a hge ha
    omega
  · intro a ha hanew
    have hlow := div_lt_pgroundup hnew hanew
    have hu : a / PGSIZE < UPAGES := Nat.lt_of_lt_of_le hlow (pgroundup_le hnew)
    refine hkeep.loadByte (Nat.lt_of_lt_of_le ha hsized.1) ?_ hd hun.dir ?_ ?_
    · intro v hv
      obtain ⟨_, rfl⟩ := Owner.user.inj hv
      exact hlow
    · rw [hsized.2 _ hu, ← lt_pgroundup_iff hsized.1]
      omega
    · rw [hun.pte, if_neg (by omega)]

/-! ### All or nothing -/

/-- `c` runs the address space `d`, alone. -/
structure SoleThread (t : Table) (m : Mem) (c : PIdx) (d : Page) (D : PageDir) : Prop where
  kstack : (t.proc c).kstack ≠ none
  pgdir : (t.proc c).pgdir = some d
  dir : m.dirs d = some D
  sized : D.Sized (t.proc c).sz
  alone : Alone t c

/-- What the callers of `growproc(n)` rely on. -/
def AllOrNothing (L : Layout) (t : Table) (m : Mem) (c : PIdx) (d : Page) (n : Word) : Prop :=
  ∀ r t' m', growproc L t m c n = .ok (r, t', m') →
    (r = 0 → ((t'.proc c).sz : Int) = (t.proc c).sz + n.toInt ∧
      Resized m m' d (t.proc c).sz (t'.proc c).sz) ∧
    (r = -1 → (t'.proc c).sz = (t.proc c).sz ∧ Untouched m m')

theorem allOrNothing_of_zero (hg : growproc L t m c n = .ok (0, t', m')) :
    AllOrNothing L t m c d n ↔ ((t'.proc c).sz : Int) = (t.proc c).sz + n.toInt ∧
      Resized m m' d (t.proc c).sz (t'.proc c).sz := by
  constructor
  · intro h
    exact (h 0 t' m' hg).1 rfl
  · intro h r t₁ m₁ hg₁
    rw [hg, Except.ok.injEq, Prod.mk.injEq, Prod.mk.injEq] at hg₁
    obtain ⟨rfl, rfl, rfl⟩ := hg₁
    exact ⟨fun _ => h, fun hr => absurd hr (by decide)⟩

theorem allOrNothing_of_neg (hg : growproc L t m c n = .ok (-1, t', m')) :
    AllOrNothing L t m c d n ↔ (t'.proc c).sz = (t.proc c).sz ∧ Untouched m m' := by
  constructor
  · intro h
    exact (h (-1) t' m' hg).2 rfl
  · intro h r t₁ m₁ hg₁
    rw [hg, Except.ok.injEq, Prod.mk.injEq, Prod.mk.injEq] at hg₁
    obtain ⟨rfl, rfl, rfl⟩ := hg₁
    exact ⟨fun hr => absurd hr (by decide), fun _ => h⟩

namespace SoleThread

variable (hp : SoleThread t m c d D)

include hp

theorem setSize (sz : Nat) : t.setSize c sz = .ok (t.modify c (fun pr => { pr with sz := sz })) :=
  setSize_alone sz hp.alone hp.kstack (by rw [hp.pgdir]; exact Option.some_ne_none d)

theorem resize_of_ne (hsz : sz ≠ 0) (m' : Mem) :
    resize t c (sz, m') = .ok (0, t.modify c (fun pr => { pr with sz := sz }), m') := by
  obtain ⟨k, rfl⟩ := Nat.exists_eq_succ_of_ne_zero hsz
  simp only [resize, Nat.succ_eq_add_one, hp.setSize]
  rfl

/-- The process is where it was, with another size. -/
theorem resized (hd : m'.dirs d = some D') (hsized : D'.Sized sz) :
    SoleThread (t.modify c (fun pr => { pr with sz := sz })) m' c d D' := by
  refine ⟨by simpa using hp.kstack, by simpa using hp.pgdir, hd, by simpa using hsized, ?_⟩
  exact hp.alone.modify_sz sz

theorem growproc_of_pos (hn : 0 < n.toInt) :
    growproc L t m c n =
      (m.allocuvm L d (t.proc c).sz (newSize (t.proc c).sz n)).bind (resize t c) := by
  simp only [growproc, hp.pgdir, if_pos hn]

theorem growproc_of_neg (hn : n.toInt < 0) :
    growproc L t m c n =
      (m.deallocuvm L d (t.proc c).sz (newSize (t.proc c).sz n)).bind (resize t c) := by
  simp only [growproc, hp.pgdir, if_neg (Int.not_lt.mpr (Int.le_of_lt hn)), if_pos hn]

theorem growproc_of_zero (hn : n.toInt = 0) :
    growproc L t m c n =
      .ok (0, t.modify c (fun pr => { pr with sz := (t.proc c).sz }), m) := by
  simp only [growproc, hp.pgdir, hn, Int.lt_irrefl, if_false, hp.setSize]
  rfl

/-- `growproc(0)` is as it should be. -/
theorem allOrNothing_zero (hn : n.toInt = 0) : AllOrNothing L t m c d n := by
  rw [allOrNothing_of_zero (hp.growproc_of_zero hn), Table.proc_modify_self]
  refine ⟨by simp [hn], ⟨D, hp.dir, fun v hv => ?_⟩, ?_, ?_⟩
  · rw [hp.sized.2 v hv, lt_pgroundup_iff hp.sized.1]
  · intro a h1 h2
    exact absurd (Nat.lt_of_le_of_lt h1 h2) (Nat.lt_irrefl _)
  · intro a _ _
    rfl

/-- Growing. -/
theorem grow [DecidableEq E] (hS : ∀ p ∈ S, L.ValidPage p) (h : Ok S m he loose)
    (hn : 0 < n.toInt) :
    (∃ m', growproc L t m c n = .ok (-1, t, m') ∧ AllOrNothing L t m c d n) ∨
    ∃ t' m', growproc L t m c n = .ok (0, t', m') ∧
      (AllOrNothing L t m c d n ↔ TailZero m d (t.proc c).sz (t'.proc c).sz) ∧
      ∀ a, pgroundup (t.proc c).sz ≤ a / PGSIZE → a < (t'.proc c).sz → m'.loadByte d a = some 0 := by
  have hnew := newSize_of_nonneg (n := n) hp.sized.1 (by omega)
  have hlt : (t.proc c).sz < newSize (t.proc c).sz n := by omega
  obtain ⟨⟨sz, m'⟩, hal, _⟩ :=
    (allocuvm_spec (L := L) (newSize (t.proc c).sz n) h hp.dir hp.sized).returns hS
  have hg : growproc L t m c n = resize t c (sz, m') := by
    rw [hp.growproc_of_pos hn, hal]
    rfl
  by_cases hsz : sz = 0
  · subst hsz
    refine Or.inl ⟨m', hg, ?_⟩
    rw [allOrNothing_of_neg hg]
    exact ⟨rfl, allocuvm_untouched h hp.dir hp.sized hal⟩
  · rw [hp.resize_of_ne hsz] at hg
    obtain ⟨rfl, _⟩ := allocuvm_pages h hp.dir hp.sized (Nat.le_of_lt hlt) hsz hal
    obtain ⟨hzero, _⟩ := allocuvm_grows h hp.dir hp.sized (Nat.le_of_lt hlt) hsz hal
    refine Or.inr ⟨_, m', hg, ?_, ?_⟩
    · rw [allOrNothing_of_zero hg, Table.proc_modify_self,
        allocuvm_resized_iff h hp.dir hp.sized hlt hsz hal]
      exact and_iff_right hnew
    · rw [Table.proc_modify_self]
      exact hzero

/-- Shrinking. -/
theorem shrink [DecidableEq E] (hS : ∀ p ∈ S, L.ValidPage p) (h : Ok S m he loose)
    (hn : n.toInt < 0) :
    (∃ r t' m', growproc L t m c n = .ok (r, t', m') ∧ (r = 0 ∨ r = -1)) ∧
    (AllOrNothing L t m c d n ↔ (t.proc c).sz = 0 ∨ 0 < (t.proc c).sz + n.toInt) := by
  by_cases hneg : (t.proc c).sz + n.toInt < 0
  · -- `deallocuvm` takes the wrapped size for growth and returns the old one
    have hnew := newSize_of_neg hneg
    have hg : growproc L t m c n = resize t c ((t.proc c).sz, m) := by
      rw [hp.growproc_of_neg hn, deallocuvm_of_ge (Nat.le_trans hp.sized.1 hnew)]
      rfl
    by_cases hsz : (t.proc c).sz = 0
    · rw [hsz] at hg
      refine ⟨⟨_, _, _, hg, Or.inr rfl⟩, iff_of_true ?_ (Or.inl hsz)⟩
      rw [allOrNothing_of_neg hg]
      exact ⟨rfl, untouched_refl m⟩
    · rw [hp.resize_of_ne hsz] at hg
      refine ⟨⟨_, _, _, hg, Or.inl rfl⟩, iff_of_false ?_ (by omega)⟩
      rw [allOrNothing_of_zero hg, Table.proc_modify_self]
      rintro ⟨hsize, _⟩
      simp only at hsize
      omega
  · have hnew := newSize_of_nonneg (n := n) hp.sized.1 (by omega)
    have hlt : newSize (t.proc c).sz n < (t.proc c).sz := by omega
    obtain ⟨⟨sz, m'⟩, hde, _⟩ := (deallocuvm_spec (L := L) hp.sized.1 hlt h hp.dir).returns hS
    obtain ⟨rfl, hres⟩ := deallocuvm_resized h hp.dir hp.sized hlt hde
    have hg : growproc L t m c n = resize t c (newSize (t.proc c).sz n, m') := by
      rw [hp.growproc_of_neg hn, hde]
      rfl
    by_cases hsz : newSize (t.proc c).sz n = 0
    · -- the pages are gone, and the size 0 is taken for a failure
      rw [hsz] at hg hres
      refine ⟨⟨_, _, _, hg, Or.inr rfl⟩, iff_of_false ?_ (by omega)⟩
      rw [allOrNothing_of_neg hg]
      rintro ⟨_, hunt⟩
      obtain ⟨D₁, hD₁, hmapped⟩ := hres.mapped
      obtain ⟨D₂, hD₂, hsame⟩ := hunt d D hp.dir
      obtain rfl : D₁ = D₂ := Option.some.inj (hD₁.symm.trans hD₂)
      have hfirst : (D.pte 0).isSome := (hp.sized.2 0 (by decide)).mpr (by omega)
      rw [← (hsame 0 (by decide)).1, hmapped 0 (by decide)] at hfirst
      exact absurd hfirst (by decide)
    · rw [hp.resize_of_ne hsz] at hg
      refine ⟨⟨_, _, _, hg, Or.inl rfl⟩, iff_of_true ?_ (by omega)⟩
      rw [allOrNothing_of_zero hg, Table.proc_modify_self]
      exact ⟨hnew, hres⟩

end SoleThread

/-- A machine with enough memory runs a process of any size. -/
theorem exists_soleThread (sz k : Nat) (hsz : sz < KERNBASE)
    (hlen : NPDENTRIES + (pgroundup sz + k) + 1 ≤ 3000) :
    ∃ (S : Set Page) (t : Table) (m : Mem) (d : Page) (D : PageDir),
      (∀ p ∈ S, exampleLayout.ValidPage p) ∧ Ok S m (Empty.elim : Empty → Option Page) [] ∧
      SoleThread t m 0 d D ∧ (t.proc 0).sz = sz := by
  obtain ⟨m, d, D, hok, hd, _, hsized⟩ := exists_sized exampleLayout (List.nodup_range' 1)
    exampleLayout_valid sz k hsz (by rw [List.length_range']; exact hlen)
  refine ⟨_, Table.boot.modify 0 (fun pr =>
    { pr with kstack := some 1, pgdir := some d, sz := sz }), m, d, D, exampleLayout_valid, hok, ?_, by simp⟩
  refine ⟨by simp, by simp, hd, by simpa using hsized, ?_⟩
  intro p hp
  rw [Table.proc_modify_of_ne _ _ hp, Table.proc_modify_self]
  exact nofun

theorem dirs_storeByte (m : Mem) (d : Page) (a : Nat) (b : Byte) :
    (m.storeByte d a b).dirs = m.dirs := by
  unfold storeByte
  split <;> rfl

theorem loadByte_storeByte {e : Pte} (hd : m.dirs d = some D) (hp : D.pte (a / PGSIZE) = some e)
    (b : Byte) : (m.storeByte d a b).loadByte d a = some b := by
  have hlt : a % PGSIZE < PGSIZE := Nat.mod_lt a (by decide)
  simp [storeByte, loadByte, hd, hp, Bytes.get_splice, hlt]

end Mem

end Xv6.Vm
