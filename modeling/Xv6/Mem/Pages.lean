import Xv6.Mem.Vm
import Xv6.Framework.Ownership
import Mathlib.Data.Fintype.Card

/-! # Who Owns Which Page

    Every page the allocator manages is in exactly one place: on the free
    list, in use as a page directory, as a page table or as a user page of
    one directory, held outside `vm.c` (kernel stacks), or in the hands of
    the function that has just allocated it (`Ok`).

    Which pages the functions of `vm.c` write to: `Keeps K m m'` says that
    the pages of the owners in `K` are still theirs, contents included.

    This file has what happens to the owners when a directory is changed and
    when pages are taken and given back. What each function does is in the
    files that follow.
-/

namespace Xv6.Vm

open Ownership Function

/-! ### Owners -/

/-- What a page can be used for. -/
inductive Owner where
  | dir (d : Page)
  | table (d : Page) (i : Fin NPDENTRIES)
  | user (d : Page) (v : Nat)
  deriving DecidableEq

/-- The directory an owner belongs to. -/
def Owner.home : Owner → Page
  | .dir d => d
  | .table d _ => d
  | .user d _ => d

/-- The user half of the address space, in pages. -/
def UPAGES : Nat := KERNBASE / PGSIZE

namespace PageDir

variable {D : PageDir} {i : Fin NPDENTRIES} {v : Nat} {x : Page} {e : Option Pte}

/-- The page a directory uses for one of its owners. -/
def own (D : PageDir) : Owner → Option Page
  | .dir d => some d
  | .table _ i => D.ptab i
  | .user _ v => if v < UPAGES then (D.pte v).map Pte.ppn else none

/-- A table of zeroes has no more entries than no table. -/
theorem pte_setTable (hi : D.ptab i = none) : (D.setTable i x).pte = D.pte := by
  funext v
  by_cases hv : PDX v = i
  · simp [setTable, hv, D.absent v (by rw [hv]; exact hi)]
  · simp [setTable, hv]

theorem pte_setPte (ht : (D.ptab (PDX v)).isSome) :
    (D.setPte v e).pte = update D.pte v e := by
  funext a
  by_cases ha : a = v
  · subst ha
    simp [setPte, ht]
  · simp [setPte, ha]

/-- An entry has a page table. -/
theorem table_of_pte {e : Pte} (hp : D.pte v = some e) : (D.ptab (PDX v)).isSome := by
  cases ht : D.ptab (PDX v) with
  | none =>
    rw [D.absent v ht] at hp
    cases hp
  | some y => rfl

/-- The page tables a directory does not have. -/
def missing (D : PageDir) : Finset (Fin NPDENTRIES) :=
  Finset.univ.filter (fun i => D.ptab i = none)

theorem mem_missing : i ∈ D.missing ↔ D.ptab i = none := by
  simp [missing]

theorem missing_setTable (D : PageDir) (i : Fin NPDENTRIES) (x : Page) :
    (D.setTable i x).missing = D.missing.erase i := by
  ext j
  rw [Finset.mem_erase, mem_missing, mem_missing]
  by_cases hj : j = i
  · subst hj
    simp [setTable]
  · simp [setTable, hj]

theorem missing_empty : PageDir.empty.missing.card = NPDENTRIES := by
  have hall : PageDir.empty.missing = Finset.univ := by
    ext i
    simp [missing, empty]
  rw [hall, Finset.card_univ, Fintype.card_fin]

end PageDir

namespace Mem

/-- The page that is used for `o`. -/
def page (m : Mem) : Owner → Option Page
  | .dir d => (m.dirs d).map (fun _ => d)
  | .table d i => (m.dirs d).bind (fun D => D.ptab i)
  | .user d v => if v < UPAGES then (m.dirs d).bind (fun D => (D.pte v).map Pte.ppn) else none

variable {E : Type}

/-- The pages of `S` are partitioned; `he` says what is held outside
    `vm.c`. -/
def Ok (S : Set Page) (m : Mem) (he : E → Option Page) (loose : List Page) : Prop :=
  Owned S (Sum.elim m.page he) m.free loose

variable {S : Set Page} {m m' m'' : Mem} {he : E → Option Page} {loose : List Page}
  {d x : Page} {D D' : PageDir} {L : Layout} {K K' : Owner → Prop} {o o₀ : Owner}

/-! ### How updates of a directory change the owners -/

theorem page_eq (m : Mem) (o : Owner) : m.page o = (m.dirs o.home).bind (fun D => D.own o) := by
  cases o with
  | dir d => cases hd : m.dirs d <;> simp [page, PageDir.own, Owner.home, hd]
  | table d i => rfl
  | user d v => by_cases hv : v < UPAGES <;> simp [page, PageDir.own, Owner.home, hv]

theorem page_of_dir (hd : m.dirs o.home = some D) : m.page o = D.own o := by
  rw [page_eq, hd]
  rfl

theorem page_of_none (hd : m.dirs o.home = none) : m.page o = none := by
  rw [page_eq, hd]
  rfl

theorem page_congr (h : m'.dirs = m.dirs) : m'.page = m.page := by
  funext o
  rw [page_eq, page_eq, h]

/-- The page of a user address. -/
theorem page_user {v : Nat} {e : Pte} (hv : v < UPAGES) (hd : m.dirs d = some D)
    (hp : D.pte v = some e) : m.page (.user d v) = some e.ppn := by
  simp [page, hv, hd, hp]

@[simp] theorem dirs_setDir_self (D : PageDir) : (m.setDir d D).dirs d = some D := by
  simp [setDir]

theorem dirs_setDir_of_ne {d' : Page} (hne : d' ≠ d) (D : PageDir) :
    (m.setDir d D).dirs d' = m.dirs d' := by
  simp [setDir, hne]

/-- Directory `d` changes what it uses for one owner. -/
theorem page_setDir (ho : o₀.home = d) (hsame : ∀ o, o.home = d → o ≠ o₀ → D'.own o = m.page o) :
    (m.setDir d D').page = update m.page o₀ (D'.own o₀) := by
  funext o
  by_cases hd' : o.home = d
  · rw [page_of_dir (D := D') (by rw [hd']; exact dirs_setDir_self D')]
    by_cases hoo : o = o₀
    · rw [hoo, update_self]
    · rw [update_of_ne hoo]
      exact hsame o hd' hoo
  · have hoo : o ≠ o₀ := by
      rintro rfl
      exact hd' ho
    rw [update_of_ne hoo, page_eq, page_eq, dirs_setDir_of_ne hd']

theorem page_setTable (hd : m.dirs d = some D) {i : Fin NPDENTRIES} (hi : D.ptab i = none) :
    (m.setDir d (D.setTable i x)).page = update m.page (.table d i) (some x) := by
  have hself : (D.setTable i x).own (.table d i) = some x := by
    simp [PageDir.own, PageDir.setTable]
  rw [← hself]
  refine page_setDir rfl (fun o ho hne => ?_)
  rw [page_of_dir (by rw [ho]; exact hd)]
  cases o with
  | dir d' => rfl
  | table d' j =>
    obtain rfl : d' = d := ho
    have hji : j ≠ i := fun heq => hne (by rw [heq])
    simp [PageDir.own, PageDir.setTable, hji]
  | user d' v => simp only [PageDir.own, PageDir.pte_setTable hi]

theorem page_setPte_user (hd : m.dirs d = some D) {v : Nat} {e : Option Pte}
    (hv : v < UPAGES) (ht : (D.ptab (PDX v)).isSome) :
    (m.setDir d (D.setPte v e)).page =
      update m.page (.user d v) (e.map Pte.ppn) := by
  have hself : (D.setPte v e).own (.user d v) = e.map Pte.ppn := by
    simp [PageDir.own, PageDir.pte_setPte ht, hv]
  rw [← hself]
  refine page_setDir rfl (fun o ho hne => ?_)
  rw [page_of_dir (by rw [ho]; exact hd)]
  cases o with
  | dir d' => rfl
  | table d' j => rfl
  | user d' a =>
    obtain rfl : d' = d := ho
    have hav : a ≠ v := fun heq => hne (by rw [heq])
    simp [PageDir.own, PageDir.pte_setPte ht, hav]

theorem page_setPte_kernel (hd : m.dirs d = some D) {v : Nat} {e : Option Pte}
    (hv : UPAGES ≤ v) (ht : (D.ptab (PDX v)).isSome) :
    (m.setDir d (D.setPte v e)).page = m.page := by
  have hdir : (D.setPte v e).own (.dir d) = m.page (.dir d) := by simp [PageDir.own, page, hd]
  have hself : (m.setDir d (D.setPte v e)).page =
      update m.page (.dir d) ((D.setPte v e).own (.dir d)) := by
    refine page_setDir rfl (fun o ho hne => ?_)
    rw [page_of_dir (by rw [ho]; exact hd)]
    cases o with
    | dir d' => rfl
    | table d' j => rfl
    | user d' a =>
      by_cases ha : a < UPAGES
      · have hav : a ≠ v := by omega
        simp [PageDir.own, PageDir.pte_setPte ht, hav]
      · simp [PageDir.own, ha]
  rw [hself, hdir, update_eq_self]

theorem page_newDir (hd : m.dirs d = none) :
    (m.setDir d .empty).page = update m.page (.dir d) (some d) := by
  have hself : PageDir.empty.own (.dir d) = some d := rfl
  rw [← hself]
  refine page_setDir rfl (fun o ho hne => ?_)
  rw [page_of_none (by rw [ho]; exact hd)]
  cases o with
  | dir d' =>
    obtain rfl : d' = d := ho
    exact absurd rfl hne
  | table d' j => rfl
  | user d' a => simp [PageDir.own, PageDir.empty]

/-! ### Pages that stay as they are -/

/-- The owners in `K` keep their pages and the contents of these. -/
def Keeps (K : Owner → Prop) (m m' : Mem) : Prop :=
  ∀ o p, K o → m.page o = some p → m'.page o = some p ∧ m'.contents p = m.contents p

/-- Every owner. -/
def All : Owner → Prop := fun _ => True

/-- The owners in other directories than `d`. -/
def Elsewhere (d : Page) : Owner → Prop := fun o => o.home ≠ d

/-- Every owner but the user pages of `d` from page `a` on. -/
def Below (d : Page) (a : Nat) : Owner → Prop := fun o => ∀ v, o = .user d v → v < a

namespace Keeps

theorem refl (K : Owner → Prop) (m : Mem) : Keeps K m m := fun _ _ _ ho => ⟨ho, rfl⟩

theorem trans (h : Keeps K m m') (h' : Keeps K m' m'') : Keeps K m m'' := by
  intro o p hK ho
  obtain ⟨ho₁, hc₁⟩ := h o p hK ho
  obtain ⟨ho₂, hc₂⟩ := h' o p hK ho₁
  exact ⟨ho₂, hc₂.trans hc₁⟩

theorem mono (h : Keeps K m m') (hK : ∀ o, K' o → K o) : Keeps K' m m' :=
  fun o p ho => h o p (hK o ho)

theorem of_all (h : Keeps All m m') : Keeps K m m' := h.mono (fun _ _ => trivial)

/-- Where there was no directory there was no owner. -/
theorem all_of_elsewhere (hnone : m.dirs d = none) (h : Keeps (Elsewhere d) m m') :
    Keeps All m m' := by
  intro o p _ ho
  refine h o p ?_ ho
  rintro rfl
  rw [page_of_none hnone] at ho
  cases ho

end Keeps

/-- A function that works on directory `d` leaves the others alone. -/
def SameElse (d : Page) (m m' : Mem) : Prop := ∀ d', d' ≠ d → m'.dirs d' = m.dirs d'

theorem SameElse.refl (d : Page) (m : Mem) : SameElse d m m := fun _ _ => rfl

theorem SameElse.trans (h : SameElse d m m') (h' : SameElse d m' m'') : SameElse d m m'' :=
  fun d' hd => (h' d' hd).trans (h d' hd)

theorem sameElse_setDir (D : PageDir) : SameElse d m (m.setDir d D) :=
  fun _ hd => dirs_setDir_of_ne hd D

/-- Dropping `d` from memories that differ in `d` only. -/
theorem SameElse.drop (hse : SameElse d m m') :
    update m'.dirs d none = update m.dirs d none := by
  funext d'
  by_cases hdd : d' = d
  · simp [hdd]
  · rw [update_of_ne hdd, update_of_ne hdd]
    exact hse d' hdd

/-! ### Taking pages and giving them back -/

/-- The first free page is taken and written to. -/
def taken (m : Mem) (x : Page) (ps : List Page) (b : Bytes.Buf PGSIZE) : Mem :=
  { m with free := ps, contents := Function.update m.contents x b }

theorem kalloc_of_free {ps : List Page} (hf : m.free = x :: ps) :
    m.kalloc = (some x, { m with free := ps }) := by
  unfold kalloc
  rw [hf]

theorem kalloc_of_nil (hf : m.free = []) : m.kalloc = (none, m) := by
  unfold kalloc
  rw [hf]

namespace Ok

section

variable (h : Ok S m he loose)

include h

theorem of_same (hd : m'.dirs = m.dirs) (hf : m'.free = m.free) : Ok S m' he loose := by
  unfold Ok at h ⊢
  rw [page_congr hd, hf]
  exact h

theorem taken {ps : List Page} (hf : m.free = x :: ps) (b : Bytes.Buf PGSIZE) :
    Ok S (m.taken x ps b) he (x :: loose) := by
  have hp : (m.taken x ps b).page = m.page := page_congr rfl
  unfold Ok at h ⊢
  rw [hp]
  rw [hf] at h
  exact h.alloc

/-- A page on the free list, or in somebody's hands, has no owner. -/
theorem unowned (hx : x ∈ m.free ∨ x ∈ loose) (o : Owner) : m.page o ≠ some x := by
  intro ho
  have hheld : Sum.elim m.page he (Sum.inl o) = some x := ho
  rcases hx with hx | hx
  · exact Owned.free_not_held h hx _ hheld
  · exact Owned.loose_not_held h hx _ hheld

/-- A page that is free or in somebody's hands is not a directory. -/
theorem not_dir (hx : x ∈ m.free ∨ x ∈ loose) : m.dirs x = none := by
  cases hd : m.dirs x with
  | none => rfl
  | some D => exact absurd (show m.page (.dir x) = some x by simp [page, hd]) (h.unowned hx _)

theorem mem_of_page (ho : m.page o = some x) : x ∈ S :=
  Owned.mem_of_held h (o := Sum.inl o) ho

/-- Two owners do not share a page. -/
theorem page_inj {o' : Owner} (ho : m.page o = some x) (ho' : m.page o' = some x) : o = o' :=
  Sum.inl.inj (h.inj (Sum.inl o) (Sum.inl o') x ho ho')

end

variable [DecidableEq E]

/-- A page in somebody's hands becomes the page of an owner that had none. -/
theorem assignPage (h : Ok S m he (x :: loose)) (hnone : m.page o = none)
    (hp : m'.page = update m.page o (some x)) (hf : m'.free = m.free) :
    Ok S m' he loose := by
  unfold Ok at h ⊢
  rw [hp, hf, ← Sum.update_elim_inl]
  exact h.assign hnone

/-- The pages of several owners go to the free list. -/
theorem releases (h : Ok S m he loose) {os : List Owner} (hnd : os.Nodup)
    (hp : ∀ o, m'.page o = if o ∈ os then none else m.page o)
    (hf : m'.free.Perm (os.filterMap m.page ++ m.free)) : Ok S m' he loose := by
  have hall := Owned.releaseAll h (os.map Sum.inl) (hnd.map Sum.inl_injective)
  rw [List.filterMap_map] at hall
  have hheld : Owned S (Sum.elim m'.page he) m.free (os.filterMap m.page ++ loose) := by
    refine hall.congr (fun o => ?_)
    rcases o with o | e
    · simp [hp]
    · simp
  refine hheld.perm ?_
  rw [List.perm_iff_count] at hf ⊢
  intro y
  have hy := hf y
  simp only [List.count_append] at hy ⊢
  omega

end Ok

/-- Writing to a page that nobody owns. -/
theorem keeps_write (hd : m'.dirs = m.dirs)
    (hc : ∀ o p, m.page o = some p → m'.contents p = m.contents p) : Keeps All m m' := by
  intro o p _ ho
  rw [page_congr hd]
  exact ⟨ho, hc o p ho⟩

theorem Ok.keeps_taken (h : Ok S m he loose) {ps : List Page} (hf : m.free = x :: ps)
    (b : Bytes.Buf PGSIZE) : Keeps All m (m.taken x ps b) := by
  refine keeps_write rfl (fun o p ho => update_of_ne ?_ _ _)
  rintro rfl
  exact h.unowned (Or.inl (by rw [hf]; exact List.mem_cons_self)) o ho

/-- At the start all pages are on the free list. -/
theorem ok_initial (hnone : ∀ d, m.dirs d = none) (hnd : m.free.Nodup) :
    Ok {p | p ∈ m.free} m (Empty.elim : Empty → Option Page) [] := by
  have hheld : ∀ o, Sum.elim m.page (Empty.elim : Empty → Option Page) o = none := by
    rintro (o | e)
    · exact page_of_none (hnone _)
    · exact e.elim
  refine ⟨fun o o' x hx => ?_, by rw [List.append_nil]; exact hnd, fun o x hx => ?_, fun x => ?_⟩
  · rw [hheld] at hx
    cases hx
  · rw [hheld] at hx
    cases hx
  · simp [hheld]

/-- `kfree` of a page in somebody's hands. -/
theorem Ok.kfree (h : Ok S m he (x :: loose)) (hk : m.kfree L x = .ok m') :
    Ok S m' he loose ∧ m'.dirs = m.dirs ∧ m'.free = x :: m.free ∧ Keeps All m m' := by
  unfold Mem.kfree at hk
  split at hk
  · simp only [Except.ok.injEq] at hk
    subst hk
    refine ⟨?_, rfl, rfl, keeps_write rfl (fun o p ho => update_of_ne ?_ _ _)⟩
    · have hp : ({ m.fill x 1 with free := x :: m.free } : Mem).page = m.page := page_congr rfl
      unfold Ok at h ⊢
      rw [hp]
      exact h.dealloc
    · rintro rfl
      exact h.unowned (Or.inr List.mem_cons_self) o ho
  · cases hk

/-! ### Outcomes -/

/-- What a call ends with: a result with `Q`, or a panic with `P`. -/
def Ends {α : Type} (r : Except Panic α) (P : Panic → Prop) (Q : α → Prop) : Prop :=
  match r with
  | .ok a => Q a
  | .error e => P e

/-- The only panic of calls on directories in use: `kfree` is given a page
    that was on the free list at the start and should not have been. -/
def Fails (L : Layout) (S : Set Page) (e : Panic) : Prop := e = .kfree ∧ ∃ p ∈ S, ¬ L.ValidPage p

section Ends

variable {α β : Type} {r : Except Panic α} {P P' : Panic → Prop} {Q Q' : α → Prop}
  {R : β → Prop} {a : α}

theorem Ends.of_ok (h : Ends r P Q) (hr : r = .ok a) : Q a := by
  rw [hr] at h
  exact h

theorem Ends.mono (h : Ends r P Q) (hQ : ∀ a, Q a → Q' a) : Ends r P Q' := by
  cases r with
  | error e => exact h
  | ok a => exact hQ a h

theorem Ends.weaken (h : Ends r P Q) (hP : ∀ e, P e → P' e) : Ends r P' Q := by
  cases r with
  | error e => exact hP e h
  | ok a => exact h

theorem Ends.map {f : α → β} (h : Ends r P Q) (hQ : ∀ a, Q a → R (f a)) : Ends (r.map f) P R := by
  cases r with
  | error e => exact h
  | ok a => exact hQ a h

/-- On pages that `kfree` accepts a call returns. -/
theorem Ends.returns (h : Ends r (Fails L S) Q) (hS : ∀ p ∈ S, L.ValidPage p) :
    ∃ a, r = .ok a ∧ Q a := by
  cases r with
  | error e =>
    obtain ⟨_, p, hp, hno⟩ := h
    exact absurd (hS p hp) hno
  | ok a => exact ⟨a, rfl, h⟩

end Ends

/-- `kfree` of a page in somebody's hands returns. -/
theorem Ok.kfree_ends (h : Ok S m he (x :: loose)) :
    Ends (m.kfree L x) (Fails L S) (fun m' => Ok S m' he loose ∧ m'.dirs = m.dirs ∧
      m'.free = x :: m.free ∧ Keeps All m m') := by
  cases hk : m.kfree L x with
  | ok m' => exact h.kfree hk
  | error e =>
    unfold Mem.kfree at hk
    split at hk
    · cases hk
    · next hv =>
      simp only [Except.error.injEq] at hk
      exact ⟨hk.symm, x, Owned.mem_of_loose h List.mem_cons_self, hv⟩

theorem Layout.validPage_pos (h : L.ValidPage x) : x ≠ 0 := by
  have h1 := Nat.lt_of_le_of_lt (Nat.zero_le _) L.data_gt
  have h2 := L.kend_gt
  exact Nat.ne_of_gt (Nat.lt_of_lt_of_le h1 (Nat.le_trans h2 h.1))

end Mem

end Xv6.Vm
