import Xv6.Fs.Namespace
import Mathlib.Data.Set.Card

/-! # Link Counts

    Between system calls, the link count of an inode that can be reached from
    the root is the number of entries other than `.` that name it, and an
    allocated inode that cannot be reached has no links and is still in use.

    This needs more than that no entry dangles. A directory that has been
    removed can still get entries from a process that has it as its current
    directory, and what they name can be reached no more; and of two calls of
    `iput` on the last references of an inode, each may still count the
    reference of the other, so that neither frees it. `Tidy` rules both out.
-/

open LTS LinkTree

namespace Xv6.Fs

variable {P : Type} [DecidableEq P] [Fintype P] {ninodes : Nat} {s s' : State P} {p : P}
  {i : Inum} {l : Label P} {dp ip : Inum} {name : Name}

/-! ### The condition -/

/-- An entry is made only in a directory that has links. -/
def Attached (s : State P) (l : Label P) : Prop :=
  match s.pc l.proc with
  | .createNew _ dp _ _ => (s.ino dp).nlink ≠ 0
  | .linkDir _ dp _ => (s.ino dp).nlink ≠ 0
  | _ => True

instance (s : State P) (l : Label P) : Decidable (Attached s l) := by
  delta Attached
  generalize s.pc l.proc = pc
  rcases pc with _ | _ <;> exact inferInstance

/-- A reference to `i`, other than the one that `p` gives up and those that are
    being given up already. -/
def Elsewhere (s : State P) (p : P) (i : Inum) (k : Pc) : Prop :=
  i ∈ k.held ∨ (∃ q, q ≠ p ∧ i ∈ (s.pc q).held) ∨ (∃ q, s.cwd q = some i) ∨ 0 < s.files i

instance (s : State P) (p : P) (i : Inum) (k : Pc) : Decidable (Elsewhere s p i k) :=
  inferInstanceAs (Decidable (_ ∨ _))

/-- An `iput` that does not free an inode without links leaves it to another
    reference. -/
def Released (s : State P) (l : Label P) : Prop :=
  match s.pc l.proc with
  | .put i k => (s.ino i).nlink = 0 → s.refs i ≠ 1 → Elsewhere s l.proc i k
  | _ => True

instance (s : State P) (l : Label P) : Decidable (Released s l) := by
  delta Released
  generalize s.pc l.proc = pc
  rcases pc with _ | _ <;> exact inferInstance

def Tidy (ninodes : Nat) (s : State P) (l : Label P) : Prop :=
  Keeps ninodes s l ∧ Attached s l ∧ Released s l

instance (s : State P) (l : Label P) : Decidable (Tidy ninodes s l) :=
  inferInstanceAs (Decidable (_ ∧ _))

/-! ### The invariant -/

/-- Link counts are exact, entries are made in directories that are named, and
    an inode without links is in use. -/
structure LinkInv (ninodes : Nat) (s : State P) : Prop where
  exact : ∀ i, (s.ino i).type ≠ .free → s.surplus ninodes i = 0
  linked : ∀ e ∈ s.edges ninodes, e.src = ROOTINO ∨ ∃ e' ∈ s.edges ninodes, e'.dst = e.src
  kept : ∀ i, (s.ino i).type ≠ .free → (s.ino i).nlink = 0 → ∃ q, s.Has q i

section keep

variable (h : FsInv ninodes s) (hl : LinkInv ninodes s)

include hl in
/-- A process other than `iput` keeps what is in use. -/
theorem LinkInv.kept_step (hm : Moves s s' p) (hput : ∀ i k, s.pc p = .put i k →
      (s'.ino i).type ≠ .free → (s'.ino i).nlink = 0 → ∃ q, s'.Has q i)
    (hnlink : ∀ i, (s'.ino i).type ≠ .free → (s'.ino i).nlink = 0 →
      ((s.ino i).type ≠ .free ∧ (s.ino i).nlink = 0) ∨ s'.Has p i) :
    ∀ i, (s'.ino i).type ≠ .free → (s'.ino i).nlink = 0 → ∃ q, s'.Has q i := by
  intro i hi hn
  rcases hnlink i hi hn with ⟨hold, hn₀⟩ | hhas
  · have hp : s.Has p i → ∃ q, s'.Has q i := by
      intro hhas
      rcases hm.kept i hhas with hhas' | ⟨k, hk⟩
      · exact ⟨p, hhas'⟩
      · exact hput i k hk hi hn
    obtain ⟨q, hq⟩ := hl.kept i hold hn₀
    by_cases hqp : q = p
    · rw [hqp] at hq
      exact hp hq
    · rcases hq with hin | hcwd | hf
      · refine ⟨q, Or.inl ?_⟩
        rw [hm.others q hqp]
        exact hin
      · exact hp (Or.inr (Or.inl hcwd))
      · exact hp (Or.inr (Or.inr hf))
  · exact ⟨p, hhas⟩

section

omit [DecidableEq P]

include h hl in
/-- A directory with links can be reached by an entry, or is the root. -/
theorem LinkInv.linked_of_nlink {d : Inum} (hdir : (s.ino d).type = .dir)
    (hn : (s.ino d).nlink ≠ 0) : d = ROOTINO ∨ ∃ e ∈ s.edges ninodes, e.dst = d := by
  have hzero := hl.exact d (by rw [hdir]; simp)
  have hpending : s.pending d = 0 := by
    refine Finset.sum_eq_zero (fun q _ => List.count_eq_zero.mpr (fun hmem => ?_))
    exact h.procs.pending q d hmem hdir
  by_contra hnot
  push Not at hnot
  have hin : inDeg (s.edges ninodes) d = 0 := inDeg_eq_zero.mpr hnot.2
  have hout : outDeg (s.edges ninodes) s.isDir d = 0 := by
    refine outDeg_eq_zero.mpr (fun e he hsrc _ => ?_)
    rcases hl.linked e he with hroot | ⟨e', he', heq⟩
    · exact hnot.1 (hsrc.symm.trans hroot)
    · exact hnot.2 e' he' (heq.trans hsrc)
  unfold State.surplus State.links at hzero
  rw [hin, hout, hpending, if_neg hnot.1] at hzero
  omega

include h hl in
/-- A new entry in a directory that has links. -/
theorem LinkInv.linked_insert {e : Edge Inum Nat} (hdir : (s.ino e.src).type = .dir)
    (hn : (s.ino e.src).nlink ≠ 0) : ∀ e₁ ∈ insert e (s.edges ninodes),
      e₁.src = ROOTINO ∨ ∃ e' ∈ insert e (s.edges ninodes), e'.dst = e₁.src := by
  intro e₁ he₁
  have hold : e₁.src = ROOTINO ∨ ∃ e' ∈ s.edges ninodes, e'.dst = e₁.src := by
    rcases Finset.mem_insert.mp he₁ with rfl | hmem
    · exact hl.linked_of_nlink h hdir hn
    · exact hl.linked e₁ hmem
  exact hold.imp_right (fun ⟨e', he', heq⟩ => ⟨e', Finset.mem_insert_of_mem he', heq⟩)

include h hl in
/-- An entry of a file, or of a directory without entries, is removed. -/
theorem LinkInv.linked_erase {k : Nat} (hpc : s.pc p = .unlink dp name) (hknown : s.Known p ip)
    (hempty : (s.ino ip).type = .dir → ∀ j, 2 ≤ j → ¬ (s.ino ip).Used j) :
    ∀ e ∈ (s.edges ninodes).erase ⟨dp, k, ip⟩,
      e.src = ROOTINO ∨ ∃ e' ∈ (s.edges ninodes).erase ⟨dp, k, ip⟩, e'.dst = e.src := by
  intro e he
  have hmem := Finset.mem_of_mem_erase he
  refine (hl.linked e hmem).imp_right (fun ⟨e', he', heq⟩ => ⟨e', ?_, heq⟩)
  refine Finset.mem_erase.mpr ⟨fun hgone => ?_, he'⟩
  -- nothing starts at a directory that is removed
  rw [hgone] at heq
  obtain ⟨_, hsrc, hord, _⟩ := mem_edges.mp hmem
  rw [← heq] at hsrc hord
  have hok := h.dirOk hknown hsrc (by rw [hpc]; rfl)
  obtain ⟨hk, hused⟩ := hok.ordinary_iff.mp hord
  exact hempty hsrc e.key hk hused

end

/-- The step of `iput` that does not free the inode. -/
theorem kept_put {k : Pc} (hk : Released s l) (hpc : s.pc l.proc = .put i k)
    (hst : next ninodes s l = some s') (hi : (s'.ino i).type ≠ .free)
    (hn : (s'.ino i).nlink = 0) : ∃ q, s'.Has q i := by
  have hput := next_put hpc hst
  unfold State.put at hput
  by_cases hlock : s.Locked l.proc i
  · rw [if_pos hlock] at hput
    cases hput
  rw [if_neg hlock] at hput
  by_cases hlast : (s.ino i).nlink = 0 ∧ s.refs i = 1
  · rw [if_pos hlast] at hput
    cases hput
    have hfree : ((s.setIno i (State.blank .free)).ino i).type = .free := by
      rw [ino_setIno_self]
      rfl
    exact absurd hfree hi
  · rw [if_neg hlast] at hput
    cases hput
    have hn₀ : (s.ino i).nlink = 0 := hn
    unfold Released at hk
    rw [hpc] at hk
    rcases hk hn₀ (fun hone => hlast ⟨hn₀, hone⟩) with hin | ⟨q, hqp, hq⟩ | hcwd | hf
    · exact ⟨l.proc, has_goto.mpr (Or.inl hin)⟩
    · refine ⟨q, Or.inl ?_⟩
      rw [pc_goto_of_ne hqp]
      exact hq
    · exact ⟨l.proc, has_goto.mpr (Or.inr (Or.inl hcwd))⟩
    · exact ⟨l.proc, has_goto.mpr (Or.inr (Or.inr hf))⟩

include hl in
/-- A step that leaves the surplus of every inode, and has every inode that it
    changes in hand. -/
theorem LinkInv.keep {E : Finset (Edge Inum Nat)} (hk : Kept ninodes s s' p E)
    (hput : ∀ i k, s.pc p = .put i k → (s'.ino i).type ≠ .free → (s'.ino i).nlink = 0 →
      ∃ q, s'.Has q i)
    (hlinked : ∀ e ∈ E, e.src = ROOTINO ∨ ∃ e' ∈ E, e'.dst = e.src) : LinkInv ninodes s' := by
  refine ⟨fun i hi => ?_, by rw [hk.edges]; exact hlinked,
    hl.kept_step hk.moves hput (fun i hi hn => ?_)⟩
  · rw [hk.types] at hi
    rw [hk.surplus]
    exact hl.exact i hi
  · rcases hk.touch i with hsame | hhas
    · rw [hsame] at hi hn
      exact Or.inl ⟨hi, hn⟩
    · exact Or.inr hhas

include h hl in
/-- `iput` frees an inode; a directory without links has no entries. -/
theorem LinkInv.step_freed {k : Pc} (hrunning : s.panic = none) (hpc : s.pc p = .put i k)
    (hlock : ¬ s.Locked p i) (hnlink : (s.ino i).nlink = 0) (hrefs : s.refs i = 1)
    (hup : ∀ d j, d ≠ i → (s.ino d).type = .dir → (s.ino d).Used j →
      ((s.ino d).slot j).name = dotdot → ((s.ino d).slot j).inum ≠ i)
    (hs' : s' = (s.setIno i (State.blank .free)).goto p (.drop i k)) : LinkInv ninodes s' := by
  obtain ⟨_, hm, hedges, hsurplus⟩ := h.keep_freed hrunning hpc hlock hnlink hrefs hup hs'
  have hlive : (s.ino i).type ≠ .free := by
    refine h.procs.live p i (has_of_held ?_)
    rw [hpc]
    exact List.mem_cons_self
  have hself : (s'.ino i).type = .free := by
    rw [hs']
    exact congrArg Inode.type ino_setIno_self
  have hother : ∀ j, j ≠ i → s'.ino j = s.ino j := by
    intro j hj
    rw [hs']
    exact ino_setIno_of_ne hj
  have hzero : s.links ninodes i = 0 := by
    have hs := hl.exact i hlive
    unfold State.surplus at hs
    omega
  have hnone : ∀ e ∈ s.edges ninodes, e.src ≠ i := by
    unfold State.links at hzero
    intro e he hsrc
    rcases hl.linked e he with hroot | ⟨e', he', heq⟩
    · rw [← hsrc, if_pos hroot] at hzero
      omega
    · have hin : inDeg (s.edges ninodes) i = 0 := by omega
      exact inDeg_eq_zero.mp hin e' he' (heq.trans hsrc)
  have hsame : s'.edges ninodes = s.edges ninodes := by
    rw [hedges]
    exact Finset.filter_true_of_mem hnone
  have hne : ∀ j, (s'.ino j).type ≠ .free → j ≠ i := by
    intro j hj heq
    rw [heq] at hj
    exact hj hself
  refine ⟨fun j hj => ?_, by rw [hsame]; exact hl.linked, hl.kept_step hm (fun j k' hk hj => ?_)
    (fun j hj hn => Or.inl ?_)⟩
  · have hji := hne j hj
    rw [hother j hji] at hj
    rw [(hsurplus j hji).2 hnone]
    exact hl.exact j hj
  · rw [hpc] at hk
    cases hk
    exact absurd hself hj
  · have hji := hne j hj
    rw [hother j hji] at hj hn
    exact ⟨hj, hn⟩

include h hl in
/-- Every step that meets the condition keeps the link counts exact. -/
theorem LinkInv.step (hk : Tidy ninodes s l) (hst : next ninodes s l = some s') :
    LinkInv ninodes s' := by
  have hrunning := running_of_next hst
  obtain ⟨hkeeps, hattached, hreleased⟩ := hk
  unfold Attached at hattached
  cases h.effect hst with
  | stopped _ => exact ⟨hl.exact, hl.linked, hl.kept⟩
  | quiet hm hino hpend hold hnew =>
    exact hl.keep (h.keep_quiet hm hino hpend hold hnew)
      (fun i k hpc hi hn => kept_put hreleased hpc hst hi hn) hl.linked
  | @alloc ty dp ip name hpc hlock hdir hnone hfree hip =>
    obtain ⟨_, hm, hedges, hzero, hsurplus⟩ :=
      h.keep_alloc hrunning hpc hlock hdir hnone hfree hip rfl
    refine ⟨fun i hi => ?_, by rw [hedges]; exact hl.linked, hl.kept_step hm
      (fun i k hk => by rw [hpc] at hk; cases hk) (fun i hi hn => ?_)⟩
    · by_cases hii : i = ip
      · rw [hii, hzero]
      · rw [hsurplus i hii]
        refine hl.exact i ?_
        rw [← ino_setIno_of_ne hii]
        exact hi
    · by_cases hii : i = ip
      · rw [hii]
        exact Or.inr (has_goto.mpr (Or.inl (List.mem_cons_of_mem _ List.mem_cons_self)))
      · refine Or.inl ?_
        rw [← ino_setIno_of_ne hii]
        exact ⟨hi, hn⟩
  | made hpc hlock hx hle hfree =>
    have hnew := h.procs.new _ _ _ _ _ hpc
    rw [hpc] at hattached
    exact hl.keep (h.keep_made hrunning hpc hlock hx hle hfree rfl)
      (fun i k hk => by rw [hpc] at hk; cases hk) (hl.linked_insert h hnew.parent.1 hattached)
  | removed hpc hlock hdir hord hslot hne hlock' hempty =>
    exact hl.keep (h.keep_removed hrunning hpc hlock hdir hord hslot hne hlock' rfl)
      (fun i k hk => by rw [hpc] at hk; cases hk)
      (hl.linked_erase h hpc (known_of_named ⟨_, _, hdir, hord.1, hslot⟩) hempty)
  | raised hpc hlock hdir hstart =>
    exact hl.keep (h.keep_raised hrunning _ hpc hlock hdir hstart rfl)
      (fun i k hk => by rw [hpc] at hk; cases hk) hl.linked
  | lowered hpc hlock =>
    exact hl.keep (h.keep_lowered hrunning hpc hlock rfl)
      (fun i k hk => by rw [hpc] at hk; cases hk) hl.linked
  | linked hpc hlock hdir hnone hle hfree =>
    rw [hpc] at hattached
    exact hl.keep (h.keep_linked hrunning hpc hlock hdir hnone hle hfree rfl)
      (fun i k hk => by rw [hpc] at hk; cases hk) (hl.linked_insert h hdir hattached)
  | freed hpc hlock hnlink hrefs =>
    exact hl.step_freed h hrunning hpc hlock hnlink hrefs
      (hkeeps.dotdot_ne h hpc hnlink hrefs) rfl

end keep

omit [DecidableEq P] in
theorem Consistent.linkInv (h : Consistent ninodes s) : LinkInv ninodes s := by
  refine ⟨fun i hi => h.surplus hi, fun e he => ?_, fun i hi hn => ?_⟩
  · refine h.named e.src ?_
    rw [isDir_of_edge he]
    simp
  · -- every allocated inode has a link
    have hlinks := h.nlink i hi
    rw [hn] at hlinks
    unfold State.links at hlinks
    rcases h.named i hi with hroot | ⟨e, he, hdst⟩
    · rw [if_pos hroot] at hlinks
      omega
    · have hin : inDeg (s.edges ninodes) i = 0 := by omega
      exact absurd hdst (inDeg_eq_zero.mp hin e he)

theorem linkInv_reachable (h : ReachableUnder (fs ninodes) (Tidy ninodes) s) :
    FsInv ninodes s ∧ LinkInv ninodes s := by
  induction h with
  | init h0 => exact ⟨Consistent.fsInv h0, Consistent.linkInv h0⟩
  | step l _ hk hst ih => exact ⟨ih.1.step hk.1 hst, ih.2.step ih.1 hk hst⟩

/-! ### Counting entries -/

/-- The entries other than `.` that name `i`, in directories that can be reached
    from the root. -/
def namings (ninodes : Nat) (s : State P) (i : Inum) : Set (Inum × Nat) :=
  {x | LiveDir ninodes s x.1 ∧ (s.ino x.1).Used x.2 ∧ ((s.ino x.1).slot x.2).name ≠ dot ∧
    ((s.ino x.1).slot x.2).inum = i}

section count

variable (h : FsInv ninodes s) (hl : LinkInv ninodes s)

include h hl

omit [DecidableEq P]

theorem LinkInv.live_src {e : Edge Inum Nat} (he : e ∈ s.edges ninodes) :
    LiveDir ninodes s e.src :=
  ⟨h.graph.tree.reach_of_linked hl.linked e he, isDir_of_edge he⟩

/-- The entries that name `i` are the ordinary ones, and the `..` of its
    subdirectories. -/
theorem LinkInv.namings_eq (i : Inum) :
    namings ninodes s i =
      (((s.edges ninodes).filter (fun e => e.dst = i)).image (fun e => (e.src, e.key)) ∪
        ((s.edges ninodes).filter (fun e => e.src = i ∧ s.isDir e.dst = true)).image
          (fun e => (e.dst, 1)) ∪ if i = ROOTINO then {(ROOTINO, 1)} else ∅ :
        Finset (Inum × Nat)) := by
  ext ⟨d, k⟩
  simp only [Finset.coe_union, Set.mem_union, Finset.mem_coe, Finset.mem_image,
    Finset.mem_filter, Prod.mk.injEq]
  constructor
  · rintro ⟨hd, hused, hname, hinum⟩
    have hok := h.dirOk_live hd
    by_cases hk : 2 ≤ k
    · have hord := hok.ordinary_iff.mpr ⟨hk, hused⟩
      have hb := (h.graph.bound d (by rw [hd.2]; simp)).2
      exact Or.inl (Or.inl ⟨⟨d, k, i⟩, ⟨mem_edges.mpr ⟨hb, hd.2, hord, hinum⟩, rfl⟩, rfl, rfl⟩)
    · have hcases : k = 0 ∨ k = 1 := by omega
      rcases hcases with rfl | rfl
      · rw [hok.self] at hname
        exact absurd rfl hname
      · by_cases hroot : d = ROOTINO
        · have hi : i = ROOTINO := by
            rw [← hinum, hroot]
            exact h.graph.root.2
          rw [if_pos hi, hroot]
          exact Or.inr (Finset.mem_singleton_self _)
        · obtain ⟨e, he, hdst, hsrc, _⟩ :=
            h.graph.tree.exists_unique_link hd.1 (isDir_eq_true.mpr hd.2) hroot
          refine Or.inl (Or.inr ⟨e, ⟨he, hsrc.trans hinum, ?_⟩, hdst, rfl⟩)
          rw [hdst]
          exact isDir_eq_true.mpr hd.2
  · rintro ((⟨e, ⟨he, hdst⟩, rfl, rfl⟩ | ⟨e, ⟨he, hsrc, hdir⟩, rfl, rfl⟩) | hroot)
    · obtain ⟨_, _, hord, hinum⟩ := mem_edges.mp he
      exact ⟨hl.live_src h he, hord.1, hord.2.1, hinum.trans hdst⟩
    · have hlive : LiveDir ninodes s e.dst :=
        ⟨Reach.link he (hl.live_src h he).1, isDir_eq_true.mp hdir⟩
      have hok := h.dirOk_live hlive
      refine ⟨hlive, hok.used_one, ?_, (h.graph.tree.parent e he hdir).trans hsrc⟩
      rw [hok.above.1]
      decide
    · by_cases hi : i = ROOTINO
      · rw [if_pos hi] at hroot
        cases Finset.mem_singleton.mp hroot
        have hlive : LiveDir ninodes s ROOTINO := ⟨Reach.root, h.graph.root.1⟩
        have hok := h.dirOk_live hlive
        refine ⟨hlive, hok.used_one, ?_, h.graph.root.2.trans hi.symm⟩
        rw [hok.above.1]
        decide
      · rw [if_neg hi] at hroot
        cases hroot

theorem LinkInv.ncard_namings (i : Inum) :
    (namings ninodes s i).ncard = s.links ninodes i := by
  rw [hl.namings_eq h i, Set.ncard_coe_finset, Finset.card_union_of_disjoint,
    Finset.card_union_of_disjoint, Finset.card_image_of_injOn, Finset.card_image_of_injOn]
  · unfold State.links inDeg outDeg
    split
    · rfl
    · rfl
  · -- the entry that leads to a subdirectory is the only one
    intro e he e' he' heq
    have he := Finset.mem_filter.mp he
    have he' := Finset.mem_filter.mp he'
    exact h.graph.tree.unique e he.1 e' he'.1 he.2.2 (Prod.mk.inj heq).1
  · intro e he e' he' heq
    have hdst := (Finset.mem_filter.mp he).2
    have hdst' := (Finset.mem_filter.mp he').2
    obtain ⟨hsrc, hkey⟩ := Prod.mk.inj heq
    cases e
    cases e'
    cases hsrc
    cases hkey
    cases hdst
    cases hdst'
    rfl
  · refine Finset.disjoint_left.mpr (fun x hx hx' => ?_)
    obtain ⟨e, he, rfl⟩ := Finset.mem_image.mp hx
    obtain ⟨e', _, heq⟩ := Finset.mem_image.mp hx'
    have hmem := (Finset.mem_filter.mp he).1
    have hok := h.dirOk_live (hl.live_src h hmem)
    have hk := (hok.ordinary_iff.mp (mem_edges.mp hmem).2.2.1).1
    have hone : (1 : Nat) = e.key := (Prod.mk.inj heq).2
    omega
  · refine Finset.disjoint_left.mpr (fun x hx hx' => ?_)
    split at hx'
    · rw [Finset.mem_singleton.mp hx'] at hx
      rcases Finset.mem_union.mp hx with hx | hx
      · obtain ⟨e, he, heq⟩ := Finset.mem_image.mp hx
        have hmem := (Finset.mem_filter.mp he).1
        have hok := h.dirOk_live (hl.live_src h hmem)
        have hk := (hok.ordinary_iff.mp (mem_edges.mp hmem).2.2.1).1
        have hone : e.key = 1 := (Prod.mk.inj heq).2
        omega
      · obtain ⟨e, he, heq⟩ := Finset.mem_image.mp hx
        exact h.graph.tree.noRoot e (Finset.mem_filter.mp he).1 (Prod.mk.inj heq).1
    · cases hx'

/-- An inode that cannot be reached is named by no entry. -/
theorem LinkInv.links_eq_zero {i : Inum} (hi : ¬ Reach (s.edges ninodes) ROOTINO i) :
    s.links ninodes i = 0 := by
  have hroot : i ≠ ROOTINO := by
    rintro rfl
    exact hi Reach.root
  have hin : inDeg (s.edges ninodes) i = 0 := by
    refine inDeg_eq_zero.mpr (fun e he hdst => hi ?_)
    rw [← hdst]
    exact Reach.link he (hl.live_src h he).1
  have hout : outDeg (s.edges ninodes) s.isDir i = 0 := by
    refine outDeg_eq_zero.mpr (fun e he hsrc _ => hi ?_)
    rw [← hsrc]
    exact (hl.live_src h he).1
  unfold State.links
  rw [hin, hout, if_neg hroot]

end count

/-! ### Link counts -/

omit [DecidableEq P] in
/-- Between system calls, the references are open files and current
    directories. -/
theorem refs_pos_of_idle (hidle : ∀ p, s.pc p = .idle) {q : P} (hq : s.Has q i) : 0 < s.refs i := by
  unfold State.refs
  rcases hq with hin | ⟨r, hr⟩ | hf
  · rw [hidle q] at hin
    cases hin
  · have hle := le_sum_tally (fun p => (if s.cwd p = some i then 1 else 0) +
      (s.pc p).refs.count i) r
    simp only [if_pos hr] at hle
    omega
  · omega

/-- **Link counts**: in every run whose steps all meet the condition, whenever
    no call is in progress, the link count of an inode that can be reached from
    the root is the number of entries other than `.` that name it in
    directories that can be reached; and an allocated inode that cannot be
    reached has no links, and an open file or a current directory refers to
    it. -/
theorem link_counts (h : ReachableUnder (fs ninodes) (Tidy ninodes) s)
    (hidle : ∀ p, s.pc p = .idle) :
    (∀ i, Reach (s.edges ninodes) ROOTINO i →
      (s.ino i).nlink = ((namings ninodes s i).ncard : Int)) ∧
    ∀ i, (s.ino i).type ≠ .free → ¬ Reach (s.edges ninodes) ROOTINO i →
      (s.ino i).nlink = 0 ∧ 0 < s.refs i := by
  obtain ⟨hinv, hlink⟩ := linkInv_reachable h
  have hnlink : ∀ i, (s.ino i).type ≠ .free → (s.ino i).nlink = (s.links ninodes i : Int) := by
    intro i hi
    have hzero := hlink.exact i hi
    have hpending : s.pending i = 0 := by
      refine Finset.sum_eq_zero (fun p _ => ?_)
      rw [hidle p]
      rfl
    unfold State.surplus at hzero
    omega
  refine ⟨fun i hi => ?_, fun i hi hnot => ?_⟩
  · have hlive : (s.ino i).type ≠ .free := by
      cases hi with
      | root =>
        rw [hinv.graph.root.1]
        simp
      | link he _ =>
        obtain ⟨d, k, hd, hk, heq⟩ := named_of_edge he
        rw [← heq]
        exact hinv.graph.entries d k hd hk
    rw [hnlink i hlive, hlink.ncard_namings hinv i]
  · have hzero : (s.ino i).nlink = 0 := by
      rw [hnlink i hi, hlink.links_eq_zero hinv hnot]
      rfl
    obtain ⟨q, hq⟩ := hlink.kept i hi hzero
    exact ⟨hzero, refs_pos_of_idle hidle hq⟩

/-- `mkdir /a; cd /a; rm /a; create x; close x` -/
def createInRemoved : List (Label (Fin 1)) :=
  steps (.create 0 .dir ⟨true, [[97]]⟩) 7 ++ steps (.chdir 0 ⟨true, [[97]]⟩) 7 ++
    steps (.unlink 0 ⟨true, [[97]]⟩) 6 ++ steps (.create 0 .file ⟨false, [[120]]⟩) 6 ++
    steps (.close 0 3) 2

/-- One process, which creates a file in its current directory after it has
    removed the directory: an inode with a link that no path leads to, and that
    nothing refers to. -/
theorem link_counts_createInRemoved :
    ∃ s : State (Fin 1), Reachable (fs NINODES) s ∧ (∀ p, s.pc p = .idle) ∧
      (s.ino 3).type ≠ .free ∧ ¬ Reach (s.edges NINODES) ROOTINO 3 ∧ (s.ino 3).nlink = 1 ∧
      s.refs 3 = 0 := by
  have hrun : (createInRemoved.foldlM (next NINODES) (emptyBoot (Fin 1))).any
      (fun s => decide ((∀ p, s.pc p = .idle) ∧ (s.ino 3).type ≠ .free ∧ (s.ino 3).nlink = 1 ∧
        s.refs 3 = 0 ∧ (s.ino 1).size = 512 ∧
        ∀ k : Nat, k < 32 → ¬ (s.ino 1).Ordinary k)) = true := by
    decide +kernel
  obtain ⟨s, hs, hdec⟩ := (Option.any_eq_true _ _).mp hrun
  obtain ⟨hidle, hlive, hnlink, hrefs, hsize, hnone⟩ := of_decide_eq_true hdec
  refine ⟨s, ?_, hidle, hlive, fun hreach => ?_, hnlink, hrefs⟩
  · exact Reachable.foldlM (fun _ _ _ hst => hst) _ (.init consistent_emptyBoot) hs
  · -- the root has no entries but `.` and `..`
    have hone : (3 : Inum) = ROOTINO := by
      refine hreach.mem_of_closed (S := fun i => i = ROOTINO) rfl (fun e he hsrc => ?_)
      obtain ⟨_, _, hord, _⟩ := mem_edges.mp he
      have hsrc' : e.src = 1 := hsrc
      rw [hsrc'] at hord
      have hlt := hord.1.1
      rw [hsize, show DIRENT = 16 from rfl] at hlt
      exact absurd hord (hnone e.key (by omega))
    exact absurd hone (by decide)

/-- A step that meets the condition. -/
def tidyNext (ninodes : Nat) (s : State P) (l : Label P) : Option (State P) :=
  if Tidy ninodes s l then next ninodes s l else none

theorem tidyNext_spec (l : Label P) (hst : tidyNext ninodes s l = some s') :
    Tidy ninodes s l ∧ (fs ninodes).step s l s' :=
  Option.ite_none_right_eq_some.mp hst

/-- `mkdir /a; create /a/x; rm /a/x`, while the file stays open -/
def removeOpen : List (Label (Fin 1)) :=
  steps (.create 0 .dir ⟨true, [[97]]⟩) 7 ++ steps (.create 0 .file ⟨true, [[97], [120]]⟩) 9 ++
    steps (.unlink 0 ⟨true, [[97], [120]]⟩) 9

/-- The directory has the link of its entry, and the open file has none. -/
theorem link_counts_removeOpen :
    ∃ s : State (Fin 1), ReachableUnder (fs NINODES) (Tidy NINODES) s ∧
      (s.ino 2).nlink = 1 ∧ (s.ino 3).type = .file ∧ (s.ino 3).nlink = 0 ∧
      (s.ino 2).nlink = ((namings NINODES s 2).ncard : Int) ∧
      ¬ Reach (s.edges NINODES) ROOTINO 3 ∧ 0 < s.refs 3 := by
  have hrun : (removeOpen.foldlM (tidyNext NINODES) (emptyBoot (Fin 1))).any
      (fun s => decide ((∀ p, s.pc p = .idle) ∧ (s.ino 2).nlink = 1 ∧ (s.ino 3).type = .file ∧
        (s.ino 3).nlink = 0 ∧ (s.ino 1).type = .dir ∧ (s.ino 1).Ordinary 2 ∧
        ((s.ino 1).slot 2).inum = 2 ∧ (s.ino 1).size = 512 ∧ (s.ino 2).size = 48 ∧
        (∀ k : Nat, k < 32 → (s.ino 1).Ordinary k → ((s.ino 1).slot k).inum = 2) ∧
        ∀ k : Nat, k < 3 → ¬ (s.ino 2).Ordinary k)) = true := by
    decide +kernel
  obtain ⟨s, hs, hdec⟩ := (Option.any_eq_true _ _).mp hrun
  obtain ⟨hidle, htwo, hfile, hzero, hdir, hord, hslot, hsize₁, hsize₂, hroot, hempty⟩ :=
    of_decide_eq_true hdec
  have hreach := ReachableUnder.foldlM (fun _ l _ hst => tidyNext_spec l hst) _
    (.init consistent_emptyBoot) hs
  have hedge : (⟨1, 2, 2⟩ : Edge Inum Nat) ∈ s.edges NINODES :=
    mem_edges.mpr ⟨by decide, hdir, hord, hslot⟩
  have hnot : ¬ Reach (s.edges NINODES) ROOTINO 3 := by
    intro hthree
    have hclosed : (3 : Inum) = 1 ∨ (3 : Inum) = 2 := by
      refine hthree.mem_of_closed (S := fun i => i = 1 ∨ i = 2) (Or.inl rfl) (fun e he hsrc => ?_)
      obtain ⟨_, _, hord', hdst⟩ := mem_edges.mp he
      have hlt := hord'.1.1
      rcases hsrc with hsrc | hsrc
      · rw [hsrc] at hord' hdst hlt
        rw [hsize₁, show DIRENT = 16 from rfl] at hlt
        rw [← hdst]
        exact Or.inr (hroot e.key (by omega) hord')
      · rw [hsrc] at hord' hlt
        rw [hsize₂, show DIRENT = 16 from rfl] at hlt
        exact absurd hord' (hempty e.key (by omega))
    exact absurd hclosed (by decide)
  have hresult := link_counts hreach hidle
  have hlive : (s.ino 3).type ≠ .free := by
    rw [hfile]
    simp
  exact ⟨s, hreach, htwo, hfile, hzero, hresult.1 2 (Reach.link hedge Reach.root), hnot,
    (hresult.2 3 hlive hnot).2⟩

end Xv6.Fs
