import Xv6.Fs.Image

/-! # The Name Space

    Two results about the directories of a file system, from any consistent
    image. As long as `iput` does not free an inode that `..` of another
    directory names:
    - no entry of any directory dangles, and no lookup ends in the panic of
      `ilock`;
    - the directories that can be reached from the root form a tree.

    `sys_unlink` does not keep this up by itself. A directory that has been
    removed may still be the current directory of a process, and the directory
    above it, which its `..` names, is then removed and freed like any other.
    Whoever follows this `..` meets a free inode, or an inode that `create` has
    allocated again and is still setting up.
-/

open LTS LinkTree

namespace Xv6.Fs

variable {P : Type} [DecidableEq P] [Fintype P] {ninodes : Nat} {s s' : State P}

/-! ### Dangling entries -/

/-- Every entry in use names an allocated inode. -/
def NoDangling (s : State P) : Prop :=
  ∀ d k, (s.ino d).type = .dir → (s.ino d).Used k →
    (s.ino ((s.ino d).slot k).inum).type ≠ .free

theorem next_put {l : Label P} {i : Inum} {k : Pc} (hpc : s.pc l.proc = .put i k)
    (hst : next ninodes s l = some s') : s.put l.proc i k = some s' := by
  unfold next at hst
  rw [if_neg (not_not.mpr (running_of_next hst))] at hst
  have hidle : s.pc l.proc ≠ .idle := by
    rw [hpc]
    simp
  cases l with
  | run p =>
    have hpc' : s.pc p = .put i k := hpc
    simp only at hst
    rw [hpc'] at hst
    exact hst
  | noFile p =>
    have hpc' : s.pc p = .put i k := hpc
    simp only at hst
    rw [hpc'] at hst
    cases hst
  | exit p =>
    simp only at hst
    split at hst
    · cases hst
    · exact absurd (Option.ite_none_right_eq_some.mp hst).1 hidle
  | create p ty path => exact absurd (Option.ite_none_right_eq_some.mp hst).1.1 hidle
  | close p i => exact absurd (Option.ite_none_right_eq_some.mp hst).1.1 hidle
  | fork p q => exact absurd (Option.ite_none_right_eq_some.mp hst).1.1 hidle
  | «open» p rdonly path => exact absurd (Option.ite_none_right_eq_some.mp hst).1 hidle
  | unlink p path => exact absurd (Option.ite_none_right_eq_some.mp hst).1 hidle
  | link p old new => exact absurd (Option.ite_none_right_eq_some.mp hst).1 hidle
  | chdir p path => exact absurd (Option.ite_none_right_eq_some.mp hst).1 hidle

/-- A step that does not meet the condition leaves an entry dangling. -/
theorem dangling_of_not_keeps {l : Label P} (hk : ¬ Keeps ninodes s l)
    (hst : next ninodes s l = some s') : ¬ NoDangling s' := by
  unfold Keeps at hk
  generalize hpc : s.pc l.proc = pc at hk
  cases pc with
  | put i k =>
    simp only [Classical.not_imp, not_not] at hk
    obtain ⟨hnlink, hrefs, d, _, hd, hdir, j, _, hused, _, heq⟩ := hk
    have hput := next_put hpc hst
    unfold State.put at hput
    by_cases hlock : s.Locked l.proc i
    · rw [if_pos hlock] at hput
      cases hput
    rw [if_neg hlock, if_pos ⟨hnlink, hrefs⟩] at hput
    cases hput
    have hfree : ((s.setIno i (State.blank .free)).ino i).type = .free := by
      rw [ino_setIno_self]
      rfl
    have hsame : (s.setIno i (State.blank .free)).ino d = s.ino d := ino_setIno_of_ne hd
    intro hall
    refine hall d j ?_ ?_ ?_
    · exact (congrArg Inode.type hsame).trans hdir
    · show ((s.setIno i (State.blank .free)).ino d).Used j
      rw [hsame]
      exact hused
    · show ((s.setIno i (State.blank .free)).ino
        (((s.setIno i (State.blank .free)).ino d).slot j).inum).type = .free
      rw [hsame, heq]
      exact hfree
  | _ => exact absurd trivial hk

/-- **Dangling entries**: in every run whose steps all meet the condition, every
    entry of every directory names an allocated inode, and no lookup reaches
    the panic of `ilock`; and from there a step keeps it so if and only if it
    meets the condition. -/
theorem no_dangling_iff (h : ReachableUnder (fs ninodes) (Keeps ninodes) s) :
    NoDangling s ∧ s.panic ≠ some .ilockNoType ∧
      ∀ l s', next ninodes s l = some s' → (NoDangling s' ↔ Keeps ninodes s l) := by
  have hinv := fsInv_reachable h
  refine ⟨hinv.graph.entries, hinv.panic, fun l s' hst => ⟨fun hno => ?_, fun hk => ?_⟩⟩
  · by_contra hk
    exact dangling_of_not_keeps hk hst hno
  · exact (hinv.step hk hst).graph.entries

/-! ### Runs -/

/-- A system call, and the steps it takes. -/
def steps (l : Label P) (n : Nat) : List (Label P) :=
  l :: List.replicate n (.run l.proc)

/-- Processes at the root of an image without files. -/
def emptyBoot (P : Type) : State P := boot (mkfs []) (fun _ => some ROOTINO)

omit [DecidableEq P] [Fintype P] in
theorem consistent_emptyBoot : Consistent NINODES (emptyBoot P) :=
  consistent_mkfs [] _ (fun _ hf => by cases hf) (by decide) (fun _ _ hp => (Option.some.inj hp).symm)

/-- `mkdir /a; mkdir /a/b; cd /a/b; rm /a/b; rm /a` -/
def removeAbove {P : Type} (p : P) : List (Label P) :=
  steps (.create p .dir ⟨true, [[97]]⟩) 7 ++ steps (.create p .dir ⟨true, [[97], [98]]⟩) 10 ++
    steps (.chdir p ⟨true, [[97], [98]]⟩) 10 ++ steps (.unlink p ⟨true, [[97], [98]]⟩) 9 ++
    steps (.unlink p ⟨true, [[97]]⟩) 6

/-- `open ../x`, up to the `ilock` of what `..` names -/
def openAbove : List (Label (Fin 1)) :=
  removeAbove 0 ++ steps (.open 0 true ⟨false, [dotdot, [120]]⟩) 4

/-- One process, which removes its current directory and the one above: `..` of
    the current directory names a free inode, and a lookup of `../x` ends in
    the panic of `ilock`. -/
theorem dangling_removeAbove :
    (∃ s : State (Fin 1), Reachable (fs NINODES) s ∧ (∀ p, s.pc p = .idle) ∧ ¬ NoDangling s) ∧
      ∃ s : State (Fin 1), Reachable (fs NINODES) s ∧ s.panic = some .ilockNoType := by
  have hremove : ((removeAbove 0).foldlM (next NINODES) (emptyBoot (Fin 1))).any
      (fun s => decide ((∀ p, s.pc p = .idle) ∧ (s.ino 3).type = .dir ∧ (s.ino 3).Used 1 ∧
        (s.ino ((s.ino 3).slot 1).inum).type = .free)) = true := by decide +kernel
  have hopen : (openAbove.foldlM (next NINODES) (emptyBoot (Fin 1))).any
      (fun s => decide (s.panic = some .ilockNoType)) = true := by decide +kernel
  obtain ⟨s, hs, hdec⟩ := (Option.any_eq_true _ _).mp hremove
  obtain ⟨s', hs', hdec'⟩ := (Option.any_eq_true _ _).mp hopen
  obtain ⟨hidle, hdir, hused, hfree⟩ := of_decide_eq_true hdec
  refine ⟨⟨s, ?_, hidle, fun hno => hno 3 1 hdir hused hfree⟩, s', ?_, of_decide_eq_true hdec'⟩
  · exact Reachable.foldlM (fun _ _ _ hst => hst) _ (.init consistent_emptyBoot) hs
  · exact Reachable.foldlM (fun _ _ _ hst => hst) _ (.init consistent_emptyBoot) hs'

/-- `mkdir /a; mkdir /a/b; cd /a/b; rm /a/b; cd /; rm /a` -/
def leaveFirst : List (Label (Fin 1)) :=
  steps (.create 0 .dir ⟨true, [[97]]⟩) 7 ++ steps (.create 0 .dir ⟨true, [[97], [98]]⟩) 10 ++
    steps (.chdir 0 ⟨true, [[97], [98]]⟩) 10 ++ steps (.unlink 0 ⟨true, [[97], [98]]⟩) 9 ++
    steps (.chdir 0 ⟨true, []⟩) 4 ++ steps (.unlink 0 ⟨true, [[97]]⟩) 6

/-- A step that meets the condition. -/
def keepingNext (ninodes : Nat) (s : State P) (l : Label P) : Option (State P) :=
  if Keeps ninodes s l then next ninodes s l else none

theorem keepingNext_spec (l : Label P) (hst : keepingNext ninodes s l = some s') :
    Keeps ninodes s l ∧ (fs ninodes).step s l s' :=
  Option.ite_none_right_eq_some.mp hst

/-- The process that leaves the directory before it removes the one above. -/
theorem no_dangling_iff_leaveFirst :
    ∃ s : State (Fin 1), ReachableUnder (fs NINODES) (Keeps NINODES) s ∧
      (s.ino 2).type = .free ∧ NoDangling s ∧ s.panic ≠ some .ilockNoType := by
  have hrun : (leaveFirst.foldlM (keepingNext NINODES) (emptyBoot (Fin 1))).any
      (fun s => decide ((s.ino 2).type = .free)) = true := by decide +kernel
  obtain ⟨s, hs, hdec⟩ := (Option.any_eq_true _ _).mp hrun
  have hreach := ReachableUnder.foldlM (fun _ l _ hst => keepingNext_spec l hst) _
    (.init consistent_emptyBoot) hs
  have hresult := no_dangling_iff hreach
  exact ⟨s, hreach, of_decide_eq_true hdec, hresult.1, hresult.2.1⟩

/-! ### The tree -/

/-- A directory that can be reached from the root. -/
def LiveDir (ninodes : Nat) (s : State P) (d : Inum) : Prop :=
  Reach (s.edges ninodes) ROOTINO d ∧ (s.ino d).type = .dir

/-- A directory as `create` sets it up, with `.` and `..` in its first two
    entries, one entry that names it, and a size that is a number of entries. -/
structure InTree (ninodes : Nat) (s : State P) (d : Inum) : Prop where
  self : (s.ino d).Used 0 ∧ (s.ino d).slot 0 = ⟨d, dot⟩
  above : (s.ino d).Used 1 ∧ ((s.ino d).slot 1).name = dotdot
  root : d = ROOTINO → ((s.ino d).slot 1).inum = ROOTINO ∧ ∀ e ∈ s.edges ninodes, e.dst ≠ d
  entry : d ≠ ROOTINO → ∃ e ∈ s.edges ninodes, e.dst = d ∧ ((s.ino d).slot 1).inum = e.src ∧
    LiveDir ninodes s e.src ∧ ∀ e' ∈ s.edges ninodes, e'.dst = d → e' = e
  size : DIRENT ∣ (s.ino d).size
  empty : ∃ b, isdirempty (s.ino d) = .ok b ∧ (b = true ↔ ∀ k, ¬ (s.ino d).Ordinary k)

omit [DecidableEq P] in
theorem FsInv.dirOk_live (h : FsInv ninodes s) {d : Inum} (hd : LiveDir ninodes s d) :
    DirOk d (s.ino d) := by
  rcases h.graph.dirs d hd.2 with hsize | hok
  · -- a directory that has not been set up is named by no entry
    obtain ⟨q, ty, dp, name, hq⟩ := h.procs.unmade d hd.2 hsize
    have hnew := h.procs.new q ty dp name d hq
    cases hd.1 with
    | root => exact absurd rfl hnew.ne_root
    | link he _ => exact absurd (named_of_edge he) hnew.unnamed
  · exact hok

omit [DecidableEq P] in
theorem FsInv.inTree (h : FsInv ninodes s) {d : Inum} (hd : LiveDir ninodes s d) :
    InTree ninodes s d := by
  have hok := h.dirOk_live hd
  have hbound := h.graph.bound d (by rw [hd.2]; simp)
  have hwhole := h.graph.whole d hd.2
  refine ⟨⟨hok.used_zero hbound.1, hok.self⟩, ⟨hok.used_one, hok.above.1⟩, fun hroot => ?_,
    fun hroot => ?_, hwhole, ?_⟩
  · rw [hroot]
    exact ⟨h.graph.root.2, h.graph.tree.noRoot⟩
  · obtain ⟨e, he, hdst, hsrc, hreach, huniq⟩ :=
      h.graph.tree.exists_unique_link hd.1 (isDir_eq_true.mpr hd.2) hroot
    exact ⟨e, he, hdst, hsrc.symm, ⟨hreach, isDir_of_edge he⟩, huniq⟩
  · obtain ⟨b, hb, hiff⟩ := isdirempty_spec hwhole
    refine ⟨b, hb, hiff.trans ⟨fun hall k hord => ?_, fun hall k hk hused => ?_⟩⟩
    · obtain ⟨hk, hused⟩ := hok.ordinary_iff.mp hord
      exact hall k hk hused
    · exact hall k (hok.ordinary_iff.mpr ⟨hk, hused⟩)

/-- `sys_unlink` removes no entry of a directory that has entries. -/
theorem FsInv.unlink_empty (h : FsInv ninodes s) {p : P} {dp : Inum} {name : Name}
    (hpc : s.pc p = .unlink dp name) (hst : next ninodes s (.run p) = some s')
    {e : Edge Inum Nat} (he : e ∈ s.edges ninodes) (hgone : e ∉ s'.edges ninodes)
    (hdir : (s.ino e.dst).type = .dir) (k : Nat) : ¬ (s.ino e.dst).Ordinary k := by
  have hrunning := running_of_next hst
  have heffect : Effect ninodes s p s' := h.effect hst
  cases heffect with
  | stopped _ => exact absurd he hgone
  | quiet hm hino hpend hold hnew =>
    rw [(h.keep_quiet hm hino hpend hold hnew).edges] at hgone
    exact absurd he hgone
  | @removed dp' ip name' j hpc' hlock hdir' hord hslot hne hlock' hempty =>
    have hedges := (h.keep_removed hrunning hpc' hlock hdir' hord hslot hne hlock' rfl).edges
    rw [hedges, Finset.mem_erase] at hgone
    have heq : e = ⟨dp', j, ip⟩ := by
      by_contra hne'
      exact hgone ⟨hne', he⟩
    rw [heq] at hdir ⊢
    intro hord'
    have hknown : s.Known p ip := known_of_named ⟨dp', j, hdir', hord.1, hslot⟩
    have hok := h.dirOk hknown hdir (by rw [hpc']; rfl)
    obtain ⟨hk, hused⟩ := hok.ordinary_iff.mp hord'
    exact hempty hdir k hk hused
  | alloc hpc' _ _ _ _ _ => rw [hpc] at hpc'; cases hpc'
  | made hpc' _ _ _ _ => rw [hpc] at hpc'; cases hpc'
  | raised hpc' _ _ _ => rw [hpc] at hpc'; cases hpc'
  | lowered hpc' _ => rw [hpc] at hpc'; cases hpc'
  | linked hpc' _ _ _ _ _ => rw [hpc] at hpc'; cases hpc'
  | freed hpc' _ _ _ => rw [hpc] at hpc'; cases hpc'

/-- **The name space is a tree**: in every run whose steps all meet the
    condition, the directories reachable from the root are those of a tree,
    and `sys_unlink` removes only empty directories. -/
theorem live_namespace (h : ReachableUnder (fs ninodes) (Keeps ninodes) s) :
    (∀ d, LiveDir ninodes s d → InTree ninodes s d) ∧
      (∀ d, ¬ Relation.TransGen (fun u w => ∃ e ∈ s.edges ninodes, e.src = u ∧ e.dst = w ∧
        s.isDir w = true) d d) ∧
      ∀ p dp name s', s.pc p = .unlink dp name → next ninodes s (.run p) = some s' →
        ∀ e ∈ s.edges ninodes, e ∉ s'.edges ninodes → (s.ino e.dst).type = .dir →
          ∀ k, ¬ (s.ino e.dst).Ordinary k := by
  have hinv := fsInv_reachable h
  refine ⟨fun d hd => hinv.inTree hd, fun d => hinv.graph.tree.no_cycle d, ?_⟩
  intro p dp name s' hpc hst e he hgone hdir k
  exact hinv.unlink_empty hpc hst he hgone hdir k

/-- After `removeAbove` by the first process, the second calls `mkdir /z`, which
    allocates the inode that has just been freed; before it locks the inode,
    the first process calls `mkdir ../x`. -/
def createRace : List (Label (Fin 2)) :=
  removeAbove 0 ++ steps (.create 1 .dir ⟨true, [[122]]⟩) 2 ++
    steps (.create 0 .dir ⟨false, [dotdot, [120]]⟩) 10 ++ List.replicate 5 (.run 1)

/-- A directory below the root whose first entry is not `.`. -/
theorem live_namespace_createRace :
    ∃ s : State (Fin 2), Reachable (fs NINODES) s ∧ (∀ p, s.pc p = .idle) ∧
      LiveDir NINODES s 2 ∧ (s.ino 2).slot 0 ≠ ⟨2, dot⟩ ∧ ¬ InTree NINODES s 2 := by
  have hrun : (createRace.foldlM (next NINODES) (emptyBoot (Fin 2))).any
      (fun s => decide ((∀ p, s.pc p = .idle) ∧ (s.ino 2).type = .dir ∧
        (s.ino 1).type = .dir ∧ (s.ino 1).Ordinary 2 ∧ ((s.ino 1).slot 2).inum = 2 ∧
        (s.ino 2).slot 0 ≠ ⟨2, dot⟩)) = true := by decide +kernel
  obtain ⟨s, hs, hdec⟩ := (Option.any_eq_true _ _).mp hrun
  obtain ⟨hidle, hdir, hroot, hord, hslot, hne⟩ := of_decide_eq_true hdec
  have hedge : (⟨1, 2, 2⟩ : Edge Inum Nat) ∈ s.edges NINODES :=
    mem_edges.mpr ⟨by decide, hroot, hord, hslot⟩
  refine ⟨s, ?_, hidle, ⟨Reach.link hedge Reach.root, hdir⟩, hne, fun ht => hne ht.self.2⟩
  exact Reachable.foldlM (fun _ _ _ hst => hst) _ (.init consistent_emptyBoot) hs

/-- `mkdir /a; mkdir /a/b` -/
def makeTwo : List (Label (Fin 2)) :=
  steps (.create 0 .dir ⟨true, [[97]]⟩) 7 ++ steps (.create 0 .dir ⟨true, [[97], [98]]⟩) 10

/-- A directory two levels below the root. -/
theorem live_namespace_makeTwo :
    ∃ s : State (Fin 2), ReachableUnder (fs NINODES) (Keeps NINODES) s ∧
      LiveDir NINODES s 3 ∧ ((s.ino 3).slot 1).inum = 2 ∧ InTree NINODES s 3 := by
  have hrun : (makeTwo.foldlM (keepingNext NINODES) (emptyBoot (Fin 2))).any
      (fun s => decide ((s.ino 1).type = .dir ∧ (s.ino 2).type = .dir ∧ (s.ino 3).type = .dir ∧
        (s.ino 1).Ordinary 2 ∧ ((s.ino 1).slot 2).inum = 2 ∧
        (s.ino 2).Ordinary 2 ∧ ((s.ino 2).slot 2).inum = 3 ∧
        ((s.ino 3).slot 1).inum = 2)) = true := by decide +kernel
  obtain ⟨s, hs, hdec⟩ := (Option.any_eq_true _ _).mp hrun
  obtain ⟨hdir₁, hdir₂, hdir₃, hord₁, hslot₁, hord₂, hslot₂, hup⟩ := of_decide_eq_true hdec
  have hreach := ReachableUnder.foldlM (fun _ l _ hst => keepingNext_spec l hst) _
    (.init consistent_emptyBoot) hs
  have hedge₁ : (⟨1, 2, 2⟩ : Edge Inum Nat) ∈ s.edges NINODES :=
    mem_edges.mpr ⟨by decide, hdir₁, hord₁, hslot₁⟩
  have hedge₂ : (⟨2, 2, 3⟩ : Edge Inum Nat) ∈ s.edges NINODES :=
    mem_edges.mpr ⟨by decide, hdir₂, hord₂, hslot₂⟩
  have hlive : LiveDir NINODES s 3 :=
    ⟨Reach.link hedge₂ (Reach.link hedge₁ Reach.root), hdir₃⟩
  exact ⟨s, hreach, hlive, hup, (live_namespace hreach).1 3 hlive⟩

end Xv6.Fs
