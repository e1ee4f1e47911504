import Xv6.Fs.Steps

/-! # The Invariant Is Kept

    Every effect of a step keeps the invariant of the directory graph, and the
    surplus of the link counts over the entries, but for one: an `iput` that
    frees an inode while `..` of another directory names it. `Keeps` says of a
    step that it is not of this kind.
-/

open LTS LinkTree

namespace Xv6.Fs

variable {P : Type} {ninodes : Nat} {s s' : State P} {p q : P} {i : Inum} {ty : IType}
  {dp ip d : Inum} {name : Name} {x : Inode} {t : State P}

/-! ### Processes -/

/-- What another process has it had before, or the process that took the step
    could have it. -/
theorem Moves.has_other (hm : Moves s s' p) (hq : q ≠ p) (hi : s'.Has q i) :
    i ∈ (s.pc q).held ∨ s'.Has p i := by
  rcases hi with hin | hcwd | hf
  · rw [hm.others q hq] at hin
    exact Or.inl hin
  · exact Or.inr (Or.inr (Or.inl hcwd))
  · exact Or.inr (Or.inr (Or.inr hf))

/-- The inode that `q` creates, when another process takes a step. -/
theorem NewInode.keep (h : NewInode s q ty dp name ip) (hm : Moves s s' p) (hqp : q ≠ p)
    (hip : s'.ino ip = s.ino ip) (hdp : s'.ino dp = s.ino dp)
    (hnamed : ∀ i, s'.Named i → s.Known p i)
    (hfresh : ∀ ty' dp' name', s'.pc p ≠ .createNew ty' dp' name' ip) :
    NewInode s' q ty dp name ip := by
  have hout : ¬ s.Known p ip := fun hk => hqp (h.eq_of_known hk).symm
  have hout' : ¬ s'.Has p ip := by
    intro hhas
    rcases hm.known ip hhas with hk | ⟨ty', dp', name', hnew⟩
    · exact hout hk
    · exact hfresh ty' dp' name' hnew
  refine ⟨?_, fun hn => hout (hnamed ip hn), h.ne_root, fun r hr => ?_, ?_, ?_⟩
  · rw [hip]
    exact h.blank
  · by_cases hrp : r = p
    · rw [hrp] at hr
      exact absurd hr hout'
    · rcases hm.has_other hrp hr with hin | hhas
      · exact h.alone r (has_of_held hin)
      · exact absurd hhas hout'
  · rw [hdp]
    exact h.parent
  · rw [hdp]
    exact h.absent

/-- A step of `p` keeps the invariant of the processes, if it changes only
    inodes that no other process has locked or creates. -/
theorem ProcInv.keep (h : ProcInv s) (hm : Moves s s' p)
    (hlive : ∀ q i, s'.Has q i → (s'.ino i).type ≠ .free)
    (hpend : ∀ q, ∀ i ∈ (s'.pc q).pending, (s'.ino i).type ≠ .dir)
    (htouch : ∀ j, s'.ino j = s.ino j ∨ (¬ s.Locked p j ∧
      ∀ q ty dp name, q ≠ p → s.pc q ≠ .createNew ty dp name j))
    (hnamed : ∀ i, s'.Named i → s.Known p i)
    (hunmade : ∀ d, (s'.ino d).type = .dir → (s'.ino d).size = 0 →
      (∃ q ty dp name, q ≠ p ∧ s.pc q = .createNew ty dp name d) ∨
      ∃ ty dp name, s'.pc p = .createNew ty dp name d)
    (hnew : ∀ ty dp name ip, s'.pc p = .createNew ty dp name ip →
      NewInode s' p ty dp name ip ∧ ¬ s.Locked p dp ∧ (s.ino ip).type = .free) : ProcInv s' := by
  have hlocks : ∀ q d, q ≠ p → (s'.pc q).locks = some d → (s'.pc p).locks ≠ some d := by
    intro q d hqp hq hp
    rw [hm.others q hqp] at hq
    generalize hb : s'.pc p = b at hp
    cases b with
    | createNew ty dp name ip =>
      cases hp
      exact (hnew ty d name ip hb).2.1 ⟨q, hqp, hq⟩
    | _ => cases hp
  refine ⟨hlive, hpend, fun q => ?_, fun q hq => ?_, fun q ty dp name ip hq => ?_,
    fun d hdir hsize => ?_, fun q r d hq hr => ?_⟩
  · by_cases hqp : q = p
    · rw [hqp]
      exact hm.types
    · rw [hm.others q hqp]
      exact h.types q
  · by_cases hqp : q = p
    · rw [hqp] at hq ⊢
      exact hm.plain hq
    · rw [hm.others q hqp] at hq ⊢
      exact h.plain q hq
  · by_cases hqp : q = p
    · rw [hqp] at hq ⊢
      exact (hnew ty dp name ip hq).1
    · rw [hm.others q hqp] at hq
      have hold := h.new q ty dp name ip hq
      refine hold.keep hm hqp ?_ ?_ hnamed (fun ty' dp' name' hp => ?_)
      · exact (htouch ip).resolve_right (fun ht => ht.2 q ty dp name hqp hq)
      · exact (htouch dp).resolve_right (fun ht => ht.1 ⟨q, hqp, Pc.locks_createNew hq⟩)
      · have hfree := (hnew ty' dp' name' ip hp).2.2
        refine h.live q ip (has_of_held ?_) hfree
        rw [hq]
        exact List.mem_cons_of_mem _ List.mem_cons_self
  · rcases hunmade d hdir hsize with ⟨q, ty, dp, name, hqp, hq⟩ | ⟨ty, dp, name, hp⟩
    · exact ⟨q, ty, dp, name, by rw [hm.others q hqp]; exact hq⟩
    · exact ⟨p, ty, dp, name, hp⟩
  · by_cases hqp : q = p
    · by_cases hrp : r = p
      · rw [hqp, hrp]
      · rw [hqp] at hq
        exact absurd hq (hlocks r d hrp hr)
    · by_cases hrp : r = p
      · rw [hrp] at hr
        exact absurd hr (hlocks q d hqp hq)
      · rw [hm.others q hqp] at hq
        rw [hm.others r hrp] at hr
        exact h.locks q r d hq hr

theorem NewInode.not_known (h : NewInode s q ty dp name ip) (hqp : q ≠ p) : ¬ s.Known p ip :=
  fun hk => hqp (h.eq_of_known hk).symm

section keep

variable [Fintype P] (h : FsInv ninodes s)

include h

theorem FsInv.not_new (hk : s.Known p i) :
    ∀ q ty dp name, q ≠ p → s.pc q ≠ .createNew ty dp name i :=
  fun q ty dp name hqp hq => (h.procs.new q ty dp name i hq).not_known hqp hk

theorem FsInv.type_ne_free (hty : (s.pc p).newType = some ty) : ty ≠ .free := by
  rintro rfl
  exact h.procs.types p hty

/-- What a process has after the step was an inode before it, or is the one
    that `create` has allocated. -/
theorem FsInv.live_has (hm : Moves s s' p) (hi : s'.Has q i) :
    (s.ino i).type ≠ .free ∨ ∃ ty dp name, s'.pc p = .createNew ty dp name i := by
  have hp : s'.Has p i → (s.ino i).type ≠ .free ∨
      ∃ ty dp name, s'.pc p = .createNew ty dp name i :=
    fun hhas => (hm.known i hhas).imp_left h.live_of_known
  by_cases hqp : q = p
  · rw [hqp] at hi
    exact hp hi
  · rcases hm.has_other hqp hi with hin | hhas
    · exact Or.inl (h.procs.live q i (has_of_held hin))
    · exact hp hhas

/-- `p` may write the inode `j`, and has it in hand afterwards. -/
def State.Writes (s s' : State P) (p : P) (j : Inum) : Prop :=
  ¬ s.Locked p j ∧ s.Known p j ∧ j ∈ (s'.pc p).held

omit [Fintype P] h in
theorem State.Writes.ino {u : State P} {j : Inum} (hi : s.Writes s' p i)
    (hino : u.ino = (t.setIno i x).ino) (ht : t.ino j = s.ino j ∨ s.Writes s' p j) :
    u.ino j = s.ino j ∨ s.Writes s' p j := by
  by_cases hj : j = i
  · rw [hj]
    exact Or.inr hi
  · rw [ino_set_of_ne hino hj]
    exact ht

/-- What a step of `p` keeps that leaves the types and the surplus of every
    inode; `E` is the directory graph after it. -/
structure Kept (ninodes : Nat) (s s' : State P) (p : P) (E : Finset (Edge Inum Nat)) : Prop where
  inv : FsInv ninodes s'
  moves : Moves s s' p
  edges : s'.edges ninodes = E
  types : ∀ j, (s'.ino j).type = (s.ino j).type
  surplus : ∀ j, s'.surplus ninodes j = s.surplus ninodes j
  touch : ∀ j, s'.ino j = s.ino j ∨ s'.Has p j

/-- The process writes inodes that it has in hand and nobody else has locked. -/
theorem FsInv.kept {E : Finset (Edge Inum Nat)} (hm : Moves s s' p) (hg : GraphInv ninodes s')
    (hedges : s'.edges ninodes = E) (htypes : ∀ j, (s'.ino j).type = (s.ino j).type)
    (hsurplus : ∀ j, s'.surplus ninodes j = s.surplus ninodes j) (hnew : (s'.pc p).locks = none)
    (hpend : ∀ i ∈ (s'.pc p).pending, (s.ino i).type ≠ .dir)
    (htouch : ∀ j, s'.ino j = s.ino j ∨ s.Writes s' p j) (hnamed : ∀ i, s'.Named i → s.Known p i)
    (hunmade : ∀ d, (s'.ino d).type = .dir → (s'.ino d).size = 0 →
      (s.ino d).size = 0 ∧ ∀ ty dp name, s.pc p ≠ .createNew ty dp name d) :
    Kept ninodes s s' p E := by
  have hp : ∀ ty dp name ip, s'.pc p ≠ .createNew ty dp name ip := by
    intro ty dp name ip hpc
    rw [hpc] at hnew
    cases hnew
  have hprocs : ProcInv s' := by
    refine h.procs.keep hm (fun q i hi => ?_) (fun q i hi => ?_)
      (fun j => (htouch j).imp_right (fun ht => ⟨ht.1, h.not_new ht.2.1⟩)) hnamed
      (fun d hdir hsize => Or.inl ?_) (fun ty dp name ip hpc => absurd hpc (hp ty dp name ip))
    · rw [htypes]
      exact (h.live_has hm hi).resolve_right (fun ⟨ty, dp, name, hpc⟩ => hp ty dp name i hpc)
    · rw [htypes]
      by_cases hqp : q = p
      · rw [hqp] at hi
        exact hpend i hi
      · rw [hm.others q hqp] at hi
        exact h.procs.pending q i hi
    · obtain ⟨hold, hnot⟩ := hunmade d hdir hsize
      rw [htypes] at hdir
      obtain ⟨q, ty, dp, name, hq⟩ := h.procs.unmade d hdir hold
      refine ⟨q, ty, dp, name, fun hqp => ?_, hq⟩
      rw [hqp] at hq
      exact hnot ty dp name hq
  refine ⟨⟨hg, hprocs, fun j hj => ?_, by rw [hm.running]; simp⟩, hm, hedges, htypes, hsurplus,
    fun j => (htouch j).imp_right (fun ht => has_of_held ht.2.2)⟩
  rw [htypes] at hj
  rw [hsurplus]
  exact h.nlink j hj

end keep

/-! ### Entries and link counts -/

/-- The entries after a change of one inode. -/
theorem named_setIno (hino : s'.ino = (s.setIno d x).ino) (hn : s'.Named i) :
    s.Named i ∨ ∃ k, x.type = .dir ∧ x.Used k ∧ (x.slot k).inum = i := by
  obtain ⟨d', k, hdir, hused, heq⟩ := hn
  by_cases hd : d' = d
  · rw [hd, ino_set_self hino] at hdir hused heq
    exact Or.inr ⟨k, hdir, hused, heq⟩
  · rw [ino_set_of_ne hino hd] at hdir hused heq
    exact Or.inl ⟨d', k, hdir, hused, heq⟩

theorem named_blank (hino : s'.ino = (s.setIno d (State.blank ty)).ino) (hn : s'.Named i) :
    s.Named i := by
  rcases named_setIno hino hn with hold | ⟨k, _, hused, _⟩
  · exact hold
  · exact absurd hused (not_used_blank ty k)

/-- The entries after a directory has got one or lost one. -/
theorem named_write {k : Nat} {de : Dirent} {n : Int} (hdir : (s.ino d).type = .dir)
    (hwhole : DIRENT ∣ (s.ino d).size) (hle : DIRENT * k ≤ (s.ino d).size)
    (hino : s'.ino = (s.setIno d { (s.ino d).write k de with nlink := n }).ino)
    (hn : s'.Named i) : s.Named i ∨ (de.inum ≠ 0 ∧ i = de.inum) := by
  rcases named_setIno hino hn with hold | ⟨j, _, hused, heq⟩
  · exact Or.inl hold
  · have hused' := (used_write (s.ino d) k de hwhole hle j).mp hused
    by_cases hjk : j = k
    · rw [if_pos hjk] at hused'
      rw [hjk] at heq
      exact Or.inr ⟨hused', heq.symm.trans (congrArg Dirent.inum (write_slot_self (s.ino d) k de))⟩
    · rw [if_neg hjk] at hused'
      refine Or.inl ⟨d, j, hdir, hused', ?_⟩
      exact (congrArg Dirent.inum (write_slot_of_ne (s.ino d) k de hjk)).symm.trans heq

/-- A directory that was written to is not empty. -/
theorem size_write {k : Nat} {de : Dirent} {n : Int}
    (hino : s'.ino = (s.setIno d { (s.ino d).write k de with nlink := n }).ino)
    (hsize : (s'.ino i).size = 0) : (s.ino i).size = 0 := by
  by_cases hd : i = d
  · rw [hd, ino_set_self hino] at hsize
    exact absurd hsize (write_size_ne_zero (s.ino d) k de)
  · rwa [ino_set_of_ne hino hd] at hsize

theorem links_insert {e : Edge Inum Nat} (hedges : s'.edges ninodes = insert e (s.edges ninodes))
    (he : e ∉ s.edges ninodes) (hisDir : s'.isDir = s.isDir) (j : Inum) :
    s'.links ninodes j = s.links ninodes j + (if e.dst = j then 1 else 0) +
      if e.src = j ∧ s.isDir e.dst = true then 1 else 0 := by
  unfold State.links
  rw [hedges, hisDir, inDeg_insert he, outDeg_insert s.isDir he]
  omega

theorem links_erase {e : Edge Inum Nat} (hedges : s'.edges ninodes = (s.edges ninodes).erase e)
    (he : e ∈ s.edges ninodes) (hisDir : s'.isDir = s.isDir) (j : Inum) :
    s'.links ninodes j + (if e.dst = j then 1 else 0) +
      (if e.src = j ∧ s.isDir e.dst = true then 1 else 0) = s.links ninodes j := by
  have hin := inDeg_erase he j
  have hout := outDeg_erase s.isDir he j
  unfold State.links
  rw [hedges, hisDir]
  omega

theorem links_congr (hedges : s'.edges ninodes = s.edges ninodes)
    (hisDir : ∀ e ∈ s.edges ninodes, s'.isDir e.dst = s.isDir e.dst) (j : Inum) :
    s'.links ninodes j = s.links ninodes j := by
  unfold State.links
  rw [hedges, outDeg_congr hisDir]

theorem Moves.pending [Fintype P] (hm : Moves s s' p) (j : Inum) :
    s'.pending j + (s.pc p).pending.count j = s.pending j + (s'.pc p).pending.count j := by
  classical
  have hpc : s'.pc = Function.update s.pc p (s'.pc p) := by
    funext q
    by_cases hqp : q = p
    · rw [hqp, Function.update_self]
    · rw [Function.update_of_ne hqp, hm.others q hqp]
  have hsum := sum_comp_update (fun pc : Pc => pc.pending.count j) s.pc p (s'.pc p)
  rw [← hpc] at hsum
  exact hsum

/-! ### Effects -/

section effects

variable [DecidableEq P] [Fintype P] (h : FsInv ninodes s)

include h

section

omit [DecidableEq P]

theorem FsInv.keep_stopped {e : FsPanic} (he : e ≠ .ilockNoType) : FsInv ninodes (s.stop e) := by
  obtain ⟨hbound, hwhole, hdirs, hentries, htree, hroot⟩ := h.graph
  refine ⟨⟨hbound, hwhole, hdirs, hentries, htree, hroot⟩, ?_, h.nlink, ?_⟩
  · obtain ⟨hlive, hpend, htypes, hplain, hnew, hunmade, hlocks⟩ := h.procs
    refine ⟨hlive, hpend, htypes, hplain, fun q ty dp name ip hq => ?_, hunmade, hlocks⟩
    obtain ⟨hblank, hunnamed, hroot, halone, hparent, habsent⟩ := hnew q ty dp name ip hq
    exact ⟨hblank, hunnamed, hroot, halone, hparent, habsent⟩
  · intro heq
    exact he (Option.some.inj heq)

theorem FsInv.keep_quiet (hm : Moves s s' p) (hino : s'.ino = s.ino)
    (hpend : (s'.pc p).pending = (s.pc p).pending) (hold : (s.pc p).locks = none)
    (hnew : (s'.pc p).locks = none) : Kept ninodes s s' p (s.edges ninodes) := by
  have hsame := sameEntries_of_eq hino
  refine h.kept hm (hsame.graphInv h.graph) hsame.edges (fun j => (hsame j).1) (fun j => ?_) hnew
    (fun i hi => ?_) (fun j => Or.inl (congrFun hino j))
    (fun i hi => known_of_named ((hsame.named i).mp hi)) (fun d _ hsize => ?_)
  · have hp := hm.pending j
    rw [hpend] at hp
    unfold State.surplus
    rw [hino, hsame.linkCount, Nat.add_right_cancel hp]
  · rw [hpend] at hi
    exact h.procs.pending p i hi
  · rw [(hsame d).2.1] at hsize
    refine ⟨hsize, fun ty dp name hp => ?_⟩
    rw [Pc.locks_createNew hp] at hold
    cases hold

end

variable (hrunning : s.panic = none)

include hrunning

/-- A link count changes with what is pending. -/
theorem FsInv.keep_count {n : Int} {b : Pc} (hmem : ip ∈ (s.pc p).held)
    (hlock : ¬ s.Locked p ip) (hold : (s.pc p).locks = none)
    (hheld : ∀ i ∈ b.held, s.Known p i) (htypes : b.newType ≠ some .free) (hplain : b.plain = true)
    (hkept : ∀ i ∈ (s.pc p).held, i ∈ b.held)
    (hpend : ∀ i ∈ b.pending, (s.ino i).type ≠ .dir)
    (hcount : ∀ j, (b.pending.count j : Int) - (s.pc p).pending.count j =
      if j = ip then n - (s.ino ip).nlink else 0)
    (hs' : s' = (s.setIno ip { s.ino ip with nlink := n }).goto p b) :
    Kept ninodes s s' p (s.edges ninodes) := by
  have hino : s'.ino = (s.setIno ip { s.ino ip with nlink := n }).ino := by rw [hs']; rfl
  have hpc : s'.pc p = b := by rw [hs', pc_goto_self]
  have hsame := sameEntries_setNlink hino
  have hm : Moves s s' p := by
    rw [hs']
    exact Moves.goto rfl rfl rfl hrunning (fun i hi => Or.inl (hheld i hi)) htypes
      (fun _ => hplain) (fun i hi => Or.inl (hkept i hi))
  refine h.kept hm (hsame.graphInv h.graph) hsame.edges (fun j => (hsame j).1) (fun j => ?_)
    (by rw [hpc]; exact Pc.locks_of_plain hplain) (by rw [hpc]; exact hpend) (fun j => ?_)
    (fun i hi => known_of_named ((hsame.named i).mp hi)) (fun d _ hsize => ?_)
  · have hp := hm.pending j
    have hc := hcount j
    rw [hpc] at hp
    unfold State.surplus
    rw [hsame.linkCount]
    by_cases hj : j = ip
    · rw [hj, ino_set_self hino]
      rw [hj] at hp hc
      rw [if_pos rfl] at hc
      simp only
      omega
    · rw [ino_set_of_ne hino hj]
      rw [if_neg hj] at hc
      omega
  · have hw : s.Writes s' p ip := ⟨hlock, known_of_held hmem, by rw [hpc]; exact hkept ip hmem⟩
    exact hw.ino hino (Or.inl rfl)
  · rw [(hsame d).2.1] at hsize
    refine ⟨hsize, fun ty dp name hp => ?_⟩
    rw [Pc.locks_createNew hp] at hold
    cases hold

/-- `ip->nlink++` in `sys_link`. -/
theorem FsInv.keep_raised {j : Inum} {new : Path} (path : List Name)
    (hpc : s.pc p = .linkInc ip new) (hlock : ¬ s.Locked p ip)
    (hdir : (s.ino ip).type ≠ .dir) (hstart : j = ROOTINO ∨ s.cwd p = some j)
    (hs' : s' = (s.setIno ip { s.ino ip with nlink := (s.ino ip).nlink + 1 }).goto p
      (.walk (.linkNew ip) j path)) :
    Kept ninodes s s' p (s.edges ninodes) := by
  have hheld : (s.pc p).held = [ip] := by rw [hpc]; rfl
  refine h.keep_count hrunning (by rw [hheld]; simp) hlock (by rw [hpc]; rfl) (fun i hi => ?_)
    (by simp [Pc.newType]) rfl (fun i hi => ?_) (fun i hi => ?_) (fun i => ?_) hs'
  · rcases List.mem_cons.mp hi with rfl | hi
    · rcases hstart with rfl | hcwd
      · exact Or.inr (Or.inl rfl)
      · exact known_of_cwd hcwd
    · refine known_of_held ?_
      rw [hheld]
      exact hi
  · rw [hheld] at hi
    exact List.mem_cons_of_mem _ hi
  · rw [List.mem_singleton.mp hi]
    exact hdir
  · rw [hpc]
    simp only [Pc.pending, Call.refs, List.count_nil, List.count_singleton, beq_iff_eq]
    by_cases hi : i = ip
    · simp [hi]
    · simp [hi, Ne.symm hi]

/-- `ip->nlink--` in `sys_link`. -/
theorem FsInv.keep_lowered (hpc : s.pc p = .linkBad ip)
    (hlock : ¬ s.Locked p ip)
    (hs' : s' = (s.setIno ip { s.ino ip with nlink := (s.ino ip).nlink - 1 }).goto p
      (.put ip .idle)) :
    Kept ninodes s s' p (s.edges ninodes) := by
  have hheld : (s.pc p).held = [ip] := by rw [hpc]; rfl
  refine h.keep_count hrunning (by rw [hheld]; simp) hlock (by rw [hpc]; rfl)
    (fun i hi => known_of_held (by rw [hheld]; exact hi)) (by simp [Pc.newType]) rfl
    (fun i hi => by rw [hheld] at hi; exact hi) (fun i hi => by cases hi) (fun i => ?_) hs'
  rw [hpc]
  simp only [Pc.pending, List.count_nil, List.count_singleton, beq_iff_eq]
  by_cases hi : i = ip
  · simp [hi]
  · simp [hi, Ne.symm hi]

/-- `sys_link` adds the entry. -/
theorem FsInv.keep_linked {k : Nat} (hpc : s.pc p = .linkDir ip dp name)
    (hlock : ¬ s.Locked p dp) (hdir : (s.ino dp).type = .dir)
    (hnone : dirlookup (s.ino dp) name = .ok none) (hle : DIRENT * k ≤ (s.ino dp).size)
    (hfree : ¬ (s.ino dp).Used k)
    (hs' : s' = (s.setIno dp ((s.ino dp).write k ⟨ip, name⟩)).goto p (.put dp (.put ip .idle))) :
    Kept ninodes s s' p (insert ⟨dp, k, ip⟩ (s.edges ninodes)) := by
  have hino : s'.ino = (s.setIno dp
      { (s.ino dp).write k ⟨ip, name⟩ with nlink := (s.ino dp).nlink }).ino := by
    rw [hs']
    rfl
  have hpc' : s'.pc p = .put dp (.put ip .idle) := by rw [hs', pc_goto_self]
  have hheld : (s.pc p).held = [ip, dp] := by rw [hpc]; rfl
  have hpend : (s.pc p).pending = [ip] := by rw [hpc]; rfl
  have hdp : s.Known p dp := known_of_held (by rw [hheld]; simp)
  have hip : s.Known p ip := known_of_held (by rw [hheld]; simp)
  have hfile : (s.ino ip).type ≠ .dir := h.procs.pending p ip (by rw [hpend]; simp)
  have hok := h.dirOk hdp hdir (by rw [hpc]; rfl)
  have hwhole := h.graph.whole dp hdir
  have hnames := hok.name_ne (h.graph.bound dp (h.live_of_known hdp)).1 hdir hwhole hnone
  have hnotDir : s.isDir ip = false := decide_eq_false hfile
  have htree : TreeInv (insert ⟨dp, k, ip⟩ (s.edges ninodes)) s.isDir s.up ROOTINO := by
    refine h.graph.tree.addLink hnotDir (fun heq => ?_) (isDir_eq_true.mpr hdir)
    have hroot := h.graph.root.1
    rw [← heq] at hroot
    exact hfile hroot
  obtain ⟨hg, hedges, hisDir⟩ := h.graph.addEntry hdir hok hfree hle hnames.1 hnames.2
    (h.live_of_known hip) htree hino
  have hm : Moves s s' p := by
    rw [hs']
    refine Moves.goto rfl rfl rfl hrunning (fun i hi => Or.inl (known_of_held ?_))
      (by simp [Pc.newType]) (fun _ => rfl) (fun i hi => Or.inl ?_)
    · rw [hheld]
      simpa [Pc.held, or_comm] using hi
    · rw [hheld] at hi
      simpa [Pc.held, or_comm] using hi
  refine h.kept hm hg hedges (type_set hino (show (s.ino dp).type = (s.ino dp).type from rfl))
    (fun j => ?_) (by rw [hpc']; rfl) (by rw [hpc']; simp [Pc.pending]) (fun j => ?_)
    (fun i hi => ?_) (fun d _ hsize => ?_)
  · have hp := hm.pending j
    rw [hpc', hpend] at hp
    have hl := links_insert hedges (fun he => hfree (mem_edges.mp he).2.2.1.1) hisDir j
    have hn : (s'.ino j).nlink = (s.ino j).nlink := by
      by_cases hj : j = dp
      · rw [hj, ino_set_self hino]
      · rw [ino_set_of_ne hino hj]
    have hout : ¬ (dp = j ∧ s.isDir ip = true) := by
      rw [hnotDir]
      simp
    simp only [Pc.pending, List.count_nil, List.count_singleton, beq_iff_eq] at hp
    simp only [if_neg hout] at hl
    unfold State.surplus
    rw [hn]
    omega
  · have hw : s.Writes s' p dp := ⟨hlock, hdp, by rw [hpc']; exact List.mem_cons_self⟩
    exact hw.ino hino (Or.inl rfl)
  · rcases named_write hdir hwhole hle hino hi with hold | ⟨_, rfl⟩
    · exact known_of_named hold
    · exact hip
  · exact ⟨size_write hino hsize, fun ty dp name hp => by rw [hpc] at hp; cases hp⟩

omit [DecidableEq P] hrunning in
/-- `create` sets the new inode up, before it adds the entry. -/
theorem FsInv.setup_made (hpc : s.pc p = .createNew ty dp name ip) (hx : Made ty dp ip x)
    (hino : t.ino = (s.setIno ip x).ino) :
    GraphInv ninodes t ∧ t.edges ninodes = s.edges ninodes ∧ t.isDir = s.isDir ∧
      (ty = .dir → t.up ip = dp) ∧ ∀ i, t.Named i → s.Named i ∨ i = ip ∨ i = dp := by
  have hnew := h.procs.new p ty dp name ip hpc
  have hdp : (s.ino dp).type ≠ .free := by
    rw [hnew.parent.1]
    simp
  have hself := ino_set_self hino
  obtain ⟨htype, _, hrest⟩ := hx
  by_cases hty : ty = .dir
  · rw [if_pos hty] at hrest
    have hblank : s.ino ip = State.blank .dir := by rw [hnew.blank, hty]
    obtain ⟨hg, hedges, hisDir⟩ := h.graph.setup hblank hnew.unnamed hnew.ne_root hdp
      ⟨htype.trans hty, hrest⟩ hino
    refine ⟨hg, hedges, hisDir, fun _ => ?_, fun i hi => ?_⟩
    · unfold State.up
      rw [hself, hrest.2.2]
    · rcases named_setIno hino hi with hold | ⟨k, _, hused, rfl⟩
      · exact Or.inl hold
      · have hlt := hused.1
        rw [hrest.1, show DIRENT = 16 from rfl] at hlt
        have hk : k = 0 ∨ k = 1 := by omega
        rcases hk with rfl | rfl
        · rw [hrest.2.1]
          exact Or.inr (Or.inl rfl)
        · rw [hrest.2.2]
          exact Or.inr (Or.inr rfl)
  · rw [if_neg hty] at hrest
    have hsame : SameEntries s t := by
      intro j
      by_cases hj : j = ip
      · rw [hj, hself, hnew.blank]
        exact ⟨htype, hrest.1, hrest.2⟩
      · rw [ino_set_of_ne hino hj]
        exact ⟨rfl, rfl, rfl⟩
    exact ⟨hsame.graphInv h.graph, hsame.edges, hsame.isDir, fun hd => absurd hd hty,
      fun i hi => Or.inl ((hsame.named i).mp hi)⟩

/-- `create` adds the new inode to its directory. -/
theorem FsInv.keep_made {k : Nat}
    (hpc : s.pc p = .createNew ty dp name ip)
    (hlock : ¬ s.Locked p ip) (hx : Made ty dp ip x) (hle : DIRENT * k ≤ (s.ino dp).size)
    (hfree : ¬ (s.ino dp).Used k)
    (hs' : s' = ((s.setIno ip x).setIno dp
      { (s.ino dp).write k ⟨ip, name⟩ with
        nlink := (s.ino dp).nlink + if ty = .dir then 1 else 0 }).goto p
      (.put dp (if ty = .file then .filealloc ip else .put ip .idle))) :
    Kept ninodes s s' p (insert ⟨dp, k, ip⟩ (s.edges ninodes)) := by
  have hnew := h.procs.new p ty dp name ip hpc
  obtain ⟨hdir, hok⟩ := hnew.parent
  obtain ⟨t, ht⟩ : ∃ t, t = s.setIno ip x := ⟨_, rfl⟩
  have htino : t.ino = (s.setIno ip x).ino := by rw [ht]
  have hheld : (s.pc p).held = [dp, ip] := by rw [hpc]; rfl
  have hdp : s.Known p dp := known_of_held (by rw [hheld]; simp)
  have hip : s.Known p ip := known_of_held (by rw [hheld]; simp)
  have hne : dp ≠ ip := by
    intro heq
    have hsize := hok.size
    rw [heq, hnew.blank] at hsize
    have hzero : 2 * DIRENT ≤ 0 := hsize
    exact absurd hzero (by decide)
  have htdp := ino_set_of_ne htino hne
  have htip := ino_set_self htino
  have hino : s'.ino = (t.setIno dp { (t.ino dp).write k ⟨ip, name⟩ with
      nlink := (s.ino dp).nlink + if ty = .dir then 1 else 0 }).ino := by
    rw [htdp, hs', ht]
    rfl
  have hdirt : (t.ino dp).type = .dir := by rw [htdp]; exact hdir
  have hwhole : DIRENT ∣ (t.ino dp).size := by rw [htdp]; exact h.graph.whole dp hdir
  have hlet : DIRENT * k ≤ (t.ino dp).size := by rw [htdp]; exact hle
  have hnames := hok.name_ne (h.graph.bound dp (h.live_of_known hdp)).1 hdir
    (h.graph.whole dp hdir) hnew.absent
  have hty : ty ≠ .free := h.type_ne_free (by rw [hpc]; rfl)
  have hisDirIp : s.isDir ip = decide (ty = .dir) := by
    unfold State.isDir
    rw [hnew.blank]
    rfl
  obtain ⟨hgt, hedgest, hisDirt, hupt, hnamedt⟩ := h.setup_made hpc hx htino
  -- a directory becomes a leaf of the tree
  have htree : TreeInv (insert ⟨dp, k, ip⟩ (t.edges ninodes)) t.isDir t.up ROOTINO := by
    by_cases hd : ty = .dir
    · refine hgt.tree.addLeaf (fun e he heq => ?_) (fun e he heq => ?_) (hupt hd) hne
        hnew.ne_root (isDir_eq_true.mpr hdirt)
      · rw [hedgest] at he
        have hnamed := named_of_edge he
        rw [heq] at hnamed
        exact hnew.unnamed hnamed
      · rw [hedgest] at he
        have hord := (mem_edges.mp he).2.2.1.1
        rw [heq, hnew.blank] at hord
        exact not_used_blank ty e.key hord
    · refine hgt.tree.addLink ?_ hnew.ne_root (isDir_eq_true.mpr hdirt)
      rw [hisDirt, hisDirIp]
      exact decide_eq_false hd
  obtain ⟨hg, hedges, hisDir⟩ := hgt.addEntry hdirt (by rw [htdp]; exact hok)
    (by rw [htdp]; exact hfree) hlet hnames.1 hnames.2
    (by rw [htip, hx.1]; exact hty) htree hino
  rw [hedgest] at hedges
  rw [hisDirt] at hisDir
  have hpc' : s'.pc p = .put dp (if ty = .file then .filealloc ip else .put ip .idle) := by
    rw [hs', pc_goto_self]
  have hheld' : (s'.pc p).held = [dp, ip] := by
    rw [hpc']
    split
    · rfl
    · rfl
  have hpend' : (s'.pc p).pending = [] ∧ (s'.pc p).plain = true := by
    rw [hpc']
    split
    · exact ⟨rfl, rfl⟩
    · exact ⟨rfl, rfl⟩
  obtain ⟨hpend', hplain'⟩ := hpend'
  have hm : Moves s s' p := by
    rw [hs', pc_goto_self] at hheld' hplain'
    rw [hs']
    refine Moves.goto rfl rfl rfl hrunning (fun i hi => Or.inl (known_of_held ?_)) ?_
      (fun _ => hplain') (fun i hi => Or.inl ?_)
    · rw [hheld, ← hheld']
      exact hi
    · split
      · simp [Pc.newType]
      · simp [Pc.newType]
    · rw [hheld', ← hheld]
      exact hi
  have hxtype : x.type = (s.ino ip).type := by
    rw [hx.1, hnew.blank]
    rfl
  have htypes : ∀ j, (s'.ino j).type = (s.ino j).type := fun j =>
    (type_set hino (show (t.ino dp).type = (t.ino dp).type from rfl) j).trans
      (type_set htino hxtype j)
  have hunlocked : ¬ s.Locked p dp := by
    rintro ⟨q, hqp, hq⟩
    exact hqp (h.procs.locks q p dp hq (Pc.locks_createNew hpc))
  refine h.kept hm hg hedges htypes (fun j => ?_) (Pc.locks_of_plain hplain')
    (by rw [hpend']; simp) (fun j => ?_) (fun i hi => ?_) (fun d hd hsize => ?_)
  · have hp := hm.pending j
    rw [hpend', hpc] at hp
    have hl := links_insert hedges (fun he => hfree (mem_edges.mp he).2.2.1.1) hisDir j
    simp only [Pc.pending, List.count_nil, Nat.add_zero] at hp
    simp only [hisDirIp, decide_eq_true_eq] at hl
    have hn : (s'.ino j).nlink = (s.ino j).nlink + ((if ip = j then 1 else 0 : Nat) : Int) +
        ((if dp = j ∧ ty = .dir then 1 else 0 : Nat) : Int) := by
      by_cases hj : j = dp
      · rw [hj, ino_set_self hino, if_neg (Ne.symm hne)]
        by_cases hd : ty = .dir
        · simp [hd]
        · simp [hd]
      · have hout : ¬ (dp = j ∧ ty = .dir) := fun hboth => hj hboth.1.symm
        rw [ino_set_of_ne hino hj, if_neg hout]
        by_cases hji : j = ip
        · rw [hji, htip, hnew.blank, hx.2.1, if_pos rfl]
          rfl
        · rw [ino_set_of_ne htino hji, if_neg (Ne.symm hji)]
          simp
    unfold State.surplus
    rw [hn, hp, hl]
    omega
  · have hw : s.Writes s' p ip := ⟨hlock, hip, by rw [hheld']; simp⟩
    have hw' : s.Writes s' p dp := ⟨hunlocked, hdp, by rw [hheld']; simp⟩
    exact hw'.ino hino (hw.ino htino (Or.inl rfl))
  · rcases named_write hdirt hwhole hlet hino hi with hold | ⟨_, rfl⟩
    · rcases hnamedt i hold with hs | rfl | rfl
      · exact known_of_named hs
      · exact hip
      · exact hdp
    · exact hip
  · have hsize' := size_write hino hsize
    by_cases hdi : d = ip
    · -- the new directory has its two entries
      rw [hdi, htip] at hsize'
      rw [htypes, hdi, hnew.blank] at hd
      have hrest := hx.2.2
      have hdir' : ty = .dir := hd
      rw [if_pos hdir', hsize'] at hrest
      exact absurd hrest.1 (by decide)
    · rw [ino_set_of_ne htino hdi] at hsize'
      refine ⟨hsize', fun ty' dp' name' hp => hdi ?_⟩
      rw [hpc] at hp
      cases hp
      rfl

/-- `sys_unlink` removes the entry. -/
theorem FsInv.keep_removed {k : Nat} (hpc : s.pc p = .unlink dp name)
    (hlock : ¬ s.Locked p dp) (hdir : (s.ino dp).type = .dir)
    (hord : (s.ino dp).Ordinary k) (hslot : ((s.ino dp).slot k).inum = ip) (hne : ip ≠ dp)
    (hlock' : ¬ s.Locked p ip)
    (hs' : s' = ((s.setIno dp
      { (s.ino dp).write k ⟨0, []⟩ with
        nlink := (s.ino dp).nlink - if (s.ino ip).type = .dir then 1 else 0 }).setIno ip
      { s.ino ip with nlink := (s.ino ip).nlink - 1 }).goto p (.put dp (.put ip .idle))) :
    Kept ninodes s s' p ((s.edges ninodes).erase ⟨dp, k, ip⟩) := by
  obtain ⟨t, ht⟩ : ∃ t, t = s.setIno dp { (s.ino dp).write k ⟨0, []⟩ with
    nlink := (s.ino dp).nlink - if (s.ino ip).type = .dir then 1 else 0 } := ⟨_, rfl⟩
  have htino : t.ino = (s.setIno dp { (s.ino dp).write k ⟨0, []⟩ with
      nlink := (s.ino dp).nlink - if (s.ino ip).type = .dir then 1 else 0 }).ino := by
    rw [ht]
  have htip := ino_set_of_ne htino hne
  have hino : s'.ino = (t.setIno ip
      { t.ino ip with nlink := (s.ino ip).nlink - 1 }).ino := by
    rw [htip, hs', ht]
    rfl
  have hheld : (s.pc p).held = [dp] := by rw [hpc]; rfl
  have hdp : s.Known p dp := known_of_held (by rw [hheld]; simp)
  have hip : s.Known p ip := known_of_named ⟨dp, k, hdir, hord.1, hslot⟩
  have hok := h.dirOk hdp hdir (by rw [hpc]; rfl)
  have hwhole := h.graph.whole dp hdir
  have hedge : (⟨dp, k, ip⟩ : Edge Inum Nat) ∈ s.edges ninodes :=
    mem_edges.mpr ⟨(h.graph.bound dp (h.live_of_known hdp)).2, hdir, hord, hslot⟩
  obtain ⟨hgt, hedgest, hisDirt⟩ := h.graph.removeEntry hdir hok hord htino
  rw [hslot] at hedgest
  have hsame := sameEntries_setNlink hino
  have hedges : s'.edges ninodes = (s.edges ninodes).erase ⟨dp, k, ip⟩ :=
    hsame.edges.trans hedgest
  have hisDir : s'.isDir = s.isDir := hsame.isDir.trans hisDirt
  have hpc' : s'.pc p = .put dp (.put ip .idle) := by rw [hs', pc_goto_self]
  have hm : Moves s s' p := by
    rw [hs']
    refine Moves.goto rfl rfl rfl hrunning (fun i hi => Or.inl ?_) (by simp [Pc.newType])
      (fun _ => rfl) (fun i hi => Or.inl ?_)
    · rcases List.mem_cons.mp hi with rfl | hi
      · exact hdp
      · rw [List.mem_singleton.mp hi]
        exact hip
    · rw [hheld] at hi
      rw [List.mem_singleton.mp hi]
      exact List.mem_cons_self
  have htypes : ∀ j, (s'.ino j).type = (s.ino j).type := fun j =>
    (hsame j).1.trans (type_set htino (show (s.ino dp).type = (s.ino dp).type from rfl) j)
  refine h.kept hm (hsame.graphInv hgt) hedges htypes (fun j => ?_) (by rw [hpc']; rfl)
    (by rw [hpc']; simp [Pc.pending]) (fun j => ?_) (fun i hi => ?_) (fun d _ hsize => ?_)
  · have hp := hm.pending j
    rw [hpc', hpc] at hp
    have hl := links_erase hedges hedge hisDir j
    simp only [Pc.pending, List.count_nil, Nat.add_zero] at hp
    simp only [State.isDir, decide_eq_true_eq] at hl
    have hn : (s'.ino j).nlink + ((if ip = j then 1 else 0 : Nat) : Int) +
        ((if dp = j ∧ (s.ino ip).type = .dir then 1 else 0 : Nat) : Int) = (s.ino j).nlink := by
      by_cases hj : j = ip
      · have hout : ¬ (dp = ip ∧ (s.ino ip).type = .dir) := fun hboth => hne hboth.1.symm
        rw [hj, ino_set_self hino, if_pos rfl, if_neg hout]
        simp
      · rw [ino_set_of_ne hino hj, if_neg (Ne.symm hj)]
        by_cases hjd : j = dp
        · rw [hjd, ino_set_self htino]
          by_cases hd : (s.ino ip).type = .dir
          · simp [hd]
          · simp [hd]
        · have hout : ¬ (dp = j ∧ (s.ino ip).type = .dir) := fun hboth => hjd hboth.1.symm
          rw [ino_set_of_ne htino hjd, if_neg hout]
          simp
    unfold State.surplus
    omega
  · have hw : s.Writes s' p dp := ⟨hlock, hdp, by rw [hpc']; simp [Pc.held]⟩
    have hw' : s.Writes s' p ip := ⟨hlock', hip, by rw [hpc']; simp [Pc.held]⟩
    exact hw'.ino hino (hw.ino htino (Or.inl rfl))
  · have hi' := (hsame.named i).mp hi
    rcases named_write hdir hwhole (le_of_lt hord.1.1) htino hi' with hold | ⟨hzero, _⟩
    · exact known_of_named hold
    · exact absurd rfl hzero
  · rw [(hsame d).2.1] at hsize
    exact ⟨size_write htino hsize, fun ty dp name hp => by rw [hpc] at hp; cases hp⟩

omit [DecidableEq P] hrunning in
/-- Nothing is known of an inode that is free. -/
theorem FsInv.free_surplus (hfree : (s.ino i).type = .free) :
    s.links ninodes i = 0 ∧ s.pending i = 0 := by
  have hnot := h.graph.not_named hfree
  have hin : inDeg (s.edges ninodes) i = 0 := by
    refine inDeg_eq_zero.mpr (fun e he heq => hnot ?_)
    rw [← heq]
    exact named_of_edge he
  have hout : outDeg (s.edges ninodes) s.isDir i = 0 := by
    refine outDeg_eq_zero.mpr (fun e he heq => ?_)
    have hdir := isDir_of_edge he
    rw [heq, hfree] at hdir
    cases hdir
  have hroot : i ≠ ROOTINO := by
    intro heq
    have hdir := h.graph.root.1
    rw [← heq, hfree] at hdir
    cases hdir
  refine ⟨?_, Finset.sum_eq_zero (fun q _ => List.count_eq_zero.mpr (fun hmem => ?_))⟩
  · unfold State.links
    rw [hin, hout, if_neg hroot]
  · exact h.procs.live q i (has_of_held (Pc.pending_subset_held _ i hmem)) hfree

/-- `ialloc` in `create`. -/
theorem FsInv.keep_alloc (hpc : s.pc p = .create ty dp name)
    (hlock : ¬ s.Locked p dp) (hdir : (s.ino dp).type = .dir)
    (hnone : dirlookup (s.ino dp) name = .ok none) (hfree : (s.ino ip).type = .free)
    (hip : ip ≠ 0 ∧ ip < ninodes)
    (hs' : s' = (s.setIno ip (State.blank ty)).goto p (.createNew ty dp name ip)) :
    FsInv ninodes s' ∧ Moves s s' p ∧ s'.edges ninodes = s.edges ninodes ∧
      s'.surplus ninodes ip = 0 ∧
      ∀ j, j ≠ ip → s'.surplus ninodes j = s.surplus ninodes j := by
  have hino : s'.ino = (s.setIno ip (State.blank ty)).ino := by rw [hs']; rfl
  have hself := ino_set_self hino
  have hother : ∀ j, j ≠ ip → s'.ino j = s.ino j := fun j hj => ino_set_of_ne hino hj
  have hpc' : s'.pc p = .createNew ty dp name ip := by rw [hs', pc_goto_self]
  have hheld : (s.pc p).held = [dp] := by rw [hpc]; rfl
  have hdp : s.Known p dp := known_of_held (by rw [hheld]; simp)
  have hne : dp ≠ ip := by
    intro heq
    rw [heq, hfree] at hdir
    cases hdir
  have hty : ty ≠ .free := h.type_ne_free (by rw [hpc]; rfl)
  have hm : Moves s s' p := by
    rw [hs']
    refine Moves.goto rfl rfl rfl hrunning (fun i hi => ?_) ?_ (fun hn => by cases hn)
      (fun i hi => Or.inl ?_)
    · rcases List.mem_cons.mp hi with rfl | hi
      · exact Or.inl hdp
      · rw [List.mem_singleton.mp hi]
        exact Or.inr ⟨ty, dp, name, rfl⟩
    · intro heq
      exact hty (Option.some.inj heq)
    · rw [hheld] at hi
      rw [List.mem_singleton.mp hi]
      exact List.mem_cons_self
  -- nobody had the inode before
  have hlive : ∀ q, ¬ s.Has q ip := fun q hq => h.procs.live q ip hq hfree
  have hnot := h.graph.not_named hfree
  have hnamed : ∀ i, s'.Named i → s.Named i := fun i hi => named_blank hino hi
  have hcreate : ∀ q ty' dp' name', s.pc q ≠ .createNew ty' dp' name' ip := by
    intro q ty' dp' name' hq
    refine hlive q (has_of_held ?_)
    rw [hq]
    exact List.mem_cons_of_mem _ List.mem_cons_self
  obtain ⟨hg, hedges, hisDir⟩ := h.graph.ialloc hfree hip hino
  have hlinks := links_congr hedges hisDir
  have hpending : ∀ j, s'.pending j = s.pending j := by
    intro j
    have hp := hm.pending j
    rw [hpc', hpc] at hp
    exact hp
  have hnew : NewInode s' p ty dp name ip := by
    refine ⟨hself, fun hn => hnot (hnamed ip hn), fun heq => ?_, fun r hr => ?_, ?_, ?_⟩
    · have hroot := h.graph.root.1
      rw [← heq, hfree] at hroot
      cases hroot
    · by_contra hrp
      refine hlive r ?_
      rcases hr with hin | hcwd | hf
      · rw [hm.others r hrp] at hin
        exact Or.inl hin
      · rw [hs'] at hcwd
        exact Or.inr (Or.inl hcwd)
      · rw [hs'] at hf
        exact Or.inr (Or.inr hf)
    · rw [hother dp hne]
      exact ⟨hdir, h.dirOk hdp hdir (by rw [hpc]; rfl)⟩
    · rw [hother dp hne]
      exact hnone
  have hprocs : ProcInv s' := by
    refine h.procs.keep hm (fun q i hi => ?_) (fun q i hi => ?_) (fun j => ?_)
      (fun i hi => known_of_named (hnamed i hi)) (fun d hd hsize => ?_)
      (fun ty' dp' name' ip' hp => ?_)
    · by_cases hii : i = ip
      · rw [hii, hself]
        exact hty
      · rw [hother i hii]
        refine (h.live_has hm hi).resolve_right (fun ⟨ty', dp', name', hp⟩ => hii ?_)
        rw [hpc'] at hp
        cases hp
        rfl
    · have hold : i ∈ (s.pc q).pending := by
        by_cases hqp : q = p
        · rw [hqp, hpc'] at hi
          cases hi
        · rw [hm.others q hqp] at hi
          exact hi
      have hii : i ≠ ip := by
        intro heq
        rw [heq] at hold
        exact hlive q (has_of_held (Pc.pending_subset_held _ ip hold))
      rw [hother i hii]
      exact h.procs.pending q i hold
    · by_cases hj : j = ip
      · rw [hj]
        refine Or.inr ⟨?_, fun q ty' dp' name' _ => hcreate q ty' dp' name'⟩
        rintro ⟨q, _, hq⟩
        generalize hb : s.pc q = b at hq
        cases b with
        | createNew ty' dp' name' ip' =>
          cases hq
          refine hlive q (has_of_held ?_)
          rw [hb]
          exact List.mem_cons_self
        | _ => cases hq
      · exact Or.inl (hother j hj)
    · by_cases hdi : d = ip
      · rw [hdi]
        exact Or.inr ⟨ty, dp, name, hpc'⟩
      · rw [hother d hdi] at hd hsize
        obtain ⟨q, ty', dp', name', hq⟩ := h.procs.unmade d hd hsize
        refine Or.inl ⟨q, ty', dp', name', fun hqp => ?_, hq⟩
        rw [hqp, hpc] at hq
        cases hq
    · rw [hpc'] at hp
      cases hp
      exact ⟨hnew, hlock, hfree⟩
  have hzero : s'.surplus ninodes ip = 0 := by
    obtain ⟨hl, hp⟩ := h.free_surplus hfree
    unfold State.surplus
    rw [hlinks, hpending, hl, hp, hself]
    rfl
  have hsurplus : ∀ j, j ≠ ip → s'.surplus ninodes j = s.surplus ninodes j := by
    intro j hj
    unfold State.surplus
    rw [hlinks, hpending, hother j hj]
  refine ⟨⟨hg, hprocs, fun j hj => ?_, by rw [hm.running]; simp⟩, hm, hedges, hzero, hsurplus⟩
  by_cases hji : j = ip
  · rw [hji, hzero]
  · rw [hother j hji] at hj
    rw [hsurplus j hji]
    exact h.nlink j hj

omit h hrunning in
/-- The last reference of an inode is gone after `iput`. -/
theorem not_has_of_refs {k : Pc} (hpc : s.pc p = .put i k) (hrefs : s.refs i = 1)
    (hcwd : t.cwd = s.cwd) (hfiles : t.files = s.files) (htpc : t.pc = s.pc) (q : P) :
    ¬ (t.goto p (.drop i k)).Has q i := by
  have hsum : ∑ r, ((if s.cwd r = some i then 1 else 0) + (s.pc r).refs.count i) + s.files i = 1 := by
    rw [Nat.add_comm]
    exact hrefs
  have hcount : (s.pc p).refs.count i = k.refs.count i + 1 := by
    rw [hpc]
    exact List.count_cons_self
  have hle := le_sum_tally (fun r => (if s.cwd r = some i then 1 else 0) + (s.pc r).refs.count i) p
  have hone := sum_eq_one (n := fun r => (if s.cwd r = some i then 1 else 0) +
    (s.pc r).refs.count i) (p := p) (by omega) (by omega)
  have hzero : ∀ r, s.cwd r ≠ some i := by
    intro r hr
    by_cases hrp : r = p
    · have hp := hone.1
      rw [← hrp, if_pos hr, hrp] at hp
      omega
    · have hr' := hone.2 r hrp
      simp only [if_pos hr] at hr'
      omega
  rintro (hin | ⟨r, hr⟩ | hf)
  · by_cases hqp : q = p
    · rw [hqp, pc_goto_self] at hin
      have hmem : i ∈ k.refs := Pc.held_subset_refs k i hin
      have hpos := List.count_pos_iff.mpr hmem
      have hp := hone.1
      omega
    · rw [pc_goto_of_ne hqp, htpc] at hin
      have hpos := List.count_pos_iff.mpr (Pc.held_subset_refs _ i hin)
      have hq := hone.2 q hqp
      omega
  · refine hzero r ?_
    rw [← hcwd]
    exact hr
  · have hf' : 0 < s.files i := by
      rw [← hfiles]
      exact hf
    omega

/-- `iput` frees an inode that `..` of no other directory names. -/
theorem FsInv.keep_freed {k : Pc} (hpc : s.pc p = .put i k)
    (hlock : ¬ s.Locked p i) (hnlink : (s.ino i).nlink = 0) (hrefs : s.refs i = 1)
    (hup : ∀ d j, d ≠ i → (s.ino d).type = .dir → (s.ino d).Used j →
      ((s.ino d).slot j).name = dotdot → ((s.ino d).slot j).inum ≠ i)
    (hs' : s' = (s.setIno i (State.blank .free)).goto p (.drop i k)) :
    FsInv ninodes s' ∧ Moves s s' p ∧
      s'.edges ninodes = (s.edges ninodes).filter (fun e => e.src ≠ i) ∧
      ∀ j, j ≠ i → s.surplus ninodes j ≤ s'.surplus ninodes j ∧
        ((∀ e ∈ s.edges ninodes, e.src ≠ i) → s'.surplus ninodes j = s.surplus ninodes j) := by
  have hino : s'.ino = (s.setIno i (State.blank .free)).ino := by rw [hs']; rfl
  have hself := ino_set_self hino
  have hother : ∀ j, j ≠ i → s'.ino j = s.ino j := fun j hj => ino_set_of_ne hino hj
  have hpc' : s'.pc p = .drop i k := by rw [hs', pc_goto_self]
  have hheld : (s.pc p).held = i :: k.held := by rw [hpc]; rfl
  have hi : s.Known p i := known_of_held (by rw [hheld]; simp)
  have hlive := h.live_of_known hi
  -- an inode without links is named by no entry but its own
  have hzero : s.links ninodes i = 0 := by
    have hs := h.nlink i hlive
    unfold State.surplus at hs
    omega
  have hin : ∀ e ∈ s.edges ninodes, e.dst ≠ i := by
    refine inDeg_eq_zero.mp ?_
    unfold State.links at hzero
    omega
  have hroot : i ≠ ROOTINO := by
    intro heq
    unfold State.links at hzero
    rw [if_pos heq] at hzero
    omega
  have hun : ∀ d j, d ≠ i → (s.ino d).type = .dir → (s.ino d).Used j →
      ((s.ino d).slot j).inum ≠ i := by
    intro d j hd hdir hused heq
    by_cases hdots : ((s.ino d).slot j).name = dotdot
    · exact hup d j hd hdir hused hdots heq
    rcases h.graph.dirs d hdir with hsize | hok
    · have hlt := hused.1
      rw [hsize] at hlt
      exact Nat.not_lt_zero _ hlt
    · by_cases hj : 2 ≤ j
      · have hord := hok.ordinary_iff.mpr ⟨hj, hused⟩
        have hdb := (h.graph.bound d (by rw [hdir]; simp)).2
        exact hin ⟨d, j, i⟩ (mem_edges.mpr ⟨hdb, hdir, hord, heq⟩) rfl
      · have hj' : j = 0 ∨ j = 1 := by omega
        rcases hj' with rfl | rfl
        · rw [hok.self] at heq
          exact hd heq
        · exact hdots hok.above.1
  obtain ⟨hg, hedges, hisDir⟩ := h.graph.freeInode hroot hun hin hino
  have hm : Moves s s' p := by
    rw [hs']
    refine Moves.goto rfl rfl rfl hrunning (fun j hj => Or.inl (known_of_held ?_)) ?_ (fun _ => ?_)
      (fun j hj => ?_)
    · rw [hheld]
      exact List.mem_cons_of_mem _ hj
    · have htypes := h.procs.types p
      rw [hpc] at htypes
      exact htypes
    · have hplain := h.procs.plain p
      rw [hpc] at hplain
      exact hplain rfl
    · rw [hheld] at hj
      rcases List.mem_cons.mp hj with rfl | hj
      · exact Or.inr ⟨k, hpc⟩
      · exact Or.inl hj
  have hgone : ∀ q, ¬ s'.Has q i := by
    intro q
    rw [hs']
    exact not_has_of_refs hpc hrefs rfl rfl rfl q
  have hpending : ∀ j, s'.pending j = s.pending j := by
    intro j
    have hp := hm.pending j
    rw [hpc', hpc] at hp
    exact Nat.add_right_cancel hp
  have hprocs : ProcInv s' := by
    refine h.procs.keep hm (fun q j hj => ?_) (fun q j hj => ?_) (fun j => ?_)
      (fun j hj => known_of_named (named_blank hino hj)) (fun d hd hsize => Or.inl ?_)
      (fun ty dp name ip hp => ?_)
    · have hji : j ≠ i := by
        intro heq
        rw [heq] at hj
        exact hgone q hj
      rw [hother j hji]
      refine (h.live_has hm hj).resolve_right (fun ⟨ty, dp, name, hp⟩ => ?_)
      rw [hpc'] at hp
      cases hp
    · have hji : j ≠ i := by
        intro heq
        rw [heq] at hj
        exact hgone q (has_of_held (Pc.pending_subset_held _ i hj))
      rw [hother j hji]
      by_cases hqp : q = p
      · rw [hqp, hpc'] at hj
        refine h.procs.pending p j ?_
        rw [hpc]
        exact hj
      · rw [hm.others q hqp] at hj
        exact h.procs.pending q j hj
    · by_cases hj : j = i
      · rw [hj]
        exact Or.inr ⟨hlock, h.not_new hi⟩
      · exact Or.inl (hother j hj)
    · have hdi : d ≠ i := by
        intro heq
        rw [heq, hself] at hd
        cases hd
      rw [hother d hdi] at hd hsize
      obtain ⟨q, ty, dp, name, hq⟩ := h.procs.unmade d hd hsize
      refine ⟨q, ty, dp, name, fun hqp => ?_, hq⟩
      rw [hqp, hpc] at hq
      cases hq
    · rw [hpc'] at hp
      cases hp
  have hsurplus : ∀ j, j ≠ i → s.surplus ninodes j ≤ s'.surplus ninodes j ∧
      ((∀ e ∈ s.edges ninodes, e.src ≠ i) → s'.surplus ninodes j = s.surplus ninodes j) := by
    intro j hj
    unfold State.surplus
    rw [hpending, hother j hj]
    refine ⟨?_, fun hall => ?_⟩
    · have hsub : s'.edges ninodes ⊆ s.edges ninodes := by
        rw [hedges]
        exact Finset.filter_subset _ _
      have hin' := inDeg_mono hsub j
      have hout := outDeg_mono s.isDir hsub j
      have hcongr : outDeg (s'.edges ninodes) s'.isDir j = outDeg (s'.edges ninodes) s.isDir j :=
        outDeg_congr (fun e he => hisDir e (hsub he))
      unfold State.links
      omega
    · have heq : s'.edges ninodes = s.edges ninodes := by
        rw [hedges]
        exact Finset.filter_true_of_mem hall
      rw [links_congr heq hisDir]
  refine ⟨⟨hg, hprocs, fun j hj => ?_, by rw [hm.running]; simp⟩, hm, hedges, hsurplus⟩
  have hji : j ≠ i := by
    intro heq
    rw [heq, hself] at hj
    exact hj rfl
  rw [hother j hji] at hj
  exact le_trans (h.nlink j hj) (hsurplus j hji).1

end effects

/-! ### Steps -/

section steps

variable [DecidableEq P] [Fintype P] {l : Label P}

/-- `..` of another directory names the inode. -/
def State.NamedAbove (ninodes : Nat) (s : State P) (i : Inum) : Prop :=
  ∃ d : Nat, d < ninodes ∧ d ≠ i ∧ (s.ino d).type = .dir ∧ ∃ j : Nat, j < (s.ino d).size ∧
    (s.ino d).Used j ∧ ((s.ino d).slot j).name = dotdot ∧ ((s.ino d).slot j).inum = i

instance (ninodes : Nat) (s : State P) (i : Inum) : Decidable (s.NamedAbove ninodes i) :=
  inferInstanceAs (Decidable (∃ d : Nat, d < ninodes ∧ _))

/-- The step does not free an inode that `..` of another directory names. -/
def Keeps (ninodes : Nat) (s : State P) (l : Label P) : Prop :=
  match s.pc l.proc with
  | .put i _ => (s.ino i).nlink = 0 → s.refs i = 1 → ¬ s.NamedAbove ninodes i
  | _ => True

instance (ninodes : Nat) (s : State P) (l : Label P) : Decidable (Keeps ninodes s l) := by
  unfold Keeps
  split
  · infer_instance
  · infer_instance

theorem Inode.Used.lt_size {j : Nat} (h : x.Used j) : j < x.size := by
  have hlt := h.1
  rw [show DIRENT = 16 from rfl] at hlt
  omega

theorem running_of_next (hst : next ninodes s l = some s') : s.panic = none := by
  unfold next at hst
  by_contra hpanic
  rw [if_pos hpanic] at hst
  cases hst

omit [DecidableEq P] in
theorem Keeps.dotdot_ne {k : Pc} (hk : Keeps ninodes s l) (h : FsInv ninodes s)
    (hpc : s.pc l.proc = .put i k) (hnlink : (s.ino i).nlink = 0) (hrefs : s.refs i = 1) :
    ∀ d j, d ≠ i → (s.ino d).type = .dir → (s.ino d).Used j →
      ((s.ino d).slot j).name = dotdot → ((s.ino d).slot j).inum ≠ i := by
  intro d j hd hdir hused hname heq
  unfold Keeps at hk
  rw [hpc] at hk
  exact hk hnlink hrefs ⟨d, (h.graph.bound d (by rw [hdir]; simp)).2, hd, hdir, j,
    hused.lt_size, hused, hname, heq⟩

/-- A step that meets the condition keeps the invariant. -/
theorem FsInv.step (h : FsInv ninodes s) (hk : Keeps ninodes s l)
    (hst : next ninodes s l = some s') : FsInv ninodes s' := by
  have hrunning := running_of_next hst
  cases h.effect hst with
  | stopped he => exact h.keep_stopped he
  | quiet hm hino hpend hold hnew => exact (h.keep_quiet hm hino hpend hold hnew).inv
  | alloc hpc hlock hdir hnone hfree hip =>
    exact (h.keep_alloc hrunning hpc hlock hdir hnone hfree hip rfl).1
  | made hpc hlock hx hle hfree => exact (h.keep_made hrunning hpc hlock hx hle hfree rfl).inv
  | removed hpc hlock hdir hord hslot hne hlock' _ =>
    exact (h.keep_removed hrunning hpc hlock hdir hord hslot hne hlock' rfl).inv
  | raised hpc hlock hdir hstart => exact (h.keep_raised hrunning _ hpc hlock hdir hstart rfl).inv
  | lowered hpc hlock => exact (h.keep_lowered hrunning hpc hlock rfl).inv
  | linked hpc hlock hdir hnone hle hfree =>
    exact (h.keep_linked hrunning hpc hlock hdir hnone hle hfree rfl).inv
  | freed hpc hlock hnlink hrefs =>
    exact (h.keep_freed hrunning hpc hlock hnlink hrefs (hk.dotdot_ne h hpc hnlink hrefs) rfl).1

end steps

end Xv6.Fs
