import Xv6.Fs.Inv

/-! # What a Step Does

    `Effect` lists what a step can do to the inodes of a file system that
    meets the invariant: nothing, or one of the changes of `ialloc`, `create`,
    `sys_unlink`, `sys_link` and `iput`. Every step has one of these effects.
-/

open LTS LinkTree

namespace Xv6.Fs

variable {P : Type} {ninodes : Nat} {s s' : State P} {p q : P} {i : Inum} {ty : IType} {dp : Inum}
  {b : Pc} {path : List Name}

/-! ### Inodes that a process can get at -/

theorem Pc.locks_createNew {pc : Pc} {name : Name} {ip : Inum} (h : pc = .createNew ty dp name ip) :
    pc.locks = some dp := by
  rw [h]
  rfl

theorem has_of_held (h : i ∈ (s.pc p).held) : s.Has p i := Or.inl h

theorem known_of_held (h : i ∈ (s.pc p).held) : s.Known p i := Or.inl (Or.inl h)

theorem known_of_cwd (h : s.cwd q = some i) : s.Known p i := Or.inl (Or.inr (Or.inl ⟨q, h⟩))

theorem known_of_named (h : s.Named i) : s.Known p i := Or.inr (Or.inr h)

/-- The inode that another process creates is out of reach. -/
theorem NewInode.eq_of_known {name : Name} {ip : Inum} (h : NewInode s q ty dp name ip)
    (hk : s.Known p ip) : p = q := by
  rcases hk with hhas | hroot | hnamed
  · exact h.alone p hhas
  · exact absurd hroot h.ne_root
  · exact absurd hnamed h.unnamed

section known

variable [Fintype P] (h : FsInv ninodes s)

include h

theorem FsInv.live_of_known (hk : s.Known p i) : (s.ino i).type ≠ .free := by
  rcases hk with hhas | rfl | ⟨d, k, hd, hk, rfl⟩
  · exact h.procs.live p i hhas
  · rw [h.graph.root.1]
    simp
  · exact h.graph.entries d k hd hk

/-- A directory that `p` can get at has been set up. -/
theorem FsInv.dirOk (hk : s.Known p i) (hdir : (s.ino i).type = .dir)
    (hp : (s.pc p).locks = none) : DirOk i (s.ino i) := by
  rcases h.graph.dirs i hdir with hsize | hok
  · obtain ⟨q, ty, dp, name, hq⟩ := h.procs.unmade i hdir hsize
    have heq := (h.procs.new q ty dp name i hq).eq_of_known hk
    rw [heq, Pc.locks_createNew hq] at hp
    cases hp
  · exact hok

end known

/-! ### Effects -/

/-- What a step of `p` leaves and keeps, whatever it does to the inodes. -/
structure Moves (s s' : State P) (p : P) : Prop where
  others : ∀ q, q ≠ p → s'.pc q = s.pc q
  known : ∀ i, s'.Has p i → s.Known p i ∨ ∃ ty dp name, s'.pc p = .createNew ty dp name i
  types : (s'.pc p).newType ≠ some .free
  plain : (s'.pc p).locks = none → (s'.pc p).plain = true
  running : s'.panic = none
  /-- only `iput` gives a reference up -/
  kept : ∀ i, s.Has p i → s'.Has p i ∨ ∃ k, s.pc p = .put i k

/-- A new inode, set up by `create`. -/
def Made (ty : IType) (dp ip : Inum) (x : Inode) : Prop :=
  x.type = ty ∧ x.nlink = 1 ∧
    if ty = .dir then x.size = 2 * DIRENT ∧ x.slot 0 = ⟨ip, dot⟩ ∧ x.slot 1 = ⟨dp, dotdot⟩
    else x.size = 0 ∧ x.slot = (State.blank ty).slot

variable [DecidableEq P] [Fintype P]

/-- What a step of `p` does. -/
inductive Effect (ninodes : Nat) (s : State P) (p : P) : State P → Prop where
  | stopped {e : FsPanic} (he : e ≠ .ilockNoType) : Effect ninodes s p (s.stop e)
  | quiet {s' : State P} (hm : Moves s s' p) (hino : s'.ino = s.ino)
      (hpend : (s'.pc p).pending = (s.pc p).pending) (hold : (s.pc p).locks = none)
      (hnew : (s'.pc p).locks = none) : Effect ninodes s p s'
  /-- `ialloc` in `create` -/
  | alloc {ty : IType} {dp ip : Inum} {name : Name} (hpc : s.pc p = .create ty dp name)
      (hlock : ¬ s.Locked p dp) (hdir : (s.ino dp).type = .dir)
      (hnone : dirlookup (s.ino dp) name = .ok none) (hfree : (s.ino ip).type = .free)
      (hip : ip ≠ 0 ∧ ip < ninodes) :
      Effect ninodes s p ((s.setIno ip (State.blank ty)).goto p (.createNew ty dp name ip))
  /-- the rest of `create` -/
  | made {ty : IType} {dp ip : Inum} {name : Name} {x : Inode} {k : Nat}
      (hpc : s.pc p = .createNew ty dp name ip) (hlock : ¬ s.Locked p ip)
      (hx : Made ty dp ip x) (hle : DIRENT * k ≤ (s.ino dp).size) (hfree : ¬ (s.ino dp).Used k) :
      Effect ninodes s p (((s.setIno ip x).setIno dp
        { (s.ino dp).write k ⟨ip, name⟩ with
          nlink := (s.ino dp).nlink + if ty = .dir then 1 else 0 }).goto p
        (.put dp (if ty = .file then .filealloc ip else .put ip .idle)))
  /-- `sys_unlink` -/
  | removed {dp ip : Inum} {name : Name} {k : Nat} (hpc : s.pc p = .unlink dp name)
      (hlock : ¬ s.Locked p dp) (hdir : (s.ino dp).type = .dir) (hord : (s.ino dp).Ordinary k)
      (hslot : ((s.ino dp).slot k).inum = ip) (hne : ip ≠ dp) (hlock' : ¬ s.Locked p ip)
      (hempty : (s.ino ip).type = .dir → ∀ j, 2 ≤ j → ¬ (s.ino ip).Used j) :
      Effect ninodes s p (((s.setIno dp
        { (s.ino dp).write k ⟨0, []⟩ with
          nlink := (s.ino dp).nlink - if (s.ino ip).type = .dir then 1 else 0 }).setIno ip
        { s.ino ip with nlink := (s.ino ip).nlink - 1 }).goto p (.put dp (.put ip .idle)))
  /-- `ip->nlink++` in `sys_link` -/
  | raised {ip j : Inum} {new : Path} {path : List Name} (hpc : s.pc p = .linkInc ip new)
      (hlock : ¬ s.Locked p ip) (hdir : (s.ino ip).type ≠ .dir)
      (hstart : j = ROOTINO ∨ s.cwd p = some j) :
      Effect ninodes s p ((s.setIno ip { s.ino ip with nlink := (s.ino ip).nlink + 1 }).goto p
        (.walk (.linkNew ip) j path))
  /-- `ip->nlink--` in `sys_link` -/
  | lowered {ip : Inum} (hpc : s.pc p = .linkBad ip) (hlock : ¬ s.Locked p ip) :
      Effect ninodes s p ((s.setIno ip { s.ino ip with nlink := (s.ino ip).nlink - 1 }).goto p
        (.put ip .idle))
  /-- `dirlink` in `sys_link` -/
  | linked {dp ip : Inum} {name : Name} {k : Nat} (hpc : s.pc p = .linkDir ip dp name)
      (hlock : ¬ s.Locked p dp) (hdir : (s.ino dp).type = .dir)
      (hnone : dirlookup (s.ino dp) name = .ok none) (hle : DIRENT * k ≤ (s.ino dp).size)
      (hfree : ¬ (s.ino dp).Used k) :
      Effect ninodes s p ((s.setIno dp ((s.ino dp).write k ⟨ip, name⟩)).goto p
        (.put dp (.put ip .idle)))
  /-- `iput` frees the inode -/
  | freed {i : Inum} {k : Pc} (hpc : s.pc p = .put i k) (hlock : ¬ s.Locked p i)
      (hnlink : (s.ino i).nlink = 0) (hrefs : s.refs i = 1) :
      Effect ninodes s p ((s.setIno i (State.blank .free)).goto p (.drop i k))

/-! ### Steps without an effect on the inodes -/

section

omit [Fintype P]

theorem pc_goto_self : (s.goto p b).pc p = b := Function.update_self _ _ _

theorem pc_goto_of_ne (h : q ≠ p) : (s.goto p b).pc q = s.pc q :=
  Function.update_of_ne h _ _

theorem has_goto :
    (s.goto p b).Has p i ↔ i ∈ b.held ∨ (∃ q, s.cwd q = some i) ∨ 0 < s.files i := by
  unfold State.Has
  rw [pc_goto_self]
  rfl

theorem exists_cwd_setCwd {o : Option Inum} :
    (∃ q, (s.setCwd p o).cwd q = some i) ↔ o = some i ∨ ∃ q, q ≠ p ∧ s.cwd q = some i := by
  have hself : (s.setCwd p o).cwd p = o := Function.update_self _ _ _
  have hother : ∀ q, q ≠ p → (s.setCwd p o).cwd q = s.cwd q :=
    fun q hqp => Function.update_of_ne hqp _ _
  constructor
  · rintro ⟨q, hq⟩
    by_cases hqp : q = p
    · rw [hqp, hself] at hq
      exact Or.inl hq
    · rw [hother q hqp] at hq
      exact Or.inr ⟨q, hqp, hq⟩
  · rintro (ho | ⟨q, hqp, hq⟩)
    · exact ⟨p, hself.trans ho⟩
    · exact ⟨q, (hother q hqp).trans hq⟩

end

omit [DecidableEq P] [Fintype P] in
theorem files_setFiles {j : Inum} {n : Nat} :
    (s.setFiles j n).files i = if i = j then n else s.files i :=
  Function.update_apply _ _ _ _

omit [Fintype P] in
/-- `p` goes on with what it had. -/
theorem Moves.goto {t : State P} (hpc : t.pc = s.pc) (hcwd : t.cwd = s.cwd)
    (hfiles : t.files = s.files) (hpanic : t.panic = none)
    (hheld : ∀ i ∈ b.held, s.Known p i ∨ ∃ ty dp name, b = .createNew ty dp name i)
    (htypes : b.newType ≠ some .free) (hplain : b.locks = none → b.plain = true)
    (hkept : ∀ i ∈ (s.pc p).held, i ∈ b.held ∨ ∃ k, s.pc p = .put i k) :
    Moves s (t.goto p b) p := by
  have hb : (t.goto p b).pc p = b := pc_goto_self
  refine ⟨fun q hq => ?_, fun i hi => ?_, ?_, ?_, hpanic, fun i hi => ?_⟩
  · rw [pc_goto_of_ne hq, hpc]
  · rw [hb]
    rcases hi with hin | ⟨q, hq⟩ | hf
    · rw [hb] at hin
      exact hheld i hin
    · have hq' : s.cwd q = some i := by rw [← hcwd]; exact hq
      exact Or.inl (known_of_cwd hq')
    · have hf' : 0 < s.files i := by rw [← hfiles]; exact hf
      exact Or.inl (Or.inl (Or.inr (Or.inr hf')))
  · rw [hb]
    exact htypes
  · rw [hb]
    exact hplain
  · rcases hi with hin | ⟨q, hq⟩ | hf
    · refine (hkept i hin).imp_left (fun hbin => Or.inl ?_)
      rw [hb]
      exact hbin
    · refine Or.inl (Or.inr (Or.inl ⟨q, ?_⟩))
      show t.cwd q = some i
      rw [hcwd]
      exact hq
    · refine Or.inl (Or.inr (Or.inr ?_))
      show 0 < t.files i
      rw [hfiles]
      exact hf

/-- A step that only moves `p`. -/
theorem Effect.goto (hpanic : s.panic = none) (hheld : ∀ i ∈ b.held, s.Known p i)
    (htypes : b.newType ≠ some .free)
    (hkept : ∀ i ∈ (s.pc p).held, i ∈ b.held ∨ ∃ k, s.pc p = .put i k)
    (hpend : b.pending = (s.pc p).pending) (hold : (s.pc p).locks = none) (hnew : b.plain = true) :
    Effect ninodes s p (s.goto p b) := by
  refine .quiet (Moves.goto rfl rfl rfl hpanic (fun i hi => Or.inl (hheld i hi)) htypes
    (fun _ => hnew) hkept) rfl ?_ hold ?_
  · rw [pc_goto_self]
    exact hpend
  · rw [pc_goto_self]
    exact Pc.locks_of_plain hnew

/-- A step that moves `p` with the references it has. -/
theorem Effect.goto_same (hpanic : s.panic = none) (hheld : ∀ i, i ∈ b.held ↔ i ∈ (s.pc p).held)
    (htypes : b.newType ≠ some .free) (hpend : b.pending = (s.pc p).pending)
    (hold : (s.pc p).locks = none) (hnew : b.plain = true) : Effect ninodes s p (s.goto p b) :=
  Effect.goto hpanic (fun i hi => known_of_held ((hheld i).mp hi)) htypes
    (fun i hi => Or.inl ((hheld i).mpr hi)) hpend hold hnew

/-! ### `ilock` -/

/-- Under the invariant, what is locked is allocated. -/
theorem ilock_inv {body : Option (State P)} (hlive : (s.ino i).type ≠ .free)
    (hst : s.ilock p i body = some s') : ¬ s.Locked p i ∧ body = some s' := by
  unfold State.ilock at hst
  by_cases hlock : s.Locked p i
  · rw [if_pos hlock] at hst
    cases hst
  · rw [if_neg hlock, if_neg hlive] at hst
    exact ⟨hlock, hst⟩

/-! ### Paths -/

section calls

variable (c : Call) (ip : Inum) (name : Name)

theorem held_failed : (State.failed c).held = c.refs := by
  cases c <;> rfl

theorem pending_failed : (State.failed c).pending = c.refs := by
  cases c <;> rfl

theorem newType_failed : (State.failed c).newType = none := by
  cases c <;> rfl

theorem plain_failed : (State.failed c).plain = true := by
  cases c <;> rfl

theorem mem_held_found : i ∈ (State.found c ip name).held ↔ i = ip ∨ i ∈ c.refs := by
  cases c <;> simp [State.found, Pc.held, Call.refs, or_comm]

theorem pending_found : (State.found c ip name).pending = c.refs := by
  cases c <;> rfl

theorem newType_found (path : List Name) :
    (State.found c ip name).newType = (Pc.walk c ip path).newType := by
  cases c <;> rfl

theorem plain_found : (State.found c ip name).plain = true := by
  cases c <;> rfl

end calls

section steps

variable (h : FsInv ninodes s) (hpanic : s.panic = none) {ip : Inum} {name : Name} {c : Call}

include h hpanic

omit hpanic in
/-- A call locks an inode that it has in hand. -/
theorem FsInv.ilock_held {b : Pc} {body : Option (State P)} (hpc : s.pc p = b) (hmem : i ∈ b.held)
    (hst : s.ilock p i body = some s') : s.Known p i ∧ ¬ s.Locked p i ∧ body = some s' := by
  have hknown : s.Known p i := known_of_held (by rw [hpc]; exact hmem)
  exact ⟨hknown, ilock_inv (h.live_of_known hknown) hst⟩

omit h in
/-- The path leads nowhere. -/
theorem effect_failed (hpc : s.pc p = .walk c ip path) :
    Effect ninodes s p (s.goto p (.put ip (State.failed c))) := by
  refine Effect.goto_same hpanic (fun i => ?_) ?_ ?_ ?_ (plain_failed c)
  · rw [hpc]
    show i ∈ ip :: (State.failed c).held ↔ i ∈ ip :: c.refs
    rw [held_failed]
  · show (State.failed c).newType ≠ _
    rw [newType_failed]
    simp
  · rw [hpc]
    exact pending_failed c
  · rw [hpc]
    rfl

theorem FsInv.effect_found (name : Name) (hpc : s.pc p = .walk c ip path) :
    Effect ninodes s p (s.goto p (State.found c ip name)) := by
  refine Effect.goto_same hpanic (fun i => ?_) ?_ ?_ ?_ (plain_found c ip name)
  · rw [mem_held_found, hpc]
    exact List.mem_cons.symm
  · rw [newType_found c ip name path, ← hpc]
    exact h.procs.types p
  · rw [hpc]
    exact pending_found c ip name
  · rw [hpc]
    rfl

omit hpanic [DecidableEq P] in
theorem FsInv.newType_ne {a b : Pc} (hpc : s.pc p = a)
    (htypes : b.newType = a.newType ∨ b.newType = none) : b.newType ≠ some .free := by
  rcases htypes with heq | hnone
  · rw [heq, ← hpc]
    exact h.procs.types p
  · rw [hnone]
    simp

/-- An `iput` at the end of a call, or the next part of it. -/
theorem FsInv.effect_next {a : Pc} (hpc : s.pc p = a) (hheld : b.held = a.held)
    (htypes : b.newType = a.newType ∨ b.newType = none) (hpend : b.pending = a.pending)
    (hold : a.locks = none) (hnew : b.plain = true) : Effect ninodes s p (s.goto p b) := by
  refine Effect.goto_same hpanic (fun i => ?_) (h.newType_ne hpc htypes) ?_ ?_ hnew
  · rw [hpc, hheld]
  · rw [hpc]
    exact hpend
  · rw [hpc]
    exact hold

/-- A call takes one more inode in hand. -/
theorem FsInv.effect_gain {a : Pc} (hpc : s.pc p = a) (hknown : s.Known p i)
    (hheld : ∀ j, j ∈ b.held ↔ j = i ∨ j ∈ a.held)
    (htypes : b.newType = a.newType ∨ b.newType = none) (hpend : b.pending = a.pending)
    (hold : a.locks = none) (hnew : b.plain = true) : Effect ninodes s p (s.goto p b) := by
  subst hpc
  refine Effect.goto hpanic (fun j hj => ?_) (h.newType_ne rfl htypes)
    (fun j hj => Or.inl ((hheld j).mpr (Or.inr hj))) hpend hold hnew
  rcases (hheld j).mp hj with rfl | hj
  · exact hknown
  · exact known_of_held hj

theorem FsInv.effect_walk (hpc : s.pc p = .walk c ip path) (hst : s.walk p c ip path = some s') :
    Effect ninodes s p s' := by
  cases path with
  | nil =>
    cases hst
    cases hparent : c.parent with
    | true => exact effect_failed hpanic hpc
    | false => exact h.effect_found hpanic [] hpc
  | cons name path =>
    obtain ⟨_, _, hbody⟩ := h.ilock_held hpc List.mem_cons_self hst
    by_cases hdir : (s.ino ip).type = .dir
    · rw [if_neg (not_not.mpr hdir)] at hbody
      by_cases hlast : c.parent ∧ path = []
      · rw [if_pos hlast] at hbody
        cases hbody
        exact h.effect_found hpanic name hpc
      · rw [if_neg hlast] at hbody
        rcases dirlookup_spec hdir (h.graph.whole ip hdir) name with
          ⟨hnone, _⟩ | ⟨k, hsome, hused, _⟩
        · rw [hnone] at hbody
          cases hbody
          exact effect_failed hpanic hpc
        · -- the walk goes on at the inode that the entry names
          rw [hsome] at hbody
          cases hbody
          refine h.effect_gain hpanic hpc (known_of_named ⟨ip, k, hdir, hused, rfl⟩) (fun j => ?_)
            (Or.inl (by cases c <;> rfl)) rfl rfl rfl
          simp [Pc.held, or_left_comm]
    · rw [if_pos hdir] at hbody
      cases hbody
      exact effect_failed hpanic hpc

theorem FsInv.effect_create (hpc : s.pc p = .create ty dp name)
    (hst : s.create ninodes p ty dp name = some s') : Effect ninodes s p s' := by
  obtain ⟨hknown, hlock, hbody⟩ := h.ilock_held hpc List.mem_cons_self hst
  by_cases hdir : (s.ino dp).type = .dir
  · rcases dirlookup_spec hdir (h.graph.whole dp hdir) name with ⟨hnone, _⟩ | ⟨k, hsome, hused, _⟩
    · rw [hnone] at hbody
      simp only at hbody
      cases hfind : s.freeInode ninodes with
      | none =>
        rw [hfind] at hbody
        cases hbody
        exact .stopped (by simp)
      | some ip =>
        rw [hfind] at hbody
        cases hbody
        have hfree := List.find?_some hfind
        have hin := List.mem_of_find?_eq_some hfind
        rw [List.mem_range'_1] at hin
        have hlt : ip < 1 + (ninodes - 1) := hin.2
        exact .alloc hpc hlock hdir hnone (of_decide_eq_true hfree)
          ⟨Nat.one_le_iff_ne_zero.mp hin.1, Nat.lt_of_lt_of_le hlt (by have := hin.1; omega)⟩
    · rw [hsome] at hbody
      cases hbody
      exact h.effect_gain hpanic hpc (known_of_named ⟨dp, k, hdir, hused, rfl⟩)
        (fun j => by simp [Pc.held, or_comm]) (Or.inl rfl) rfl rfl rfl
  · have herr : dirlookup (s.ino dp) name = .error .dirlookupNotDir := if_pos hdir
    rw [herr] at hbody
    cases hbody
    exact .stopped (by simp)

theorem FsInv.effect_createOld (hpc : s.pc p = .createOld ty ip)
    (hst : s.createOld p ty ip = some s') : Effect ninodes s p s' := by
  obtain ⟨hknown, _, hbody⟩ := h.ilock_held hpc List.mem_cons_self hst
  split at hbody
  · cases hbody
    exact h.effect_next hpanic hpc rfl (Or.inr rfl) rfl rfl rfl
  · cases hbody
    exact h.effect_next hpanic hpc rfl (Or.inr rfl) rfl rfl rfl

omit hpanic in
theorem FsInv.effect_createNew (hpc : s.pc p = .createNew ty dp name ip)
    (hst : s.createNew p ty dp name ip = some s') : Effect ninodes s p s' := by
  obtain ⟨hknown, hlock, hbody⟩ := h.ilock_held hpc (List.mem_cons_of_mem _ List.mem_cons_self) hst
  have hnew := h.procs.new p ty dp name ip hpc
  obtain ⟨hdir, hok⟩ := hnew.parent
  have hip : ip ≠ 0 := (h.graph.bound ip (h.live_of_known hknown)).1
  -- the inode that has been set up
  have hmade : ∃ x, Made ty dp ip x ∧
      (if ty = .dir then State.dots { s.ino ip with nlink := 1 } ip dp
        else .ok { s.ino ip with nlink := 1 }) = .ok x := by
    rw [hnew.blank]
    by_cases hty : ty = .dir
    · rw [if_pos hty]
      obtain ⟨x, hx, htype, hnlink, hrest⟩ :=
        dots_spec (x := { State.blank ty with nlink := 1 }) ip dp hty rfl hip
      refine ⟨x, ⟨by rw [htype, hty], hnlink, ?_⟩, hx⟩
      rw [if_pos hty]
      exact hrest
    · rw [if_neg hty]
      refine ⟨_, ⟨rfl, rfl, ?_⟩, rfl⟩
      rw [if_neg hty]
      exact ⟨rfl, rfl⟩
  obtain ⟨x, hx, heq⟩ := hmade
  simp only [heq] at hbody
  -- the directory with one more link, if it gets a subdirectory
  obtain ⟨d, hd⟩ : ∃ d : Inode, d = { s.ino dp with
      nlink := (s.ino dp).nlink + if ty = .dir then 1 else 0 } := ⟨_, rfl⟩
  have hd₁ : (if ty = .dir then { s.ino dp with nlink := (s.ino dp).nlink + 1 } else s.ino dp) =
      d := by
    rw [hd]
    split
    · rfl
    · rw [add_zero]
  rw [hd₁] at hbody
  have hdir₁ : d.type = .dir := by
    rw [hd]
    exact hdir
  have hwhole : DIRENT ∣ d.size := by
    rw [hd]
    exact h.graph.whole dp hdir
  have hlookup : dirlookup d name = .ok none := by
    rw [hd, dirlookup_setNlink]
    exact hnew.absent
  rcases dirlink_spec hdir₁ hwhole name ip with ⟨k, hk, _⟩ | ⟨_, k, hle, hfree, hlink⟩
  · rw [hlookup] at hk
    cases hk
  · rw [hlink] at hbody
    by_cases hroom : MAXFILE * BSIZE < DIRENT * k + DIRENT
    · rw [if_pos hroom] at hbody
      cases hbody
      exact .stopped (by simp)
    · rw [if_neg hroom] at hbody
      cases hbody
      rw [hd] at hle hfree ⊢
      exact .made hpc hlock hx hle hfree

theorem FsInv.effect_unlink (hpc : s.pc p = .unlink dp name) (hst : s.unlink p dp name = some s') :
    Effect ninodes s p s' := by
  obtain ⟨hknown, hlock, hbody⟩ := h.ilock_held hpc List.mem_cons_self hst
  by_cases hdots : name = dot ∨ name = dotdot
  · rw [if_pos hdots] at hbody
    cases hbody
    exact h.effect_next hpanic hpc rfl (Or.inr rfl) rfl rfl rfl
  rw [if_neg hdots] at hbody
  by_cases hdir : (s.ino dp).type = .dir
  · rcases dirlookup_spec hdir (h.graph.whole dp hdir) name with
      ⟨hnone, _⟩ | ⟨k, hsome, hused, hname⟩
    · rw [hnone] at hbody
      cases hbody
      exact h.effect_next hpanic hpc rfl (Or.inr rfl) rfl rfl rfl
    · rw [hsome] at hbody
      simp only at hbody
      obtain ⟨ip, hip⟩ : ∃ ip, ((s.ino dp).slot k).inum = ip := ⟨_, rfl⟩
      rw [hip] at hbody
      by_cases hne : ip = dp
      · rw [if_pos hne] at hbody
        cases hbody
      rw [if_neg hne] at hbody
      have hknown' : s.Known p ip := known_of_named ⟨dp, k, hdir, hused, hip⟩
      obtain ⟨hlock', hbody⟩ := ilock_inv (h.live_of_known hknown') hbody
      have hord : (s.ino dp).Ordinary k := by
        refine ⟨hused, ?_⟩
        rw [hname]
        exact not_or.mp hdots
      have hempty : ∃ b, (if (s.ino ip).type = .dir then isdirempty (s.ino ip) else .ok true) =
          .ok b ∧ (b = true → (s.ino ip).type = .dir → ∀ j, 2 ≤ j → ¬ (s.ino ip).Used j) := by
        by_cases hipdir : (s.ino ip).type = .dir
        · rw [if_pos hipdir]
          obtain ⟨b, hb, hiff⟩ := isdirempty_spec (h.graph.whole ip hipdir)
          exact ⟨b, hb, fun htrue _ => hiff.mp htrue⟩
        · rw [if_neg hipdir]
          exact ⟨true, rfl, fun _ hd => absurd hd hipdir⟩
      obtain ⟨b, hb, hnone⟩ := hempty
      by_cases hnlink : (s.ino ip).nlink < 1
      · rw [if_pos hnlink] at hbody
        cases hbody
        exact .stopped (by simp)
      rw [if_neg hnlink, hb] at hbody
      cases b with
      | false =>
        cases hbody
        exact h.effect_gain hpanic hpc hknown' (fun j => by simp [Pc.held]) (Or.inr rfl) rfl rfl rfl
      | true =>
        cases hbody
        have hd : (if (s.ino ip).type = .dir then
            { (s.ino dp).write k ⟨0, []⟩ with nlink := ((s.ino dp).write k ⟨0, []⟩).nlink - 1 }
            else (s.ino dp).write k ⟨0, []⟩) =
            { (s.ino dp).write k ⟨0, []⟩ with
              nlink := (s.ino dp).nlink - if (s.ino ip).type = .dir then 1 else 0 } := by
          split
          · rfl
          · rw [sub_zero]
            rfl
        rw [hd]
        exact .removed hpc hlock hdir hord hip hne hlock' (hnone rfl)
  · have herr : dirlookup (s.ino dp) name = .error .dirlookupNotDir := if_pos hdir
    rw [herr] at hbody
    cases hbody
    exact .stopped (by simp)

theorem FsInv.effect_linkInc {new : Path} (hpc : s.pc p = .linkInc ip new)
    (hst : s.linkInc p ip new = some s') : Effect ninodes s p s' := by
  obtain ⟨hknown, hlock, hbody⟩ := h.ilock_held hpc List.mem_cons_self hst
  by_cases hdir : (s.ino ip).type = .dir
  · rw [if_pos hdir] at hbody
    cases hbody
    exact h.effect_next hpanic hpc rfl (Or.inr rfl) rfl rfl rfl
  · rw [if_neg hdir] at hbody
    unfold State.namex at hbody
    split at hbody
    · cases hbody
    · next cwd hcwd =>
      cases hbody
      refine .raised hpc hlock hdir ?_
      split
      · exact Or.inl rfl
      · exact Or.inr hcwd

theorem FsInv.effect_linkDir (hpc : s.pc p = .linkDir ip dp name)
    (hst : s.linkDir p ip dp name = some s') : Effect ninodes s p s' := by
  obtain ⟨hknown, hlock, hbody⟩ := h.ilock_held hpc (List.mem_cons_of_mem _ List.mem_cons_self) hst
  by_cases hdir : (s.ino dp).type = .dir
  · have hwhole := h.graph.whole dp hdir
    rcases dirlink_spec hdir hwhole name ip with ⟨k, hk, hlink⟩ | ⟨hnone, k, hle, hfree, hlink⟩
    · rw [hlink] at hbody
      cases hbody
      have hused : (s.ino dp).Used k := by
        rcases dirlookup_spec hdir hwhole name with ⟨hnone, _⟩ | ⟨j, hj, hused, _⟩
        · rw [hk] at hnone
          cases hnone
        · rw [hk] at hj
          cases hj
          exact hused
      exact h.effect_gain hpanic hpc (known_of_named ⟨dp, k, hdir, hused, rfl⟩)
        (fun j => by simp [Pc.held, or_comm]) (Or.inr rfl) rfl rfl rfl
    · rw [hlink] at hbody
      by_cases hroom : MAXFILE * BSIZE < DIRENT * k + DIRENT
      · rw [if_pos hroom] at hbody
        cases hbody
        exact .stopped (by simp)
      · rw [if_neg hroom] at hbody
        cases hbody
        exact .linked hpc hlock hdir hnone hle hfree
  · have herr : dirlink (s.ino dp) name ip = .error .dirlookupNotDir := by
      unfold dirlink dirlookup
      rw [if_pos hdir]
      rfl
    rw [herr] at hbody
    cases hbody
    exact .stopped (by simp)

omit hpanic in
theorem FsInv.effect_linkBad (hpc : s.pc p = .linkBad ip) (hst : s.linkBad p ip = some s') :
    Effect ninodes s p s' := by
  obtain ⟨hknown, hlock, hbody⟩ := h.ilock_held hpc List.mem_cons_self hst
  cases hbody
  exact .lowered hpc hlock

theorem FsInv.effect_openOld {rdonly : Bool} (hpc : s.pc p = .open rdonly ip)
    (hst : s.openOld p rdonly ip = some s') : Effect ninodes s p s' := by
  obtain ⟨hknown, _, hbody⟩ := h.ilock_held hpc List.mem_cons_self hst
  split at hbody
  · cases hbody
    exact h.effect_next hpanic hpc rfl (Or.inr rfl) rfl rfl rfl
  · cases hbody
    exact h.effect_next hpanic hpc rfl (Or.inr rfl) rfl rfl rfl

theorem FsInv.effect_put {k : Pc} (hpc : s.pc p = .put i k) (hst : s.put p i k = some s') :
    Effect ninodes s p s' := by
  unfold State.put at hst
  by_cases hlock : s.Locked p i
  · rw [if_pos hlock] at hst
    cases hst
  rw [if_neg hlock] at hst
  by_cases hlast : (s.ino i).nlink = 0 ∧ s.refs i = 1
  · rw [if_pos hlast] at hst
    cases hst
    exact .freed hpc hlock hlast.1 hlast.2
  · rw [if_neg hlast] at hst
    cases hst
    have hplain := h.procs.plain p
    rw [hpc] at hplain
    refine Effect.goto hpanic (fun j hj => ?_) ?_ (fun j hj => ?_) ?_ ?_ (hplain rfl)
    · refine known_of_held ?_
      rw [hpc]
      exact List.mem_cons_of_mem _ hj
    · have htypes := h.procs.types p
      rw [hpc] at htypes
      exact htypes
    · rw [hpc] at hj
      rcases List.mem_cons.mp hj with rfl | hj
      · exact Or.inr ⟨k, hpc⟩
      · exact Or.inl hj
    · rw [hpc]
      rfl
    · rw [hpc]
      rfl

theorem FsInv.effect_drop {k : Pc} (hpc : s.pc p = .drop i k) :
    Effect ninodes s p (s.goto p k) := by
  have hplain := h.procs.plain p
  rw [hpc] at hplain
  exact h.effect_next hpanic hpc rfl (Or.inl rfl) rfl rfl (hplain rfl)

omit h in
/-- The directory that a path starts at. -/
theorem effect_namex {path : Path} (hpc : s.pc p = .idle) (hrefs : c.refs = [])
    (htypes : c ≠ .create .free) (hst : s.namex p c path = some s') : Effect ninodes s p s' := by
  unfold State.namex at hst
  split at hst
  · cases hst
  · next cwd hcwd =>
    cases hst
    refine Effect.goto hpanic (fun i hi => ?_) ?_ (fun i hi => ?_) ?_ ?_ rfl
    · have hi' : i = if path.isAbs then ROOTINO else cwd := by
        simpa [Pc.held, hrefs] using hi
      rw [hi']
      split
      · exact Or.inr (Or.inl rfl)
      · exact known_of_cwd hcwd
    · intro hfree
      refine htypes ?_
      cases c with
      | create ty =>
        cases hfree
        rfl
      | _ => cases hfree
    · rw [hpc] at hi
      cases hi
    · rw [hpc]
      exact hrefs
    · rw [hpc]
      rfl

omit h hpanic in
/-- A reference passes between a call, a current directory and the open
    files. -/
theorem effect_passed {t : State P} (hino : t.ino = s.ino) (hpcs : t.pc = s.pc)
    (hrunning : t.panic = none) (hknown : ∀ i, (t.goto p b).Has p i → s.Known p i)
    (hkept : ∀ i, s.Has p i → (t.goto p b).Has p i) (htypes : b.newType = none)
    (hpend : b.pending = (s.pc p).pending) (hold : (s.pc p).locks = none) (hnew : b.plain = true) :
    Effect ninodes s p (t.goto p b) := by
  have hb : (t.goto p b).pc p = b := pc_goto_self
  refine .quiet ⟨fun q hq => ?_, fun i hi => Or.inl (hknown i hi), ?_, fun _ => ?_, hrunning,
    fun i hi => Or.inl (hkept i hi)⟩ hino ?_ hold ?_
  · rw [pc_goto_of_ne hq, hpcs]
  · rw [hb, htypes]
    simp
  · rw [hb]
    exact hnew
  · rw [hb]
    exact hpend
  · rw [hb]
    exact Pc.locks_of_plain hnew

omit h in
/-- A process leaves its current directory. -/
theorem effect_setCwd {o : Option Inum} {cwd : Inum} (hcwd : s.cwd p = some cwd)
    (ho : ∀ i, o = some i → s.Known p i) (hheld : ∀ i ∈ (s.pc p).held, o = some i)
    (hpend : (s.pc p).pending = []) (hold : (s.pc p).locks = none) :
    Effect ninodes s p ((s.setCwd p o).goto p (.put cwd .idle)) := by
  refine effect_passed rfl rfl hpanic (fun i hi => ?_) (fun i hi => has_goto.mpr ?_) rfl
    hpend.symm hold rfl
  · rcases has_goto.mp hi with hin | hcwd' | hf
    · rw [List.mem_singleton.mp hin]
      exact known_of_cwd hcwd
    · rcases exists_cwd_setCwd.mp hcwd' with heq | ⟨q, _, hq⟩
      · exact ho i heq
      · exact known_of_cwd hq
    · exact Or.inl (Or.inr (Or.inr hf))
  · rcases hi with hin | ⟨q, hq⟩ | hf
    · exact Or.inr (Or.inl (exists_cwd_setCwd.mpr (Or.inl (hheld i hin))))
    · by_cases hqp : q = p
      · rw [hqp, hcwd] at hq
        cases hq
        exact Or.inl List.mem_cons_self
      · exact Or.inr (Or.inl (exists_cwd_setCwd.mpr (Or.inr ⟨q, hqp, hq⟩)))
    · exact Or.inr (Or.inr hf)

theorem FsInv.effect_chdir (hpc : s.pc p = .chdir ip) (hst : s.chdir p ip = some s') :
    Effect ninodes s p s' := by
  obtain ⟨hknown, _, hbody⟩ := h.ilock_held hpc List.mem_cons_self hst
  by_cases hdir : (s.ino ip).type = .dir
  · rw [if_neg (not_not.mpr hdir)] at hbody
    split at hbody
    · cases hbody
    · next old hcwd =>
      cases hbody
      refine effect_setCwd hpanic hcwd (fun i hi => ?_) (fun i hi => ?_) (by rw [hpc]; rfl)
        (by rw [hpc]; rfl)
      · cases hi
        exact hknown
      · rw [hpc] at hi
        rw [List.mem_singleton.mp hi]
  · rw [if_pos hdir] at hbody
    cases hbody
    exact h.effect_next hpanic hpc rfl (Or.inr rfl) rfl rfl rfl

section

omit h

theorem effect_filealloc (hpc : s.pc p = .filealloc ip) :
    Effect ninodes s p ((s.setFiles ip (s.files ip + 1)).goto p .idle) := by
  refine effect_passed rfl rfl hpanic (fun i hi => ?_) (fun i hi => has_goto.mpr ?_) rfl
    (by rw [hpc]; rfl) (by rw [hpc]; rfl) rfl
  · rcases has_goto.mp hi with hin | ⟨q, hq⟩ | hf
    · cases hin
    · exact known_of_cwd hq
    · rw [files_setFiles] at hf
      by_cases hip : i = ip
      · refine known_of_held ?_
        rw [hpc, hip]
        exact List.mem_cons_self
      · rw [if_neg hip] at hf
        exact Or.inl (Or.inr (Or.inr hf))
  · rcases hi with hin | hq | hf
    · rw [hpc] at hin
      rw [List.mem_singleton.mp hin, files_setFiles, if_pos rfl]
      exact Or.inr (Or.inr (Nat.succ_pos _))
    · exact Or.inr (Or.inl hq)
    · refine Or.inr (Or.inr ?_)
      rw [files_setFiles]
      split
      · exact Nat.succ_pos _
      · exact hf

theorem effect_close (hpc : s.pc p = .idle) (hfiles : 0 < s.files i) :
    Effect ninodes s p ((s.setFiles i (s.files i - 1)).goto p (.put i .idle)) := by
  refine effect_passed rfl rfl hpanic (fun j hj => ?_) (fun j hj => has_goto.mpr ?_) rfl
    (by rw [hpc]; rfl) (by rw [hpc]; rfl) rfl
  · rcases has_goto.mp hj with hin | ⟨q, hq⟩ | hf
    · rw [List.mem_singleton.mp hin]
      exact Or.inl (Or.inr (Or.inr hfiles))
    · exact known_of_cwd hq
    · rw [files_setFiles] at hf
      refine Or.inl (Or.inr (Or.inr ?_))
      by_cases hji : j = i
      · rw [hji]
        exact hfiles
      · rw [if_neg hji] at hf
        exact hf
  · rcases hj with hin | hq | hf
    · rw [hpc] at hin
      cases hin
    · exact Or.inr (Or.inl hq)
    · by_cases hji : j = i
      · rw [hji]
        exact Or.inl List.mem_cons_self
      · refine Or.inr (Or.inr ?_)
        rw [files_setFiles, if_neg hji]
        exact hf

theorem effect_exit {cwd : Inum} (hpc : s.pc p = .idle) (hcwd : s.cwd p = some cwd) :
    Effect ninodes s p ((s.setCwd p none).goto p (.put cwd .idle)) := by
  refine effect_setCwd hpanic hcwd (fun i hi => by cases hi) (fun i hi => ?_) (by rw [hpc]; rfl)
    (by rw [hpc]; rfl)
  rw [hpc] at hi
  cases hi

theorem effect_fork (hpc : s.pc p = .idle) (hq : s.cwd q = none) :
    Effect ninodes s p (s.setCwd q (s.cwd p)) := by
  refine .quiet ⟨fun _ _ => rfl, fun i hi => Or.inl ?_, ?_, fun _ => ?_, hpanic,
    fun i hi => Or.inl ?_⟩ rfl rfl ?_ ?_
  · rcases hi with hin | hcwd | hf
    · exact known_of_held hin
    · rcases exists_cwd_setCwd.mp hcwd with heq | ⟨r, _, hr⟩
      · exact known_of_cwd heq
      · exact known_of_cwd hr
    · exact Or.inl (Or.inr (Or.inr hf))
  · show (s.pc p).newType ≠ _
    rw [hpc]
    simp [Pc.newType]
  · show (s.pc p).plain = true
    rw [hpc]
    rfl
  · rcases hi with hin | ⟨r, hr⟩ | hf
    · exact Or.inl hin
    · refine Or.inr (Or.inl (exists_cwd_setCwd.mpr (Or.inr ⟨r, fun heq => ?_, hr⟩)))
      rw [heq, hq] at hr
      cases hr
    · exact Or.inr (Or.inr hf)
  · rw [hpc]
    rfl
  · show (s.pc p).locks = none
    rw [hpc]
    rfl

end

/-- The next step of a call. -/
theorem FsInv.effect_run (hst : s.run ninodes p (s.pc p) = some s') :
    Effect ninodes s p s' := by
  generalize hpc : s.pc p = pc at hst
  cases pc with
  | idle => cases hst
  | walk c ip path => exact h.effect_walk hpanic hpc hst
  | create ty dp name => exact h.effect_create hpanic hpc hst
  | createOld ty ip => exact h.effect_createOld hpanic hpc hst
  | createNew ty dp name ip => exact h.effect_createNew hpc hst
  | unlink dp name => exact h.effect_unlink hpanic hpc hst
  | linkInc ip new => exact h.effect_linkInc hpanic hpc hst
  | linkDir ip dp name => exact h.effect_linkDir hpanic hpc hst
  | linkBad ip => exact h.effect_linkBad hpc hst
  | chdir ip => exact h.effect_chdir hpanic hpc hst
  | «open» rdonly ip => exact h.effect_openOld hpanic hpc hst
  | filealloc ip =>
    cases hst
    exact effect_filealloc hpanic hpc
  | put i k => exact h.effect_put hpanic hpc hst
  | drop i k =>
    cases hst
    exact h.effect_drop hpanic hpc

end steps

/-! ### Steps -/

/-- The process that takes the step. -/
def Label.proc : Label P → P
  | .create p _ _ | .open p _ _ | .unlink p _ | .link p _ _ | .chdir p _ | .close p _
  | .fork p _ | .exit p | .run p | .noFile p => p

/-- Every step has one of the effects. -/
theorem FsInv.effect {l : Label P} (h : FsInv ninodes s) (hst : next ninodes s l = some s') :
    Effect ninodes s l.proc s' := by
  unfold next at hst
  by_cases hpanic : s.panic = none
  · rw [if_neg (not_not.mpr hpanic)] at hst
    cases l with
    | create p ty path =>
      obtain ⟨⟨hpc, hty⟩, hst⟩ := Option.ite_none_right_eq_some.mp hst
      exact effect_namex hpanic hpc rfl (fun heq => hty (Call.create.inj heq)) hst
    | «open» p rdonly path =>
      obtain ⟨hpc, hst⟩ := Option.ite_none_right_eq_some.mp hst
      exact effect_namex hpanic hpc rfl (fun heq => by cases heq) hst
    | unlink p path =>
      obtain ⟨hpc, hst⟩ := Option.ite_none_right_eq_some.mp hst
      exact effect_namex hpanic hpc rfl (fun heq => by cases heq) hst
    | link p old new =>
      obtain ⟨hpc, hst⟩ := Option.ite_none_right_eq_some.mp hst
      exact effect_namex hpanic hpc rfl (fun heq => by cases heq) hst
    | chdir p path =>
      obtain ⟨hpc, hst⟩ := Option.ite_none_right_eq_some.mp hst
      exact effect_namex hpanic hpc rfl (fun heq => by cases heq) hst
    | close p i =>
      obtain ⟨⟨hpc, _, hfiles⟩, hst⟩ := Option.ite_none_right_eq_some.mp hst
      cases hst
      exact effect_close hpanic hpc hfiles
    | fork p q =>
      obtain ⟨⟨hpc, _, _, hq⟩, hst⟩ := Option.ite_none_right_eq_some.mp hst
      cases hst
      exact effect_fork hpanic hpc hq
    | exit p =>
      simp only at hst
      split at hst
      · cases hst
      · next cwd hcwd =>
        obtain ⟨hpc, hst⟩ := Option.ite_none_right_eq_some.mp hst
        cases hst
        exact effect_exit hpanic hpc hcwd
    | run p => exact h.effect_run hpanic hst
    | noFile p =>
      simp only at hst
      split at hst
      · next ip hpc =>
        cases hst
        exact h.effect_next hpanic hpc rfl (Or.inr rfl) rfl rfl rfl
      · cases hst
  · rw [if_pos hpanic] at hst
    cases hst

end Xv6.Fs
