import Xv6.Disk.Through

/-! # Runs of the System Calls over the Disk

    The directory functions and the calls keep the invariant of the inode cache,
    and so does every run that makes them one after the other.

    - `fsCalls`: the calls, on any inode that is in use
    - `no_holes_write_through`: in every state of every run, also inside the calls,
      no allocated inode has a hole, `readi` changes nothing, and the cache is
      write-through
    - `blocks_have_one_owner`, `readi_after_writei`: what the blocks hold
-/

namespace Xv6.Disk

open LTS Command

variable {C : Config} {L : Layout} {s s' : FsState} {k : NIdx}
  {base : Before} {l o : List NIdx} {off n : Nat} {panic : Stop} {name : Name} {path : Path}
  {dp ip : NIdx} {type : BitVec 16} {d : Image}

/-! ### Directories -/

theorem dirent_length (inum : Nat) (name : Name) : (dirent inum name).length = DIRENT := by
  simp [dirent, DIRSIZ, DIRENT]

/-- `de.inum` is a `ushort`. -/
theorem direntInum_dirent (inum : Nat) (name : Name) : direntInum (dirent inum name) ≤ inum := by
  unfold direntInum dirent
  simp only [List.cons_append, List.nil_append, List.getD_cons_zero, List.getD_cons_succ,
    BitVec.toNat_ofNat]
  omega

/-- A directory entry that was read in full names an inode that exists. -/
theorem entry_lt (h : CacheInv L s) (hu : (s.slot k).Used) (hv : (s.slot k).valid = true)
    (ht : (s.slot k).copy.type = T_DIR) (hoff : off % DIRENT = 0) {de : List Byte} {kern : Kern}
    (hread : readi C s.kern (s.slot k).copy off DIRENT = .ok (some de, (s.slot k).copy, kern))
    (hlen : de.length = DIRENT) : direntInum de < L.ninodes := by
  obtain ⟨hsync, hlt, _, hno⟩ := h.loaded hu hv
  have hdev : (s.slot k).copy.type ≠ T_DEV := by
    rw [ht]
    decide
  rw [readi_eq hno hdev (by decide)] at hread
  split at hread
  · cases hread
  · rename_i hrange
    have hD : DIRENT = 16 := rfl
    cases hread
    have hmin : min DIRENT ((s.slot k).copy.size.toNat - off) = DIRENT := by
      rw [← hlen]
      simp [fileBytes]
    have hend : off + DIRENT ≤ (s.slot k).copy.size.toNat := by omega
    rw [hmin]
    rw [hsync] at ht hend ⊢
    exact h.sound.dirs _ hlt ht off hoff hend

theorem scanLoop_holds {p : List Byte → Bool} (h : Holding L base l o s) (hk : k ∈ o) :
    ∀ (fuel off : Nat), off % DIRENT = 0 →
    (scanLoop C k panic p fuel off).Holds (CacheInv L) (fun r s' => s' = s ∧ r.1 % DIRENT = 0 ∧
      ∀ de, r.2 = some de → (s.slot k).copy.type = T_DIR → direntInum de < L.ninodes) s := by
  intro fuel
  induction fuel with
  | zero =>
    intro off hoff
    exact holds_pure ⟨rfl, hoff, fun de hde => by cases hde⟩
  | succ fuel ih =>
    intro off hoff
    rw [scanLoop]
    refine holds_read_bind h.inv ?_
    split
    · refine (read_holds h hk off (by decide)).bind ?_
      rintro r t ⟨_, rfl, kern, hread⟩
      cases r with
      | none => exact holds_fail
      | some de =>
        dsimp only
        split
        · exact holds_fail
        · rename_i hlen
          split
          · refine holds_pure ⟨rfl, hoff, fun de' hde ht => ?_⟩
            cases hde
            exact entry_lt h.inv (h.used (h.held k hk)) (h.locked k hk).2 ht hoff hread
              (Decidable.of_not_not hlen)
          · refine ih (off + DIRENT) ?_
            rw [Nat.add_mod_right]
            exact hoff
    · exact holds_pure ⟨rfl, hoff, fun de hde => by cases hde⟩

theorem scan_holds {p : List Byte → Bool} (h : Holding L base l o s) (hk : k ∈ o)
    (hoff : off % DIRENT = 0) :
    (scan C k panic p off).Holds (CacheInv L) (fun r s' => s' = s ∧ r.1 % DIRENT = 0 ∧
      ∀ de, r.2 = some de → (s.slot k).copy.type = T_DIR → direntInum de < L.ninodes) s :=
  holds_read_bind h.inv (scanLoop_holds h hk _ off hoff)

/-- `dirlookup` takes a reference to the inode that it finds. -/
theorem dirlookup_holds (h : Holding L base l o s) (hk : k ∈ o) :
    (dirlookup C k name).Holds (CacheInv L) (fun r s' =>
      match r with
      | none => Holding L base l o s'
      | some (ip, off) => Holding L base (ip :: l) o s' ∧ off % DIRENT = 0) s := by
  refine holds_read_bind h.inv (holds_failIf_bind fun ht => ?_)
  refine (scan_holds h hk rfl).bind ?_
  rintro ⟨off, found⟩ t ⟨rfl, hoff, hde⟩
  cases found with
  | none => exact holds_pure h
  | some de =>
    refine (iget_holds h (hde de rfl (Decidable.of_not_not ht))).bind ?_
    intro ip t' h'
    exact holds_pure ⟨h', hoff⟩

theorem dirlink_holds (hL : C.layout = L) {inum : Nat} (h : Holding L base l o s) (hk : k ∈ o)
    (hlt : inum < L.ninodes) :
    (dirlink C k name inum).Holds (CacheInv L) (fun _ s' => Holding L base l o s') s := by
  refine (dirlookup_holds h hk).bind ?_
  intro r t hr
  match r, hr with
  | some (ip, _), hr =>
    refine (iput_holds hL hr.1).bind ?_
    intro _ t' h'
    exact holds_pure h'
  | none, hr =>
    refine (scan_holds hr hk rfl).bind ?_
    rintro ⟨off, _⟩ t' ⟨rfl, hoff, _⟩
    refine (write_holds hL hr hk ?_ ?_).bind ?_
    · rw [dirent_length]
      decide
    · intro _
      exact ⟨hoff, dirent_length _ _, Nat.lt_of_le_of_lt (direntInum_dirent _ _) hlt⟩
    · rintro r' t'' ⟨h'', _, _⟩
      exact holds_failIf_bind fun _ => holds_pure h''

theorem isdirempty_holds (h : Holding L base l o s) (hk : k ∈ o) :
    (isdirempty C k).Holds (CacheInv L) (fun _ s' => s' = s) s := by
  refine (scan_holds h hk rfl).bind ?_
  rintro ⟨_, _⟩ t ⟨rfl, _, _⟩
  exact holds_pure rfl

/-! ### Paths -/

/-- What a call holds after a function that returns an inode, or none. -/
def Found (L : Layout) (base : Before) (l o : List NIdx) {α : Type} (idx : α → NIdx)
    (r : Option α) (s : FsState) : Prop :=
  match r with
  | none => Holding L base l o s
  | some a => Holding L base (idx a :: l) o s

theorem walk_holds (hL : C.layout = L) (parent : Bool) : ∀ (elems : List Name) {ip : NIdx}
    {s : FsState}, Holding L base (ip :: l) o s →
    (walk C parent ip elems).Holds (CacheInv L) (Found L base l o Prod.fst) s := by
  intro elems
  induction elems with
  | nil =>
    intro ip s h
    rw [walk]
    split
    · exact (iput_holds hL h).bind fun _ _ h' => holds_pure h'
    · exact holds_pure h
  | cons name rest ih =>
    intro ip s h
    rw [walk]
    refine (ilock_holds hL h List.mem_cons_self).bind ?_
    rintro _ s₁ ⟨h₁, _⟩
    refine holds_read_bind h₁.inv ?_
    split
    · exact (iunlockput_holds hL h₁).bind fun _ _ h' => holds_pure h'
    · split
      · exact (iunlock_holds h₁).bind fun _ _ h' => holds_pure h'.1
      · refine (dirlookup_holds h₁ List.mem_cons_self).bind ?_
        intro r s₂ hr
        match r, hr with
        | none, hr => exact (iunlockput_holds hL hr).bind fun _ _ h' => holds_pure h'
        | some (next, _), hr =>
          -- the reference to the directory is given back, that to the entry is kept
          refine (iunlockput_holds hL (hr.1.perm (List.Perm.swap _ _ _) (List.Perm.refl _))).bind ?_
          intro _ s₃ h₃
          exact ih h₃

theorem start_holds (h : Holding L base l o s) (hcwd : 0 < base.ref base.cwd)
    (hroot : ROOTINO < L.ninodes) :
    (start path).Holds (CacheInv L) (fun ip => Holding L base (ip :: l) o) s := by
  unfold start
  split
  · exact iget_holds h hroot
  · refine holds_read_bind h.inv (idup_holds h ?_)
    have hcount := h.counts s.cwd
    rw [h.proc.cwd] at hcount ⊢
    unfold Slot.Used
    omega

section

variable (hL : C.layout = L)

include hL

section

variable (h : Holding L base l o s)

include h

theorem namex_holds {parent : Bool} (hcwd : 0 < base.ref base.cwd) (hroot : ROOTINO < L.ninodes) :
    (namex C parent path).Holds (CacheInv L) (Found L base l o Prod.fst) s :=
  (start_holds h hcwd hroot).bind fun _ _ h' => walk_holds hL parent path.elems h'

theorem namei_holds (hcwd : 0 < base.ref base.cwd) (hroot : ROOTINO < L.ninodes) :
    (namei C path).Holds (CacheInv L) (Found L base l o id) s := by
  refine (namex_holds hL h hcwd hroot).bind ?_
  intro r t hr
  cases r with
  | none => exact holds_pure hr
  | some a => exact holds_pure hr

/-! ### The calls -/

/-- What a call holds after a function that returns an inode locked, or none. -/
def FoundLocked (L : Layout) (base : Before) (l o : List NIdx) (r : Option NIdx)
    (s : FsState) : Prop :=
  match r with
  | none => Holding L base l o s
  | some ip => Holding L base (ip :: l) (ip :: o) s

theorem mustLink_holds (hdp : dp ∈ o) (hip : ip ∈ l) :
    (mustLink C dp name ip panic).Holds (CacheInv L) (fun _ s' => Holding L base l o s') s := by
  refine holds_read_bind h.inv ?_
  refine (dirlink_holds hL h hdp (h.inv.inum_lt ip (h.used hip))).bind ?_
  intro _ t h'
  exact holds_failIf fun _ => h'

theorem createDots_holds (hdp : dp ∈ o) (hip : ip ∈ o) :
    (createDots C dp ip).Holds (CacheInv L) (fun _ s' => Holding L base l o s') s := by
  refine (update_holds hL h hdp fieldsOnly_addLink).bind ?_
  rintro _ s₁ ⟨h₁, _⟩
  refine (mustLink_holds hL h₁ hip (h₁.held ip hip)).bind ?_
  intro _ s₂ h₂
  exact mustLink_holds hL h₂ hip (h₂.held dp hdp)

end

theorem createNew_holds {major minor : BitVec 16} (h : Holding L base (dp :: l) (dp :: o) s) :
    (createNew C dp name type major minor).Holds (CacheInv L) (FoundLocked L base l o) s := by
  refine (allocInode_holds hL h).bind ?_
  intro ip s₁ h₁
  refine (ilock_holds hL h₁ List.mem_cons_self).bind ?_
  rintro _ s₂ ⟨h₂, _⟩
  refine (update_holds hL h₂ List.mem_cons_self (fieldsOnly_node major minor)).bind ?_
  rintro _ s₃ ⟨h₃, _⟩
  have hdp : dp ∈ ip :: dp :: o := List.mem_cons_of_mem _ List.mem_cons_self
  refine Holds.bind (holds_whenever
    (fun _ => createDots_holds hL h₃ hdp List.mem_cons_self) (fun _ => h₃)) ?_
  intro _ s₄ h₄
  refine (mustLink_holds hL h₄ hdp List.mem_cons_self).bind ?_
  intro _ s₅ h₅
  refine (iunlockput_holds hL (h₅.perm (List.Perm.swap _ _ _) (List.Perm.swap _ _ _))).bind ?_
  intro _ s₆ h₆
  exact holds_pure h₆

theorem create_holds {major minor : BitVec 16} (h : Holding L base l o s)
    (hcwd : 0 < base.ref base.cwd) (hroot : ROOTINO < L.ninodes) :
    (create C path type major minor).Holds (CacheInv L) (FoundLocked L base l o) s := by
  refine (namex_holds hL h hcwd hroot).bind ?_
  intro r s₁ hr
  match r, hr with
  | none, hr => exact holds_pure hr
  | some (dp, name), hr =>
    refine (ilock_holds hL hr List.mem_cons_self).bind ?_
    rintro _ s₂ ⟨h₂, _⟩
    refine (dirlookup_holds h₂ List.mem_cons_self).bind ?_
    intro r s₃ hr
    match r, hr with
    | none, hr => exact createNew_holds hL hr
    | some (ip, _), hr =>
      refine (iunlockput_holds hL (hr.1.perm (List.Perm.swap _ _ _) (List.Perm.refl _))).bind ?_
      intro _ s₄ h₄
      refine (ilock_holds hL h₄ List.mem_cons_self).bind ?_
      rintro _ s₅ ⟨h₅, _⟩
      refine holds_read_bind h₅.inv ?_
      split
      · exact holds_pure h₅
      · exact (iunlockput_holds hL h₅).bind fun _ _ h' => holds_pure h'

theorem linkBad_holds (h : Holding L base (ip :: l) o s) :
    (linkBad C ip).Holds (CacheInv L) (fun _ s' => Holding L base l o s') s := by
  refine (ilock_holds hL h List.mem_cons_self).bind ?_
  rintro _ s₁ ⟨h₁, _⟩
  refine (update_holds hL h₁ List.mem_cons_self fieldsOnly_dropLink).bind ?_
  rintro _ s₂ ⟨h₂, _⟩
  refine (iunlockput_holds hL h₂).bind ?_
  intro _ s₃ h₃
  exact (end_op_holds h₃).bind fun _ _ h' => holds_pure h'

theorem linkNew_holds {new : Path} (h : Holding L base (ip :: l) o s) (hcwd : 0 < base.ref base.cwd)
    (hroot : ROOTINO < L.ninodes) :
    (linkNew C ip new).Holds (CacheInv L) (fun _ s' => Holding L base l o s') s := by
  refine (namex_holds hL h hcwd hroot).bind ?_
  intro r s₁ hr
  match r, hr with
  | none, hr => exact linkBad_holds hL hr
  | some (dp, name), hr =>
    refine (ilock_holds hL hr List.mem_cons_self).bind ?_
    rintro _ s₂ ⟨h₂, _⟩
    have hip : ip ∈ dp :: ip :: l := List.mem_cons_of_mem _ List.mem_cons_self
    refine holds_read_bind h₂.inv ?_
    refine (dirlink_holds hL h₂ List.mem_cons_self (h₂.inv.inum_lt ip (h₂.used hip))).bind ?_
    intro linked s₃ h₃
    refine (iunlockput_holds hL h₃).bind ?_
    intro _ s₄ h₄
    split
    · refine (iput_holds hL h₄).bind ?_
      intro _ s₅ h₅
      exact (end_op_holds h₅).bind fun _ _ h' => holds_pure h'
    · exact linkBad_holds hL h₄

theorem sys_link_holds {old new : Option Path} (h : Holding L base l o s)
    (hcwd : 0 < base.ref base.cwd) (hroot : ROOTINO < L.ninodes) :
    (sys_link C old new).Holds (CacheInv L) (fun _ s' => Holding L base l o s') s := by
  unfold sys_link
  split
  · refine (namei_holds hL h hcwd hroot).bind ?_
    intro r s₁ hr
    match r, hr with
    | none, hr => exact (end_op_holds hr).bind fun _ _ h' => holds_pure h'
    | some ip, hr =>
      refine (ilock_holds hL hr List.mem_cons_self).bind ?_
      rintro _ s₂ ⟨h₂, _⟩
      refine holds_read_bind h₂.inv ?_
      split
      · refine (iunlockput_holds hL h₂).bind ?_
        intro _ s₃ h₃
        exact (end_op_holds h₃).bind fun _ _ h' => holds_pure h'
      · refine (update_holds hL h₂ List.mem_cons_self fieldsOnly_addLink).bind ?_
        rintro _ s₃ ⟨h₃, _⟩
        refine (iunlock_holds h₃).bind ?_
        rintro _ s₄ ⟨h₄, _⟩
        exact linkNew_holds hL h₄ hcwd hroot
  · exact holds_pure h

theorem unlinkBad_holds (h : Holding L base (dp :: l) (dp :: o) s) :
    (unlinkBad C dp).Holds (CacheInv L) (fun _ s' => Holding L base l o s') s := by
  refine (iunlockput_holds hL h).bind ?_
  intro _ s₁ h₁
  exact (end_op_holds h₁).bind fun _ _ h' => holds_pure h'

theorem unlinkEntry_holds (h : Holding L base (ip :: dp :: l) (ip :: dp :: o) s)
    (hoff : off % DIRENT = 0) :
    (unlinkEntry C dp ip off).Holds (CacheInv L) (fun _ s' => Holding L base l o s') s := by
  have hdp : dp ∈ ip :: dp :: o := List.mem_cons_of_mem _ List.mem_cons_self
  have hlt := h.inv.inum_lt ip (h.used List.mem_cons_self)
  refine (write_holds hL h hdp (by decide) fun _ => ⟨hoff, rfl, ?_⟩).bind ?_
  · exact Nat.lt_of_le_of_lt (Nat.zero_le _) hlt
  · rintro r s₁ ⟨h₁, _, _⟩
    refine holds_failIf_bind fun _ => holds_read_bind h₁.inv ?_
    refine Holds.bind (Q := fun _ t => Holding L base (ip :: dp :: l) (ip :: dp :: o) t)
      (holds_whenever (fun _ => ?_) (fun _ => h₁)) ?_
    · exact (update_holds hL h₁ hdp fieldsOnly_dropLink).mono fun _ _ hr => hr.1
    · intro _ s₂ h₂
      refine (iunlockput_holds hL
        (h₂.perm (List.Perm.swap _ _ _) (List.Perm.swap _ _ _))).bind ?_
      intro _ s₃ h₃
      refine (update_holds hL h₃ List.mem_cons_self fieldsOnly_dropLink).bind ?_
      rintro _ s₄ ⟨h₄, _⟩
      refine (iunlockput_holds hL h₄).bind ?_
      intro _ s₅ h₅
      exact (end_op_holds h₅).bind fun _ _ h' => holds_pure h'

end

theorem isFull_holds (h : Holding L base l o s) (hip : ip ∈ o) :
    (isFull C ip type).Holds (CacheInv L) (fun _ s' => s' = s) s := by
  unfold isFull
  split
  · refine (isdirempty_holds h hip).bind ?_
    rintro _ t rfl
    exact holds_pure rfl
  · exact holds_pure rfl

theorem sys_unlink_holds (hL : C.layout = L) {path : Option Path} (h : Holding L base l o s)
    (hcwd : 0 < base.ref base.cwd) (hroot : ROOTINO < L.ninodes) :
    (sys_unlink C path).Holds (CacheInv L) (fun _ s' => Holding L base l o s') s := by
  unfold sys_unlink
  split
  · exact holds_pure h
  · refine (namex_holds hL h hcwd hroot).bind ?_
    intro r s₁ hr
    match r, hr with
    | none, hr => exact (end_op_holds hr).bind fun _ _ h' => holds_pure h'
    | some (dp, name), hr =>
      refine (ilock_holds hL hr List.mem_cons_self).bind ?_
      rintro _ s₂ ⟨h₂, _⟩
      split
      · exact unlinkBad_holds hL h₂
      · refine (dirlookup_holds h₂ List.mem_cons_self).bind ?_
        intro r s₃ hr
        match r, hr with
        | none, hr => exact unlinkBad_holds hL hr
        | some (ip, off), hr =>
          refine (ilock_holds hL hr.1 List.mem_cons_self).bind ?_
          rintro _ s₄ ⟨h₄, _⟩
          refine holds_read_bind h₄.inv (holds_failIf_bind fun _ => ?_)
          refine (isFull_holds h₄ List.mem_cons_self).bind ?_
          rintro full t rfl
          split
          · refine (iunlockput_holds hL h₄).bind ?_
            intro _ s₅ h₅
            exact unlinkBad_holds hL h₅
          · exact unlinkEntry_holds hL h₄ hr.2

/-! ### Reading and writing -/

/-- A chunk is written where the inode is no directory. -/
theorem filewriteLoop_holds (hL : C.layout = L) : ∀ (fuel off : Nat) (src : List Byte)
    {s : FsState}, Holding L base (ip :: l) o s →
    (dinode L s.kern.disk (s.slot ip).inum).type ≠ T_DIR →
    (filewriteLoop C ip fuel off src).Holds (CacheInv L)
      (fun _ s' => Holding L base (ip :: l) o s') s := by
  intro fuel
  induction fuel with
  | zero =>
    intro off src s h _
    exact holds_pure h
  | succ fuel ih =>
    intro off src s h ht
    rw [filewriteLoop]
    split
    · exact holds_pure h
    · refine (ilock_holds hL h List.mem_cons_self).bind ?_
      rintro _ s₁ ⟨h₁, hkern₁, hinum₁⟩
      have hloaded := h₁.inv.loaded (h₁.used List.mem_cons_self)
        (h₁.locked ip List.mem_cons_self).2
      have htype : (s₁.slot ip).copy.type ≠ T_DIR := by
        rw [hloaded.1, hkern₁, hinum₁]
        exact ht
      have hlen : (src.take WRITEMAX).length < 4294967296 :=
        Nat.lt_of_le_of_lt (List.length_take_le _ _) (by decide)
      refine (write_holds hL h₁ List.mem_cons_self hlen
        (fun hdir => absurd hdir htype)).bind ?_
      rintro r s₂ ⟨h₂, hslot₂, htype₂⟩
      have hloaded₂ := h₂.inv.loaded (h₂.used List.mem_cons_self)
        (h₂.locked ip List.mem_cons_self).2
      have ht₂ : (dinode L s₂.kern.disk (s₂.slot ip).inum).type ≠ T_DIR := by
        rw [← hloaded₂.1, htype₂]
        exact htype
      refine (iunlock_holds h₂).bind ?_
      rintro _ s₃ ⟨h₃, hkern₃, hinum₃⟩
      have h₄ : Holding L base (ip :: l) o { s₃ with kern := { s₃.kern with lh := [] } } :=
        h₃.congr rfl rfl ⟨h₃.proc.1, h₃.proc.2, h₃.proc.3⟩
      refine Holds.bind (Q := fun _ t => t = { s₃ with kern := { s₃.kern with lh := [] } })
        (holds_modify h₄.inv rfl) ?_
      rintro _ t rfl
      cases r with
      | none => exact holds_pure h₄
      | some n =>
        dsimp only
        split
        · exact holds_fail
        · refine ih _ _ h₄ ?_
          dsimp only
          rw [hkern₃, hinum₃]
          exact ht₂

theorem fileread_holds (hL : C.layout = L) (h : Holding L base (ip :: l) o s) (off : Nat)
    (hn : n < 4294967296) :
    (fileread C ip off n).Holds (CacheInv L) (fun _ s' => Holding L base (ip :: l) o s') s := by
  refine (ilock_holds hL h List.mem_cons_self).bind ?_
  rintro _ s₁ ⟨h₁, _⟩
  refine (read_holds h₁ List.mem_cons_self off hn).bind ?_
  rintro r s₂ ⟨h₂, _, _⟩
  refine (iunlock_holds h₂).bind ?_
  rintro _ s₃ ⟨h₃, _⟩
  exact holds_pure h₃

/-! ### Sequences of calls -/

/-- The calls of a run. `create`, `lookup` and `dup` leave a reference behind, as an open
    file or a current directory does. -/
inductive FsCall where
  | create (path : Path) (type major minor : BitVec 16)
  | lookup (path : Path)
  | dup (ip : NIdx)
  | link (old new : Option Path)
  | unlink (path : Option Path)
  | dirlink (dp : NIdx) (name : Name) (ip : NIdx)
  | filewrite (ip : NIdx) (off : Nat) (src : List Byte)
  | fileread (ip : NIdx) (off n : Nat)
  | iput (ip : NIdx)
  | chdir (ip : NIdx)

/-- Unlock the inode that `create` has returned. -/
def unlockAny : Option NIdx → Cmd Unit
  | none => end_op
  | some ip => do
    iunlock ip
    end_op

/-- What a call does. -/
def FsCall.body (C : Config) : FsCall → Cmd Unit
  | .create path type major minor => do
    let ip ← Disk.create C path type major minor
    unlockAny ip
  | .lookup path => do
    let _ ← namei C path
    end_op
  | .dup ip => do
    let _ ← idup ip
    pure ()
  | .link old new => do
    let _ ← sys_link C old new
    pure ()
  | .unlink path => do
    let _ ← sys_unlink C path
    pure ()
  | .dirlink dp name ip => do
    let inum ← Command.read fun s => (s.slot ip).inum
    ilock C dp
    let _ ← Disk.dirlink C dp name inum
    iunlock dp
    end_op
  | .filewrite ip off src => do
    let _ ← Disk.filewrite C ip off src
    pure ()
  | .fileread ip off n => do
    let _ ← Disk.fileread C ip off n
    pure ()
  | .iput ip => do
    Disk.iput C ip
    end_op
  | .chdir ip => Command.modify fun s => { s with cwd := ip }

/-- Where a call may be made: a process has references to the inodes that it names and
    to its current directory, `sys_open` lets no directory be written, and a length is
    a `uint`. -/
def FsCall.guard (C : Config) : FsCall → FsState → Prop
  | .create _ _ _ _, s => (s.slot s.cwd).Used
  | .lookup _, s => (s.slot s.cwd).Used
  | .dup ip, s => (s.slot ip).Used
  | .link _ _, s => (s.slot s.cwd).Used
  | .unlink _, s => (s.slot s.cwd).Used
  | .dirlink dp _ ip, s => (s.slot dp).Used ∧ (s.slot ip).Used
  | .filewrite ip _ _, s =>
    (s.slot ip).Used ∧ (dinode C.layout s.kern.disk (s.slot ip).inum).type ≠ T_DIR
  | .fileread ip _ n, s => (s.slot ip).Used ∧ n < 4294967296
  | .iput ip, s => (s.slot ip).Used
  | .chdir ip, s => (s.slot ip).Used

/-- The kernel after `iinit`, with the current directory of the first process: the root
    is in the first slot. -/
structure Booted (d : Image) (s : FsState) : Prop where
  disk : s.kern.disk = d
  cwd : (s.slot s.cwd).ref = 1 ∧ (s.slot s.cwd).inum = ROOTINO
  valid : (s.slot s.cwd).valid = false
  free : ∀ k, k ≠ s.cwd → (s.slot k).ref = 0

/-- The calls one after the other, from a disk image on. -/
def fsCalls (C : Config) (d : Image) : System (FsState × Cmd Unit) (Option FsCall) :=
  calls (Booted d) (FsCall.guard C) (FsCall.body C)

theorem Booted.inv (h : Booted d s) (hd : Sound L d) (hroot : ROOTINO < L.ninodes) :
    CacheInv L s := by
  have hcwd : ∀ k, (s.slot k).Used → k = s.cwd := by
    intro k hu
    by_contra hne
    unfold Slot.Used at hu
    rw [h.free k hne] at hu
    exact Nat.lt_irrefl 0 hu
  refine ⟨?_, fun k hu => ?_, fun k hu hv => ?_, fun k hu hv => ?_, fun j k hj hk _ => ?_⟩
  · rw [h.disk]
    exact hd
  · rw [hcwd k hu, h.cwd.2]
    exact hroot
  · rw [hcwd k hu, h.valid] at hv
    cases hv
  · rw [hcwd k hu, h.valid] at hv
    cases hv
  · rw [hcwd j hj, hcwd k hk]

/-- A call starts with nothing. -/
def before (s : FsState) : Before := ⟨fun k => (s.slot k).ref, s.file, s.ofile, s.cwd⟩

theorem CacheInv.holding (h : CacheInv L s) : Holding L (before s) [] [] s :=
  ⟨h, fun _ => rfl, ⟨rfl, rfl, rfl⟩, fun _ hk => absurd hk List.not_mem_nil,
    fun _ hk => absurd hk List.not_mem_nil, List.nodup_nil⟩

/-- A call on an inode of which the process has a reference. -/
theorem CacheInv.holding_one (h : CacheInv L s) (hu : (s.slot k).Used) :
    ∃ base, Holding L base [k] [] s := by
  refine ⟨{ before s with ref := Function.update (before s).ref k ((s.slot k).ref - 1) },
    h, fun j => ?_, ⟨rfl, rfl, rfl⟩, fun _ hk => absurd hk List.not_mem_nil,
    fun _ hk => absurd hk List.not_mem_nil, List.nodup_nil⟩
  unfold Slot.Used at hu
  dsimp only
  by_cases hjk : j = k
  · subst hjk
    rw [Function.update_self, List.count_singleton_self]
    omega
  · rw [Function.update_of_ne hjk, List.count_eq_zero.mpr (by simpa using hjk)]
    rfl

/-- Every call keeps the invariant, after each of its actions. -/
theorem FsCall.holds (C : Config) (hroot : ROOTINO < C.layout.ninodes) (c : FsCall) {s : FsState}
    (h : CacheInv C.layout s) (hguard : c.guard C s) :
    (c.body C).Holds (CacheInv C.layout) (fun _ _ => True) s := by
  cases c with
  | create path type major minor =>
    refine (create_holds rfl h.holding hguard hroot).bind ?_
    intro r s₁ hr
    match r, hr with
    | none, hr => exact (end_op_holds hr).mono fun _ _ _ => trivial
    | some ip, hr =>
      refine (iunlock_holds hr).bind ?_
      rintro _ s₂ ⟨h₂, _⟩
      exact (end_op_holds h₂).mono fun _ _ _ => trivial
  | lookup path =>
    refine (namei_holds rfl h.holding hguard hroot).bind ?_
    intro r s₁ hr
    match r, hr with
    | none, hr => exact (end_op_holds hr).mono fun _ _ _ => trivial
    | some ip, hr => exact (end_op_holds hr).mono fun _ _ _ => trivial
  | dup ip => exact (idup_holds h.holding hguard).bind fun _ _ _ => holds_pure trivial
  | link old new =>
    exact (sys_link_holds rfl h.holding hguard hroot).bind fun _ _ _ => holds_pure trivial
  | unlink path =>
    exact (sys_unlink_holds rfl h.holding hguard hroot).bind fun _ _ _ => holds_pure trivial
  | dirlink dp name ip =>
    obtain ⟨base, hb⟩ := h.holding_one hguard.1
    refine holds_read_bind h ?_
    refine (ilock_holds rfl hb List.mem_cons_self).bind ?_
    rintro _ s₁ ⟨h₁, _⟩
    refine (dirlink_holds rfl h₁ List.mem_cons_self (h.inum_lt ip hguard.2)).bind ?_
    intro _ s₂ h₂
    refine (iunlock_holds h₂).bind ?_
    rintro _ s₃ ⟨h₃, _⟩
    exact (end_op_holds h₃).mono fun _ _ _ => trivial
  | filewrite ip off src =>
    obtain ⟨base, hb⟩ := h.holding_one hguard.1
    exact (filewriteLoop_holds rfl src.length off src hb hguard.2).bind
      fun _ _ _ => holds_pure trivial
  | fileread ip off n =>
    obtain ⟨base, hb⟩ := h.holding_one hguard.1
    exact (fileread_holds rfl hb off hguard.2).bind fun _ _ _ => holds_pure trivial
  | iput ip =>
    obtain ⟨base, hb⟩ := h.holding_one hguard
    refine (iput_holds rfl hb).bind ?_
    intro _ s₁ h₁
    exact (end_op_holds h₁).mono fun _ _ _ => trivial
  | chdir ip =>
    have h' : CacheInv C.layout { s with cwd := ip } := h.congr rfl rfl
    exact holds_modify h' trivial

theorem fsCalls_inv (hd : Sound C.layout d) (hroot : ROOTINO < C.layout.ninodes)
    {t : FsState × Cmd Unit} (h : Reachable (fsCalls C d) t) : CacheInv C.layout t.1 :=
  Reachable.calls_invariant (fun _ hb => hb.inv hd hroot)
    (fun c _ hinv hguard => FsCall.holds C hroot c hinv hguard) h

/-- **No holes, and write-through.** From a sound image on, in every state of every run,
    also inside the calls: no allocated inode has a hole below its size; every slot of
    the cache that is in use and valid equals the inode on the disk; and `readi` of
    such an inode returns and changes nothing, even with a log in which there is no
    room for a block. -/
theorem no_holes_write_through (C : Config) {d : Image} (hd : Sound C.layout d)
    (hroot : ROOTINO < C.layout.ninodes) {t : FsState × Cmd Unit}
    (h : Reachable (fsCalls C d) t) :
    (∀ i, i < C.layout.ninodes → (dinode C.layout t.1.kern.disk i).type ≠ 0 →
      NoHoles t.1.kern.disk (dinode C.layout t.1.kern.disk i)) ∧
    ∀ k, (t.1.slot k).Used → (t.1.slot k).valid = true →
      (t.1.slot k).copy = dinode C.layout t.1.kern.disk (t.1.slot k).inum ∧
      ∀ off n, n < 4294967296 → ∃ r,
        readi { C with logroom := 0 } t.1.kern (t.1.slot k).copy off n =
          .ok (r, (t.1.slot k).copy, t.1.kern) := by
  have hinv := fsCalls_inv hd hroot h
  refine ⟨hinv.sound.noHoles, fun k hu hv => ⟨hinv.sync k hu hv, fun off n hn => ?_⟩⟩
  exact hinv.readi_quiet hu hv off hn

/-! ### A small disk -/

/-- Sixteen blocks, of which the first five hold no data. -/
def smallLayout : Layout where
  size := 16
  ninodes := 8
  inodestart := 2
  bmapstart := 4
  nmeta := 5
  inodes_lt := by decide
  bitmap_lt := by decide
  nmeta_le := by decide
  size_lt := by decide

def smallConfig : Config where
  layout := smallLayout
  logroom := 29
  devread := fun _ _ => none
  devwrite := fun _ _ => none

/-- An empty root directory, on a disk with the given bitmap block. -/
def rootOnly (bitmap : Block) : Image :=
  setDinode smallLayout (fun b => if b = smallLayout.bmapstart then bitmap else fun _ => 0)
    ROOTINO { blankDinode T_DIR with nlink := 1 }

/-- The bits of the first five blocks are set. -/
def smallImage : Image := rootOnly (fun j => if j.val = 0 then 31 else 0)

/-- No bit is set. -/
def bareImage : Image := rootOnly (fun _ => 0)

/-- The state after `iinit`, with the root as current directory. -/
def bootState (d : Image) : FsState where
  kern := { disk := d, lh := [] }
  slot := fun k =>
    { inum := ROOTINO, ref := if k.val = 0 then 1 else 0, lock := false, valid := false
      copy := blankDinode 0 }
  file := fun _ => { ref := 0, ip := none, off := 0, readable := false, writable := false }
  ofile := fun _ => none
  cwd := ⟨0, ninode_pos⟩

theorem bootState_booted (d : Image) : Booted d (bootState d) where
  disk := rfl
  cwd := ⟨rfl, rfl⟩
  valid := rfl
  free := fun k hk => by
    refine if_neg fun hz => hk ?_
    exact Fin.ext hz

/-- An inode in a block of zeros. -/
theorem getDinode_zero (j : Nat) : getDinode (fun _ => 0) j = blankDinode 0 := by
  have hget : ∀ o, Bytes.Buf.get (fun _ => 0 : Block) o = 0 := by
    intro o
    simp [Bytes.Buf.get]
  unfold getDinode blankDinode Bytes.getLE
  simp only [hget]
  rfl

/-- Apart from the root, no inode of such a disk is allocated, and none has an
    address. -/
theorem rootOnly_blank (bitmap : Block) : ∀ i, i < smallLayout.ninodes →
    (dinode smallLayout (rootOnly bitmap) i).Empty ∧
      (dinode smallLayout (rootOnly bitmap) i).size = 0 := by
  intro i hi
  by_cases hroot : i = ROOTINO
  · rw [hroot]
    unfold rootOnly
    rw [dinode_setDinode_self]
    exact ⟨Dinode.empty_of_addrs rfl, rfl⟩
  · have hzero : dinode smallLayout (rootOnly bitmap) i = blankDinode 0 := by
      unfold rootOnly
      rw [dinode_setDinode_of_ne hroot]
      have hblock : smallLayout.iblock i ≠ smallLayout.bmapstart :=
        Nat.ne_of_lt (Layout.iblock_lt hi)
      unfold dinode
      dsimp only
      rw [if_neg hblock]
      exact getDinode_zero _
    rw [hzero]
    exact ⟨Dinode.empty_of_addrs rfl, rfl⟩

theorem smallImage_sound : Sound smallLayout smallImage := by
  have hnone : ∀ i k b, ¬ Refs smallLayout (dinode smallLayout smallImage) smallImage i k b := by
    intro i k b href
    have hempty : (dinode smallLayout smallImage i).Empty := (rootOnly_blank _ i href.inode_lt).1
    have haddr := href.addr
    rw [hempty.slotAddr] at haddr
    exact href.ne_zero haddr.symm
  have hbits : ∀ b, b < 16 → (used smallLayout smallImage b = true ↔ b < 5) := by decide +kernel
  refine ⟨⟨fun href => absurd href (hnone _ _ _), fun href => absurd href (hnone _ _ _),
    fun b hb => ?_⟩, fun i hi _ => noHoles_of_size (rootOnly_blank _ i hi).2,
    fun i hi _ => entriesOk_of_size (rootOnly_blank _ i hi).2⟩
  rw [hbits b hb]
  constructor
  · exact Or.inl
  · rintro (hlt | ⟨i, k, href⟩)
    · exact hlt
    · exact absurd href (hnone i k b)

/-- `create("/a", T_FILE, 0, 0)` -/
def createA : FsCall := .create { absolute := true, elems := [[97]] } T_FILE 0 0

/-- The size of the root and the address of its first block after the call. -/
def rootAfter (d : Image) : Option (Nat × Nat × FsState) :=
  match (createA.body smallConfig).run (bootState d) with
  | .ok (_, t) =>
    some ((dinode smallLayout t.kern.disk ROOTINO).size.toNat,
      blockAddr t.kern.disk (dinode smallLayout t.kern.disk ROOTINO) 0, t)
  | .error _ => none

/-- The state after the call is one of a run. -/
theorem rootAfter_reachable {a : Nat} {t : FsState} (h : rootAfter d = some (n, a, t)) :
    Reachable (fsCalls smallConfig d) (t, .ret ()) ∧
      (dinode smallLayout t.kern.disk ROOTINO).size.toNat = n ∧
      blockAddr t.kern.disk (dinode smallLayout t.kern.disk ROOTINO) 0 = a := by
  unfold rootAfter at h
  split at h
  · rename_i t' hrun
    cases h
    refine ⟨Reachable.calls_call createA (.init ⟨bootState_booted d, rfl⟩) ?_ hrun, rfl, rfl⟩
    exact Nat.zero_lt_one
  · cases h

theorem rootAfter_of_any {a : Nat}
    (h : (rootAfter d).any (fun r => decide (r.1 = n ∧ r.2.1 = a)) = true) :
    ∃ t, Reachable (fsCalls smallConfig d) (t, .ret ()) ∧
      (dinode smallLayout t.kern.disk ROOTINO).size.toNat = n ∧
      blockAddr t.kern.disk (dinode smallLayout t.kern.disk ROOTINO) 0 = a := by
  obtain ⟨⟨n', a', t⟩, hsome, hdec⟩ := (Option.any_eq_true _ _).mp h
  obtain ⟨hn, ha⟩ := of_decide_eq_true hdec
  obtain ⟨hreach, hn', ha'⟩ := rootAfter_reachable hsome
  exact ⟨t, hreach, hn'.trans hn, ha'.trans ha⟩

/-- A file is created in the root of a sound image, which then has one block. -/
theorem no_holes_write_through_small : ∃ t : FsState,
    Reachable (fsCalls smallConfig smallImage) (t, .ret ()) ∧
    (dinode smallLayout t.kern.disk ROOTINO).size.toNat = 16 ∧
    ((dinode smallLayout t.kern.disk ROOTINO).type ≠ 0 →
      NoHoles t.kern.disk (dinode smallLayout t.kern.disk ROOTINO)) := by
  obtain ⟨t, hreach, hsize, _⟩ := rootAfter_of_any (d := smallImage) (n := 16) (a := 5)
    (by decide +kernel)
  exact ⟨t, hreach, hsize,
    (no_holes_write_through smallConfig smallImage_sound (by decide) hreach).1 ROOTINO (by decide)⟩

/-- Without a hole in the image is not enough: where no bit of the bitmap is set, the
    block that `balloc` gives to the root is block 0, and the root has a hole. -/
theorem bare_image_gets_hole :
    (∀ i, i < smallLayout.ninodes → NoHoles bareImage (dinode smallLayout bareImage i)) ∧
    ∃ t : FsState, Reachable (fsCalls smallConfig bareImage) (t, .ret ()) ∧
      ¬ NoHoles t.kern.disk (dinode smallLayout t.kern.disk ROOTINO) := by
  refine ⟨fun i hi => noHoles_of_size (rootOnly_blank _ i hi).2, ?_⟩
  obtain ⟨t, hreach, hsize, haddr⟩ := rootAfter_of_any (d := bareImage) (n := 16) (a := 0)
    (by decide +kernel)
  refine ⟨t, hreach, fun hno => ?_⟩
  exact (hno 0 (by rw [hsize]; decide)).2 haddr

/-! ### What the disk holds -/

/-- **Block ownership.** From a sound image on, in every state of every run, also inside
    the calls: every block has one owner at most, over all allocated inodes, the bitmap
    marks the blocks that have one, and directories name inodes that exist. -/
theorem blocks_have_one_owner (C : Config) {d : Image} (hd : Sound C.layout d)
    (hroot : ROOTINO < C.layout.ninodes) {t : FsState × Cmd Unit}
    (h : Reachable (fsCalls C d) t) :
    Own C.layout (dinode C.layout t.1.kern.disk) t.1.kern.disk ∧
    ∀ i, i < C.layout.ninodes → (dinode C.layout t.1.kern.disk i).type = T_DIR →
      EntriesOk C.layout t.1.kern.disk (dinode C.layout t.1.kern.disk i) := by
  have hsound := (fsCalls_inv hd hroot h).sound
  exact ⟨hsound.own, hsound.dirs⟩

theorem blocks_have_one_owner_small : ∃ t : FsState,
    Reachable (fsCalls smallConfig smallImage) (t, .ret ()) ∧
    Own smallLayout (dinode smallLayout t.kern.disk) t.kern.disk := by
  obtain ⟨t, hreach, _⟩ := rootAfter_of_any (d := smallImage) (n := 16) (a := 5)
    (by decide +kernel)
  exact ⟨t, hreach, (blocks_have_one_owner smallConfig smallImage_sound (by decide) hreach).1⟩

/-- **Files are byte arrays.** `writei` returns -1 and changes nothing, or it returns the
    number of bytes; every `readi` then delivers the old bytes of the file, overwritten from
    `off` on and extended, up to its new end, and of another file what it did before. -/
theorem readi_after_writei {e e' : Kern} {i : Nat} {x x' : Dinode} {src : List Byte}
    {r : Option Nat} (hL : C.layout = L) (hd : Sound L e.disk)
    (hi : i < L.ninodes) (hx : dinode L e.disk i = x) (ht : x.type ≠ 0)
    (hdev : x.type ≠ T_DEV) (hlen : src.length < 4294967296)
    (hw : writei C e i x off src = .ok (r, x', e')) :
    (r = none ∧ e' = e ∧ (x.size.toNat < off ∨ MAXFILE * BSIZE < off + src.length)) ∨
    r = some src.length ∧
    (∀ a n, n < 4294967296 → readi C e' x' a n = .ok
      (if max x.size.toNat (off + src.length) < a ∨ 4294967296 ≤ a + n then none
        else some ((List.range (min n (max x.size.toNat (off + src.length) - a))).map fun k =>
          if InRange off src.length (a + k) then src.getD (a + k - off) 0
          else fileByte e.disk x (a + k)), x', e')) ∧
    ∀ j y, j < L.ninodes → j ≠ i → dinode L e.disk j = y → y.type ≠ 0 → y.type ≠ T_DEV →
      dinode L e'.disk j = y ∧ ∀ a n, n < 4294967296 →
        (readi C e' y a n).map Prod.fst = (readi C e y a n).map Prod.fst := by
  subst hx
  obtain ⟨hr, _, he, hout⟩ | ⟨hr, _, _, hdone⟩ :=
    writei_ok hL hi hd.own ht hdev (hd.noHoles i hi ht) hlen hw
  · exact Or.inl ⟨hr, he, hout⟩
  refine Or.inr ⟨hr, fun a n hn => ?_, fun j y hj hji hy hty hdevy => ?_⟩
  · have hdev' : x'.type ≠ T_DEV := by
      rw [hdone.fields]
      exact hdev
    rw [readi_eq hdone.noHoles hdev' hn, hdone.size]
    split
    · rfl
    · unfold fileBytes
      rw [List.map_congr_left fun k hk => hdone.bytes (a + k) ?_]
      have hk' := List.mem_range.mp hk
      rw [hdone.size]
      omega
  · subst hy
    have honly : OnlyInode L i e.disk e'.disk := ⟨hdone.inodes, hdone.same⟩
    have hno := hd.noHoles j hj hty
    have hno' : NoHoles e'.disk (dinode L e.disk j) := by
      intro bn hbn
      rw [honly.blockAddr hj hji hty]
      exact hno bn hbn
    refine ⟨hdone.inodes j hj hji, fun a n hn => ?_⟩
    rw [readi_eq hno hdevy hn, readi_eq hno' hdevy hn, fileBytes_congr
      fun o _ ho => honly.fileByte hj hji hty hno (by omega)]
    rfl

/-- The inode of the root in `rootOnly`. -/
def rootDinode : Dinode := { blankDinode T_DIR with nlink := 1 }

theorem ok_of_any {ε α : Type} {x : Except ε α} {p : α → Bool}
    (h : x.toOption.any p = true) : ∃ a, x = .ok a ∧ p a = true := by
  cases x with
  | error e => cases h
  | ok a => exact ⟨a, rfl, h⟩

theorem readi_after_writei_small : ∃ x' e',
    writei smallConfig ⟨smallImage, []⟩ ROOTINO rootDinode 0 [7] = .ok (some 1, x', e') ∧
    readi smallConfig e' x' 0 1 = .ok (some [7], x', e') := by
  have hx : dinode smallLayout smallImage ROOTINO = rootDinode := by
    unfold smallImage rootOnly
    exact dinode_setDinode_self
  obtain ⟨⟨r, x', e'⟩, hw, hr⟩ :=
    ok_of_any (x := writei smallConfig ⟨smallImage, []⟩ ROOTINO rootDinode 0 [7])
      (p := fun r => r.1 = some 1) (by decide +kernel)
  obtain rfl := of_decide_eq_true hr
  obtain ⟨hnone, _⟩ | ⟨_, hread, _⟩ := readi_after_writei (L := smallLayout)
    (e := ⟨smallImage, []⟩) rfl smallImage_sound (by decide) hx (by decide) (by decide)
    (by decide) hw
  · cases hnone
  · exact ⟨x', e', hw, hread 0 1 (by decide)⟩

end Xv6.Disk
