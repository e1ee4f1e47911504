import Xv6.Disk.Sound

/-! # The Inode Cache is Write-Through

    Along every call, the image stays sound and every slot of the cache that is
    in use and valid equals the inode on the disk.

    - `CacheInv`: the invariant
    - `Holding base l o`: the invariant, with the references `l` that the running
      call has taken beyond `base` and the inodes `o` that it has locked
    - one lemma for each function, by what it does to `l` and `o`
-/

namespace Xv6.Disk

open LTS Command

variable {C : Config} {L : Layout} {s s' : FsState} {k : NIdx} {ip : Slot}
  {base : Before} {l o : List NIdx}

/-- What a call finds: the reference counts, the files and the process. -/
structure Before where
  ref : NIdx → Nat
  file : Fin NFILE → File
  ofile : Fin NOFILE → Option (Fin NFILE)
  cwd : NIdx

/-- The files and the process are those from before the call. -/
structure SameProc (base : Before) (s : FsState) : Prop where
  file : s.file = base.file
  ofile : s.ofile = base.ofile
  cwd : s.cwd = base.cwd

/-- A slot of the cache that is not free. -/
def Slot.Used (ip : Slot) : Prop := 0 < ip.ref

structure CacheInv (L : Layout) (s : FsState) : Prop where
  sound : Sound L s.kern.disk
  inum_lt : ∀ k, (s.slot k).Used → (s.slot k).inum < L.ninodes
  sync : ∀ k, (s.slot k).Used → (s.slot k).valid = true →
    (s.slot k).copy = dinode L s.kern.disk (s.slot k).inum
  alloc : ∀ k, (s.slot k).Used → (s.slot k).valid = true → (s.slot k).copy.type ≠ 0
  unique : ∀ j k, (s.slot j).Used → (s.slot k).Used → (s.slot j).inum = (s.slot k).inum → j = k

/-! ### Slots that change -/

@[simp] theorem slot_setSlot_self : (s.setSlot k ip).slot k = ip := Function.update_self _ _ _

theorem slot_setSlot_of_ne {j : NIdx} (h : j ≠ k) : (s.setSlot k ip).slot j = s.slot j :=
  Function.update_of_ne h _ _

/-- An action on one slot and on the inode that is in it. -/
theorem CacheInv.change {kern : Kern} (h : CacheInv L s) (hsound : Sound L kern.disk)
    (hinodes : ∀ j, j < L.ninodes → j ≠ ip.inum → dinode L kern.disk j = dinode L s.kern.disk j)
    (hlt : ip.Used → ip.inum < L.ninodes)
    (hsync : ip.Used → ip.valid = true →
      ip.copy = dinode L kern.disk ip.inum ∧ ip.copy.type ≠ 0)
    (hother : ∀ j, j ≠ k → (s.slot j).Used → (s.slot j).valid = true →
      (s.slot j).inum = ip.inum → dinode L kern.disk ip.inum = dinode L s.kern.disk ip.inum)
    (huniq : ip.Used → ∀ j, j ≠ k → (s.slot j).Used → (s.slot j).inum ≠ ip.inum) :
    CacheInv L ({ s with kern := kern }.setSlot k ip) := by
  have hself : ({ s with kern := kern }.setSlot k ip).slot k = ip := slot_setSlot_self
  have hne : ∀ j, j ≠ k → ({ s with kern := kern }.setSlot k ip).slot j = s.slot j :=
    fun j hj => slot_setSlot_of_ne hj
  refine ⟨hsound, ?_, fun j hu hv => ?_, ?_, fun i j hi hj heq => ?_⟩
  · exact (Function.forall_update_iff s.slot (fun _ x => x.Used → x.inum < L.ninodes)).mpr
      ⟨hlt, fun j _ => h.inum_lt j⟩
  · by_cases hjk : j = k
    · subst hjk
      rw [hself] at hu hv ⊢
      exact (hsync hu hv).1
    · rw [hne j hjk] at hu hv ⊢
      rw [h.sync j hu hv]
      by_cases hi : (s.slot j).inum = ip.inum
      · rw [hi]
        exact (hother j hjk hu hv hi).symm
      · exact (hinodes _ (h.inum_lt j hu) hi).symm
  · exact (Function.forall_update_iff s.slot (fun _ x => x.Used → x.valid = true →
      x.copy.type ≠ 0)).mpr ⟨fun hu hv => (hsync hu hv).2, fun j _ => h.alloc j⟩
  · by_cases hik : i = k
    · by_cases hjk : j = k
      · rw [hik, hjk]
      · subst hik
        rw [hself] at hi heq
        rw [hne j hjk] at hj heq
        exact absurd heq.symm (huniq hi j hjk hj)
    · by_cases hjk : j = k
      · subst hjk
        rw [hself] at hj heq
        rw [hne i hik] at hi heq
        exact absurd heq (huniq hj i hik hi)
      · rw [hne i hik] at hi heq
        rw [hne j hjk] at hj heq
        exact h.unique i j hi hj heq

/-- An action on a slot that leaves the disk. -/
theorem CacheInv.setSlot (h : CacheInv L s) (hlt : ip.Used → ip.inum < L.ninodes)
    (hsync : ip.Used → ip.valid = true →
      ip.copy = dinode L s.kern.disk ip.inum ∧ ip.copy.type ≠ 0)
    (huniq : ip.Used → ∀ j, j ≠ k → (s.slot j).Used → (s.slot j).inum ≠ ip.inum) :
    CacheInv L (s.setSlot k ip) :=
  h.change h.sound (fun _ _ _ => rfl) hlt hsync (fun _ _ _ _ _ => rfl) huniq

/-- An action on a slot in use that leaves the disk and what the slot says of its
    inode. -/
theorem CacheInv.touch (h : CacheInv L s) (hused : ip.Used → (s.slot k).Used)
    (hinum : ip.inum = (s.slot k).inum) (hvalid : ip.valid = (s.slot k).valid)
    (hcopy : ip.copy = (s.slot k).copy) : CacheInv L (s.setSlot k ip) := by
  refine h.setSlot (fun hu => ?_) (fun hu hv => ?_) (fun hu j hj hju heq => ?_)
  · rw [hinum]
    exact h.inum_lt k (hused hu)
  · rw [hvalid] at hv
    rw [hcopy, hinum]
    exact ⟨h.sync k (hused hu) hv, h.alloc k (hused hu) hv⟩
  · rw [hinum] at heq
    exact hj (h.unique j k hju (hused hu) heq)

/-- An action on the inode of a slot in use. -/
theorem CacheInv.onInode {kern : Kern} {x : Dinode} (h : CacheInv L s) (hu : (s.slot k).Used)
    (hsound : Sound L kern.disk)
    (hinodes : ∀ j, j < L.ninodes → j ≠ (s.slot k).inum →
      dinode L kern.disk j = dinode L s.kern.disk j)
    (hstored : dinode L kern.disk (s.slot k).inum = x) (ht : x.type ≠ 0) :
    CacheInv L ({ s with kern := kern }.setSlot k { s.slot k with copy := x }) := by
  have huniq : ∀ j, j ≠ k → (s.slot j).Used → (s.slot j).inum ≠ (s.slot k).inum :=
    fun j hj hju heq => hj (h.unique j k hju hu heq)
  exact h.change hsound hinodes (fun _ => h.inum_lt k hu) (fun _ _ => ⟨hstored.symm, ht⟩)
    (fun j hj hju _ heq => absurd heq (huniq j hj hju)) (fun _ => huniq)

/-! ### References and locks of a call -/

/-- The invariant inside a call: it has taken the references `l`, and it has locked
    the inodes `o` and loaded them. -/
structure Holding (L : Layout) (base : Before) (l o : List NIdx) (s : FsState) : Prop where
  inv : CacheInv L s
  counts : ∀ k, (s.slot k).ref = base.ref k + l.count k
  proc : SameProc base s
  locked : ∀ k ∈ o, (s.slot k).lock = true ∧ (s.slot k).valid = true
  held : ∀ k ∈ o, k ∈ l
  nodup : o.Nodup

section

variable (h : Holding L base l o s)

include h

theorem Holding.used (hk : k ∈ l) : (s.slot k).Used := by
  have hpos := List.count_pos_iff.mpr hk
  have := h.counts k
  unfold Slot.Used
  omega

theorem Holding.perm {l' o' : List NIdx} (hl : l.Perm l') (ho : o.Perm o') :
    Holding L base l' o' s where
  __ := h
  counts := fun k => by rw [h.counts k, hl.count_eq]
  locked := fun k hk => h.locked k (ho.mem_iff.mpr hk)
  held := fun k hk => hl.mem_iff.mp (h.held k (ho.mem_iff.mpr hk))
  nodup := ho.nodup_iff.mp h.nodup

/-- An action on the slot `k` that leaves its reference count and, where the call has
    locked it, its lock. -/
theorem Holding.slot (hinv : CacheInv L s') {o' : List NIdx}
    (hslot : ∀ j, j ≠ k → s'.slot j = s.slot j) (href : (s'.slot k).ref = (s.slot k).ref)
    (hk : k ∈ o' → (s'.slot k).lock = true ∧ (s'.slot k).valid = true ∧ k ∈ l)
    (ho : ∀ j ∈ o', j ≠ k → j ∈ o) (hnodup : o'.Nodup) (hproc : SameProc base s') :
    Holding L base l o' s' := by
  refine ⟨hinv, fun j => ?_, hproc, fun j hj => ?_, fun j hj => ?_, hnodup⟩
  · by_cases hjk : j = k
    · rw [hjk, href, h.counts k]
    · rw [hslot j hjk, h.counts j]
  · by_cases hjk : j = k
    · subst hjk
      exact ⟨(hk hj).1, (hk hj).2.1⟩
    · rw [hslot j hjk]
      exact h.locked j (ho j hj hjk)
  · by_cases hjk : j = k
    · subst hjk
      exact (hk hj).2.2
    · exact h.held j (ho j hj hjk)

/-- A change of a reference count. -/
theorem Holding.recount {l' : List NIdx} (hinv : CacheInv L s')
    (hslot : ∀ j, j ≠ k → s'.slot j = s.slot j) (href : (s'.slot k).ref = base.ref k + l'.count k)
    (hl : ∀ j, j ≠ k → l'.count j = l.count j)
    (hk : k ∈ o → (s'.slot k).lock = true ∧ (s'.slot k).valid = true ∧ k ∈ l')
    (hproc : SameProc base s') : Holding L base l' o s' := by
  refine ⟨hinv, fun j => ?_, hproc, fun j hj => ?_, fun j hj => ?_, h.nodup⟩
  · by_cases hjk : j = k
    · rw [hjk, href]
    · rw [hslot j hjk, h.counts j, hl j hjk]
  · by_cases hjk : j = k
    · subst hjk
      exact ⟨(hk hj).1, (hk hj).2.1⟩
    · rw [hslot j hjk]
      exact h.locked j hj
  · by_cases hjk : j = k
    · subst hjk
      exact (hk hj).2.2
    · rw [← List.count_pos_iff, hl j hjk, List.count_pos_iff]
      exact h.held j hj

end

/-- The changes of a state that `CacheInv` does not see. -/
theorem CacheInv.congr (h : CacheInv L s) (hdisk : s'.kern.disk = s.kern.disk)
    (hslot : s'.slot = s.slot) : CacheInv L s' := by
  refine ⟨?_, ?_, ?_, ?_, ?_⟩
  · rw [hdisk]
    exact h.sound
  · rw [hslot]
    exact h.inum_lt
  · rw [hslot, hdisk]
    exact h.sync
  · rw [hslot]
    exact h.alloc
  · rw [hslot]
    exact h.unique

theorem Holding.congr (h : Holding L base l o s) (hdisk : s'.kern.disk = s.kern.disk)
    (hslot : s'.slot = s.slot) (hproc : SameProc base s') : Holding L base l o s' := by
  refine ⟨h.inv.congr hdisk hslot, ?_, hproc, ?_, h.held, h.nodup⟩
  · rw [hslot]
    exact h.counts
  · rw [hslot]
    exact h.locked

/-! ### The functions on slots -/

theorem addRef_holding (h : Holding L base l o s) (hu : (s.slot k).Used) :
    Holding L base (k :: l) o
      (s.setSlot k { s.slot k with ref := (s.slot k).ref + 1 }) := by
  refine h.recount (h.inv.touch (fun _ => hu) rfl rfl rfl) (fun j hj => slot_setSlot_of_ne hj)
    ?_ (fun j hj => List.count_cons_of_ne (Ne.symm hj)) ?_ ⟨h.proc.1, h.proc.2, h.proc.3⟩
  · rw [slot_setSlot_self, List.count_cons_self]
    have := h.counts k
    dsimp only
    omega
  · intro hk
    rw [slot_setSlot_self]
    exact ⟨(h.locked k hk).1, (h.locked k hk).2, List.mem_cons_self⟩

theorem idup_holds (h : Holding L base l o s) (hu : (s.slot k).Used) :
    (idup k).Holds (CacheInv L) (fun j => Holding L base (j :: l) o) s := by
  refine holds_atom fun a s' hf => ?_
  cases hf
  have h' := addRef_holding h hu
  exact ⟨h'.inv, h'⟩

/-- The slot that `iget` takes is that of the inode, or it is free and no slot is that
    of the inode. -/
theorem igetSlot_cases {inum : Nat} (h : igetSlot s inum = some k) :
    ((s.slot k).Used ∧ (s.slot k).inum = inum) ∨
      ((s.slot k).ref = 0 ∧ ∀ j, (s.slot j).Used → (s.slot j).inum ≠ inum) := by
  unfold igetSlot at h
  split at h
  · rename_i j hfind
    cases h
    have hfound := List.find?_some hfind
    have hboth := of_decide_eq_true hfound
    exact Or.inl hboth
  · rename_i hfind
    have hfound := List.find?_some h
    have hzero := of_decide_eq_true hfound
    refine Or.inr ⟨hzero, fun j hu heq => ?_⟩
    have hnone := List.find?_eq_none.mp hfind j (List.mem_finRange j)
    have hboth : 0 < (s.slot j).ref ∧ (s.slot j).inum = inum := ⟨hu, heq⟩
    exact hnone (decide_eq_true hboth)

theorem iget_holds {inum : Nat} (h : Holding L base l o s) (hlt : inum < L.ninodes) :
    (iget inum).Holds (CacheInv L) (fun j => Holding L base (j :: l) o) s := by
  refine holds_atom fun a s' hf => ?_
  suffices h' : Holding L base (a :: l) o s' from ⟨h'.inv, h'⟩
  cases hslot : igetSlot s inum with
  | none =>
    simp only [hslot] at hf
    cases hf
  | some k =>
    simp only [hslot] at hf
    rcases igetSlot_cases hslot with ⟨hu, _⟩ | ⟨hfree, hnone⟩
    · have hpos : 0 < (s.slot k).ref := hu
      rw [if_pos hpos] at hf
      cases hf
      exact addRef_holding h hu
    · -- the slot is recycled
      have hcount := h.counts k
      have hnot : k ∉ l := fun hk => by
        have := h.used hk
        unfold Slot.Used at this
        omega
      rw [if_neg (by omega)] at hf
      cases hf
      refine h.recount (h.inv.setSlot (fun _ => hlt) (fun _ hv => ?_) (fun _ j _ hu => hnone j hu))
        (fun j hj => slot_setSlot_of_ne hj) ?_ (fun j hj => List.count_cons_of_ne (Ne.symm hj)) ?_
        ⟨h.proc.1, h.proc.2, h.proc.3⟩
      · exact absurd hv Bool.false_ne_true
      · rw [slot_setSlot_self, List.count_cons_self, List.count_eq_zero.mpr hnot]
        dsimp only
        omega
      · intro hk
        exact absurd (h.held _ hk) hnot

theorem acquiresleep_holds (h : Holding L base l o s) :
    (acquiresleep k).Holds (CacheInv L) (fun _ s' => Holding L base l o s' ∧ k ∉ o ∧
      (s'.slot k).lock = true ∧ s'.kern = s.kern ∧ s'.slot k = { s.slot k with lock := true }) s := by
  refine holds_atom fun a s' hf => ?_
  split at hf
  · cases hf
  · rename_i hfree
    cases hf
    have hnot : k ∉ o := fun hk => hfree (h.locked k hk).1
    have hinv : CacheInv L (s.setSlot k { s.slot k with lock := true }) :=
      h.inv.touch (fun hu => hu) rfl rfl rfl
    have h' : Holding L base l o (s.setSlot k { s.slot k with lock := true }) := by
      refine h.slot hinv (fun j hj => slot_setSlot_of_ne hj) ?_
        (fun hk => absurd hk hnot) (fun j hj _ => hj) h.nodup ⟨h.proc.1, h.proc.2, h.proc.3⟩
      rw [slot_setSlot_self]
    refine ⟨h'.inv, h', hnot, ?_, rfl, slot_setSlot_self⟩
    rw [slot_setSlot_self]

theorem ilock_holds (hL : C.layout = L) (h : Holding L base l o s) (hk : k ∈ l) :
    (ilock C k).Holds (CacheInv L) (fun _ s' => Holding L base l (k :: o) s' ∧
      s'.kern = s.kern ∧ (s'.slot k).inum = (s.slot k).inum) s := by
  subst hL
  refine holds_read_bind h.inv (holds_failIf_bind fun _ => ?_)
  refine (acquiresleep_holds h).bind ?_
  rintro _ s₁ ⟨h₁, hnot, hlock, hkern, hslot⟩
  have hinum : (s₁.slot k).inum = (s.slot k).inum := by rw [hslot]
  refine holds_atom fun a s' hf => ?_
  split at hf
  · rename_i hvalid
    cases hf
    have h' : Holding C.layout base l (k :: o) s₁ :=
      h₁.slot h₁.inv (fun _ _ => rfl) rfl (fun _ => ⟨hlock, hvalid, hk⟩)
        (fun j hj hjk => (List.mem_cons.mp hj).resolve_left hjk) (List.nodup_cons.mpr ⟨hnot, h.nodup⟩)
        h₁.proc
    exact ⟨h'.inv, h', hkern, hinum⟩
  · dsimp only at hf
    split at hf
    · cases hf
    · rename_i ht
      cases hf
      have hu := h₁.used hk
      -- the copy is read from the disk
      have hinv : CacheInv C.layout (s₁.setSlot k { s₁.slot k with
          valid := true, copy := dinode C.layout s₁.kern.disk (s₁.slot k).inum }) :=
        h₁.inv.setSlot (fun _ => h₁.inv.inum_lt k hu) (fun _ _ => ⟨rfl, ht⟩)
          (fun _ j hj hju heq => hj (h₁.inv.unique j k hju hu heq))
      have h' : Holding C.layout base l (k :: o) (s₁.setSlot k { s₁.slot k with
          valid := true, copy := dinode C.layout s₁.kern.disk (s₁.slot k).inum }) := by
        refine h₁.slot hinv (fun j hj => slot_setSlot_of_ne hj) ?_ (fun _ => ?_)
          (fun j hj hjk => (List.mem_cons.mp hj).resolve_left hjk)
          (List.nodup_cons.mpr ⟨hnot, h.nodup⟩) ⟨h₁.proc.1, h₁.proc.2, h₁.proc.3⟩
        · rw [slot_setSlot_self]
        · rw [slot_setSlot_self]
          exact ⟨hlock, rfl, hk⟩
      refine ⟨h'.inv, h', hkern, ?_⟩
      rw [slot_setSlot_self]
      exact hinum

theorem releasesleep_holds (h : Holding L base l o s) (hk : k ∉ o) :
    (releasesleep k).Holds (CacheInv L) (fun _ s' => Holding L base l o s' ∧ s'.kern = s.kern ∧
      s'.slot k = { s.slot k with lock := false }) s := by
  have hinv : CacheInv L (s.setSlot k { s.slot k with lock := false }) :=
    h.inv.touch (fun hu => hu) rfl rfl rfl
  have h' : Holding L base l o (s.setSlot k { s.slot k with lock := false }) := by
    refine h.slot hinv (fun j hj => slot_setSlot_of_ne hj) ?_
      (fun hko => absurd hko hk) (fun j hj _ => hj) h.nodup ⟨h.proc.1, h.proc.2, h.proc.3⟩
    rw [slot_setSlot_self]
  exact holds_modify h'.inv ⟨h', rfl, slot_setSlot_self⟩

/-- The call forgets that it has locked an inode. -/
theorem Holding.forget (h : Holding L base l (k :: o) s) : Holding L base l o s where
  __ := h
  locked := fun j hj => h.locked j (List.mem_cons_of_mem _ hj)
  held := fun j hj => h.held j (List.mem_cons_of_mem _ hj)
  nodup := (List.nodup_cons.mp h.nodup).2

theorem iunlock_holds (h : Holding L base l (k :: o) s) :
    (iunlock k).Holds (CacheInv L) (fun _ s' => Holding L base l o s' ∧ s'.kern = s.kern ∧
      (s'.slot k).inum = (s.slot k).inum) s := by
  refine holds_read_bind h.inv (holds_failIf_bind fun _ => ?_)
  refine (releasesleep_holds h.forget (List.nodup_cons.mp h.nodup).1).mono ?_
  rintro _ t ⟨h', hkern, hslot⟩
  refine ⟨h', hkern, ?_⟩
  rw [hslot]

/-! ### The functions on the inode of a slot -/

/-- An action on the inode of a slot that the call has loaded: what it has to show of
    the disk. -/
theorem onInode_holds {α : Type} {f : Kern → Nat → Dinode → Except Halt (α × Dinode × Kern)}
    {P : α → Dinode → Kern → Prop} (h : Holding L base l o s) (hk : k ∈ l)
    (hf : ∀ a x kern, f s.kern (s.slot k).inum (s.slot k).copy = .ok (a, x, kern) →
      Sound L kern.disk ∧ (∀ j, j < L.ninodes → j ≠ (s.slot k).inum →
        dinode L kern.disk j = dinode L s.kern.disk j) ∧
      dinode L kern.disk (s.slot k).inum = x ∧ x.type ≠ 0 ∧ P a x kern) :
    (onInode k f).Holds (CacheInv L) (fun a s' => Holding L base l o s' ∧
      s'.slot k = { s.slot k with copy := (s'.slot k).copy } ∧
      P a (s'.slot k).copy s'.kern) s := by
  refine holds_atom fun a s' hrun => ?_
  cases hres : f s.kern (s.slot k).inum (s.slot k).copy with
  | error e =>
    simp only [hres] at hrun
    cases hrun
  | ok r =>
    obtain ⟨a', x, kern⟩ := r
    simp only [hres] at hrun
    cases hrun
    obtain ⟨hsound, hinodes, hstored, ht, hP⟩ := hf _ _ _ hres
    have hinv := h.inv.onInode (h.used hk) hsound hinodes hstored ht
    have hself : ({ s with kern := kern }.setSlot k { s.slot k with copy := x }).slot k =
        { s.slot k with copy := x } := slot_setSlot_self
    have h' : Holding L base l o
        ({ s with kern := kern }.setSlot k { s.slot k with copy := x }) := by
      refine h.slot hinv (fun j hj => slot_setSlot_of_ne hj) ?_ (fun hko => ?_) (fun j hj _ => hj)
        h.nodup ⟨h.proc.1, h.proc.2, h.proc.3⟩
      · rw [hself]
      · rw [hself]
        exact ⟨(h.locked k hko).1, (h.locked k hko).2, hk⟩
    refine ⟨h'.inv, h', ?_, ?_⟩
    · rw [hself]
    · rw [hself]
      exact hP

/-- What the invariant says of the inode in a slot that is in use and valid. -/
theorem CacheInv.loaded (h : CacheInv L s) (hu : (s.slot k).Used) (hv : (s.slot k).valid = true) :
    (s.slot k).copy = dinode L s.kern.disk (s.slot k).inum ∧ (s.slot k).inum < L.ninodes ∧
      (s.slot k).copy.type ≠ 0 ∧ NoHoles s.kern.disk (s.slot k).copy := by
  have hsync := h.sync k hu hv
  have ht := h.alloc k hu hv
  have hlt := h.inum_lt k hu
  refine ⟨hsync, hlt, ht, ?_⟩
  rw [hsync] at ht ⊢
  exact h.sound.noHoles _ hlt ht

/-- **`readi`** of an inode that is in use and valid, with a log that takes no block: it
    returns, and it changes nothing. -/
theorem CacheInv.readi_quiet (h : CacheInv L s) (hu : (s.slot k).Used)
    (hv : (s.slot k).valid = true) (off : Nat) {n : Nat} (hn : n < 4294967296) :
    ∃ r, readi C s.kern (s.slot k).copy off n = .ok (r, (s.slot k).copy, s.kern) := by
  obtain ⟨_, _, _, hno⟩ := h.loaded hu hv
  by_cases hdev : (s.slot k).copy.type = T_DEV
  · refine ⟨C.devread (s.slot k).copy.major n, ?_⟩
    unfold readi
    rw [if_pos hdev]
    rfl
  · exact ⟨_, readi_eq hno hdev hn⟩

/-- `readi` leaves the state, and it returns the bytes of the file. -/
theorem read_holds (h : Holding L base l o s) (hk : k ∈ o) (off : Nat) {n : Nat}
    (hn : n < 4294967296) :
    (read C k off n).Holds (CacheInv L) (fun r s' => Holding L base l o s' ∧ s' = s ∧
      ∃ kern, readi C s.kern (s.slot k).copy off n = .ok (r, (s.slot k).copy, kern)) s := by
  obtain ⟨_, hv⟩ := h.locked k hk
  obtain ⟨r, hread⟩ := h.inv.readi_quiet (h.used (h.held k hk)) hv off hn (C := C)
  refine holds_atom fun a s' hrun => ?_
  simp only [hread] at hrun
  cases hrun
  have hsame : { s with kern := s.kern }.setSlot k { s.slot k with copy := (s.slot k).copy } = s := by
    unfold FsState.setSlot
    dsimp only
    rw [Function.update_eq_self]
  rw [hsame]
  exact ⟨h.inv, h, rfl, s.kern, hread⟩

theorem write_holds (hL : C.layout = L) (h : Holding L base l o s) (hk : k ∈ o) {off : Nat}
    {src : List Byte} (hlen : src.length < 4294967296)
    (hok : WriteOk L (s.slot k).copy off src) :
    (write C k off src).Holds (CacheInv L) (fun _ s' => Holding L base l o s' ∧
      s'.slot k = { s.slot k with copy := (s'.slot k).copy } ∧
      (s'.slot k).copy.type = (s.slot k).copy.type) s := by
  have hkl := h.held k hk
  obtain ⟨_, hv⟩ := h.locked k hk
  obtain ⟨hsync, hlt, ht, hno⟩ := h.inv.loaded (h.used hkl) hv
  refine onInode_holds (P := fun _ x _ => x.type = (s.slot k).copy.type) h hkl
    fun a x kern hrun => ?_
  by_cases hdev : (s.slot k).copy.type = T_DEV
  · -- a device has no contents on the disk
    unfold writei at hrun
    rw [if_pos hdev] at hrun
    cases hrun
    exact ⟨h.inv.sound, fun _ _ _ => rfl, hsync.symm, ht, rfl⟩
  · rw [hsync] at hrun hdev ht hno hok ⊢
    rcases writei_ok hL hlt h.inv.sound.own ht hdev hno hlen hrun with
      ⟨_, hx, hs, _⟩ | ⟨_, hoff, _, hw⟩
    · rw [hs, hx]
      exact ⟨h.inv.sound, fun _ _ _ => rfl, rfl, ht, rfl⟩
    · obtain ⟨hsound, hstored⟩ := h.inv.sound.write hlt hw hoff hok
      have htype : x.type = (dinode L s.kern.disk (s.slot k).inum).type := by rw [hw.fields]
      refine ⟨hsound, hw.inodes, hstored, ?_, htype⟩
      rw [htype]
      exact ht

/-- A change of `major`, `minor` and `nlink`. -/
structure FieldsOnly (f : Dinode → Dinode) : Prop where
  type : ∀ x, (f x).type = x.type
  size : ∀ x, (f x).size = x.size
  addrs : ∀ x, (f x).addrs = x.addrs

theorem fieldsOnly_addLink : FieldsOnly Dinode.addLink := ⟨fun _ => rfl, fun _ => rfl, fun _ => rfl⟩

theorem fieldsOnly_dropLink : FieldsOnly Dinode.dropLink :=
  ⟨fun _ => rfl, fun _ => rfl, fun _ => rfl⟩

theorem fieldsOnly_node (major minor : BitVec 16) : FieldsOnly (Dinode.node major minor) :=
  ⟨fun _ => rfl, fun _ => rfl, fun _ => rfl⟩

section

variable (hL : C.layout = L) (h : Holding L base l o s)

include hL h

theorem update_holds (hk : k ∈ o) {f : Dinode → Dinode} (hf : FieldsOnly f) :
    (update C k f).Holds (CacheInv L) (fun _ s' => Holding L base l o s' ∧
      s'.slot k = { s.slot k with copy := f (s.slot k).copy }) s := by
  have hkl := h.held k hk
  obtain ⟨_, hv⟩ := h.locked k hk
  obtain ⟨hsync, hlt, ht, _⟩ := h.inv.loaded (h.used hkl) hv
  refine (onInode_holds (P := fun _ x _ => x = f (s.slot k).copy) h hkl
    fun a x kern hrun => ?_).mono fun _ s' hr => ⟨hr.1, ?_⟩
  · cases hup : iupdate C s.kern (s.slot k).inum (f (s.slot k).copy) with
    | error e =>
      simp only [hup] at hrun
      cases hrun
    | ok kern' =>
      simp only [hup] at hrun
      cases hrun
      rw [iupdate_ok hL hup]
      refine ⟨h.inv.sound.fields hlt ?_ ?_ ?_, fun j _ hj => dinode_setDinode_of_ne hj,
        dinode_setDinode_self, ?_, rfl⟩
      · rw [hf.type, hsync]
      · rw [hf.size, hsync]
      · rw [hf.addrs, hsync]
      · rw [hf.type]
        exact ht
  · rw [hr.2.1, hr.2.2]

/-! ### `iput` -/

theorem truncate_holds (hk : k ∈ l) (hv : (s.slot k).valid = true) :
    (truncate C k).Holds (CacheInv L) (fun _ s' => Holding L base l o s' ∧
      s'.slot k = { s.slot k with copy := (s'.slot k).copy } ∧ (s'.slot k).copy.Empty ∧
      (s'.slot k).copy.size = 0) s := by
  obtain ⟨hsync, hlt, ht, _⟩ := h.inv.loaded (h.used hk) hv
  refine onInode_holds (P := fun _ x _ => x.Empty ∧ x.size = 0) h hk fun a x kern hrun => ?_
  cases htr : itrunc C s.kern (s.slot k).inum (s.slot k).copy with
  | error e =>
    simp only [htr] at hrun
    cases hrun
  | ok r =>
    simp only [htr] at hrun
    cases hrun
    rw [hsync] at htr ht
    have hdone := itrunc_ok hL h.inv.sound.own hlt ht htr
    refine ⟨h.inv.sound.truncated hdone, hdone.inodes, hdone.stored, ?_, ?_, ?_⟩
    · rw [hdone.inode]
      exact ht
    · rw [hdone.inode]
      exact Dinode.empty_of_addrs rfl
    · rw [hdone.inode]

theorem erase_holds (hk : k ∈ l) (hko : k ∉ o)
    (hv : (s.slot k).valid = true) (hempty : (s.slot k).copy.Empty)
    (hsize : (s.slot k).copy.size = 0) :
    (erase C k).Holds (CacheInv L) (fun _ s' => Holding L base l o s') s := by
  have hu := h.used hk
  obtain ⟨hsync, hlt, _, _⟩ := h.inv.loaded hu hv
  refine holds_atom fun a s' hrun => ?_
  cases hup : iupdate C s.kern (s.slot k).inum { (s.slot k).copy with type := 0 } with
  | error e =>
    simp only [hup] at hrun
    cases hrun
  | ok kern =>
    simp only [hup] at hrun
    cases hrun
    have hdisk := iupdate_ok hL hup
    -- the inode has no block, so nothing is lost
    have hnone : ∀ p b, ¬ Refs L (dinode L s.kern.disk) s.kern.disk (s.slot k).inum p b := by
      intro p b href
      have haddr := href.addr
      rw [← hsync, hempty.slotAddr] at haddr
      exact href.ne_zero haddr.symm
    have hsound : Sound L kern.disk := by
      rw [hdisk]
      exact h.inv.sound.empty hlt hnone hempty hsize
    have huniq : ∀ j, j ≠ k → (s.slot j).Used → (s.slot j).inum ≠ (s.slot k).inum :=
      fun j hj hju heq => hj (h.inv.unique j k hju hu heq)
    have hinv : CacheInv L ({ s with kern := kern }.setSlot k { s.slot k with
        copy := { (s.slot k).copy with type := 0 }, valid := false }) := by
      refine h.inv.change hsound (fun j _ hj => ?_) (fun _ => hlt)
        (fun _ hfalse => absurd hfalse Bool.false_ne_true)
        (fun j hj hju _ heq => absurd heq (huniq j hj hju)) (fun _ => huniq)
      rw [hdisk]
      exact dinode_setDinode_of_ne hj
    have hself : ({ s with kern := kern }.setSlot k { s.slot k with
        copy := { (s.slot k).copy with type := 0 }, valid := false }).slot k =
        { s.slot k with copy := { (s.slot k).copy with type := 0 }, valid := false } :=
      slot_setSlot_self
    have h' : Holding L base l o ({ s with kern := kern }.setSlot k { s.slot k with
        copy := { (s.slot k).copy with type := 0 }, valid := false }) := by
      refine h.slot hinv (fun j hj => slot_setSlot_of_ne hj) ?_ (fun hmem => absurd hmem hko)
        (fun j hj _ => hj) h.nodup ⟨h.proc.1, h.proc.2, h.proc.3⟩
      rw [hself]
    exact ⟨h'.inv, h'⟩

end

theorem unref_holds (h : Holding L base (k :: l) o s) (hko : k ∉ o) :
    (unref k).Holds (CacheInv L) (fun _ s' => Holding L base l o s') s := by
  have hu := h.used List.mem_cons_self
  have hinv : CacheInv L (s.setSlot k { s.slot k with ref := (s.slot k).ref - 1 }) :=
    h.inv.touch (fun _ => hu) rfl rfl rfl
  have h' : Holding L base l o (s.setSlot k { s.slot k with ref := (s.slot k).ref - 1 }) := by
    refine h.recount hinv (fun j hj => slot_setSlot_of_ne hj) ?_
      (fun j hj => (List.count_cons_of_ne (Ne.symm hj)).symm) (fun hmem => absurd hmem hko)
      ⟨h.proc.1, h.proc.2, h.proc.3⟩
    have hcount := h.counts k
    rw [List.count_cons_self] at hcount
    rw [slot_setSlot_self]
    dsimp only
    omega
  exact holds_modify h'.inv h'

theorem iput_holds (hL : C.layout = L) (h : Holding L base (k :: l) o s) :
    (iput C k).Holds (CacheInv L) (fun _ s' => Holding L base l o s') s := by
  refine (acquiresleep_holds h).bind ?_
  rintro _ s₁ ⟨h₁, hko, _⟩
  refine holds_read_bind h₁.inv ?_
  refine Holds.bind (Q := fun _ t => Holding L base (k :: l) o t)
    (holds_whenever (fun hc => ?_) fun _ => h₁) ?_
  · refine (truncate_holds hL h₁ List.mem_cons_self hc.1).bind ?_
    rintro _ s₂ ⟨h₂, hslot, hempty, hsize⟩
    refine erase_holds hL h₂ List.mem_cons_self hko ?_ hempty hsize
    rw [hslot]
    exact hc.1
  · intro _ s₂ h₂
    refine (releasesleep_holds h₂ hko).bind ?_
    rintro _ s₃ ⟨h₃, _, _⟩
    exact unref_holds h₃ hko

theorem iunlockput_holds (hL : C.layout = L) (h : Holding L base (k :: l) (k :: o) s) :
    (iunlockput C k).Holds (CacheInv L) (fun _ s' => Holding L base l o s') s :=
  (iunlock_holds h).bind fun _ _ h₁ => iput_holds hL h₁.1

theorem end_op_holds (h : Holding L base l o s) :
    end_op.Holds (CacheInv L) (fun _ s' => Holding L base l o s') s := by
  have h' : Holding L base l o { s with kern := { s.kern with lh := [] } } :=
    h.congr rfl rfl ⟨h.proc.1, h.proc.2, h.proc.3⟩
  exact holds_modify h'.inv h'

/-! ### `ialloc` -/

theorem allocInode_holds (hL : C.layout = L) {type : BitVec 16} (h : Holding L base l o s) :
    (allocInode C type).Holds (CacheInv L) (fun j => Holding L base (j :: l) o) s := by
  refine Holds.bind (Q := fun i t => Holding L base l o t ∧ i < L.ninodes) ?_
    fun i t ht => iget_holds ht.1 ht.2
  refine holds_atom fun i s' hrun => ?_
  cases hal : ialloc C s.kern type with
  | error e =>
    simp only [hal] at hrun
    cases hrun
  | ok r =>
    simp only [hal] at hrun
    cases hrun
    obtain ⟨_, hlt, hfree, hdisk⟩ := ialloc_ok hL hal
    have hsound : Sound L r.2.disk := by
      rw [hdisk]
      exact h.inv.sound.empty hlt (fun p b href => href.alloc hfree)
        (Dinode.empty_of_addrs rfl) rfl
    -- a slot that is valid has an inode that is allocated, so it is another one
    have hne : ∀ k, (s.slot k).Used → (s.slot k).valid = true → (s.slot k).inum ≠ r.1 := by
      intro k hu hv heq
      have ht := h.inv.alloc k hu hv
      rw [h.inv.sync k hu hv, heq] at ht
      exact ht hfree
    have hinv : CacheInv L { s with kern := r.2 } := by
      refine ⟨hsound, h.inv.inum_lt, fun k hu hv => ?_, h.inv.alloc, h.inv.unique⟩
      dsimp only at hu hv ⊢
      rw [hdisk, dinode_setDinode_of_ne (hne k hu hv)]
      exact h.inv.sync k hu hv
    have h' : Holding L base l o { s with kern := r.2 } :=
      ⟨hinv, h.counts, ⟨h.proc.1, h.proc.2, h.proc.3⟩, h.locked, h.held, h.nodup⟩
    exact ⟨hinv, h', hlt⟩

end Xv6.Disk
