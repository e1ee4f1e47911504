import Xv6.Params

/-! # Directories

    A directory is a file that holds a sequence of `struct dirent`, of which
    `dirlookup`, `dirlink` and `isdirempty` read one after the other. The
    inode is modelled with what these functions and the system calls on
    directories use of it; its blocks are not. `skipelem` has cut a path into
    its elements, each of at most `DIRSIZ` bytes.
-/

namespace Xv6.Fs

abbrev Inum : Type := Nat

/-- A path element. -/
abbrev Name : Type := List Byte

/-- `"."` -/
def dot : Name := [46]

/-- `".."` -/
def dotdot : Name := [46, 46]

def ROOTINO : Inum := 1

/-- The bytes of `de.name`. -/
def DIRSIZ : Nat := 14

/-- `sizeof(struct dirent)` -/
def DIRENT : Nat := 16

/-- `struct dirent`. -/
structure Dirent where
  inum : Inum
  name : Name
  deriving DecidableEq

/-- The types of an inode: 0, `T_DIR`, `T_FILE` and `T_DEV`. -/
inductive IType where
  | free | dir | file | dev
  deriving DecidableEq

/-- An inode; `slot` is the contents of a directory. -/
structure Inode where
  type : IType
  nlink : Int
  size : Nat
  slot : Nat → Dirent

/-- The calls of `panic` on directories. -/
inductive FsPanic where
  /-- `"ilock: no type"` -/
  | ilockNoType
  /-- `"ialloc: no inodes"` -/
  | iallocNoInodes
  /-- `"dirlookup not DIR"` -/
  | dirlookupNotDir
  /-- `"dirlookup read"` -/
  | dirlookupRead
  /-- `"dirlink read"` -/
  | dirlinkRead
  /-- `"dirlink"` -/
  | dirlink
  /-- `"isdirempty: readi"` -/
  | isdiremptyReadi
  /-- `"unlink: nlink < 1"` -/
  | unlinkNlink
  /-- `"create dots"` -/
  | createDots
  /-- `"create: dirlink"` -/
  | createDirlink
  deriving DecidableEq

/-! ### Reading a directory -/

/-- A loop over the entries of `dp` from `off` on, up to the first that is a
    `hit`; `e` is the panic where an entry cannot be read whole. -/
def scan (e : FsPanic) (dp : Inode) (hit : Dirent → Bool) : Nat → Nat → Except FsPanic (Option Nat)
  | 0, _ => .ok none
  | n + 1, off =>
    if off < dp.size then
      if dp.size < off + DIRENT then .error e
      else if hit (dp.slot (off / DIRENT)) then .ok (some (off / DIRENT))
      else scan e dp hit n (off + DIRENT)
    else .ok none

/-- The entry with that name. -/
def dirlookup (dp : Inode) (name : Name) : Except FsPanic (Option Nat) :=
  if dp.type ≠ .dir then .error .dirlookupNotDir
  else scan .dirlookupRead dp (fun de => decide (de.inum ≠ 0 ∧ de.name = name)) (dp.size + 1) 0

/-- The loop of `dirlink` for an empty entry. -/
def emptySlot (dp : Inode) : Except FsPanic (Option Nat) :=
  scan .dirlinkRead dp (fun de => decide (de.inum = 0)) (dp.size + 1) 0

def isdirempty (dp : Inode) : Except FsPanic Bool :=
  (scan .isdiremptyReadi dp (fun de => decide (de.inum ≠ 0)) (dp.size + 1) (2 * DIRENT)).map
    Option.isNone

/-- `writei` of the entry `k`. -/
def Inode.write (dp : Inode) (k : Nat) (de : Dirent) : Inode :=
  { dp with slot := Function.update dp.slot k de, size := max dp.size (DIRENT * k + DIRENT) }

/-- `dirlink`: the entry that has the name already, or the directory with a new
    entry. -/
def dirlink (dp : Inode) (name : Name) (inum : Inum) : Except FsPanic (Nat ⊕ Inode) := do
  match ← dirlookup dp name with
  | some k => .ok (.inl k)
  | none =>
    let k := (← emptySlot dp).getD (dp.size / DIRENT)
    if MAXFILE * BSIZE < DIRENT * k + DIRENT then .error .dirlink
    else .ok (.inr (dp.write k ⟨inum, name⟩))

/-! ### What the loops find -/

/-- A directory whose size is a number of entries. -/
theorem scan_spec (e : FsPanic) {dp : Inode} (hit : Dirent → Bool) (hsize : DIRENT ∣ dp.size) :
    ∀ n i : Nat, dp.size < DIRENT * i + n →
      (scan e dp hit n (DIRENT * i) = .ok none ∧
        ∀ k, i ≤ k → DIRENT * k < dp.size → hit (dp.slot k) = false) ∨
      ∃ k, scan e dp hit n (DIRENT * i) = .ok (some k) ∧ i ≤ k ∧ DIRENT * k < dp.size ∧
        hit (dp.slot k) = true ∧ ∀ j, i ≤ j → j < k → hit (dp.slot j) = false := by
  obtain ⟨m, hm⟩ := hsize
  have h16 : DIRENT = 16 := rfl
  intro n
  induction n with
  | zero =>
    intro i hn
    refine Or.inl ⟨rfl, fun k hk hlt => ?_⟩
    have := Nat.mul_le_mul_left DIRENT hk
    omega
  | succ n ih =>
    intro i hn
    unfold scan
    by_cases hoff : DIRENT * i < dp.size
    · have hwhole : ¬ dp.size < DIRENT * i + DIRENT := by
        rw [h16] at hm hoff ⊢
        omega
      have hdiv : DIRENT * i / DIRENT = i := Nat.mul_div_cancel_left i (by rw [h16]; decide)
      rw [if_pos hoff, if_neg hwhole, hdiv]
      by_cases hhit : hit (dp.slot i) = true
      · rw [if_pos hhit]
        exact Or.inr ⟨i, rfl, le_refl i, hoff, hhit, fun j hij hji => by omega⟩
      · rw [if_neg hhit]
        have hnext : DIRENT * i + DIRENT = DIRENT * (i + 1) := by rw [Nat.mul_succ]
        rw [hnext]
        have hfalse : hit (dp.slot i) = false := (Bool.not_eq_true _).mp hhit
        rcases ih (i + 1) (by rw [← hnext, h16]; rw [h16] at hn; omega) with
          ⟨hnone, hall⟩ | ⟨k, hsome, hik, hlt, hk, hbefore⟩
        · refine Or.inl ⟨hnone, fun k hk hlt => ?_⟩
          rcases Nat.eq_or_lt_of_le hk with rfl | hgt
          · exact hfalse
          · exact hall k hgt hlt
        · refine Or.inr ⟨k, hsome, by omega, hlt, hk, fun j hij hjk => ?_⟩
          rcases Nat.eq_or_lt_of_le hij with rfl | hgt
          · exact hfalse
          · exact hbefore j hgt hjk
    · rw [if_neg hoff]
      refine Or.inl ⟨rfl, fun k hk hlt => ?_⟩
      have := Nat.mul_le_mul_left DIRENT hk
      omega

/-- The loops do not read the link count. -/
theorem scan_setNlink (e : FsPanic) (dp : Inode) (hit : Dirent → Bool) (m : Int) :
    ∀ n off, scan e { dp with nlink := m } hit n off = scan e dp hit n off := by
  intro n
  induction n with
  | zero =>
    intro off
    rfl
  | succ n ih =>
    intro off
    unfold scan
    rw [ih]

theorem dirlookup_setNlink (dp : Inode) (m : Int) (name : Name) :
    dirlookup { dp with nlink := m } name = dirlookup dp name := by
  unfold dirlookup
  rw [scan_setNlink]

/-- The entry `k` of a directory is in use. -/
def Inode.Used (dp : Inode) (k : Nat) : Prop :=
  DIRENT * k < dp.size ∧ (dp.slot k).inum ≠ 0

instance (dp : Inode) (k : Nat) : Decidable (dp.Used k) :=
  inferInstanceAs (Decidable (_ ∧ _))

section lookups

variable {dp : Inode} (hdir : dp.type = .dir) (hsize : DIRENT ∣ dp.size)

include hdir hsize in
theorem dirlookup_spec (name : Name) :
    (dirlookup dp name = .ok none ∧ ∀ k, dp.Used k → (dp.slot k).name ≠ name) ∨
    ∃ k, dirlookup dp name = .ok (some k) ∧ dp.Used k ∧ (dp.slot k).name = name := by
  unfold dirlookup
  rw [if_neg (not_not.mpr hdir)]
  rcases scan_spec .dirlookupRead (fun de => decide (de.inum ≠ 0 ∧ de.name = name)) hsize
    (dp.size + 1) 0 (by omega) with ⟨hnone, hall⟩ | ⟨k, hsome, _, hlt, hhit, _⟩
  · refine Or.inl ⟨hnone, fun k hk hname => ?_⟩
    have hmiss := hall k (Nat.zero_le k) hk.1
    exact of_decide_eq_false hmiss ⟨hk.2, hname⟩
  · have hboth := of_decide_eq_true hhit
    exact Or.inr ⟨k, hsome, ⟨hlt, hboth.1⟩, hboth.2⟩

include hsize in
/-- The first entry that is not in use, or the end. -/
theorem emptySlot_spec :
    ∃ o : Option Nat, emptySlot dp = .ok o ∧ DIRENT * o.getD (dp.size / DIRENT) ≤ dp.size ∧
      ¬ dp.Used (o.getD (dp.size / DIRENT)) ∧
      ∀ j, DIRENT * j < dp.size → (dp.slot j).inum = 0 → o.getD (dp.size / DIRENT) ≤ j := by
  have hdiv : DIRENT * (dp.size / DIRENT) = dp.size := Nat.mul_div_cancel' hsize
  rcases scan_spec .dirlinkRead (fun de => decide (de.inum = 0)) hsize (dp.size + 1) 0 (by omega)
    with ⟨hnone, hall⟩ | ⟨k, hsome, _, hlt, hhit, hbefore⟩
  · refine ⟨none, hnone, ?_, fun hused => ?_, fun j hj hfree => ?_⟩
    · show DIRENT * (dp.size / DIRENT) ≤ dp.size
      omega
    · have hlt : DIRENT * (dp.size / DIRENT) < dp.size := hused.1
      omega
    · exact absurd hfree (of_decide_eq_false (hall j (Nat.zero_le j) hj))
  · refine ⟨some k, hsome, le_of_lt hlt, fun hused => hused.2 (of_decide_eq_true hhit),
      fun j _ hfree => ?_⟩
    by_contra hjk
    exact of_decide_eq_false (hbefore j (Nat.zero_le j) (Nat.lt_of_not_le hjk)) hfree

include hsize in
theorem isdirempty_spec :
    ∃ b, isdirempty dp = .ok b ∧ (b = true ↔ ∀ k, 2 ≤ k → ¬ dp.Used k) := by
  unfold isdirempty
  rw [Nat.mul_comm 2 DIRENT]
  rcases scan_spec .isdiremptyReadi (fun de => decide (de.inum ≠ 0)) hsize (dp.size + 1) 2
    (by omega) with ⟨hnone, hall⟩ | ⟨k, hsome, hk, hlt, hhit, _⟩
  · rw [hnone]
    refine ⟨true, rfl, fun _ k hk hused => ?_, fun _ => rfl⟩
    have hmiss := hall k hk hused.1
    exact of_decide_eq_false hmiss hused.2
  · rw [hsome]
    refine ⟨false, rfl, (fun h => by cases h), fun h => ?_⟩
    exact absurd ⟨hlt, of_decide_eq_true hhit⟩ (h k hk)

include hdir hsize in
/-- `dirlink` finds the name, or adds an entry where none was in use; it
    panics for want of room. -/
theorem dirlink_spec (name : Name) (inum : Inum) :
    (∃ k, dirlookup dp name = .ok (some k) ∧ dirlink dp name inum = .ok (.inl k)) ∨
    (dirlookup dp name = .ok none ∧ ∃ k, DIRENT * k ≤ dp.size ∧ ¬ dp.Used k ∧
      dirlink dp name inum =
        if MAXFILE * BSIZE < DIRENT * k + DIRENT then .error .dirlink
        else .ok (.inr (dp.write k ⟨inum, name⟩))) := by
  unfold dirlink
  rcases dirlookup_spec hdir hsize name with ⟨hnone, _⟩ | ⟨k, hsome, _⟩
  · rw [hnone]
    obtain ⟨o, ho, hle, hfree, _⟩ := emptySlot_spec hsize
    refine Or.inr ⟨rfl, _, hle, hfree, ?_⟩
    simp only [bind, Except.bind, ho]
  · rw [hsome]
    exact Or.inl ⟨k, rfl, rfl⟩

include hdir in
/-- `dirlink` appends to a directory whose entries are all in use. -/
theorem dirlink_append {n : Nat} (hn : dp.size = DIRENT * n) (hused : ∀ j < n, dp.Used j)
    {name : Name} (hname : ∀ j < n, (dp.slot j).name ≠ name)
    (hroom : DIRENT * n + DIRENT ≤ MAXFILE * BSIZE) (inum : Inum) :
    dirlink dp name inum = .ok (.inr (dp.write n ⟨inum, name⟩)) := by
  have h16 : DIRENT = 16 := rfl
  have hdvd : DIRENT ∣ dp.size := ⟨n, hn⟩
  rcases dirlink_spec hdir hdvd name inum with ⟨k, hk, _⟩ | ⟨_, k, hle, hfree, hlink⟩
  · rcases dirlookup_spec hdir hdvd name with ⟨hnone, _⟩ | ⟨j, _, hj, hjn⟩
    · rw [hk] at hnone
      cases hnone
    · have hlt : j < n := by
        have := hj.1
        rw [hn, h16] at this
        omega
      exact absurd hjn (hname j hlt)
  · have hkn : k = n := by
      rw [hn, h16] at hle
      by_contra hne
      exact hfree (hused k (by omega))
    rw [hlink, hkn, if_neg (Nat.not_lt.mpr hroom)]

end lookups

/-! ### Writing an entry -/

section write

variable (dp : Inode) (k : Nat) (de : Dirent)

@[simp]
theorem write_slot_self : (dp.write k de).slot k = de :=
  Function.update_self _ _ _

theorem write_slot_of_ne {j : Nat} (h : j ≠ k) : (dp.write k de).slot j = dp.slot j :=
  Function.update_of_ne h _ _

/-- A write at the end, or before it. -/
theorem write_size_dvd (hsize : DIRENT ∣ dp.size) : DIRENT ∣ (dp.write k de).size := by
  show DIRENT ∣ max dp.size (DIRENT * k + DIRENT)
  rcases max_choice dp.size (DIRENT * k + DIRENT) with h | h
  · rw [h]
    exact hsize
  · rw [h]
    exact ⟨k + 1, (Nat.mul_succ DIRENT k).symm⟩

theorem write_size_ne_zero : (dp.write k de).size ≠ 0 := by
  have h16 : DIRENT = 16 := rfl
  show max dp.size (DIRENT * k + DIRENT) ≠ 0
  omega

/-- The entries in use after a write at the end or before it. -/
theorem used_write (hsize : DIRENT ∣ dp.size) (hk : DIRENT * k ≤ dp.size) (j : Nat) :
    (dp.write k de).Used j ↔ if j = k then de.inum ≠ 0 else dp.Used j := by
  have h16 : DIRENT = 16 := rfl
  obtain ⟨m, hm⟩ := hsize
  unfold Inode.Used
  by_cases hj : j = k
  · rw [if_pos hj, hj, write_slot_self]
    refine and_iff_right_of_imp (fun _ => ?_)
    show DIRENT * k < max dp.size (DIRENT * k + DIRENT)
    rw [h16]
    omega
  · rw [if_neg hj, write_slot_of_ne dp k de hj]
    refine and_congr_left (fun _ => ?_)
    show DIRENT * j < max dp.size (DIRENT * k + DIRENT) ↔ _
    rw [h16] at hk hm ⊢
    omega

end write

end Xv6.Fs
