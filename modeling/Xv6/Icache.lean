import Xv6.Params
import Xv6.Framework.System
import Xv6.Framework.Places

/-! # The Inode Cache

    `iget`, `idup`, `ilock`, `iunlock`, `iput` and `ialloc` of `fs.c`, called
    by any number of processes. A step is one critical section of
    `icache.lock`, the acquisition or release of an inode's sleep lock, an
    access to the inode on disk (which the buffer's lock makes atomic), or a
    change of the in-memory inode by the holder of its lock.

    A process keeps count of the references it has: `iget` and `idup` give
    it one, it gives one up in `iput`, and it may hand one to another process
    (as `fork` and a shared `struct file` do). `iget` is called by `ialloc`,
    or by a lookup for an inode with links.

    What a `dinode` holds besides its type and its link count (the device
    numbers, the size and the blocks) is a value of a type `D`; `itrunc`
    maps it to `trunc`, and `memset` makes it `zero`.
-/

open LTS Function

namespace Xv6.Icache

abbrev NIdx : Type := Fin NINODE

/-! ### State -/

/-- `struct dinode`. -/
structure Dinode (D : Type) where
  type : Int
  nlink : Int
  data : D

/-- `struct inode`, without its lock; `copy` is the copy of the disk inode. -/
structure Inode (D : Type) where
  dev : Nat
  inum : Nat
  ref : Nat
  valid : Bool
  copy : Dinode D

/-- Where a process is in `iput`. -/
inductive PutStage where
  /-- `if(ip->valid && ip->nlink == 0)` -/
  | test
  /-- `int r = ip->ref` -/
  | ref
  /-- `itrunc`, up to its `iupdate` -/
  | trunc
  | update
  /-- `ip->type = 0` -/
  | clear
  /-- `iupdate`, which frees the inode -/
  | free
  /-- `ip->valid = 0` -/
  | invalidate
  /-- `releasesleep(&ip->lock)` -/
  | unlock (freed : Bool)
  /-- `ip->ref--` -/
  | drop (freed : Bool)
  deriving DecidableEq

namespace PutStage

/-- `ip->lock` is held there. -/
def holdsLock : PutStage → Bool
  | .drop _ => false
  | _ => true

/-- The inode is being freed. -/
def freeing : PutStage → Bool
  | .trunc | .update | .clear | .free => true
  | _ => false

/-- The inode has been freed. -/
def freed : PutStage → Bool
  | .invalidate => true
  | .unlock f | .drop f => f
  | _ => false

/-- The type of the in-memory inode has been cleared. -/
def cleared : PutStage → Bool
  | .free | .invalidate => true
  | _ => false

end PutStage

/-- Where a process is. -/
inductive Pc where
  | idle
  /-- in the loop of `ialloc` -/
  | ialloc (dev : Nat) (type : Int) (inum : Nat)
  /-- in `ialloc`, at `return iget(dev, inum)` -/
  | allocated (dev inum : Nat)
  /-- in `ilock`, past `acquiresleep` -/
  | loading (i : NIdx)
  | iput (i : NIdx) (st : PutStage)
  deriving DecidableEq

inductive IPanic where
  | iallocNoInodes
  | igetNoInodes
  | ilock
  | ilockNoType
  | iunlock
  deriving DecidableEq

structure State (P D : Type) where
  inode : NIdx → Inode D
  /-- the holders of the sleep locks -/
  lock : NIdx → Option P
  disk : Nat → Nat → Dinode D
  pc : P → Pc
  panic : Option IPanic
  /-- the references of each process -/
  held : NIdx → P → Nat
  /-- how often an inode was allocated -/
  allocs : Nat → Nat → Nat
  /-- how often an inode was freed -/
  frees : Nat → Nat → Nat

variable {P D : Type} [DecidableEq P] {j : NIdx} {dev' inum' : Nat} {st : PutStage} {dip : Dinode D}
  {ip : Inode D}

/-- One more for an inode. -/
def bump (f : Nat → Nat → Nat) (dev inum : Nat) : Nat → Nat → Nat :=
  Function.update f dev (Function.update (f dev) inum (f dev inum + 1))

namespace State

def goto (s : State P D) (p : P) (pc : Pc) : State P D :=
  { s with pc := Function.update s.pc p pc }

def setInode (s : State P D) (i : NIdx) (ip : Inode D) : State P D :=
  { s with inode := Function.update s.inode i ip }

def setHeld (s : State P D) (i : NIdx) (p : P) (n : Nat) : State P D :=
  { s with held := Function.update s.held i (Function.update (s.held i) p n) }

def setLock (s : State P D) (i : NIdx) (o : Option P) : State P D :=
  { s with lock := Function.update s.lock i o }

def setDisk (s : State P D) (dev inum : Nat) (dip : Dinode D) : State P D :=
  { s with disk := Function.update s.disk dev (Function.update (s.disk dev) inum dip) }

/-- The loop of `iget`: the cached entry, or the first empty slot. -/
def igetLoop (s : State P D) (dev inum : Nat) : List NIdx → Option NIdx → Except (Option NIdx) NIdx
  | [], empty => .error empty
  | ip :: rest, empty =>
    if 0 < (s.inode ip).ref ∧ (s.inode ip).dev = dev ∧ (s.inode ip).inum = inum then .ok ip
    else s.igetLoop dev inum rest (if empty = none ∧ (s.inode ip).ref = 0 then some ip else empty)

/-- `p` gets a reference to the entry `ip`. -/
def addRef (s : State P D) (p : P) (ip : NIdx) : State P D :=
  (s.setInode ip { s.inode ip with ref := (s.inode ip).ref + 1 }).setHeld ip p (s.held ip p + 1)

/-- An empty slot becomes the entry of an inode. -/
def recycle (s : State P D) (p : P) (dev inum : Nat) (ip : NIdx) : State P D :=
  (s.setInode ip { s.inode ip with dev := dev, inum := inum, ref := 1, valid := false }).setHeld
    ip p (s.held ip p + 1)

/-- `iget`; the caller is back from it. -/
def iget (s : State P D) (p : P) (dev inum : Nat) : State P D :=
  match s.igetLoop dev inum (List.finRange NINODE) none with
  | .ok ip => (s.addRef p ip).goto p .idle
  | .error (some ip) => (s.recycle p dev inum ip).goto p .idle
  | .error none => { s with panic := some .igetNoInodes }

def iupdate (s : State P D) (i : NIdx) : State P D :=
  s.setDisk (s.inode i).dev (s.inode i).inum (s.inode i).copy

/-- A round of the loop of `ialloc`. -/
def iallocStep (ninodes : Nat) (zero : D) (s : State P D) (p : P) (dev : Nat) (type : Int)
    (inum : Nat) : State P D :=
  if inum < ninodes then
    if (s.disk dev inum).type = 0 then
      { (s.setDisk dev inum { type := type, nlink := 0, data := zero }).goto p
          (.allocated dev inum) with
        allocs := bump s.allocs dev inum }
    else s.goto p (.ialloc dev type (inum + 1))
  else { s with panic := some .iallocNoInodes }

/-- `ilock`, past `acquiresleep`. -/
def load (s : State P D) (p : P) (i : NIdx) : State P D :=
  if (s.inode i).valid = false then
    let dip := s.disk (s.inode i).dev (s.inode i).inum
    let s₁ := s.setInode i { s.inode i with copy := dip, valid := true }
    if dip.type = 0 then { s₁ with panic := some .ilockNoType } else s₁.goto p .idle
  else s.goto p .idle

/-- The next statement of `iput`. -/
def putStep (trunc : D → D) (s : State P D) (p : P) (i : NIdx) : PutStage → State P D
  | .test =>
    if (s.inode i).valid = true ∧ (s.inode i).copy.nlink = 0 then s.goto p (.iput i .ref)
    else s.goto p (.iput i (.unlock false))
  | .ref =>
    if (s.inode i).ref = 1 then s.goto p (.iput i .trunc) else s.goto p (.iput i (.unlock false))
  | .trunc =>
    (s.setInode i { s.inode i with
      copy := { (s.inode i).copy with data := trunc (s.inode i).copy.data } }).goto p
        (.iput i .update)
  | .update => (s.iupdate i).goto p (.iput i .clear)
  | .clear =>
    (s.setInode i { s.inode i with copy := { (s.inode i).copy with type := 0 } }).goto p
      (.iput i .free)
  | .free =>
    { (s.iupdate i).goto p (.iput i .invalidate) with
      frees := bump s.frees (s.inode i).dev (s.inode i).inum }
  | .invalidate =>
    (s.setInode i { s.inode i with valid := false }).goto p (.iput i (.unlock true))
  | .unlock f => (s.setLock i none).goto p (.iput i (.drop f))
  | .drop _ =>
    ((s.setInode i { s.inode i with ref := (s.inode i).ref - 1 }).setHeld i p
      (s.held i p - 1)).goto p .idle

/-- The link count of an inode: that of its cached copy, or the one on disk. -/
def nlink (s : State P D) (dev inum : Nat) : Int :=
  match (List.finRange NINODE).find? (fun i => decide (0 < (s.inode i).ref ∧
      (s.inode i).dev = dev ∧ (s.inode i).inum = inum ∧ (s.inode i).valid = true)) with
  | some i => (s.inode i).copy.nlink
  | none => (s.disk dev inum).nlink

end State

/-! ### Steps -/

inductive Label (P D : Type) where
  /-- a lookup calls `iget` for a name it found -/
  | iget (p : P) (dev inum : Nat)
  | ialloc (p : P) (dev : Nat) (type : Int)
  | idup (p : P) (i : NIdx)
  /-- `ilock`, up to the return of `acquiresleep` -/
  | ilock (p : P) (i : NIdx)
  | iunlock (p : P) (i : NIdx)
  /-- `iput`, up to the return of `acquiresleep` -/
  | iput (p : P) (i : NIdx)
  /-- the holder of the lock changes the in-memory inode -/
  | modify (p : P) (i : NIdx) (nlink : Int) (data : D)
  | iupdate (p : P) (i : NIdx)
  /-- a reference changes hands -/
  | give (p q : P) (i : NIdx)
  /-- `p` goes on with the call it is in -/
  | run (p : P)

/-- One step; `none` where it is not possible. -/
def next (ninodes : Nat) (zero : D) (trunc : D → D) (s : State P D) (l : Label P D) :
    Option (State P D) :=
  if s.panic ≠ none then none
  else match l with
    | .iget p dev inum =>
      if s.pc p = .idle ∧ 0 < s.nlink dev inum then some (s.iget p dev inum) else none
    | .ialloc p dev type =>
      if s.pc p = .idle ∧ type ≠ 0 then some (s.goto p (.ialloc dev type 1)) else none
    | .idup p i => if s.pc p = .idle ∧ 0 < s.held i p then some (s.addRef p i) else none
    | .ilock p i =>
      if s.pc p = .idle ∧ 0 < s.held i p then
        if (s.inode i).ref < 1 then some { s with panic := some .ilock }
        else if s.lock i = none then some ((s.setLock i (some p)).goto p (.loading i)) else none
      else none
    | .iunlock p i =>
      if s.pc p = .idle ∧ s.lock i = some p then
        if (s.inode i).ref < 1 then some { s with panic := some .iunlock }
        else some (s.setLock i none)
      else none
    | .iput p i =>
      if s.pc p = .idle ∧ 0 < s.held i p ∧ s.lock i = none then
        some ((s.setLock i (some p)).goto p (.iput i .test))
      else none
    | .modify p i nlink data =>
      if s.pc p = .idle ∧ s.lock i = some p then
        some (s.setInode i { s.inode i with
          copy := { (s.inode i).copy with nlink := nlink, data := data } })
      else none
    | .iupdate p i =>
      if s.pc p = .idle ∧ s.lock i = some p then some (s.iupdate i) else none
    | .give p q i =>
      if s.pc p = .idle ∧ 0 < s.held i p ∧ s.lock i ≠ some p ∧ p ≠ q then
        some ((s.setHeld i p (s.held i p - 1)).setHeld i q (s.held i q + 1))
      else none
    | .run p =>
      match s.pc p with
      | .idle => none
      | .ialloc dev type inum => some (s.iallocStep ninodes zero p dev type inum)
      | .allocated dev inum => some (s.iget p dev inum)
      | .loading i => some (s.load p i)
      | .iput i st => some (s.putStep trunc p i st)

/-- After `iinit`: nothing is cached, and a free inode on disk has no links. -/
structure Init (image : Nat → Nat → Dinode D) (s : State P D) : Prop where
  ref : ∀ i, (s.inode i).ref = 0
  lock : ∀ i, s.lock i = none
  disk : s.disk = image
  pc : ∀ p, s.pc p = .idle
  panic : s.panic = none
  held : ∀ i p, s.held i p = 0
  allocs : ∀ dev inum, s.allocs dev inum = 0
  frees : ∀ dev inum, s.frees dev inum = 0
  free : ∀ dev inum, (image dev inum).type = 0 → (image dev inum).nlink = 0

/-- The inode cache over the inodes of `image`. -/
def icache (P : Type) [DecidableEq P] (ninodes : Nat) (zero : D) (trunc : D → D)
    (image : Nat → Nat → Dinode D) : System (State P D) (Label P D) where
  init := Init image
  step := fun s l s' => next ninodes zero trunc s l = some s'

/-- What a step can be. -/
inductive Move (ninodes : Nat) (zero : D) (trunc : D → D) (s : State P D) :
    Label P D → State P D → Prop where
  | iget (p : P) (dev inum : Nat) (hidle : s.pc p = .idle) (hn : 0 < s.nlink dev inum) :
      Move ninodes zero trunc s (.iget p dev inum) (s.iget p dev inum)
  | ialloc (p : P) (dev : Nat) (type : Int) (hidle : s.pc p = .idle) (htype : type ≠ 0) :
      Move ninodes zero trunc s (.ialloc p dev type) (s.goto p (.ialloc dev type 1))
  | idup (p : P) (i : NIdx) (hidle : s.pc p = .idle) (hheld : 0 < s.held i p) :
      Move ninodes zero trunc s (.idup p i) (s.addRef p i)
  | ilockPanic (p : P) (i : NIdx) (href : (s.inode i).ref < 1) :
      Move ninodes zero trunc s (.ilock p i) { s with panic := some .ilock }
  | ilock (p : P) (i : NIdx) (hidle : s.pc p = .idle) (hheld : 0 < s.held i p)
      (hfree : s.lock i = none) :
      Move ninodes zero trunc s (.ilock p i) ((s.setLock i (some p)).goto p (.loading i))
  | iunlockPanic (p : P) (i : NIdx) (href : (s.inode i).ref < 1) :
      Move ninodes zero trunc s (.iunlock p i) { s with panic := some .iunlock }
  | iunlock (p : P) (i : NIdx) (hidle : s.pc p = .idle) (hlock : s.lock i = some p) :
      Move ninodes zero trunc s (.iunlock p i) (s.setLock i none)
  | iput (p : P) (i : NIdx) (hidle : s.pc p = .idle) (hheld : 0 < s.held i p)
      (hfree : s.lock i = none) :
      Move ninodes zero trunc s (.iput p i) ((s.setLock i (some p)).goto p (.iput i .test))
  | modify (p : P) (i : NIdx) (nlink : Int) (data : D) (hidle : s.pc p = .idle)
      (hlock : s.lock i = some p) :
      Move ninodes zero trunc s (.modify p i nlink data) (s.setInode i { s.inode i with
        copy := { (s.inode i).copy with nlink := nlink, data := data } })
  | iupdate (p : P) (i : NIdx) (hidle : s.pc p = .idle) (hlock : s.lock i = some p) :
      Move ninodes zero trunc s (.iupdate p i) (s.iupdate i)
  | give (p q : P) (i : NIdx) (hidle : s.pc p = .idle) (hheld : 0 < s.held i p)
      (hlock : s.lock i ≠ some p) (hne : p ≠ q) : Move ninodes zero trunc s (.give p q i)
        ((s.setHeld i p (s.held i p - 1)).setHeld i q (s.held i q + 1))
  | iallocStep (p : P) (dev : Nat) (type : Int) (inum : Nat) (hp : s.pc p = .ialloc dev type inum) :
      Move ninodes zero trunc s (.run p) (s.iallocStep ninodes zero p dev type inum)
  | allocated (p : P) (dev inum : Nat) (hp : s.pc p = .allocated dev inum) :
      Move ninodes zero trunc s (.run p) (s.iget p dev inum)
  | load (p : P) (i : NIdx) (hp : s.pc p = .loading i) :
      Move ninodes zero trunc s (.run p) (s.load p i)
  | putStep (p : P) (i : NIdx) (st : PutStage) (hp : s.pc p = .iput i st) :
      Move ninodes zero trunc s (.run p) (s.putStep trunc p i st)

theorem move_of_next {ninodes : Nat} {zero : D} {trunc : D → D} {s s' : State P D} {l : Label P D}
    (h : next ninodes zero trunc s l = some s') : Move ninodes zero trunc s l s' := by
  unfold next at h
  split at h
  · cases h
  · cases l with
    | iget p dev inum =>
      obtain ⟨⟨hidle, hn⟩, rfl⟩ := of_guard h
      exact .iget p dev inum hidle hn
    | ialloc p dev type =>
      obtain ⟨⟨hidle, htype⟩, rfl⟩ := of_guard h
      exact .ialloc p dev type hidle htype
    | idup p i =>
      obtain ⟨⟨hidle, hheld⟩, rfl⟩ := of_guard h
      exact .idup p i hidle hheld
    | ilock p i =>
      simp only [Option.ite_none_right_eq_some] at h
      obtain ⟨⟨hidle, hheld⟩, h⟩ := h
      split at h
      · next hlt => exact Option.some.inj h ▸ .ilockPanic p i hlt
      · obtain ⟨hfree, rfl⟩ := of_guard h
        exact .ilock p i hidle hheld hfree
    | iunlock p i =>
      simp only [Option.ite_none_right_eq_some] at h
      obtain ⟨⟨hidle, hlock⟩, h⟩ := h
      split at h
      · next hlt => exact Option.some.inj h ▸ .iunlockPanic p i hlt
      · exact Option.some.inj h ▸ .iunlock p i hidle hlock
    | iput p i =>
      obtain ⟨⟨hidle, hheld, hfree⟩, rfl⟩ := of_guard h
      exact .iput p i hidle hheld hfree
    | modify p i nlink data =>
      obtain ⟨⟨hidle, hlock⟩, rfl⟩ := of_guard h
      exact .modify p i nlink data hidle hlock
    | iupdate p i =>
      obtain ⟨⟨hidle, hlock⟩, rfl⟩ := of_guard h
      exact .iupdate p i hidle hlock
    | give p q i =>
      obtain ⟨⟨hidle, hheld, hlock, hne⟩, rfl⟩ := of_guard h
      exact .give p q i hidle hheld hlock hne
    | run p =>
      cases hpc : s.pc p with
      | idle => simp [hpc] at h
      | ialloc dev type inum =>
        simp only [hpc, Option.some.injEq] at h
        exact h ▸ .iallocStep p dev type inum hpc
      | allocated dev inum =>
        simp only [hpc, Option.some.injEq] at h
        exact h ▸ .allocated p dev inum hpc
      | loading i =>
        simp only [hpc, Option.some.injEq] at h
        exact h ▸ .load p i hpc
      | iput i st =>
        simp only [hpc, Option.some.injEq] at h
        exact h ▸ .putStep p i st hpc

/-! ### The invariant -/

/-- The inode is free, or `ialloc` has claimed it and has not referred to it
    yet. -/
def Dead (s : State P D) (dev inum : Nat) : Prop :=
  (s.disk dev inum).type = 0 ∨ ∃ p, s.pc p = .allocated dev inum

section fields

variable (s : State P D) (p : P) (i : NIdx)

@[simp] theorem pc_goto_self (pc : Pc) : (s.goto p pc).pc p = pc := update_self _ _ _

theorem held_setHeld (n : Nat) : (s.setHeld i p n).held i = update (s.held i) p n :=
  update_self _ _ _

theorem held_setHeld_of_ne (n : Nat) (h : j ≠ i) : (s.setHeld i p n).held j = s.held j :=
  update_of_ne h _ _

omit [DecidableEq P]

@[simp] theorem inode_setInode_self (ip : Inode D) : (s.setInode i ip).inode i = ip :=
  update_self _ _ _

theorem inode_setInode_of_ne (ip : Inode D) (h : j ≠ i) : (s.setInode i ip).inode j = s.inode j :=
  update_of_ne h _ _

@[simp] theorem lock_setLock_self (o : Option P) : (s.setLock i o).lock i = o :=
  update_self _ _ _

theorem lock_setLock_of_ne (o : Option P) (h : j ≠ i) : (s.setLock i o).lock j = s.lock j :=
  update_of_ne h _ _

theorem disk_setDisk_self (dev inum : Nat) (dip : Dinode D) :
    (s.setDisk dev inum dip).disk dev inum = dip := by
  simp [State.setDisk]

theorem disk_setDisk_of_ne (dev inum : Nat) (dip : Dinode D) (h : ¬ (dev' = dev ∧ inum' = inum)) :
    (s.setDisk dev inum dip).disk dev' inum' = s.disk dev' inum' := by
  by_cases hd : dev' = dev
  · have hi : inum' ≠ inum := fun hi => h ⟨hd, hi⟩
    simp [State.setDisk, hd, hi]
  · simp [State.setDisk, hd]

end fields

theorem bump_self (f : Nat → Nat → Nat) (dev inum : Nat) :
    bump f dev inum dev inum = f dev inum + 1 := by
  simp [bump]

theorem bump_of_ne (f : Nat → Nat → Nat) {dev inum : Nat} (h : ¬ (dev' = dev ∧ inum' = inum)) :
    bump f dev inum dev' inum' = f dev' inum' := by
  by_cases hd : dev' = dev
  · have hi : inum' ≠ inum := fun hi => h ⟨hd, hi⟩
    simp [bump, hd, hi]
  · simp [bump, hd]

/-! ### One process and one entry

    The invariant, entry by entry and process by process: a step of `p` at
    the entry `i` has to say what becomes of `p` there, and the rest follows
    from what the step leaves alone. -/

/-- The entry a process is at work on. -/
def Pc.entry : Pc → Option NIdx
  | .loading i | .iput i _ => some i
  | _ => none

theorem Pc.entry_ne {a : Pc} {i : NIdx} :
    a.entry ≠ some i ↔ a ≠ .loading i ∧ ∀ st, a ≠ .iput i st := by
  cases a <;> simp [Pc.entry]

theorem PutStage.holdsLock_of_freeing (h : st.freeing = true) : st.holdsLock = true := by
  cases st <;> simp_all [PutStage.holdsLock, PutStage.freeing]

/-- What ties a process to an entry. -/
structure Tie (s : State P D) (i : NIdx) (q : P) : Prop where
  holder : s.lock i = some q → 0 < s.held i q
  loading : s.pc q = .loading i → s.lock i = some q
  putting : ∀ st, s.pc q = .iput i st → 0 < s.held i q ∧
    (st.holdsLock = true → s.lock i = some q) ∧ (st.holdsLock = false → s.lock i ≠ some q)
  /-- who has locked an inode and is past `ilock` has its copy -/
  locked : s.lock i = some q → (s.pc q).entry ≠ some i → (s.inode i).valid = true
  tested : s.pc q = .iput i .ref → (s.inode i).valid = true ∧ (s.inode i).copy.nlink = 0
  /-- `iput` only frees an inode without links, and nobody else refers to it -/
  freeing : ∀ st, s.pc q = .iput i st → st.freeing = true →
    (s.inode i).valid = true ∧ (s.inode i).copy.nlink = 0 ∧ (s.inode i).ref = 1 ∧
      ¬ Dead s (s.inode i).dev (s.inode i).inum ∧ (st = .free → (s.inode i).copy.type = 0)
  /-- nobody refers to a dead inode but the `iput` that freed it -/
  dead : 0 < s.held i q → Dead s (s.inode i).dev (s.inode i).inum →
    (∃ st, s.pc q = .iput i st ∧ st.freed = true) ∧ s.held i q = 1 ∧ (s.inode i).copy.nlink = 0

namespace Tie

variable {s s' : State P D} {q : P} {i : NIdx}

omit [DecidableEq P]

/-- A process that is not in the last part of an `iput` refers to live inodes. -/
theorem not_dead (h : Tie s i q) (hq : 0 < s.held i q)
    (hat : ∀ st, s.pc q = .iput i st → st.freed = false) :
    ¬ Dead s (s.inode i).dev (s.inode i).inum := by
  intro hd
  obtain ⟨⟨st, hpc, hst⟩, _, _⟩ := h.dead hq hd
  rw [hat st hpc] at hst
  cases hst

/-- A process that is at work elsewhere. -/
theorem of_away (ha : (s.pc q).entry ≠ some i)
    (hheld : s.lock i = some q → 0 < s.held i q ∧ (s.inode i).valid = true)
    (hlive : 0 < s.held i q → ¬ Dead s (s.inode i).dev (s.inode i).inum) : Tie s i q := by
  obtain ⟨hload, hput⟩ := Pc.entry_ne.mp ha
  exact ⟨fun hl => (hheld hl).1, fun hp => absurd hp hload, fun st hp => absurd hp (hput st),
    fun hl _ => (hheld hl).2, fun hp => absurd hp (hput _), fun st hp => absurd hp (hput st),
    fun hq hd => absurd hd (hlive hq)⟩

/-- A process in `ilock`. -/
theorem of_loading (hp : s.pc q = .loading i) (hlock : s.lock i = some q) (hheld : 0 < s.held i q)
    (hlive : ¬ Dead s (s.inode i).dev (s.inode i).inum) : Tie s i q := by
  have hput : ∀ st, s.pc q ≠ .iput i st := fun st => by simp [hp]
  exact ⟨fun _ => hheld, fun _ => hlock, fun st hst => absurd hst (hput st),
    fun _ ha => absurd (by rw [hp]; rfl) ha, fun hst => absurd hst (hput _),
    fun st hst => absurd hst (hput st), fun _ hd => absurd hd hlive⟩

/-- A process in `iput`. -/
theorem of_put (hp : s.pc q = .iput i st) (hheld : 0 < s.held i q)
    (hlock : s.lock i = some q ↔ st.holdsLock = true)
    (htest : st = .ref → (s.inode i).valid = true ∧ (s.inode i).copy.nlink = 0)
    (hfree : st.freeing = true → (s.inode i).valid = true ∧ (s.inode i).copy.nlink = 0 ∧
      (s.inode i).ref = 1 ∧ ¬ Dead s (s.inode i).dev (s.inode i).inum ∧
        (st = .free → (s.inode i).copy.type = 0))
    (hdead : Dead s (s.inode i).dev (s.inode i).inum →
      st.freed = true ∧ s.held i q = 1 ∧ (s.inode i).copy.nlink = 0) : Tie s i q := by
  have hput : ∀ {st'}, s.pc q = .iput i st' → st = st' := fun h' => by
    rw [hp] at h'
    exact (Pc.iput.inj h').2
  refine ⟨fun _ => hheld, fun hl => ?_, fun st' hst => ?_, fun _ ha => ?_, fun hst => ?_,
    fun st' hst => ?_, fun _ hd => ?_⟩
  · rw [hp] at hl
    cases hl
  · rw [← hput hst]
    refine ⟨hheld, hlock.mpr, fun hno hl => ?_⟩
    rw [hlock.mp hl] at hno
    cases hno
  · exact absurd (by rw [hp]; rfl) ha
  · exact htest (hput hst)
  · rw [← hput hst]
    exact hfree
  · obtain ⟨hf, hone, hn⟩ := hdead hd
    exact ⟨⟨st, hp, hf⟩, hone, hn⟩

/-- A step of another process. -/
theorem other (h : Tie s i q) (hpc : s'.pc q = s.pc q)
    (hlock : s'.lock i = some q ↔ s.lock i = some q) (hheld : s.held i q ≤ s'.held i q)
    (hcopy : s.lock i = some q → (s'.inode i).valid = (s.inode i).valid ∧
      (s'.inode i).copy = (s.inode i).copy)
    (href : ∀ st, s.pc q = .iput i st → st.freeing = true → (s'.inode i).ref = (s.inode i).ref)
    (hdead : Dead s' (s'.inode i).dev (s'.inode i).inum → Dead s (s.inode i).dev (s.inode i).inum ∧
      s'.held i q = s.held i q ∧ ((s.inode i).copy.nlink = 0 → (s'.inode i).copy.nlink = 0)) :
    Tie s' i q := by
  refine ⟨fun hl => ?_, fun hp => ?_, fun st hp => ?_, fun hl ha => ?_, fun hp => ?_,
    fun st hp hst => ?_, fun hq hd => ?_⟩
  · exact (h.holder (hlock.mp hl)).trans_le hheld
  · exact hlock.mpr (h.loading (hpc.symm.trans hp))
  · obtain ⟨hpos, hyes, hno⟩ := h.putting st (hpc.symm.trans hp)
    exact ⟨hpos.trans_le hheld, fun hst => hlock.mpr (hyes hst),
      fun hst hl => hno hst (hlock.mp hl)⟩
  · rw [hpc] at ha
    rw [(hcopy (hlock.mp hl)).1]
    exact h.locked (hlock.mp hl) ha
  · rw [hpc] at hp
    obtain ⟨hv, hc⟩ := hcopy ((h.putting _ hp).2.1 rfl)
    rw [hv, hc]
    exact h.tested hp
  · rw [hpc] at hp
    obtain ⟨hv, hc⟩ := hcopy ((h.putting st hp).2.1 (PutStage.holdsLock_of_freeing hst))
    obtain ⟨hvalid, hn, hone, hlive, ht⟩ := h.freeing st hp hst
    rw [hv, hc, href st hp hst]
    exact ⟨hvalid, hn, hone, fun hd => hlive (hdead hd).1, ht⟩
  · obtain ⟨hd', hsame, hn⟩ := hdead hd
    rw [hsame] at hq ⊢
    obtain ⟨⟨st, hp, hst⟩, hone, hnl⟩ := h.dead hq hd'
    exact ⟨⟨st, hpc.trans hp, hst⟩, hone, hn hnl⟩

end Tie

/-- What holds of an entry. -/
structure Entry [Fintype P] (s : State P D) (i : NIdx) : Prop where
  count : (s.inode i).ref = ∑ q, s.held i q
  typed : 0 < (s.inode i).ref → (s.inode i).valid = true →
    (∀ q st, s.pc q = .iput i st → st.cleared = false) → (s.inode i).copy.type ≠ 0
  tie : ∀ q, Tie s i q

namespace Entry

variable [Fintype P] {s : State P D} {p : P} {i : NIdx}

omit [DecidableEq P] in
theorem ref_pos (h : Entry s i) (hp : 0 < s.held i p) : 0 < (s.inode i).ref := by
  rw [h.count]
  exact Nat.lt_of_lt_of_le hp (le_sum_tally (s.held i) p)

/-- The only reference is with one process. -/
theorem sole (h : Entry s i) (hone : (s.inode i).ref = 1) (hp : 0 < s.held i p) :
    s.held i p = 1 ∧ ∀ q, q ≠ p → s.held i q = 0 :=
  sum_eq_one (h.count.symm.trans hone) hp

end Entry

/-- What holds of the inodes on disk. -/
structure Stock (image : Nat → Nat → Dinode D) (s : State P D) : Prop where
  allocated : ∀ p dev inum, s.pc p = .allocated dev inum →
    (s.disk dev inum).type ≠ 0 ∧ (s.disk dev inum).nlink = 0 ∧
      ∀ q, s.pc q = .allocated dev inum → q = p
  /-- `ialloc` is called with a type -/
  typeArg : ∀ p dev type inum, s.pc p = .ialloc dev type inum → type ≠ 0
  free : ∀ dev inum, (s.disk dev inum).type = 0 → (s.disk dev inum).nlink = 0
  tally : ∀ dev inum, s.frees dev inum + (if (s.disk dev inum).type ≠ 0 then 1 else 0) =
    s.allocs dev inum + (if (image dev inum).type ≠ 0 then 1 else 0)

/-- The invariant of the cache. -/
structure CacheInv [Fintype P] (image : Nat → Nat → Dinode D) (s : State P D) : Prop where
  unique : ∀ i j, 0 < (s.inode i).ref → 0 < (s.inode j).ref →
    (s.inode i).dev = (s.inode j).dev → (s.inode i).inum = (s.inode j).inum → i = j
  entry : ∀ i, Entry s i
  stock : Stock image s

namespace CacheInv

variable [Fintype P] {image : Nat → Nat → Dinode D} {s : State P D}

omit [DecidableEq P]

variable (h : CacheInv image s)

include h

theorem tie (i : NIdx) (q : P) : Tie s i q :=
  (h.entry i).tie q

theorem stop (e : IPanic) : CacheInv image { s with panic := some e } where
  unique := h.unique
  entry := fun i => ⟨(h.entry i).count, (h.entry i).typed, fun q =>
    (h.tie i q).other rfl Iff.rfl le_rfl (fun _ => ⟨rfl, rfl⟩) (fun _ _ _ => rfl)
      (fun hd => ⟨hd, rfl, id⟩)⟩
  stock := ⟨h.stock.allocated, h.stock.typeArg, h.stock.free, h.stock.tally⟩

theorem not_dead {p : P} {i : NIdx} (hp : 0 < s.held i p)
    (hat : ∀ st, s.pc p = .iput i st → st.freed = false) :
    ¬ Dead s (s.inode i).dev (s.inode i).inum :=
  (h.tie i p).not_dead hp hat

theorem live {p : P} {i : NIdx} (hidle : s.pc p = .idle) (hp : 0 < s.held i p) :
    ¬ Dead s (s.inode i).dev (s.inode i).inum :=
  h.not_dead hp (fun st hst => by rw [hidle] at hst; cases hst)

end CacheInv

/-! ### What a step leaves alone -/

/-- Who is somewhere after `p` has moved to `a`. -/
theorem pc_update {pc : P → Pc} {p q : P} {a b : Pc} (h : update pc p a q = b) :
    (q = p ∧ a = b) ∨ (q ≠ p ∧ pc q = b) := by
  by_cases hq : q = p
  · rw [hq, update_self] at h
    exact Or.inl ⟨hq, h⟩
  · rw [update_of_ne hq] at h
    exact Or.inr ⟨hq, h⟩

/-- `p` moves to `a`, and touches at most the entry `o`. -/
structure Local (s s' : State P D) (p : P) (a : Pc) (o : Option NIdx) : Prop where
  pc : s'.pc = Function.update s.pc p a
  inode : ∀ j, o ≠ some j → s'.inode j = s.inode j
  lock : ∀ j, o ≠ some j → s'.lock j = s.lock j
  held : ∀ j, o ≠ some j → s'.held j = s.held j
  before : (s.pc p).entry = none ∨ (s.pc p).entry = o
  after : a.entry = none ∨ a.entry = o

section frame

variable {image : Nat → Nat → Dinode D} {s s' : State P D} {p : P} {a : Pc} {i : NIdx}
variable {o : Option NIdx}

namespace Local

theorem self (h : Local s s' p a o) : s'.pc p = a := by
  rw [h.pc, update_self]

theorem other (h : Local s s' p a o) {q : P} (hq : q ≠ p) : s'.pc q = s.pc q := by
  rw [h.pc, update_of_ne hq]

theorem away {b : Pc} (hb : b.entry = none ∨ b.entry = o) (hj : o ≠ some j) : b.entry ≠ some j := by
  rcases hb with hb | hb
  · rw [hb]
    exact (Option.some_ne_none j).symm
  · rw [hb]
    exact hj

/-- A step at the entry `i`. -/
theorem at_entry (hpc : s'.pc = update s.pc p a)
    (hinode : ∀ j, j ≠ i → s'.inode j = s.inode j) (hlock : ∀ j, j ≠ i → s'.lock j = s.lock j)
    (hheld : ∀ j, j ≠ i → s'.held j = s.held j)
    (hbefore : (s.pc p).entry = none ∨ (s.pc p).entry = some i)
    (hafter : a = .idle ∨ a.entry = some i) : Local s s' p a (some i) := by
  have hne : ∀ {j}, some i ≠ some j → j ≠ i := fun hj heq => hj (congrArg some heq.symm)
  exact ⟨hpc, fun j hj => hinode j (hne hj), fun j hj => hlock j (hne hj),
    fun j hj => hheld j (hne hj), hbefore, hafter.imp_left (fun ha => by rw [ha]; rfl)⟩

end Local

/-- No inode dies when a process moves. -/
theorem Dead.of_move {dev inum : Nat} (h : Dead s' dev inum)
    (hpc : s'.pc = update s.pc p a) (hdisk : s'.disk = s.disk)
    (hnew : ∀ dev inum, a ≠ .allocated dev inum) : Dead s dev inum := by
  rcases h with hz | ⟨q, hq⟩
  · rw [hdisk] at hz
    exact Or.inl hz
  · rw [hpc] at hq
    rcases pc_update hq with ⟨_, ha⟩ | ⟨_, hq⟩
    · exact absurd ha (hnew dev inum)
    · exact Or.inr ⟨q, hq⟩

theorem Stock.move (h : Stock image s) (hpc : s'.pc = update s.pc p a)
    (hdisk : s'.disk = s.disk) (hallocs : s'.allocs = s.allocs) (hfrees : s'.frees = s.frees)
    (hnew : ∀ dev inum, a ≠ .allocated dev inum)
    (htype : ∀ dev type inum, a = .ialloc dev type inum → type ≠ 0) : Stock image s' := by
  have hback : ∀ {q dev inum}, s'.pc q = .allocated dev inum → s.pc q = .allocated dev inum := by
    intro q dev inum hq
    rw [hpc] at hq
    rcases pc_update hq with ⟨_, ha⟩ | ⟨_, hq⟩
    · exact absurd ha (hnew dev inum)
    · exact hq
  refine ⟨fun q dev inum hq => ?_, fun q dev type inum hq => ?_, ?_, ?_⟩
  · rw [hdisk]
    obtain ⟨ht, hn, hu⟩ := h.allocated q dev inum (hback hq)
    exact ⟨ht, hn, fun r hr => hu r (hback hr)⟩
  · rw [hpc] at hq
    rcases pc_update hq with ⟨_, ha⟩ | ⟨_, hq⟩
    · exact htype dev type inum ha
    · exact h.typeArg q dev type inum hq
  · rw [hdisk]
    exact h.free
  · rw [hdisk, hallocs, hfrees]
    exact h.tally

/-- No other inode dies when one is written. -/
theorem Dead.of_write {dev inum : Nat} (h : Dead s' dev' inum') (hpc : s'.pc = update s.pc p a)
    (hdisk : s'.disk = (s.setDisk dev inum dip).disk) (hkey : ¬ (dev' = dev ∧ inum' = inum))
    (hnew : a ≠ .allocated dev' inum') : Dead s dev' inum' := by
  rcases h with hz | ⟨q, hq⟩
  · rw [hdisk, disk_setDisk_of_ne s _ _ _ hkey] at hz
    exact Or.inl hz
  · rw [hpc] at hq
    rcases pc_update hq with ⟨_, ha⟩ | ⟨_, hq⟩
    · exact absurd ha hnew
    · exact Or.inr ⟨q, hq⟩

/-- An inode that nobody has claimed is written, perhaps to claim it. -/
theorem Stock.write (h : Stock image s) {dev inum : Nat}
    (hpc : s'.pc = update s.pc p a) (hdisk : s'.disk = (s.setDisk dev inum dip).disk)
    (hnone : ∀ q, s.pc q ≠ .allocated dev inum)
    (hnew : ∀ dev' inum', a = .allocated dev' inum' →
      (dev' = dev ∧ inum' = inum) ∧ dip.type ≠ 0 ∧ dip.nlink = 0)
    (htype : ∀ dev type inum, a = .ialloc dev type inum → type ≠ 0)
    (hfree : dip.type = 0 → dip.nlink = 0)
    (hother : ∀ {dev' inum'}, ¬ (dev' = dev ∧ inum' = inum) →
      s'.frees dev' inum' = s.frees dev' inum' ∧ s'.allocs dev' inum' = s.allocs dev' inum')
    (htally : s'.frees dev inum + (if dip.type ≠ 0 then 1 else 0) =
      s'.allocs dev inum + (if (image dev inum).type ≠ 0 then 1 else 0)) : Stock image s' := by
  have hself : s'.disk dev inum = dip := by rw [hdisk, disk_setDisk_self]
  have hrest : ∀ {dev' inum'}, ¬ (dev' = dev ∧ inum' = inum) →
      s'.disk dev' inum' = s.disk dev' inum' := by
    intro dev' inum' hkey
    rw [hdisk, disk_setDisk_of_ne s _ _ _ hkey]
  refine ⟨fun q dev' inum' hq => ?_, fun q dev' type inum' hq => ?_, fun dev' inum' hz => ?_,
    fun dev' inum' => ?_⟩
  · rw [hpc] at hq ⊢
    rcases pc_update hq with ⟨hqp, ha⟩ | ⟨_, hq⟩
    · obtain ⟨⟨rfl, rfl⟩, ht, hn⟩ := hnew dev' inum' ha
      rw [hself]
      refine ⟨ht, hn, fun r hr => ?_⟩
      rcases pc_update hr with ⟨hrp, _⟩ | ⟨_, hr⟩
      · exact hrp.trans hqp.symm
      · exact absurd hr (hnone r)
    · obtain ⟨ht, hn, hu⟩ := h.allocated q dev' inum' hq
      have hkey : ¬ (dev' = dev ∧ inum' = inum) := by
        rintro ⟨rfl, rfl⟩
        exact hnone q hq
      rw [hrest hkey]
      refine ⟨ht, hn, fun r hr => ?_⟩
      rcases pc_update hr with ⟨_, ha⟩ | ⟨_, hr⟩
      · exact absurd (hnew dev' inum' ha).1 hkey
      · exact hu r hr
  · rw [hpc] at hq
    rcases pc_update hq with ⟨_, ha⟩ | ⟨_, hq⟩
    · exact htype dev' type inum' ha
    · exact h.typeArg q dev' type inum' hq
  · by_cases hkey : dev' = dev ∧ inum' = inum
    · rw [hkey.1, hkey.2, hself] at hz ⊢
      exact hfree hz
    · rw [hrest hkey] at hz ⊢
      exact h.free dev' inum' hz
  · by_cases hkey : dev' = dev ∧ inum' = inum
    · rw [hkey.1, hkey.2, hself]
      exact htally
    · rw [hrest hkey, (hother hkey).1, (hother hkey).2]
      exact h.tally dev' inum'

variable [Fintype P]

/-- An entry that a step does not touch. -/
theorem Entry.frame (h : Entry s j) (hloc : Local s s' p a o) (hj : o ≠ some j)
    (hdead : 0 < (s.inode j).ref → Dead s' (s.inode j).dev (s.inode j).inum →
      Dead s (s.inode j).dev (s.inode j).inum) : Entry s' j := by
  have hbefore := Local.away hloc.before hj
  have hafter : (s'.pc p).entry ≠ some j := by
    rw [hloc.self]
    exact Local.away hloc.after hj
  refine ⟨?_, fun href hv hc => ?_, fun q => ?_⟩
  · rw [hloc.inode j hj, hloc.held j hj]
    exact h.count
  · rw [hloc.inode j hj] at href hv ⊢
    refine h.typed href hv (fun q st hq => ?_)
    by_cases hqp : q = p
    · rw [hqp] at hq
      exact absurd (by rw [hq]; rfl) hbefore
    · exact hc q st ((hloc.other hqp).trans hq)
  · have htie := h.tie q
    by_cases hqp : q = p
    · rw [hqp] at htie ⊢
      refine Tie.of_away hafter (fun hl => ?_) (fun hq hd => ?_)
      · rw [hloc.lock j hj] at hl
        rw [hloc.held j hj, hloc.inode j hj]
        exact ⟨htie.holder hl, htie.locked hl hbefore⟩
      · rw [hloc.held j hj] at hq
        rw [hloc.inode j hj] at hd
        exact htie.not_dead hq (fun st hst => absurd (by rw [hst]; rfl) hbefore)
          (hdead (h.ref_pos hq) hd)
    · have hheld := hloc.held j hj
      by_cases hq : 0 < s.held j q
      · refine htie.other (hloc.other hqp) (by rw [hloc.lock j hj]) (by rw [hheld])
          (fun _ => by rw [hloc.inode j hj]; exact ⟨rfl, rfl⟩)
          (fun _ _ _ => by rw [hloc.inode j hj]) (fun hd => ?_)
        rw [hloc.inode j hj] at hd ⊢
        exact ⟨hdead (h.ref_pos hq) hd, by rw [hheld], id⟩
      · -- a process without a reference is not at the entry, nor has it the lock
        refine Tie.of_away ?_ (fun hl => ?_) (fun hq' => ?_)
        · rw [hloc.other hqp]
          refine Pc.entry_ne.mpr ⟨fun hp => hq (htie.holder (htie.loading hp)),
            fun st hp => hq (htie.putting st hp).1⟩
        · rw [hloc.lock j hj] at hl
          exact absurd (htie.holder hl) hq
        · rw [hheld] at hq'
          exact absurd hq' hq

namespace CacheInv

/-- **One step**, at most one entry of which changes. -/
theorem of_local (h : CacheInv image s) (hloc : Local s s' p a o)
    (hdead : ∀ j, o ≠ some j → 0 < (s.inode j).ref →
      Dead s' (s.inode j).dev (s.inode j).inum → Dead s (s.inode j).dev (s.inode j).inum)
    (hentry : ∀ i, o = some i → Entry s' i)
    (hapart : ∀ i, o = some i → 0 < (s'.inode i).ref → ∀ j, j ≠ i → 0 < (s.inode j).ref →
      ¬ ((s.inode j).dev = (s'.inode i).dev ∧ (s.inode j).inum = (s'.inode i).inum))
    (hstock : Stock image s') : CacheInv image s' := by
  refine ⟨fun j k hj hk hdev hinum => ?_, fun j => ?_, hstock⟩
  · by_contra hne
    by_cases hoj : o = some j
    · have hok : o ≠ some k := fun hok => hne (Option.some.inj (hoj.symm.trans hok))
      rw [hloc.inode k hok] at hk hdev hinum
      exact hapart j hoj hj k (Ne.symm hne) hk ⟨hdev.symm, hinum.symm⟩
    · rw [hloc.inode j hoj] at hj hdev hinum
      by_cases hok : o = some k
      · exact hapart k hok hk j hne hj ⟨hdev, hinum⟩
      · rw [hloc.inode k hok] at hk hdev hinum
        exact hne (h.unique j k hj hk hdev hinum)
  · by_cases hoj : o = some j
    · exact hentry j hoj
    · exact (h.entry j).frame hloc hoj (hdead j hoj)

/-- A step at an entry that stays with its inode. -/
theorem touch (h : CacheInv image s) (hloc : Local s s' p a (some i))
    (hkey : (s'.inode i).dev = (s.inode i).dev ∧ (s'.inode i).inum = (s.inode i).inum)
    (hpos : 0 < (s'.inode i).ref → 0 < (s.inode i).ref)
    (hlock : ∀ q, q ≠ p → (s'.lock i = some q ↔ s.lock i = some q))
    (hheld : ∀ q, q ≠ p → s'.held i q = s.held i q)
    (hcopy : ∀ q, q ≠ p → s.lock i = some q →
      (s'.inode i).valid = (s.inode i).valid ∧ (s'.inode i).copy = (s.inode i).copy)
    (href : ∀ q st, q ≠ p → s.pc q = .iput i st → st.freeing = true →
      (s'.inode i).ref = (s.inode i).ref)
    (hnlink : Dead s (s.inode i).dev (s.inode i).inum → (s.inode i).copy.nlink = 0 →
      (s'.inode i).copy.nlink = 0)
    (hdead : ∀ dev inum, Dead s' dev inum → Dead s dev inum)
    (hcount : (s'.inode i).ref = ∑ q, s'.held i q)
    (htyped : 0 < (s'.inode i).ref → (s'.inode i).valid = true →
      (∀ q st, s'.pc q = .iput i st → st.cleared = false) → (s'.inode i).copy.type ≠ 0)
    (hp : Tie s' i p) (hstock : Stock image s') : CacheInv image s' := by
  refine h.of_local hloc (fun j _ _ hd => hdead _ _ hd) (fun j hj => ?_)
    (fun j hj hpos' k hk hk' hkey' => ?_) hstock
  · cases hj
    refine ⟨hcount, htyped, fun q => ?_⟩
    by_cases hqp : q = p
    · rw [hqp]
      exact hp
    · refine (h.tie i q).other (hloc.other hqp) (hlock q hqp) (hheld q hqp).ge
        (hcopy q hqp) (fun st => href q st hqp) (fun hd => ?_)
      rw [hkey.1, hkey.2] at hd
      exact ⟨hdead _ _ hd, hheld q hqp, hnlink (hdead _ _ hd)⟩
  · cases hj
    exact hk (h.unique k i hk' (hpos hpos') (hkey'.1.trans hkey.1) (hkey'.2.trans hkey.2))

/-- The type of an entry whose copy stays. -/
theorem typed_of_same (h : CacheInv image s) (hpc : s'.pc = update s.pc p a)
    (hcopy : (s'.inode i).valid = (s.inode i).valid ∧ (s'.inode i).copy = (s.inode i).copy)
    (hpos : 0 < (s'.inode i).ref → 0 < (s.inode i).ref)
    (hclear : ∀ st, s.pc p = .iput i st → st.cleared = false) (href : 0 < (s'.inode i).ref)
    (hv : (s'.inode i).valid = true)
    (hc : ∀ q st, s'.pc q = .iput i st → st.cleared = false) : (s'.inode i).copy.type ≠ 0 := by
  rw [hcopy.2]
  refine (h.entry i).typed (hpos href) (hcopy.1.symm.trans hv) (fun q st hq => ?_)
  by_cases hqp : q = p
  · exact hclear st (hqp ▸ hq)
  · refine hc q st ?_
    rw [hpc, update_of_ne hqp]
    exact hq

end CacheInv

end frame

/-! ### `iget` -/

section iget

variable {s : State P D} {p : P} {dev inum : Nat}

omit [DecidableEq P] in
/-- The loop finds the entry of the inode, or there is none and it remembers an
    empty slot. -/
theorem igetLoop_spec (s : State P D) (dev inum : Nat) : ∀ (ips : List NIdx) (empty : Option NIdx),
    (∀ ip, empty = some ip → (s.inode ip).ref = 0) →
    match s.igetLoop dev inum ips empty with
    | .ok ip => 0 < (s.inode ip).ref ∧ (s.inode ip).dev = dev ∧ (s.inode ip).inum = inum
    | .error e =>
      (∀ ip ∈ ips, ¬ (0 < (s.inode ip).ref ∧ (s.inode ip).dev = dev ∧ (s.inode ip).inum = inum)) ∧
        ∀ ip, e = some ip → (s.inode ip).ref = 0 := by
  intro ips
  induction ips with
  | nil =>
    intro empty hempty
    exact ⟨fun _ h => (by cases h), hempty⟩
  | cons ip ips ih =>
    intro empty hempty
    rw [State.igetLoop]
    split_ifs with hit hslot
    · exact hit
    · have hrest := ih (some ip) (fun _ heq => by cases heq; exact hslot.2)
      split at hrest
      · exact hrest
      · refine ⟨fun x hx => ?_, hrest.2⟩
        rcases List.mem_cons.mp hx with rfl | hx
        · exact hit
        · exact hrest.1 x hx
    · have hrest := ih empty hempty
      split at hrest
      · exact hrest
      · refine ⟨fun x hx => ?_, hrest.2⟩
        rcases List.mem_cons.mp hx with rfl | hx
        · exact hit
        · exact hrest.1 x hx

/-- What `iget` does. -/
theorem iget_cases (s : State P D) (p : P) (dev inum : Nat) :
    (∃ i, 0 < (s.inode i).ref ∧ (s.inode i).dev = dev ∧ (s.inode i).inum = inum ∧
      s.iget p dev inum = (s.addRef p i).goto p .idle) ∨
    ((∀ j, ¬ (0 < (s.inode j).ref ∧ (s.inode j).dev = dev ∧ (s.inode j).inum = inum)) ∧
      ∃ i, (s.inode i).ref = 0 ∧ s.iget p dev inum = (s.recycle p dev inum i).goto p .idle) ∨
    s.iget p dev inum = { s with panic := some .igetNoInodes } := by
  have hspec := igetLoop_spec s dev inum (List.finRange NINODE) none (fun _ heq => by cases heq)
  unfold State.iget
  cases hloop : s.igetLoop dev inum (List.finRange NINODE) none with
  | ok i =>
    rw [hloop] at hspec
    exact Or.inl ⟨i, hspec.1, hspec.2.1, hspec.2.2, rfl⟩
  | error e =>
    rw [hloop] at hspec
    have hmiss : ∀ j, ¬ (0 < (s.inode j).ref ∧ (s.inode j).dev = dev ∧ (s.inode j).inum = inum) :=
      fun j => hspec.1 j (List.mem_finRange j)
    cases e with
    | none => exact Or.inr (Or.inr rfl)
    | some i => exact Or.inr (Or.inl ⟨hmiss, i, hspec.2 i rfl, rfl⟩)

end iget

/-! ### Steps -/

section steps

variable [Fintype P] {image : Nat → Nat → Dinode D} {s s' : State P D} {p : P} {i : NIdx}
  {inum dev : Nat}
variable {a : Pc}

omit [DecidableEq P] in
/-- An inode with links is alive, and its entry is not being freed. -/
theorem CacheInv.alive_of_nlink (h : CacheInv image s) (hn : 0 < s.nlink dev inum) :
    ¬ Dead s dev inum ∧
      ∀ j, (s.inode j).dev = dev → (s.inode j).inum = inum →
        ∀ q st, s.pc q = .iput j st → st.freeing = false := by
  unfold State.nlink at hn
  cases hfind : (List.finRange NINODE).find? (fun i => decide (0 < (s.inode i).ref ∧
      (s.inode i).dev = dev ∧ (s.inode i).inum = inum ∧ (s.inode i).valid = true)) with
  | some i =>
    rw [hfind] at hn
    have hfound := List.find?_some hfind
    obtain ⟨href, hdev, hinum, hvalid⟩ := of_decide_eq_true hfound
    constructor
    · intro hd
      -- somebody refers to the entry, so a dead inode would have no links
      obtain ⟨q, _, hq⟩ : ∃ q ∈ Finset.univ, s.held i q ≠ 0 := by
        by_contra hno
        push Not at hno
        rw [(h.entry i).count, Finset.sum_eq_zero hno] at href
        cases href
      rw [← hdev, ← hinum] at hd
      have := ((h.tie i q).dead (Nat.pos_of_ne_zero hq) hd).2.2
      simp only [this] at hn
      exact absurd hn (lt_irrefl 0)
    · intro j hjd hji q st hq
      by_contra hne
      obtain ⟨_, hnl, _⟩ := (h.tie j q).freeing st hq ((Bool.not_eq_false _).mp hne)
      have hij : i = j := h.unique i j href ((h.entry j).ref_pos ((h.tie j q).putting st hq).1)
        (hdev.trans hjd.symm) (hinum.trans hji.symm)
      rw [← hij] at hnl
      simp only [hnl] at hn
      exact absurd hn (lt_irrefl 0)
  | none =>
    rw [hfind] at hn
    have hnone := List.find?_eq_none.mp hfind
    constructor
    · rintro (hz | ⟨q, hq⟩)
      · simp only [h.stock.free dev inum hz] at hn
        exact absurd hn (lt_irrefl 0)
      · simp only [(h.stock.allocated q dev inum hq).2.1] at hn
        exact absurd hn (lt_irrefl 0)
    · intro j hjd hji q st hq
      by_contra hne
      obtain ⟨hv, _⟩ := (h.tie j q).freeing st hq ((Bool.not_eq_false _).mp hne)
      exact hnone j (List.mem_finRange j)
        (decide_eq_true ⟨(h.entry j).ref_pos ((h.tie j q).putting st hq).1, hjd, hji, hv⟩)

omit [Fintype P] in
theorem goto_self (h : s.pc p = a) : s.goto p a = s := by
  unfold State.goto
  rw [← h, update_eq_self]

/-- A place outside `ialloc`. -/
theorem Pc.not_ialloc (ha : a = .idle ∨ a.entry = some i) :
    (∀ dev inum, a ≠ .allocated dev inum) ∧ ∀ dev type inum, a ≠ .ialloc dev type inum := by
  rcases ha with rfl | ha
  · simp
  · constructor
    · rintro dev inum rfl
      cases ha
    · rintro dev type inum rfl
      cases ha

namespace CacheInv

section

variable (h : CacheInv image s)

include h

/-- An inode that is being freed has no second reference. -/
theorem not_freeing (hheld : 0 < s.held i p) {q : P} (hqp : q ≠ p) (hq : s.pc q = .iput i st) :
    st.freeing = false := by
  by_contra hne
  have hone := ((h.tie i q).freeing st hq ((Bool.not_eq_false _).mp hne)).2.2.1
  have hz := ((h.entry i).sole hone hheld).2 q hqp
  have hpos := ((h.tie i q).putting st hq).1
  rw [hz] at hpos
  cases hpos

/-- A process moves outside the entries. -/
theorem wander (hbefore : (s.pc p).entry = none) (hafter : a.entry = none)
    (hnew : ∀ dev inum, a ≠ .allocated dev inum)
    (htype : ∀ dev type inum, a = .ialloc dev type inum → type ≠ 0) : CacheInv image (s.goto p a) :=
  h.of_local (o := none) ⟨rfl, fun _ _ => rfl, fun _ _ => rfl, fun _ _ => rfl, Or.inl hbefore,
    Or.inl hafter⟩ (fun _ _ _ hd => hd.of_move rfl rfl hnew) (fun _ hi => by cases hi)
    (fun _ hi => by cases hi) (h.stock.move rfl rfl rfl rfl hnew htype)

section

variable (hbefore : (s.pc p).entry = none ∨ (s.pc p).entry = some i)
  (hafter : a = .idle ∨ a.entry = some i)

include hbefore hafter

/-- The holder of the lock of an inode changes it. -/
theorem modify (hl : s.lock i = some p)
    (hip : ip.dev = (s.inode i).dev ∧ ip.inum = (s.inode i).inum ∧ ip.ref = (s.inode i).ref)
    (hnlink : Dead s (s.inode i).dev (s.inode i).inum → ip.copy.nlink = 0)
    (htyped : ip.valid = true → (∀ st, a = .iput i st → st.cleared = false) → ip.copy.type ≠ 0)
    (hp : Tie ((s.setInode i ip).goto p a) i p) : CacheInv image ((s.setInode i ip).goto p a) := by
  obtain ⟨hnew, htype⟩ := Pc.not_ialloc hafter
  have hii : ((s.setInode i ip).goto p a).inode i = ip := inode_setInode_self s i ip
  have hloc : Local s ((s.setInode i ip).goto p a) p a (some i) :=
    Local.at_entry rfl (fun j hj => inode_setInode_of_ne s i ip hj) (fun _ _ => rfl)
      (fun _ _ => rfl) hbefore hafter
  have hne : ∀ q, q ≠ p → s.lock i ≠ some q :=
    fun q hq hl' => hq (Option.some.inj (hl'.symm.trans hl))
  refine h.touch hloc (by rw [hii]; exact ⟨hip.1, hip.2.1⟩) (by rw [hii, hip.2.2]; exact id)
    (fun _ _ => Iff.rfl) (fun _ _ => rfl) (fun q hq hl' => absurd hl' (hne q hq))
    (fun _ _ _ _ _ => by rw [hii, hip.2.2]) (fun hd _ => by rw [hii]; exact hnlink hd)
    (fun _ _ hd => hd.of_move rfl rfl hnew) (by rw [hii, hip.2.2]; exact (h.entry i).count)
    (fun _ hv hc => ?_) hp
    (h.stock.move rfl rfl rfl rfl hnew (fun dev type inum ha => absurd ha (htype dev type inum)))
  rw [hii] at hv ⊢
  exact htyped hv (fun st hst => hc p st (hloc.self.trans hst))

variable (hclear : ∀ st, s.pc p = .iput i st → st.cleared = false)

include hclear

/-- A process moves at an entry, and may take or give back its lock. -/
theorem relock {o : Option P} (hlock : ∀ q, q ≠ p → (o = some q ↔ s.lock i = some q))
    (hp : Tie ((s.setLock i o).goto p a) i p) : CacheInv image ((s.setLock i o).goto p a) := by
  obtain ⟨hnew, htype⟩ := Pc.not_ialloc hafter
  have hloc : Local s ((s.setLock i o).goto p a) p a (some i) :=
    Local.at_entry rfl (fun _ _ => rfl) (fun j hj => lock_setLock_of_ne s i o hj) (fun _ _ => rfl)
      hbefore hafter
  refine h.touch hloc ⟨rfl, rfl⟩ id (fun q hq => ?_) (fun _ _ => rfl) (fun _ _ _ => ⟨rfl, rfl⟩)
    (fun _ _ _ _ _ => rfl) (fun _ hn => hn) (fun _ _ hd => hd.of_move rfl rfl hnew)
    ((h.entry i).count) (h.typed_of_same rfl ⟨rfl, rfl⟩ id hclear) hp
    (h.stock.move rfl rfl rfl rfl hnew (fun dev type inum ha => absurd ha (htype dev type inum)))
  show (s.setLock i o).lock i = some q ↔ _
  rw [lock_setLock_self]
  exact hlock q hq

theorem go (hp : Tie (s.goto p a) i p) : CacheInv image (s.goto p a) := by
  have heq : s.setLock i (s.lock i) = s := by
    unfold State.setLock
    rw [update_eq_self]
  have hgo := h.relock (o := s.lock i) hbefore hafter hclear (fun _ _ => Iff.rfl)
  rw [heq] at hgo
  exact hgo hp

/-- `iupdate` of an inode that stays allocated. -/
theorem flush (hlive : ¬ Dead s (s.inode i).dev (s.inode i).inum) (hne : (s.inode i).copy.type ≠ 0)
    (hp : Tie (s.goto p a) i p) : CacheInv image ((s.iupdate i).goto p a) := by
  obtain ⟨hnew, htype⟩ := Pc.not_ialloc hafter
  have hback : ∀ dev inum, Dead ((s.iupdate i).goto p a) dev inum → Dead s dev inum := by
    intro dev inum hd
    by_cases hkey : dev = (s.inode i).dev ∧ inum = (s.inode i).inum
    · rcases hd with hz | ⟨q, hq⟩
      · rw [hkey.1, hkey.2, show ((s.iupdate i).goto p a).disk = (s.iupdate i).disk from rfl,
          State.iupdate, disk_setDisk_self] at hz
        exact absurd hz hne
      · have hd' : Dead (s.goto p a) dev inum := Or.inr ⟨q, hq⟩
        exact hd'.of_move rfl rfl hnew
    · exact hd.of_write rfl rfl hkey (hnew dev inum)
  have hloc : Local s ((s.iupdate i).goto p a) p a (some i) :=
    Local.at_entry rfl (fun _ _ => rfl) (fun _ _ => rfl) (fun _ _ => rfl) hbefore hafter
  refine h.touch hloc ⟨rfl, rfl⟩ id (fun _ _ => Iff.rfl) (fun _ _ => rfl)
    (fun _ _ _ => ⟨rfl, rfl⟩) (fun _ _ _ _ _ => rfl) (fun _ hn => hn) hback (h.entry i).count
    (h.typed_of_same rfl ⟨rfl, rfl⟩ id hclear)
    (hp.other rfl Iff.rfl le_rfl (fun _ => ⟨rfl, rfl⟩) (fun _ _ _ => rfl)
      (fun hd => absurd (hback _ _ hd) hlive))
    (h.stock.write rfl rfl (fun q hq => hlive (Or.inr ⟨q, hq⟩))
      (fun dev inum ha => absurd ha (hnew dev inum))
      (fun dev type inum ha => absurd ha (htype dev type inum)) (fun hz => absurd hz hne)
      (fun _ => ⟨rfl, rfl⟩) ?_)
  have htally := h.stock.tally (s.inode i).dev (s.inode i).inum
  rw [if_pos (fun hz => hlive (Or.inl hz))] at htally
  rw [if_pos hne]
  exact htally

end

/-- The holder of the lock is back from a call. -/
theorem modify_idle (hl : s.lock i = some p)
    (hip : ip.dev = (s.inode i).dev ∧ ip.inum = (s.inode i).inum ∧ ip.ref = (s.inode i).ref)
    (hbefore : (s.pc p).entry = none ∨ (s.pc p).entry = some i)
    (hlive : ¬ Dead s (s.inode i).dev (s.inode i).inum) (hv : ip.valid = true)
    (htyped : ip.copy.type ≠ 0) : CacheInv image ((s.setInode i ip).goto p .idle) := by
  have hii : ((s.setInode i ip).goto p .idle).inode i = ip := inode_setInode_self s i ip
  refine h.modify hbefore (Or.inl rfl) hl hip (fun hd => absurd hd hlive) (fun _ _ => htyped)
    (Tie.of_away (by rw [pc_goto_self]; simp [Pc.entry]) (fun _ => ?_) (fun _ hd => ?_))
  · rw [hii]
    exact ⟨(h.tie i p).holder hl, hv⟩
  · rw [hii, hip.1, hip.2.1] at hd
    exact hlive (hd.of_move rfl rfl (by simp))

/-- `iput` changes the inode it has locked. -/
theorem modify_put {st' : PutStage}
    (hp : s.pc p = .iput i st) (hst : st.holdsLock = true) (hst' : st'.holdsLock = true)
    (hip : ip.dev = (s.inode i).dev ∧ ip.inum = (s.inode i).inum ∧ ip.ref = (s.inode i).ref)
    (htest : st' ≠ .ref)
    (hfree : st'.freeing = true → ip.valid = true ∧ ip.copy.nlink = 0 ∧ ip.ref = 1 ∧
      ¬ Dead s (s.inode i).dev (s.inode i).inum ∧ (st' = .free → ip.copy.type = 0))
    (htyped : ip.valid = true → st'.cleared = false → ip.copy.type ≠ 0)
    (hdead : Dead s (s.inode i).dev (s.inode i).inum → st'.freed = true ∧ ip.copy.nlink = 0) :
    CacheInv image ((s.setInode i ip).goto p (.iput i st')) := by
  obtain ⟨hheld, hlock, _⟩ := (h.tie i p).putting st hp
  have hii : ((s.setInode i ip).goto p (.iput i st')).inode i = ip := inode_setInode_self s i ip
  have hback : Dead ((s.setInode i ip).goto p (.iput i st')) ip.dev ip.inum →
      Dead s (s.inode i).dev (s.inode i).inum := by
    rw [hip.1, hip.2.1]
    exact fun hd => hd.of_move rfl rfl (by simp)
  refine h.modify (Or.inr (by rw [hp]; rfl)) (Or.inr rfl) (hlock hst) hip
    (fun hd => (hdead hd).2) (fun hv hc => htyped hv (hc st' rfl))
    (Tie.of_put (pc_goto_self _ p _) hheld (iff_of_true (hlock hst) hst')
      (fun heq => absurd heq htest) (fun hf => ?_) (fun hd => ?_))
  · rw [hii]
    obtain ⟨hv, hn, hone, hlive, ht⟩ := hfree hf
    exact ⟨hv, hn, hone, fun hd => hlive (hback hd), ht⟩
  · rw [hii] at hd ⊢
    exact ⟨(hdead (hback hd)).1, ((h.tie i p).dead hheld (hback hd)).2.1, (hdead (hback hd)).2⟩

/-- The tie of a process that moves on in `iput`, with the lock still held. -/
theorem tie_put {st' : PutStage} (hp : s.pc p = .iput i st)
    (hst : st.holdsLock = true) (hfreed : st.freed = false) (hst' : st'.holdsLock = true)
    (htest : st' = .ref → (s.inode i).valid = true ∧ (s.inode i).copy.nlink = 0)
    (hfree : st'.freeing = true → (s.inode i).valid = true ∧ (s.inode i).copy.nlink = 0 ∧
      (s.inode i).ref = 1 ∧ (st' = .free → (s.inode i).copy.type = 0)) :
    Tie (s.goto p (.iput i st')) i p := by
  obtain ⟨hheld, hlock, _⟩ := (h.tie i p).putting st hp
  have hlive : ¬ Dead (s.goto p (.iput i st')) (s.inode i).dev (s.inode i).inum := by
    intro hd
    refine h.not_dead hheld (fun st₁ hst₁ => ?_) (hd.of_move rfl rfl (by simp))
    rw [hp] at hst₁
    cases hst₁
    exact hfreed
  refine Tie.of_put (pc_goto_self s p _) hheld (iff_of_true (hlock hst) hst') htest (fun hf => ?_)
    (fun hd => absurd hd hlive)
  obtain ⟨hv, hn, hone, ht⟩ := hfree hf
  exact ⟨hv, hn, hone, hlive, ht⟩

/-- The references of `p` to an entry in use change, and `p` is back from its
    call. -/
theorem recount {n m : Nat} (hbefore : (s.pc p).entry = none ∨ (s.pc p).entry = some i)
    (hclear : ∀ st, s.pc p = .iput i st → st.cleared = false) (hpos : 0 < (s.inode i).ref)
    (hcount : n = ∑ q, update (s.held i) p m q)
    (hfree : ∀ q st, q ≠ p → s.pc q = .iput i st → st.freeing = false)
    (hheld : s.lock i = some p → 0 < m ∧ (s.inode i).valid = true)
    (hlive : 0 < m → ¬ Dead (s.goto p .idle) (s.inode i).dev (s.inode i).inum) :
    CacheInv image
      (((s.setInode i { s.inode i with ref := n }).setHeld i p m).goto p .idle) := by
  generalize hs' : ((s.setInode i { s.inode i with ref := n }).setHeld i p m).goto p .idle = s'
  have hpc : s'.pc = update s.pc p .idle := by rw [← hs']; rfl
  have hdisk : s'.disk = s.disk := by rw [← hs']; rfl
  have hlock : s'.lock = s.lock := by rw [← hs']; rfl
  have hii : s'.inode i = { s.inode i with ref := n } := by
    rw [← hs']
    exact inode_setInode_self s i _
  have hhi : s'.held i = update (s.held i) p m := by
    rw [← hs']
    exact held_setHeld _ p i m
  have hloc : Local s s' p .idle (some i) := by
    refine Local.at_entry hpc (fun j hj => ?_) (fun j _ => by rw [hlock]) (fun j hj => ?_) hbefore
      (Or.inl rfl)
    · rw [← hs']
      exact inode_setInode_of_ne s i _ hj
    · rw [← hs']
      exact held_setHeld_of_ne _ p i m hj
  refine h.touch hloc (by rw [hii]; exact ⟨rfl, rfl⟩) (fun _ => hpos)
    (fun _ _ => by rw [hlock]) (fun q hq => by rw [hhi, update_of_ne hq])
    (fun _ _ _ => by rw [hii]; exact ⟨rfl, rfl⟩) (fun q st hq hst hf => ?_)
    (fun _ hn => by rw [hii]; exact hn) (fun _ _ hd => hd.of_move hpc hdisk (by simp))
    (by rw [hii, hhi]; exact hcount)
    (h.typed_of_same hpc (by rw [hii]; exact ⟨rfl, rfl⟩) (fun _ => hpos) hclear)
    (Tie.of_away (by rw [hloc.self]; simp [Pc.entry]) (fun hl => ?_) (fun hm hd => ?_))
    (h.stock.move hpc hdisk (by rw [← hs']; rfl) (by rw [← hs']; rfl) (by simp) (by simp))
  · rw [hfree q st hq hst] at hf
    cases hf
  · rw [hlock] at hl
    rw [hhi, update_self, hii]
    exact hheld hl
  · rw [hhi, update_self] at hm
    rw [hii] at hd
    refine hlive hm ?_
    unfold Dead at hd
    rw [hdisk, hpc] at hd
    exact hd

/-- A live entry gets one more reference. -/
theorem addRef (hi : 0 < (s.inode i).ref) (hbefore : (s.pc p).entry = none)
    (hfree : ∀ q st, q ≠ p → s.pc q = .iput i st → st.freeing = false)
    (hlive : ¬ Dead (s.goto p .idle) (s.inode i).dev (s.inode i).inum) :
    CacheInv image ((s.addRef p i).goto p .idle) := by
  refine h.recount (Or.inl hbefore) (fun st hst => ?_) hi ?_ hfree (fun hl => ⟨Nat.succ_pos _, ?_⟩)
    (fun _ => hlive)
  · rw [hst] at hbefore
    cases hbefore
  · rw [sum_update_succ, ← (h.entry i).count]
  · exact (h.tie i p).locked hl (by rw [hbefore]; simp)

/-- The last statement of `iput`. -/
theorem drop {f : Bool} (hp : s.pc p = .iput i (.drop f)) :
    CacheInv image (((s.setInode i { s.inode i with ref := (s.inode i).ref - 1 }).setHeld i p
      (s.held i p - 1)).goto p .idle) := by
  obtain ⟨hheld, _, hno⟩ := (h.tie i p).putting _ hp
  refine h.recount (Or.inr (by rw [hp]; rfl)) (fun st hst => ?_) ((h.entry i).ref_pos hheld) ?_
    (fun q st hq hst => h.not_freeing hheld hq hst) (fun hl => absurd hl (hno rfl))
    (fun hm hd => ?_)
  · rw [hp] at hst
    cases hst
    rfl
  · have hpred := sum_update_pred (s.held i) p hheld
    have hcount := (h.entry i).count
    omega
  · -- the dropped reference was the only one `p` had
    have hone := ((h.tie i p).dead hheld (hd.of_move rfl rfl (by simp))).2.1
    omega

/-- An empty slot becomes the entry of a live inode. -/
theorem recycle (hi : (s.inode i).ref = 0)
    (hmiss : ∀ j, ¬ (0 < (s.inode j).ref ∧ (s.inode j).dev = dev ∧ (s.inode j).inum = inum))
    (hbefore : (s.pc p).entry = none) (hlive : ¬ Dead (s.goto p .idle) dev inum) :
    CacheInv image ((s.recycle p dev inum i).goto p .idle) := by
  have hii : ((s.recycle p dev inum i).goto p .idle).inode i =
      { s.inode i with dev := dev, inum := inum, ref := 1, valid := false } :=
    inode_setInode_self s i _
  have hhi : ((s.recycle p dev inum i).goto p .idle).held i =
      update (s.held i) p (s.held i p + 1) := held_setHeld _ p i _
  have hnobody : ∀ q, ¬ 0 < s.held i q := fun q hq => by
    have hpos := (h.entry i).ref_pos hq
    omega
  have hnolock : ∀ q, s.lock i ≠ some q := fun q hl => hnobody q ((h.tie i q).holder hl)
  have hloc : Local s ((s.recycle p dev inum i).goto p .idle) p .idle (some i) :=
    Local.at_entry rfl (fun j hj => inode_setInode_of_ne s i _ hj) (fun _ _ => rfl)
      (fun j hj => held_setHeld_of_ne _ p i _ hj) (Or.inl hbefore) (Or.inl rfl)
  refine h.of_local hloc (fun _ _ _ hd => hd.of_move rfl rfl (by simp)) (fun j hj => ?_)
    (fun j hj _ k _ hk hkey => ?_) (h.stock.move rfl rfl rfl rfl (by simp) (by simp))
  · cases hj
    refine ⟨?_, fun _ hv => ?_, fun q => Tie.of_away ?_ (fun hl => ?_) (fun hq hd => ?_)⟩
    · rw [hii, hhi, sum_update_succ, ← (h.entry i).count, hi]
    · rw [hii] at hv
      cases hv
    · by_cases hqp : q = p
      · rw [hqp, hloc.self]
        simp [Pc.entry]
      · rw [hloc.other hqp]
        exact Pc.entry_ne.mpr ⟨fun hq => hnolock q ((h.tie i q).loading hq),
          fun st hq => hnobody q ((h.tie i q).putting st hq).1⟩
    · exact absurd hl (hnolock q)
    · rw [hii] at hd
      exact hlive hd
  · cases hj
    rw [hii] at hkey
    exact hmiss k ⟨hk, hkey⟩

/-- A reference changes hands. -/
theorem give {q : P} (hidle : s.pc p = .idle) (hp : 0 < s.held i p) (hlock : s.lock i ≠ some p)
    (hne : p ≠ q) :
    CacheInv image ((s.setHeld i p (s.held i p - 1)).setHeld i q (s.held i q + 1)) := by
  have hhi : ((s.setHeld i p (s.held i p - 1)).setHeld i q (s.held i q + 1)).held i =
      update (update (s.held i) p (s.held i p - 1)) q (s.held i q + 1) := by
    rw [held_setHeld, held_setHeld]
  have hlive := h.live hidle hp
  have hloc : Local s ((s.setHeld i p (s.held i p - 1)).setHeld i q (s.held i q + 1)) p .idle
      (some i) := by
    refine Local.at_entry ?_ (fun _ _ => rfl) (fun _ _ => rfl) (fun j hj => ?_)
      (Or.inl (by rw [hidle]; rfl)) (Or.inl rfl)
    · show s.pc = _
      rw [← hidle, update_eq_self]
    · exact (held_setHeld_of_ne _ q i _ hj).trans (held_setHeld_of_ne _ p i _ hj)
  refine h.of_local hloc (fun _ _ _ hd => hd) (fun j hj => ?_) (fun j hj hpos k hk hk' hkey => ?_)
    ⟨h.stock.allocated, h.stock.typeArg, h.stock.free, h.stock.tally⟩
  · cases hj
    refine ⟨?_, (h.entry i).typed, fun r => ?_⟩
    · have hpred := sum_update_pred (s.held i) p hp
      have hsucc := sum_update_succ (update (s.held i) p (s.held i p - 1)) q
      rw [update_of_ne hne.symm] at hsucc
      have hcount := (h.entry i).count
      rw [hhi]
      show (s.inode i).ref = _
      omega
    · by_cases hrp : r = p
      · rw [hrp]
        exact Tie.of_away (by rw [hloc.self]; simp [Pc.entry]) (fun hl => absurd hl hlock)
          (fun _ => hlive)
      · refine (h.tie i r).other rfl Iff.rfl ?_ (fun _ => ⟨rfl, rfl⟩) (fun _ _ _ => rfl)
          (fun hd => absurd hd hlive)
        rw [hhi]
        by_cases hrq : r = q
        · rw [hrq, update_self]
          exact Nat.le_succ _
        · rw [update_of_ne hrq, update_of_ne hrp]
  · cases hj
    exact hk (h.unique k i hk' hpos hkey.1 hkey.2)

/-- The `iupdate` that frees an inode. -/
theorem freeInode (hp : s.pc p = .iput i .free) :
    CacheInv image { (s.iupdate i).goto p (.iput i .invalidate) with
      frees := bump s.frees (s.inode i).dev (s.inode i).inum } := by
  obtain ⟨_, hnlink, hone, hlive, htype⟩ := (h.tie i p).freeing .free hp rfl
  obtain ⟨hheld, hlock, _⟩ := (h.tie i p).putting .free hp
  obtain ⟨hmine, hothers⟩ := (h.entry i).sole hone hheld
  generalize hs' : ({ (s.iupdate i).goto p (.iput i .invalidate) with
    frees := bump s.frees (s.inode i).dev (s.inode i).inum } : State P D) = s'
  have hpc : s'.pc = update s.pc p (.iput i .invalidate) := by rw [← hs']; rfl
  have hdisk : s'.disk = (s.iupdate i).disk := by rw [← hs']; rfl
  have hinode : s'.inode = s.inode := by rw [← hs']; rfl
  have hlock' : s'.lock = s.lock := by rw [← hs']; rfl
  have hheld' : s'.held = s.held := by rw [← hs']; rfl
  have hfrees : s'.frees = bump s.frees (s.inode i).dev (s.inode i).inum := by rw [← hs']
  have hallocs : s'.allocs = s.allocs := by rw [← hs']; rfl
  have hloc : Local s s' p (.iput i .invalidate) (some i) :=
    Local.at_entry hpc (fun _ _ => by rw [hinode]) (fun _ _ => by rw [hlock'])
      (fun _ _ => by rw [hheld']) (Or.inr (by rw [hp]; rfl)) (Or.inr rfl)
  refine h.of_local hloc
    (fun j hj hpos hd => hd.of_write hpc hdisk (fun hkey => ?_) (by simp)) (fun j hj => ?_)
    (fun j hj hpos k hk hk' hkey => ?_)
    (h.stock.write hpc hdisk (fun q hq => hlive (Or.inr ⟨q, hq⟩)) (by simp) (by simp)
      (fun _ => hnlink) (fun hkey => ⟨by rw [hfrees, bump_of_ne s.frees hkey], by rw [hallocs]⟩) ?_)
  · exact hj (congrArg some (h.unique j i hpos ((h.entry i).ref_pos hheld) hkey.1 hkey.2).symm)
  · cases hj
    refine ⟨by rw [hinode, hheld']; exact (h.entry i).count, fun _ _ hc => ?_, fun q => ?_⟩
    · cases hc p .invalidate hloc.self
    · by_cases hqp : q = p
      · rw [hqp]
        refine Tie.of_put hloc.self (by rw [hheld']; exact hheld)
          (by rw [hlock']; exact iff_of_true (hlock rfl) rfl) (fun hst => by cases hst)
          (fun hst => by cases hst) (fun _ => ?_)
        rw [hheld', hinode]
        exact ⟨rfl, hmine, hnlink⟩
      · -- nobody else refers to this entry
        have hz : ¬ 0 < s.held i q := by rw [hothers q hqp]; exact lt_irrefl 0
        have htie := h.tie i q
        refine Tie.of_away ?_ (fun hl => ?_) (fun hq => ?_)
        · rw [hloc.other hqp]
          exact Pc.entry_ne.mpr ⟨fun hq => hz (htie.holder (htie.loading hq)),
            fun st hq => hz (htie.putting st hq).1⟩
        · rw [hlock'] at hl
          exact absurd (htie.holder hl) hz
        · rw [hheld'] at hq
          exact absurd hq hz
  · cases hj
    rw [hinode] at hpos hkey
    exact hk (h.unique k i hk' hpos hkey.1 hkey.2)
  · have htally := h.stock.tally (s.inode i).dev (s.inode i).inum
    rw [if_pos (fun hz => hlive (Or.inl hz))] at htally
    rw [hfrees, hallocs, htype rfl, bump_self, if_neg (fun hne => hne rfl), Nat.add_zero]
    exact htally

/-- `ialloc` claims a free inode. -/
theorem claim (hbefore : (s.pc p).entry = none) (hzero : (s.disk dev inum).type = 0)
    (hdip : dip.type ≠ 0 ∧ dip.nlink = 0) :
    CacheInv image { (s.setDisk dev inum dip).goto p (.allocated dev inum) with
      allocs := bump s.allocs dev inum } := by
  generalize hs' : ({ (s.setDisk dev inum dip).goto p (.allocated dev inum) with
    allocs := bump s.allocs dev inum } : State P D) = s'
  have hpc : s'.pc = update s.pc p (.allocated dev inum) := by rw [← hs']; rfl
  have hdisk : s'.disk = (s.setDisk dev inum dip).disk := by rw [← hs']; rfl
  have hfrees : s'.frees = s.frees := by rw [← hs']; rfl
  have hallocs : s'.allocs = bump s.allocs dev inum := by rw [← hs']
  -- the inode was dead and still is
  have hdead : ∀ dev' inum', Dead s' dev' inum' → Dead s dev' inum' := by
    intro dev' inum' hd
    by_cases hkey : dev' = dev ∧ inum' = inum
    · rw [hkey.1, hkey.2]
      exact Or.inl hzero
    · refine hd.of_write hpc hdisk hkey (fun heq => hkey ?_)
      cases heq
      exact ⟨rfl, rfl⟩
  refine h.of_local (o := none) ⟨hpc, fun _ _ => by rw [← hs']; rfl, fun _ _ => by rw [← hs']; rfl,
    fun _ _ => by rw [← hs']; rfl, Or.inl hbefore, Or.inl rfl⟩ (fun _ _ _ => hdead _ _)
    (fun _ hi => by cases hi) (fun _ hi => by cases hi)
    (h.stock.write hpc hdisk (fun q hq => (h.stock.allocated q dev inum hq).1 hzero)
      (fun dev' inum' ha => ?_) (by simp) (fun hz => absurd hz hdip.1)
      (fun hkey => ⟨by rw [hfrees], by rw [hallocs, bump_of_ne s.allocs hkey]⟩) ?_)
  · cases ha
    exact ⟨⟨rfl, rfl⟩, hdip⟩
  · have htally := h.stock.tally dev inum
    rw [if_neg (not_not.mpr hzero)] at htally
    rw [hfrees, hallocs, if_pos hdip.1, bump_self]
    omega

/-- `iget` for an inode that is alive once the caller is back. -/
theorem iget (hbefore : (s.pc p).entry = none)
    (hlive : ¬ Dead (s.goto p .idle) dev inum)
    (hfree : ∀ j, (s.inode j).dev = dev → (s.inode j).inum = inum →
      ∀ q st, q ≠ p → s.pc q = .iput j st → st.freeing = false) :
    CacheInv image (s.iget p dev inum) := by
  rcases iget_cases s p dev inum with ⟨i, href, hdev, hinum, heq⟩ | ⟨hmiss, i, hzero, heq⟩ | heq
  · rw [heq]
    refine h.addRef href hbefore (hfree i hdev hinum) ?_
    rw [hdev, hinum]
    exact hlive
  · rw [heq]
    exact h.recycle hzero hmiss hbefore hlive
  · rw [heq]
    exact h.stop _

/-- `ilock` and `iput` take the lock. -/
theorem lockInode (hidle : s.pc p = .idle) (hheld : 0 < s.held i p) (hfree : s.lock i = none)
    (ha : a = .loading i ∨ a = .iput i .test) :
    CacheInv image ((s.setLock i (some p)).goto p a) := by
  have hlive := h.live hidle hheld
  have hlive' : ¬ Dead ((s.setLock i (some p)).goto p a) (s.inode i).dev (s.inode i).inum := by
    refine fun hd => hlive (hd.of_move rfl rfl ?_)
    rcases ha with rfl | rfl <;> simp
  have hlocked : ((s.setLock i (some p)).goto p a).lock i = some p := lock_setLock_self s i _
  refine h.relock (Or.inl (by rw [hidle]; rfl)) (Or.inr (by rcases ha with rfl | rfl <;> rfl))
    (fun st hst => by rw [hidle] at hst; cases hst) (fun q hq => ?_) ?_
  · rw [hfree]
    exact iff_of_false (fun heq => hq (Option.some.inj heq).symm) (Option.some_ne_none q).symm
  · rcases ha with rfl | rfl
    · exact Tie.of_loading (pc_goto_self _ p _) hlocked hheld hlive'
    · exact Tie.of_put (pc_goto_self _ p _) hheld (iff_of_true hlocked rfl)
        (fun hst => by cases hst) (fun hst => by cases hst) (fun hd => absurd hd hlive')

end

omit [DecidableEq P] [Fintype P] in
/-- Nobody else is affected when the holder gives a lock back. -/
theorem unlock_other (hl : s.lock i = some p) (q : P) (hq : q ≠ p) :
    (none : Option P) = some q ↔ s.lock i = some q :=
  iff_of_false (Option.some_ne_none q).symm (fun hl' => hq (Option.some.inj (hl'.symm.trans hl)))

variable (h : CacheInv image s)

include h

/-- `iunlock` gives the lock back. -/
theorem iunlock (hidle : s.pc p = .idle) (hl : s.lock i = some p) :
    CacheInv image (s.setLock i none) := by
  have heq : (s.setLock i none).goto p .idle = s.setLock i none :=
    goto_self (s := s.setLock i none) hidle
  have hlive := h.live hidle ((h.tie i p).holder hl)
  have hnone : ((s.setLock i none).goto p .idle).lock i = none := lock_setLock_self s i _
  rw [← heq]
  refine h.relock (Or.inl (by rw [hidle]; rfl)) (Or.inl rfl)
    (fun st hst => by rw [hidle] at hst; cases hst) (unlock_other hl)
    (Tie.of_away (by rw [pc_goto_self]; simp [Pc.entry]) (fun hl' => ?_)
      (fun _ hd => hlive (hd.of_move rfl rfl (by simp))))
  rw [hnone] at hl'
  cases hl'

/-- A round of `ialloc`. -/
theorem iallocStep {ninodes : Nat} {zero : D} {type : Int} (hp : s.pc p = .ialloc dev type inum) :
    CacheInv image (s.iallocStep ninodes zero p dev type inum) := by
  have htype := h.stock.typeArg p dev type inum hp
  have hbefore : (s.pc p).entry = none := by rw [hp]; rfl
  unfold State.iallocStep
  split
  · split
    · next hzero => exact h.claim hbefore hzero ⟨htype, rfl⟩
    · refine h.wander hbefore rfl (fun _ _ => by simp) (fun dev' type' inum' heq => ?_)
      cases heq
      exact htype
  · exact h.stop _

/-- The end of `ilock`; it does not find the type of a free inode. -/
theorem load (hp : s.pc p = .loading i) : CacheInv image (s.load p i) := by
  have hl := (h.tie i p).loading hp
  have hheld := (h.tie i p).holder hl
  have hlive := h.not_dead hheld (fun st hst => by rw [hp] at hst; cases hst)
  have hne : (s.disk (s.inode i).dev (s.inode i).inum).type ≠ 0 := fun hz => hlive (Or.inl hz)
  have hbefore : (s.pc p).entry = none ∨ (s.pc p).entry = some i := Or.inr (by rw [hp]; rfl)
  unfold State.load
  split
  · rw [if_neg hne]
    exact h.modify_idle hl ⟨rfl, rfl, rfl⟩ hbefore hlive rfl hne
  · next hv =>
    have hv' : (s.inode i).valid = true := by simpa using hv
    exact h.go hbefore (Or.inl rfl) (fun st hst => by rw [hp] at hst; cases hst)
      (Tie.of_away (by rw [pc_goto_self]; simp [Pc.entry]) (fun _ => ⟨hheld, hv'⟩)
        (fun _ hd => hlive (hd.of_move rfl rfl (by simp))))

/-- An inode that is being freed keeps its type until `ip->type = 0`. -/
theorem typed_of_freeing (hp : s.pc p = .iput i st) (hst : st.freeing = true)
    (hc : st.cleared = false) : (s.inode i).copy.type ≠ 0 := by
  obtain ⟨hv, _, hone, _, _⟩ := (h.tie i p).freeing st hp hst
  have hheld := ((h.tie i p).putting st hp).1
  refine (h.entry i).typed ((h.entry i).ref_pos hheld) hv (fun q st' hq => ?_)
  by_cases hqp : q = p
  · rw [hqp, hp] at hq
    cases hq
    exact hc
  · have hz := ((h.entry i).sole hone hheld).2 q hqp
    have hpos := ((h.tie i q).putting st' hq).1
    rw [hz] at hpos
    cases hpos

omit [DecidableEq P] in
/-- So does an inode that somebody has locked to use it. -/
theorem typed_of_locked (hidle : s.pc p = .idle) (hlock : s.lock i = some p) :
    (s.inode i).copy.type ≠ 0 := by
  have hv := (h.tie i p).locked hlock (by rw [hidle]; simp [Pc.entry])
  refine (h.entry i).typed ((h.entry i).ref_pos ((h.tie i p).holder hlock)) hv (fun q st hq => ?_)
  by_contra hc
  have hholds : st.holdsLock = true := by
    cases st <;> simp_all [PutStage.cleared, PutStage.holdsLock]
  have hl := ((h.tie i q).putting st hq).2.1 hholds
  have hqp : q = p := Option.some.inj (hl.symm.trans hlock)
  rw [hqp, hidle] at hq
  cases hq

/-- **One statement** of `iput`. -/
theorem putStep {trunc : D → D} (hp : s.pc p = .iput i st) :
    CacheInv image (s.putStep trunc p i st) := by
  obtain ⟨hheld, hlocked, _⟩ := (h.tie i p).putting st hp
  have hbefore : (s.pc p).entry = none ∨ (s.pc p).entry = some i := Or.inr (by rw [hp]; rfl)
  have hclear : st.cleared = false → ∀ st', s.pc p = .iput i st' → st'.cleared = false := by
    intro hc st' hst'
    rw [hp] at hst'
    cases hst'
    exact hc
  cases st with
  | test =>
    simp only [State.putStep]
    split
    · next hc =>
      exact h.go hbefore (Or.inr rfl) (hclear rfl)
        (h.tie_put hp rfl rfl rfl (fun _ => hc) (fun hf => by cases hf))
    · exact h.go hbefore (Or.inr rfl) (hclear rfl)
        (h.tie_put hp rfl rfl rfl (fun hst => by cases hst) (fun hf => by cases hf))
  | ref =>
    simp only [State.putStep]
    have htest := (h.tie i p).tested hp
    split
    · next hone =>
      exact h.go hbefore (Or.inr rfl) (hclear rfl)
        (h.tie_put hp rfl rfl rfl (fun hst => by cases hst)
          (fun _ => ⟨htest.1, htest.2, hone, fun hst => by cases hst⟩))
    · exact h.go hbefore (Or.inr rfl) (hclear rfl)
        (h.tie_put hp rfl rfl rfl (fun hst => by cases hst) (fun hf => by cases hf))
  | trunc =>
    obtain ⟨hv, hn, hone, hlive, _⟩ := (h.tie i p).freeing .trunc hp rfl
    have htyped := h.typed_of_freeing hp rfl rfl
    exact h.modify_put hp rfl rfl ⟨rfl, rfl, rfl⟩ (by simp)
      (fun _ => ⟨hv, hn, hone, hlive, fun hst => by cases hst⟩) (fun _ _ => htyped)
      (fun hd => absurd hd hlive)
  | update =>
    obtain ⟨hv, hn, hone, hlive, _⟩ := (h.tie i p).freeing .update hp rfl
    exact h.flush hbefore (Or.inr rfl) (hclear rfl) hlive (h.typed_of_freeing hp rfl rfl)
      (h.tie_put hp rfl rfl rfl (fun hst => by cases hst)
        (fun _ => ⟨hv, hn, hone, fun hst => by cases hst⟩))
  | clear =>
    obtain ⟨hv, hn, hone, hlive, _⟩ := (h.tie i p).freeing .clear hp rfl
    exact h.modify_put hp rfl rfl ⟨rfl, rfl, rfl⟩ (by simp)
      (fun _ => ⟨hv, hn, hone, hlive, fun _ => rfl⟩) (fun _ hc => by cases hc)
      (fun hd => absurd hd hlive)
  | free => exact h.freeInode hp
  | invalidate =>
    exact h.modify_put hp rfl rfl ⟨rfl, rfl, rfl⟩ (by simp) (fun hf => by cases hf)
      (fun hv => by cases hv) (fun hd => ⟨rfl, ((h.tie i p).dead hheld hd).2.2⟩)
  | unlock f =>
    have hnone : (s.setLock i none).lock i ≠ some p := by
      rw [lock_setLock_self]
      exact (Option.some_ne_none p).symm
    refine h.relock hbefore (Or.inr rfl) (hclear rfl) (unlock_other (hlocked rfl))
      (Tie.of_put (pc_goto_self _ p _) hheld (iff_of_false hnone Bool.false_ne_true)
        (fun hst => by cases hst) (fun hf => by cases hf) (fun hd => ?_))
    obtain ⟨⟨st, hst, hf⟩, hone, hn⟩ := (h.tie i p).dead hheld (hd.of_move rfl rfl (by simp))
    rw [hp] at hst
    cases hst
    exact ⟨hf, hone, hn⟩
  | drop f => exact h.drop hp

/-- **One step.** -/
theorem step {ninodes : Nat} {zero : D} {trunc : D → D} {l : Label P D}
    (hst : next ninodes zero trunc s l = some s') : CacheInv image s' := by
  cases move_of_next hst with
  | iget p dev inum hidle hn =>
    obtain ⟨hlive, hfree⟩ := h.alive_of_nlink hn
    exact h.iget (by rw [hidle]; rfl) (fun hd => hlive (hd.of_move rfl rfl (by simp)))
      (fun j hdev hinum q st _ hq => hfree j hdev hinum q st hq)
  | ialloc p dev type hidle htype =>
    refine h.wander (by rw [hidle]; rfl) rfl (fun _ _ => by simp) (fun dev' type' inum' heq => ?_)
    cases heq
    exact htype
  | idup p i hidle hheld =>
    have heq : (s.addRef p i).goto p .idle = s.addRef p i := goto_self (s := s.addRef p i) hidle
    have hlive := h.live hidle hheld
    rw [← heq]
    exact h.addRef ((h.entry i).ref_pos hheld) (by rw [hidle]; rfl)
      (fun q st hqp hq => h.not_freeing hheld hqp hq)
      (fun hd => hlive (hd.of_move rfl rfl (by simp)))
  | ilockPanic | iunlockPanic => exact h.stop _
  | ilock p i hidle hheld hfree => exact h.lockInode hidle hheld hfree (Or.inl rfl)
  | iunlock p i hidle hlock => exact h.iunlock hidle hlock
  | iput p i hidle hheld hfree => exact h.lockInode hidle hheld hfree (Or.inr rfl)
  | modify p i nl d hidle hlock =>
    have hlive := h.live hidle ((h.tie i p).holder hlock)
    have hv := (h.tie i p).locked hlock (by rw [hidle]; simp [Pc.entry])
    have heq : ((s.setInode i { s.inode i with
        copy := { (s.inode i).copy with nlink := nl, data := d } }).goto p .idle) =
        s.setInode i { s.inode i with copy := { (s.inode i).copy with nlink := nl, data := d } } :=
      goto_self (s := s.setInode i _) hidle
    rw [← heq]
    exact h.modify_idle hlock ⟨rfl, rfl, rfl⟩ (Or.inl (by rw [hidle]; rfl)) hlive hv
      (h.typed_of_locked hidle hlock)
  | iupdate p i hidle hlock =>
    have hlive := h.live hidle ((h.tie i p).holder hlock)
    have heq : (s.iupdate i).goto p .idle = s.iupdate i := goto_self (s := s.iupdate i) hidle
    rw [← heq]
    refine h.flush (Or.inl (by rw [hidle]; rfl)) (Or.inl rfl)
      (fun st hst => by rw [hidle] at hst; cases hst) hlive (h.typed_of_locked hidle hlock) ?_
    rw [goto_self hidle]
    exact h.tie i p
  | give p q i hidle hheld hlock hne => exact h.give hidle hheld hlock hne
  | iallocStep p dev type inum hp => exact h.iallocStep hp
  | allocated p dev inum hp =>
    obtain ⟨ht, _, hu⟩ := h.stock.allocated p dev inum hp
    refine h.iget (by rw [hp]; rfl) ?_ ?_
    · rintro (hz | ⟨q, hq⟩)
      · exact ht hz
      · rcases pc_update hq with ⟨_, ha⟩ | ⟨hqp, hq⟩
        · cases ha
        · exact hqp (hu q hq)
    · -- an inode that is being freed has not been claimed
      intro j hdev hinum q st _ hq
      by_contra hfree
      refine ((h.tie j q).freeing st hq ((Bool.not_eq_false _).mp hfree)).2.2.2.1 ?_
      rw [hdev, hinum]
      exact Or.inr ⟨p, hp⟩
  | load p i hp => exact h.load hp
  | putStep p i st hp => exact h.putStep hp

end CacheInv

end steps

/-! ### What a step may change -/

section effects

variable {ninodes : Nat} {zero : D} {trunc : D → D} {s s' : State P D} {l : Label P D}

/-- An entry stays with its inode; its contents change only under its lock, or
    when `iput` truncates it. -/
structure Intact (l : Label P D) (s s' : State P D) (j : NIdx) : Prop where
  dev : (s'.inode j).dev = (s.inode j).dev
  inum : (s'.inode j).inum = (s.inode j).inum
  data : (s.inode j).valid = true → (s'.inode j).copy.data ≠ (s.inode j).copy.data →
    (∃ p nlink data, l = .modify p j nlink data ∧ s.lock j = some p) ∨
      ∃ p, l = .run p ∧ s.pc p = .iput j .trunc

omit [DecidableEq P] in
theorem Intact.of_eq (h : s'.inode j = s.inode j) : Intact l s s' j :=
  ⟨by rw [h], by rw [h], fun _ hne => absurd (by rw [h]) hne⟩

omit [DecidableEq P] in
/-- An entry that is changed in place. -/
theorem Intact.of_setInode {i : NIdx} (ip : Inode D) (heq : s'.inode = (s.setInode i ip).inode)
    (hdev : ip.dev = (s.inode i).dev) (hinum : ip.inum = (s.inode i).inum)
    (hdata : j = i → (s.inode i).valid = true → ip.copy.data ≠ (s.inode i).copy.data →
      (∃ p nlink data, l = .modify p j nlink data ∧ s.lock j = some p) ∨
        ∃ p, l = .run p ∧ s.pc p = .iput j .trunc) : Intact l s s' j := by
  by_cases hji : j = i
  · subst hji
    have hj : s'.inode j = ip := by rw [heq, inode_setInode_self]
    exact ⟨by rw [hj, hdev], by rw [hj, hinum], by rw [hj]; exact hdata rfl⟩
  · exact Intact.of_eq (by rw [heq, inode_setInode_of_ne s i ip hji])

theorem intact_iget (p : P) (dev inum : Nat) (hj : 0 < (s.inode j).ref) :
    Intact l s (s.iget p dev inum) j := by
  rcases iget_cases s p dev inum with ⟨i, _, _, _, hi⟩ | ⟨_, i, hzero, hi⟩ | hi
  · rw [hi]
    exact Intact.of_setInode (i := i)
      ({ s.inode i with ref := (s.inode i).ref + 1 }) rfl rfl rfl
      (fun _ _ hne => absurd rfl hne)
  · have hji : j ≠ i := by
      intro heq
      rw [heq, hzero] at hj
      cases hj
    rw [hi]
    exact Intact.of_eq (inode_setInode_of_ne s i _ hji)
  · rw [hi]
    exact Intact.of_eq rfl

theorem intact_load (p : P) (i j : NIdx) : Intact l s (s.load p i) j := by
  unfold State.load
  split
  · next hv =>
    refine Intact.of_setInode (i := i) ({ s.inode i with
      copy := s.disk (s.inode i).dev (s.inode i).inum, valid := true }) ?_ rfl rfl ?_
    · simp only
      split <;> rfl
    · intro _ hv'
      rw [hv] at hv'
      cases hv'
  · exact Intact.of_eq rfl

theorem intact_putStep {p : P} {i : NIdx} (hp : s.pc p = .iput i st) (j : NIdx) :
    Intact (.run p) s (s.putStep trunc p i st) j := by
  cases st with
  | test | ref =>
    refine Intact.of_eq ?_
    simp only [State.putStep]
    split <;> rfl
  | trunc =>
    exact Intact.of_setInode _ rfl rfl rfl (fun hji _ _ => Or.inr ⟨p, rfl, by rw [hji]; exact hp⟩)
  | update | free | unlock => exact Intact.of_eq rfl
  | clear | invalidate | drop =>
    exact Intact.of_setInode _ rfl rfl rfl (fun _ _ hne => absurd rfl hne)

/-- An entry that somebody refers to is not recycled, whatever happens. -/
theorem intact_next (hst : next ninodes zero trunc s l = some s') (hj : 0 < (s.inode j).ref) :
    Intact l s s' j := by
  cases move_of_next hst with
  | iget p dev inum | allocated p dev inum => exact intact_iget p dev inum hj
  | idup p i =>
    exact Intact.of_setInode (i := i) ({ s.inode i with ref := (s.inode i).ref + 1 })
      rfl rfl rfl (fun _ _ hne => absurd rfl hne)
  | modify p i nl d _ hlock =>
    exact Intact.of_setInode _ rfl rfl rfl
      (fun hji _ _ => Or.inl ⟨p, nl, d, by rw [hji], by rw [hji]; exact hlock⟩)
  | iallocStep =>
    refine Intact.of_eq ?_
    unfold State.iallocStep
    split
    · split <;> rfl
    · rfl
  | load p i => exact intact_load p i j
  | putStep p i st hp => exact intact_putStep hp j
  | ialloc | ilockPanic | ilock | iunlockPanic | iunlock | iput | iupdate | give =>
    exact Intact.of_eq rfl

/-- Only `iput` frees an inode. -/
theorem freed_next [Fintype P] {image : Nat → Nat → Dinode D} (h : CacheInv image s)
    (hst : next ninodes zero trunc s l = some s') {dev inum : Nat}
    (hne : (s.disk dev inum).type ≠ 0) (hz : (s'.disk dev inum).type = 0) :
    ∃ p i, l = .run p ∧ s.pc p = .iput i .free ∧ (s.inode i).dev = dev ∧
      (s.inode i).inum = inum := by
  have hflush : ∀ i, (s.inode i).copy.type ≠ 0 → ((s.iupdate i).disk dev inum).type ≠ 0 := by
    intro i hi
    by_cases hkey : dev = (s.inode i).dev ∧ inum = (s.inode i).inum
    · rw [hkey.1, hkey.2, State.iupdate, disk_setDisk_self]
      exact hi
    · rw [State.iupdate, disk_setDisk_of_ne s _ _ _ hkey]
      exact hne
  have higet : ∀ p d n, (s.iget p d n).disk = s.disk := by
    intro p d n
    rcases iget_cases s p d n with ⟨i, _, _, _, hi⟩ | ⟨_, i, _, hi⟩ | hi <;> rw [hi] <;> rfl
  cases move_of_next hst with
  | iget p d n | allocated p d n =>
    rw [higet] at hz
    exact absurd hz hne
  | iupdate p i hidle hlock => exact absurd hz (hflush i (h.typed_of_locked hidle hlock))
  | iallocStep p d type n hp =>
    have htype := h.stock.typeArg p d type n hp
    refine absurd hz ?_
    unfold State.iallocStep
    split
    · split
      · show ((s.setDisk d n _).disk dev inum).type ≠ 0
        by_cases hkey : dev = d ∧ inum = n
        · rw [hkey.1, hkey.2, disk_setDisk_self]
          exact htype
        · rw [disk_setDisk_of_ne s _ _ _ hkey]
          exact hne
      · exact hne
    · exact hne
  | load p i =>
    refine absurd hz ?_
    unfold State.load
    split
    · simp only
      split <;> exact hne
    · exact hne
  | putStep p i st hp =>
    cases st with
    | test | ref =>
      refine absurd hz ?_
      simp only [State.putStep]
      split <;> exact hne
    | update => exact absurd hz (hflush i (h.typed_of_freeing hp rfl rfl))
    | free =>
      refine ⟨p, i, rfl, hp, ?_⟩
      by_contra hkey
      have hkey' : ¬ (dev = (s.inode i).dev ∧ inum = (s.inode i).inum) :=
        fun hk => hkey ⟨hk.1.symm, hk.2.symm⟩
      have hz' : ((s.iupdate i).disk dev inum).type = 0 := hz
      rw [State.iupdate, disk_setDisk_of_ne s _ _ _ hkey'] at hz'
      exact hne hz'
    | _ => exact absurd hz hne
  | ialloc | idup | ilockPanic | ilock | iunlockPanic | iunlock | iput | modify | give =>
    exact absurd hz hne

end effects

/-! ### The cache -/

section results

variable [Fintype P] {ninodes : Nat} {zero : D} {trunc : D → D} {image : Nat → Nat → Dinode D}
variable {s s' : State P D}

omit [DecidableEq P] in
theorem cacheInv_init (h : Init image s) : CacheInv image s := by
  have hpc : ∀ {p a}, s.pc p = a → a = .idle := fun {p a} hp => hp.symm.trans (h.pc p)
  have hheld : ∀ {i p}, ¬ 0 < s.held i p := by
    intro i p hp
    rw [h.held i p] at hp
    cases hp
  have href : ∀ {i}, ¬ 0 < (s.inode i).ref := by
    intro i hi
    rw [h.ref i] at hi
    cases hi
  have hlock : ∀ {i p}, s.lock i ≠ some p := by
    intro i p hl
    rw [h.lock i] at hl
    cases hl
  refine ⟨fun i j hi => absurd hi href, fun i => ⟨?_, fun hi => absurd hi href, fun q =>
    Tie.of_away (by rw [h.pc]; simp [Pc.entry]) (fun hl => absurd hl hlock)
      (fun hq => absurd hq hheld)⟩, ?_⟩
  · exact (h.ref i).trans (Finset.sum_eq_zero (fun p _ => h.held i p)).symm
  · exact {
      allocated := fun p dev inum hp => absurd (hpc hp) (by simp)
      typeArg := fun p dev type inum hp => absurd (hpc hp) (by simp)
      free := fun dev inum hz => by
        rw [h.disk] at hz ⊢
        exact h.free dev inum hz
      tally := fun dev inum => by rw [h.disk, h.frees, h.allocs] }

theorem cacheInv_reachable (h : Reachable (icache P ninodes zero trunc image) s) :
    CacheInv image s := by
  induction h with
  | init h0 => exact cacheInv_init h0
  | step l _ hst ih => exact ih.step hst

/-- **The inode cache**: an inode has at most one entry; `ref` counts the
    references; an entry that is referred to is not recycled, and what is in
    it changes only under its lock, or when `iput` truncates it; while `iput`
    truncates an inode and clears its type, its link count is 0 and the
    `iput` has the only reference; only that `iput` frees the inode, at most
    once for each time it was allocated. -/
theorem inode_cache (h : Reachable (icache P ninodes zero trunc image) s) :
    (∀ i j, 0 < (s.inode i).ref → 0 < (s.inode j).ref → (s.inode i).dev = (s.inode j).dev →
      (s.inode i).inum = (s.inode j).inum → i = j) ∧
    (∀ i, (s.inode i).ref = ∑ p, s.held i p) ∧
    (∀ l s', next ninodes zero trunc s l = some s' → ∀ i, 0 < (s.inode i).ref → Intact l s s' i) ∧
    (∀ p i st, s.pc p = .iput i st → st.freeing = true →
      (s.inode i).copy.nlink = 0 ∧ (s.inode i).ref = 1 ∧ s.held i p = 1 ∧
      ∀ q, q ≠ p → s.held i q = 0) ∧
    (∀ l s' dev inum, next ninodes zero trunc s l = some s' → (s.disk dev inum).type ≠ 0 →
      (s'.disk dev inum).type = 0 → ∃ p i, l = .run p ∧ s.pc p = .iput i .free ∧
        (s.inode i).dev = dev ∧ (s.inode i).inum = inum) ∧
    (∀ dev inum, s.frees dev inum + (if (s.disk dev inum).type ≠ 0 then 1 else 0) =
      s.allocs dev inum + (if (image dev inum).type ≠ 0 then 1 else 0)) := by
  have hinv := cacheInv_reachable h
  refine ⟨hinv.unique, fun i => (hinv.entry i).count, fun l s' hst i hi => intact_next hst hi,
    fun p i st hp hst => ?_, fun l s' dev inum hst hne hz => freed_next hinv hst hne hz,
    hinv.stock.tally⟩
  obtain ⟨_, hn, hone, _, _⟩ := (hinv.tie i p).freeing st hp hst
  obtain ⟨hmine, hothers⟩ := (hinv.entry i).sole hone ((hinv.tie i p).putting st hp).1
  exact ⟨hn, hone, hmine, hothers⟩

end results

/-! ### A file that is unlinked while it is open -/

/-- The root directory is inode 1; the others are free. -/
def rootImage (_ inum : Nat) : Dinode Nat :=
  if inum = 1 then { type := 1, nlink := 1, data := 0 } else { type := 0, nlink := 0, data := 0 }

def boot : State (Fin 2) Nat where
  inode := fun _ => { dev := 0, inum := 0, ref := 0, valid := false, copy := rootImage 0 0 }
  lock := fun _ => none
  disk := rootImage
  pc := fun _ => .idle
  panic := none
  held := fun _ _ => 0
  allocs := fun _ _ => 0
  frees := fun _ _ => 0

/-- The first entry of the cache. -/
def slot : NIdx := ⟨0, ninode_pos⟩

/-- Process 0 creates a file and links it; process 1 opens it and unlinks it,
    and drops its reference first. -/
def unlinkWhileOpen : List (Label (Fin 2) Nat) :=
  [.ialloc 0 1 2, .run 0, .run 0, .run 0, .ilock 0 slot, .run 0, .modify 0 slot 1 7, .iupdate 0 slot,
   .iunlock 0 slot, .iget 1 1 2, .ilock 1 slot, .run 1, .modify 1 slot 0 7, .iupdate 1 slot, .iunlock 1 slot,
   .iput 1 slot, .run 1, .run 1, .run 1, .run 1,
   .iput 0 slot, .run 0, .run 0, .run 0, .run 0]

theorem inode_cache_unlinkWhileOpen :
    ∃ s, Reachable (icache (Fin 2) 10 0 (fun _ => 0) rootImage) s ∧ s.pc 0 = .iput slot .clear ∧
      (s.inode slot).inum = 2 ∧ (s.inode slot).copy.nlink = 0 ∧ (s.inode slot).ref = 1 ∧
      s.held slot 0 = 1 ∧ ∀ q, q ≠ 0 → s.held slot q = 0 := by
  have hrun : (unlinkWhileOpen.foldlM (next 10 0 (fun _ => 0)) boot).any
      (fun s => decide (s.pc 0 = .iput slot .clear ∧ (s.inode slot).inum = 2)) = true := by
    decide +kernel
  obtain ⟨s, hs, hp⟩ := (Option.any_eq_true _ _).mp hrun
  obtain ⟨hpc, hinum⟩ := of_decide_eq_true hp
  have hinit : Init rootImage boot := by
    refine ⟨fun _ => rfl, fun _ => rfl, rfl, fun _ => rfl, rfl, fun _ _ => rfl, fun _ _ => rfl,
      fun _ _ => rfl, fun dev inum hz => ?_⟩
    unfold rootImage at hz ⊢
    split at hz
    · cases hz
    · rename_i hne
      rw [if_neg hne]
  have hreach : Reachable (icache (Fin 2) 10 0 (fun _ => 0) rootImage) s :=
    Reachable.foldlM (fun _ _ _ h => h) unlinkWhileOpen (.init hinit) hs
  obtain ⟨_, _, _, hfreeing, _, _⟩ := inode_cache hreach
  exact ⟨s, hreach, hpc, hinum, hfreeing 0 slot .clear hpc rfl⟩

end Xv6.Icache
