import Xv6.Fs.Calls
import Xv6.Framework.LinkTree

/-! # The Directory Graph

    The entries of the directories other than `.` and `..`, as a graph on the
    inodes, and what holds of it in a file system in which every entry names
    an allocated inode: the directories form a tree, and the link count of an
    inode covers the entries that name it and the `..` of its subdirectories.
-/

open LTS LinkTree

namespace Xv6.Fs

/-! ### Entries -/

/-- An entry in use, other than `.` and `..`. -/
def Inode.Ordinary (x : Inode) (k : Nat) : Prop :=
  x.Used k ∧ (x.slot k).name ≠ dot ∧ (x.slot k).name ≠ dotdot

instance (x : Inode) (k : Nat) : Decidable (x.Ordinary k) :=
  inferInstanceAs (Decidable (_ ∧ _))

/-- The entry `e.key` of the directory `x` names `e.dst`. -/
def Inode.Links (x : Inode) (e : Edge Inum Nat) : Prop :=
  x.type = .dir ∧ x.Ordinary e.key ∧ (x.slot e.key).inum = e.dst

/-- The ordinary entries of the inode `d`. -/
def edgesOf (d : Inum) (x : Inode) : Finset (Edge Inum Nat) :=
  if x.type = .dir then
    ((Finset.range x.size).filter x.Ordinary).image (fun k => ⟨d, k, (x.slot k).inum⟩)
  else ∅

theorem mem_edgesOf {d : Inum} {x : Inode} {e : Edge Inum Nat} :
    e ∈ edgesOf d x ↔ e.src = d ∧ x.Links e := by
  unfold edgesOf Inode.Links
  by_cases hdir : x.type = .dir
  · rw [if_pos hdir, Finset.mem_image]
    constructor
    · rintro ⟨k, hk, rfl⟩
      exact ⟨rfl, hdir, (Finset.mem_filter.mp hk).2, rfl⟩
    · rintro ⟨rfl, _, hord, hdst⟩
      refine ⟨e.key, Finset.mem_filter.mpr ⟨Finset.mem_range.mpr ?_, hord⟩, ?_⟩
      · have hlt : DIRENT * e.key < x.size := hord.1.1
        rw [show DIRENT = 16 from rfl] at hlt
        omega
      · show (⟨e.src, e.key, (x.slot e.key).inum⟩ : Edge Inum Nat) = e
        rw [hdst]
  · rw [if_neg hdir]
    constructor
    · intro h
      cases h
    · intro h
      exact absurd h.2.1 hdir

variable {P : Type}

namespace State

/-- The ordinary entries of all directories. -/
def edges (ninodes : Nat) (s : State P) : Finset (Edge Inum Nat) :=
  (Finset.range ninodes).biUnion (fun d => edgesOf d (s.ino d))

def isDir (s : State P) (i : Inum) : Bool := decide ((s.ino i).type = .dir)

/-- What `..` names. -/
def up (s : State P) (i : Inum) : Inum := ((s.ino i).slot 1).inum

/-- The links that an inode should have: the entries that name it, and the
    `..` of its subdirectories; the root is its own parent. -/
def links (ninodes : Nat) (s : State P) (i : Inum) : Nat :=
  inDeg (s.edges ninodes) i + outDeg (s.edges ninodes) s.isDir i + if i = ROOTINO then 1 else 0

end State

section edges

variable {ninodes : Nat} {s : State P} {d : Inum} {x : Inode} {e : Edge Inum Nat}

theorem mem_edges : e ∈ s.edges ninodes ↔ e.src < ninodes ∧ (s.ino e.src).Links e := by
  unfold State.edges
  rw [Finset.mem_biUnion]
  constructor
  · rintro ⟨d, hd, he⟩
    obtain ⟨rfl, hlinks⟩ := mem_edgesOf.mp he
    exact ⟨Finset.mem_range.mp hd, hlinks⟩
  · rintro ⟨hd, hlinks⟩
    exact ⟨e.src, Finset.mem_range.mpr hd, mem_edgesOf.mpr ⟨rfl, hlinks⟩⟩

theorem ino_setIno_self : (s.setIno d x).ino d = x :=
  Function.update_self _ _ _

theorem ino_setIno_of_ne {i : Inum} (h : i ≠ d) : (s.setIno d x).ino i = s.ino i :=
  Function.update_of_ne h _ _

end edges

/-! ### What a call has in hand -/

/-- The references of a call that it has not given up. -/
def Pc.held : Pc → List Inum
  | .put i k => i :: k.held
  | .drop _ k => k.held
  | .idle => []
  | .walk c ip _ => ip :: c.refs
  | .create _ dp _ => [dp]
  | .createOld _ ip => [ip]
  | .createNew _ dp _ ip => [dp, ip]
  | .unlink dp _ => [dp]
  | .linkInc ip _ => [ip]
  | .linkDir ip dp _ => [ip, dp]
  | .linkBad ip => [ip]
  | .chdir ip => [ip]
  | .open _ ip => [ip]
  | .filealloc ip => [ip]

/-- The inode whose link count `sys_link` has raised, for an entry that is not
    there yet or will not be. -/
def Pc.pending : Pc → List Inum
  | .put _ k => k.pending
  | .drop _ k => k.pending
  | .walk c _ _ => c.refs
  | .linkDir ip _ _ => [ip]
  | .linkBad ip => [ip]
  | _ => []

/-- The type that `create` is called with. -/
def Pc.newType : Pc → Option IType
  | .put _ k => k.newType
  | .drop _ k => k.newType
  | .walk (.create ty) _ _ => some ty
  | .create ty _ _ => some ty
  | .createOld ty _ => some ty
  | .createNew ty _ _ _ => some ty
  | _ => none

/-- A place that does not lead back into the middle of `create`. -/
def Pc.plain : Pc → Bool
  | .put _ k => k.plain
  | .drop _ k => k.plain
  | .createNew _ _ _ _ => false
  | _ => true

theorem Pc.locks_of_plain {pc : Pc} (h : pc.plain = true) : pc.locks = none := by
  cases pc with
  | createNew ty dp name ip => cases h
  | _ => rfl

theorem Pc.pending_subset_held (pc : Pc) : ∀ i ∈ pc.pending, i ∈ pc.held := by
  induction pc with
  | put i k ih => exact fun j hj => List.mem_cons_of_mem i (ih j hj)
  | drop i k ih => exact ih
  | walk c ip path => exact fun j hj => List.mem_cons_of_mem ip hj
  | linkDir ip dp name => exact fun j hj => List.mem_cons.mpr (Or.inl (List.mem_singleton.mp hj))
  | linkBad ip => exact fun j hj => hj
  | _ =>
    intro j hj
    cases hj

theorem Pc.held_subset_refs (pc : Pc) : ∀ i ∈ pc.held, i ∈ pc.refs := by
  induction pc with
  | put i k ih =>
    intro j hj
    rcases List.mem_cons.mp hj with rfl | hk
    · exact List.mem_cons_self
    · exact List.mem_cons_of_mem i (ih j hk)
  | drop i k ih => exact fun j hj => List.mem_cons_of_mem i (ih j hj)
  | _ => exact fun j hj => hj

/-- How often the link count of `i` is ahead. -/
def State.pending [Fintype P] (s : State P) (i : Inum) : Nat :=
  ∑ p, (s.pc p).pending.count i

/-- The links of `i` that neither an entry nor a call of `sys_link` accounts
    for. -/
def State.surplus [Fintype P] (ninodes : Nat) (s : State P) (i : Inum) : Int :=
  (s.ino i).nlink - ((s.links ninodes i + s.pending i : Nat) : Int)

/-! ### The invariant -/

/-- A directory that has been set up. -/
structure DirOk (d : Inum) (x : Inode) : Prop where
  size : 2 * DIRENT ≤ x.size
  self : x.slot 0 = ⟨d, dot⟩
  above : (x.slot 1).name = dotdot ∧ (x.slot 1).inum ≠ 0
  rest : ∀ k, 2 ≤ k → x.Used k → (x.slot k).name ≠ dot ∧ (x.slot k).name ≠ dotdot

/-- What holds of the inodes. -/
structure GraphInv (ninodes : Nat) (s : State P) : Prop where
  bound : ∀ i, (s.ino i).type ≠ .free → i ≠ 0 ∧ i < ninodes
  whole : ∀ d, (s.ino d).type = .dir → DIRENT ∣ (s.ino d).size
  dirs : ∀ d, (s.ino d).type = .dir → (s.ino d).size = 0 ∨ DirOk d (s.ino d)
  entries : ∀ d k, (s.ino d).type = .dir → (s.ino d).Used k →
    (s.ino ((s.ino d).slot k).inum).type ≠ .free
  tree : TreeInv (s.edges ninodes) s.isDir s.up ROOTINO
  root : (s.ino ROOTINO).type = .dir ∧ s.up ROOTINO = ROOTINO

/-- An entry names the inode. -/
def State.Named (s : State P) (i : Inum) : Prop :=
  ∃ d k, (s.ino d).type = .dir ∧ (s.ino d).Used k ∧ ((s.ino d).slot k).inum = i

/-- The references that `p` has, and those that no call in progress has. -/
def State.Has (s : State P) (p : P) (i : Inum) : Prop :=
  i ∈ (s.pc p).held ∨ (∃ q, s.cwd q = some i) ∨ 0 < s.files i

/-- The inodes that a step of `p` can get at. -/
def State.Known (s : State P) (p : P) (i : Inum) : Prop :=
  s.Has p i ∨ i = ROOTINO ∨ s.Named i

/-- What holds of an inode between `ialloc` and `ilock` in `create`: no other
    process can get at it. -/
structure NewInode (s : State P) (q : P) (ty : IType) (dp : Inum) (name : Name) (ip : Inum) :
    Prop where
  blank : s.ino ip = State.blank ty
  unnamed : ¬ s.Named ip
  ne_root : ip ≠ ROOTINO
  alone : ∀ p, s.Has p ip → p = q
  parent : (s.ino dp).type = .dir ∧ DirOk dp (s.ino dp)
  absent : dirlookup (s.ino dp) name = .ok none

/-- What holds of the processes. -/
structure ProcInv (s : State P) : Prop where
  live : ∀ p i, s.Has p i → (s.ino i).type ≠ .free
  pending : ∀ p, ∀ i ∈ (s.pc p).pending, (s.ino i).type ≠ .dir
  types : ∀ p, (s.pc p).newType ≠ some .free
  plain : ∀ p, (s.pc p).locks = none → (s.pc p).plain = true
  new : ∀ q ty dp name ip, s.pc q = .createNew ty dp name ip → NewInode s q ty dp name ip
  /-- a directory is empty only until `create` has set it up -/
  unmade : ∀ d, (s.ino d).type = .dir → (s.ino d).size = 0 →
    ∃ q ty dp name, s.pc q = .createNew ty dp name d
  locks : ∀ p q d, (s.pc p).locks = some d → (s.pc q).locks = some d → p = q

/-- A file system in which no entry dangles. -/
structure FsInv [Fintype P] (ninodes : Nat) (s : State P) : Prop where
  graph : GraphInv ninodes s
  procs : ProcInv s
  nlink : ∀ i, (s.ino i).type ≠ .free → 0 ≤ s.surplus ninodes i
  panic : s.panic ≠ some .ilockNoType

end Xv6.Fs
