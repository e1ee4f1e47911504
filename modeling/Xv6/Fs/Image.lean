import Xv6.Fs.Keep

/-! # Images

    The file system that a run starts from. `Consistent` is what holds of an
    image on which no call is in progress; the image that `mkfs` builds is
    consistent.
-/

open LTS LinkTree Function

namespace Xv6.Fs

variable {P : Type} {ninodes : Nat} {s s' : State P}

/-! ### Consistent images -/

/-- A consistent image, and processes between two system calls. -/
structure Consistent (ninodes : Nat) (s : State P) : Prop where
  running : s.panic = none
  idle : ∀ p, s.pc p = .idle
  files : ∀ i, s.files i = 0
  cwd : ∀ p i, s.cwd p = some i → (s.ino i).type = .dir
  bound : ∀ i, (s.ino i).type ≠ .free → i ≠ 0 ∧ i < ninodes
  dirs : ∀ d, (s.ino d).type = .dir → DIRENT ∣ (s.ino d).size ∧ DirOk d (s.ino d)
  entries : ∀ d k, (s.ino d).type = .dir → (s.ino d).Used k →
    (s.ino ((s.ino d).slot k).inum).type ≠ .free
  tree : TreeInv (s.edges ninodes) s.isDir s.up ROOTINO
  root : (s.ino ROOTINO).type = .dir ∧ s.up ROOTINO = ROOTINO
  nlink : ∀ i, (s.ino i).type ≠ .free → (s.ino i).nlink = s.links ninodes i
  named : ∀ i, (s.ino i).type ≠ .free → i = ROOTINO ∨ ∃ e ∈ s.edges ninodes, e.dst = i

namespace Consistent

variable (h : Consistent ninodes s)

include h

theorem pending [Fintype P] (i : Inum) : s.pending i = 0 := by
  refine Finset.sum_eq_zero (fun p _ => ?_)
  rw [h.idle p]
  rfl

theorem surplus [Fintype P] {i : Inum} (hi : (s.ino i).type ≠ .free) : s.surplus ninodes i = 0 := by
  unfold State.surplus
  rw [h.pending, h.nlink i hi]
  omega

theorem graphInv : GraphInv ninodes s :=
  ⟨h.bound, fun d hd => (h.dirs d hd).1, fun d hd => Or.inr (h.dirs d hd).2, h.entries, h.tree,
    h.root⟩

theorem procInv : ProcInv s := by
  refine ⟨fun p i hi => ?_, fun p i hi => ?_, fun p => ?_, fun p _ => ?_, fun q ty dp name ip hq => ?_,
    fun d hd hsize => ?_, fun p q d hp => ?_⟩
  · rcases hi with hin | ⟨q, hq⟩ | hf
    · rw [h.idle p] at hin
      cases hin
    · rw [h.cwd q i hq]
      simp
    · rw [h.files i] at hf
      exact absurd hf (Nat.lt_irrefl 0)
  · rw [h.idle p] at hi
    cases hi
  · rw [h.idle p]
    simp [Pc.newType]
  · rw [h.idle p]
    rfl
  · rw [h.idle q] at hq
    cases hq
  · have hle := (h.dirs d hd).2.size
    rw [hsize] at hle
    exact absurd hle (by decide)
  · rw [h.idle p] at hp
    cases hp

theorem fsInv [Fintype P] : FsInv ninodes s := by
  refine ⟨h.graphInv, h.procInv, fun i hi => ?_, ?_⟩
  · rw [h.surplus hi]
  · rw [h.running]
    simp

end Consistent

/-- The file system. -/
def fs [DecidableEq P] [Fintype P] (ninodes : Nat) : System (State P) (Label P) where
  init := Consistent ninodes
  step := fun s l s' => next ninodes s l = some s'

/-- The invariant along a run. -/
theorem fsInv_reachable [DecidableEq P] [Fintype P]
    (h : ReachableUnder (fs ninodes) (Keeps ninodes) s) : FsInv ninodes s :=
  h.invariant (fun _ h0 => Consistent.fsInv h0) (fun _ _ _ hinv hk hst => hinv.step hk hst)

/-! ### `mkfs` -/

def NINODES : Nat := 200

/-- What `mkfs` has written, and the next inode it gives out. -/
structure Mkfs where
  freeinode : Nat
  ino : Inum → Inode

namespace Mkfs

def setIno (m : Mkfs) (i : Inum) (x : Inode) : Mkfs :=
  { m with ino := Function.update m.ino i x }

/-- `ialloc(type)`. -/
def ialloc (m : Mkfs) (ty : IType) : Inum × Mkfs :=
  (m.freeinode, { m.setIno m.freeinode { State.blank ty with nlink := 1 } with
    freeinode := m.freeinode + 1 })

/-- `iappend(inum, &de, sizeof(de))`. -/
def appendEntry (m : Mkfs) (i : Inum) (de : Dirent) : Mkfs :=
  m.setIno i { m.ino i with
    slot := Function.update (m.ino i).slot ((m.ino i).size / DIRENT) de
    size := (m.ino i).size + DIRENT }

/-- `iappend(inum, buf, cc)`, for all of a file. -/
def appendBytes (m : Mkfs) (i : Inum) (cc : Nat) : Mkfs :=
  m.setIno i { m.ino i with size := (m.ino i).size + cc }

/-- The root directory, with `.` and `..`. -/
def start : Mkfs :=
  let (root, m) := ialloc { freeinode := 1, ino := fun _ => State.blank .free } .dir
  (m.appendEntry root ⟨root, dot⟩).appendEntry root ⟨root, dotdot⟩

/-- One file of the command line: its name and its length. -/
def addFile (m : Mkfs) (f : Name × Nat) : Mkfs :=
  let (inum, m) := m.ialloc .file
  (m.appendEntry ROOTINO ⟨inum, f.1⟩).appendBytes inum f.2

/-- The size of the root directory is that of the blocks it has. -/
def fixSize (m : Mkfs) : Mkfs :=
  m.setIno ROOTINO
    { m.ino ROOTINO with size := ((m.ino ROOTINO).size / BSIZE + 1) * BSIZE }

end Mkfs

/-- The inodes of the image. -/
def mkfs (files : List (Name × Nat)) : Inum → Inode :=
  ((files.foldl Mkfs.addFile Mkfs.start).fixSize).ino

/-- What holds of the image while `mkfs` adds files. -/
structure Mkfs.Inv (m : Mkfs) : Prop where
  first : 2 ≤ m.freeinode
  root : (m.ino ROOTINO).type = .dir ∧ (m.ino ROOTINO).nlink = 1 ∧
    (m.ino ROOTINO).size = DIRENT * m.freeinode
  dots : (m.ino ROOTINO).slot 0 = ⟨ROOTINO, dot⟩ ∧ (m.ino ROOTINO).slot 1 = ⟨ROOTINO, dotdot⟩
  entries : ∀ k : Nat, 2 ≤ k → k < m.freeinode → ((m.ino ROOTINO).slot k).inum = k ∧
    ((m.ino ROOTINO).slot k).name ≠ dot ∧ ((m.ino ROOTINO).slot k).name ≠ dotdot
  rest : ∀ k : Nat, m.freeinode ≤ k → ((m.ino ROOTINO).slot k).inum = 0
  files : ∀ i : Nat, 2 ≤ i → i < m.freeinode → (m.ino i).type = .file ∧ (m.ino i).nlink = 1
  free : ∀ i : Nat, i = 0 ∨ m.freeinode ≤ i → (m.ino i).type = .free

namespace Mkfs

variable {m : Mkfs} {i j : Inum}

theorem ino_ialloc_self {ty : IType} :
    (m.ialloc ty).2.ino m.freeinode = { State.blank ty with nlink := 1 } :=
  update_self _ _ _

theorem ino_ialloc_of_ne {ty : IType} (h : j ≠ m.freeinode) : (m.ialloc ty).2.ino j = m.ino j :=
  update_of_ne h _ _

theorem ino_appendEntry_self {de : Dirent} :
    (m.appendEntry i de).ino i = { m.ino i with
      slot := update (m.ino i).slot ((m.ino i).size / DIRENT) de
      size := (m.ino i).size + DIRENT } :=
  update_self _ _ _

theorem ino_appendEntry_of_ne {de : Dirent} (h : j ≠ i) : (m.appendEntry i de).ino j = m.ino j :=
  update_of_ne h _ _

theorem ino_appendBytes_self {cc : Nat} :
    (m.appendBytes i cc).ino i = { m.ino i with size := (m.ino i).size + cc } :=
  update_self _ _ _

theorem ino_appendBytes_of_ne {cc : Nat} (h : j ≠ i) : (m.appendBytes i cc).ino j = m.ino j :=
  update_of_ne h _ _

theorem addFile_eq (f : Name × Nat) :
    m.addFile f = ((m.ialloc .file).2.appendEntry ROOTINO ⟨m.freeinode, f.1⟩).appendBytes
      m.freeinode f.2 := rfl

theorem inv_start : start.Inv := by
  have hfree : start.freeinode = 2 := rfl
  refine ⟨le_refl 2, ⟨rfl, rfl, rfl⟩, ⟨rfl, rfl⟩, fun k hk hlt => ?_, fun k hk => ?_,
    fun i hi hlt => ?_, fun i hi => ?_⟩
  · omega
  · have h0 : k ≠ 0 := by omega
    have h1 : k ≠ 1 := by omega
    have hslot : (start.ino ROOTINO).slot = update (update
        (State.blank .dir).slot 0 ⟨ROOTINO, dot⟩) 1 ⟨ROOTINO, dotdot⟩ := rfl
    rw [hslot, update_of_ne h1, update_of_ne h0]
    rfl
  · omega
  · have hi1 : i ≠ 1 := by omega
    have heq : start = ((ialloc ⟨1, fun _ => State.blank .free⟩ .dir).2.appendEntry 1
        ⟨1, dot⟩).appendEntry 1 ⟨1, dotdot⟩ := rfl
    rw [heq, ino_appendEntry_of_ne hi1, ino_appendEntry_of_ne hi1, ino_ialloc_of_ne hi1]
    rfl

/-- One more file. -/
theorem Inv.addFile (h : m.Inv) {f : Name × Nat} (hdot : f.1 ≠ dot) (hdotdot : f.1 ≠ dotdot) :
    (m.addFile f).Inv := by
  have h16 : DIRENT = 16 := rfl
  have hfirst := h.first
  have hne : ROOTINO ≠ m.freeinode := by
    show 1 ≠ m.freeinode
    omega
  have hdiv : (m.ino ROOTINO).size / DIRENT = m.freeinode := by
    rw [h.root.2.2]
    exact Nat.mul_div_cancel_left _ (by decide)
  have hfree : (m.addFile f).freeinode = m.freeinode + 1 := rfl
  have hroot : (m.addFile f).ino ROOTINO = { m.ino ROOTINO with
      slot := update (m.ino ROOTINO).slot m.freeinode ⟨m.freeinode, f.1⟩
      size := (m.ino ROOTINO).size + DIRENT } := by
    rw [addFile_eq, ino_appendBytes_of_ne hne, ino_appendEntry_self, ino_ialloc_of_ne hne, hdiv]
  have hnew : ((m.addFile f).ino m.freeinode).type = .file ∧
      ((m.addFile f).ino m.freeinode).nlink = 1 := by
    rw [addFile_eq, ino_appendBytes_self, ino_appendEntry_of_ne (Ne.symm hne), ino_ialloc_self]
    exact ⟨rfl, rfl⟩
  have hother : ∀ j : Nat, j ≠ ROOTINO → j ≠ m.freeinode → (m.addFile f).ino j = m.ino j := by
    intro j hj hjf
    rw [addFile_eq, ino_appendBytes_of_ne hjf, ino_appendEntry_of_ne hj, ino_ialloc_of_ne hjf]
  have hslot : ((m.addFile f).ino ROOTINO).slot =
      update (m.ino ROOTINO).slot m.freeinode ⟨m.freeinode, f.1⟩ := by
    rw [hroot]
  have hslot_ne : ∀ k, k ≠ m.freeinode →
      ((m.addFile f).ino ROOTINO).slot k = (m.ino ROOTINO).slot k := by
    intro k hk
    rw [hslot, update_of_ne hk]
  refine ⟨by rw [hfree]; omega, ?_, ?_, fun k hk hlt => ?_, fun k hk => ?_, fun i hi hlt => ?_,
    fun i hi => ?_⟩
  · rw [hroot]
    refine ⟨h.root.1, h.root.2.1, ?_⟩
    rw [hfree, h.root.2.2, Nat.mul_succ]
  · rw [hslot_ne 0 (by omega), hslot_ne 1 (by omega)]
    exact h.dots
  · by_cases hkf : k = m.freeinode
    · rw [hkf, hslot, update_self]
      exact ⟨rfl, hdot, hdotdot⟩
    · rw [hslot_ne k hkf]
      exact h.entries k hk (by omega)
  · rw [hslot_ne k (by omega)]
    exact h.rest k (by omega)
  · by_cases hif : i = m.freeinode
    · rw [hif]
      exact hnew
    · have hi1 : i ≠ ROOTINO := by
        show i ≠ 1
        omega
      rw [hother i hi1 hif]
      exact h.files i hi (by omega)
  · have hi1 : i ≠ ROOTINO := by
      show i ≠ 1
      omega
    have hif : i ≠ m.freeinode := by omega
    rw [hother i hi1 hif]
    exact h.free i (by omega)

/-- All files of the command line. -/
theorem Inv.addFiles (files : List (Name × Nat))
    (hnames : ∀ f ∈ files, f.1 ≠ dot ∧ f.1 ≠ dotdot) :
    ∀ {m : Mkfs}, m.Inv → (files.foldl Mkfs.addFile m).Inv ∧
      (files.foldl Mkfs.addFile m).freeinode = m.freeinode + files.length := by
  induction files with
  | nil =>
    intro m h
    exact ⟨h, rfl⟩
  | cons f files ih =>
    intro m h
    have hf := hnames f List.mem_cons_self
    obtain ⟨hinv, hcount⟩ := ih (fun g hg => hnames g (List.mem_cons_of_mem f hg))
      (h.addFile hf.1 hf.2)
    refine ⟨hinv, ?_⟩
    rw [List.foldl_cons, hcount]
    show m.freeinode + 1 + files.length = m.freeinode + (files.length + 1)
    omega

end Mkfs

/-- The system after boot. -/
def boot (ino : Inum → Inode) (cwd : P → Option Inum) : State P where
  ino := ino
  cwd := cwd
  files := fun _ => 0
  pc := fun _ => .idle
  panic := none

section image

variable {m : Mkfs} (h : m.Inv)

include h

omit h in
theorem Mkfs.ino_fixSize_root : m.fixSize.ino ROOTINO =
    { m.ino ROOTINO with size := ((m.ino ROOTINO).size / BSIZE + 1) * BSIZE } := by
  unfold Mkfs.fixSize Mkfs.setIno
  exact update_self ROOTINO _ m.ino

omit h in
theorem Mkfs.ino_fixSize (i : Inum) :
    (m.fixSize.ino i).type = (m.ino i).type ∧ (m.fixSize.ino i).nlink = (m.ino i).nlink ∧
      (m.fixSize.ino i).slot = (m.ino i).slot := by
  by_cases hi : i = ROOTINO
  · rw [hi, Mkfs.ino_fixSize_root]
    exact ⟨rfl, rfl, rfl⟩
  · have hother : m.fixSize.ino i = m.ino i := update_of_ne hi _ _
    rw [hother]
    exact ⟨rfl, rfl, rfl⟩

/-- The root is the only directory of the image. -/
theorem Mkfs.Inv.dir_iff (i : Nat) : (m.fixSize.ino i).type = .dir ↔ i = ROOTINO := by
  rw [(Mkfs.ino_fixSize i).1]
  constructor
  · intro hdir
    by_contra hi
    have hi1 : i ≠ 1 := hi
    by_cases hfile : 2 ≤ i ∧ i < m.freeinode
    · rw [(h.files i hfile.1 hfile.2).1] at hdir
      cases hdir
    · rw [h.free i (by omega)] at hdir
      cases hdir
  · intro hi
    rw [hi]
    exact h.root.1

theorem Mkfs.Inv.alloc_iff (i : Nat) :
    (m.fixSize.ino i).type ≠ .free ↔ i = ROOTINO ∨ (2 ≤ i ∧ i < m.freeinode) := by
  rw [(Mkfs.ino_fixSize i).1]
  constructor
  · intro hne
    by_contra hnot
    have hi1 : ¬ (i = 1 ∨ (2 ≤ i ∧ i < m.freeinode)) := hnot
    exact hne (h.free i (by omega))
  · rintro (hi | hfile)
    · rw [hi, h.root.1]
      simp
    · rw [(h.files i hfile.1 hfile.2).1]
      simp

/-- The last block of the root directory has room for more entries. -/
theorem Mkfs.Inv.size_root : DIRENT ∣ (m.fixSize.ino ROOTINO).size ∧
    DIRENT * m.freeinode ≤ (m.fixSize.ino ROOTINO).size := by
  have hsize : (m.fixSize.ino ROOTINO).size = ((m.ino ROOTINO).size / BSIZE + 1) * BSIZE := by
    rw [Mkfs.ino_fixSize_root]
  rw [hsize, h.root.2.2]
  refine ⟨Dvd.dvd.mul_left (by decide) _, ?_⟩
  have hmod := Nat.div_add_mod (DIRENT * m.freeinode) BSIZE
  have hlt : DIRENT * m.freeinode % BSIZE < BSIZE := Nat.mod_lt _ (by decide)
  rw [Nat.add_mul, Nat.mul_comm (DIRENT * m.freeinode / BSIZE) BSIZE]
  omega

theorem Mkfs.Inv.used_iff (k : Nat) :
    (m.fixSize.ino ROOTINO).Used k ↔ k < m.freeinode := by
  have h16 : DIRENT = 16 := rfl
  have hfirst := h.first
  have hle := h.size_root.2
  unfold Inode.Used
  rw [(Mkfs.ino_fixSize ROOTINO).2.2]
  constructor
  · intro hused
    by_contra hk
    exact hused.2 (h.rest k (by omega))
  · intro hk
    refine ⟨?_, ?_⟩
    · rw [h16] at hle ⊢
      omega
    · by_cases hk2 : 2 ≤ k
      · rw [(h.entries k hk2 hk).1]
        show k ≠ 0
        omega
      · have hcases : k = 0 ∨ k = 1 := by omega
        rcases hcases with rfl | rfl
        · rw [h.dots.1]
          decide
        · rw [h.dots.2]
          decide

theorem Mkfs.Inv.dirOk_root : DirOk ROOTINO (m.fixSize.ino ROOTINO) := by
  have hfirst := h.first
  refine ⟨?_, ?_, ?_, fun k hk hused => ?_⟩
  · exact le_trans (by rw [Nat.mul_comm]; exact Nat.mul_le_mul_left _ hfirst) h.size_root.2
  · rw [(Mkfs.ino_fixSize ROOTINO).2.2]
    exact h.dots.1
  · rw [(Mkfs.ino_fixSize ROOTINO).2.2, h.dots.2]
    exact ⟨rfl, by decide⟩
  · rw [(Mkfs.ino_fixSize ROOTINO).2.2]
    exact (h.entries k hk ((h.used_iff k).mp hused)).2

/-- The entries of the image: one for each file. -/
theorem Mkfs.Inv.mem_edges_iff (hroom : ROOTINO < ninodes) (cwd : P → Option Inum)
    (e : Edge Inum Nat) : e ∈ (boot m.fixSize.ino cwd).edges ninodes ↔
      e.src = ROOTINO ∧ 2 ≤ e.key ∧ e.key < m.freeinode ∧ e.dst = e.key := by
  rw [mem_edges]
  constructor
  · rintro ⟨_, hdir, hord, hdst⟩
    have hsrc := (h.dir_iff e.src).mp hdir
    have hord' : (m.fixSize.ino ROOTINO).Ordinary e.key := by rw [← hsrc]; exact hord
    have hdst' : ((m.fixSize.ino ROOTINO).slot e.key).inum = e.dst := by rw [← hsrc]; exact hdst
    obtain ⟨hk, hused⟩ := h.dirOk_root.ordinary_iff.mp hord'
    have hlt := (h.used_iff e.key).mp hused
    refine ⟨hsrc, hk, hlt, ?_⟩
    rw [← hdst', (Mkfs.ino_fixSize ROOTINO).2.2]
    exact (h.entries e.key hk hlt).1
  · rintro ⟨hsrc, hk, hlt, hdst⟩
    rw [hsrc]
    refine ⟨hroom, h.root.1, ?_, ?_⟩
    · exact h.dirOk_root.ordinary_iff.mpr ⟨hk, (h.used_iff e.key).mpr hlt⟩
    · show ((m.fixSize.ino ROOTINO).slot e.key).inum = e.dst
      rw [(Mkfs.ino_fixSize ROOTINO).2.2, hdst]
      exact (h.entries e.key hk hlt).1

/-- The link counts that `mkfs` writes. -/
theorem Mkfs.Inv.links (hroom : ROOTINO < ninodes) (cwd : P → Option Inum) {i : Nat}
    (hi : (m.fixSize.ino i).type ≠ .free) : (boot m.fixSize.ino cwd).links ninodes i = 1 := by
  have hfirst := h.first
  have hout : outDeg ((boot m.fixSize.ino cwd).edges ninodes)
      (boot m.fixSize.ino cwd).isDir i = 0 := by
    refine outDeg_eq_zero.mpr (fun e he _ hdir => ?_)
    obtain ⟨_, hk, _, hdst⟩ := (h.mem_edges_iff hroom cwd e).mp he
    have hroot := (h.dir_iff e.dst).mp (of_decide_eq_true hdir)
    rw [hdst] at hroot
    have hone : e.key = 1 := hroot
    omega
  unfold State.links
  rw [hout]
  rcases (h.alloc_iff i).mp hi with hroot | hfile
  · have hin : inDeg ((boot m.fixSize.ino cwd).edges ninodes) i = 0 := by
      refine inDeg_eq_zero.mpr (fun e he hdst => ?_)
      obtain ⟨_, hk, _, hkey⟩ := (h.mem_edges_iff hroom cwd e).mp he
      have hone : e.key = 1 := by rw [← hkey, hdst, hroot]; rfl
      omega
    rw [hin, if_pos hroot]
  · have hin : inDeg ((boot m.fixSize.ino cwd).edges ninodes) i = 1 := by
      refine Finset.card_eq_one.mpr ⟨⟨ROOTINO, i, i⟩, ?_⟩
      ext e
      rw [Finset.mem_filter, Finset.mem_singleton, h.mem_edges_iff hroom cwd]
      constructor
      · rintro ⟨⟨hsrc, _, _, hkey⟩, hdst⟩
        cases e
        cases hsrc
        cases hdst
        cases hkey
        rfl
      · rintro rfl
        exact ⟨⟨rfl, hfile.1, hfile.2, rfl⟩, rfl⟩
    have hne : i ≠ ROOTINO := by
      show i ≠ 1
      omega
    rw [hin, if_neg hne]

end image

/-- The image that `mkfs` builds is consistent. -/
theorem consistent_mkfs (files : List (Name × Nat)) (cwd : P → Option Inum)
    (hnames : ∀ f ∈ files, f.1 ≠ dot ∧ f.1 ≠ dotdot) (hroom : files.length + 2 ≤ NINODES)
    (hcwd : ∀ p i, cwd p = some i → i = ROOTINO) : Consistent NINODES (boot (mkfs files) cwd) := by
  have hlt : ROOTINO < NINODES := by decide
  obtain ⟨m, hm⟩ : ∃ m, m = files.foldl Mkfs.addFile Mkfs.start := ⟨_, rfl⟩
  obtain ⟨h, hcount⟩ := Mkfs.Inv.addFiles files hnames Mkfs.inv_start
  unfold mkfs
  rw [← hm] at h hcount ⊢
  have hfree : m.freeinode = 2 + files.length := hcount
  have hedge := h.mem_edges_iff hlt cwd
  refine { running := rfl, idle := fun _ => rfl, files := fun _ => rfl, cwd := fun p i hp => ?_,
           bound := fun i hi => ?_, dirs := fun d hd => ?_, entries := fun d k hd hk => ?_,
           tree := ?_, root := ⟨(h.dir_iff ROOTINO).mpr rfl, ?_⟩, nlink := fun i hi => ?_,
           named := fun i hi => ?_ }
  · rw [hcwd p i hp]
    exact (h.dir_iff ROOTINO).mpr rfl
  · rcases (h.alloc_iff i).mp hi with rfl | ⟨hge, hlt'⟩
    · exact ⟨by decide, hlt⟩
    · exact ⟨Nat.ne_of_gt (by omega), Nat.lt_of_lt_of_le hlt' (by omega)⟩
  · rw [(h.dir_iff d).mp hd]
    exact ⟨h.size_root.1, h.dirOk_root⟩
  · have hd' := (h.dir_iff d).mp hd
    subst hd'
    have hk' := (h.used_iff k).mp hk
    refine (h.alloc_iff ((m.fixSize.ino ROOTINO).slot k).inum).mpr ?_
    rw [(Mkfs.ino_fixSize ROOTINO).2.2]
    by_cases hk2 : 2 ≤ k
    · rw [(h.entries k hk2 hk').1]
      exact Or.inr ⟨hk2, hk'⟩
    · have hcases : k = 0 ∨ k = 1 := by omega
      rcases hcases with rfl | rfl
      · rw [h.dots.1]
        exact Or.inl rfl
      · rw [h.dots.2]
        exact Or.inl rfl
  · -- there are no links to directories
    have hfile : ∀ e ∈ (boot m.fixSize.ino cwd).edges NINODES,
        (boot m.fixSize.ino cwd).isDir e.dst ≠ true := by
      intro e he hdir
      obtain ⟨_, hk, _, hdst⟩ := (hedge e).mp he
      have hroot := (h.dir_iff e.dst).mp (of_decide_eq_true hdir)
      have hone : e.key = 1 := by rw [← hdst, hroot]; rfl
      omega
    refine ⟨fun e he hD => absurd hD (hfile e he), fun e he _ _ hD => absurd hD (hfile e he),
      ⟨fun _ => 0, fun e he hD => absurd hD (hfile e he)⟩, fun e he hdst => ?_, fun e he => ?_⟩
    · obtain ⟨_, hk, _, hkey⟩ := (hedge e).mp he
      have hone : e.key = 1 := by rw [← hkey, hdst]; rfl
      omega
    · rw [((hedge e).mp he).1]
      exact decide_eq_true ((h.dir_iff ROOTINO).mpr rfl)
  · show ((m.fixSize.ino ROOTINO).slot 1).inum = ROOTINO
    rw [(Mkfs.ino_fixSize ROOTINO).2.2, h.dots.2]
  · rw [h.links hlt cwd hi]
    show (m.fixSize.ino i).nlink = 1
    rw [(Mkfs.ino_fixSize i).2.1]
    rcases (h.alloc_iff i).mp hi with rfl | hfile
    · exact h.root.2.1
    · exact (h.files i hfile.1 hfile.2).2
  · refine ((h.alloc_iff i).mp hi).imp_right (fun hfile => ?_)
    exact ⟨⟨ROOTINO, i, i⟩, (hedge _).mpr ⟨rfl, hfile.1, hfile.2, rfl⟩, rfl⟩

end Xv6.Fs
