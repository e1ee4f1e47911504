import Xv6.Fs.Graph

/-! # Steps on the Directory Graph

    The invariant of `Xv6.Fs.Graph` is kept by every step but one: an `iput`
    that frees an inode which `..` of another directory names.
-/

open LTS LinkTree

namespace Xv6.Fs

variable {P : Type} {ninodes : Nat} {s s' : State P} {p q : P} {i d : Inum}

/-! ### Inodes -/

/-- The inodes have the same types and entries as before. -/
def SameEntries (s s' : State P) : Prop :=
  ∀ i, (s'.ino i).type = (s.ino i).type ∧ (s'.ino i).size = (s.ino i).size ∧
    (s'.ino i).slot = (s.ino i).slot

namespace SameEntries

variable (h : SameEntries s s')

include h

theorem used (d k : Nat) : (s'.ino d).Used k ↔ (s.ino d).Used k := by
  unfold Inode.Used
  rw [(h d).2.1, (h d).2.2]

theorem links (d : Inum) (e : Edge Inum Nat) : (s'.ino d).Links e ↔ (s.ino d).Links e := by
  unfold Inode.Links Inode.Ordinary
  rw [h.used, (h d).1, (h d).2.2]

theorem edges : s'.edges ninodes = s.edges ninodes := by
  ext e
  rw [mem_edges, mem_edges, h.links]

theorem isDir : s'.isDir = s.isDir := by
  funext i
  unfold State.isDir
  rw [(h i).1]

theorem up : s'.up = s.up := by
  funext i
  unfold State.up
  rw [(h i).2.2]

theorem named (i : Inum) : s'.Named i ↔ s.Named i := by
  unfold State.Named
  refine exists_congr (fun d => exists_congr (fun k => ?_))
  rw [(h d).1, h.used, (h d).2.2]

theorem linkCount (i : Inum) : s'.links ninodes i = s.links ninodes i := by
  unfold State.links
  rw [h.edges, h.isDir]

theorem dirOk {d : Inum} (hd : DirOk d (s.ino d)) : DirOk d (s'.ino d) := by
  refine ⟨by rw [(h d).2.1]; exact hd.size, by rw [(h d).2.2]; exact hd.self,
    by rw [(h d).2.2]; exact hd.above, fun k hk hused => ?_⟩
  rw [(h d).2.2]
  exact hd.rest k hk ((h.used d k).mp hused)

theorem graphInv (hg : GraphInv ninodes s) : GraphInv ninodes s' := by
  refine ⟨fun i hi => ?_, fun d hd => ?_, fun d hd => ?_, fun d k hd hk => ?_, ?_, ?_⟩
  · rw [(h i).1] at hi
    exact hg.bound i hi
  · rw [(h d).1] at hd
    rw [(h d).2.1]
    exact hg.whole d hd
  · rw [(h d).1] at hd
    rw [(h d).2.1]
    exact (hg.dirs d hd).imp_right h.dirOk
  · rw [(h d).1] at hd
    rw [h.used] at hk
    rw [(h d).2.2, (h _).1]
    exact hg.entries d k hd hk
  · rw [h.edges, h.isDir, h.up]
    exact hg.tree
  · rw [(h _).1, h.up]
    exact hg.root

end SameEntries

theorem sameEntries_of_eq (h : s'.ino = s.ino) : SameEntries s s' := by
  intro i
  rw [h]
  exact ⟨rfl, rfl, rfl⟩

/-- A change of a link count. -/
theorem sameEntries_setNlink {n : Int} {t : State P}
    (h : t.ino = (s.setIno i { s.ino i with nlink := n }).ino) : SameEntries s t := by
  intro j
  rw [h]
  by_cases hj : j = i
  · rw [hj, ino_setIno_self]
    exact ⟨rfl, rfl, rfl⟩
  · rw [ino_setIno_of_ne hj]
    exact ⟨rfl, rfl, rfl⟩

/-! ### Directories -/

section dirs

variable {x : Inode} {k : Nat}

section

variable (h : DirOk d x)

include h

theorem DirOk.used_zero (hd : d ≠ 0) : x.Used 0 := by
  have hsize := h.size
  rw [show DIRENT = 16 from rfl] at hsize
  refine ⟨?_, ?_⟩
  · rw [show DIRENT = 16 from rfl]
    omega
  · rw [h.self]
    exact hd

theorem DirOk.used_one : x.Used 1 := by
  have hsize := h.size
  refine ⟨?_, h.above.2⟩
  rw [show DIRENT = 16 from rfl] at hsize ⊢
  omega

/-- An entry other than the first two is an ordinary one. -/
theorem DirOk.ordinary_iff : x.Ordinary k ↔ 2 ≤ k ∧ x.Used k := by
  constructor
  · rintro ⟨hused, hdot, hdotdot⟩
    refine ⟨?_, hused⟩
    by_contra hlt
    have hk : k = 0 ∨ k = 1 := by omega
    rcases hk with rfl | rfl
    · rw [h.self] at hdot
      exact hdot rfl
    · exact hdotdot h.above.1
  · rintro ⟨hk, hused⟩
    exact ⟨hused, h.rest k hk hused⟩

/-- A new entry has a name of its own, and goes after `.` and `..`. -/
theorem DirOk.two_le (hd : d ≠ 0) (hk : ¬ x.Used k) : 2 ≤ k := by
  by_contra hlt
  have hcases : k = 0 ∨ k = 1 := by omega
  rcases hcases with rfl | rfl
  · exact hk (h.used_zero hd)
  · exact hk h.used_one

/-- An ordinary entry, or none, is written after `.` and `..`. -/
theorem DirOk.write (hsize : DIRENT ∣ x.size) (hk : 2 ≤ k) (hle : DIRENT * k ≤ x.size) (de : Dirent)
    (hname : de.inum ≠ 0 → de.name ≠ dot ∧ de.name ≠ dotdot) : DirOk d (x.write k de) := by
  refine ⟨?_, ?_, ?_, fun j hj hused => ?_⟩
  · exact le_trans h.size (le_max_left _ _)
  · rw [write_slot_of_ne x k de (by omega)]
    exact h.self
  · rw [write_slot_of_ne x k de (by omega)]
    exact h.above
  · rw [used_write x k de hsize hle] at hused
    by_cases hjk : j = k
    · rw [if_pos hjk] at hused
      rw [hjk, write_slot_self]
      exact hname hused
    · rw [if_neg hjk] at hused
      rw [write_slot_of_ne x k de hjk]
      exact h.rest j hj hused

/-- A directory that has `.` and `..` has no other entry of these names. -/
theorem DirOk.name_ne (hd : d ≠ 0) (hdir : x.type = .dir) (hsize : DIRENT ∣ x.size) {name : Name}
    (hnone : dirlookup x name = .ok none) : name ≠ dot ∧ name ≠ dotdot := by
  rcases dirlookup_spec hdir hsize name with ⟨_, hall⟩ | ⟨k, hsome, _⟩
  · refine ⟨fun heq => ?_, fun heq => ?_⟩
    · refine hall 0 (h.used_zero hd) ?_
      rw [h.self, heq]
    · refine hall 1 h.used_one ?_
      rw [h.above.1, heq]
  · rw [hnone] at hsome
    cases hsome

end

/-- `dots` makes a directory of an empty inode. -/
theorem dots_spec (ip dp : Inum) (hdir : x.type = .dir) (hsize : x.size = 0) (hip : ip ≠ 0) :
    ∃ x', State.dots x ip dp = .ok x' ∧ x'.type = .dir ∧ x'.nlink = x.nlink ∧
      x'.size = 2 * DIRENT ∧ x'.slot 0 = ⟨ip, dot⟩ ∧ x'.slot 1 = ⟨dp, dotdot⟩ := by
  have h16 : DIRENT = 16 := rfl
  have hsize₁ : (x.write 0 ⟨ip, dot⟩).size = DIRENT * 1 := by
    show max x.size (DIRENT * 0 + DIRENT) = DIRENT * 1
    rw [hsize, h16]
    rfl
  have hfirst : dirlink x dot ip = .ok (.inr (x.write 0 ⟨ip, dot⟩)) :=
    dirlink_append hdir hsize (fun j hj => absurd hj (Nat.not_lt_zero j))
      (fun j hj => absurd hj (Nat.not_lt_zero j)) (by decide) ip
  have hsecond : dirlink (x.write 0 ⟨ip, dot⟩) dotdot dp =
      .ok (.inr ((x.write 0 ⟨ip, dot⟩).write 1 ⟨dp, dotdot⟩)) := by
    have hdir₁ : (x.write 0 ⟨ip, dot⟩).type = .dir := hdir
    refine dirlink_append hdir₁ hsize₁ (fun j hj => ?_) (fun j hj => ?_) (by decide) dp
    · have hj0 : j = 0 := by omega
      rw [hj0]
      refine ⟨?_, ?_⟩
      · rw [hsize₁]
        decide
      · rw [write_slot_self]
        exact hip
    · have hj0 : j = 0 := by omega
      rw [hj0, write_slot_self]
      show dot ≠ dotdot
      decide
  refine ⟨(x.write 0 ⟨ip, dot⟩).write 1 ⟨dp, dotdot⟩, ?_, hdir, rfl, ?_, ?_, write_slot_self _ _ _⟩
  · unfold State.dots
    rw [hfirst]
    simp only [hsecond]
  · show max (x.write 0 ⟨ip, dot⟩).size (DIRENT * 1 + DIRENT) = 2 * DIRENT
    rw [hsize₁, h16]
    rfl
  · rw [write_slot_of_ne _ _ _ (by decide), write_slot_self]

end dirs

/-! ### Changes of the graph -/

section graph

variable {x : Inode} {ty : IType} {e : Edge Inum Nat} {j : Inum}

theorem not_used_blank (ty : IType) (k : Nat) : ¬ (State.blank ty).Used k :=
  fun h => Nat.not_lt_zero _ h.1

/-- No entry names a free inode. -/
theorem GraphInv.not_named (h : GraphInv ninodes s) (hi : (s.ino i).type = .free) : ¬ s.Named i := by
  rintro ⟨d, k, hd, hk, heq⟩
  refine h.entries d k hd hk ?_
  rw [heq]
  exact hi

theorem named_of_edge (he : e ∈ s.edges ninodes) : s.Named e.dst := by
  obtain ⟨_, hdir, hord, hdst⟩ := mem_edges.mp he
  exact ⟨e.src, e.key, hdir, hord.1, hdst⟩

theorem isDir_of_edge (he : e ∈ s.edges ninodes) : (s.ino e.src).type = .dir :=
  (mem_edges.mp he).2.1

theorem isDir_eq_true : s.isDir i = true ↔ (s.ino i).type = .dir :=
  decide_eq_true_iff

section set

variable (hino : s'.ino = (s.setIno i x).ino)

include hino

theorem ino_set_self : s'.ino i = x := by
  rw [hino, ino_setIno_self]

theorem ino_set_of_ne (hj : j ≠ i) : s'.ino j = s.ino j := by
  rw [hino, ino_setIno_of_ne hj]

theorem type_set (hx : x.type = (s.ino i).type) (j : Inum) :
    (s'.ino j).type = (s.ino j).type := by
  by_cases hj : j = i
  · rw [hj, ino_set_self hino, hx]
  · rw [ino_set_of_ne hino hj]

theorem isDir_set (hx : x.type = (s.ino i).type) : s'.isDir = s.isDir := by
  funext j
  unfold State.isDir
  rw [type_set hino hx]

theorem isDir_set_of_ne (hj : j ≠ i) : s'.isDir j = s.isDir j := by
  unfold State.isDir
  rw [ino_set_of_ne hino hj]

theorem up_set_of_ne (hj : j ≠ i) : s'.up j = s.up j := by
  unfold State.up
  rw [ino_set_of_ne hino hj]

/-- The directories are a tree still, where no entry is new and none names the
    inode that changed. -/
theorem GraphInv.tree_set (h : GraphInv ninodes s) (hsub : s'.edges ninodes ⊆ s.edges ninodes)
    (hdst : ∀ e ∈ s.edges ninodes, e.dst ≠ i) :
    TreeInv (s'.edges ninodes) s'.isDir s'.up ROOTINO := by
  refine h.tree.mono hsub (fun e he hD => ?_) (fun e he => isDir_eq_true.mpr (isDir_of_edge he))
  have hne := hdst e (hsub he)
  rw [isDir_set_of_ne hino hne] at hD
  exact ⟨hD, up_set_of_ne hino hne⟩

/-- The invariant, after the change of one inode. -/
theorem GraphInv.setIno (h : GraphInv ninodes s) (hbound : x.type ≠ .free → i ≠ 0 ∧ i < ninodes)
    (hdirs : x.type = .dir → DIRENT ∣ x.size ∧ (x.size = 0 ∨ DirOk i x))
    (hlive : ∀ d k, d ≠ i → (s.ino d).type = .dir → (s.ino d).Used k →
      ((s.ino d).slot k).inum = i → x.type ≠ .free)
    (hentries : ∀ k, x.type = .dir → x.Used k → (s'.ino (x.slot k).inum).type ≠ .free)
    (htree : TreeInv (s'.edges ninodes) s'.isDir s'.up ROOTINO)
    (hroot : i = ROOTINO → x.type = .dir ∧ (x.slot 1).inum = ROOTINO) : GraphInv ninodes s' := by
  have hself := ino_set_self hino
  refine ⟨fun j hj => ?_, fun d hd => ?_, fun d hd => ?_, fun d k hd hk => ?_, htree, ?_⟩
  · by_cases hji : j = i
    · rw [hji, hself] at hj
      rw [hji]
      exact hbound hj
    · rw [ino_set_of_ne hino hji] at hj
      exact h.bound j hj
  · by_cases hdi : d = i
    · rw [hdi, hself] at hd ⊢
      exact (hdirs hd).1
    · rw [ino_set_of_ne hino hdi] at hd ⊢
      exact h.whole d hd
  · by_cases hdi : d = i
    · rw [hdi, hself] at hd ⊢
      exact (hdirs hd).2
    · rw [ino_set_of_ne hino hdi] at hd ⊢
      exact h.dirs d hd
  · by_cases hdi : d = i
    · rw [hdi, hself] at hd hk ⊢
      exact hentries k hd hk
    · rw [ino_set_of_ne hino hdi] at hd hk ⊢
      by_cases hti : ((s.ino d).slot k).inum = i
      · rw [hti, hself]
        exact hlive d k hdi hd hk hti
      · rw [ino_set_of_ne hino hti]
        exact h.entries d k hd hk
  · by_cases hr : ROOTINO = i
    · unfold State.up
      rw [hr, hself, ← hr]
      exact hroot hr.symm
    · rw [ino_set_of_ne hino hr, up_set_of_ne hino hr]
      exact h.root

end set

/-- `ialloc`. -/
theorem GraphInv.ialloc (h : GraphInv ninodes s) (hfree : (s.ino i).type = .free)
    (hi : i ≠ 0 ∧ i < ninodes) (hino : s'.ino = (s.setIno i (State.blank ty)).ino) :
    GraphInv ninodes s' ∧ s'.edges ninodes = s.edges ninodes ∧
      ∀ e ∈ s.edges ninodes, s'.isDir e.dst = s.isDir e.dst := by
  have hnot := h.not_named hfree
  have hfile : (s.ino i).type ≠ .dir := by
    rw [hfree]
    simp
  have hedges : s'.edges ninodes = s.edges ninodes := by
    ext e
    rw [mem_edges, mem_edges]
    by_cases hsrc : e.src = i
    · rw [hsrc, ino_set_self hino]
      refine and_congr_right (fun _ => iff_of_false (fun hl => ?_) (fun hl => hfile hl.1))
      exact not_used_blank ty e.key hl.2.1.1
    · rw [ino_set_of_ne hino hsrc]
  have hdst : ∀ e ∈ s.edges ninodes, e.dst ≠ i := by
    intro e he heq
    refine hnot ?_
    rw [← heq]
    exact named_of_edge he
  refine ⟨h.setIno hino (fun _ => hi) (fun _ => ⟨Nat.dvd_zero _, Or.inl rfl⟩)
    (fun d k _ hd hk heq => absurd ⟨d, k, hd, hk, heq⟩ hnot)
    (fun k _ hk => absurd hk (not_used_blank ty k)) (h.tree_set hino hedges.subset hdst)
    (fun heq => ?_), hedges, fun e he => isDir_set_of_ne hino (hdst e he)⟩
  rw [heq] at hfile
  exact absurd h.root.1 hfile

/-- `create` sets up a new directory. -/
theorem GraphInv.setup (h : GraphInv ninodes s) {dp : Inum} (hblank : s.ino i = State.blank .dir)
    (hnot : ¬ s.Named i) (hroot : i ≠ ROOTINO) (hdp : (s.ino dp).type ≠ .free)
    (hx : x.type = .dir ∧ x.size = 2 * DIRENT ∧ x.slot 0 = ⟨i, dot⟩ ∧
      x.slot 1 = ⟨dp, dotdot⟩) (hino : s'.ino = (s.setIno i x).ino) :
    GraphInv ninodes s' ∧ s'.edges ninodes = s.edges ninodes ∧ s'.isDir = s.isDir := by
  obtain ⟨htype, hsize, hslot0, hslot1⟩ := hx
  have htype' : x.type = (s.ino i).type := by
    rw [htype, hblank]
    rfl
  have hlive : (s.ino i).type ≠ .free := by
    rw [hblank]
    simp [State.blank]
  have hused : ∀ k, x.Used k → k = 0 ∨ k = 1 := by
    intro k hk
    have hlt := hk.1
    rw [hsize, show DIRENT = 16 from rfl] at hlt
    omega
  have hok : DirOk i x := by
    refine ⟨le_of_eq hsize.symm, hslot0, ?_, fun k hk hku => ?_⟩
    · rw [hslot1]
      exact ⟨rfl, (h.bound dp hdp).1⟩
    · have := hused k hku
      omega
  have hedges : s'.edges ninodes = s.edges ninodes := by
    ext e
    rw [mem_edges, mem_edges]
    by_cases hsrc : e.src = i
    · rw [hsrc, ino_set_self hino, hblank]
      refine and_congr_right (fun _ => iff_of_false (fun hl => ?_) (fun hl => ?_))
      · have hk := hok.ordinary_iff.mp hl.2.1
        have := hused _ hk.2
        omega
      · exact not_used_blank _ _ hl.2.1.1
    · rw [ino_set_of_ne hino hsrc]
  refine ⟨h.setIno hino (fun _ => h.bound i hlive) (fun _ => ⟨?_, Or.inr hok⟩)
    (fun _ _ _ _ _ _ => by rw [htype]; simp) (fun k _ hk => ?_)
    (h.tree_set hino hedges.subset (fun e he heq => hnot ?_)) (fun heq => absurd heq hroot),
    hedges, isDir_set hino htype'⟩
  · rw [hsize]
    exact Nat.dvd_mul_left _ _
  · rw [type_set hino htype']
    rcases hused k hk with rfl | rfl
    · rw [hslot0]
      exact hlive
    · rw [hslot1]
      exact hdp
  · rw [← heq]
    exact named_of_edge he

section write

variable {k : Nat} {de : Dirent} {n : Int} (h : GraphInv ninodes s)
  (hdir : (s.ino d).type = .dir) (hok : DirOk d (s.ino d)) (hle : DIRENT * k ≤ (s.ino d).size)
  (hino : s'.ino = (s.setIno d { (s.ino d).write k de with nlink := n }).ino)

include h hdir hle hino

/-- The entries, after a directory has got one or lost one. -/
theorem GraphInv.mem_edges_write : e ∈ s'.edges ninodes ↔
    if e.src = d ∧ e.key = k then
      (de.inum ≠ 0 ∧ de.name ≠ dot ∧ de.name ≠ dotdot) ∧ de.inum = e.dst
    else e ∈ s.edges ninodes := by
  have hd := (h.bound d (by rw [hdir]; simp)).2
  have hwhole := h.whole d hdir
  rw [mem_edges, mem_edges]
  by_cases hsrc : e.src = d
  · have hused := used_write (s.ino d) k de hwhole hle e.key
    have hslot : ∀ j, (s'.ino d).slot j = ((s.ino d).write k de).slot j := by
      intro j
      rw [ino_set_self hino]
    have hused' : (s'.ino d).Used e.key ↔ ((s.ino d).write k de).Used e.key := by
      rw [ino_set_self hino]
      rfl
    have htype : (s'.ino d).type = .dir := by
      rw [ino_set_self hino]
      exact hdir
    unfold Inode.Links Inode.Ordinary
    rw [hsrc, hslot, hused', hused]
    by_cases hek : e.key = k
    · rw [if_pos hek, if_pos ⟨rfl, hek⟩, hek, write_slot_self]
      exact ⟨fun hl => hl.2.2, fun hl => ⟨hd, htype, hl⟩⟩
    · rw [if_neg hek, if_neg (fun hboth => hek hboth.2), write_slot_of_ne _ _ _ hek, htype, hdir]
  · rw [if_neg (fun hboth => hsrc hboth.1), ino_set_of_ne hino hsrc]

include hok

/-- A directory gets an entry or loses one. -/
theorem GraphInv.writeEntry (hk : 2 ≤ k) (hname : de.inum ≠ 0 → de.name ≠ dot ∧ de.name ≠ dotdot)
    (hde : de.inum ≠ 0 → (s.ino de.inum).type ≠ .free)
    (htree : TreeInv (s'.edges ninodes) s.isDir s.up ROOTINO) :
    GraphInv ninodes s' ∧ s'.isDir = s.isDir := by
  have hwhole := h.whole d hdir
  have hd := h.bound d (by rw [hdir]; simp)
  have hw := hok.write hwhole hk hle de hname
  have hslot1 : ((s.ino d).write k de).slot 1 = (s.ino d).slot 1 :=
    write_slot_of_ne _ _ _ (by omega)
  have hup : s'.up = s.up := by
    funext j
    by_cases hj : j = d
    · unfold State.up
      rw [hj, ino_set_self hino]
      exact congrArg Dirent.inum hslot1
    · exact up_set_of_ne hino hj
  have hisDir := isDir_set hino (show (s.ino d).type = (s.ino d).type from rfl)
  refine ⟨h.setIno hino (fun _ => hd)
    (fun _ => ⟨write_size_dvd (s.ino d) k de hwhole, Or.inr ⟨hw.size, hw.self, hw.above, hw.rest⟩⟩)
    (fun _ _ _ _ _ _ hfree => ?_) (fun j _ hj => ?_) ?_ (fun heq => ⟨hdir, ?_⟩), hisDir⟩
  · have hfree' : (s.ino d).type = .free := hfree
    rw [hdir] at hfree'
    cases hfree'
  · rw [type_set hino (show (s.ino d).type = (s.ino d).type from rfl)]
    have hused := (used_write (s.ino d) k de hwhole hle j).mp hj
    show (s.ino (((s.ino d).write k de).slot j).inum).type ≠ .free
    by_cases hjk : j = k
    · rw [if_pos hjk] at hused
      rw [hjk, write_slot_self]
      exact hde hused
    · rw [if_neg hjk] at hused
      rw [write_slot_of_ne _ _ _ hjk]
      exact h.entries d j hdir hused
  · rw [hisDir, hup]
    exact htree
  · have hroot : s.up d = ROOTINO := by
      rw [heq]
      exact h.root.2
    exact (congrArg Dirent.inum hslot1).trans hroot

end write

/-- A directory gets an entry. -/
theorem GraphInv.addEntry (h : GraphInv ninodes s) {k : Nat} {name : Name} {n : Int}
    (hdir : (s.ino d).type = .dir) (hok : DirOk d (s.ino d))
    (hfree : ¬ (s.ino d).Used k) (hle : DIRENT * k ≤ (s.ino d).size)
    (hdot : name ≠ dot) (hdotdot : name ≠ dotdot) (hi : (s.ino i).type ≠ .free)
    (htree : TreeInv (insert ⟨d, k, i⟩ (s.edges ninodes)) s.isDir s.up ROOTINO)
    (hino : s'.ino = (s.setIno d { (s.ino d).write k ⟨i, name⟩ with nlink := n }).ino) :
    GraphInv ninodes s' ∧ s'.edges ninodes = insert ⟨d, k, i⟩ (s.edges ninodes) ∧
      s'.isDir = s.isDir := by
  have hedges : s'.edges ninodes = insert ⟨d, k, i⟩ (s.edges ninodes) := by
    ext e
    rw [h.mem_edges_write hdir hle hino, Finset.mem_insert]
    by_cases hboth : e.src = d ∧ e.key = k
    · rw [if_pos hboth]
      constructor
      · rintro ⟨_, hdst⟩
        refine Or.inl ?_
        cases e
        cases hboth.1
        cases hboth.2
        cases hdst
        rfl
      · rintro (rfl | hold)
        · exact ⟨⟨(h.bound i hi).1, hdot, hdotdot⟩, rfl⟩
        · have hused := (mem_edges.mp hold).2.2.1.1
          rw [hboth.1, hboth.2] at hused
          exact absurd hused hfree
    · rw [if_neg hboth]
      constructor
      · exact Or.inr
      · rintro (rfl | hold)
        · exact absurd ⟨rfl, rfl⟩ hboth
        · exact hold
  have hk := hok.two_le (h.bound d (by rw [hdir]; simp)).1 hfree
  obtain ⟨hg, hisDir⟩ := h.writeEntry hdir hok hle hino hk (fun _ => ⟨hdot, hdotdot⟩)
    (fun _ => hi) (by rw [hedges]; exact htree)
  exact ⟨hg, hedges, hisDir⟩

/-- A directory loses an entry. -/
theorem GraphInv.removeEntry (h : GraphInv ninodes s) {k : Nat} {n : Int}
    (hdir : (s.ino d).type = .dir) (hok : DirOk d (s.ino d)) (hord : (s.ino d).Ordinary k)
    (hino : s'.ino = (s.setIno d { (s.ino d).write k ⟨0, []⟩ with nlink := n }).ino) :
    GraphInv ninodes s' ∧
      s'.edges ninodes = (s.edges ninodes).erase ⟨d, k, ((s.ino d).slot k).inum⟩ ∧
      s'.isDir = s.isDir := by
  have hle : DIRENT * k ≤ (s.ino d).size := le_of_lt hord.1.1
  have hedges : s'.edges ninodes =
      (s.edges ninodes).erase ⟨d, k, ((s.ino d).slot k).inum⟩ := by
    ext e
    rw [h.mem_edges_write hdir hle hino, Finset.mem_erase]
    by_cases hboth : e.src = d ∧ e.key = k
    · rw [if_pos hboth]
      refine iff_of_false (fun hnew => hnew.1.1 rfl) (fun hold => hold.1 ?_)
      have hdst := (mem_edges.mp hold.2).2.2.2
      rw [hboth.1, hboth.2] at hdst
      cases e
      cases hboth.1
      cases hboth.2
      rw [hdst]
    · rw [if_neg hboth]
      refine ⟨fun hold => ⟨fun heq => hboth ?_, hold⟩, And.right⟩
      rw [heq]
      exact ⟨rfl, rfl⟩
  obtain ⟨hg, hisDir⟩ := h.writeEntry hdir hok hle hino (hok.ordinary_iff.mp hord).1
    (fun hne => absurd rfl hne) (fun hne => absurd rfl hne) (by
      rw [hedges]
      exact h.tree.mono (Finset.erase_subset _ _) (fun _ _ hD => ⟨hD, rfl⟩)
        (fun e he => h.tree.inner e (Finset.mem_of_mem_erase he)))
  exact ⟨hg, hedges, hisDir⟩

/-- `iput` frees an inode that no other directory names. -/
theorem GraphInv.freeInode (h : GraphInv ninodes s) (hroot : i ≠ ROOTINO)
    (hun : ∀ d k, d ≠ i → (s.ino d).type = .dir → (s.ino d).Used k →
      ((s.ino d).slot k).inum ≠ i)
    (hin : ∀ e ∈ s.edges ninodes, e.dst ≠ i)
    (hino : s'.ino = (s.setIno i (State.blank .free)).ino) :
    GraphInv ninodes s' ∧ s'.edges ninodes = (s.edges ninodes).filter (fun e => e.src ≠ i) ∧
      ∀ e ∈ s.edges ninodes, s'.isDir e.dst = s.isDir e.dst := by
  have hedges : s'.edges ninodes = (s.edges ninodes).filter (fun e => e.src ≠ i) := by
    ext e
    rw [Finset.mem_filter, mem_edges, mem_edges]
    by_cases hsrc : e.src = i
    · rw [hsrc, ino_set_self hino]
      exact iff_of_false (fun hl => not_used_blank _ _ hl.2.2.1.1) (fun hl => hl.2 rfl)
    · rw [ino_set_of_ne hino hsrc]
      simp [hsrc]
  have hsub : s'.edges ninodes ⊆ s.edges ninodes := by
    rw [hedges]
    exact Finset.filter_subset _ _
  refine ⟨h.setIno hino (fun hne => absurd rfl hne) (fun hd => by cases hd)
    (fun d k hd hdir hk heq => absurd heq (hun d k hd hdir hk)) (fun _ hd _ => by cases hd)
    (h.tree_set hino hsub hin) (fun heq => absurd heq hroot), hedges,
    fun e he => isDir_set_of_ne hino (hin e he)⟩

end graph

end Xv6.Fs
