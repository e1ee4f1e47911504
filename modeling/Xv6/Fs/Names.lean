import Xv6.Framework.System
import Xv6.Fs.Dir

/-! # Names in a Directory

    A directory entry has room for a name of `DIRSIZ` bytes, padded with zeros
    by `strncpy` and without a zero behind it when the name is as long as
    that; names are compared by `strncmp`. Here the entries hold these bytes. What
    counts of a name is `cut name DIRSIZ`, its bytes up to the first zero and
    at most `DIRSIZ` of them, and a directory is a finite map from there.

    - `decoded`: the directory of `Xv6.Fs.Dir` that the bytes stand for
    - `dirlookup_decoded`, `dirlink_decoded`: the functions on bytes do there what
      `dirlookup` and `dirlink` do
    - `directory_finite_map`: lookups after any calls of `dirlink` and any removals
-/

namespace Xv6.Fs

open LTS

/-! ### Strings (`string.c`) -/

/-- The bytes from a `char*` on. -/
abbrev Chars : Type := Nat → Byte

def Chars.next (p : Chars) : Chars := fun i => p (i + 1)

/-- The bytes of an array. -/
def Chars.ofList (l : List Byte) : Chars := fun i => l.getD i 0

def strncmp (p q : Chars) : Nat → Int
  | 0 => 0
  | n + 1 =>
    if p 0 ≠ 0 ∧ p 0 = q 0 then strncmp p.next q.next n
    else ((p 0).toNat : Int) - ((q 0).toNat : Int)

/-- The `n` bytes that `strncpy(s, t, n)` stores. -/
def strncpy (t : Chars) : Nat → List Byte
  | 0 => []
  | n + 1 => if t 0 = 0 then 0 :: List.replicate n 0 else t 0 :: strncpy t.next n

/-- The string at `p`, of which at most `n` bytes count. -/
def cut (p : Chars) : Nat → Name
  | 0 => []
  | n + 1 => if p 0 = 0 then [] else p 0 :: cut p.next n

theorem strncmp_eq_zero_iff (n : Nat) : ∀ p q : Chars, strncmp p q n = 0 ↔ cut p n = cut q n := by
  induction n with
  | zero =>
    intro p q
    exact iff_of_true rfl rfl
  | succ n ih =>
    intro p q
    unfold strncmp cut
    by_cases hp : p 0 = 0
    · rw [if_neg (by simp [hp]), if_pos hp, hp]
      by_cases hq : q 0 = 0
      · simp [hq]
      · have hne : (q 0).toNat ≠ 0 := fun h => hq (BitVec.eq_of_toNat_eq h)
        rw [if_neg hq]
        exact iff_of_false (by simpa using hne) (by simp)
    · by_cases heq : p 0 = q 0
      · have hq : q 0 ≠ 0 := heq ▸ hp
        rw [if_pos ⟨hp, heq⟩, if_neg hp, if_neg hq, ih, heq]
        simp
      · have hne : (p 0).toNat ≠ (q 0).toNat := fun h => heq (BitVec.eq_of_toNat_eq h)
        rw [if_neg (fun h => heq h.2), if_neg hp]
        refine iff_of_false (by omega) ?_
        split
        · simp
        · exact fun h => heq (List.cons.inj h).1

theorem cut_ofList_strncpy (n : Nat) : ∀ t : Chars, cut (Chars.ofList (strncpy t n)) n = cut t n := by
  induction n with
  | zero =>
    intro t
    rfl
  | succ n ih =>
    intro t
    unfold strncpy cut
    by_cases ht : t 0 = 0
    · rw [if_pos ht, if_pos ht]
      exact if_pos rfl
    · rw [if_neg ht, if_neg ht, if_neg (by exact ht)]
      exact congrArg (t 0 :: ·) (ih t.next)

/-! ### Directories of bytes (`fs.c`) -/

namespace Raw

def namecmp (s t : Chars) : Int := strncmp s t DIRSIZ

def dirlookup (dp : Inode) (name : Chars) : Except FsPanic (Option Nat) :=
  if dp.type ≠ .dir then .error .dirlookupNotDir
  else scan .dirlookupRead dp
    (fun de => decide (de.inum ≠ 0 ∧ namecmp name (.ofList de.name) = 0)) (dp.size + 1) 0

/-- `dirlink`, with its result and the directory as it leaves it; `de.inum` is a
    `ushort`. -/
def dirlink (dp : Inode) (name : Chars) (inum : Nat) : Except FsPanic (Int × Inode) := do
  match ← dirlookup dp name with
  | some _ => return (-1, dp)
  | none =>
    let k := (← emptySlot dp).getD (dp.size / DIRENT)
    if MAXFILE * BSIZE < DIRENT * k + DIRENT then .error .dirlink
    else return (0, dp.write k ⟨inum % 65536, strncpy name DIRSIZ⟩)

/-- The entry that `sys_unlink` writes over the one it removes: `memset(&de, 0, sizeof(de))`. -/
def noEntry : Dirent := ⟨0, List.replicate DIRSIZ 0⟩

/-- The inode number that `dirlookup` finds. -/
def lookup (dp : Inode) (name : Chars) : Option Inum :=
  match dirlookup dp name with
  | .ok (some k) => some (dp.slot k).inum
  | _ => none

end Raw

/-- The entry with the string its bytes stand for. -/
def Dirent.decoded (de : Dirent) : Dirent := ⟨de.inum, cut (.ofList de.name) DIRSIZ⟩

def Inode.decoded (dp : Inode) : Inode := { dp with slot := fun k => (dp.slot k).decoded }

theorem scan_decoded (e : FsPanic) (dp : Inode) (hit : Dirent → Bool) : ∀ n off,
    scan e dp.decoded hit n off = scan e dp (fun de => hit de.decoded) n off := by
  intro n
  induction n with
  | zero =>
    intro off
    rfl
  | succ n ih =>
    intro off
    unfold scan
    rw [ih]
    rfl

theorem write_decoded (dp : Inode) (k : Nat) (de : Dirent) :
    (dp.write k de).decoded = dp.decoded.write k de.decoded := by
  have hslot : (fun j => (Function.update dp.slot k de j).decoded) =
      Function.update (fun j => (dp.slot j).decoded) k de.decoded := by
    funext j
    by_cases hj : j = k
    · rw [hj, Function.update_self, Function.update_self]
    · rw [Function.update_of_ne hj, Function.update_of_ne hj]
  exact congrArg (fun f => { dp.decoded with
    slot := f, size := max dp.size (DIRENT * k + DIRENT) }) hslot

theorem Raw.dirlookup_decoded (dp : Inode) (name : Chars) :
    Raw.dirlookup dp name = Fs.dirlookup dp.decoded (cut name DIRSIZ) := by
  have hhit : (fun de : Dirent => decide (de.inum ≠ 0 ∧ namecmp name (.ofList de.name) = 0)) =
      fun de => decide (de.decoded.inum ≠ 0 ∧ de.decoded.name = cut name DIRSIZ) := by
    funext de
    refine decide_eq_decide.mpr (and_congr_right fun _ => ?_)
    exact (strncmp_eq_zero_iff DIRSIZ name (.ofList de.name)).trans eq_comm
  unfold Raw.dirlookup Fs.dirlookup
  rw [scan_decoded, hhit]
  rfl

/-! ### Finite maps -/

/-- No two entries in use have the same name. -/
structure FiniteMap (dp : Inode) : Prop where
  dir : dp.type = .dir
  dvd : DIRENT ∣ dp.size
  distinct : ∀ j k, dp.Used j → dp.Used k → (dp.slot j).name = (dp.slot k).name → j = k

/-- The inode number that `dirlookup` finds. -/
def lookup (dp : Inode) (name : Name) : Option Inum :=
  match dirlookup dp name with
  | .ok (some k) => some (dp.slot k).inum
  | _ => none

namespace FiniteMap

variable {dp : Inode} {k : Nat} {d : Dirent} {name : Name}

variable (h : FiniteMap dp)

include h

theorem dirlookup_eq (hk : dp.Used k) (hname : (dp.slot k).name = name) :
    dirlookup dp name = .ok (some k) := by
  rcases dirlookup_spec h.dir h.dvd name with ⟨_, hall⟩ | ⟨j, hj, hused, hjn⟩
  · exact absurd hname (hall k hk)
  · rw [hj, h.distinct j k hused hk (hjn.trans hname.symm)]

theorem lookup_eq_some {v : Inum} :
    lookup dp name = some v ↔ ∃ k, dp.Used k ∧ (dp.slot k).name = name ∧ (dp.slot k).inum = v := by
  constructor
  · intro hv
    rcases dirlookup_spec h.dir h.dvd name with ⟨hnone, _⟩ | ⟨k, hk, hused, hkn⟩
    · rw [lookup, hnone] at hv
      cases hv
    · rw [lookup, hk] at hv
      exact ⟨k, hused, hkn, Option.some.inj hv⟩
  · rintro ⟨k, hused, hkn, rfl⟩
    rw [lookup, h.dirlookup_eq hused hkn]

/-- An entry is written whose name no other entry has. -/
theorem write (hk : DIRENT * k ≤ dp.size)
    (hnew : d.inum ≠ 0 → ∀ j, dp.Used j → j ≠ k → (dp.slot j).name ≠ d.name) :
    FiniteMap (dp.write k d) where
  dir := h.dir
  dvd := write_size_dvd dp k d h.dvd
  distinct := by
    intro i j hi hj hname
    rw [used_write dp k d h.dvd hk] at hi hj
    by_cases hik : i = k <;> by_cases hjk : j = k
    · rw [hik, hjk]
    · rw [if_pos hik] at hi
      rw [if_neg hjk] at hj
      rw [hik, write_slot_self, write_slot_of_ne dp k d hjk] at hname
      exact absurd hname.symm (hnew hi j hj hjk)
    · rw [if_neg hik] at hi
      rw [if_pos hjk] at hj
      rw [hjk, write_slot_self, write_slot_of_ne dp k d hik] at hname
      exact absurd hname (hnew hj i hi hik)
    · rw [if_neg hik] at hi
      rw [if_neg hjk] at hj
      rw [write_slot_of_ne dp k d hik, write_slot_of_ne dp k d hjk] at hname
      exact h.distinct i j hi hj hname

/-- What is found after a write over an entry that was not in use. -/
theorem lookup_link (hk : DIRENT * k ≤ dp.size) (hfree : ¬ dp.Used k) (hinum : d.inum ≠ 0)
    (hnew : ∀ j, dp.Used j → (dp.slot j).name ≠ d.name) (b : Name) :
    lookup (dp.write k d) b = if b = d.name then some d.inum else lookup dp b := by
  have hwrite := h.write hk (fun _ j hj _ => hnew j hj)
  have hother : ∀ {j}, dp.Used j → j ≠ k := by
    rintro j hj rfl
    exact hfree hj
  split
  · next hb =>
    refine hwrite.lookup_eq_some.mpr ⟨k, ?_, ?_⟩
    · rw [used_write dp k d h.dvd hk, if_pos rfl]
      exact hinum
    · rw [write_slot_self]
      exact ⟨hb.symm, rfl⟩
  · next hb =>
    refine Option.ext fun v => ?_
    rw [hwrite.lookup_eq_some, h.lookup_eq_some]
    refine exists_congr fun j => ?_
    rw [used_write dp k d h.dvd hk]
    by_cases hj : j = k
    · rw [hj, write_slot_self]
      exact iff_of_false (fun hv => hb hv.2.1.symm) (fun hv => hfree hv.1)
    · rw [if_neg hj, write_slot_of_ne dp k d hj]

/-- What is found after an entry was cleared. -/
theorem lookup_unlink (hk : dp.Used k) (hinum : d.inum = 0) (b : Name) :
    lookup (dp.write k d) b = if b = (dp.slot k).name then none else lookup dp b := by
  have hwrite := h.write (le_of_lt hk.1) (d := d) (fun hne => absurd hinum hne)
  have hrest : ∀ v, lookup (dp.write k d) b = some v ↔
      ∃ j, j ≠ k ∧ dp.Used j ∧ (dp.slot j).name = b ∧ (dp.slot j).inum = v := by
    intro v
    rw [hwrite.lookup_eq_some]
    refine exists_congr fun j => ?_
    rw [used_write dp k d h.dvd (le_of_lt hk.1)]
    by_cases hj : j = k
    · rw [if_pos hj]
      exact iff_of_false (fun hv => hv.1 hinum) (fun hv => hv.1 hj)
    · rw [if_neg hj, write_slot_of_ne dp k d hj]
      exact (and_iff_right hj).symm
  refine Option.ext fun v => ?_
  rw [hrest]
  split
  · next hb =>
    refine iff_of_false ?_ (by simp)
    rintro ⟨j, hj, hused, hname, _⟩
    exact hj (h.distinct j k hused hk (hname.trans hb))
  · next hb =>
    rw [h.lookup_eq_some]
    refine exists_congr fun j => and_iff_right_of_imp ?_
    rintro ⟨_, hname, _⟩ rfl
    exact hb hname.symm

end FiniteMap

/-! ### Calls on one directory -/

inductive DirCall where
  /-- `dirlink(dp, name, inum)` -/
  | link (name : Chars) (inum : Nat)
  /-- `sys_unlink` clears the entry that `dirlookup` has found. -/
  | unlink (name : Chars)

/-- The directory is new, or one that `mkfs` has made. A `dirlink` that panics for
    want of room is no step. -/
def dirSystem : System Inode DirCall where
  init := fun dp => FiniteMap dp.decoded
  step := fun dp c dp' =>
    match c with
    | .link name inum => 0 < inum ∧ inum < 65536 ∧ ∃ r, Raw.dirlink dp name inum = .ok (r, dp')
    | .unlink name => ∃ k, Raw.dirlookup dp name = .ok (some k) ∧ dp' = dp.write k Raw.noEntry

variable {dp dp' : Inode} {name : Chars} {inum : Nat}

theorem Raw.lookup_decoded (dp : Inode) (name : Chars) :
    Raw.lookup dp name = Fs.lookup dp.decoded (cut name DIRSIZ) := by
  unfold Raw.lookup Fs.lookup
  rw [Raw.dirlookup_decoded]
  rfl

/-- `dirlink` finds the name, or writes it to the first entry that is not in use. -/
theorem Raw.dirlink_spec (h : FiniteMap dp.decoded) (name : Chars) (inum : Nat) :
    (Raw.lookup dp name ≠ none ∧ Raw.dirlink dp name inum = .ok (-1, dp)) ∨
    (Raw.lookup dp name = none ∧ (∀ k, dp.Used k → (dp.decoded.slot k).name ≠ cut name DIRSIZ) ∧
      ∃ k, DIRENT * k ≤ dp.size ∧ ¬ dp.Used k ∧
        (∀ j, DIRENT * j < dp.size → (dp.slot j).inum = 0 → k ≤ j) ∧
        Raw.dirlink dp name inum =
          if MAXFILE * BSIZE < DIRENT * k + DIRENT then .error .dirlink
          else .ok (0, dp.write k ⟨inum % 65536, strncpy name DIRSIZ⟩)) := by
  have hfind := Raw.dirlookup_decoded dp name
  unfold Raw.lookup Raw.dirlink
  rcases dirlookup_spec h.dir h.dvd (cut name DIRSIZ) with ⟨hnone, hall⟩ | ⟨k, hsome, _⟩
  · rw [hfind, hnone]
    obtain ⟨o, ho, hle, hfree, hfirst⟩ := @emptySlot_spec dp h.dvd
    refine Or.inr ⟨rfl, hall, _, hle, hfree, hfirst, ?_⟩
    simp only [bind, Except.bind, ho]
    rfl
  · rw [hfind, hsome]
    exact Or.inl ⟨by simp, rfl⟩

/-- The entry that `dirlink` writes. -/
theorem decoded_entry (name : Chars) (hinum : inum < 65536) :
    (⟨inum % 65536, strncpy name DIRSIZ⟩ : Dirent).decoded = ⟨inum, cut name DIRSIZ⟩ := by
  unfold Dirent.decoded
  rw [cut_ofList_strncpy, Nat.mod_eq_of_lt hinum]

/-- **One step** keeps the directory a finite map. -/
theorem FiniteMap.step {c : DirCall} (h : FiniteMap dp.decoded) (hst : dirSystem.step dp c dp') :
    FiniteMap dp'.decoded := by
  cases c with
  | link name inum =>
    obtain ⟨_, hinum, r, hlink⟩ := hst
    rcases Raw.dirlink_spec h name inum with ⟨_, heq⟩ | ⟨_, hnew, k, hk, _, _, heq⟩
    · rw [heq] at hlink
      obtain rfl := (Prod.mk.inj (Except.ok.inj hlink)).2
      exact h
    · rw [heq] at hlink
      split at hlink
      · cases hlink
      · obtain rfl := (Prod.mk.inj (Except.ok.inj hlink)).2
        rw [write_decoded, decoded_entry name hinum]
        exact h.write hk (fun _ j hj _ => hnew j hj)
  | unlink name =>
    obtain ⟨k, hk, rfl⟩ := hst
    rw [Raw.dirlookup_decoded] at hk
    rw [write_decoded]
    rcases dirlookup_spec h.dir h.dvd (cut name DIRSIZ) with ⟨hnone, _⟩ | ⟨j, hj, hused, _⟩
    · rw [hk] at hnone
      cases hnone
    · obtain rfl : k = j := by simpa using hk.symm.trans hj
      exact h.write (le_of_lt hused.1) (fun hne => absurd rfl hne)

theorem finiteMap_reachable (h : Reachable dirSystem dp) : FiniteMap dp.decoded := by
  induction h with
  | init hinit => exact hinit
  | step c _ hst ih => exact ih.step hst

/-- **Directories are finite maps.** After any calls of `dirlink` and any removals, on a
    directory below the maximum file size: no two entries in use have the same
    name; `dirlookup` does not panic; `dirlink` returns -1 and changes nothing if the name
    is there, and otherwise adds it and nothing else, in the place of a removed
    entry if there is one; and a removal removes the name and nothing else. -/
theorem directory_finite_map (h : Reachable dirSystem dp) :
    (∀ j k, dp.Used j → dp.Used k →
      cut (.ofList (dp.slot j).name) DIRSIZ = cut (.ofList (dp.slot k).name) DIRSIZ → j = k) ∧
    (∀ name, ∃ o, Raw.dirlookup dp name = .ok o) ∧
    (∀ name inum, 0 < inum → inum < 65536 → dp.size < MAXFILE * BSIZE →
      ∃ r dp', Raw.dirlink dp name inum = .ok (r, dp') ∧
        ((r = -1 ∧ dp' = dp ∧ Raw.lookup dp name ≠ none) ∨
         (r = 0 ∧ Raw.lookup dp name = none ∧
          (∀ b, Raw.lookup dp' b =
            if cut b DIRSIZ = cut name DIRSIZ then some inum else Raw.lookup dp b) ∧
          (dp'.size = dp.size ∨ dp'.size = dp.size + DIRENT ∧
            ∀ k, DIRENT * k < dp.size → (dp.slot k).inum ≠ 0)))) ∧
    (∀ name k, Raw.dirlookup dp name = .ok (some k) → ∀ b,
      Raw.lookup (dp.write k Raw.noEntry) b =
        if cut b DIRSIZ = cut name DIRSIZ then none else Raw.lookup dp b) := by
  have hmap := finiteMap_reachable h
  have h16 : DIRENT = 16 := rfl
  refine ⟨hmap.distinct, fun name => ?_, fun name inum hpos hinum hroom => ?_, fun name k hk b => ?_⟩
  · rw [Raw.dirlookup_decoded]
    rcases dirlookup_spec hmap.dir hmap.dvd (cut name DIRSIZ) with ⟨hnone, _⟩ | ⟨k, hk, _⟩
    · exact ⟨none, hnone⟩
    · exact ⟨some k, hk⟩
  · obtain ⟨m, hm⟩ : DIRENT ∣ dp.size := hmap.dvd
    rcases Raw.dirlink_spec hmap name inum with ⟨hthere, heq⟩ | ⟨hnone, hnew, k, hk, hfree, hfirst, heq⟩
    · exact ⟨-1, dp, heq, Or.inl ⟨rfl, rfl, hthere⟩⟩
    · have hmax : MAXFILE * BSIZE = 16 * 4480 := rfl
      rw [if_neg (by rw [h16] at *; omega)] at heq
      refine ⟨0, _, heq, Or.inr ⟨rfl, hnone, fun b => ?_, ?_⟩⟩
      · rw [Raw.lookup_decoded, Raw.lookup_decoded, write_decoded, decoded_entry name hinum]
        exact hmap.lookup_link hk hfree (d := ⟨inum, _⟩) (Nat.ne_of_gt hpos) hnew _
      · have hsize : (dp.write k ⟨inum % 65536, strncpy name DIRSIZ⟩).size =
            max dp.size (DIRENT * k + DIRENT) := rfl
        rw [hsize]
        by_cases hend : DIRENT * k < dp.size
        · rw [h16] at *
          omega
        · refine Or.inr ⟨by rw [h16] at *; omega, fun j hj hzero => ?_⟩
          have hkj := hfirst j hj hzero
          rw [h16] at *
          omega
  · rw [Raw.dirlookup_decoded] at hk
    rw [Raw.lookup_decoded, Raw.lookup_decoded, write_decoded]
    rcases dirlookup_spec hmap.dir hmap.dvd (cut name DIRSIZ) with ⟨hnone, _⟩ | ⟨j, hj, hused, hjn⟩
    · rw [hk] at hnone
      cases hnone
    · obtain rfl : k = j := by simpa using hk.symm.trans hj
      rw [← hjn]
      exact hmap.lookup_unlink hused rfl _

/-- A directory without entries. -/
def emptyDir : Inode where
  type := .dir
  nlink := 1
  size := 0
  slot := fun _ => Raw.noEntry

/-- The first `dirlink` in a new directory. -/
theorem directory_finite_map_first : ∃ dp', Raw.dirlink emptyDir (.ofList dot) 1 = .ok (0, dp') ∧
    Raw.lookup dp' (.ofList dot) = some 1 := by
  have hinit : FiniteMap emptyDir.decoded :=
    ⟨rfl, ⟨0, rfl⟩, fun j _ hj _ => absurd hj.1 (Nat.not_lt_zero _)⟩
  obtain ⟨r, dp', hlink, ⟨_, _, hthere⟩ | ⟨rfl, _, hfind, _⟩⟩ :=
    (directory_finite_map (.init hinit)).2.2.1 (.ofList dot) 1 (by decide) (by decide) (by decide)
  · exact absurd rfl hthere
  · exact ⟨dp', hlink, (hfind _).trans (if_pos rfl)⟩

end Xv6.Fs
