import Xv6.Mem.Load

/-! # Loading Arbitrary Files

    `exec` takes the ELF header and the program headers from the file as they
    are: all fields are 32-bit values that somebody wrote. Here is what it
    reads from a file with the bytes `data`, and what follows for the address
    space that it loads: no panic for any content, and for segments in
    increasing order the memory that they ask for.
-/

namespace Xv6.Vm

open Ownership

/-! ### What `exec` reads from a file -/

/-- `readi` from a regular file: the bytes, or `none` for `-1`. -/
def readi (data : List Byte) (off n : Nat) : Option (List Byte) :=
  if off > data.length ∨ (off + n) % 2 ^ 32 < off then none else some ((data.drop off).take n)

/-- `readi(ip, dst, off, n) == n`. -/
def readAll (data : List Byte) (off n : Nat) : Option (List Byte) :=
  (readi data off n).filter (fun bs => bs.length = n)

/-- The `uint` at offset `o` of a header. -/
def hdrWord (h : List Byte) (o : Nat) : Word := Bytes.le 4 (fun i => h.getD (o + i) 0)

def ELF_MAGIC : Word := 0x464C457F

/-- `struct proghdr`, without the fields that `exec` does not use. -/
structure Proghdr where
  type : Word
  off : Word
  vaddr : Word
  filesz : Word
  memsz : Word

def Proghdr.ofBytes (h : List Byte) : Proghdr :=
  ⟨hdrWord h 0, hdrWord h 4, hdrWord h 8, hdrWord h 16, hdrWord h 20⟩

/-- The bytes `loaduvm` reads for page `i` of a segment. -/
def Proghdr.pageBytes (ph : Proghdr) (i : Nat) : Nat :=
  if ph.filesz.toNat - i * PGSIZE < PGSIZE then ph.filesz.toNat - i * PGSIZE else PGSIZE

/-- A segment of the file. -/
def Proghdr.segment (data : List Byte) (ph : Proghdr) : Segment where
  vaddr := ph.vaddr.toNat
  memsz := ph.memsz.toNat
  memsz_lt := ph.memsz.isLt
  filesz := ph.filesz.toNat
  pages i := (readAll data ((ph.off.toNat + i * PGSIZE) % 2 ^ 32) (ph.pageBytes i)).map
    (fun bs b => Bytes.write b 0 bs)

/-- The program header at `off`. -/
def progHdr (data : List Byte) (off : Nat) : ProgHdr :=
  match readAll data (off % 2 ^ 32) 32 with
  | none => .short
  | some h =>
    if (Proghdr.ofBytes h).type ≠ 1 then .other else .load ((Proghdr.ofBytes h).segment data)

/-- The file as `exec` finds it: the header is 52 bytes, with the magic number,
    the entry point, `phoff` and `phnum` at offsets 0, 24, 28 and 44. -/
def elfFile (data : List Byte) : ExecFile :=
  match readAll data 0 52 with
  | none => ⟨false, [], 0, fun _ => none⟩
  | some h =>
    { elf := hdrWord h 0 = ELF_MAGIC
      phdrs := (List.range (Bytes.le 2 (fun i => h.getD (44 + i) 0)).toNat).map
        (fun i => progHdr data ((hdrWord h 28).toNat + 32 * i))
      entry := hdrWord h 24
      stack := fun _ => none }

/-- The segments, in the order in which the file lists them. -/
def segments (phs : List ProgHdr) : List Segment :=
  phs.filterMap fun
    | .load seg => some seg
    | _ => none

/-- Each segment starts on a page after the last page of the one before. -/
def Ascending (phs : List ProgHdr) : Prop :=
  (segments phs).Pairwise (fun a b => Mem.pgroundup (a.vaddr + a.memsz) ≤ b.vaddr / PGSIZE)

/-! ### The bytes of a segment -/

variable {data : List Byte} {ph : Proghdr} {v : Nat} {seg : Segment}

theorem readAll_some {off n : Nat} {bs : List Byte} (h : readAll data off n = some bs) :
    off + n ≤ data.length ∧ bs.length = n ∧ ∀ t, t < n → bs.getD t 0 = data.getD (off + t) 0 := by
  obtain ⟨hr, hlen⟩ := Option.filter_eq_some_iff.mp h
  have hlen : bs.length = n := of_decide_eq_true hlen
  unfold readi at hr
  split at hr
  · cases hr
  next hin =>
  obtain rfl := Option.some.inj hr
  refine ⟨?_, hlen, fun t ht => ?_⟩
  · rw [List.length_take, List.length_drop] at hlen
    omega
  · rw [List.getD_eq_getElem?_getD, List.getElem?_take_of_lt ht, List.getElem?_drop,
      List.getD_eq_getElem?_getD]

/-- A segment that is read to its end does not wrap around the end of the
    file. -/
theorem Proghdr.read_within (hsize : data.length < 2 ^ 32)
    (hread : ∀ j, j * PGSIZE < ph.filesz.toNat → ((ph.segment data).pages j).isSome) (j : Nat)
    (hj : j * PGSIZE < ph.filesz.toNat) :
    ph.off.toNat + j * PGSIZE + ph.pageBytes j ≤ data.length := by
  have hpage : ∀ j, j * PGSIZE < ph.filesz.toNat → ph.off.toNat + j * PGSIZE < 2 ^ 32 →
      ph.off.toNat + j * PGSIZE + ph.pageBytes j ≤ data.length := by
    intro j hj hlt
    obtain ⟨f, hf⟩ := Option.isSome_iff_exists.mp (hread j hj)
    obtain ⟨bs, hbs, _⟩ := Option.map_eq_some_iff.mp hf
    rw [Nat.mod_eq_of_lt hlt] at hbs
    exact (readAll_some hbs).1
  induction j with
  | zero => exact hpage 0 hj (by rw [Nat.zero_mul, Nat.add_zero]; exact ph.off.isLt)
  | succ j ih =>
    -- the page before was read whole
    rw [Nat.succ_mul] at hj
    have hprev := ih (by omega)
    have hfull : ph.pageBytes j = PGSIZE := by
      unfold Proghdr.pageBytes
      rw [if_neg (by omega)]
    refine hpage (j + 1) (by rw [Nat.succ_mul]; omega) ?_
    rw [Nat.succ_mul]
    omega

/-- The memory of a segment that is loaded into pages of zeroes. -/
theorem Proghdr.load_byte (hsize : data.length < 2 ^ 32)
    (hread : ∀ j, j * PGSIZE < ph.filesz.toNat → ((ph.segment data).pages j).isSome)
    {j t : Nat} (ht : t < PGSIZE) (hj : j * PGSIZE < ph.filesz.toNat) :
    Bytes.Buf.get (((ph.segment data).pages j).getD id (fun _ => 0)) t =
      if j * PGSIZE + t < ph.filesz.toNat then data.getD (ph.off.toNat + (j * PGSIZE + t)) 0
      else 0 := by
  have hin := read_within hsize hread j hj
  obtain ⟨f, hf⟩ := Option.isSome_iff_exists.mp (hread j hj)
  obtain ⟨bs, hbs, rfl⟩ := Option.map_eq_some_iff.mp hf
  rw [Nat.mod_eq_of_lt (by omega)] at hbs
  obtain ⟨_, hlen, hget⟩ := readAll_some hbs
  rw [hf, Option.getD_some, Bytes.write, Bytes.get_splice _ _ _ _ ht, hlen]
  have hiff : (0 ≤ t ∧ t < 0 + ph.pageBytes j) ↔ j * PGSIZE + t < ph.filesz.toNat := by
    unfold Proghdr.pageBytes
    split <;> omega
  simp only [hiff]
  split
  · next hlt =>
    rw [Nat.sub_zero, hget t (by have := hiff.mpr hlt; omega), Nat.add_assoc]
  · simp [Bytes.Buf.get, ht]

/-! ### Segments in increasing order -/

theorem loadImage_append (l₁ l₂ : List ProgHdr) : ∀ img : Nat → Bytes.Buf PGSIZE,
    loadImage img (l₁ ++ l₂) = loadImage (loadImage img l₁) l₂ := by
  induction l₁ with
  | nil => exact fun _ => rfl
  | cons ph l₁ ih =>
    intro img
    cases ph with
    | short => exact ih img
    | other => exact ih img
    | load seg => exact ih _

/-- A page that no segment is read to is as it was. -/
theorem loadImage_of_outside (phs : List ProgHdr) : ∀ {img : Nat → Bytes.Buf PGSIZE},
    (∀ seg, .load seg ∈ phs →
      ¬ (seg.vaddr / PGSIZE ≤ v ∧ v < seg.vaddr / PGSIZE + Mem.pgroundup seg.filesz)) →
    loadImage img phs v = img v := by
  induction phs with
  | nil => exact fun _ => rfl
  | cons ph phs ih =>
    intro img hout
    have hrest := fun seg hmem => hout seg (List.mem_cons_of_mem _ hmem)
    cases ph with
    | short => exact ih hrest
    | other => exact ih hrest
    | load seg =>
      rw [loadImage, ih hrest, Segment.load, if_neg (hout seg List.mem_cons_self)]

theorem mem_segments {phs : List ProgHdr} : seg ∈ segments phs ↔ .load seg ∈ phs := by
  unfold segments
  rw [List.mem_filterMap]
  constructor
  · rintro ⟨ph, hmem, hph⟩
    cases ph with
    | short => cases hph
    | other => cases hph
    | load s =>
      obtain rfl := Option.some.inj hph
      exact hmem
  · exact fun hmem => ⟨_, hmem, rfl⟩

/-- The pages of the file in a segment's memory lie in its memory. -/
theorem Segment.Accepted.page_lt {sz : Nat} (h : seg.Accepted sz) (hsz : sz ≤ KERNBASE)
    (hv : v < seg.vaddr / PGSIZE + Mem.pgroundup seg.filesz) (hlo : seg.vaddr / PGSIZE ≤ v) :
    v < Mem.pgroundup (seg.vaddr + seg.memsz) := by
  have h1 := h.aligned
  have h2 := h.filesz_le
  have h3 := h.top_le
  have hdiv := Nat.div_add_mod seg.vaddr PGSIZE
  obtain ⟨j, rfl⟩ := Nat.exists_eq_add_of_le hlo
  have hj := (Mem.lt_pgroundup_iff (show seg.filesz ≤ KERNBASE by omega)).mp
    (show j < Mem.pgroundup seg.filesz by omega)
  rw [Mem.lt_pgroundup_iff (by omega), Nat.add_mul, Nat.mul_comm (seg.vaddr / PGSIZE)]
  omega

/-- Loading in increasing order: a page of a segment is read once. -/
theorem Ascending.load_page {phs : List ProgHdr} {sz : Nat} {img : Nat → Bytes.Buf PGSIZE}
    (hasc : Ascending phs) (hsz : sz ≤ KERNBASE) (hacc : ∀ s, .load s ∈ phs → s.Accepted sz)
    (hseg : .load seg ∈ phs) (hlo : seg.vaddr / PGSIZE ≤ v)
    (hhi : v < Mem.pgroundup (seg.vaddr + seg.memsz)) : loadImage img phs v = seg.load img v := by
  obtain ⟨l₁, l₂, rfl⟩ := List.append_of_mem hseg
  have hsplit : segments (l₁ ++ .load seg :: l₂) = segments l₁ ++ seg :: segments l₂ := by
    simp [segments]
  unfold Ascending at hasc
  rw [hsplit, List.pairwise_append, List.pairwise_cons] at hasc
  obtain ⟨_, ⟨hafter, _⟩, hbefore⟩ := hasc
  rw [loadImage_append, loadImage, loadImage_of_outside l₂]
  · unfold Segment.load
    rw [loadImage_of_outside l₁]
    rintro s hs ⟨h1, h2⟩
    have hle := hbefore s (mem_segments.mpr hs) seg List.mem_cons_self
    have := (hacc s (List.mem_append_left _ hs)).page_lt hsz h2 h1
    omega
  · rintro s hs ⟨h1, _⟩
    have hle := hafter s (mem_segments.mpr hs)
    omega

/-! ### Loading a file -/

namespace Mem

variable {E : Type} [DecidableEq E] {S : Set Page} {m : Mem} {he : E → Option Page}
  {loose : List Page} {L : Layout}

/-- **`exec` on arbitrary files.** For every content of the file and every free
    list, loading it returns. If it succeeds, all pages below the size are
    mapped, and segments in increasing order are in memory as the file says:
    `filesz` bytes of the file, then zeroes. -/
theorem execLoad_any_file (data : List Byte) (hS : ∀ p ∈ S, L.ValidPage p) (h : Ok S m he loose)
    (hsize : data.length < 2 ^ 32) :
    ∃ r m', m.execLoad L (elfFile data) = .ok (r, m') ∧
      ∀ d sz, r = some (d, sz) → ∃ D, m'.dirs d = some D ∧
        (∀ v, v < pgroundup sz → (D.pte v).isSome) ∧
        (Ascending (elfFile data).phdrs → ∀ ph : Proghdr,
          .load (ph.segment data) ∈ (elfFile data).phdrs → ∀ o, o < ph.memsz.toNat →
          m'.loadByte d (ph.vaddr.toNat + o) = some (if o < ph.filesz.toNat
            then data.getD (ph.off.toNat + o) 0 else 0)) := by
  obtain ⟨⟨r, m'⟩, hx, hr⟩ := (execLoad_spec (L := L) (elfFile data) h).returns hS
  refine ⟨r, m', hx, ?_⟩
  rintro d sz rfl
  obtain ⟨hr, _⟩ | ⟨d', D, g, hr, _, _, hl, hacc, himg⟩ := hr
  · cases hr
  obtain ⟨rfl, rfl⟩ := Prod.mk.inj (Option.some.inj hr)
  have htop := hl.top
  refine ⟨D, hl.dir, fun v hv => ?_, fun hasc ph hph o ho => ?_⟩
  · rw [pgroundup_mul (Nat.le_of_lt htop)] at hv
    exact hl.mapped v hv
  · have hsz : g * PGSIZE ≤ KERNBASE := by
      simp only [UPAGES, KERNBASE, PGSIZE] at htop ⊢
      omega
    have hseg := hacc _ hph
    have hal : ph.vaddr.toNat % PGSIZE = 0 := hseg.aligned
    have hmem : ph.vaddr.toNat + ph.memsz.toNat ≤ g * PGSIZE := hseg.top_le
    have hfile : ph.filesz.toNat ≤ ph.memsz.toNat := hseg.filesz_le
    have hdiv : (ph.vaddr.toNat + o) / PGSIZE = ph.vaddr.toNat / PGSIZE + o / PGSIZE := by
      simp only [PGSIZE] at hal ⊢
      omega
    have hmod : (ph.vaddr.toNat + o) % PGSIZE = o % PGSIZE := by
      simp only [PGSIZE] at hal ⊢
      omega
    have hpage : (ph.vaddr.toNat + o) / PGSIZE < g := by
      simp only [PGSIZE] at hmem ⊢
      omega
    obtain ⟨e, hp⟩ := Option.isSome_iff_exists.mp (hl.mapped _ (Nat.lt_of_lt_of_le hpage (by omega)))
    have hhi : (ph.vaddr.toNat + o) / PGSIZE < pgroundup (ph.vaddr.toNat + ph.memsz.toNat) := by
      rw [lt_pgroundup_iff (by omega)]
      exact Nat.lt_of_le_of_lt (Nat.div_mul_le_self _ _) (by omega)
    rw [loadByte_eq hl.dir hp, himg _ e (by omega) hp, hasc.load_page hsz hacc hph
      (by rw [hdiv]; exact Nat.le_add_right _ _) hhi]
    have hread : ∀ j, j * PGSIZE < ph.filesz.toNat → ((ph.segment data).pages j).isSome := fun j hj =>
      hseg.read j ((lt_pgroundup_iff (show ph.filesz.toNat ≤ KERNBASE by omega)).mpr hj)
    have hsum : o / PGSIZE * PGSIZE + o % PGSIZE = o := by
      rw [Nat.mul_comm]
      exact Nat.div_add_mod o PGSIZE
    have hload : (ph.segment data).load (fun _ _ => 0) ((ph.vaddr.toNat + o) / PGSIZE) =
        if o / PGSIZE * PGSIZE < ph.filesz.toNat then
          ((ph.segment data).pages (o / PGSIZE)).getD id (fun _ => 0) else fun _ => 0 := by
      have hiff := lt_pgroundup_iff (v := o / PGSIZE) (show ph.filesz.toNat ≤ KERNBASE by omega)
      have hva : (ph.segment data).vaddr = ph.vaddr.toNat := rfl
      have hfs : (ph.segment data).filesz = ph.filesz.toNat := rfl
      unfold Segment.load
      rw [hva, hfs, hdiv, Nat.add_sub_cancel_left]
      simp only [Nat.le_add_right, true_and, Nat.add_lt_add_iff_left, hiff]
    rw [hload, hmod]
    by_cases hin : o / PGSIZE * PGSIZE < ph.filesz.toNat
    · rw [if_pos hin, Proghdr.load_byte hsize hread (Nat.mod_lt _ (by decide)) hin, hsum]
    · rw [if_neg hin, if_neg (by omega)]
      simp [Bytes.Buf.get]

/-- A file that is an ELF header and nothing else. -/
theorem execLoad_any_file_header :
    ∃ r m', (⟨List.range' 0x400 3000, fun _ => none, fun _ _ => 0⟩ : Mem).execLoad exampleLayout
      (elfFile ([0x7F, 0x45, 0x4C, 0x46] ++ List.replicate 48 0)) = .ok (r, m') := by
  obtain ⟨r, m', hx, _⟩ := execLoad_any_file ([0x7F, 0x45, 0x4C, 0x46] ++ List.replicate 48 0)
    exampleLayout_valid (ok_initial (m := ⟨List.range' 0x400 3000, fun _ => none, fun _ _ => 0⟩)
      (fun _ => rfl) List.nodup_range') (by decide)
  exact ⟨r, m', hx⟩

end Mem

end Xv6.Vm
