import Xv6.Mem.Exec
import Xv6.Mem.User

/-! # The Argument Stack of `exec`

    `exec` copies its arguments to the top of the new address space: the
    strings from `sz` down, each at a multiple of four, and below them a
    frame with a fake return address, `argc`, `argv` and the array of
    pointers to the strings. Everything goes through `copyout`, page by page
    and only to pages with `PTE_U`; the guard page stops a copy that runs out
    of the stack page.

    The stack pointer is a `uint`, so a string that is longer than the whole
    address space wraps it around, to a kernel address. There `uva2ka` does
    not check what `walkpgdir` returned: where the directory has no page
    table, it reads through a null pointer, the panic `wild`.

    The first half of the file is the code, the second what a page looks like
    after the copies and what the copies do.
-/

namespace Xv6

def MAXARG : Nat := 32

namespace Vm

open Ownership

/-! ### `sys_exec`

    `user` is the memory of the calling process, of which `sz` bytes are
    mapped. -/

section Fetch

variable (user : Nat → Byte) (sz : Nat) {s : List Byte} {D : PageDir} {e : Pte}

def fetchint (addr : Word) : Option Word :=
  if addr.toNat ≥ sz ∨ (addr + 4).toNat > sz then none
  else some (Bytes.le 4 (fun i => user (addr.toNat + i)))

/-- `fetchstr`, with the string it finds for its result. -/
def fetchstr (addr : Word) : Option (List Byte) :=
  if addr.toNat ≥ sz then none
  else
    ((List.range (sz - addr.toNat)).find? (fun i => user (addr.toNat + i) = 0)).map
      (fun n => (List.range n).map (fun i => user (addr.toNat + i)))

/-- The loop of `sys_exec`, with `k` entries of `argv` left. -/
def fetchArgv (uargv : Word) : (k : Nat) → (i : Nat) → Option (List (List Byte))
  | 0, _ => none
  | k + 1, i =>
    match fetchint user sz (uargv + BitVec.ofNat 32 (4 * i)) with
    | none => none
    | some uarg =>
      if uarg = 0 then some []
      else
        match fetchstr user sz uarg with
        | none => none
        | some s => (fetchArgv uargv k (i + 1)).map (s :: ·)

/-- The arguments `sys_exec` calls `exec` with. -/
def sysExecArgv (uargv : Word) : Option (List (List Byte)) := fetchArgv user sz uargv MAXARG 0

end Fetch

namespace Mem

/-! ### `copyout` -/

/-- Replace the contents of a page. -/
def setPage (m : Mem) (x : Page) (b : Bytes.Buf PGSIZE) : Mem :=
  { m with contents := Function.update m.contents x b }

/-- `uva2ka`, of a virtual page. -/
def uva2ka (m : Mem) (d : Page) (v : Nat) : Except Panic (Option Page) :=
  match m.dirs d with
  | none => .error .wild
  | some D =>
    match D.ptab (PDX v) with
    | none => .error .wild
    | some _ =>
      match D.pte v with
      | none => .ok none
      | some e => .ok (if e.u then some e.ppn else none)

/-- `copyout`. `false` is the result `-1`. -/
def copyout (m : Mem) (d : Page) (va : Word) (p : List Byte) : Except Panic (Bool × Mem) :=
  if p = [] then .ok (true, m)
  else
    match m.uva2ka d (va.toNat / PGSIZE) with
    | .error e => .error e
    | .ok none => .ok (false, m)
    | .ok (some pa0) =>
      let off := va.toNat % PGSIZE
      let n := min (PGSIZE - off) p.length
      copyout (m.setPage pa0 (Bytes.write (m.contents pa0) off (p.take n))) d
        (BitVec.ofNat 32 ((va.toNat / PGSIZE + 1) * PGSIZE)) (p.drop n)
termination_by p.length
decreasing_by
  have hpos : 0 < p.length := List.length_pos_iff.mpr ‹_›
  have hoff : va.toNat % PGSIZE < PGSIZE := Nat.mod_lt _ (by decide)
  rw [List.length_drop]
  omega

/-! ### The stack of `exec` -/

/-- `sp = (sp - (strlen(s) + 1)) & ~3`. -/
def pushed (sp : Word) (s : List Byte) : Word := (sp - BitVec.ofNat 32 (s.length + 1)) &&& ~~~3

/-- The loop that pushes the strings: the stack pointer and what it has
    stored in `ustack` from the index 3 on. `none` is `goto bad`. -/
def pushStrings (d : Page) : List (List Byte) → Mem → (argc : Nat) → (sp : Word) →
    (ustack : List Word) → Except Panic (Option (Word × List Word) × Mem)
  | [], m, _, sp, ustack => .ok (some (sp, ustack), m)
  | s :: argv, m, argc, sp, ustack =>
    if argc ≥ MAXARG then .ok (none, m)
    else
      match m.copyout d (pushed sp s) (s ++ [0]) with
      | .error e => .error e
      | .ok (false, m) => .ok (none, m)
      | .ok (true, m) =>
        pushStrings d argv m (argc + 1) (pushed sp s) (ustack ++ [pushed sp s])

/-- The bytes of a word in memory. -/
def wordBytes (w : Word) : List Byte := (List.range 4).map (Bytes.byteOf w)

/-- `ustack`, with the pointers to the strings. -/
def frameWords (argc : Nat) (sp : Word) (ptrs : List Word) : List Word :=
  [0xffffffff, BitVec.ofNat 32 argc, sp - BitVec.ofNat 32 ((argc + 1) * 4)] ++ (ptrs ++ [0])

/-- The arguments of `exec`, from `sp = sz` on: the final stack pointer. -/
def pushArgs (m : Mem) (d : Page) (sz : Nat) (argv : List (List Byte)) :
    Except Panic (Option Word × Mem) :=
  match m.pushStrings d argv 0 (BitVec.ofNat 32 sz) [] with
  | .error e => .error e
  | .ok (none, m) => .ok (none, m)
  | .ok (some (sp, ptrs), m) =>
    let argc := argv.length
    let esp := sp - BitVec.ofNat 32 ((3 + argc + 1) * 4)
    match m.copyout d esp ((frameWords argc sp ptrs).flatMap wordBytes) with
    | .error e => .error e
    | .ok (false, m) => .ok (none, m)
    | .ok (true, m) => .ok (some esp, m)

/-- `exec` from "Allocate two pages at the next page boundary" to
    `sp = sz`: the size. `none` is `goto bad`. -/
def growStack (L : Layout) (m : Mem) (d : Page) (sz : Nat) : Except Panic (Option Nat × Mem) :=
  let base := pgroundup sz
  match m.allocuvm L d (base * PGSIZE) ((base * PGSIZE + 2 * PGSIZE) % 2 ^ 32) with
  | .error e => .error e
  | .ok (0, m) => .ok (none, m)
  | .ok (sz + 1, m) => (m.clearpteu d base).map (fun m => (some (sz + 1), m))

/-- `exec` up to `sp = sz`: the new directory and its size. `none` is the
    result `-1`. -/
def execLoad (L : Layout) (m : Mem) (f : ExecFile) : Except Panic (Option (Page × Nat) × Mem) :=
  if !f.elf then .ok (none, m)
  else
    match m.setupkvm L with
    | .error e => .error e
    | .ok (none, m) => .ok (none, m)
    | .ok (some d, m) =>
      match m.loadAll L d f.phdrs 0 with
      | .error e => .error e
      | .ok (none, m) => (m.freevm L d).map (fun m => (none, m))
      | .ok (some sz, m) =>
        match m.growStack L d sz with
        | .error e => .error e
        | .ok (none, m) => (m.freevm L d).map (fun m => (none, m))
        | .ok (some sz, m) => .ok (some (d, sz), m)

/-- `exec` up to its commit, with its arguments. -/
def exec (L : Layout) (m : Mem) (f : ExecFile) (argv : List (List Byte)) :
    Except Panic (Option ExecImage × Mem) :=
  match m.execLoad L f with
  | .error e => .error e
  | .ok (none, m) => .ok (none, m)
  | .ok (some (d, sz), m) =>
    match m.pushArgs d sz argv with
    | .error e => .error e
    | .ok (none, m) => (m.freevm L d).map (fun m => (none, m))
    | .ok (some esp, m) => .ok (some ⟨d, sz, f.entry, esp⟩, m)

/-! ### The layout of the stack page -/

/-- The bytes a string takes. -/
def room (s : List Byte) : Nat := (s.length + 4) / 4 * 4

/-- The bytes the strings take. -/
def used (argv : List (List Byte)) : Nat := (argv.map room).sum

@[simp] theorem used_nil : used [] = 0 := rfl

@[simp] theorem used_cons (s : List Byte) (argv : List (List Byte)) :
    used (s :: argv) = room s + used argv := by
  simp [used]

/-- The bytes the strings and the frame take. -/
def need (argv : List (List Byte)) : Nat := used argv + 4 * (argv.length + 4)

/-- The pointers to the strings, when `n` bytes are in use. -/
def pointers (sz : Nat) : (n : Nat) → List (List Byte) → List Word
  | _, [] => []
  | n, s :: argv => BitVec.ofNat 32 (sz - (n + room s)) :: pointers sz (n + room s) argv

/-- The stack page with the strings, when `n` bytes are in use. -/
def stringsPage : (n : Nat) → List (List Byte) → Bytes.Buf PGSIZE → Bytes.Buf PGSIZE
  | _, [], b => b
  | n, s :: argv, b =>
    stringsPage (n + room s) argv (Bytes.write b (PGSIZE - (n + room s)) (s ++ [0]))

/-- The stack page with the frame as well. -/
def argsPage (sz : Nat) (argv : List (List Byte)) (b : Bytes.Buf PGSIZE) : Bytes.Buf PGSIZE :=
  Bytes.write (stringsPage 0 argv b) (PGSIZE - need argv)
    ((frameWords argv.length (BitVec.ofNat 32 (sz - used argv)) (pointers sz 0 argv)).flatMap
      wordBytes)

theorem length_lt_room (s : List Byte) : s.length < room s := by
  unfold room
  omega

theorem length_pointers (sz : Nat) : ∀ (n : Nat) (argv : List (List Byte)),
    (pointers sz n argv).length = argv.length
  | _, [] => rfl
  | n, s :: argv => by simp [pointers, length_pointers sz (n + room s) argv]

@[simp] theorem length_wordBytes (w : Word) : (wordBytes w).length = 4 := by
  simp [wordBytes]

theorem length_flatMap_wordBytes (ws : List Word) :
    (ws.flatMap wordBytes).length = 4 * ws.length := by
  induction ws with
  | nil => rfl
  | cons w ws ih =>
    rw [List.flatMap_cons, List.length_append, ih, length_wordBytes, List.length_cons]
    omega

theorem length_frameWords (argc : Nat) (sp : Word) (ptrs : List Word) :
    (frameWords argc sp ptrs).length = ptrs.length + 4 := by
  simp [frameWords]

/-- The words of a sequence, one by one. -/
theorem holds_words {b : Bytes.Buf PGSIZE} {w : Word} (ws : List Word) : ∀ {off k : Nat},
    Bytes.Holds b off (ws.flatMap wordBytes) → ws[k]? = some w →
    Bytes.Holds b (off + 4 * k) (wordBytes w) := by
  induction ws with
  | nil =>
    intro off k _ hk
    simp at hk
  | cons w₁ ws ih =>
    intro off k h hk
    rw [List.flatMap_cons, Bytes.holds_append, length_wordBytes] at h
    cases k with
    | zero =>
      obtain rfl : w₁ = w := by simpa using hk
      exact h.1
    | succ k =>
      have hrest := ih h.2 (by simpa using hk)
      have hsum : off + 4 * (k + 1) = off + 4 + 4 * k := by omega
      rw [hsum]
      exact hrest

/-- Pushing strings leaves the bytes in use as they are. -/
theorem stringsPage_holds_above {o : Nat} {q : List Byte} (argv : List (List Byte)) :
    ∀ {n : Nat} {b : Bytes.Buf PGSIZE}, n + used argv ≤ PGSIZE → PGSIZE - n ≤ o →
    Bytes.Holds b o q → Bytes.Holds (stringsPage n argv b) o q := by
  induction argv with
  | nil =>
    intro n b _ _ h
    exact h
  | cons s argv ih =>
    intro n b hn ho h
    rw [used_cons] at hn
    have hroom := length_lt_room s
    refine ih (by omega) (by omega) (h.write (Or.inr ?_))
    simp only [List.length_append, List.length_singleton]
    omega

/-- The `i`-th string is where the `i`-th pointer points, and the strings
    are one below the other. -/
theorem stringsPage_string {sz : Nat} {p : Word} (hsz : PGSIZE ≤ sz) (hlt : sz < 2 ^ 32)
    (argv : List (List Byte)) :
    ∀ {n i : Nat} {b : Bytes.Buf PGSIZE}, n + used argv ≤ PGSIZE → argv[i]? = some s →
    (pointers sz n argv)[i]? = some p →
    sz - (n + used argv) ≤ p.toNat ∧ p.toNat + s.length + 1 ≤ sz - n ∧
    Bytes.Holds (stringsPage n argv b) (PGSIZE - (sz - p.toNat)) (s ++ [0]) := by
  induction argv with
  | nil =>
    intro n i b _ hs _
    simp at hs
  | cons s₁ argv ih =>
    intro n i b hn hs hp
    rw [used_cons] at hn ⊢
    have hroom := length_lt_room s₁
    cases i with
    | zero =>
      obtain rfl : s₁ = s := by simpa using hs
      obtain rfl : BitVec.ofNat 32 (sz - (n + room s₁)) = p := by simpa [pointers] using hp
      rw [BitVec.toNat_ofNat, Nat.mod_eq_of_lt (by omega)]
      refine ⟨by omega, by omega, ?_⟩
      have hoff : PGSIZE - (sz - (sz - (n + room s₁))) = PGSIZE - (n + room s₁) := by omega
      rw [hoff]
      refine stringsPage_holds_above argv (by omega) (Nat.le_refl _) (Bytes.holds_write _ _ _ ?_)
      simp only [List.length_append, List.length_singleton]
      omega
    | succ i =>
      obtain ⟨hlow, hhigh, hholds⟩ :=
        ih (n := n + room s₁) (i := i) (b := Bytes.write b (PGSIZE - (n + room s₁)) (s₁ ++ [0]))
          (by omega) (by simpa using hs) (by simpa [pointers] using hp)
      exact ⟨by omega, by omega, hholds⟩

theorem pointers_disjoint {sz : Nat} {t : List Byte} {p q : Word} (hsz : PGSIZE ≤ sz)
    (hlt : sz < 2 ^ 32) (argv : List (List Byte)) : ∀ {n i j : Nat}, n + used argv ≤ PGSIZE →
    i < j → argv[i]? = some s → argv[j]? = some t → (pointers sz n argv)[i]? = some p →
    (pointers sz n argv)[j]? = some q → q.toNat + t.length + 1 ≤ p.toNat := by
  induction argv with
  | nil =>
    intro n i j _ _ hs
    simp at hs
  | cons s₁ argv ih =>
    intro n i j hn hij hs ht hp hq
    rw [used_cons] at hn
    obtain ⟨j, rfl⟩ : ∃ k, j = k + 1 := ⟨j - 1, by omega⟩
    cases i with
    | zero =>
      obtain rfl : BitVec.ofNat 32 (sz - (n + room s₁)) = p := by simpa [pointers] using hp
      rw [BitVec.toNat_ofNat, Nat.mod_eq_of_lt (by omega)]
      exact (stringsPage_string hsz hlt argv (n := n + room s₁) (b := fun _ => 0) (by omega)
        (by simpa using ht) (by simpa [pointers] using hq)).2.1
    | succ i =>
      exact ih (n := n + room s₁) (i := i) (j := j) (by omega) (by omega) (by simpa using hs)
        (by simpa using ht) (by simpa [pointers] using hp) (by simpa [pointers] using hq)

theorem length_frame (sz : Nat) (sp : Word) (argv : List (List Byte)) :
    ((frameWords argv.length sp (pointers sz 0 argv)).flatMap wordBytes).length =
      4 * (argv.length + 4) := by
  rw [length_flatMap_wordBytes, length_frameWords, length_pointers]

theorem argsPage_frame (sz : Nat) (b : Bytes.Buf PGSIZE) {argv : List (List Byte)}
    (hfits : need argv ≤ PGSIZE) :
    Bytes.Holds (argsPage sz argv b) (PGSIZE - need argv)
      ((frameWords argv.length (BitVec.ofNat 32 (sz - used argv)) (pointers sz 0 argv)).flatMap
        wordBytes) := by
  refine Bytes.holds_write _ _ _ ?_
  rw [length_frame]
  unfold need at hfits ⊢
  omega

/-- The frame is written below the strings. -/
theorem argsPage_string {sz i : Nat} {p : Word} {b : Bytes.Buf PGSIZE} {argv : List (List Byte)}
    (hsz : PGSIZE ≤ sz) (hlt : sz < 2 ^ 32) (hfits : need argv ≤ PGSIZE) (hs : argv[i]? = some s)
    (hp : (pointers sz 0 argv)[i]? = some p) :
    sz - used argv ≤ p.toNat ∧ p.toNat + s.length + 1 ≤ sz ∧
    Bytes.Holds (argsPage sz argv b) (PGSIZE - (sz - p.toNat)) (s ++ [0]) := by
  unfold need at hfits
  obtain ⟨hlow, hhigh, hholds⟩ := stringsPage_string hsz hlt argv (b := b) (by omega) hs hp
  rw [Nat.zero_add] at hlow
  rw [Nat.sub_zero] at hhigh
  refine ⟨hlow, hhigh, hholds.write (Or.inr ?_)⟩
  rw [length_frame, need]
  omega

/-! ### Stack pointers -/

theorem toNat_and_not_three (x : Word) : (x &&& ~~~3).toNat = x.toNat / 4 * 4 := by
  have hmask : ∀ i : Fin 32, (~~~3 : Word).getLsbD i = decide (2 ≤ i.val) := by decide
  have hshift : x &&& (~~~3 : Word) = x >>> 2 <<< 2 := by
    apply BitVec.eq_of_getLsbD_eq
    intro i hi
    rw [BitVec.getLsbD_and, hmask ⟨i, hi⟩, BitVec.getLsbD_shiftLeft, BitVec.getLsbD_ushiftRight]
    by_cases h2 : 2 ≤ i
    · have hsum : 2 + (i - 2) = i := by omega
      simp only [hsum, decide_eq_true h2, decide_eq_true hi, decide_eq_false (Nat.not_lt.mpr h2),
        Bool.and_true, Bool.true_and, Bool.not_false]
    · simp [h2, show i < 2 by omega]
  rw [hshift, BitVec.toNat_shiftLeft, BitVec.toNat_ushiftRight, Nat.shiftLeft_eq,
    Nat.shiftRight_eq_div_pow]
  have := x.isLt
  omega

/-- A string that ends below the stack pointer. -/
theorem toNat_pushed {sp : Word} (h4 : 4 ∣ sp.toNat) (hs : s.length + 1 ≤ sp.toNat) :
    (pushed sp s).toNat = sp.toNat - room s := by
  have := sp.isLt
  rw [pushed, toNat_and_not_three, BitVec.toNat_sub, BitVec.toNat_ofNat, room]
  omega

/-- A string that is longer than that wraps the stack pointer around. -/
theorem toNat_pushed_wrapped (sp : Word) (s : List Byte) (hs : sp.toNat < s.length + 1)
    (hlen : s.length + 1 ≤ KERNBASE) :
    (pushed sp s).toNat = (2 ^ 32 + sp.toNat - (s.length + 1)) / 4 * 4 := by
  simp only [KERNBASE] at hlen
  rw [pushed, toNat_and_not_three, BitVec.toNat_sub, BitVec.toNat_ofNat]
  omega

/-! ### What `copyout` does -/

variable {m m' : Mem} {d x : Page} {va : Word} {p : List Byte} {v : Nat}

theorem setPage_setPage (b b' : Bytes.Buf PGSIZE) :
    (m.setPage x b).setPage x b' = m.setPage x b' := by
  simp [setPage]

@[simp] theorem contents_setPage_self (b : Bytes.Buf PGSIZE) : (m.setPage x b).contents x = b := by
  simp [setPage]

/-- Only contents of pages differ. -/
def SameMap (m m' : Mem) : Prop := m'.dirs = m.dirs ∧ m'.free = m.free

theorem SameMap.trans {m'' : Mem} (h : SameMap m m') (h' : SameMap m' m'') : SameMap m m'' :=
  ⟨h'.1.trans h.1, h'.2.trans h.2⟩

theorem sameMap_setPage (b : Bytes.Buf PGSIZE) : SameMap m (m.setPage x b) := ⟨rfl, rfl⟩

theorem uva2ka_congr (h : SameMap m m') : m'.uva2ka d v = m.uva2ka d v := by
  unfold uva2ka
  rw [h.1]

theorem uva2ka_of_pte (hd : m.dirs d = some D) (hp : D.pte v = some e) :
    m.uva2ka d v = .ok (if e.u then some e.ppn else none) := by
  unfold uva2ka
  rw [hd]
  cases ht : D.ptab (PDX v) with
  | none =>
    rw [D.absent v ht] at hp
    cases hp
  | some y => simp only [ht, hp]

theorem copyout_nil : m.copyout d va [] = .ok (true, m) := by
  rw [copyout, if_pos rfl]

theorem copyout_error {e : Panic} (hp : p ≠ []) (hu : m.uva2ka d (va.toNat / PGSIZE) = .error e) :
    m.copyout d va p = .error e := by
  rw [copyout, if_neg hp, hu]

theorem copyout_refused (hp : p ≠ []) (hu : m.uva2ka d (va.toNat / PGSIZE) = .ok none) :
    m.copyout d va p = .ok (false, m) := by
  rw [copyout, if_neg hp, hu]

/-- A copy into one page. -/
theorem copyout_page (va : Word) (hp : p ≠ []) (hu : m.uva2ka d (va.toNat / PGSIZE) = .ok (some x))
    (hin : va.toNat % PGSIZE + p.length ≤ PGSIZE) :
    m.copyout d va p =
      .ok (true, m.setPage x (Bytes.write (m.contents x) (va.toNat % PGSIZE) p)) := by
  have hmin : min (PGSIZE - va.toNat % PGSIZE) p.length = p.length := by omega
  rw [copyout, if_neg hp, hu]
  simp only [hmin, List.take_length, List.drop_length]
  exact copyout_nil

/-! ### Stores one after the other -/

/-- The bytes of `p` are stored at user addresses `a, a + 1, ...`, modulo
    `2^32`. -/
def storeBytes (m : Mem) (d : Page) (a : Nat) : List Byte → Mem
  | [] => m
  | b :: p => storeBytes (m.storeByte d (a % 2 ^ 32) b) d (a + 1) p

/-- The page of byte `i` of a range at `a`. -/
def pageAt (a i : Nat) : Nat := (a + i) % 2 ^ 32 / PGSIZE

theorem pageAt_congr {a b i j : Nat} (h : (a + i) % 2 ^ 32 = (b + j) % 2 ^ 32) :
    pageAt a i = pageAt b j := by
  unfold pageAt
  rw [h]

theorem storeByte_eq {a : Nat} {b : Byte} (hd : m.dirs d = some D)
    (hp : D.pte (a / PGSIZE) = some e) :
    m.storeByte d a b = m.setPage e.ppn (Bytes.write (m.contents e.ppn) (a % PGSIZE) [b]) := by
  simp only [storeByte, hd, Option.bind_some, hp, setPage, Bytes.write, List.length_singleton]
  congr 2
  funext i
  simp only [Bytes.splice]
  split
  · next hin =>
    have hi : i.val - a % PGSIZE = 0 := by omega
    rw [hi]
    rfl
  · rfl

theorem sameMap_storeByte (a : Nat) (b : Byte) : SameMap m (m.storeByte d a b) := by
  unfold storeByte
  split
  · exact ⟨rfl, rfl⟩
  · exact ⟨rfl, rfl⟩

theorem sameMap_storeBytes (p : List Byte) : ∀ (m : Mem) (a : Nat), SameMap m (m.storeBytes d a p) := by
  induction p with
  | nil => exact fun m a => ⟨rfl, rfl⟩
  | cons b p ih => exact fun m a => (sameMap_storeByte _ b).trans (ih _ _)

theorem storeBytes_congr (p : List Byte) : ∀ (m : Mem) {a a' : Nat}, a % 2 ^ 32 = a' % 2 ^ 32 →
    m.storeBytes d a p = m.storeBytes d a' p := by
  induction p with
  | nil => exact fun m a a' _ => rfl
  | cons b p ih =>
    intro m a a' h
    rw [storeBytes, storeBytes, h]
    exact ih _ (by omega)

theorem storeBytes_append (p q : List Byte) : ∀ (m : Mem) (a : Nat),
    m.storeBytes d a (p ++ q) = (m.storeBytes d a p).storeBytes d (a + p.length) q := by
  induction p with
  | nil => exact fun m a => rfl
  | cons b p ih =>
    intro m a
    rw [List.cons_append, storeBytes, ih, storeBytes, List.length_cons, Nat.add_assoc,
      Nat.add_comm 1]

/-- Stores to one page are one `memmove`. -/
theorem storeBytes_page (p : List Byte) : ∀ {m : Mem} {a : Nat},
    m.dirs d = some D → a < 2 ^ 32 → D.pte (a / PGSIZE) = some e → a % PGSIZE + p.length ≤ PGSIZE →
    m.storeBytes d a p = m.setPage e.ppn (Bytes.write (m.contents e.ppn) (a % PGSIZE) p) := by
  induction p with
  | nil =>
    intro m a _ _ _ _
    have hsame : Bytes.write (m.contents e.ppn) (a % PGSIZE) [] = m.contents e.ppn := by
      funext i
      simp only [Bytes.write, Bytes.splice, List.length_nil]
      rw [if_neg (by omega)]
    rw [hsame]
    simp [storeBytes, setPage]
  | cons b p ih =>
    intro m a hd ha hp hin
    rw [List.length_cons] at hin
    rw [storeBytes, Nat.mod_eq_of_lt ha, storeByte_eq hd hp]
    cases p with
    | nil => rfl
    | cons c p =>
      have hdiv : (a + 1) / PGSIZE = a / PGSIZE := by
        simp only [List.length_cons, PGSIZE] at hin ⊢
        omega
      have hmod : (a + 1) % PGSIZE = a % PGSIZE + 1 := by
        simp only [List.length_cons, PGSIZE] at hin ⊢
        omega
      have hrest := ih (m := m.setPage e.ppn (Bytes.write (m.contents e.ppn) (a % PGSIZE) [b]))
        (a := a + 1) hd (by simp only [List.length_cons, PGSIZE] at hin; omega)
        (by rw [hdiv]; exact hp) (by rw [hmod]; omega)
      rw [hrest, setPage_setPage, contents_setPage_self, hmod]
      exact congrArg _ (Bytes.write_append _ _ [b] (c :: p)).symm

/-- A page that the stores do not go to is as it was. -/
theorem storeBytes_kept (p : List Byte) : ∀ {m : Mem} {a : Nat} {j : Nat},
    m.dirs d = some D → (∀ i e, i < p.length → D.pte (pageAt a i) = some e → e.ppn = x →
      j ≠ (a + i) % PGSIZE) → ((m.storeBytes d a p).contents x).get j = (m.contents x).get j := by
  induction p with
  | nil => exact fun _ _ => rfl
  | cons b p ih =>
    intro m a j hd hno
    have hd₁ := (sameMap_storeByte (m := m) (d := d) (a % 2 ^ 32) b).1
    have hrest := ih (m := m.storeByte d (a % 2 ^ 32) b) (a := a + 1) (j := j) (by rw [hd₁]; exact hd)
      (fun i e hi hp hx => by
        have hi' : i + 1 < (b :: p).length := Nat.succ_lt_succ hi
        have h1 : a + 1 + i = a + (i + 1) := by omega
        rw [h1]
        refine hno (i + 1) e hi' ?_ hx
        rw [← hp, pageAt, pageAt, h1])
    rw [storeBytes, hrest]
    cases hp : D.pte (a % 2 ^ 32 / PGSIZE) with
    | none => simp only [storeByte, hd, Option.bind_some, hp]
    | some e =>
      rw [storeByte_eq hd hp]
      by_cases hx : e.ppn = x
      · subst hx
        rw [contents_setPage_self, Bytes.write]
        have hne := hno 0 e (Nat.succ_pos _) hp rfl
        have hmod : a % 2 ^ 32 % PGSIZE = a % PGSIZE := by
          simp only [PGSIZE]
          omega
        rw [Nat.add_zero, ← hmod] at hne
        rcases Nat.lt_or_gt_of_ne hne with hlt | hgt
        · exact Bytes.get_splice_of_lt _ _ _ _ hlt
        · exact Bytes.get_splice_of_ge _ _ _ _ hgt
      · exact congrArg (fun c => Bytes.Buf.get c j) (Function.update_of_ne (Ne.symm hx) _ _)

/-! ### What `copyout` does, in general -/

/-- Byte `i` of a range at `a` is in a page with `PTE_U`. -/
def UserByte (D : PageDir) (a i : Nat) : Prop := ∃ e, D.pte (pageAt a i) = some e ∧ e.u = true

theorem uva2ka_cases (hd : m.dirs d = some D) (v : Nat) :
    (D.ptab (PDX v) = none ∧ m.uva2ka d v = .error .wild) ∨
    ((D.ptab (PDX v)).isSome ∧ (∀ e, D.pte v = some e → e.u = false) ∧ m.uva2ka d v = .ok none) ∨
    ∃ e, D.pte v = some e ∧ e.u = true ∧ m.uva2ka d v = .ok (some e.ppn) := by
  unfold uva2ka
  simp only [hd]
  cases ht : D.ptab (PDX v) with
  | none => exact Or.inl ⟨rfl, rfl⟩
  | some y =>
    cases hp : D.pte v with
    | none => exact Or.inr (Or.inl ⟨rfl, by simp, rfl⟩)
    | some e =>
      cases hu : e.u with
      | false =>
        refine Or.inr (Or.inl ⟨rfl, fun e' he' => ?_, by simp [hu]⟩)
        rw [← Option.some.inj he', hu]
      | true => exact Or.inr (Or.inr ⟨e, rfl, hu, by simp [hu]⟩)

/-- **`copyout`** stores the bytes in order, until it comes to an address that
    it refuses or for which there is no page table. -/
theorem copyout_spec (m : Mem) (d : Page) (va : Word) (p : List Byte) (hd : m.dirs d = some D) :
    ∃ k, k ≤ p.length ∧ (∀ i, i < k → UserByte D va.toNat i) ∧
      ((k = p.length ∧ m.copyout d va p = .ok (true, m.storeBytes d va.toNat p)) ∨
      (k < p.length ∧ m.uva2ka d (pageAt va.toNat k) = .ok none ∧
        m.copyout d va p = .ok (false, m.storeBytes d va.toNat (p.take k))) ∨
      (k < p.length ∧ D.ptab (PDX (pageAt va.toNat k)) = none ∧ m.copyout d va p = .error .wild)) := by
  have hzero : ∀ va : Word, pageAt va.toNat 0 = va.toNat / PGSIZE := fun va => by
    rw [pageAt, Nat.add_zero, Nat.mod_eq_of_lt va.isLt]
  fun_induction copyout m d va p with
  | case1 m va => exact ⟨0, Nat.le_refl _, nofun, Or.inl ⟨rfl, rfl⟩⟩
  | case2 m va p hp err hu =>
    refine ⟨0, Nat.zero_le _, nofun, Or.inr (Or.inr ⟨List.length_pos_iff.mpr hp, ?_⟩)⟩
    rw [hzero]
    rcases uva2ka_cases hd (va.toNat / PGSIZE) with ⟨ht, hw⟩ | ⟨_, _, hw⟩ | ⟨e, _, _, hw⟩
    · rw [hu] at hw
      obtain rfl := Except.error.inj hw
      exact ⟨ht, rfl⟩
    · rw [hu] at hw
      cases hw
    · rw [hu] at hw
      cases hw
  | case3 m va p hp hu =>
    refine ⟨0, Nat.zero_le _, nofun, Or.inr (Or.inl ⟨List.length_pos_iff.mpr hp, ?_, rfl⟩)⟩
    rw [hzero]
    exact hu
  | case4 m va p hp x hu off n ih =>
    -- `n` bytes go to this page, and if there are more it is full
    have hn : n ≤ p.length := Nat.min_le_right _ _
    have hva := va.isLt
    have hoff : off + n ≤ PGSIZE := by
      have : off < PGSIZE := Nat.mod_lt _ (by decide)
      omega
    have hfull : n < p.length → off + n = PGSIZE := by omega
    obtain ⟨e, hpte, hue, rfl⟩ : ∃ e, D.pte (va.toNat / PGSIZE) = some e ∧ e.u = true ∧ e.ppn = x := by
      rcases uva2ka_cases hd (va.toNat / PGSIZE) with ⟨_, hw⟩ | ⟨_, _, hw⟩ | ⟨e, h1, h2, hw⟩
      · rw [hu] at hw
        cases hw
      · rw [hu] at hw
        cases hw
      · rw [hu] at hw
        exact ⟨e, h1, h2, (Option.some.inj (Except.ok.inj hw)).symm⟩
    have hlen : (p.take n).length = n := List.length_take_of_le hn
    have hpage := storeBytes_page (p.take n) hd hva hpte (by rw [hlen]; exact hoff)
    have hhere : ∀ i, i < n → pageAt va.toNat i = va.toNat / PGSIZE := by
      intro i hi
      have hoff' : va.toNat % PGSIZE + n ≤ PGSIZE := hoff
      simp only [pageAt, PGSIZE] at hoff' ⊢
      omega
    have hnext : n < p.length →
        (va.toNat + n) % 2 ^ 32 = (BitVec.ofNat 32 ((va.toNat / PGSIZE + 1) * PGSIZE)).toNat % 2 ^ 32 := by
      intro hlt
      have hoff' : va.toNat % PGSIZE + n = PGSIZE := hfull hlt
      rw [BitVec.toNat_ofNat]
      simp only [PGSIZE] at hoff' ⊢
      omega
    generalize (BitVec.ofNat 32 ((va.toNat / PGSIZE + 1) * PGSIZE)) = va' at ih hnext ⊢
    have hjoin : ∀ q, (q ≠ [] → n < p.length) →
        (m.storeBytes d va.toNat (p.take n)).storeBytes d va'.toNat q =
          m.storeBytes d va.toNat (p.take n ++ q) := by
      intro q hq
      rw [storeBytes_append, hlen]
      cases q with
      | nil => rfl
      | cons b q => exact storeBytes_congr _ _ (hnext (hq (by simp))).symm
    rw [← hpage] at ih ⊢
    obtain ⟨k, hk, huser, hres⟩ := ih (by rw [(sameMap_storeBytes _ m _).1]; exact hd)
    rw [List.length_drop] at hk hres
    have hmore : ∀ j, n < p.length → pageAt va'.toNat j = pageAt va.toNat (n + j) := fun j hlt => by
      refine pageAt_congr ?_
      have := hnext hlt
      omega
    have hcongr := uva2ka_congr (d := d) (v := pageAt va.toNat (n + k))
      (sameMap_storeBytes (d := d) (p.take n) m va.toNat)
    refine ⟨n + k, by omega, fun i hi => ?_, ?_⟩
    · by_cases hin : i < n
      · exact ⟨e, by rw [hhere i hin]; exact hpte, hue⟩
      · obtain ⟨e', he', hu'⟩ := huser (i - n) (by omega)
        rw [hmore _ (by omega), Nat.add_sub_cancel' (Nat.le_of_not_lt hin)] at he'
        exact ⟨e', he', hu'⟩
    · rcases hres with ⟨hk, hc⟩ | ⟨hk, hno, hc⟩ | ⟨hk, hno, hc⟩
      · refine Or.inl ⟨by omega, ?_⟩
        rw [hc, hjoin _ (fun hne => ?_), List.take_append_drop]
        exact Nat.lt_of_not_le (fun hle => hne (List.drop_eq_nil_of_le hle))
      · refine Or.inr (Or.inl ⟨by omega, ?_, ?_⟩)
        · rw [← hcongr, ← hmore k (by omega)]
          exact hno
        · rw [hc, hjoin _ (fun _ => by omega), List.take_add]
      · refine Or.inr (Or.inr ⟨by omega, ?_, hc⟩)
        rw [← hmore k (by omega)]
        exact hno

/-- The bytes of `q` have been stored at user addresses `a, a + 1, ...`, and
    no other byte has changed. Where two addresses are the same byte of
    memory, the later one counts. -/
structure Stores (D : PageDir) (a : Nat) (q : List Byte) (m m' : Mem) : Prop where
  map : SameMap m m'
  stored : ∀ i b e, q[i]? = some b → D.pte (pageAt a i) = some e →
    (∀ j e', i < j → j < q.length → D.pte (pageAt a j) = some e' → e'.ppn = e.ppn →
      (a + i) % PGSIZE ≠ (a + j) % PGSIZE) →
    (m'.contents e.ppn).get ((a + i) % PGSIZE) = b
  kept : ∀ x j, (∀ i e, i < q.length → D.pte (pageAt a i) = some e → e.ppn = x →
    j ≠ (a + i) % PGSIZE) → (m'.contents x).get j = (m.contents x).get j

theorem stores_storeBytes (hd : m.dirs d = some D) (a : Nat) (q : List Byte) :
    Stores D a q m (m.storeBytes d a q) := by
  refine ⟨sameMap_storeBytes q m a, fun i b e hb hp hlast => ?_, fun x j hno => storeBytes_kept q hd hno⟩
  obtain ⟨hi, hb⟩ := List.getElem?_eq_some_iff.mp hb
  have hsplit : q = (q.take i ++ [b]) ++ q.drop (i + 1) := by
    rw [← hb, List.take_append_getElem, List.take_append_drop]
  have hlen : (q.take i ++ [b]).length = i + 1 := by
    rw [List.length_append, List.length_take_of_le (Nat.le_of_lt hi), List.length_singleton]
  have hdirs : ∀ p, (m.storeBytes d a p).dirs d = some D := fun p => by
    rw [(sameMap_storeBytes p m a).1]
    exact hd
  rw [hsplit, storeBytes_append, hlen, storeBytes_kept _ (hdirs _)]
  · -- the byte itself
    have hpage : D.pte ((a + i) % 2 ^ 32 / PGSIZE) = some e := hp
    have hmod : (a + i) % 2 ^ 32 % PGSIZE = (a + i) % PGSIZE := by
      simp only [PGSIZE]
      omega
    rw [storeBytes_append, List.length_take_of_le (Nat.le_of_lt hi), storeBytes,
      storeByte_eq (hdirs _) hpage, storeBytes, contents_setPage_self, hmod]
    have hin : (a + i) % PGSIZE < PGSIZE := Nat.mod_lt _ (by decide)
    exact Bytes.holds_write _ _ [b] hin 0 b rfl
  · intro j e' hj hp' hx
    rw [List.length_drop] at hj
    have hsum : a + (i + 1) + j = a + (i + 1 + j) := by omega
    rw [hsum]
    refine hlast (i + 1 + j) e' (by omega) (by omega) ?_ hx
    rw [← hp', pageAt, pageAt, hsum]

/-- What a caller of `copyout` relies on: if the whole range is in pages with
    `PTE_U` it is copied, and if not then a part of it and the result is
    `-1`. -/
structure CopyoutExact (m : Mem) (d : Page) (D : PageDir) (va : Word) (p : List Byte) : Prop where
  whole : (∀ i, i < p.length → UserByte D va.toNat i) →
    ∃ m', m.copyout d va p = .ok (true, m') ∧ Stores D va.toNat p m m'
  part : (∃ i, i < p.length ∧ ¬ UserByte D va.toNat i) →
    ∃ k m', k < p.length ∧ m.copyout d va p = .ok (false, m') ∧
      Stores D va.toNat (p.take k) m m'

/-- **`copyout`** does this for every directory, address and length if and
    only if no address that it comes to is without a page table; it comes to
    an address when everything before it is in pages with `PTE_U`. Otherwise
    it follows a null pointer. -/
theorem copyout_exact_iff {D : PageDir} (hd : m.dirs d = some D) (va : Word) (p : List Byte) :
    (CopyoutExact m d D va p ↔ ∀ i, i < p.length → (∀ j, j < i → UserByte D va.toNat j) →
      (D.ptab (PDX (pageAt va.toNat i))).isSome) ∧
    (¬ CopyoutExact m d D va p → m.copyout d va p = .error .wild) := by
  obtain ⟨k, hk, huser, hres⟩ := copyout_spec m d va p hd
  have hnot : ∀ i, m.uva2ka d (pageAt va.toNat i) = .ok none → ¬ UserByte D va.toNat i := by
    rintro i hno ⟨e, hp, hu⟩
    rw [uva2ka_of_pte hd hp, hu] at hno
    cases hno
  rcases hres with ⟨rfl, hc⟩ | ⟨hlt, hno, hc⟩ | ⟨hlt, hno, hc⟩
  · have hex : CopyoutExact m d D va p := by
      refine ⟨fun _ => ⟨_, hc, stores_storeBytes hd _ _⟩, ?_⟩
      rintro ⟨i, hi, hbad⟩
      exact absurd (huser i hi) hbad
    refine ⟨⟨fun _ i hi _ => ?_, fun _ => hex⟩, fun h => absurd hex h⟩
    obtain ⟨e, hp, _⟩ := huser i hi
    exact PageDir.table_of_pte hp
  · have hex : CopyoutExact m d D va p :=
      ⟨fun hall => absurd (hall k hlt) (hnot k hno),
        fun _ => ⟨k, _, hlt, hc, stores_storeBytes hd _ _⟩⟩
    refine ⟨⟨fun _ i hi hbefore => ?_, fun _ => hex⟩, fun h => absurd hex h⟩
    rcases Nat.lt_trichotomy i k with hik | rfl | hik
    · obtain ⟨e, hp, _⟩ := huser i hik
      exact PageDir.table_of_pte hp
    · rcases uva2ka_cases hd (pageAt va.toNat i) with ⟨_, hw⟩ | ⟨ht, _⟩ | ⟨e, hp, _⟩
      · rw [hno] at hw
        cases hw
      · exact ht
      · exact PageDir.table_of_pte hp
    · exact absurd (hbefore k hik) (hnot k hno)
  · -- it follows a null pointer at byte `k`
    have hbad : ¬ CopyoutExact m d D va p := by
      intro hex
      by_cases hall : ∀ i, i < p.length → UserByte D va.toNat i
      · obtain ⟨m', hc', _⟩ := hex.whole hall
        rw [hc] at hc'
        cases hc'
      · push Not at hall
        obtain ⟨_, m', _, hc', _⟩ := hex.part hall
        rw [hc] at hc'
        cases hc'
    refine ⟨⟨fun hex => absurd hex hbad, fun htab => ?_⟩, fun _ => hc⟩
    have := htab k hlt huser
    rw [hno] at this
    cases this

/-- A copy to the page of a directory with one page. -/
theorem copyout_exact_onePage :
    CopyoutExact ⟨[], fun _ => some secondPageDir, fun _ _ => 0⟩ 0x400 secondPageDir 0x1010 [1, 2] := by
  refine ((copyout_exact_iff rfl _ _).1).mpr (fun i hi _ => ?_)
  have hi' : i < 2 := hi
  have hcases : i = 0 ∨ i = 1 := by omega
  rcases hcases with rfl | rfl
  · decide
  · decide

/-- A copy to an address without a page table. -/
theorem copyout_not_exact :
    ∃ (m : Mem) (d : Page) (D : PageDir) (va : Word) (p : List Byte), m.dirs d = some D ∧
      m.copyout d va p = .error .wild ∧ ¬ CopyoutExact m d D va p := by
  have hwild : (⟨[], fun _ => some .empty, fun _ _ => 0⟩ : Mem).copyout 6 0 [1] = .error .wild :=
    copyout_error (by simp) rfl
  refine ⟨_, 6, .empty, 0, [1], rfl, hwild, fun hex => ?_⟩
  obtain ⟨k, m', _, hc, _⟩ := hex.part ⟨0, by decide, by rintro ⟨e, he, _⟩; cases he⟩
  rw [hwild] at hc
  cases hc

end Mem

end Vm

end Xv6
