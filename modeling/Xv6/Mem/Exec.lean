import Xv6.Mem.Build

/-! # Loading a Program

    The part of `exec` that builds the new address space, up to "Commit to
    the user image". What `exec` reads from the file system is an input: the
    program headers it finds, and what `readi` does to the pages of a
    segment. The arguments are pushed in `Xv6.Mem.Args`.
-/

namespace Xv6.Vm

open Ownership

/-! ### What `exec` reads -/

/-- A program header of type `ELF_PROG_LOAD`. `pages i` is what `readi` does
    to the `i`-th page of the segment; `none` if it reads fewer bytes than it
    is asked for. -/
structure Segment where
  vaddr : Nat
  memsz : Nat
  /-- It is a `uint`. -/
  memsz_lt : memsz < 2 ^ 32
  filesz : Nat
  pages : Nat → Option (Bytes.Buf PGSIZE → Bytes.Buf PGSIZE)

/-- A program header. -/
inductive ProgHdr where
  /-- `readi` did not return a whole header. -/
  | short
  /-- A header of another type. -/
  | other
  | load (seg : Segment)

/-- What `exec` finds. `stack sz` is the stack pointer and the contents of
    the stack page after the arguments have been pushed below `sz`; `none` if
    they do not fit. -/
structure ExecFile where
  /-- The file exists and starts with an ELF header. -/
  elf : Bool
  phdrs : List ProgHdr
  entry : Word
  stack : Nat → Option (Word × (Bytes.Buf PGSIZE → Bytes.Buf PGSIZE))

namespace Mem

/-! ### The loader -/

/-- Change the contents of the page that `d` maps at virtual page `v`. -/
def patch (m : Mem) (D : PageDir) (v : Nat) (f : Bytes.Buf PGSIZE → Bytes.Buf PGSIZE) : Mem :=
  let pp := ((D.pte v).map Pte.ppn).getD 0
  { m with contents := Function.update m.contents pp (f (m.contents pp)) }

/-- The loop of `loaduvm`: `n` pages, the next being the `i`-th. `false` is
    the result `-1`. -/
def loadLoop (d : Page) (seg : Segment) : (n : Nat) → Mem → (i : Nat) → Except Panic (Bool × Mem)
  | 0, m, _ => .ok (true, m)
  | n + 1, m, i =>
    let v := seg.vaddr / PGSIZE + i
    match m.dirs d with
    | none => .error .wild
    | some D =>
      match D.ptab (PDX v) with
      | none => .error .loaduvmNoAddress
      | some _ =>
        match seg.pages i with
        | none => .ok (false, m)
        | some f => loadLoop d seg n (m.patch D v f) (i + 1)

def loaduvm (m : Mem) (d : Page) (seg : Segment) : Except Panic (Bool × Mem) :=
  if seg.vaddr % PGSIZE ≠ 0 then .error .loaduvmNotAligned
  else m.loadLoop d seg (pgroundup seg.filesz) 0

/-- The body of the loop of `exec` for one segment. The new size, or `none`
    for `goto bad`. -/
def loadSegment (L : Layout) (m : Mem) (d : Page) (sz : Nat) (seg : Segment) :
    Except Panic (Option Nat × Mem) :=
  let top := (seg.vaddr + seg.memsz) % 2 ^ 32
  if seg.memsz < seg.filesz then .ok (none, m)
  else if top < seg.vaddr then .ok (none, m)
  else
    match m.allocuvm L d sz top with
    | .error e => .error e
    | .ok (0, m) => .ok (none, m)
    | .ok (sz + 1, m) =>
      if seg.vaddr % PGSIZE ≠ 0 then .ok (none, m)
      else
        match m.loaduvm d seg with
        | .error e => .error e
        | .ok (false, m) => .ok (none, m)
        | .ok (true, m) => .ok (some (sz + 1), m)

/-- The loop of `exec` over the program headers. -/
def loadAll (L : Layout) (d : Page) : List ProgHdr → Mem → (sz : Nat) →
    Except Panic (Option Nat × Mem)
  | [], m, sz => .ok (some sz, m)
  | .short :: _, m, _ => .ok (none, m)
  | .other :: phs, m, sz => loadAll L d phs m sz
  | .load seg :: phs, m, sz =>
    match m.loadSegment L d sz seg with
    | .error e => .error e
    | .ok (none, m) => .ok (none, m)
    | .ok (some sz, m) => loadAll L d phs m sz

end Mem

end Xv6.Vm
