import Xv6.Framework.Bytes

/-! # Constants

    The constants of `param.h`, `fs.h`, `mmu.h` and `memlayout.h` that the
    model uses, and the machine integers of `types.h`.
-/

namespace Xv6

/-- `uchar`. -/
abbrev Byte : Type := BitVec 8

/-- `uint`, and `int` read through `BitVec.toInt`. -/
abbrev Word : Type := BitVec 32

/-! ### `param.h` -/

/-- Maximum number of processes. -/
def NPROC : Nat := 64

/-- Maximum number of CPUs. -/
def NCPU : Nat := 8

/-- Open files per process. -/
def NOFILE : Nat := 16

/-- Open files per system. -/
def NFILE : Nat := 100

/-- Maximum number of active i-nodes. -/
def NINODE : Nat := 50

/-- Maximum number of blocks any file-system operation writes. -/
def MAXOPBLOCKS : Nat := 10

/-- Maximum number of data blocks in the on-disk log. -/
def LOGSIZE : Nat := MAXOPBLOCKS * 3

/-- Size of the disk block cache. -/
def NBUF : Nat := MAXOPBLOCKS * 3

/-- Size of the file system in blocks. -/
def FSSIZE : Nat := 1000

/-! ### `fs.h` -/

/-- Block size. -/
def BSIZE : Nat := 512

/-- Direct block addresses of an inode. -/
def NDIRECT : Nat := 12

/-- Block addresses in an indirect block. -/
def NINDIRECT : Nat := BSIZE / 4

/-- Maximum number of blocks of a file. -/
def MAXFILE : Nat := NDIRECT + NINDIRECT

/-- Inodes per block (`sizeof(struct dinode)` is 64). -/
def IPB : Nat := BSIZE / 64

/-- Bitmap bits per block. -/
def BPB : Nat := BSIZE * 8

/-- The contents of a disk block. -/
abbrev Block : Type := Bytes.Buf BSIZE

/-! ### `mmu.h` and `memlayout.h` -/

/-- Bytes mapped by a page. -/
def PGSIZE : Nat := 4096

/-- Page-directory entries per page directory. -/
def NPDENTRIES : Nat := 1024

/-- Page-table entries per page table. -/
def NPTENTRIES : Nat := 1024

/-- Start of extended memory. -/
def EXTMEM : Nat := 0x100000

/-- Top of physical memory. -/
def PHYSTOP : Nat := 0xE000000

/-- Other devices are at high addresses. -/
def DEVSPACE : Nat := 0xFE000000

/-- First kernel virtual address. -/
def KERNBASE : Nat := 0x80000000

/-- Address where the kernel is linked. -/
def KERNLINK : Nat := KERNBASE + EXTMEM

/-! ### `pipe.c` -/

/-- Bytes of a pipe's buffer. -/
def PIPESIZE : Nat := 512

/-! ### `fcntl.h` -/

def O_RDONLY : Nat := 0x000
def O_WRONLY : Nat := 0x001
def O_RDWR : Nat := 0x002
def O_CREATE : Nat := 0x200

/-! ### Physical pages, program images and panics -/

/-- A physical page, by its number. A kernel pointer to a page (`kstack`,
    `pgdir`) is an `Option Page`, with `none` for the null pointer. -/
abbrev Page : Type := Nat

/-- The address space `exec` has built and commits to. -/
structure ExecImage where
  pgdir : Page
  sz : Nat
  eip : Word
  esp : Word
  deriving DecidableEq

/-- The calls of `panic` in the code modelled here, and `wild` for a use of
    a page table that has been freed, on which the code's behaviour is not
    defined. -/
inductive Panic where
  /-- `"init exiting"` -/
  | initExiting
  /-- `"switchuvm: no kstack"` -/
  | switchuvmNoKstack
  /-- `"switchuvm: no pgdir"` -/
  | switchuvmNoPgdir
  /-- `"userinit: out of memory?"` -/
  | userinitOutOfMemory
  /-- `"remap"` -/
  | remap
  /-- `"kfree"` -/
  | kfree
  /-- `"freevm: no pgdir"` -/
  | freevmNoPgdir
  /-- `"clearpteu"` -/
  | clearpteu
  /-- `"copyuvm: pte should exist"` -/
  | copyuvmNoPte
  /-- `"copyuvm: page not present"` -/
  | copyuvmNotPresent
  /-- `"loaduvm: address should exist"` -/
  | loaduvmNoAddress
  /-- `"loaduvm: addr must be page aligned"` -/
  | loaduvmNotAligned
  | wild
  deriving DecidableEq, Repr

instance : NeZero NPROC := ⟨by decide⟩
instance : NeZero NCPU := ⟨by decide⟩
instance : NeZero BSIZE := ⟨by decide⟩
instance : NeZero PIPESIZE := ⟨by decide⟩
instance (priority := high) neZeroOne : NeZero 1 := ⟨by decide⟩
instance (priority := high) neZeroTwo : NeZero 2 := ⟨by decide⟩

theorem ninode_pos : 0 < NINODE := by decide

end Xv6
