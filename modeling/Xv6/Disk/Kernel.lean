import Xv6.Disk.Format

/-! # Blocks and Inodes in the Kernel (`fs.c`)

    The block allocator, the block map of an inode and the reading, writing and
    freeing of its contents. An in-memory inode is a `Dinode` that is passed
    along and comes back changed, as `ip` is changed through its pointer; the
    buffer cache and the log are a disk that changes at each `log_write`, and
    the blocks that are in the log since its last commit.

    A `panic` is an error. The loops over the bytes of a file run for at most as
    many rounds as there are bytes, since each round moves at least one.
-/

namespace Xv6.Disk

open Bytes

/-- The calls of `panic`. -/
inductive Halt where
  /-- `"balloc: out of blocks"` -/
  | outOfBlocks
  /-- `"freeing free block"` -/
  | freeingFree
  /-- `"ialloc: no inodes"` -/
  | noInodes
  /-- `"bmap: out of range"` -/
  | outOfRange
  /-- `"too big a transaction"` -/
  | tooBig
  deriving DecidableEq

/-- The disk behind the buffer cache, and `log.lh.block`. -/
structure Kern where
  disk : Image
  lh : List Nat

/-- What the kernel was configured with: the layout, the number of blocks that
    the log can take (`log.size - 1`), and the device functions of `devsw`, where
    `none` is the return value -1. -/
structure Config where
  layout : Layout
  logroom : Nat
  devread : BitVec 16 → Nat → Option (List Byte)
  devwrite : BitVec 16 → List Byte → Option Nat

variable (C : Config)

/-! ### The log -/

/-- `log_write(bp)`, for the buffer of block `b` with contents `blk`. -/
def log_write (s : Kern) (b : Nat) (blk : Block) : Except Halt Kern :=
  if C.logroom ≤ s.lh.length then .error .tooBig
  else .ok
    { disk := Function.update s.disk b blk
      lh := if b ∈ s.lh then s.lh else s.lh ++ [b] }

/-! ### Blocks -/

/-- The loops of `balloc`: the first block whose bit is not set. -/
def firstFree (d : Image) : Option Nat :=
  (List.range C.layout.size).find? (fun b => !used C.layout d b)

def bzero (s : Kern) (b : Nat) : Except Halt Kern := log_write C s b (fun _ => 0)

def balloc (s : Kern) : Except Halt (Nat × Kern) :=
  match firstFree C s.disk with
  | none => .error .outOfBlocks
  | some b => do
    let s ← log_write C s (C.layout.bblock b) (setBit (s.disk (C.layout.bblock b)) (b % BPB))
    let s ← bzero C s b
    return (b, s)

def bfree (s : Kern) (b : Nat) : Except Halt Kern :=
  if used C.layout s.disk b then
    log_write C s (C.layout.bblock b) (clearBit (s.disk (C.layout.bblock b)) (b % BPB))
  else .error .freeingFree

/-! ### Inodes -/

/-- `iupdate(ip)`, for the inode with number `i`. -/
def iupdate (s : Kern) (i : Nat) (x : Dinode) : Except Halt Kern :=
  log_write C s (C.layout.iblock i)
    (putDinode (s.disk (C.layout.iblock i)) (i % IPB) x)

/-- An inode as `ialloc` leaves it on the disk. -/
def blankDinode (type : BitVec 16) : Dinode where
  type := type
  major := 0
  minor := 0
  nlink := 0
  size := 0
  addrs := fun _ => 0

/-- The loop of `ialloc`: the first inode whose type is zero. -/
def firstInode (d : Image) : Option Nat :=
  (List.range' 1 (C.layout.ninodes - 1)).find? (fun i => decide ((dinode C.layout d i).type = 0))

/-- `ialloc(dev, type)`, up to its `iget`. -/
def ialloc (s : Kern) (type : BitVec 16) : Except Halt (Nat × Kern) :=
  match firstInode C s.disk with
  | none => .error .noInodes
  | some i => do
    let s ← iupdate C s i (blankDinode type)
    return (i, s)

/-! ### The block map -/

/-- The first half of the indirect branch of `bmap`: load the indirect block,
    allocating if necessary. -/
def bmapRoot (s : Kern) (x : Dinode) : Except Halt (Dinode × Kern) :=
  if x.addr NDIRECT = 0 then do
    let (a, s) ← balloc C s
    return (x.setAddr NDIRECT (BitVec.ofNat 32 a), s)
  else return (x, s)

/-- The second half: the entry `j` of the indirect block `ind`. -/
def bmapEntry (s : Kern) (ind j : Nat) : Except Halt (Nat × Kern) :=
  if entry (s.disk ind) j = 0 then do
    let blk := s.disk ind
    let (a, s) ← balloc C s
    let s ← log_write C s ind (setEntry blk j (BitVec.ofNat 32 a))
    return (a, s)
  else return ((entry (s.disk ind) j).toNat, s)

def bmap (s : Kern) (x : Dinode) (bn : Nat) : Except Halt (Nat × Dinode × Kern) :=
  if bn < NDIRECT then
    if x.addr bn = 0 then do
      let (a, s) ← balloc C s
      return (a, x.setAddr bn (BitVec.ofNat 32 a), s)
    else return ((x.addr bn).toNat, x, s)
  else if bn - NDIRECT < NINDIRECT then do
    let (x, s) ← bmapRoot C s x
    let (a, s) ← bmapEntry C s (x.addr NDIRECT).toNat (bn - NDIRECT)
    return (a, x, s)
  else .error .outOfRange

/-! ### Contents -/

/-- The bytes that one round of the loops of `readi` and `writei` moves. -/
def chunk (off n : Nat) : Nat := min n (BSIZE - off % BSIZE)

/-- The loop of `readi`. -/
def readLoop : Nat → Kern → Dinode → Nat → Nat → Except Halt (List Byte × Dinode × Kern)
  | 0, s, x, _, _ => return ([], x, s)
  | fuel + 1, s, x, off, n =>
    if n = 0 then return ([], x, s)
    else do
      let (a, x, s) ← bmap C s x (off / BSIZE)
      let m := chunk off n
      let bytes := (List.range m).map (fun i => (s.disk a).get (off % BSIZE + i))
      let (rest, x, s) ← readLoop fuel s x (off + m) (n - m)
      return (bytes ++ rest, x, s)

/-- `readi(ip, dst, off, n)`; `none` for the return value -1. -/
def readi (s : Kern) (x : Dinode) (off n : Nat) :
    Except Halt (Option (List Byte) × Dinode × Kern) :=
  if x.type = T_DEV then return (C.devread x.major n, x, s)
  else if x.size.toNat < off ∨ (off + n) % 4294967296 < off then return (none, x, s)
  else do
    let n := if x.size.toNat < (off + n) % 4294967296 then x.size.toNat - off else n
    let (bytes, x, s) ← readLoop C n s x off n
    return (some bytes, x, s)

/-- The loop of `writei`. -/
def writeLoop : Nat → Kern → Dinode → Nat → List Byte → Except Halt (Dinode × Kern)
  | 0, s, x, _, _ => return (x, s)
  | fuel + 1, s, x, off, src =>
    if src = [] then return (x, s)
    else do
      let (a, x, s) ← bmap C s x (off / BSIZE)
      let m := chunk off src.length
      let s ← log_write C s a (splice (s.disk a) (off % BSIZE) m (fun i => src.getD i 0))
      writeLoop fuel s x (off + m) (src.drop m)

/-- `writei(ip, src, off, n)`, for the inode with number `i`; `none` for the return
    value -1. -/
def writei (s : Kern) (i : Nat) (x : Dinode) (off : Nat) (src : List Byte) :
    Except Halt (Option Nat × Dinode × Kern) :=
  if x.type = T_DEV then return (C.devwrite x.major src, x, s)
  else if x.size.toNat < off ∨ (off + src.length) % 4294967296 < off then return (none, x, s)
  else if MAXFILE * BSIZE < (off + src.length) % 4294967296 then return (none, x, s)
  else do
    let (x, s) ← writeLoop C src.length s x off src
    if 0 < src.length ∧ x.size.toNat < off + src.length then
      let x := { x with size := BitVec.ofNat 32 (off + src.length) }
      let s ← iupdate C s i x
      return (some src.length, x, s)
    else return (some src.length, x, s)

/-- The loops of `itrunc`: free the addresses that are not zero. -/
def freeAddrs (s : Kern) (as : List Word) : Except Halt Kern :=
  as.foldlM (fun s a => if a = 0 then return s else bfree C s a.toNat) s

/-- The part of `itrunc` about the indirect block. -/
def freeIndirect (s : Kern) (ind : Word) : Except Halt Kern :=
  if ind = 0 then return s
  else do
    let s ← freeAddrs C s ((List.range NINDIRECT).map (entry (s.disk ind.toNat)))
    bfree C s ind.toNat

/-- `itrunc(ip)`, for the inode with number `i`. -/
def itrunc (s : Kern) (i : Nat) (x : Dinode) : Except Halt (Dinode × Kern) := do
  let s ← freeAddrs C s ((List.range NDIRECT).map x.addr)
  let s ← freeIndirect C s (x.addr NDIRECT)
  let x := { x with size := 0, addrs := fun _ => 0 }
  let s ← iupdate C s i x
  return (x, s)

end Xv6.Disk
