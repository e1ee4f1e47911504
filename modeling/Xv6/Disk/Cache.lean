import Xv6.Framework.Command
import Xv6.Disk.Free

/-! # The Inode Cache and Directories over the Disk

    The functions of `fs.c` on the slots of the inode cache, and those of
    directories and paths that are built from them. They are commands: each
    action is a piece of code that runs under the lock of the cache or of the
    inode, and `writei`, `readi`, `itrunc` and `iupdate` are one action each.

    There is one device, so `dev` is left out. `skipelem` has cut a path into
    its elements, each of at most `DIRSIZ` bytes and without a zero byte.
    `acquiresleep` of a lock that is held does not return: calls are run one
    after the other here, so it is held by the call itself.
-/

namespace Xv6.Disk

open LTS

/-- Why a call does not return. -/
inductive Stop where
  | halt (h : Halt)
  /-- `acquiresleep` of a lock that the call itself holds -/
  | asleep
  /-- `"iget: no inodes"` -/
  | igetNoInodes
  /-- `"ilock"` -/
  | ilock
  /-- `"ilock: no type"` -/
  | ilockNoType
  /-- `"iunlock"` -/
  | iunlock
  /-- `"dirlookup not DIR"` -/
  | dirlookupNotDir
  /-- `"dirlookup read"` -/
  | dirlookupRead
  /-- `"dirlink read"` -/
  | dirlinkRead
  /-- `"dirlink"` -/
  | dirlink
  /-- `"isdirempty: readi"` -/
  | isdiremptyRead
  /-- `"unlink: nlink < 1"` -/
  | unlinkNlink
  /-- `"unlink: writei"` -/
  | unlinkWrite
  /-- `"create dots"` -/
  | createDots
  /-- `"create: dirlink"` -/
  | createDirlink
  /-- `"short filewrite"` -/
  | shortWrite
  /-- `"fileclose"` -/
  | fileclose
  deriving DecidableEq

/-- `struct inode`. -/
structure Slot where
  inum : Nat
  ref : Nat
  lock : Bool
  valid : Bool
  copy : Dinode

/-- An index into `icache.inode`. -/
abbrev NIdx : Type := Fin NINODE

/-- `struct file`, for inodes; `ip` is `none` for `FD_NONE`. -/
structure File where
  ref : Nat
  ip : Option NIdx
  off : Nat
  readable : Bool
  writable : Bool

/-- The disk, the inode cache, the file table, and the descriptors and the current
    directory of the process that makes the calls. -/
structure FsState where
  kern : Kern
  slot : NIdx → Slot
  file : Fin NFILE → File
  ofile : Fin NOFILE → Option (Fin NFILE)
  cwd : NIdx

abbrev Cmd (α : Type) : Type 1 := Command FsState Stop α

def FsState.setSlot (s : FsState) (k : NIdx) (ip : Slot) : FsState :=
  { s with slot := Function.update s.slot k ip }

/-- A function on the disk and on the in-memory inode of a slot, as an action. -/
def onInode {α : Type} (k : NIdx) (f : Kern → Nat → Dinode → Except Halt (α × Dinode × Kern)) :
    Cmd α :=
  .atom fun s =>
    match f s.kern (s.slot k).inum (s.slot k).copy with
    | .error h => .error (.halt h)
    | .ok (a, x, kern) => .ok (a, { s with kern := kern }.setSlot k { s.slot k with copy := x })

variable (C : Config)

/-! ### Slots -/

/-- The loop of `iget`, and the slot it takes. -/
def igetSlot (s : FsState) (inum : Nat) : Option NIdx :=
  match (List.finRange NINODE).find? (fun k => decide (0 < (s.slot k).ref ∧ (s.slot k).inum = inum)) with
  | some k => some k
  | none => (List.finRange NINODE).find? (fun k => decide ((s.slot k).ref = 0))

def iget (inum : Nat) : Cmd NIdx :=
  .atom fun s =>
    match igetSlot s inum with
    | none => .error .igetNoInodes
    | some k =>
      if 0 < (s.slot k).ref then .ok (k, s.setSlot k { s.slot k with ref := (s.slot k).ref + 1 })
      else .ok (k, s.setSlot k { s.slot k with inum := inum, ref := 1, valid := false })

def idup (k : NIdx) : Cmd NIdx :=
  .atom fun s => .ok (k, s.setSlot k { s.slot k with ref := (s.slot k).ref + 1 })

/-- `acquiresleep(&ip->lock)` -/
def acquiresleep (k : NIdx) : Cmd Unit :=
  .atom fun s =>
    if (s.slot k).lock then .error .asleep
    else .ok ((), s.setSlot k { s.slot k with lock := true })

/-- `releasesleep(&ip->lock)` -/
def releasesleep (k : NIdx) : Cmd Unit :=
  .modify fun s => s.setSlot k { s.slot k with lock := false }

/-- The part of `ilock` after `acquiresleep`. -/
def load (k : NIdx) : Cmd Unit :=
  .atom fun s =>
    if (s.slot k).valid then .ok ((), s)
    else
      let x := dinode C.layout s.kern.disk (s.slot k).inum
      if x.type = 0 then .error .ilockNoType
      else .ok ((), s.setSlot k { s.slot k with valid := true, copy := x })

def ilock (k : NIdx) : Cmd Unit := do
  let ref ← Command.read fun s => (s.slot k).ref
  Command.failIf (ref < 1) .ilock
  acquiresleep k
  load C k

def iunlock (k : NIdx) : Cmd Unit := do
  let ip ← Command.read fun s => s.slot k
  Command.failIf (ip.lock = false ∨ ip.ref < 1) .iunlock
  releasesleep k

/-- The branch of `iput` that frees the inode: `itrunc(ip)`. -/
def truncate (k : NIdx) : Cmd Unit :=
  onInode k fun kern i x =>
    match itrunc C kern i x with
    | .error h => .error h
    | .ok (x, kern) => .ok ((), x, kern)

/-- `ip->type = 0; iupdate(ip); ip->valid = 0;` -/
def erase (k : NIdx) : Cmd Unit :=
  .atom fun s =>
    let ip := s.slot k
    match iupdate C s.kern ip.inum { ip.copy with type := 0 } with
    | .error h => .error (.halt h)
    | .ok kern => .ok ((), { s with kern := kern }.setSlot k
        { ip with copy := { ip.copy with type := 0 }, valid := false })

/-- `ip->ref--` -/
def unref (k : NIdx) : Cmd Unit :=
  .modify fun s => s.setSlot k { s.slot k with ref := (s.slot k).ref - 1 }

def iput (k : NIdx) : Cmd Unit := do
  acquiresleep k
  let ip ← Command.read fun s => s.slot k
  Command.whenever (ip.valid = true ∧ ip.copy.nlink = 0 ∧ ip.ref = 1) do
    truncate C k
    erase C k
  releasesleep k
  unref k

def iunlockput (k : NIdx) : Cmd Unit := do
  iunlock k
  iput C k

/-- A change of the fields of an inode that is followed by `iupdate(ip)`. -/
def update (k : NIdx) (f : Dinode → Dinode) : Cmd Unit :=
  onInode k fun kern i x =>
    match iupdate C kern i (f x) with
    | .error h => .error h
    | .ok kern => .ok ((), f x, kern)

/-- `readi(ip, dst, off, n)` -/
def read (k : NIdx) (off n : Nat) : Cmd (Option (List Byte)) :=
  onInode k fun kern _ x => readi C kern x off n

/-- `writei(ip, src, off, n)` -/
def write (k : NIdx) (off : Nat) (src : List Byte) : Cmd (Option Nat) :=
  onInode k fun kern i x => writei C kern i x off src

/-- `ialloc(dev, type)` -/
def allocInode (type : BitVec 16) : Cmd NIdx := do
  let i ← Command.atom fun s =>
    match ialloc C s.kern type with
    | .error h => .error (Stop.halt h)
    | .ok (i, kern) => .ok (i, { s with kern := kern })
  iget i

/-- `end_op()`: no other call is running, so the log is committed. -/
def end_op : Cmd Unit := .modify fun s => { s with kern := { s.kern with lh := [] } }

/-! ### Directories -/

def DIRSIZ : Nat := 14

/-- `sizeof(struct dirent)` -/
def DIRENT : Nat := 16

abbrev Name : Type := List Byte

/-- `"."` -/
def dot : Name := [46]

/-- `".."` -/
def dotdot : Name := [46, 46]

def ROOTINO : Nat := 1

/-- `de.inum`, for a `struct dirent` as bytes. -/
def direntInum (de : List Byte) : Nat := (de.getD 0 0).toNat + 256 * (de.getD 1 0).toNat

/-- `de.name`, up to its first zero byte. -/
def direntName (de : List Byte) : Name := ((de.drop 2).take DIRSIZ).takeWhile (fun b => b != 0)

/-- The bytes of a `struct dirent`; `strncpy` fills the name with zero bytes. -/
def dirent (inum : Nat) (name : Name) : List Byte :=
  [BitVec.ofNat 8 inum, BitVec.ofNat 8 (inum / 256)] ++
    (List.range DIRSIZ).map (fun i => name.getD i 0)

/-- The rounds of the loop below. -/
def scanLoop (k : NIdx) (panic : Stop) (p : List Byte → Bool) :
    Nat → Nat → Cmd (Nat × Option (List Byte))
  | 0, off => return (off, none)
  | fuel + 1, off => do
    let size ← Command.read fun s => (s.slot k).copy.size.toNat
    if off < size then
      match ← read C k off DIRENT with
      | none => Command.fail panic
      | some de =>
        if de.length ≠ DIRENT then Command.fail panic
        else if p de then return (off, some de)
        else scanLoop k panic p fuel (off + DIRENT)
    else return (off, none)

/-- The loops of `dirlookup`, `dirlink` and `isdirempty`: the first entry from `off` on
    that `p` accepts, with its offset. Each round moves on by one entry, so they end
    within as many rounds as the directory has entries, and one. -/
def scan (k : NIdx) (panic : Stop) (p : List Byte → Bool) (off : Nat) :
    Cmd (Nat × Option (List Byte)) := do
  let size ← Command.read fun s => (s.slot k).copy.size.toNat
  scanLoop C k panic p (size / DIRENT + 1) off

/-- `dirlookup(dp, name, poff)`: the inode and the offset of the entry. -/
def dirlookup (dp : NIdx) (name : Name) : Cmd (Option (NIdx × Nat)) := do
  let type ← Command.read fun s => (s.slot dp).copy.type
  Command.failIf (type ≠ T_DIR) .dirlookupNotDir
  let (off, found) ← scan C dp .dirlookupRead
    (fun de => direntInum de ≠ 0 && direntName de = name) 0
  match found with
  | none => return none
  | some de =>
    let ip ← iget (direntInum de)
    return some (ip, off)

/-- `dirlink(dp, name, inum)`; `false` for the return value -1. -/
def dirlink (dp : NIdx) (name : Name) (inum : Nat) : Cmd Bool := do
  match ← dirlookup C dp name with
  | some (ip, _) =>
    iput C ip
    return false
  | none =>
    let (off, _) ← scan C dp .dirlinkRead (fun de => direntInum de = 0) 0
    let r ← write C dp off (dirent inum name)
    Command.failIf (r ≠ some DIRENT) .dirlink
    return true

def isdirempty (dp : NIdx) : Cmd Bool := do
  let (_, found) ← scan C dp .isdiremptyRead (fun de => direntInum de ≠ 0) (2 * DIRENT)
  return found.isNone

/-! ### Paths -/

/-- A path as its elements, and whether it starts with a slash. -/
structure Path where
  absolute : Bool
  elems : List Name

/-- The loop of `namex`, from inode `ip` on. -/
def walk (parent : Bool) : NIdx → List Name → Cmd (Option (NIdx × Name))
  | ip, [] => do
    if parent then
      iput C ip
      return none
    else return some (ip, [])
  | ip, name :: rest => do
    ilock C ip
    let type ← Command.read fun s => (s.slot ip).copy.type
    if type ≠ T_DIR then
      iunlockput C ip
      return none
    else if parent ∧ rest = [] then
      iunlock ip
      return some (ip, name)
    else
      match ← dirlookup C ip name with
      | none =>
        iunlockput C ip
        return none
      | some (next, _) =>
        iunlockput C ip
        walk parent next rest

/-- The inode from which `namex` starts. -/
def start (path : Path) : Cmd NIdx := do
  if path.absolute then iget ROOTINO
  else
    let cwd ← Command.read fun s => s.cwd
    idup cwd

def namex (parent : Bool) (path : Path) : Cmd (Option (NIdx × Name)) := do
  let ip ← start path
  walk C parent ip path.elems

def namei (path : Path) : Cmd (Option NIdx) := do
  let r ← namex C false path
  return r.map Prod.fst

def nameiparent (path : Path) : Cmd (Option (NIdx × Name)) := namex C true path

end Xv6.Disk
