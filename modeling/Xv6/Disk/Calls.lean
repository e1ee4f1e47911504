import Xv6.Disk.Cache

/-! # System Calls on Files (`sysfile.c`, `file.c`)

    The calls that make, link and remove files, and the reading and writing of
    an open file, as commands over the disk, the inode cache, the file table
    and the calling process. A path that `argstr` refuses is `none`. The return
    value -1 is `none`.
-/

namespace Xv6.Disk

open LTS

variable (C : Config)

/-! ### Fields of an inode -/

/-- `ip->nlink++` -/
def Dinode.addLink (x : Dinode) : Dinode := { x with nlink := x.nlink + 1 }

/-- `ip->nlink--` -/
def Dinode.dropLink (x : Dinode) : Dinode := { x with nlink := x.nlink - 1 }

/-- `ip->major = major; ip->minor = minor; ip->nlink = 1;` -/
def Dinode.node (major minor : BitVec 16) (x : Dinode) : Dinode :=
  { x with major := major, minor := minor, nlink := 1 }

/-! ### `create` -/

/-- `dirlink`, where -1 is a panic. -/
def mustLink (dp : NIdx) (name : Name) (ip : NIdx) (panic : Stop) : Cmd Unit := do
  let inum ← Command.read fun s => (s.slot ip).inum
  let linked ← dirlink C dp name inum
  Command.failIf (linked = false) panic

/-- The entries `.` and `..` of a new directory. -/
def createDots (dp ip : NIdx) : Cmd Unit := do
  update C dp Dinode.addLink
  mustLink C ip dot ip .createDots
  mustLink C ip dotdot dp .createDots

/-- The part of `create` that makes the inode and links it into `dp`. -/
def createNew (dp : NIdx) (name : Name) (type major minor : BitVec 16) : Cmd (Option NIdx) := do
  let ip ← allocInode C type
  ilock C ip
  update C ip (Dinode.node major minor)
  Command.whenever (type = T_DIR) (createDots C dp ip)
  mustLink C dp name ip .createDirlink
  iunlockput C dp
  return some ip

/-- `create(path, type, major, minor)`: the inode, locked. -/
def create (path : Path) (type major minor : BitVec 16) : Cmd (Option NIdx) := do
  match ← nameiparent C path with
  | none => return none
  | some (dp, name) =>
    ilock C dp
    match ← dirlookup C dp name with
    | some (ip, _) =>
      iunlockput C dp
      ilock C ip
      let old ← Command.read fun s => (s.slot ip).copy.type
      if type = T_FILE ∧ old = T_FILE then
        return some ip
      else
        iunlockput C ip
        return none
    | none => createNew C dp name type major minor

/-! ### `link` and `unlink` -/

/-- The label `bad` of `sys_link`. -/
def linkBad (ip : NIdx) : Cmd (Option Unit) := do
  ilock C ip
  update C ip Dinode.dropLink
  iunlockput C ip
  end_op
  return none

/-- `sys_link` from where `nlink` has been incremented. -/
def linkNew (ip : NIdx) (new : Path) : Cmd (Option Unit) := do
  match ← nameiparent C new with
  | none => linkBad C ip
  | some (dp, name) =>
    ilock C dp
    let inum ← Command.read fun s => (s.slot ip).inum
    let linked ← dirlink C dp name inum
    iunlockput C dp
    if linked then
      iput C ip
      end_op
      return some ()
    else linkBad C ip

def sys_link (old new : Option Path) : Cmd (Option Unit) := do
  match old, new with
  | some old, some new =>
    match ← namei C old with
    | none =>
      end_op
      return none
    | some ip =>
      ilock C ip
      let type ← Command.read fun s => (s.slot ip).copy.type
      if type = T_DIR then
        iunlockput C ip
        end_op
        return none
      else
        update C ip Dinode.addLink
        iunlock ip
        linkNew C ip new
  | _, _ => return none

/-- The label `bad` of `sys_unlink`. -/
def unlinkBad (dp : NIdx) : Cmd (Option Unit) := do
  iunlockput C dp
  end_op
  return none

/-- The part of `sys_unlink` that removes the entry at `off` of `dp`, which names
    `ip`. -/
def unlinkEntry (dp ip : NIdx) (off : Nat) : Cmd (Option Unit) := do
  let r ← write C dp off (List.replicate DIRENT 0)
  Command.failIf (r ≠ some DIRENT) .unlinkWrite
  let type ← Command.read fun s => (s.slot ip).copy.type
  Command.whenever (type = T_DIR) (update C dp Dinode.dropLink)
  iunlockput C dp
  update C ip Dinode.dropLink
  iunlockput C ip
  end_op
  return some ()

/-- `ip->type == T_DIR && !isdirempty(ip)`: only a directory is searched. -/
def isFull (ip : NIdx) (type : BitVec 16) : Cmd Bool := do
  if type = T_DIR then
    let empty ← isdirempty C ip
    return !empty
  else return false

def sys_unlink (path : Option Path) : Cmd (Option Unit) := do
  match path with
  | none => return none
  | some path =>
    match ← nameiparent C path with
    | none =>
      end_op
      return none
    | some (dp, name) =>
      ilock C dp
      if name = dot ∨ name = dotdot then
        unlinkBad C dp
      else
        match ← dirlookup C dp name with
        | none => unlinkBad C dp
        | some (ip, off) =>
          ilock C ip
          let x ← Command.read fun s => (s.slot ip).copy
          Command.failIf (x.nlink.toInt < 1) .unlinkNlink
          let full ← isFull C ip x.type
          if full then
            iunlockput C ip
            unlinkBad C dp
          else
            unlinkEntry C dp ip off

/-- `sys_mkdir` and `sys_mknod`, after their arguments. -/
def makeNode (path : Option Path) (type major minor : BitVec 16) : Cmd (Option Unit) := do
  match path with
  | none =>
    end_op
    return none
  | some path =>
    match ← create C path type major minor with
    | none =>
      end_op
      return none
    | some ip =>
      iunlockput C ip
      end_op
      return some ()

def sys_mkdir (path : Option Path) : Cmd (Option Unit) := makeNode C path T_DIR 0 0

def sys_mknod (path : Option Path) (major minor : BitVec 16) : Cmd (Option Unit) :=
  makeNode C path T_DEV major minor

/-! ### Reading and writing -/

/-- The bytes that one transaction of `filewrite` writes at most. -/
def WRITEMAX : Nat := (MAXOPBLOCKS - 1 - 1 - 2) / 2 * 512

/-- The loop of `filewrite`, with `f->off` passed along; the offset at the end, and
    whether everything was written. -/
def filewriteLoop (ip : NIdx) : Nat → Nat → List Byte → Cmd (Nat × Bool)
  | 0, off, src => return (off, src.isEmpty)
  | fuel + 1, off, src => do
    if src = [] then return (off, true)
    else
      ilock C ip
      let r ← write C ip off (src.take WRITEMAX)
      iunlock ip
      end_op
      match r with
      | none => return (off, false)
      | some r =>
        if r ≠ min src.length WRITEMAX then Command.fail .shortWrite
        else filewriteLoop ip fuel (off + r) (src.drop WRITEMAX)

/-- `filewrite(f, addr, n)` for an inode; each round writes at least one byte. -/
def filewrite (ip : NIdx) (off : Nat) (src : List Byte) : Cmd (Nat × Bool) :=
  filewriteLoop C ip src.length off src

/-- `fileread(f, addr, n)` for an inode. -/
def fileread (ip : NIdx) (off n : Nat) : Cmd (Option (List Byte)) := do
  ilock C ip
  let r ← read C ip off n
  iunlock ip
  return r

end Xv6.Disk
