import Xv6.Fs.Dir
import Xv6.Framework.System
import Xv6.Framework.Places

/-! # System Calls on Directories

    `sys_open`, `sys_mkdir`, `sys_mknod`, `sys_link`, `sys_unlink` and
    `sys_chdir`, the closing of a file and the end of a process, by any number
    of processes.

    A step is what a process does with the locks of the inodes it works on:
    one element of a path in `namex`, the change of a directory, or the two
    parts of `iput` (the test, under the inode's lock, with which it may free
    the inode; and the decrement of `ref`, under `icache.lock`). `create` keeps
    its directory locked between `ialloc` and the lock of the new inode, which
    are two steps. Everything else that is locked is unlocked within a step.

    There is no `ref` field: the number of references to an inode is that of
    the open files, current directories and calls that refer to it. The test of
    `valid` in `iput` is left out, since a call that gives up a reference to an
    inode without links has locked the inode before.
-/

open LTS

namespace Xv6.Fs

/-- A path, cut into its elements. -/
structure Path where
  isAbs : Bool
  elems : List Name
  deriving DecidableEq

/-! ### State -/

/-- What a path is looked up for. -/
inductive Call where
  /-- `nameiparent(path, name)` in `create`; the type of the new inode -/
  | create (ty : IType)
  /-- `nameiparent(path, name)` in `sys_unlink` -/
  | unlink
  /-- `namei(old)` in `sys_link` -/
  | linkOld (new : Path)
  /-- `nameiparent(new, name)` in `sys_link` -/
  | linkNew (ip : Inum)
  /-- `namei(path)` in `sys_chdir` -/
  | chdir
  /-- `namei(path)` in `sys_open` -/
  | open (rdonly : Bool)
  deriving DecidableEq

/-- The argument `nameiparent` of `namex`. -/
def Call.parent : Call → Bool
  | .create _ | .unlink | .linkNew _ => true
  | .linkOld _ | .chdir | .open _ => false

/-- Where a process is. -/
inductive Pc where
  | idle
  /-- in the loop of `namex`, at the inode `ip` -/
  | walk (c : Call) (ip : Inum) (path : List Name)
  /-- in `create`, at `ilock(dp)` -/
  | create (ty : IType) (dp : Inum) (name : Name)
  /-- in `create`, at `ilock(ip)` of the inode that has the name -/
  | createOld (ty : IType) (ip : Inum)
  /-- in `create`, at `ilock(ip)` of the new inode; `dp` is locked -/
  | createNew (ty : IType) (dp : Inum) (name : Name) (ip : Inum)
  /-- in `sys_unlink`, at `ilock(dp)` -/
  | unlink (dp : Inum) (name : Name)
  /-- in `sys_link`, at the first `ilock(ip)` -/
  | linkInc (ip : Inum) (new : Path)
  /-- in `sys_link`, at `ilock(dp)` -/
  | linkDir (ip dp : Inum) (name : Name)
  /-- in `sys_link`, at `bad:` -/
  | linkBad (ip : Inum)
  /-- in `sys_chdir`, at `ilock(ip)` -/
  | chdir (ip : Inum)
  /-- in `sys_open`, at `ilock(ip)` -/
  | open (rdonly : Bool) (ip : Inum)
  /-- in `sys_open`, at `filealloc()` -/
  | filealloc (ip : Inum)
  /-- in `iput`, at `acquiresleep` -/
  | put (i : Inum) (k : Pc)
  /-- in `iput`, at `ip->ref--` -/
  | drop (i : Inum) (k : Pc)
  deriving DecidableEq

structure State (P : Type) where
  ino : Inum → Inode
  /-- the current directory; `none` for an entry without a process -/
  cwd : P → Option Inum
  /-- the open files of each inode -/
  files : Inum → Nat
  pc : P → Pc
  panic : Option FsPanic

def Call.refs : Call → List Inum
  | .linkNew ip => [ip]
  | _ => []

/-- The references of a call. -/
def Pc.refs : Pc → List Inum
  | .idle => []
  | .walk c ip _ => ip :: c.refs
  | .create _ dp _ => [dp]
  | .createOld _ ip => [ip]
  | .createNew _ dp _ ip => [dp, ip]
  | .unlink dp _ => [dp]
  | .linkInc ip _ => [ip]
  | .linkDir ip dp _ => [ip, dp]
  | .linkBad ip => [ip]
  | .chdir ip => [ip]
  | .open _ ip => [ip]
  | .filealloc ip => [ip]
  | .put i k => i :: k.refs
  | .drop i k => i :: k.refs

/-- The directory that a call keeps locked between two steps. -/
def Pc.locks : Pc → Option Inum
  | .createNew _ dp _ _ => some dp
  | _ => none

variable {P : Type} [DecidableEq P] [Fintype P]

namespace State

def goto (s : State P) (p : P) (pc : Pc) : State P :=
  { s with pc := Function.update s.pc p pc }

def setIno (s : State P) (i : Inum) (x : Inode) : State P :=
  { s with ino := Function.update s.ino i x }

def setCwd (s : State P) (p : P) (i : Option Inum) : State P :=
  { s with cwd := Function.update s.cwd p i }

def setFiles (s : State P) (i : Inum) (n : Nat) : State P :=
  { s with files := Function.update s.files i n }

def stop (s : State P) (e : FsPanic) : State P :=
  { s with panic := some e }

/-- `ip->ref`. -/
def refs (s : State P) (i : Inum) : Nat :=
  s.files i + ∑ p, ((if s.cwd p = some i then 1 else 0) + (s.pc p).refs.count i)

/-- Another process keeps the inode locked. -/
def Locked (s : State P) (p : P) (i : Inum) : Prop :=
  ∃ q, q ≠ p ∧ (s.pc q).locks = some i

instance (s : State P) (p : P) (i : Inum) : Decidable (s.Locked p i) :=
  inferInstanceAs (Decidable (∃ _, _))

/-- `ilock(ip)` and what comes after it; `none` while `p` has to wait. -/
def ilock (s : State P) (p : P) (i : Inum) (body : Option (State P)) : Option (State P) :=
  if s.Locked p i then none
  else if (s.ino i).type = .free then some (s.stop .ilockNoType)
  else body

/-- What a call does when its path leads nowhere. -/
def failed : Call → Pc
  | .linkNew ip => .linkBad ip
  | _ => .idle

/-- What a call does with the inode of its path, or with the directory and the
    last element. -/
def found : Call → Inum → Name → Pc
  | .create ty, dp, name => .create ty dp name
  | .unlink, dp, name => .unlink dp name
  | .linkOld new, ip, _ => .linkInc ip new
  | .linkNew ip, dp, name => .linkDir ip dp name
  | .chdir, ip, _ => .chdir ip
  | .open rdonly, ip, _ => .open rdonly ip

/-- The start of `namex`. -/
def namex (s : State P) (p : P) (c : Call) (path : Path) : Option (State P) :=
  match s.cwd p with
  | none => none
  | some cwd => some (s.goto p (.walk c (if path.isAbs then ROOTINO else cwd) path.elems))

/-- One element of the path in `namex`. -/
def walk (s : State P) (p : P) (c : Call) (ip : Inum) : List Name → Option (State P)
  | [] => some (s.goto p (if c.parent then .put ip (failed c) else found c ip []))
  | name :: path =>
    s.ilock p ip
      (if (s.ino ip).type ≠ .dir then some (s.goto p (.put ip (failed c)))
       else if c.parent ∧ path = [] then some (s.goto p (found c ip name))
       else match dirlookup (s.ino ip) name with
         | .error e => some (s.stop e)
         | .ok none => some (s.goto p (.put ip (failed c)))
         | .ok (some k) =>
           some (s.goto p (.put ip (.walk c ((s.ino ip).slot k).inum path))))

/-- The inode that `ialloc` finds. -/
def freeInode (s : State P) (ninodes : Nat) : Option Inum :=
  (List.range' 1 (ninodes - 1)).find? (fun i => decide ((s.ino i).type = .free))

/-- An inode as `ialloc` leaves it. -/
def blank (ty : IType) : Inode :=
  { type := ty, nlink := 0, size := 0, slot := fun _ => ⟨0, []⟩ }

/-- `create`, up to `ialloc`. -/
def create (s : State P) (ninodes : Nat) (p : P) (ty : IType) (dp : Inum) (name : Name) :
    Option (State P) :=
  s.ilock p dp
    (match dirlookup (s.ino dp) name with
     | .error e => some (s.stop e)
     | .ok (some k) => some (s.goto p (.put dp (.createOld ty ((s.ino dp).slot k).inum)))
     | .ok none =>
       match s.freeInode ninodes with
       | none => some (s.stop .iallocNoInodes)
       | some ip => some ((s.setIno ip (blank ty)).goto p (.createNew ty dp name ip)))

/-- The entries of a new directory. -/
def dots (x : Inode) (ip dp : Inum) : Except FsPanic Inode :=
  match dirlink x dot ip with
  | .error e => .error e
  | .ok (.inl _) => .error .createDots
  | .ok (.inr x₁) =>
    match dirlink x₁ dotdot dp with
    | .error e => .error e
    | .ok (.inl _) => .error .createDots
    | .ok (.inr x₂) => .ok x₂

/-- The rest of `create`. -/
def createNew (s : State P) (p : P) (ty : IType) (dp : Inum) (name : Name) (ip : Inum) :
    Option (State P) :=
  s.ilock p ip
    (let x₀ := { s.ino ip with nlink := 1 }
     let d₀ := s.ino dp
     let made := if ty = .dir then dots x₀ ip dp else .ok x₀
     let d₁ := if ty = .dir then { d₀ with nlink := d₀.nlink + 1 } else d₀
     match made with
     | .error e => some (s.stop e)
     | .ok x =>
       match dirlink d₁ name ip with
       | .error e => some (s.stop e)
       | .ok (.inl _) => some (s.stop .createDirlink)
       | .ok (.inr d) =>
         some (((s.setIno ip x).setIno dp d).goto p
           (.put dp (if ty = .file then .filealloc ip else .put ip .idle))))

/-- `create`, where the name exists. -/
def createOld (s : State P) (p : P) (ty : IType) (ip : Inum) : Option (State P) :=
  s.ilock p ip
    (if ty = .file ∧ (s.ino ip).type = .file then some (s.goto p (.filealloc ip))
     else some (s.goto p (.put ip .idle)))

/-- `sys_unlink`. -/
def unlink (s : State P) (p : P) (dp : Inum) (name : Name) : Option (State P) :=
  s.ilock p dp
    (if name = dot ∨ name = dotdot then some (s.goto p (.put dp .idle))
     else match dirlookup (s.ino dp) name with
       | .error e => some (s.stop e)
       | .ok none => some (s.goto p (.put dp .idle))
       | .ok (some k) =>
         let ip := ((s.ino dp).slot k).inum
         if ip = dp then none
         else s.ilock p ip
           (if (s.ino ip).nlink < 1 then some (s.stop .unlinkNlink)
            else match (if (s.ino ip).type = .dir then isdirempty (s.ino ip) else .ok true) with
              | .error e => some (s.stop e)
              | .ok false => some (s.goto p (.put ip (.put dp .idle)))
              | .ok true =>
                let d₀ := (s.ino dp).write k ⟨0, []⟩
                let d := if (s.ino ip).type = .dir then { d₀ with nlink := d₀.nlink - 1 } else d₀
                let x := { s.ino ip with nlink := (s.ino ip).nlink - 1 }
                some (((s.setIno dp d).setIno ip x).goto p (.put dp (.put ip .idle)))))

/-- `sys_link`, up to `nameiparent(new, name)`. -/
def linkInc (s : State P) (p : P) (ip : Inum) (new : Path) : Option (State P) :=
  s.ilock p ip
    (if (s.ino ip).type = .dir then some (s.goto p (.put ip .idle))
     else (s.setIno ip { s.ino ip with nlink := (s.ino ip).nlink + 1 }).namex p (.linkNew ip) new)

/-- `dirlink(dp, name, ip->inum)` in `sys_link`. -/
def linkDir (s : State P) (p : P) (ip dp : Inum) (name : Name) : Option (State P) :=
  s.ilock p dp
    (match dirlink (s.ino dp) name ip with
     | .error e => some (s.stop e)
     | .ok (.inl k) =>
       some (s.goto p (.put ((s.ino dp).slot k).inum (.put dp (.linkBad ip))))
     | .ok (.inr d) => some ((s.setIno dp d).goto p (.put dp (.put ip .idle))))

/-- `bad:` in `sys_link`. -/
def linkBad (s : State P) (p : P) (ip : Inum) : Option (State P) :=
  s.ilock p ip
    (some ((s.setIno ip { s.ino ip with nlink := (s.ino ip).nlink - 1 }).goto p (.put ip .idle)))

/-- `sys_chdir`. -/
def chdir (s : State P) (p : P) (ip : Inum) : Option (State P) :=
  s.ilock p ip
    (if (s.ino ip).type ≠ .dir then some (s.goto p (.put ip .idle))
     else match s.cwd p with
       | none => none
       | some old => some ((s.setCwd p (some ip)).goto p (.put old .idle)))

/-- `sys_open`, up to `filealloc`. -/
def openOld (s : State P) (p : P) (rdonly : Bool) (ip : Inum) : Option (State P) :=
  s.ilock p ip
    (if (s.ino ip).type = .dir ∧ rdonly = false then some (s.goto p (.put ip .idle))
     else some (s.goto p (.filealloc ip)))

/-- `iput`, up to `releasesleep`. -/
def put (s : State P) (p : P) (i : Inum) (k : Pc) : Option (State P) :=
  if s.Locked p i then none
  else if (s.ino i).nlink = 0 ∧ s.refs i = 1 then
    some ((s.setIno i (blank .free)).goto p (.drop i k))
  else some (s.goto p (.drop i k))

/-- The next step of the call that `p` is in. -/
def run (s : State P) (ninodes : Nat) (p : P) : Pc → Option (State P)
  | .idle => none
  | .walk c ip path => s.walk p c ip path
  | .create ty dp name => s.create ninodes p ty dp name
  | .createOld ty ip => s.createOld p ty ip
  | .createNew ty dp name ip => s.createNew p ty dp name ip
  | .unlink dp name => s.unlink p dp name
  | .linkInc ip new => s.linkInc p ip new
  | .linkDir ip dp name => s.linkDir p ip dp name
  | .linkBad ip => s.linkBad p ip
  | .chdir ip => s.chdir p ip
  | .open rdonly ip => s.openOld p rdonly ip
  | .filealloc ip => some ((s.setFiles ip (s.files ip + 1)).goto p .idle)
  | .put i k => s.put p i k
  | .drop _ k => some (s.goto p k)

end State

/-! ### Steps -/

inductive Label (P : Type) where
  /-- `open` with `O_CREATE`, `mkdir` and `mknod` -/
  | create (p : P) (ty : IType) (path : Path)
  | open (p : P) (rdonly : Bool) (path : Path)
  | unlink (p : P) (path : Path)
  | link (p : P) (old new : Path)
  | chdir (p : P) (path : Path)
  /-- the last descriptor of an open file is closed -/
  | close (p : P) (i : Inum)
  | fork (p q : P)
  | exit (p : P)
  /-- `p` goes on with its call -/
  | run (p : P)
  /-- `filealloc` or `fdalloc` fails -/
  | noFile (p : P)
  deriving DecidableEq

/-- One step; `none` where it is not possible. -/
def next (ninodes : Nat) (s : State P) (l : Label P) : Option (State P) :=
  if s.panic ≠ none then none
  else match l with
    | .create p ty path =>
      if s.pc p = .idle ∧ ty ≠ .free then s.namex p (.create ty) path else none
    | .open p rdonly path => if s.pc p = .idle then s.namex p (.open rdonly) path else none
    | .unlink p path => if s.pc p = .idle then s.namex p .unlink path else none
    | .link p old new => if s.pc p = .idle then s.namex p (.linkOld new) old else none
    | .chdir p path => if s.pc p = .idle then s.namex p .chdir path else none
    | .close p i =>
      if s.pc p = .idle ∧ s.cwd p ≠ none ∧ 0 < s.files i then
        some ((s.setFiles i (s.files i - 1)).goto p (.put i .idle))
      else none
    | .fork p q =>
      if s.pc p = .idle ∧ s.pc q = .idle ∧ s.cwd p ≠ none ∧ s.cwd q = none then
        some (s.setCwd q (s.cwd p))
      else none
    | .exit p =>
      match s.cwd p with
      | none => none
      | some cwd =>
        if s.pc p = .idle then some ((s.setCwd p none).goto p (.put cwd .idle)) else none
    | .run p => s.run ninodes p (s.pc p)
    | .noFile p =>
      match s.pc p with
      | .filealloc ip => some (s.goto p (.put ip .idle))
      | _ => none

end Xv6.Fs
