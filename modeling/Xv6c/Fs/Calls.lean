import Xv6c.Fs.Dir

/-! The system calls of sysfile.c that work on the file system alone. -/
namespace Xv6c.Fs
open Lib

def dot : List Byte := [46]
def dotdot : List Byte := [46, 46]

/- sys_link behind the failure of nameiparent or dirlink. -/
def linkBad (ip : Nat) : FsM Int := do
  ilock ip
  setDinode ip fun d => { d with nlink := d.nlink - 1 }
  iupdate ip
  iunlockput ip
  endOp
  pure (-1)

def link (w : Walker) (old new : CStr) : FsM Int := do
  beginOp
  match ← namei w old with
  | none =>
    endOp
    pure (-1)
  | some ip =>
    ilock ip
    let s ← Prog.get
    if (s.icache ip).d.type = T_DIR then
      iunlockput ip
      endOp
      pure (-1)
    else
      setDinode ip fun d => { d with nlink := d.nlink + 1 }
      iupdate ip
      iunlock ip
      match ← nameiparent w new with
      | none => linkBad ip
      | some (dp, name) =>
        ilock dp
        let s ← Prog.get
        let r ← dirlink dp name (s.icache ip).inum
        if r < 0 then
          iunlockput dp
          linkBad ip
        else
          iunlockput dp
          iput ip
          endOp
          pure 0

/- The loop of isdirempty from off on, over n entries. -/
def emptyLoop (dp : Nat) : Nat → Nat → FsM Bool
  | 0, _ => pure true
  | n + 1, off => do
    let (r, de) ← readi dp off direntSize
    if r ≠ direntSize then panic "isdirempty: readi"
    else if deInum de ≠ 0 then pure false
    else emptyLoop dp n (off + direntSize)

def isdirempty (dp : Nat) : FsM Bool := do
  let s ← Prog.get
  emptyLoop dp (entries (s.icache dp).d.size.toNat - 2) (2 * direntSize)

def unlinkBad (dp : Nat) : FsM Int := do
  iunlockput dp
  endOp
  pure (-1)

def unlink (w : Walker) (path : CStr) : FsM Int := do
  beginOp
  match ← nameiparent w path with
  | none =>
    endOp
    pure (-1)
  | some (dp, name) =>
    ilock dp
    if namecmp name dot = 0 ∨ namecmp name dotdot = 0 then unlinkBad dp
    else
      match ← dirlookup dp name with
      | none => unlinkBad dp
      | some (ip, off) =>
        ilock ip
        let s ← Prog.get
        let d := (s.icache ip).d
        if d.nlink.toInt < 1 then panic "unlink: nlink < 1"
        else
          let empty ← if d.type = T_DIR then isdirempty ip else pure true
          if !empty then
            iunlockput ip
            unlinkBad dp
          else
            let r ← writei dp zeros off direntSize
            if r ≠ direntSize then panic "unlink: writei"
            else
              if d.type = T_DIR then
                setDinode dp fun d => { d with nlink := d.nlink - 1 }
                iupdate dp
              iunlockput dp
              setDinode ip fun d => { d with nlink := d.nlink - 1 }
              iupdate ip
              iunlockput ip
              endOp
              pure 0

/- create; the inode it returns is locked. -/
def create (w : Walker) (path : CStr) (type major minor : BitVec 16) : FsM (Option Nat) := do
  match ← nameiparent w path with
  | none => pure none
  | some (dp, name) =>
    ilock dp
    match ← dirlookup dp name with
    | some (ip, _) =>
      iunlockput dp
      ilock ip
      let s ← Prog.get
      if type = T_FILE ∧ (s.icache ip).d.type = T_FILE then pure (some ip)
      else
        iunlockput ip
        pure none
    | none =>
      let ip ← ialloc type
      ilock ip
      setDinode ip fun d => { d with major := major, minor := minor, nlink := 1 }
      iupdate ip
      if type = T_DIR then
        setDinode dp fun d => { d with nlink := d.nlink + 1 }
        iupdate dp
        let s ← Prog.get
        let r ← dirlink ip dot (s.icache ip).inum
        if r < 0 then panic "create dots"
        else
          let s ← Prog.get
          let r ← dirlink ip dotdot (s.icache dp).inum
          if r < 0 then panic "create dots"
      let s ← Prog.get
      let r ← dirlink dp name (s.icache ip).inum
      if r < 0 then panic "create: dirlink"
      else
        iunlockput dp
        pure (some ip)

/- sys_mkdir and sys_mknod. -/
def makeNode (w : Walker) (path : CStr) (type major minor : BitVec 16) : FsM Int := do
  beginOp
  match ← create w path type major minor with
  | none =>
    endOp
    pure (-1)
  | some ip =>
    iunlockput ip
    endOp
    pure 0

def mkdir (w : Walker) (path : CStr) : FsM Int := makeNode w path T_DIR 0 0

def mknod (w : Walker) (path : CStr) (major minor : BitVec 16) : FsM Int :=
  makeNode w path T_DEV major minor

/- sys_chdir up to the change of curproc->cwd: the new directory. -/
def chdir (w : Walker) (path : CStr) : FsM (Option Nat) := do
  beginOp
  match ← namei w path with
  | none =>
    endOp
    pure none
  | some ip =>
    ilock ip
    let s ← Prog.get
    if (s.icache ip).d.type ≠ T_DIR then
      iunlockput ip
      endOp
      pure none
    else
      iunlock ip
      let cwd ← deref w.cwd
      iput cwd
      endOp
      pure (some ip)

/- The paths x and ./x. -/
theorem x_whole : 0 ∉ ([120] : List Byte) := by decide

theorem dotX_whole : 0 ∉ ([46, 47, 120] : List Byte) := by decide

/- A small image in the layout of mkfs. The root directory has a directory x, and x has
a file f of five bytes. -/
def dirBlock (entries : List (Nat × List Byte)) : Block := fun j =>
  match entries[j / direntSize]? with
  | some (inum, name) => mkDirent inum name (j % direntSize)
  | none => 0

def smallInode (type : BitVec 16) (size block : Nat) : Dinode :=
  ⟨type, 0, 0, 1, BitVec.ofNat 32 size, fun i => if i = 0 then BitVec.ofNat 32 block else 0⟩

def smallRoot : Dinode := smallInode T_DIR 512 100

def smallDisk : Nat → Block := fun b =>
  if b = 1 then encodeSb mkfsSb
  else if b = mkfsSb.inodestart then
    [(1, smallRoot), (2, smallInode T_DIR 48 101), (3, smallInode T_FILE 5 102)].foldl
      (fun b (inum, d) => putDinode b inum d) zeros
  -- blocks 0 to 103 are in use
  else if b = mkfsSb.bmapstart then fun j => if j < 13 then 255 else 0
  else if b = 100 then dirBlock [(1, dot), (1, dotdot), (2, [120])]
  else if b = 101 then dirBlock [(2, dot), (1, dotdot), (3, [102])]
  else zeros

/- The file system booted from it, with the root inode in use. -/
def smallFs : FileSys :=
  ⟨smallDisk, ⟨mkfsSb.logstart, mkfsSb.nlog, 0, false, []⟩, mkfsSb,
    fun i => if i = 0 then ⟨ROOTINO, 2, false, true, smallRoot⟩ else Inode.zero, []⟩

end Xv6c.Fs
