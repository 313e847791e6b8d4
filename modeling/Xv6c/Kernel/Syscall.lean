import Xv6c.Kernel.Container
import Xv6c.Kernel.Exec

/-! The system calls, behind the fetching of their arguments, as atomic steps of a
kernel. -/
namespace Xv6c
open Lib

/- argfd. -/
def argfd (k : Kernel) (p : ProcId) (fd : Int) : Option Nat :=
  if 0 ≤ fd ∧ fd < NOFILE then (k.procAt p).ofile fd.toNat else none

def fdalloc (p : ProcId) (f : Nat) : KM (Option Nat) := do
  let k ← Prog.get
  match (List.range NOFILE).find? (fun fd => ((k.procAt p).ofile fd).isNone) with
  | some fd =>
    modifyProc p fun q => { q with ofile := Function.update q.ofile fd (some f) }
    pure (some fd)
  | none => pure none

def sysDup (p : ProcId) (fd : Int) : KM Int := do
  let k ← Prog.get
  match argfd k p fd with
  | none => pure (-1)
  | some f =>
    match ← fdalloc p f with
    | none => pure (-1)
    | some fd =>
      filedup f
      pure fd

def sysClose (p : ProcId) (fd : Int) : KM Int := do
  let k ← Prog.get
  match argfd k p fd with
  | none => pure (-1)
  | some f =>
    modifyProc p fun q => { q with ofile := Function.update q.ofile fd.toNat none }
    fileclose p f
    pure 0

def O_RDONLY : BitVec 32 := 0
def O_WRONLY : BitVec 32 := 1
def O_RDWR : BitVec 32 := 2
def O_CREATE : BitVec 32 := 0x200

/- sys_open up to a locked inode. -/
def openInode (w : Fs.Walker) (path : Fs.CStr) (omode : BitVec 32) : Fs.FsM (Option Nat) := do
  Fs.beginOp
  if omode &&& O_CREATE ≠ 0 then
    match ← Fs.create w path Fs.T_FILE 0 0 with
    | none =>
      Fs.endOp
      pure none
    | some ip => pure (some ip)
  else
    match ← Fs.namei w path with
    | none =>
      Fs.endOp
      pure none
    | some ip =>
      Fs.ilock ip
      let s ← Prog.get
      if (s.icache ip).d.type = Fs.T_DIR ∧ omode ≠ O_RDONLY then
        Fs.iunlockput ip
        Fs.endOp
        pure none
      else pure (some ip)

def openBad (p : ProcId) (ip : Nat) (f : Option Nat) : KM Int := do
  if let some f := f then fileclose p f
  onFs p (Fs.iunlockput ip)
  onFs p Fs.endOp
  pure (-1)

def sysOpen (p : ProcId) (path : Fs.CStr) (omode : BitVec 32) : KM Int := do
  let k ← Prog.get
  match ← onFs p (openInode (k.walker p) path omode) with
  | none => pure (-1)
  | some ip =>
    match ← filealloc with
    | none => openBad p ip none
    | some f =>
      match ← fdalloc p f with
      | none => openBad p ip (some f)
      | some fd =>
        onFs p (Fs.iunlock ip)
        onFs p Fs.endOp
        modifyFile f fun g => { g with
          type := .inode, ip := ip, off := 0
          readable := omode &&& O_WRONLY = 0
          writable := omode &&& O_WRONLY ≠ 0 ∨ omode &&& O_RDWR ≠ 0 }
        pure fd

def sysChdir (p : ProcId) (path : Fs.CStr) : KM Int := do
  let k ← Prog.get
  match ← onFs p (Fs.chdir (k.walker p) path) with
  | none => pure (-1)
  | some ip =>
    modifyProc p fun q => { q with cwd := some ip }
    pure 0

/- sys_pipe; the descriptors it stores. -/
def sysPipe (p : ProcId) : KM (Option (Nat × Nat)) := do
  match ← pipealloc p with
  | none => pure none
  | some (rf, wf) =>
    match ← fdalloc p rf with
    | none =>
      fileclose p rf
      fileclose p wf
      pure none
    | some fd0 =>
      match ← fdalloc p wf with
      | none =>
        modifyProc p fun q => { q with ofile := Function.update q.ofile fd0 none }
        fileclose p rf
        fileclose p wf
        pure none
      | some fd1 => pure (some (fd0, fd1))

def sysSbrk (p : ProcId) (n : Int) : KM Int := do
  let k ← Prog.get
  let r ← growproc p n
  pure (if r < 0 then -1 else (k.procAt p).sz)

inductive Syscall where
  | fork
  | exit
  | wait
  | kill (pid : Int)
  | sbrk (n : Int)
  | exec (path : Fs.CStr) (argv : List Fs.CStr)
  | pipe
  | dup (fd : Int)
  | close (fd : Int)
  | read (fd : Int) (n : Nat)
  | write (fd : Int) (data : List Byte)
  | fstat (fd : Int)
  | open (path : Fs.CStr) (omode : BitVec 32)
  | link (old new : Fs.CStr)
  | unlink (path : Fs.CStr)
  | mkdir (path : Fs.CStr)
  | mknod (path : Fs.CStr) (major minor : BitVec 16)
  | chdir (path : Fs.CStr)
  | ccreate (name : Fs.CStr) (mproc : Int) (msz mdsk : Nat)
  | cstart (name : Fs.CStr)
  | cfork (cid : Int)
  | cstop (name : Fs.CStr)
  | cpause (name : Fs.CStr)
  | cresume (name : Fs.CStr)
  | cinfo

/- The return value of a call that has one. -/
def returns (x : KM Int) : KM (Option Int) := do
  let r ← x
  pure (some r)

def onFd (p : ProcId) (fd : Int) (x : Nat → KM (Option Int)) : KM (Option Int) := do
  let k ← Prog.get
  match argfd k p fd with
  | none => pure (some (-1))
  | some f => x f

/- A system call of process p; none when it does not return. -/
def syscall (p : ProcId) : Syscall → KM (Option Int)
  | .fork => returns (fork p none)
  | .exit => do
    exit p
    pure none
  | .wait => wait p
  | .kill pid => returns (kill p pid)
  | .sbrk n => returns (sysSbrk p n)
  | .exec path argv => returns (exec p path argv)
  | .pipe => do
    let r ← sysPipe p
    pure (some (if r.isSome then 0 else -1))
  | .dup fd => returns (sysDup p fd)
  | .close fd => returns (sysClose p fd)
  | .read fd n => onFd p fd fun f => do
    let r ← fileread p f n
    pure (r.map Prod.fst)
  | .write fd data => onFd p fd fun f => filewrite p f data
  | .fstat fd => onFd p fd fun f => do
    let r ← filestat p f
    pure (some (if r.isSome then 0 else -1))
  | .open path omode => returns (sysOpen p path omode)
  | .link old new => do
    let k ← Prog.get
    returns (onFs p (Fs.link (k.walker p) old new))
  | .unlink path => do
    let k ← Prog.get
    returns (onFs p (Fs.unlink (k.walker p) path))
  | .mkdir path => do
    let k ← Prog.get
    returns (onFs p (Fs.mkdir (k.walker p) path))
  | .mknod path major minor => do
    let k ← Prog.get
    returns (onFs p (Fs.mknod (k.walker p) path major minor))
  | .chdir path => returns (sysChdir p path)
  | .ccreate name mproc msz mdsk => returns (ccreate p name mproc msz mdsk)
  | .cstart name => returns (cstart p name)
  | .cfork cid => returns (cfork p cid)
  | .cstop name => returns (cstop p name)
  | .cpause name => returns (cpause p name)
  | .cresume name => returns (cresume p name)
  | .cinfo => do
    let _ ← cinfo p
    pure (some 1)

end Xv6c
