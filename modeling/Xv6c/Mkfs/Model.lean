import Xv6c.Fs.Calls
import Xv6c.Fs.Places

/-! mkfs.c: the program that makes the file system image on the host. The host is
little-endian, as the target is, so xshort and xint are the identity. Its system calls
on the image file fail only for a read behind the end of the file. -/
namespace Xv6c.Mkfs
open Lib Fs
open Function (update)

/- The image file, and mkfs's counters. -/
structure State where
  image : Nat → Block
  length : Nat
  freeinode : Nat
  freeblock : Nat

/- How mkfs can end early: by an assertion, or by exit(1) after a failed call. -/
inductive Stop where
  | assertion
  | exit
  deriving DecidableEq, Repr

abbrev MkM := Prog Empty Stop State

def nbitmap : Nat := FSSIZE / (BSIZE * 8) + 1
def ninodeblocks : Nat := NINODES / IPB + 1
def nlog : Nat := LOGSIZE
def nmeta : Nat := 2 + nlog + ninodeblocks + nbitmap

def wsect (sec : Nat) (buf : Block) : MkM Unit :=
  Prog.modify fun s => { s with
    image := update s.image sec buf
    length := max s.length (sec + 1) }

def rsect (sec : Nat) : MkM Block := do
  let s ← Prog.get
  if sec < s.length then pure (s.image sec) else Prog.fault .exit

def winode (inum : Nat) (din : Dinode) : MkM Unit := do
  let bn := IBLOCK inum mkfsSb
  let buf ← rsect bn
  wsect bn (putDinode buf (inum % IPB) din)

def rinode (inum : Nat) : MkM Dinode := do
  let buf ← rsect (IBLOCK inum mkfsSb)
  pure (getDinode buf (inum % IPB))

def ialloc (type : BitVec 16) : MkM Nat := do
  let s ← Prog.get
  let inum := s.freeinode
  Prog.modify fun s => { s with freeinode := s.freeinode + 1 }
  winode inum { Dinode.zero with type := type, nlink := 1 }
  pure inum

/- freeblock++ -/
def takeBlock : MkM Nat := do
  let s ← Prog.get
  Prog.modify fun s => { s with freeblock := s.freeblock + 1 }
  pure s.freeblock

/- if(xint(din.addrs[k]) == 0) din.addrs[k] = xint(freeblock++) -/
def addrOr (din : Dinode) (k : Fin 13) : MkM Dinode := do
  if din.addrs k = 0 then
    let b ← takeBlock
    pure (din.setAddr k (BitVec.ofNat 32 b))
  else pure din

/- The block of addresses at t, with one at index k. -/
def tableOr (t k : Nat) : MkM Block := do
  let table ← rsect t
  if word table k = 0 then
    let b ← takeBlock
    wsect t (setWord table k (BitVec.ofNat 32 b))
    pure (setWord table k (BitVec.ofNat 32 b))
  else pure table

/- The block of index fbn of the inode din, which is given one if it has none. -/
def locate (din : Dinode) (fbn : Nat) : MkM (Nat × Dinode) := do
  if fbn < NDIRECT then
    let din ← addrOr din (Fin.ofNat 13 fbn)
    pure ((din.addrs (Fin.ofNat 13 fbn)).toNat, din)
  else
    let din ← addrOr din indirect
    let table ← tableOr (din.addrs indirect).toNat (fbn - NDIRECT)
    pure ((word table (fbn - NDIRECT)).toNat, din)

/- The loop of iappend: left bytes of p, from its byte tot on, go to offset off. -/
def appendLoop (p : Bytes) : Nat → Nat → Nat → Nat → Dinode → MkM (Nat × Dinode)
  | 0, off, _, _, din => pure (off, din)
  | n + 1, off, left, tot, din =>
    if left = 0 then pure (off, din)
    else do
      let fbn := off / BSIZE
      if MAXFILE ≤ fbn then Prog.fault .assertion
      else
        let (x, din) ← locate din fbn
        let n1 := min left ((fbn + 1) * BSIZE - off)
        let buf ← rsect x
        wsect x (copyIn buf (off - fbn * BSIZE) n1 fun i => p (tot + i))
        appendLoop p n (off + n1) (left - n1) (tot + n1) din

def iappend (inum : Nat) (p : Bytes) (n : Nat) : MkM Unit := do
  let din ← rinode inum
  let (off, din) ← appendLoop p n din.size.toNat n 0 din
  winode inum { din with size := BitVec.ofNat 32 off }

/- for(i = 0; i < used; i++) buf[i/8] = buf[i/8] | (0x1 << (i%8)) -/
def markFirst : Nat → Block
  | 0 => zeros
  | i + 1 => setBit (markFirst i) i

def balloc (bound : Nat) : MkM Unit :=
  if BSIZE * 8 ≤ bound then Prog.fault .assertion
  else wsect mkfsSb.bmapstart (markFirst bound)

/- A file of the host: its name on the command line, and the bytes that each call of read
returns, up to the end of the file. -/
structure Input where
  arg : CStr
  reads : List (List Byte)
  sizes : ∀ r ∈ reads, 0 < r.length ∧ r.length ≤ BSIZE

def underscore : Byte := 95

/- The name in the file system: a leading _ is skipped. -/
def Input.name (f : Input) : List Byte :=
  if f.arg.bytes.head? = some underscore then f.arg.bytes.tail else f.arg.bytes

def Input.bytes (f : Input) : List Byte := f.reads.flatten

def toBytes (l : List Byte) : Bytes := fun i => l.getD i 0

/- while((cc = read(fd, buf, sizeof(buf))) > 0) iappend(inum, buf, cc) -/
def copyFile (inum : Nat) : List (List Byte) → MkM Unit
  | [] => pure ()
  | r :: reads => do
    iappend inum (toBytes r) r.length
    copyFile inum reads

def addFile (rootino : Nat) (f : Input) : MkM Unit := do
  if slash ∈ f.arg.bytes then Prog.fault .assertion
  else
    let inum ← ialloc T_FILE
    iappend rootino (mkDirent inum f.name) direntSize
    copyFile inum f.reads

def addFiles (rootino : Nat) : List Input → MkM Unit
  | [] => pure ()
  | f :: files => do
    addFile rootino f
    addFiles rootino files

/- for(i = 0; i < FSSIZE; i++) wsect(i, zeroes), from i on for n blocks. -/
def clear : Nat → Nat → MkM Unit
  | 0, _ => pure ()
  | n + 1, i => do
    wsect i zeros
    clear n (i + 1)

/- fix size of root inode dir -/
def roundRoot (rootino : Nat) : MkM Unit := do
  let din ← rinode rootino
  winode rootino { din with size := BitVec.ofNat 32 ((din.size.toNat / BSIZE + 1) * BSIZE) }

def main (files : List Input) : MkM Unit := do
  clear FSSIZE 0
  wsect 1 (encodeSb mkfsSb)
  let rootino ← ialloc T_DIR
  if rootino ≠ ROOTINO then Prog.fault .assertion
  else
    iappend rootino (mkDirent rootino dot) direntSize
    iappend rootino (mkDirent rootino dotdot) direntSize
    addFiles rootino files
    roundRoot rootino
    let s ← Prog.get
    balloc s.freeblock

/- The file is truncated when it is opened. -/
def start : State := ⟨fun _ => zeros, 0, 1, nmeta⟩

end Xv6c.Mkfs
