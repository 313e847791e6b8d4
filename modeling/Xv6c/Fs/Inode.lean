import Xv6c.Fs.Block

/-! The inode layer of fs.c: the inode cache, and the contents of an inode by way of
its block map. An inode pointer is the index of its cache slot. -/
namespace Xv6c.Fs
open Lib

def setInode (ip : Nat) (f : Inode → Inode) : FsM Unit :=
  Prog.modify fun s => { s with icache := Function.update s.icache ip (f (s.icache ip)) }

def setDinode (ip : Nat) (f : Dinode → Dinode) : FsM Unit :=
  setInode ip fun i => { i with d := f i.d }

/- ip->ref++ -/
def addRef (ip : Nat) : FsM Unit := do
  let s ← Prog.get
  if (s.icache ip).ref = maxInt then Prog.emit .overflow
  setInode ip fun i => { i with ref := incr i.ref }

def findSlot (p : Nat → Bool) : Option Nat := (List.range NINODE).find? p

def iget (inum : Nat) : FsM Nat := do
  let s ← Prog.get
  match findSlot (fun ip => 0 < (s.icache ip).ref ∧ (s.icache ip).inum = inum) with
  | some ip =>
    addRef ip
    pure ip
  | none =>
    match findSlot (fun ip => (s.icache ip).ref = 0) with
    | some ip =>
      setInode ip fun i => { i with inum := inum, ref := 1, valid := false }
      pure ip
    | none => panic "iget: no inodes"

def idup (ip : Nat) : FsM Nat := do
  addRef ip
  pure ip

/- The loop of ialloc from inum on. -/
def iallocFrom (type : BitVec 16) : Nat → Nat → FsM Nat
  | 0, _ => panic "ialloc: no inodes"
  | n + 1, inum => do
    let s ← Prog.get
    let bp ← bread (IBLOCK inum s.sb)
    if (getDinode bp (inum % IPB)).type = 0 then
      logWrite (IBLOCK inum s.sb) (putDinode bp (inum % IPB) { Dinode.zero with type := type })
      iget inum
    else iallocFrom type n (inum + 1)

def ialloc (type : BitVec 16) : FsM Nat := do
  let s ← Prog.get
  iallocFrom type (s.sb.ninodes - 1) 1

def iupdate (ip : Nat) : FsM Unit := do
  let s ← Prog.get
  let i := s.icache ip
  let bp ← bread (IBLOCK i.inum s.sb)
  logWrite (IBLOCK i.inum s.sb) (putDinode bp (i.inum % IPB) i.d)

def acquiresleep (ip : Nat) : FsM Unit := do
  let s ← Prog.get
  if (s.icache ip).locked then Prog.fault .deadlock
  else setInode ip fun i => { i with locked := true }

def releasesleep (ip : Nat) : FsM Unit := setInode ip fun i => { i with locked := false }

def ilock (ip : Nat) : FsM Unit := do
  let s ← Prog.get
  if (s.icache ip).ref < 1 then panic "ilock"
  else
    acquiresleep ip
    if (s.icache ip).valid then pure ()
    else
      let bp ← bread (IBLOCK (s.icache ip).inum s.sb)
      let d := getDinode bp ((s.icache ip).inum % IPB)
      setInode ip fun i => { i with d := d, valid := true }
      if d.type = 0 then panic "ilock: no type"

def iunlock (ip : Nat) : FsM Unit := do
  let s ← Prog.get
  if !(s.icache ip).locked ∨ (s.icache ip).ref < 1 then panic "iunlock"
  else releasesleep ip

/- The frees of itrunc for the addrs from index i on, n of them. -/
def freeDirect (ip : Nat) : Nat → Nat → FsM Unit
  | 0, _ => pure ()
  | n + 1, i => do
    let s ← Prog.get
    let addr := (s.icache ip).d.addrs (Fin.ofNat 13 i)
    if addr ≠ 0 then
      bfree addr.toNat
      setDinode ip fun d => { d with addrs := Function.update d.addrs (Fin.ofNat 13 i) 0 }
    freeDirect ip n (i + 1)

/- bfree(a[j]) for the entries of an indirect block from j on, n of them. -/
def freeIndirect (a : Block) : Nat → Nat → FsM Unit
  | 0, _ => pure ()
  | n + 1, j => do
    if word a j ≠ 0 then bfree (word a j).toNat
    freeIndirect a n (j + 1)

def itrunc (ip : Nat) : FsM Unit := do
  freeDirect ip NDIRECT 0
  let s ← Prog.get
  let addr := (s.icache ip).d.addrs indirect
  if addr ≠ 0 then
    let a ← bread addr.toNat
    freeIndirect a NINDIRECT 0
    bfree addr.toNat
    setDinode ip fun d => { d with addrs := Function.update d.addrs indirect 0 }
  setDinode ip fun d => { d with size := 0 }
  iupdate ip

def iput (ip : Nat) : FsM Unit := do
  acquiresleep ip
  let s ← Prog.get
  let i := s.icache ip
  if i.valid ∧ i.d.nlink = 0 ∧ i.ref = 1 then
    itrunc ip
    setDinode ip fun d => { d with type := 0 }
    iupdate ip
    setInode ip fun i => { i with valid := false }
  releasesleep ip
  setInode ip fun i => { i with ref := i.ref - 1 }

def iunlockput (ip : Nat) : FsM Unit := do
  iunlock ip
  iput ip

def bmap (ip bn : Nat) : FsM Nat := do
  let s ← Prog.get
  if bn < NDIRECT then
    let addr := (s.icache ip).d.addrs (Fin.ofNat 13 bn)
    if addr = 0 then
      let b ← balloc
      setDinode ip fun d => { d with addrs := Function.update d.addrs (Fin.ofNat 13 bn) (BitVec.ofNat 32 b) }
      pure b
    else pure addr.toNat
  else if bn - NDIRECT < NINDIRECT then
    let addr := (s.icache ip).d.addrs indirect
    let table ← if addr = 0 then do
        let b ← balloc
        setDinode ip fun d => { d with addrs := Function.update d.addrs indirect (BitVec.ofNat 32 b) }
        pure b
      else pure addr.toNat
    let a ← bread table
    if word a (bn - NDIRECT) = 0 then
      let b ← balloc
      let a ← bread table
      logWrite table (setWord a (bn - NDIRECT) (BitVec.ofNat 32 b))
      pure b
    else pure (word a (bn - NDIRECT)).toNat
  else panic "bmap: out of range"

/- The characters that a read of n takes from what has been typed: up to a newline,
or to a ^D, which stays for the next read if something was read before it. Without
an end the reader sleeps. -/
def consoleTake : Nat → Bool → List Byte → Option (List Byte × List Byte)
  | 0, _, input => some ([], input)
  | _ + 1, _, [] => none
  | n + 1, fresh, c :: input =>
    if c = 4 then some ([], if fresh then input else c :: input)
    else if c = 10 then some ([c], input)
    else (consoleTake n false input).map fun r => (c :: r.1, r.2)

/- devsw[major].read; the console is the only device. -/
def devRead (major : BitVec 16) (n : Nat) : FsM (Int × Bytes) := do
  if major = 1 then
    let s ← Prog.get
    match consoleTake n true s.input with
    | some (got, rest) =>
      Prog.modify fun s => { s with input := rest }
      pure (got.length, fun i => got.getD i 0)
    | none => Prog.fault .blocked
  else pure (-1, zeros)

/- The loop of readi: left bytes are still to come from offset off, tot are in dst. -/
def readLoop (ip : Nat) : Nat → Nat → Nat → Nat → Bytes → FsM Bytes
  | 0, _, _, _, dst => pure dst
  | n + 1, off, left, tot, dst =>
    if left = 0 then pure dst
    else do
      let addr ← bmap ip (off / BSIZE)
      let bp ← bread addr
      let m := min left (BSIZE - off % BSIZE)
      readLoop ip n (off + m) (left - m) (tot + m)
        (copyIn dst tot m (fun i => bp (off % BSIZE + i)))

def readi (ip off n : Nat) : FsM (Int × Bytes) := do
  let s ← Prog.get
  let d := (s.icache ip).d
  if d.type = T_DEV then devRead d.major n
  else if d.size.toNat < off ∨ (off + n) % 2 ^ 32 < off then pure (-1, zeros)
  else
    let n := if d.size.toNat < off + n then d.size.toNat - off else n
    let dst ← readLoop ip n off n 0 zeros
    pure (n, dst)

/- The loop of writei: left bytes of src, from its byte tot on, go to offset off. -/
def writeLoop (ip : Nat) (src : Bytes) : Nat → Nat → Nat → Nat → FsM Unit
  | 0, _, _, _ => pure ()
  | n + 1, off, left, tot =>
    if left = 0 then pure ()
    else do
      let addr ← bmap ip (off / BSIZE)
      let bp ← bread addr
      let m := min left (BSIZE - off % BSIZE)
      logWrite addr (copyIn bp (off % BSIZE) m (fun i => src (tot + i)))
      writeLoop ip src n (off + m) (left - m) (tot + m)

def writei (ip : Nat) (src : Bytes) (off n : Nat) : FsM Int := do
  let s ← Prog.get
  let d := (s.icache ip).d
  if d.type = T_DEV then pure (if d.major = 1 then n else -1)
  else if d.size.toNat < off ∨ (off + n) % 2 ^ 32 < off then pure (-1)
  else if MAXFILE * BSIZE < off + n then pure (-1)
  else
    writeLoop ip src n off n 0
    let s ← Prog.get
    if 0 < n ∧ (s.icache ip).d.size.toNat < off + n then
      setDinode ip fun d => { d with size := BitVec.ofNat 32 (off + n) }
      iupdate ip
    pure n

end Xv6c.Fs
