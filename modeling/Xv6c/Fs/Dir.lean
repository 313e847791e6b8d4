import Mathlib.Data.List.TakeWhile
import Xv6c.Fs.Inode

/-! Directories and path names of fs.c. -/
namespace Xv6c.Fs
open Lib

def namecmp (s t : List Byte) : Int := strncmp s t DIRSIZ

/- The loop of dirlookup from offset off on, over n entries. -/
def lookupFrom (dp : Nat) (name : List Byte) : Nat → Nat → FsM (Option (Nat × Nat))
  | 0, _ => pure none
  | n + 1, off => do
    let (r, de) ← readi dp off direntSize
    if r ≠ direntSize then panic "dirlookup read"
    else if deInum de ≠ 0 ∧ namecmp name (deName de) = 0 then
      let ip ← iget (deInum de)
      pure (some (ip, off))
    else lookupFrom dp name n (off + direntSize)

/- The number of rounds of for(off = 0; off < size; off += sizeof(de)). -/
def entries (size : Nat) : Nat := (size + direntSize - 1) / direntSize

/- The inode of the entry name in the directory dp, and the offset of the entry. -/
def dirlookup (dp : Nat) (name : List Byte) : FsM (Option (Nat × Nat)) := do
  let s ← Prog.get
  let d := (s.icache dp).d
  if d.type ≠ T_DIR then panic "dirlookup not DIR"
  else lookupFrom dp name (entries d.size.toNat) 0

/- The offset of the first free entry from off on, over n entries, or of the end. -/
def emptyFrom (dp : Nat) : Nat → Nat → FsM Nat
  | 0, off => pure off
  | n + 1, off => do
    let (r, de) ← readi dp off direntSize
    if r ≠ direntSize then panic "dirlink read"
    else if deInum de = 0 then pure off
    else emptyFrom dp n (off + direntSize)

def dirlink (dp : Nat) (name : List Byte) (inum : Nat) : FsM Int := do
  match ← dirlookup dp name with
  | some (ip, _) =>
    iput ip
    pure (-1)
  | none =>
    let s ← Prog.get
    let off ← emptyFrom dp (entries (s.icache dp).d.size.toNat) 0
    let r ← writei dp (mkDirent inum name) off direntSize
    if r ≠ direntSize then panic "dirlink" else pure 0

/- A NUL-terminated string, by the bytes before the NUL. -/
structure CStr where
  bytes : List Byte
  whole : 0 ∉ bytes

def slash : Byte := 47

/- skipelem: the next element, cut to DIRSIZ bytes, and the path behind it. -/
def skipelem (path : List Byte) : Option (List Byte × List Byte) :=
  match path.dropWhile (· == slash) with
  | [] => none
  | c :: s =>
    some (((c :: s).takeWhile (· != slash)).take DIRSIZ,
      ((c :: s).dropWhile (· != slash)).dropWhile (· == slash))

/- The inodes that namex reaches from the calling process. -/
structure Walker where
  cwd : Option Nat
  rootdir : Option Nat

def deref (p : Option Nat) : FsM Nat :=
  match p with
  | some ip => pure ip
  | none => Prog.fault .trap

/- The loop of namex, at inode ip with path left. -/
def walk (w : Walker) (iroot : Nat) (parent : Bool) :
    Nat → Nat → List Byte → FsM (Option (Nat × List Byte))
  | 0, _, _ => Prog.fault .hang
  | n + 1, ip, path =>
    match skipelem path with
    | none =>
      if parent then do
        iput ip
        pure none
      else pure (some (ip, []))
    | some (name, rest) => do
      ilock ip
      let s ← Prog.get
      if (s.icache ip).d.type ≠ T_DIR then
        iunlockput ip
        pure none
      else if parent ∧ rest = [] then
        iunlock ip
        pure (some (ip, name))
      else
        match ← dirlookup ip name with
        | none =>
          iunlockput ip
          pure none
        | some (next, _) =>
          iunlockput ip
          let rootdir ← deref w.rootdir
          let s ← Prog.get
          if (s.icache rootdir).inum = (s.icache iroot).inum ∨
              (s.icache next).inum ≠ (s.icache iroot).inum then
            walk w iroot parent n next rest
          else
            -- the walk goes on from ip, which is unlocked and put already
            Prog.emit .turnedBack
            walk w iroot parent n ip rest

def namex (w : Walker) (path : CStr) (parent : Bool) : FsM (Option (Nat × List Byte)) := do
  let iroot ← iget ROOTINO
  let start ← deref (if path.bytes.head? = some slash then w.rootdir else w.cwd)
  let ip ← idup start
  walk w iroot parent (path.bytes.length + 1) ip path.bytes

def namei (w : Walker) (path : CStr) : FsM (Option Nat) := do
  let r ← namex w path false
  pure (r.map Prod.fst)

def nameiparent (w : Walker) (path : CStr) : FsM (Option (Nat × List Byte)) := namex w path true

/- A field of name bytes up to its NUL. -/
def cut (bytes : List Byte) : List Byte := bytes.takeWhile (· != 0)

theorem cut_whole (bytes : List Byte) : 0 ∉ cut bytes := by
  intro h
  simpa using List.mem_takeWhile_imp h

/- The path name/entry that dirsize looks up. -/
def entryPath (name : CStr) (entry : List Byte) : CStr where
  bytes := name.bytes ++ slash :: cut entry
  whole := by
    simp only [List.mem_append, List.mem_cons, not_or]
    exact ⟨name.whole, by decide, cut_whole entry⟩

/- The loop of dirsize; the references that namei takes are kept. -/
def sizeFrom (w : Walker) (dp : Nat) (name : CStr) : Nat → Nat → Nat → FsM Nat
  | 0, _, size => pure size
  | n + 1, off, size => do
    let (r, de) ← readi dp off direntSize
    if r ≠ direntSize then panic "dirsize read"
    else
      match ← namei w (entryPath name (deName de)) with
      | none => sizeFrom w dp name n (off + direntSize) size
      | some ip =>
        let s ← Prog.get
        if (s.icache ip).inum ≠ ROOTINO ∧ (s.icache ip).inum ≠ (s.icache dp).inum then
          ilock ip
          let s ← Prog.get
          let size := (size + (s.icache ip).d.size.toNat) % 2 ^ 32
          iunlock ip
          sizeFrom w dp name n (off + direntSize) size
        else sizeFrom w dp name n (off + direntSize) size

/- dirsize, with -1 as a uint when the directory has an entry of that name. -/
def dirsize (w : Walker) (dp : Nat) (name : CStr) : FsM Nat := do
  match ← dirlookup dp name.bytes with
  | some _ => pure (2 ^ 32 - 1)
  | none =>
    let s ← Prog.get
    sizeFrom w dp name (entries (s.icache dp).d.size.toNat) 0 0

end Xv6c.Fs
