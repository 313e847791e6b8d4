import Xv6c.Kernel.State

/-! The block layer of fs.c, over blocks as bread delivers them. Contents that a
process changes in a buffer are changed by the log_write that follows. -/
namespace Xv6c.Fs
open Lib

/- The file system and the disk account of the calling process's container. -/
structure FsState extends FileSys where
  udsk : Nat
  mdsk : Nat
  cstate : ContState

abbrev FsM := Prog FsEvent Fault FsState

def panic {A : Type} (msg : String) : FsM A := Prog.fault (.panic msg)

/- bread, with the test of idestart. -/
def bread (b : Nat) : FsM Block := do
  if FSSIZE ≤ b then panic "incorrect blockno"
  else
    let s ← Prog.get
    pure (s.disk b)

/- log_write of the locked buffer of block b, now holding v. -/
def logWrite (b : Nat) (v : Block) : FsM Unit := do
  let s ← Prog.get
  if Log.full s.log then panic Log.tooBig
  else if s.log.outstanding < 1 then panic "log_write outside of trans"
  else
    Prog.emit (.logged b)
    Prog.modify fun s => { s with
      disk := Function.update s.disk b v
      log := { s.log with lh := Log.absorb s.log.lh b } }

def beginOp : FsM Unit := do
  let s ← Prog.get
  if Log.admits s.log then
    Prog.modify fun s => { s with log := { s.log with outstanding := s.log.outstanding + 1 } }
  else Prog.fault .blocked

/- end_op; a commit empties the log and leaves what bread delivers as it is. -/
def endOp : FsM Unit := do
  let s ← Prog.get
  if s.log.committing then panic "log.committing"
  else Prog.modify fun s => { s with log := { s.log with
    outstanding := s.log.outstanding - 1
    lh := if s.log.outstanding - 1 = 0 then [] else s.log.lh } }

def readsb : FsM Unit := do
  let b ← bread 1
  Prog.modify fun s => { s with sb := decodeSb b }

def bzero (b : Nat) : FsM Unit := do
  let _ ← bread b
  logWrite b zeros

/- The two loops of balloc, which visit the blocks from b on in order. -/
def ballocFrom : Nat → Nat → FsM Nat
  | 0, _ => panic "balloc: out of blocks"
  | n + 1, b => do
    let s ← Prog.get
    let bp ← bread (BBLOCK b s.sb)
    if bit bp (b % BPB) then ballocFrom n (b + 1)
    else
      logWrite (BBLOCK b s.sb) (setBit bp (b % BPB))
      bzero b
      Prog.modify fun s => { s with udsk := (s.udsk + BSIZE) % 2 ^ 32 }
      pure b

/- ckill(myproc()->cont). -/
def ckill : FsM Unit := Prog.modify fun s => { s with cstate := .cstopping }

def balloc : FsM Nat := do
  let s ← Prog.get
  if s.mdsk < (s.udsk + BSIZE) % 2 ^ 32 then
    Prog.emit .refused
    ckill
    pure 0
  else ballocFrom s.sb.size 0

def bfree (b : Nat) : FsM Unit := do
  Prog.modify fun s => if BSIZE < s.udsk then { s with udsk := s.udsk - BSIZE } else s
  readsb
  let s ← Prog.get
  let bp ← bread (BBLOCK b s.sb)
  if bit bp (b % BPB) then logWrite (BBLOCK b s.sb) (clearBit bp (b % BPB))
  else panic "freeing free block"

end Xv6c.Fs
