import Xv6c.Fs.Calls
import Xv6c.Mem.Vm

/-! The file table and pipes: file.c and pipe.c. Data that a call delivers to user
memory is returned as a value. -/
namespace Xv6c
open Lib

abbrev KM := Prog Event Fault Kernel

def panic {A : Type} (msg : String) : KM A := Prog.fault (.panic msg)

namespace Kernel

def procAt (k : Kernel) (p : ProcId) : Proc := k.proc p.cont p.slot

def setProc (k : Kernel) (p : ProcId) (q : Proc) : Kernel :=
  { k with proc := Function.update k.proc p.cont (Function.update (k.proc p.cont) p.slot q) }

/- myproc()->cont, as an index of the container table. -/
def contOf (k : Kernel) (p : ProcId) : Nat := (k.procAt p).cont

def fsView (p : ProcId) (k : Kernel) : Fs.FsState :=
  let c := k.cont (k.contOf p)
  { k.fs with udsk := c.udsk, mdsk := c.mdsk, cstate := c.state }

def fsPut (p : ProcId) (k : Kernel) (s : Fs.FsState) : Kernel :=
  let i := k.contOf p
  { k with
    fs := s.toFileSys
    cont := Function.update k.cont i { k.cont i with udsk := s.udsk, state := s.cstate } }

def memView (p : ProcId) (k : Kernel) : Mem.MemState :=
  let c := k.cont (k.contOf p)
  { k.kmem with upg := c.upg, msz := c.msz, cstate := c.state }

def memPut (p : ProcId) (k : Kernel) (s : Mem.MemState) : Kernel :=
  let i := k.contOf p
  { k with
    kmem := s.toKmem
    cont := Function.update k.cont i { k.cont i with upg := s.upg, state := s.cstate } }

def walker (p : ProcId) (k : Kernel) : Fs.Walker :=
  ⟨(k.procAt p).cwd, (k.cont (k.contOf p)).rootdir⟩

end Kernel

/- Run a function of fs.c, or of kalloc.c and vm.c, in the context of process p. -/
def onFs {A : Type} (p : ProcId) (x : Fs.FsM A) : KM A :=
  Prog.zoom Event.fs (Kernel.fsView p) (Kernel.fsPut p) x

def onMem {A : Type} (p : ProcId) (x : Mem.MemM A) : KM A :=
  Prog.zoom Event.mem (Kernel.memView p) (Kernel.memPut p) x

def modifyProc (p : ProcId) (f : Proc → Proc) : KM Unit :=
  Prog.modify fun k => k.setProc p (f (k.procAt p))

def modifyCont (i : Nat) (f : Cont → Cont) : KM Unit :=
  Prog.modify fun k => { k with cont := Function.update k.cont i (f (k.cont i)) }

def modifyFile (f : Nat) (g : File → File) : KM Unit :=
  Prog.modify fun k => { k with file := Function.update k.file f (g (k.file f)) }

/- The visit of wakeup1 to slot j of container i. -/
def woken (k : Kernel) (chan : Chan) (i j : Nat) : Proc :=
  let q := k.proc i j
  if i < NCONT ∧ (j : Int) < (k.cont i).mproc ∧ q.state = .sleeping ∧ q.chan = some chan then
    { q with state := .runnable }
  else q

def wakeup1 (chan : Chan) : KM Unit := Prog.modify fun k => { k with proc := woken k chan }

def wakeup (chan : Chan) : KM Unit := wakeup1 chan

/- sleep, up to the switch to the scheduler. Once woken, the process makes the call
that it sleeps in again. -/
def sleep (p : ProcId) (chan : Chan) : KM Unit :=
  modifyProc p fun q => { q with chan := some chan, state := .sleeping }

def filealloc : KM (Option Nat) := do
  let k ← Prog.get
  match (List.range NFILE).find? (fun f => (k.file f).ref = 0) with
  | some f =>
    modifyFile f fun g => { g with ref := 1 }
    pure (some f)
  | none => pure none

def filedup (f : Nat) : KM Unit := do
  let k ← Prog.get
  if (k.file f).ref < 1 then panic "filedup"
  else modifyFile f fun g => { g with ref := incr g.ref }

/- struct pipe overlays its page: the ring behind the lock, then four words. -/
def pipeData : Nat := 52
def PIPESIZE : Nat := 512
def pipeNread : Nat := 141
def pipeNwrite : Nat := 142
def pipeReadopen : Nat := 143
def pipeWriteopen : Nat := 144

def pipeclose (p : ProcId) (pipe : Nat) (writable : Bool) : KM Unit := do
  if writable then
    onMem p (Mem.setEntry pipe pipeWriteopen 0)
    wakeup (.nread pipe)
  else
    onMem p (Mem.setEntry pipe pipeReadopen 0)
    wakeup (.nwrite pipe)
  let k ← Prog.get
  if word (k.kmem.mem pipe) pipeReadopen = 0 ∧ word (k.kmem.mem pipe) pipeWriteopen = 0 then
    onMem p (Mem.kfree pipe)

def fileclose (p : ProcId) (f : Nat) : KM Unit := do
  let k ← Prog.get
  let ff := k.file f
  if ff.ref < 1 then panic "fileclose"
  else if 0 < ff.ref - 1 then modifyFile f fun g => { g with ref := g.ref - 1 }
  else
    modifyFile f fun g => { g with ref := 0, type := .none }
    match ff.type with
    | .pipe => pipeclose p ff.pipe ff.writable
    | .inode =>
      onFs p Fs.beginOp
      onFs p (Fs.iput ff.ip)
      onFs p Fs.endOp
    | .none => pure ()

/- pipealloc behind the failure of filealloc or kalloc. -/
def pipeBad (p : ProcId) (f0 f1 : Option Nat) : KM (Option (Nat × Nat)) := do
  if let some f := f0 then fileclose p f
  if let some f := f1 then fileclose p f
  pure none

/- The read end and the write end. -/
def pipealloc (p : ProcId) : KM (Option (Nat × Nat)) := do
  match ← filealloc with
  | none => pipeBad p none none
  | some f0 =>
    match ← filealloc with
    | none => pipeBad p (some f0) none
    | some f1 =>
      let pipe ← onMem p Mem.kalloc
      if pipe = 0 then pipeBad p (some f0) (some f1)
      else
        onMem p (do
          Mem.setEntry pipe pipeReadopen 1
          Mem.setEntry pipe pipeWriteopen 1
          Mem.setEntry pipe pipeNwrite 0
          Mem.setEntry pipe pipeNread 0)
        modifyFile f0 fun g =>
          { g with type := .pipe, readable := true, writable := false, pipe := pipe }
        modifyFile f1 fun g =>
          { g with type := .pipe, readable := false, writable := true, pipe := pipe }
        pure (some (f0, f1))

/- The loop of pipewrite; none when the process went to sleep. -/
def pipewrite (p : ProcId) (pipe : Nat) : List Byte → Int → KM (Option Int)
  | [], n => do
    wakeup (.nread pipe)
    pure (some n)
  | b :: bs, n => do
    let k ← Prog.get
    let page := k.kmem.mem pipe
    if word page pipeNwrite = word page pipeNread + BitVec.ofNat 32 PIPESIZE then
      if word page pipeReadopen = 0 ∨ (k.procAt p).killed then pure (some (-1))
      else
        wakeup (.nread pipe)
        sleep p (.nwrite pipe)
        pure none
    else
      let pos := pipeData + (word page pipeNwrite).toNat % PIPESIZE
      onMem p (Mem.setPage pipe
        (setWord (Function.update page pos b) pipeNwrite (word page pipeNwrite + 1)))
      pipewrite p pipe bs n

/- The copying loop of piperead. -/
def pipeTake (p : ProcId) (pipe : Nat) : Nat → KM (List Byte)
  | 0 => pure []
  | n + 1 => do
    let k ← Prog.get
    let page := k.kmem.mem pipe
    if word page pipeNread = word page pipeNwrite then pure []
    else
      onMem p (Mem.setEntry pipe pipeNread (word page pipeNread + 1))
      let rest ← pipeTake p pipe n
      pure (page (pipeData + (word page pipeNread).toNat % PIPESIZE) :: rest)

/- The return value and the bytes read; none when the process went to sleep. -/
def piperead (p : ProcId) (pipe n : Nat) : KM (Option (Int × List Byte)) := do
  let k ← Prog.get
  let page := k.kmem.mem pipe
  if word page pipeNread = word page pipeNwrite ∧ word page pipeWriteopen ≠ 0 then
    if (k.procAt p).killed then pure (some (-1, []))
    else
      sleep p (.nread pipe)
      pure none
  else
    let got ← pipeTake p pipe n
    wakeup (.nwrite pipe)
    pure (some (got.length, got))

structure Stat where
  type : BitVec 16
  ino : Nat
  nlink : BitVec 16
  size : Nat
  deriving DecidableEq, Repr

def filestat (p : ProcId) (f : Nat) : KM (Option Stat) := do
  let k ← Prog.get
  if (k.file f).type = .inode then
    onFs p do
      Fs.ilock (k.file f).ip
      let s ← Prog.get
      let i := s.icache (k.file f).ip
      Fs.iunlock (k.file f).ip
      pure (some ⟨i.d.type, i.inum, i.d.nlink, i.d.size.toNat⟩)
  else pure none

def fileread (p : ProcId) (f n : Nat) : KM (Option (Int × List Byte)) := do
  let k ← Prog.get
  let g := k.file f
  if g.readable then
    match g.type with
    | .pipe => piperead p g.pipe n
    | .inode =>
      let (r, data) ← onFs p do
        Fs.ilock g.ip
        let got ← Fs.readi g.ip g.off n
        Fs.iunlock g.ip
        pure got
      if 0 < r then modifyFile f fun g => { g with off := (g.off + r.toNat) % 2 ^ 32 }
      pure (some (r, (List.range r.toNat).map data))
    | .none => panic "fileread"
  else pure (some (-1, []))

def maxWrite : Nat := (LOGSIZE - 1 - 1 - 2) / 2 * 512

/- The loop of filewrite: i bytes of data are written, n is all of it. -/
def filewriteLoop (p : ProcId) (f : Nat) (data : Bytes) (n : Nat) : Nat → Nat → KM Int
  | 0, _ => Prog.fault .hang
  | fuel + 1, i =>
    if i < n then do
      let n1 := min (n - i) maxWrite
      let k ← Prog.get
      let g := k.file f
      onFs p Fs.beginOp
      onFs p (Fs.ilock g.ip)
      let r ← onFs p (Fs.writei g.ip (fun j => data (i + j)) g.off n1)
      if 0 < r then modifyFile f fun g => { g with off := (g.off + r.toNat) % 2 ^ 32 }
      onFs p (Fs.iunlock g.ip)
      onFs p Fs.endOp
      if r < 0 then pure (-1)
      else if r ≠ n1 then panic "short filewrite"
      else filewriteLoop p f data n fuel (i + n1)
    else pure n

def filewrite (p : ProcId) (f : Nat) (data : List Byte) : KM (Option Int) := do
  let k ← Prog.get
  let g := k.file f
  if g.writable then
    match g.type with
    | .pipe => pipewrite p g.pipe data data.length
    | .inode =>
      let r ← filewriteLoop p f (fun i => data.getD i 0) data.length (data.length + 1) 0
      pure (some r)
    | .none => panic "filewrite"
  else pure (some (-1))

end Xv6c
