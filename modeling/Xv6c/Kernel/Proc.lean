import Xv6c.Kernel.File

/-! proc.c. The contents of kernel stacks are left out. -/
namespace Xv6c
open Lib

/- The first slot of container c, below mproc, that p holds of. -/
def findProc (k : Kernel) (c : Nat) (p : Proc → Bool) : Option Nat :=
  (List.range (k.cont c).mproc.toNat).find? (fun j => p (k.proc c j))

/- allocproc for container c, by the running process p. -/
def allocproc (p : ProcId) (c : Nat) : KM (Option ProcId) := do
  let k ← Prog.get
  if (k.cont c).state ≠ .crunnable ∧ (k.cont c).state ≠ .crunning then pure none
  else
    match findProc k c (fun q => q.state = .unused) with
    | none => pure none
    | some j =>
      let np : ProcId := ⟨c, j⟩
      modifyProc np fun q => { q with state := .embryo, pid := k.nextpid }
      Prog.modify fun k => { k with nextpid := incr k.nextpid }
      let kstack ← onMem p Mem.kalloc
      modifyProc np fun q => { q with kstack := kstack }
      if kstack = 0 then
        modifyProc np fun q => { q with state := .unused }
        pure none
      else
        modifyProc np fun q => { q with ticks := 0, cont := c }
        modifyCont c fun c => { c with uproc := c.uproc + 1 }
        pure (some np)

/- The checks of switchuvm. -/
def switchuvm (p : ProcId) : KM Unit := do
  let k ← Prog.get
  if (k.procAt p).kstack = 0 then panic "switchuvm: no kstack"
  else if (k.procAt p).pgdir = 0 then panic "switchuvm: no pgdir"

/- sz + n for a uint sz and an int n. -/
def addInt (sz : Nat) (n : Int) : Nat := ((sz + n) % 2 ^ 32).toNat

def growproc (p : ProcId) (n : Int) : KM Int := do
  let k ← Prog.get
  let q := k.procAt p
  let sz ← if 0 < n then onMem p (Mem.allocuvm q.pgdir q.sz (addInt q.sz n))
    else if n < 0 then onMem p (Mem.deallocuvm q.pgdir q.sz (addInt q.sz n))
    else pure q.sz
  if n ≠ 0 ∧ sz = 0 then pure (-1)
  else
    modifyProc p fun q => { q with sz := sz }
    switchuvm p
    pure 0

/- The loop of fork over the descriptors of the parent, from fd on, n of them. -/
def dupFiles (np : ProcId) (ofile : Nat → Option Nat) : Nat → Nat → KM Unit
  | 0, _ => pure ()
  | n + 1, fd => do
    match ofile fd with
    | some f =>
      filedup f
      modifyProc np fun q => { q with ofile := Function.update q.ofile fd (some f) }
    | none => pure ()
    dupFiles np ofile n (fd + 1)

/- fork behind allocproc: the new process np becomes a copy of cur. -/
def forkChild (p np : ProcId) (cur : Proc) (cwd : Option Nat) (parent : ProcId) : KM Int := do
  let pgdir ← onMem p (Mem.copyuvm cur.pgdir cur.sz)
  modifyProc np fun q => { q with pgdir := pgdir }
  if pgdir = 0 then
    let k ← Prog.get
    onMem p (Mem.kfree (k.procAt np).kstack)
    modifyProc np fun q => { q with kstack := 0, state := .unused }
    pure (-1)
  else
    modifyProc np fun q => { q with
      sz := cur.sz, parent := some parent, tf := { cur.tf with eax := 0 } }
    dupFiles np cur.ofile NOFILE 0
    let cwd ← onFs p (do
      let ip ← Fs.deref cwd
      Fs.idup ip)
    modifyProc np fun q => { q with cwd := some cwd, name := cur.name }
    let k ← Prog.get
    modifyProc np fun q => { q with state := .runnable }
    pure (k.procAt np).pid

/- fork, into container c if one is given. -/
def fork (p : ProcId) (parentcont : Option Nat) : KM Int := do
  let k ← Prog.get
  let cur := k.procAt p
  let (cwd, c, parent) := match parentcont with
    | none => (cur.cwd, cur.cont, p)
    | some c => ((k.cont c).rootdir, c, k.initproc)
  match ← allocproc p c with
  | none => pure (-1)
  | some np => forkChild p np cur cwd parent

/- The loop of exit over the descriptors from fd on, n of them. -/
def closeFiles (p : ProcId) : Nat → Nat → KM Unit
  | 0, _ => pure ()
  | n + 1, fd => do
    let k ← Prog.get
    match (k.procAt p).ofile fd with
    | some f =>
      fileclose p f
      modifyProc p fun q => { q with ofile := Function.update q.ofile fd none }
    | none => pure ()
    closeFiles p n (fd + 1)

/- The loop of exit that passes children to init, over slots from j on, n of them. -/
def reparent (p : ProcId) (c : Nat) : Nat → Nat → KM Unit
  | 0, _ => pure ()
  | n + 1, j => do
    let k ← Prog.get
    if (k.proc c j).parent = some p then
      modifyProc ⟨c, j⟩ fun q => { q with parent := some k.initproc }
      if (k.proc c j).state = .zombie then wakeup1 (.proc k.initproc)
    reparent p c n (j + 1)

def exit (p : ProcId) : KM Unit := do
  let k ← Prog.get
  if p = k.initproc then panic "init exiting"
  else
    closeFiles p NOFILE 0
    onFs p Fs.beginOp
    onFs p (do
      let cwd ← Fs.deref (k.procAt p).cwd
      Fs.iput cwd)
    onFs p Fs.endOp
    modifyProc p fun q => { q with cwd := none }
    let k ← Prog.get
    let c := k.contOf p
    if let some parent := (k.procAt p).parent then wakeup1 (.proc parent)
    reparent p c (k.cont c).mproc.toNat 0
    modifyCont c fun c => { c with uproc := c.uproc - 1 }
    modifyProc p fun q => { q with state := .zombie }

/- The return value; none when the process went to sleep. -/
def wait (p : ProcId) : KM (Option Int) := do
  let k ← Prog.get
  let c := k.contOf p
  match findProc k c (fun q => q.parent = some p ∧ q.state = .zombie) with
  | some j =>
    let q := k.proc c j
    onMem p (Mem.kfree q.kstack)
    modifyProc ⟨c, j⟩ fun q => { q with kstack := 0 }
    onMem p (Mem.freevm q.pgdir)
    modifyProc ⟨c, j⟩ fun q => { q with
      pid := 0, parent := none, name := [], killed := false, state := .unused }
    pure (some q.pid)
  | none =>
    if (findProc k c (fun q => q.parent = some p)).isNone ∨ (k.procAt p).killed then pure (some (-1))
    else
      sleep p (.proc p)
      pure none

def kill (p : ProcId) (pid : Int) : KM Int := do
  let k ← Prog.get
  let c := k.contOf p
  match findProc k c (fun q => q.pid = pid) with
  | some j =>
    modifyProc ⟨c, j⟩ fun q => { q with
      killed := true, state := if q.state = .sleeping then .runnable else q.state }
    pure 0
  | none => pure (-1)

end Xv6c
