import Xv6c.Kernel.File

/-! One pipe and the processes that use it. A call of pipe.c holds the pipe's lock
whenever it runs, so what it does up to a sleep or its return is one step. -/
namespace Xv6c.Pipes
open Lib
open Function (update)

/- struct pipe, without its lock. -/
@[ext] structure Pipe where
  data : Nat → Byte
  nread : BitVec 32
  nwrite : BitVec 32
  readopen : Bool
  writeopen : Bool

/- A call in which a process sleeps: its arguments, and the local i of pipewrite. -/
inductive Call where
  | write (n : Int) (addr : List Byte) (i : Nat)
  | read (n : Int)
  deriving DecidableEq, Repr

/- A process outside the calls, with what its last call returned, or inside one. -/
inductive Proc where
  | user (r : Int)
  | sleeping (call : Call)
  | runnable (call : Call)
  deriving DecidableEq, Repr

/- A call of pipewrite that has returned r with its first i bytes stored. -/
structure Write where
  addr : List Byte
  i : Nat
  r : Int
  deriving DecidableEq, Repr

/- freed: pipeclose has given the page back, and the pipe is gone. For the statements,
stored are the bytes put into the pipe with the processes that wrote them, taken those
that calls of piperead have returned, each in order, and writes the calls of pipewrite
that have returned. -/
structure State where
  pipe : Pipe
  freed : Bool
  proc : Nat → Proc
  killed : Nat → Bool
  stored : List (Nat × Byte)
  taken : List Byte
  writes : Nat → List Write

/- wakeup(&p->nread) and wakeup(&p->nwrite). -/
def Proc.wakeReader : Proc → Proc
  | .sleeping (.read n) => .runnable (.read n)
  | q => q

def Proc.wakeWriter : Proc → Proc
  | .sleeping (.write n addr i) => .runnable (.write n addr i)
  | q => q

/- The loop of pipewrite with these bytes to go: the number of bytes it stores, and what
it returns if it does not sleep. -/
def writeLoop (killed : Bool) (n : Int) : List Byte → Pipe → Pipe × Nat × Option Int
  | [], p => (p, 0, some n)
  | b :: bs, p =>
    if p.nwrite = p.nread + BitVec.ofNat 32 PIPESIZE then
      (p, 0, if p.readopen = false ∨ killed then some (-1) else none)
    else
      let (q, k, r) := writeLoop killed n bs
        { p with data := update p.data (p.nwrite.toNat % PIPESIZE) b, nwrite := p.nwrite + 1 }
      (q, k + 1, r)

/- The copying loop of piperead. -/
def readLoop : Nat → Pipe → Pipe × List Byte
  | 0, p => (p, [])
  | n + 1, p =>
    if p.nread = p.nwrite then (p, [])
    else
      let (q, rest) := readLoop n { p with nread := p.nread + 1 }
      (q, p.data (p.nread.toNat % PIPESIZE) :: rest)

/- pipewrite of process pid, from its start or from where it was woken. Only a call that
gives up wakes no reader. -/
def pipewrite (s : State) (pid : Nat) (n : Int) (addr : List Byte) (i : Nat) : State :=
  let left := addr.drop i
  let (p, k, r) := writeLoop (s.killed pid) n left s.pipe
  let proc := if r.isSome && decide (k < left.length) then s.proc
    else fun q => (s.proc q).wakeReader
  let s := { s with pipe := p, stored := s.stored ++ (left.take k).map (pid, ·) }
  match r with
  | some r => { s with
      proc := update proc pid (.user r)
      writes := update s.writes pid (s.writes pid ++ [⟨addr, i + k, r⟩]) }
  | none => { s with proc := update proc pid (.sleeping (.write n addr (i + k))) }

def piperead (s : State) (pid : Nat) (n : Int) : State :=
  if s.pipe.nread = s.pipe.nwrite ∧ s.pipe.writeopen then
    { s with proc := update s.proc pid (if s.killed pid then .user (-1) else .sleeping (.read n)) }
  else
    let (p, got) := readLoop n.toNat s.pipe
    { s with
      pipe := p
      taken := s.taken ++ got
      proc := update (fun q => (s.proc q).wakeWriter) pid (.user got.length) }

def pipeclose (s : State) (writable : Bool) : State :=
  let p := if writable then { s.pipe with writeopen := false } else { s.pipe with readopen := false }
  { s with
    pipe := p
    proc := fun q => if writable then (s.proc q).wakeReader else (s.proc q).wakeWriter
    freed := !p.readopen && !p.writeopen }

inductive Label where
  | write (pid : Nat) (n : Int) (addr : List Byte)
  | read (pid : Nat) (n : Int)
  | resume (pid : Nat)
  | close (writable : Bool)
  | kill (pid : Nat)

/- The steps of the processes while the pipe is there. A call of pipewrite is given the n
bytes at its address. -/
def step (s : State) (l : Label) : Option State :=
  if s.freed then none
  else match l with
  | .write pid n addr =>
    match s.proc pid with
    | .user _ => if addr.length = n.toNat then some (pipewrite s pid n addr 0) else none
    | _ => none
  | .read pid n =>
    match s.proc pid with
    | .user _ => some (piperead s pid n)
    | _ => none
  | .resume pid =>
    match s.proc pid with
    | .runnable (.write n addr i) => some (pipewrite s pid n addr i)
    | .runnable (.read n) => some (piperead s pid n)
    | _ => none
  | .close writable => some (pipeclose s writable)
  | .kill pid => some { s with
    killed := update s.killed pid true
    proc := update s.proc pid (s.proc pid).wakeReader.wakeWriter }

/- A pipe nobody has written to yet, whatever is in its page. pipealloc sets both counters
to 0; here they start anywhere. -/
def boot (data : Nat → Byte) (counter : BitVec 32) : State where
  pipe := ⟨data, counter, counter, true, true⟩
  freed := false
  proc _ := .user 0
  killed _ := false
  stored := []
  taken := []
  writes _ := []

end Xv6c.Pipes
