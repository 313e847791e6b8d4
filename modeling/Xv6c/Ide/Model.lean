import Xv6c.Bio.Model

/-! ide.c under the buffer cache of bio.c. The disk is a device that works on one command
at a time and interrupts when it is done. A function of ide.c works under idelock, so
what it does up to its release or a sleep is one step. Requests for a disk other than
ROOTDEV are left out, as the kernel makes none. -/
namespace Xv6c.Ide
open Lib Bio
open Function (update)

/- What idestart puts into the registers of the device, with the data of outsl. -/
structure Command where
  write : Bool
  blockno : Nat
  data : Block

/- The command the device was given; whether it is done with it and has interrupted;
whether its status has IDE_DF or IDE_ERR; and what insl reads. -/
structure Device where
  cmd : Option Command
  raised : Bool
  error : Bool
  port : Block

inductive Waiter where
  | idle
  | sleeping (i : Nat)
  | runnable (i : Nat)
  deriving DecidableEq, Repr

/- What the kernel does with buffers, by process. -/
inductive Act where
  | bget (r : Request)
  | acquire (r : Request) (i : Nat)
  | modify (pid i : Nat) (v : Block)
  | mark (pid i : Nat)
  | brelse (pid i : Nat)
  | iderw (pid i : Nat)

def Act.pid : Act → Nat
  | .bget r => r.pid
  | .acquire r _ => r.pid
  | .modify pid _ _ => pid
  | .mark pid _ => pid
  | .brelse pid _ => pid
  | .iderw pid _ => pid

/- The acts over the disk of memide.c, whose iderw is done at once. mark is flags |=
B_DIRTY, of bwrite and of log_write. -/
def atomic (c : Bcache) : Act → Option Bcache
  | .bget r => (bget c ROOTDEV r.blockno).map Prod.snd
  | .acquire r i => acquiresleep c r.pid i
  | .modify pid i v =>
    if holdingsleep c pid i then some (c.set i { c.buf i with data := v }) else none
  | .mark pid i =>
    if holdingsleep c pid i then some (c.set i { c.buf i with dirty := true }) else none
  | .brelse pid i => brelse c pid i
  | .iderw pid i => Bio.iderw c pid i

/- The kernel with the driver. memdisk is the medium of the device. waiting are the
calls of bread that are past bget. For the statements, queued are the requests in the
order of the calls, done the acts in the order in which they took effect, and changed
says that the data of a buffer was changed since it was last the same as on the disk. -/
structure State where
  cache : Bcache
  waiting : Nat → List Request
  idequeue : Option Nat
  qnext : Nat → Option Nat
  device : Device
  proc : Nat → Waiter
  queued : List Nat
  done : List Act
  changed : Nat → Bool

def command (b : Buf) : Command := ⟨b.dirty, b.blockno, if b.dirty then b.data else zeros⟩

/- Without a step where idewait would spin. -/
def idestart (s : State) (i : Nat) : Option State :=
  let b := s.cache.buf i
  if FSSIZE ≤ b.blockno then none
  else if s.device.cmd.isSome then none
  else some { s with device := { s.device with cmd := some (command b), raised := false } }

/- The last buffer of the queue, from buffer i of it on. -/
def last (qnext : Nat → Option Nat) : Nat → Nat → Option Nat
  | 0, _ => none
  | n + 1, i =>
    match qnext i with
    | none => some i
    | some j => last qnext n j

/- Append b to idequeue. -/
def enqueue (s : State) (i : Nat) : Option State :=
  let qnext := update s.qnext i none
  match s.idequeue with
  | none => some { s with idequeue := some i, qnext := qnext }
  | some h => (last qnext (NBUF + 1) h).map fun j => { s with qnext := update qnext j (some i) }

/- iderw up to where the process sleeps. -/
def iderw (s : State) (pid i : Nat) : Option State :=
  let b := s.cache.buf i
  if !holdingsleep s.cache pid i then none
  else if b.valid && !b.dirty then none
  else if b.dev ≠ ROOTDEV then none
  else (enqueue { s with queued := s.queued ++ [i], proc := update s.proc pid (.sleeping i) } i).bind
    fun s => if s.idequeue = some i then idestart s i else some s

/- wakeup(b). -/
def wakeup (i : Nat) (proc : Nat → Waiter) : Nat → Waiter := fun p =>
  if proc p = .sleeping i then .runnable i else proc p

def ideintr (s : State) : Option State :=
  -- reading the status makes the device forget its interrupt and its command
  let s := { s with device := { s.device with cmd := none, raised := false } }
  match s.idequeue with
  | none => some s
  | some i =>
    let b := s.cache.buf i
    let data := if !b.dirty && !s.device.error then s.device.port else b.data
    let s := { s with
      idequeue := s.qnext i
      cache := s.cache.set i { b with data := data, valid := true, dirty := false }
      proc := wakeup i s.proc
      done := s.done ++ [Act.iderw (b.lock.getD 0) i]
      changed := update s.changed i false }
    match s.idequeue with
    | none => some s
    | some j => idestart s j

/- The device is done with its command, with an error or without. -/
def complete (s : State) (error : Bool) : Option State :=
  match s.device.cmd with
  | none => none
  | some c =>
    if s.device.raised then none
    else
      let device := { s.device with raised := true, error := error }
      if error then some { s with device := device }
      else if c.write then
        some { s with device := device, cache := { s.cache with
          memdisk := update s.cache.memdisk c.blockno c.data } }
      else some { s with device := { device with port := s.cache.memdisk c.blockno } }

/- iderw from where the process was woken. -/
def resume (s : State) (pid : Nat) : Option State :=
  match s.proc pid with
  | .runnable i =>
    let b := s.cache.buf i
    some { s with proc := update s.proc pid (if b.valid && !b.dirty then .idle else .sleeping i) }
  | _ => none

inductive Label where
  | act (a : Act)
  | complete (error : Bool)
  | intr
  | resume (pid : Nat)

/- The state after an act that is done at once. -/
def performed (s : State) (a : Act) (c : Bcache) : State :=
  { s with cache := c, done := s.done ++ [a] }

def act (s : State) : Act → Option State
  | .bget r => (bget s.cache ROOTDEV r.blockno).map fun (i, c) =>
    { performed s (.bget r) c with
      waiting := update s.waiting i (r :: s.waiting i)
      changed := update s.changed i (if (c.buf i).valid then s.changed i else false) }
  | .acquire r i =>
    if r ∈ s.waiting i then (atomic s.cache (.acquire r i)).map fun c =>
      { performed s (.acquire r i) c with waiting := update s.waiting i ((s.waiting i).erase r) }
    else none
  | .modify pid i v => (atomic s.cache (.modify pid i v)).map fun c =>
    { performed s (.modify pid i v) c with changed := update s.changed i true }
  | .iderw pid i => iderw s pid i
  | a => (atomic s.cache a).map (performed s a)

/- A process acts when it is not in iderw; the device is answered once for each command. -/
def step (s : State) : Label → Option State
  | .act a => if s.proc a.pid = .idle then act s a else none
  | .complete error => complete s error
  | .intr => if s.device.raised then ideintr s else none
  | .resume pid => resume s pid

def boot (memdisk : Nat → Block) : State where
  cache := binit FSSIZE memdisk
  waiting _ := []
  idequeue := none
  qnext _ := none
  device := ⟨none, false, false, zeros⟩
  proc _ := .idle
  queued := []
  done := []
  changed _ := false

end Xv6c.Ide
