import Xv6c.Disk
import Xv6c.Lib.GroupCommit

/-! log.c over the buffer cache and the disk. Every label is one atomic step: a
locked region, the unlocked test at the head of log_write, one bwrite of commit
or of recovery, a buffer coming into or leaving the cache, or the loss of power.
A process that would sleep has no step. -/
namespace Xv6c.Log
open Lib

structure Buf where
  data : Block
  dirty : Bool

/- struct log; lh holds the first n entries of lh.block. -/
structure LogStruct where
  start : Nat
  size : Nat
  outstanding : Nat
  committing : Bool
  lh : List Nat

/- Where the one process that is inside commit or initlog stands, named by the
block write that comes next. In off the power has failed; after a panic nothing
runs any more. -/
inductive Pc where
  | off
  | idle
  | writeLog (tail : Nat)
  | writeHead
  | install (tail : Nat)
  | clearHead
  | commitDone
  | panic (msg : String)
  deriving DecidableEq, Repr

/- A process between begin_op and end_op, with the blocks it called log_write on. -/
structure Section where
  pid : Nat
  blocks : List Nat
  deriving DecidableEq, Repr

/- A log_write call that has passed its test and has yet to take log.lock. The
caller holds the buffer's lock, so what it stored in b->data before the call is
seen by others only from the record step on. -/
structure Call where
  pid : Nat
  blockno : Nat
  deriving DecidableEq, Repr

structure Machine where
  disk : Nat → Block
  cache : Nat → Option Buf
  log : LogStruct
  pc : Pc
  sections : List Section
  calls : List Call

inductive Label where
  | beginOp (p : Nat)
  | logWrite (p b : Nat)
  | record (p b : Nat) (v : Block)
  | endOp (p : Nat)
  | write
  | finish
  | fill (b : Nat)
  | evict (b : Nat)
  | crash
  | boot

def LogStruct.empty : LogStruct := ⟨0, 0, 0, false, []⟩

def powerOff (disk : Nat → Block) : Machine := ⟨disk, fun _ => none, .empty, .off, [], []⟩

/- The contents that bread delivers. -/
def view (m : Machine) (b : Nat) : Block :=
  match m.cache b with
  | some f => f.data
  | none => m.disk b

def dirty (m : Machine) (b : Nat) : Bool :=
  match m.cache b with
  | some f => f.dirty
  | none => false

def bread (m : Machine) (b : Nat) : Machine :=
  { m with cache := Function.update m.cache b (some ⟨view m b, dirty m b⟩) }

/- bwrite of the locked buffer of block b holding v: iderw clears B_DIRTY. -/
def bwrite (m : Machine) (b : Nat) (v : Block) : Machine :=
  { m with disk := Function.update m.disk b v, cache := Function.update m.cache b (some ⟨v, false⟩) }

def panicWith (m : Machine) (msg : String) : Machine := { m with pc := .panic msg }

def tooBig : String := "too big a transaction"

def insideSection (m : Machine) (p : Nat) : Bool := m.sections.any (fun s => s.pid == p)
def calling (m : Machine) (p : Nat) : Bool := m.calls.any (fun c => c.pid == p)

/- begin_op's test, under log.lock; false means that the process sleeps. -/
def admits (l : LogStruct) : Bool :=
  !l.committing && decide (l.lh.length + (l.outstanding + 1) * MAXOPBLOCKS ≤ LOGSIZE)

def beginOp (m : Machine) (p : Nat) : Machine :=
  { m with log := { m.log with outstanding := m.log.outstanding + 1 },
           sections := ⟨p, []⟩ :: m.sections }

/- log_write's first test, made without the lock. -/
def full (l : LogStruct) : Bool := decide (l.lh.length ≥ LOGSIZE ∨ l.lh.length ≥ l.size - 1)

def logWrite (m : Machine) (p b : Nat) : Machine :=
  if full m.log then panicWith m tooBig
  else if m.log.outstanding < 1 then panicWith m "log_write outside of trans"
  else { m with
    calls := ⟨p, b⟩ :: m.calls,
    sections := m.sections.map (fun s => if s.pid = p then { s with blocks := b :: s.blocks } else s) }

/- The loop over lh.block and the absorption, under log.lock. -/
def absorb (lh : List Nat) (b : Nat) : List Nat :=
  let i := lh.findIdx (fun x => x == b)
  if i = lh.length then lh ++ [b] else lh.set i b

def record (m : Machine) (p b : Nat) (v : Block) : Machine :=
  { m with log := { m.log with lh := absorb m.log.lh b },
           cache := Function.update m.cache b (some ⟨v, true⟩),
           calls := m.calls.erase ⟨p, b⟩ }

/- commit() writes nothing when the transaction is empty. -/
def commitStart (lh : List Nat) : Pc := if lh = [] then .commitDone else .writeLog 0

def endOp (m : Machine) (p : Nat) : Machine :=
  let n := m.log.outstanding - 1
  let m' := { m with log := { m.log with outstanding := n },
                     sections := m.sections.filter (fun s => s.pid != p) }
  if m.log.committing then panicWith m' "log.committing"
  else if n = 0 then
    { m' with log := { m'.log with committing := true }, pc := commitStart m.log.lh }
  else m'

/- One block write of write_log, write_head or install_trans. -/
def writeStep (m : Machine) : Option Machine :=
  match m.pc with
  | .writeLog t =>
    (m.log.lh[t]?).map (fun b =>
      let m' := bwrite (bread m b) (m.log.start + t + 1) (view m b)
      { m' with pc := if t + 1 < m.log.lh.length then .writeLog (t + 1) else .writeHead })
  | .writeHead =>
    some { bwrite m m.log.start (putHead (view m m.log.start) m.log.lh) with pc := .install 0 }
  | .install t =>
    (m.log.lh[t]?).map (fun b =>
      let m' := bwrite (bread m (m.log.start + t + 1)) b (view m (m.log.start + t + 1))
      if t + 1 < m.log.lh.length then { m' with pc := .install (t + 1) }
      else { m' with log := { m'.log with lh := [] }, pc := .clearHead })
  | .clearHead =>
    some { bwrite m m.log.start (putHead (view m m.log.start) m.log.lh) with
      pc := if m.log.committing then .commitDone else .idle }
  | _ => none

/- initlog up to the first block write of recover_from_log. -/
def initlog (m : Machine) : Machine :=
  let m' := bread m 1
  let sb := decodeSb (view m 1)
  let m' := { m' with log := { LogStruct.empty with start := sb.logstart, size := sb.nlog } }
  let lh := getHead (view m' sb.logstart)
  { bread m' sb.logstart with
    log := { m'.log with lh := lh }, pc := if lh = [] then .clearHead else .install 0 }

def powered (m : Machine) : Bool :=
  match m.pc with
  | .off | .panic _ => false
  | _ => true

def step (m : Machine) : Label → Option Machine
  | .beginOp p =>
    if m.pc = .idle ∧ !insideSection m p ∧ admits m.log then some (beginOp m p) else none
  | .logWrite p b =>
    if m.pc = .idle ∧ insideSection m p ∧ !calling m p ∧ b < FSSIZE then some (logWrite m p b)
    else none
  | .record p b v =>
    if m.pc = .idle ∧ ⟨p, b⟩ ∈ m.calls then some (record m p b v) else none
  | .endOp p =>
    if m.pc = .idle ∧ insideSection m p ∧ !calling m p then some (endOp m p) else none
  | .write => writeStep m
  | .finish =>
    if m.pc = .commitDone then some { m with log := { m.log with committing := false }, pc := .idle }
    else none
  | .fill b => if powered m ∧ b < FSSIZE then some (bread m b) else none
  | .evict b =>
    if powered m ∧ !dirty m b then some { m with cache := Function.update m.cache b none } else none
  | .crash => some (powerOff m.disk)
  | .boot => if m.pc = .off then some (initlog m) else none

end Xv6c.Log
