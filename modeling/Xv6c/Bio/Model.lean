import Xv6c.Lib.Ring
import Xv6c.Log.Model

/-! bio.c over the disk of memide.c, with its users in log.c. bread is two steps,
since a process may sleep between the reference that bget takes under bcache.lock
and the sleep lock of the buffer. A panic and a process that would sleep have no
step. The processes hold the pointers that the locks give them: a buffer is
changed, stored and released by the process that holds its lock. -/
namespace Xv6c.Bio
open Lib
open Function (update)

/- struct buf without its links; lock is the pid that holds the sleep lock. -/
structure Buf where
  valid : Bool
  dirty : Bool
  dev : Nat
  blockno : Nat
  lock : Option Nat
  refcnt : Nat
  data : Block

/- The sentinel bcache.head stands behind buf[NBUF - 1]. -/
def head : Nat := NBUF

structure Bcache where
  buf : Nat → Buf
  link : Links Nat
  disksize : Nat
  memdisk : Nat → Block

def Bcache.set (c : Bcache) (i : Nat) (b : Buf) : Bcache := { c with buf := update c.buf i b }

/- The state of the bss segment. -/
def zeroBuf : Buf := ⟨false, false, 0, 0, none, 0, zeros⟩

def binitLinks : Links Nat :=
  (List.range NBUF).foldl (fun r b => r.insertFront head b) ⟨fun _ => head, fun _ => head⟩

def binit (disksize : Nat) (memdisk : Nat → Block) : Bcache :=
  ⟨fun _ => zeroBuf, binitLinks, disksize, memdisk⟩

def carries (c : Bcache) (dev blockno i : Nat) : Bool :=
  (c.buf i).dev == dev && (c.buf i).blockno == blockno

def recyclable (c : Bcache) (i : Nat) : Bool := (c.buf i).refcnt == 0 && !(c.buf i).dirty

/- bget up to the release of bcache.lock. -/
def bget (c : Bcache) (dev blockno : Nat) : Option (Nat × Bcache) :=
  match scan c.link.next (carries c dev blockno) head (NBUF + 1) (c.link.next head) with
  | some i => some (i, c.set i { c.buf i with refcnt := (c.buf i).refcnt + 1 })
  | none =>
    match scan c.link.prev (recyclable c) head (NBUF + 1) (c.link.prev head) with
    | some i => some (i, c.set i { c.buf i with
        dev := dev, blockno := blockno, valid := false, dirty := false, refcnt := 1 })
    | none => none -- panic("bget: no buffers")

/- acquiresleep; none while another process holds the lock. -/
def acquiresleep (c : Bcache) (pid i : Nat) : Option Bcache :=
  if (c.buf i).lock = none then some (c.set i { c.buf i with lock := some pid }) else none

def holdingsleep (c : Bcache) (pid i : Nat) : Bool := (c.buf i).lock == some pid

def iderw (c : Bcache) (pid i : Nat) : Option Bcache :=
  let b := c.buf i
  if !holdingsleep c pid i then none
  else if b.valid && !b.dirty then none
  else if b.dev ≠ ROOTDEV then none
  else if b.blockno ≥ c.disksize then none
  else if b.dirty then
    some { c.set i { b with dirty := false, valid := true } with
      memdisk := update c.memdisk b.blockno b.data }
  else some (c.set i { b with data := c.memdisk b.blockno, valid := true })

/- bread behind bget. -/
def breadLocked (c : Bcache) (pid i : Nat) : Option Bcache :=
  (acquiresleep c pid i).bind (fun c => if (c.buf i).valid then some c else iderw c pid i)

def bwrite (c : Bcache) (pid i : Nat) : Option Bcache :=
  if !holdingsleep c pid i then none
  else iderw (c.set i { c.buf i with dirty := true }) pid i

def brelse (c : Bcache) (pid i : Nat) : Option Bcache :=
  if !holdingsleep c pid i then none
  else
    let n := (c.buf i).refcnt - 1
    let c := c.set i { c.buf i with lock := none, refcnt := n }
    some (if n = 0 then { c with link := (c.link.unlink i).insertFront head i } else c)

/- A bread call that is past bget. -/
structure Request where
  pid : Nat
  blockno : Nat
  deriving DecidableEq, Repr

/- The kernel as far as it uses the cache: the bread calls that wait for the lock
of each buffer, the buffers whose data the lock's holder has changed and not yet
stored, and the block numbers of the log header. -/
structure State where
  cache : Bcache
  waiting : Nat → List Request
  changed : Nat → Bool
  lh : List Nat

inductive Label where
  | bget (r : Request)
  | lock (r : Request) (i : Nat)
  | modify (pid i : Nat) (v : Block)
  | logWrite (pid i : Nat)
  | bwrite (pid i : Nat)
  | brelse (pid i : Nat)
  | clear

/- The locked region of log_write: its tests before the lock only panic. A
changed buffer is stored before it is released. clear is commit's log.lh.n = 0. -/
def step (s : State) : Label → Option State
  | .bget r => (bget s.cache ROOTDEV r.blockno).map (fun (i, c) =>
      { s with cache := c, waiting := update s.waiting i (r :: s.waiting i) })
  | .lock r i =>
    if r ∈ s.waiting i then (breadLocked s.cache r.pid i).map (fun c =>
      { s with cache := c, waiting := update s.waiting i ((s.waiting i).erase r) })
    else none
  | .modify pid i v =>
    if holdingsleep s.cache pid i then
      some { s with cache := s.cache.set i { s.cache.buf i with data := v },
                    changed := update s.changed i true }
    else none
  | .logWrite pid i =>
    if holdingsleep s.cache pid i then
      some { s with cache := s.cache.set i { s.cache.buf i with dirty := true },
                    changed := update s.changed i false,
                    lh := Log.absorb s.lh (s.cache.buf i).blockno }
    else none
  | .bwrite pid i => (bwrite s.cache pid i).map (fun c =>
      { s with cache := c, changed := update s.changed i false })
  | .brelse pid i =>
    if s.changed i then none else (brelse s.cache pid i).map (fun c => { s with cache := c })
  | .clear => some { s with lh := [] }

/- The plain block store that the cache stands for, kept beside it: what was last
stored in each block, whether that was by log_write, and the buffers in the order
of their releases, the latest first. A buffer is freed by the release of its last
reference. -/
structure Store where
  contents : Nat → Block
  logged : Nat → Bool
  released : List Nat
  freed : List Nat

def Store.write (v : Store) (b : Nat) (data : Block) (log : Bool) : Store :=
  { v with contents := update v.contents b data, logged := update v.logged b log }

def observe (s : State) (v : Store) : Label → Store
  | .logWrite _ i => v.write (s.cache.buf i).blockno (s.cache.buf i).data true
  | .bwrite _ i => v.write (s.cache.buf i).blockno (s.cache.buf i).data false
  | .brelse _ i =>
    { v with released := i :: v.released,
             freed := if (s.cache.buf i).refcnt = 1 then i :: v.freed else v.freed }
  | _ => v

structure World where
  state : State
  store : Store

def act (w : World) (l : Label) : Option World :=
  (step w.state l).map (fun s => ⟨s, observe w.state w.store l⟩)

def boot (disksize : Nat) (memdisk : Nat → Block) : World :=
  ⟨⟨binit disksize memdisk, fun _ => [], fun _ => false, []⟩,
    ⟨memdisk, fun _ => false, [], []⟩⟩

/- A bread that does not wait. -/
def bread (pid b : Nat) (w : World) : Option (Nat × World) :=
  (bget w.state.cache ROOTDEV b).bind (fun (i, _) =>
    (act w (.bget ⟨pid, b⟩)).bind (fun w => (act w (.lock ⟨pid, b⟩ i)).map (fun w => (i, w))))

/- memmove from the data of one locked buffer to another's, and bwrite of that. -/
def storeCopy (pid source target : Nat) (w : World) : Option World :=
  (act w (.modify pid target (w.state.cache.buf source).data)).bind (fun w =>
    act w (.bwrite pid target))

def release (pid i : Nat) (w : World) : Option World := act w (.brelse pid i)

def writeLog (pid start : Nat) : Nat → List Nat → World → Option World
  | _, [], w => some w
  | tail, b :: bs, w => do
    let (lbuf, w) ← bread pid (start + tail + 1) w
    let (source, w) ← bread pid b w
    let w ← storeCopy pid source lbuf w
    let w ← release pid source w
    let w ← release pid lbuf w
    writeLog pid start (tail + 1) bs w

def installTrans (pid start : Nat) : Nat → List Nat → World → Option World
  | _, [], w => some w
  | tail, b :: bs, w => do
    let (lbuf, w) ← bread pid (start + tail + 1) w
    let (dbuf, w) ← bread pid b w
    let w ← storeCopy pid lbuf dbuf w
    let w ← release pid lbuf w
    let w ← release pid dbuf w
    installTrans pid start (tail + 1) bs w

def writeHead (pid start : Nat) (w : World) : Option World := do
  let (i, w) ← bread pid start w
  let w ← act w (.modify pid i (putHead (w.state.cache.buf i).data w.state.lh))
  let w ← act w (.bwrite pid i)
  release pid i w

def commit (pid start : Nat) (w : World) : Option World :=
  match w.state.lh with
  | [] => some w
  | b :: bs => do
    let w ← writeLog pid start 0 (b :: bs) w
    let w ← writeHead pid start w
    let w ← installTrans pid start 0 (b :: bs) w
    let w ← act w .clear
    writeHead pid start w

end Xv6c.Bio
