import Xv6c.Fs.Format
import Xv6c.Lib.Prog
import Xv6c.Log.Model

/-! The kernel's tables. Pointers into a table are indices of it, pointers to pages
are page numbers, and there is one disk, so dev arguments are left out. Counters
of C type int are integers, wrapped where the code can run that far. -/
namespace Xv6c
open Lib

inductive ProcState where
  | unused | embryo | sleeping | runnable | running | zombie
  deriving DecidableEq, Repr

inductive ContState where
  | cunused | cembryo | cready | crunnable | crunning | cpaused | cstopping
  deriving DecidableEq, Repr

/- struct inode: a slot of the inode cache, with its copy of the disk inode. -/
structure Inode where
  inum : Nat
  ref : Int
  locked : Bool
  valid : Bool
  d : Fs.Dinode

/- What fs.c works on. The contents of a block are those that bread delivers; input
is what has been typed on the console and not yet read. -/
structure FileSys where
  disk : Nat → Block
  log : Log.LogStruct
  sb : Superblock
  icache : Nat → Inode
  input : List Byte

/- The pages of physical memory by page number, and the head of the free list; page
0 stands for the null pointer. The kernel is linked so that its data starts in page
dataPg and the first page behind it is endPg; kpgdir is the scheduler's page table. -/
structure Kmem where
  mem : Nat → Bytes
  freelist : Nat
  dataPg : Nat
  endPg : Nat
  kpgdir : Nat

inductive FileType where
  | none | pipe | inode
  deriving DecidableEq, Repr

structure File where
  type : FileType
  ref : Int
  readable : Bool
  writable : Bool
  pipe : Nat
  ip : Nat
  off : Nat

structure ProcId where
  cont : Nat
  slot : Nat
  deriving DecidableEq, Repr

/- What a process can sleep on between two system calls. -/
inductive Chan where
  | proc (p : ProcId)
  | nread (pipe : Nat)
  | nwrite (pipe : Nat)
  | input
  deriving DecidableEq, Repr

/- The registers of the trap frame that the kernel sets. -/
structure Trapframe where
  eax : Nat
  eip : Nat
  esp : Nat
  deriving DecidableEq, Repr

structure Proc where
  sz : Nat
  pgdir : Nat
  kstack : Nat
  state : ProcState
  pid : Int
  parent : Option ProcId
  tf : Trapframe
  chan : Option Chan
  killed : Bool
  ofile : Nat → Option Nat
  cwd : Option Nat
  name : List Byte
  ticks : Nat
  cont : Nat

/- struct cont; the process table of container i is row i of the table of processes. -/
structure Cont where
  msz : Nat
  mdsk : Nat
  mproc : Int
  upg : Nat
  udsk : Nat
  uproc : Int
  cid : Int
  rootdir : Option Nat
  state : ContState
  name : List Byte
  nextproc : Int

structure Kernel where
  fs : FileSys
  kmem : Kmem
  file : Nat → File
  cont : Nat → Cont
  proc : Nat → Nat → Proc
  nextcid : Int
  nextpid : Int
  initproc : ProcId

/- The tables as the kernel finds them when it starts: all zero. -/
def Inode.zero : Inode := ⟨0, 0, false, false, Fs.Dinode.zero⟩
def File.zero : File := ⟨.none, 0, false, false, 0, 0, 0⟩
def Proc.zero : Proc :=
  ⟨0, 0, 0, .unused, 0, none, ⟨0, 0, 0⟩, none, false, fun _ => none, none, [], 0, 0⟩
def Cont.zero : Cont := ⟨0, 0, 0, 0, 0, 0, 0, none, .cunused, [], 0⟩

def Kernel.zero : Kernel where
  fs := ⟨fun _ => zeros, ⟨0, 0, 0, false, []⟩, ⟨0, 0, 0, 0, 0, 0, 0⟩, fun _ => .zero, []⟩
  kmem := ⟨fun _ => zeros, 0, 0, 0, 0⟩
  file _ := .zero
  cont _ := .zero
  proc _ _ := .zero
  nextcid := 1
  nextpid := 1
  initproc := ⟨0, 0⟩

/- What a run reports that its state does not show afterwards. -/
inductive FsEvent where
  /- balloc refused: the container is at its disk limit. -/
  | refused
  /- namex held a walk back at the root directory. -/
  | turnedBack
  /- a reference count ran past the largest int. -/
  | overflow
  /- log_write of block b. -/
  | logged (b : Nat)
  deriving DecidableEq, Repr

/- kfree of a page, with the allocator as it was. -/
structure Freed where
  before : Kmem
  page : Nat

inductive Event where
  | fs (e : FsEvent)
  | mem (e : Freed)

inductive Fault where
  | panic (msg : String)
  /- a process waits for a lock that it holds itself -/
  | deadlock
  /- the kernel follows a null pointer or one into unmapped memory -/
  | trap
  /- the process sleeps in the middle of a call -/
  | blocked
  | hang
  deriving DecidableEq, Repr

def maxInt : Int := 2 ^ 31 - 1

/- x++ for an int. -/
def incr (x : Int) : Int := if x = maxInt then -(2 ^ 31) else x + 1

/- strncmp, on the bytes before the NUL. -/
def strncmp : List Byte → List Byte → Nat → Int
  | _, _, 0 => 0
  | p, q, n + 1 =>
    if p.headD 0 ≠ 0 ∧ p.headD 0 = q.headD 0 then strncmp p.tail q.tail n
    else (p.headD 0).toNat - (q.headD 0).toNat

end Xv6c
