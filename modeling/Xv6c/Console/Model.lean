import Xv6c.Lib.Bytes
import Xv6c.Lib.Machine
import Xv6c.Lib.Window
import Xv6c.Param

/-! The input side of console.c. Its functions work under cons.lock, so what one of them
does from an acquire to the next release or sleep is one step. A process in consoleread
is known by a number, and a wakeup of &input.r reaches every process that sleeps there. -/
namespace Xv6c.Console
open Lib

def INPUT_BUF : Nat := 128

/- struct input; buf is read and written at indices below INPUT_BUF only. -/
structure Input where
  buf : Nat → Byte
  r : BitVec 32
  w : BitVec 32
  e : BitVec 32

/- input, active and buffers. -/
structure Cons where
  input : Input
  active : Nat
  buffers : Nat → Input

def nextconsole (c : Cons) : Cons :=
  let buffers := Function.update c.buffers c.active c.input
  let active := (c.active + 1) % NCONT
  ⟨buffers active, active, buffers⟩

def ctrlD : Byte := 4
def ctrlH : Byte := 8
def ctrlP : Byte := 16
def ctrlT : Byte := 20
def ctrlU : Byte := 21
def del : Byte := 0x7f
def newline : Byte := 10
def carriageReturn : Byte := 13

/- The loop of the case C('U'). -/
def killLine : Nat → Input → Input
  | 0, i => i
  | n + 1, i =>
    if i.e ≠ i.w ∧ i.buf ((i.e - 1).toNat % INPUT_BUF) ≠ newline then
      killLine n { i with e := i.e - 1 }
    else i

/- A call of consoleread for a device of this minor: of target bytes n are still to be
read. -/
structure Call where
  minor : Int
  target : Nat
  n : Nat
  deriving DecidableEq, Repr

inductive Reader where
  | idle
  | sleeping (call : Call)
  | runnable (call : Call)
  deriving DecidableEq, Repr

/- given holds what the readers of each minor have taken from input, in order. -/
structure State where
  cons : Cons
  reader : Nat → Reader
  killed : Nat → Bool
  given : Int → List Byte

/- wakeup(&input.r). -/
def Reader.woken : Reader → Reader
  | .sleeping call => .runnable call
  | q => q

def wakeup (s : State) : State := { s with reader := fun p => (s.reader p).woken }

def setInput (s : State) (i : Input) : State := { s with cons := { s.cons with input := i } }

/- The default case of consoleintr. -/
def store (s : State) (c : Byte) : State :=
  let i := s.cons.input
  if c ≠ 0 ∧ (i.e - i.r).toNat < INPUT_BUF then
    let c := if c = carriageReturn then newline else c
    let i := { i with buf := Function.update i.buf (i.e.toNat % INPUT_BUF) c, e := i.e + 1 }
    if c = newline ∨ c = ctrlD ∨ i.e = i.r + BitVec.ofNat 32 INPUT_BUF then
      wakeup (setInput s { i with w := i.e })
    else setInput s i
  else s

/- The switch of consoleintr. -/
def key (s : State) (c : Byte) : State :=
  let i := s.cons.input
  if c = ctrlP then s
  else if c = ctrlT then { s with cons := nextconsole s.cons }
  else if c = ctrlU then setInput s (killLine (i.e - i.w).toNat i)
  else if c = ctrlH ∨ c = del then if i.e ≠ i.w then setInput s { i with e := i.e - 1 } else s
  else store s c

/- consoleintr, when getc gives these bytes. -/
def consoleintr (s : State) (bytes : List Byte) : State := bytes.foldl key s

inductive Outcome where
  | sleeps (call : Call)
  | returns (r : Int)
  deriving DecidableEq, Repr

/- The loop of consoleread with n bytes to go, up to where the process sleeps or the call
returns, and what it took from input. -/
def readLoop (killed : Bool) (minor : Int) (target : Nat) :
    Nat → Cons → List Byte → Cons × List Byte × Outcome
  | 0, c, took => (c, took, .returns target)
  | n + 1, c, took =>
    let i := c.input
    if i.r = i.w ∨ (c.active : Int) ≠ minor then
      if killed then (c, took, .returns (-1)) else (c, took, .sleeps ⟨minor, target, n + 1⟩)
    else
      let b := i.buf (i.r.toNat % INPUT_BUF)
      let i := { i with r := i.r + 1 }
      if b = ctrlD then
        if n + 1 < target then
          ({ c with input := { i with r := i.r - 1 } }, took, .returns (target - (n + 1)))
        else ({ c with input := i }, took ++ [b], .returns (target - (n + 1)))
      else if b = newline then ({ c with input := i }, took ++ [b], .returns (target - n))
      else readLoop killed minor target n { c with input := i } (took ++ [b])

/- consoleread of process p, from its start or from where it was woken. -/
def consoleread (s : State) (p : Nat) (call : Call) : State :=
  let (cons, took, out) := readLoop (s.killed p) call.minor call.target call.n s.cons []
  { s with
    cons := cons
    given := Function.update s.given call.minor (s.given call.minor ++ took)
    reader := Function.update s.reader p (match out with
      | .sleeps call => .sleeping call
      | .returns _ => .idle) }

inductive Label where
  | keys (bytes : List Byte)
  | call (p : Nat) (minor : Int) (n : Nat)
  | resume (p : Nat)
  | kill (p : Nat)

def step (s : State) : Label → Option State
  | .keys bytes => some (consoleintr s bytes)
  | .call p minor n =>
    match s.reader p with
    | .idle => some (consoleread s p ⟨minor, n, n⟩)
    | _ => none
  | .resume p =>
    match s.reader p with
    | .runnable call => some (consoleread s p call)
    | _ => none
  | .kill p => some { s with
    killed := Function.update s.killed p true
    reader := Function.update s.reader p (s.reader p).woken }

def boot : State where
  cons := ⟨⟨fun _ => 0, 0, 0, 0⟩, 1, fun _ => ⟨fun _ => 0, 0, 0, 0⟩⟩
  reader _ := .idle
  killed _ := false
  given _ := []

/- The input of console m, active or saved. -/
def Cons.console (c : Cons) (m : Nat) : Input := if m = c.active then c.input else c.buffers m

end Xv6c.Console
