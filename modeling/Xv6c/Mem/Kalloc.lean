import Xv6c.Kernel.State

/-! kalloc.c. The free list is threaded through the first word of its pages. The
model starts after userinit, so that userinited is set and every page is charged to
the container of the calling process. -/
namespace Xv6c.Mem
open Lib

/- The allocator and the memory account of the calling process's container. -/
structure MemState extends Kmem where
  upg : Nat
  msz : Nat
  cstate : ContState

abbrev MemM := Prog Freed Fault MemState

def panic {A : Type} (msg : String) : MemM A := Prog.fault (.panic msg)

/- The kernel's pointer to a page, as a word of memory. -/
def pageAddr (page : Nat) : BitVec 32 :=
  if page = 0 then 0 else BitVec.ofNat 32 (KERNBASE + page * PGSIZE)

def addrPage (w : BitVec 32) : Nat := if w = 0 then 0 else (w.toNat - KERNBASE) / PGSIZE

def setPage (page : Nat) (v : Bytes) : MemM Unit :=
  Prog.modify fun s => { s with mem := Function.update s.mem page v }

def setEntry (page i : Nat) (w : BitVec 32) : MemM Unit :=
  Prog.modify fun s => { s with mem := Function.update s.mem page (setWord (s.mem page) i w) }

def ckill : MemM Unit := Prog.modify fun s => { s with cstate := .cstopping }

def kfree (page : Nat) : MemM Unit := do
  let s ← Prog.get
  if page < s.endPg ∨ PHYSTOP / PGSIZE ≤ page then panic "kfree"
  else
    Prog.emit ⟨s.toKmem, page⟩
    setPage page (fun _ => 1)
    setEntry page 0 (pageAddr s.freelist)
    Prog.modify fun s => { s with freelist := page, upg := if 0 < s.upg then s.upg - 1 else s.upg }

def kalloc : MemM Nat := do
  let s ← Prog.get
  if s.msz < (s.upg * PGSIZE + PGSIZE) % 2 ^ 32 then
    ckill
    pure 0
  else if s.freelist = 0 then pure 0
  else
    Prog.modify fun s => { s with
      freelist := addrPage (word (s.mem s.freelist) 0)
      upg := s.upg + 1 }
    pure s.freelist

end Xv6c.Mem
