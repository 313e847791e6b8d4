import Mathlib.Algebra.Group.Int.Defs
import Mathlib.Algebra.Group.Nat.Defs
import Mathlib.Tactic.Common

/-! The constants of param.h, fs.h, mkfs.c, memlayout.h and mmu.h. -/
namespace Xv6c

def NCONT : Nat := 8
def NPROC : Nat := 64
def NOFILE : Nat := 16
def NFILE : Nat := 100
def NINODE : Nat := 50

def MAXARG : Nat := 32
def MAXOPBLOCKS : Nat := 10
def LOGSIZE : Nat := MAXOPBLOCKS * 3
def NBUF : Nat := MAXOPBLOCKS * 3
def ROOTDEV : Nat := 1
def FSSIZE : Nat := 100000
def ROOTCONT : Int := 1
def MAX_CONT_MEM : Nat := NPROC * 4096 * 1024
def MAX_CONT_DSK : Nat := NPROC * 1024 * 4096

def ROOTINO : Nat := 1
def BSIZE : Nat := 512
def NDIRECT : Nat := 12
def NINDIRECT : Nat := BSIZE / 4
def MAXFILE : Nat := NDIRECT + NINDIRECT
def IPB : Nat := BSIZE / 64
def BPB : Nat := BSIZE * 8
def DIRSIZ : Nat := 14
def NINODES : Nat := 200

def PGSIZE : Nat := 4096
def EXTMEM : Nat := 0x100000
def PHYSTOP : Nat := 0xE000000
def DEVSPACE : Nat := 0xFE000000
def KERNBASE : Nat := 0x80000000
def NPDENTRIES : Nat := 1024

def PGROUNDUP (a : Nat) : Nat := (a + PGSIZE - 1) / PGSIZE * PGSIZE
def PGROUNDDOWN (a : Nat) : Nat := a / PGSIZE * PGSIZE
def PDX (va : Nat) : Nat := va / 2 ^ 22 % 1024
def PTX (va : Nat) : Nat := va / 2 ^ 12 % 1024

end Xv6c
