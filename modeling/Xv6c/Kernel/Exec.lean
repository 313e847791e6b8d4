import Xv6c.Kernel.Proc

/-! exec.c, with loaduvm of vm.c. -/
namespace Xv6c
open Lib

def ELF_MAGIC : BitVec 32 := 0x464C457F
def ELF_PROG_LOAD : BitVec 32 := 1
def elfhdrSize : Nat := 52
def proghdrSize : Nat := 32

/- The fields of struct elfhdr and struct proghdr that exec reads. -/
structure ElfHdr where
  magic : BitVec 32
  entry : Nat
  phoff : Nat
  phnum : Nat

structure ProgHdr where
  type : BitVec 32
  off : Nat
  vaddr : Nat
  filesz : Nat
  memsz : Nat

def getElfHdr (b : Bytes) : ElfHdr :=
  ⟨word b 0, (word b 6).toNat, (word b 7).toNat, (b 44).toNat + 256 * (b 45).toNat⟩

def getProgHdr (b : Bytes) : ProgHdr :=
  ⟨word b 0, (word b 1).toNat, (word b 2).toNat, (word b 4).toNat, (word b 5).toNat⟩

/- The loop of loaduvm from byte i of the segment on; false is -1. -/
def loadLoop (p : ProcId) (pgdir addr ip offset sz : Nat) : Nat → Nat → KM Bool
  | 0, _ => Prog.fault .hang
  | n + 1, i =>
    if i < sz then do
      match ← onMem p (Mem.walkpgdir pgdir (addr + i) false) with
      | none => panic "loaduvm: address should exist"
      | some (t, j) =>
        let k ← Prog.get
        let pa := Mem.ptePage (word (k.kmem.mem t) j)
        let m := min (sz - i) PGSIZE
        let (r, data) ← onFs p (Fs.readi ip ((offset + i) % 2 ^ 32) m)
        let k ← Prog.get
        onMem p (Mem.setPage pa (copyIn (k.kmem.mem pa) 0 r.toNat data))
        if r ≠ m then pure false else loadLoop p pgdir addr ip offset sz n (i + PGSIZE)
    else pure true

def loaduvm (p : ProcId) (pgdir addr ip offset sz : Nat) : KM Bool :=
  if addr % PGSIZE ≠ 0 then panic "loaduvm: addr must be page aligned"
  else loadLoop p pgdir addr ip offset sz (sz / PGSIZE + 2) 0

/- The loop of exec over n program headers from off on, with the image size so far;
none is bad. -/
def loadProgram (p : ProcId) (ip pgdir : Nat) : Nat → Nat → Nat → KM (Option Nat)
  | 0, _, sz => pure (some sz)
  | n + 1, off, sz => do
    let (r, b) ← onFs p (Fs.readi ip off proghdrSize)
    let ph := getProgHdr b
    let next := (off + proghdrSize) % 2 ^ 32
    if r ≠ proghdrSize then pure none
    else if ph.type ≠ ELF_PROG_LOAD then loadProgram p ip pgdir n next sz
    else if ph.memsz < ph.filesz then pure none
    else if (ph.vaddr + ph.memsz) % 2 ^ 32 < ph.vaddr then pure none
    else
      let sz ← onMem p (Mem.allocuvm pgdir sz ((ph.vaddr + ph.memsz) % 2 ^ 32))
      if sz = 0 then pure none
      else if ph.vaddr % PGSIZE ≠ 0 then pure none
      else
        let done ← loaduvm p pgdir ph.vaddr ip ph.off ph.filesz
        if done then loadProgram p ip pgdir n next sz else pure none

def cstring (s : Fs.CStr) : Bytes := fun i => s.bytes.getD i 0

/- (sp - n) & ~3, as a uint. -/
def pushed (sp n : Nat) : Nat := (sp + 2 ^ 32 - n % 2 ^ 32) % 2 ^ 32 / 4 * 4

/- The loop of exec that pushes the argument strings: the stack pointer and where the
strings are; none is bad. -/
def pushArgs (p : ProcId) (pgdir : Nat) : List Fs.CStr → Nat → List Nat → KM (Option (Nat × List Nat))
  | [], sp, done => pure (some (sp, done))
  | arg :: args, sp, done => do
    if MAXARG ≤ done.length then pure none
    else
      let len := arg.bytes.length + 1
      let sp := pushed sp len
      let ok ← onMem p (Mem.copyout pgdir sp (cstring arg) len)
      if ok then pushArgs p pgdir args sp (done ++ [sp]) else pure none

/- ustack, for a stack pointer below the strings. -/
def ustack (sp : Nat) (args : List Nat) : List Nat :=
  [2 ^ 32 - 1, args.length, (sp + 2 ^ 32 - (args.length + 1) * 4) % 2 ^ 32] ++ args ++ [0]

def wordsAt (ws : List Nat) : Bytes := setWords zeros 0 ws.length fun i => BitVec.ofNat 32 (ws.getD i 0)

/- The part of a path behind its last slash, cut by safestrcpy. -/
def progName (path : List Byte) : List Byte :=
  ((path.reverse.takeWhile (· != Fs.slash)).reverse).take 15

/- bad, while the inode is held and after it was put. -/
def execBad (p : ProcId) (pgdir : Nat) (ip : Option Nat) : KM Int := do
  if pgdir ≠ 0 then onMem p (Mem.freevm pgdir)
  if let some ip := ip then
    onFs p (Fs.iunlockput ip)
    onFs p Fs.endOp
  pure (-1)

/- exec behind the loading of the program of size sz. -/
def execStack (p : ProcId) (path : Fs.CStr) (argv : List Fs.CStr) (entry pgdir sz : Nat) : KM Int := do
  let base := PGROUNDUP sz
  let sz ← onMem p (Mem.allocuvm pgdir base ((base + 2 * PGSIZE) % 2 ^ 32))
  if sz = 0 then execBad p pgdir none
  else
    onMem p (Mem.clearpteu pgdir (sz - 2 * PGSIZE))
    match ← pushArgs p pgdir argv sz [] with
    | none => execBad p pgdir none
    | some (sp, args) =>
      let words := ustack sp args
      let sp := (sp + 2 ^ 32 - words.length * 4) % 2 ^ 32
      let ok ← onMem p (Mem.copyout pgdir sp (wordsAt words) (words.length * 4))
      if ok then
        let k ← Prog.get
        let oldpgdir := (k.procAt p).pgdir
        modifyProc p fun q => { q with
          name := progName path.bytes, pgdir := pgdir, sz := sz
          tf := { q.tf with eip := entry, esp := sp } }
        switchuvm p
        onMem p (Mem.freevm oldpgdir)
        pure 0
      else execBad p pgdir none

def exec (p : ProcId) (path : Fs.CStr) (argv : List Fs.CStr) : KM Int := do
  onFs p Fs.beginOp
  let k ← Prog.get
  match ← onFs p (Fs.namei (k.walker p) path) with
  | none =>
    onFs p Fs.endOp
    pure (-1)
  | some ip =>
    onFs p (Fs.ilock ip)
    let (r, b) ← onFs p (Fs.readi ip 0 elfhdrSize)
    let elf := getElfHdr b
    if r ≠ elfhdrSize ∨ elf.magic ≠ ELF_MAGIC then execBad p 0 (some ip)
    else
      let pgdir ← onMem p Mem.setupkvm
      if pgdir = 0 then execBad p 0 (some ip)
      else
        match ← loadProgram p ip pgdir elf.phnum elf.phoff 0 with
        | none => execBad p pgdir (some ip)
        | some sz =>
          onFs p (Fs.iunlockput ip)
          onFs p Fs.endOp
          execStack p path argv elf.entry pgdir sz

end Xv6c
