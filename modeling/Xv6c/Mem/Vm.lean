import Xv6c.Mem.Kalloc

/-! vm.c. Physical addresses are page aligned throughout, so they are given as page
numbers, and pa | flags is the concatenation of the page number and the flags. -/
namespace Xv6c.Mem
open Lib

def PTE_P : BitVec 12 := 1
def PTE_W : BitVec 12 := 2
def PTE_U : BitVec 12 := 4

def mkPte (page : Nat) (flags : BitVec 12) : BitVec 32 := BitVec.ofNat 20 page ++ flags
def ptePage (w : BitVec 32) : Nat := (w.extractLsb' 12 20).toNat
def pteFlags (w : BitVec 32) : BitVec 12 := w.extractLsb' 0 12
def present (w : BitVec 32) : Bool := (pteFlags w).getLsbD 0
def userBit (w : BitVec 32) : Bool := (pteFlags w).getLsbD 2

/- The page table entry for va, by its table and its index there. -/
def walkpgdir (pgdir va : Nat) (alloc : Bool) : MemM (Option (Nat × Nat)) := do
  let s ← Prog.get
  let pde := word (s.mem pgdir) (PDX va)
  if present pde then pure (some (ptePage pde, PTX va))
  else if !alloc then pure none
  else
    let pgtab ← kalloc
    if pgtab = 0 then pure none
    else
      setPage pgtab zeros
      setEntry pgdir (PDX va) (mkPte pgtab (PTE_P ||| PTE_W ||| PTE_U))
      pure (some (pgtab, PTX va))

/- The loop of mappages at a; false means that a page table could not be allocated. -/
def mapLoop (pgdir last : Nat) (perm : BitVec 12) : Nat → Nat → Nat → MemM Bool
  | 0, _, _ => Prog.fault .hang
  | n + 1, a, pa => do
    match ← walkpgdir pgdir a true with
    | none => pure false
    | some (t, i) =>
      let s ← Prog.get
      if present (word (s.mem t) i) then panic "remap"
      else
        setEntry t i (mkPte pa (perm ||| PTE_P))
        if a = last then pure true else mapLoop pgdir last perm n (a + PGSIZE) (pa + 1)

def mappages (pgdir va size pa : Nat) (perm : BitVec 12) : MemM Bool :=
  let a := PGROUNDDOWN va
  let last := PGROUNDDOWN ((va + size - 1) % 2 ^ 32)
  mapLoop pgdir last perm ((last - a) / PGSIZE + 1) a pa

/- The loop of deallocuvm at a. -/
def deallocLoop (pgdir oldsz : Nat) : Nat → Nat → MemM Unit
  | 0, _ => Prog.fault .hang
  | n + 1, a =>
    if a < oldsz then do
      match ← walkpgdir pgdir a false with
      | none => deallocLoop pgdir oldsz n ((PDX a + 1) * 2 ^ 22 % 2 ^ 32)
      | some (t, i) =>
        let s ← Prog.get
        let pte := word (s.mem t) i
        if present pte then
          if ptePage pte = 0 then panic "kfree"
          else
            kfree (ptePage pte)
            setEntry t i 0
            deallocLoop pgdir oldsz n ((a + PGSIZE) % 2 ^ 32)
        else deallocLoop pgdir oldsz n ((a + PGSIZE) % 2 ^ 32)
    else pure ()

def deallocuvm (pgdir oldsz newsz : Nat) : MemM Nat := do
  if oldsz ≤ newsz then pure oldsz
  else
    deallocLoop pgdir oldsz (oldsz / PGSIZE + 2) (PGROUNDUP newsz)
    pure newsz

/- The loop of freevm over the directory entries from i on, n of them. -/
def freeTables (pgdir : Nat) : Nat → Nat → MemM Unit
  | 0, _ => pure ()
  | n + 1, i => do
    let s ← Prog.get
    let pde := word (s.mem pgdir) i
    if present pde then kfree (ptePage pde)
    freeTables pgdir n (i + 1)

def freevm (pgdir : Nat) : MemM Unit := do
  if pgdir = 0 then panic "freevm: no pgdir"
  else
    let _ ← deallocuvm pgdir KERNBASE 0
    freeTables pgdir NPDENTRIES 0
    kfree pgdir

/- An entry of kmap: where it is mapped, the physical range and the permissions. -/
structure Kmap where
  virt : Nat
  physStart : Nat
  physEnd : Nat
  perm : BitVec 12

def kmap (m : Kmem) : List Kmap :=
  [⟨KERNBASE, 0, EXTMEM, PTE_W⟩,
    ⟨KERNBASE + EXTMEM, EXTMEM, m.dataPg * PGSIZE, 0⟩,
    ⟨KERNBASE + m.dataPg * PGSIZE, m.dataPg * PGSIZE, PHYSTOP, PTE_W⟩,
    ⟨DEVSPACE, DEVSPACE, 2 ^ 32, PTE_W⟩]

/- The loop of setupkvm. -/
def mapKernel (pgdir : Nat) : List Kmap → MemM Bool
  | [] => pure true
  | k :: ks => do
    let done ← mappages pgdir k.virt (k.physEnd - k.physStart) (k.physStart / PGSIZE) k.perm
    if done then mapKernel pgdir ks else pure false

def setupkvm : MemM Nat := do
  let pgdir ← kalloc
  if pgdir = 0 then pure 0
  else
    setPage pgdir zeros
    let s ← Prog.get
    let done ← mapKernel pgdir (kmap s.toKmem)
    if done then pure pgdir
    else
      freevm pgdir
      pure 0

/- The loop of allocuvm at a. -/
def allocLoop (pgdir oldsz newsz : Nat) : Nat → Nat → MemM Nat
  | 0, _ => Prog.fault .hang
  | n + 1, a =>
    if a < newsz then do
      let mem ← kalloc
      if mem = 0 then
        let _ ← deallocuvm pgdir newsz oldsz
        pure 0
      else
        setPage mem zeros
        let done ← mappages pgdir a PGSIZE mem (PTE_W ||| PTE_U)
        if done then allocLoop pgdir oldsz newsz n (a + PGSIZE)
        else
          let _ ← deallocuvm pgdir newsz oldsz
          kfree mem
          pure 0
    else pure newsz

def allocuvm (pgdir oldsz newsz : Nat) : MemM Nat :=
  if KERNBASE ≤ newsz then pure 0
  else if newsz < oldsz then pure oldsz
  else allocLoop pgdir oldsz newsz (newsz / PGSIZE + 2) (PGROUNDUP oldsz)

def clearpteu (pgdir uva : Nat) : MemM Unit := do
  match ← walkpgdir pgdir uva false with
  | none => panic "clearpteu"
  | some (t, i) =>
    let s ← Prog.get
    let pte := word (s.mem t) i
    setEntry t i (mkPte (ptePage pte) (pteFlags pte &&& ~~~ PTE_U))

/- The loop of copyuvm at i; false means bad. -/
def copyLoop (pgdir d sz : Nat) : Nat → Nat → MemM Bool
  | 0, _ => Prog.fault .hang
  | n + 1, i =>
    if i < sz then do
      match ← walkpgdir pgdir i false with
      | none => panic "copyuvm: pte should exist"
      | some (t, j) =>
        let s ← Prog.get
        let pte := word (s.mem t) j
        if !present pte then panic "copyuvm: page not present"
        else
          let mem ← kalloc
          if mem = 0 then pure false
          else
            setPage mem (s.mem (ptePage pte))
            let done ← mappages d i PGSIZE mem (pteFlags pte)
            if done then copyLoop pgdir d sz n (i + PGSIZE) else pure false
    else pure true

def copyuvm (pgdir sz : Nat) : MemM Nat := do
  let d ← setupkvm
  if d = 0 then pure 0
  else
    let done ← copyLoop pgdir d sz (sz / PGSIZE + 2) 0
    if done then pure d
    else
      freevm d
      pure 0

/- uva2ka: the page, or 0. The entry is read even where there is no page table. -/
def uva2ka (pgdir uva : Nat) : MemM Nat := do
  match ← walkpgdir pgdir uva false with
  | none => Prog.fault .trap
  | some (t, i) =>
    let s ← Prog.get
    let pte := word (s.mem t) i
    if present pte ∧ userBit pte then pure (ptePage pte) else pure 0

/- The loop of copyout: len bytes of buf, from its byte tot on, go to va. -/
def copyoutLoop (pgdir : Nat) (buf : Bytes) : Nat → Nat → Nat → Nat → MemM Bool
  | 0, _, _, _ => pure true
  | n + 1, va, len, tot =>
    if len = 0 then pure true
    else do
      let va0 := PGROUNDDOWN va
      let pa0 ← uva2ka pgdir va0
      if pa0 = 0 then pure false
      else
        let m := min len (PGSIZE - (va - va0))
        let s ← Prog.get
        setPage pa0 (copyIn (s.mem pa0) (va - va0) m (fun i => buf (tot + i)))
        copyoutLoop pgdir buf n ((va0 + PGSIZE) % 2 ^ 32) (len - m) (tot + m)

def copyout (pgdir va : Nat) (buf : Bytes) (len : Nat) : MemM Bool :=
  copyoutLoop pgdir buf len va len 0

/- A store of the user program: without a writable user mapping it faults and stores
nothing. -/
def userStore (pgdir va : Nat) (b : Byte) : MemM Bool := do
  match ← walkpgdir pgdir va false with
  | none => pure false
  | some (t, i) =>
    let s ← Prog.get
    let pte := word (s.mem t) i
    if present pte ∧ userBit pte ∧ (pteFlags pte).getLsbD 1 then
      setPage (ptePage pte) (Function.update (s.mem (ptePage pte)) (va % PGSIZE) b)
      pure true
    else pure false

end Xv6c.Mem
