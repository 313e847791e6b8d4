import Xv6c.Mem.Vm

/-! What a function of kalloc.c and vm.c can do to its state, as for fs.c. -/
namespace Xv6c.Mem
open Lib

inductive Effect : MemState → MemState → Prop where
  | page (s : MemState) (page : Nat) (v : Bytes) : Effect s { s with
      mem := Function.update s.mem page v }
  | list (s : MemState) (freelist upg : Nat) : Effect s { s with freelist := freelist, upg := upg }
  | kill (s : MemState) : Effect s { s with cstate := .cstopping }

abbrev Effects : MemState → MemState → Prop := Relation.ReflTransGen Effect

/- The container goes on as it was, or it was killed. -/
theorem Effects.cstate {s t : MemState} (h : Effects s t) :
    t.cstate = s.cstate ∨ t.cstate = .cstopping := by
  induction h with
  | refl => exact Or.inl rfl
  | tail _ last ih =>
    cases last with
    | kill => exact Or.inr rfl
    | _ => exact ih

abbrev Acts {A : Type} (x : MemM A) : Prop := Does (fun _ => True) Effect x

instance acts_fault {A : Type} (e : Fault) : Acts (Prog.fault e : MemM A) := does_fault trivial

instance acts_panic {A : Type} (msg : String) : Acts (panic msg : MemM A) := does_fault trivial

theorem acts_modify {f : MemState → MemState} (each : ∀ s, Effect s (f s)) :
    Acts (Prog.modify f : MemM Unit) := does_modify each

instance (page : Nat) (v : Bytes) : Acts (setPage page v) :=
  acts_modify fun s => Effect.page s page v

instance (page i : Nat) (w : BitVec 32) : Acts (setEntry page i w) :=
  acts_modify fun s => Effect.page s page (setWord (s.mem page) i w)

instance : Acts ckill := acts_modify Effect.kill

instance (page : Nat) : Acts (kfree page) := by
  have list := acts_modify fun s => Effect.list s page (if 0 < s.upg then s.upg - 1 else s.upg)
  unfold kfree
  infer_instance

instance : Acts kalloc := by
  have list := acts_modify fun s =>
    Effect.list s (addrPage (word (s.mem s.freelist) 0)) (s.upg + 1)
  unfold kalloc
  infer_instance

instance (pgdir va : Nat) (alloc : Bool) : Acts (walkpgdir pgdir va alloc) := by
  unfold walkpgdir
  infer_instance

instance acts_mapLoop (pgdir last : Nat) (perm : BitVec 12) (n a pa : Nat) :
    Acts (mapLoop pgdir last perm n a pa) := by
  induction n generalizing a pa with
  | zero => exact acts_fault _
  | succ n ih =>
    unfold mapLoop
    refine .seq fun entry => ?_
    cases entry <;> infer_instance

instance (pgdir va size pa : Nat) (perm : BitVec 12) : Acts (mappages pgdir va size pa perm) := by
  unfold mappages
  infer_instance

instance acts_deallocLoop (pgdir oldsz n a : Nat) : Acts (deallocLoop pgdir oldsz n a) := by
  induction n generalizing a with
  | zero => exact acts_fault _
  | succ n ih =>
    have next : Acts (walkpgdir pgdir a false >>= fun entry => match entry with
        | none => deallocLoop pgdir oldsz n ((PDX a + 1) * 2 ^ 22 % 2 ^ 32)
        | some (t, i) => do
          let s ← Prog.get
          let pte := word (s.mem t) i
          if present pte then
            if ptePage pte = 0 then panic "kfree"
            else
              kfree (ptePage pte)
              setEntry t i 0
              deallocLoop pgdir oldsz n ((a + PGSIZE) % 2 ^ 32)
          else deallocLoop pgdir oldsz n ((a + PGSIZE) % 2 ^ 32) : MemM Unit) := by
      refine .seq fun entry => ?_
      cases entry <;> infer_instance
    unfold deallocLoop
    infer_instance

instance (pgdir oldsz newsz : Nat) : Acts (deallocuvm pgdir oldsz newsz) := by
  unfold deallocuvm
  infer_instance

instance acts_freeTables (pgdir n i : Nat) : Acts (freeTables pgdir n i) := by
  induction n generalizing i with
  | zero => exact does_pure _
  | succ n ih =>
    unfold freeTables
    infer_instance

instance (pgdir : Nat) : Acts (freevm pgdir) := by
  unfold freevm
  infer_instance

instance acts_mapKernel (pgdir : Nat) (ks : List Kmap) : Acts (mapKernel pgdir ks) := by
  induction ks with
  | nil => exact does_pure _
  | cons k ks ih =>
    unfold mapKernel
    infer_instance

instance : Acts setupkvm := by
  unfold setupkvm
  infer_instance

instance acts_allocLoop (pgdir oldsz newsz n a : Nat) : Acts (allocLoop pgdir oldsz newsz n a) := by
  induction n generalizing a with
  | zero => exact acts_fault _
  | succ n ih =>
    unfold allocLoop
    infer_instance

instance (pgdir oldsz newsz : Nat) : Acts (allocuvm pgdir oldsz newsz) := by
  unfold allocuvm
  infer_instance

instance (pgdir uva : Nat) : Acts (clearpteu pgdir uva) := by
  unfold clearpteu
  refine .seq fun entry => ?_
  cases entry <;> infer_instance

instance acts_copyLoop (pgdir d sz n i : Nat) : Acts (copyLoop pgdir d sz n i) := by
  induction n generalizing i with
  | zero => exact acts_fault _
  | succ n ih =>
    have next : Acts (walkpgdir pgdir i false >>= fun entry => match entry with
        | none => panic "copyuvm: pte should exist"
        | some (t, j) => do
          let s ← Prog.get
          let pte := word (s.mem t) j
          if !present pte then panic "copyuvm: page not present"
          else
            let mem ← kalloc
            if mem = 0 then pure false
            else
              setPage mem (s.mem (ptePage pte))
              let done ← mappages d i PGSIZE mem (pteFlags pte)
              if done then copyLoop pgdir d sz n (i + PGSIZE) else pure false : MemM Bool) := by
      refine .seq fun entry => ?_
      cases entry <;> infer_instance
    unfold copyLoop
    infer_instance

instance (pgdir sz : Nat) : Acts (copyuvm pgdir sz) := by
  unfold copyuvm
  infer_instance

instance (pgdir uva : Nat) : Acts (uva2ka pgdir uva) := by
  unfold uva2ka
  refine .seq fun entry => ?_
  cases entry <;> infer_instance

instance acts_copyoutLoop (pgdir : Nat) (buf : Bytes) (n va len tot : Nat) :
    Acts (copyoutLoop pgdir buf n va len tot) := by
  induction n generalizing va len tot with
  | zero => exact does_pure _
  | succ n ih =>
    unfold copyoutLoop
    infer_instance

instance (pgdir va : Nat) (buf : Bytes) (len : Nat) : Acts (copyout pgdir va buf len) := by
  unfold copyout
  infer_instance

instance (pgdir va : Nat) (b : Byte) : Acts (userStore pgdir va b) := by
  unfold userStore
  refine .seq fun entry => ?_
  cases entry <;> infer_instance

end Xv6c.Mem
