import Xv6c.Fs.Balance
import Xv6c.Kernel.Delivery

/-! exec is all or nothing, whatever the file holds and wherever the pages run out: it
exchanges the program of its process, or it leaves every process as it was and gives all pages
back. Of the file system it keeps neither a lock nor a transaction. -/
namespace Xv6c
open Lib Mem
open Function (update)

/- The same locks are held and as many transactions are open. -/
def Balanced (fs fs' : FileSys) : Prop :=
  (∀ i, (fs'.icache i).locked = (fs.icache i).locked) ∧ fs'.log.outstanding = fs.log.outstanding

def AllOrNothing (k : Kernel) (l : List Nat) (r : Int) (k' : Kernel) : Prop :=
  Balanced k.fs k'.fs ∧ (r = 0 ∨ r = -1 ∧ k'.proc = k.proc ∧ ∃ l', Heap k'.kmem l' ∧ l'.Perm l)

/- The locks and the transactions in each phase of exec. -/
def execPhase (fs : FileSys) : Phase → FileSys → Prop
  | .outside | .left => Balanced fs
  | .inOp | .found _ | .leaving => Fs.Held (fun i => (fs.icache i).locked) (fs.log.outstanding + 1)
  | .locked ip => fun fs' => (fs.icache ip).locked = false ∧
      Fs.Held (update (fun i => (fs.icache i).locked) ip true) (fs.log.outstanding + 1) fs'

section Phases
variable {M : Mode FsEvent Fault} {fs : FileSys} {w : Fs.Walker} {path : Fs.CStr}

theorem wp_leave {s : Fs.FsState} (h : execPhase fs .leaving s.toFileSys) :
    wp M Fs.endOp (fun _ t => execPhase fs .left t.toFileSys) s :=
  wp_mono (Fs.held_endOp h) fun _ _ after => ⟨after.locks, after.outstanding⟩

theorem fsUse_phases (owed : ∀ e, M.owes e) (admits : ∀ f, Fs.Stops f → M.fails f) (cwd : w.cwd ≠ none)
    (root : w.rootdir ≠ none) : FsUse M w path (execPhase fs) where
  beginOp s h := Fs.held_beginOp admits h.1 h.2
  namei s h := by
    refine wp_mono (Fs.held_namei owed admits cwd root h) fun r t after => ?_
    cases r with
    | none => exact after
    | some ip => exact after
  ilock ip s h := Fs.held_ilock owed admits h
  file ip := {
    readi := fun off n s h =>
      wp_mono (Fs.held_quiet owed admits h.2) fun _ t after => ⟨h.1, after⟩
    iunlockput := fun s h => Fs.held_iunlockput owed admits h.1 h.2
    endOp := fun s h => wp_leave h }

end Phases

/- A file that is not a device, with all its blocks on the disk, and an inode that is not
freed when it is put. -/
structure Readable (fs : FileSys) (ip : Nat) : Prop where
  plain : (fs.icache ip).d.type ≠ Fs.T_DEV
  small : (fs.icache ip).d.size.toNat ≤ MAXFILE * BSIZE
  blocks : ∀ bn < MAXFILE, bn * BSIZE < (fs.icache ip).d.size.toNat →
    Fs.placeOf fs.disk (fs.icache ip).d bn ≠ 0 ∧ Fs.placeOf fs.disk (fs.icache ip).d bn < FSSIZE
  table : NDIRECT * BSIZE < (fs.icache ip).d.size.toNat → Fs.placeOf fs.disk (fs.icache ip).d MAXFILE < FSSIZE
  held : 1 ≤ (fs.icache ip).ref
  kept : (fs.icache ip).ref ≠ 1 ∨ (fs.icache ip).d.nlink ≠ 0

section Readable
variable {s : Fs.FsState} {fs : FileSys} {ip off n : Nat}

/- Every read ends, and leaves the file system as it is. -/
theorem Readable.ends_readi (h : Readable s.toFileSys ip) : ∃ v, Ends (Fs.readi ip off n) s [] v s := by
  by_cases bad : (s.icache ip).d.size.toNat < off ∨ (off + n) % 2 ^ 32 < off
  · refine ⟨(-1, zeros), ?_⟩
    unfold Fs.readi
    rw [ends_get_bind, if_neg h.plain, if_pos bad]
    rfl
  obtain ⟨m, count⟩ : ∃ m, m = if (s.icache ip).d.size.toNat < off + n then (s.icache ip).d.size.toNat - off else n :=
    ⟨_, rfl⟩
  have fits : off + m ≤ (s.icache ip).d.size.toNat := by
    rw [count]
    split <;> omega
  have size : (s.icache ip).d.size.toNat < 2 ^ 32 := BitVec.isLt _
  have clamped : Fs.readi ip off n s = Fs.readi ip off m s := by
    unfold Fs.readi
    rw [Prog.get_bind, Prog.get_bind]
    dsimp only
    have whole : ¬ ((s.icache ip).d.size.toNat < off ∨ (off + m) % 2 ^ 32 < off) := by omega
    have all : ¬ (s.icache ip).d.size.toNat < off + m := by omega
    rw [if_neg h.plain, if_neg h.plain, if_neg bad, if_neg whole, if_neg all, ← count]
  refine ⟨_, clamped.trans (Fs.ends_readi h.plain fits fun bn _ start => ?_)⟩
  have below : bn < MAXFILE := Nat.lt_of_mul_lt_mul_right (a := BSIZE) (by have := h.small; omega)
  obtain ⟨placed, inside⟩ := h.blocks bn below (by omega)
  refine ⟨below, placed, inside, fun high => h.table ?_⟩
  have := Nat.mul_le_mul_right BSIZE high
  omega

theorem Readable.ends_iunlockput (h : Readable s.toFileSys ip) (locked : (s.icache ip).locked = true) :
    ∃ t, Ends (Fs.iunlockput ip) s [] () t := by
  obtain ⟨i, here⟩ : ∃ i, s.icache ip = i := ⟨_, rfl⟩
  obtain ⟨inum, ref, lock, valid, d⟩ := i
  have held := h.held
  have kept := h.kept
  rw [here] at held kept locked
  dsimp only at held kept locked
  subst locked
  exact ⟨_, Fs.ends_iunlockput here held kept⟩

/- What exec does with a file that can be read, once it has locked it. -/
def readPhase (fs fs₁ : FileSys) : Phase → FileSys → Prop
  | .locked _ => (· = fs₁)
  | phase => execPhase fs phase

theorem Readable.fileUse {fs₁ : FileSys} (h : Readable fs₁ ip) (locked : execPhase fs (.locked ip) fs₁) :
    FileUse (smooth.comap Event.fs) (readPhase fs fs₁) ip where
  readi off n s here := by
    cases here
    obtain ⟨v, ends⟩ : ∃ v, Ends (Fs.readi ip off n) s [] v s := h.ends_readi
    exact wp_of_quiet ends rfl
  iunlockput s here := by
    cases here
    obtain ⟨free, held⟩ := locked
    obtain ⟨t, ends⟩ := h.ends_iunlockput ((held.locks ip).trans (Function.update_self ..))
    have stops := Fs.held_iunlockput (M := Mode.faults Fs.Stops) (fun _ => trivial) (fun _ => id) free held
    have left := wp_value stops (fun _ => trivial) (congrArg Prod.snd ends)
    exact wp_of_quiet ends left
  endOp s left := wp_leave left

end Readable

/- Runs that fail nowhere but in a call of the file system. -/
def fsOnly : Mode Event Fault := Mode.faults Fs.Stops

theorem fsOnly_safe : SafeMode (fsOnly.comap Event.mem) True True :=
  ⟨fun _ risky => absurd trivial risky, id, fun _ _ => trivial⟩

section Exec
variable {M : Mode Event Fault} {k k' : Kernel} {p : ProcId} {l l' : List Nat} {path : Fs.CStr} {argv : List Fs.CStr}
variable {F : FileSys → Prop} {d entry sz sp : Nat}

theorem Building.nothing (h : Building p (Balanced k.fs) k k' l l' 0) : AllOrNothing k l (-1) k' := by
  have all := h.saves.all
  rw [add_zero, add_zero] at all
  exact ⟨h.files, Or.inr ⟨rfl, h.aside.proc, l', h.saves.heap, Multiset.coe_eq_coe.mp all⟩⟩

theorem Stacked.all (sm : SafeMode (M.comap Event.mem) True True)
    (once : ((l : Multiset Nat) + space k.kmem.mem (k.procAt p).pgdir).Nodup) (kstack : (k.procAt p).kstack ≠ 0)
    (ranged : Ranged k.kmem (space k.kmem.mem (k.procAt p).pgdir)) (h : Stacked p (Balanced k.fs) k l d sz k') :
    wp M (execCommit p path entry d sz sp) (AllOrNothing k l) k' :=
  wp_mono (wp_execCommit sm once (fun _ => kstack) (fun _ => ranged) h) fun _ _ done => ⟨done.2.1, Or.inl done.1⟩

/-- exec of any file, with strings shorter than a page: it returns 0, or -1 with all processes
as they were and the free pages the same ones, and it keeps neither a lock nor a transaction. It
fails nowhere but in a call of the file system, and there neither when the file is one that can
be read. -/
theorem exec_all_or_nothing (heap : Heap k.kmem l)
    (once : ((l : Multiset Nat) + space k.kmem.mem (k.procAt p).pgdir).Nodup) (kstack : (k.procAt p).kstack ≠ 0)
    (ranged : Ranged k.kmem (space k.kmem.mem (k.procAt p).pgdir)) (cwd : (k.walker p).cwd ≠ none)
    (rootdir : (k.walker p).rootdir ≠ none) (short : ∀ arg ∈ argv, arg.bytes.length < PGSIZE) :
    wp fsOnly (exec p path argv) (AllOrNothing k l) k ∧
    ∀ found k₁, (openProgram p path k).2 = .ok (found, k₁) →
      (∀ ip r b, found = some (ip, r, b) → Readable k₁.fs ip) →
      ∃ r k', (exec p path argv k).2 = .ok (r, k') ∧ AllOrNothing k l r k' := by
  have free : l.Nodup := Multiset.coe_nodup.mp (Multiset.nodup_add.mp once).1
  have small : ∀ arg ∈ argv, arg.bytes.length < KERNBASE := fun arg member => (short arg member).trans (by decide)
  have use : FsUse (fsOnly.comap Event.fs) (k.walker p) path (execPhase k.fs) :=
    fsUse_phases (fun _ => trivial) (fun _ => id) cwd rootdir
  have files : execPhase k.fs .outside k.fs := ⟨fun _ => rfl, rfl⟩
  constructor
  · refine wp_exec fsOnly_safe heap free (fun _ => small) (fun _ _ long => (not_overshoots short long).elim) ?_ ?_ use files
    · exact fun k' l' h => h.nothing
    · exact fun k' d entry sz sp args _ h _ => h.all fsOnly_safe once kstack ranged
  · intro found k₁ opens readable
    obtain ⟨-, h⟩ := wp_value (wp_openProgram use (.start heap files)) (fun _ => trivial) opens
    have opens : Ends (openProgram p path) k (openProgram p path k).1 found k₁ := Prod.ext rfl opens
    have ran : wp smooth (exec p path argv) (AllOrNothing k l) k := by
      rw [exec_eq]
      refine wp_bind (wp_ends opens (fun _ => trivial) ?_)
      cases found with
      | none =>
        refine h.onFs (G := fun _ => execPhase k.fs .left) (wp_leave h.files) fun _ k₂ _ h => ?_
        exact wp_pure (Building.nothing h)
      | some found =>
        obtain ⟨ip, r, b⟩ := found
        have file := (readable ip r b rfl).fileUse h.files
        have start : Building p (readPhase k.fs k₁.fs (.locked ip)) k k₁ l l 0 := ⟨h.aside, h.saves, rfl⟩
        refine wp_execLoad smooth_safe file heap free (fun _ => small)
          (fun _ _ long => (not_overshoots short long).elim) ?_ ?_ start
        · exact fun k' l' h => Building.nothing h
        · exact fun k' d entry sz sp args _ h _ => h.all smooth_safe once kstack ranged
    exact wp_sure ran (fun _ => trivial) (fun _ => id)

theorem execKernel_readable : ∃ found k, (openProgram ⟨0, 0⟩ programPath execKernel).2 = .ok (found, k) ∧
    ∀ ip r b, found = some (ip, r, b) → Readable k.fs ip := by
  have ran : (openProgram ⟨0, 0⟩ programPath).passes execKernel (fun found k => found.any fun (ip, _, _) =>
      decide ((k.fs.icache ip).d.type ≠ Fs.T_DEV ∧ (k.fs.icache ip).d.size.toNat = elfhdrSize ∧
        Fs.placeOf k.fs.disk (k.fs.icache ip).d 0 ≠ 0 ∧ Fs.placeOf k.fs.disk (k.fs.icache ip).d 0 < FSSIZE ∧
        (k.fs.icache ip).ref = 2)) = true := by
    decide +kernel
  obtain ⟨es, found, k, ends, passed⟩ := ends_of_passes ran
  refine ⟨found, k, congrArg Prod.snd ends, ?_⟩
  rintro ip r b rfl
  obtain ⟨plain, size, placed, inside, ref⟩ := of_decide_eq_true passed
  refine ⟨plain, ?_, fun bn _ start => ?_, fun long => ?_, ?_, Or.inl ?_⟩
  · rw [size]
    decide
  · have first : bn = 0 := by
      simp only [size, elfhdrSize, BSIZE] at start
      omega
    rw [first]
    exact ⟨placed, inside⟩
  · rw [size] at long
    exact absurd long (by decide)
  · rw [ref]
    decide
  · rw [ref]
    decide

theorem exec_all_or_nothing_program : ∃ r k, (exec ⟨0, 0⟩ programPath [programPath] execKernel).2 = .ok (r, k) ∧
    AllOrNothing execKernel (768 :: List.range' 769 1099) r k := by
  obtain ⟨found, k₁, opens, readable⟩ := execKernel_readable
  exact (exec_all_or_nothing execKernel_heap execKernel_apart (by decide) execKernel_ranged (by decide) (by decide)
    (by decide)).2 found k₁ opens readable

end Exec

end Xv6c
