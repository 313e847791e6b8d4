import Xv6c.Fs.Lookup
import Xv6c.Kernel.Effects
import Xv6c.Kernel.ExecStack
import Xv6c.Mem.Supply

/-! What exec hands to the program that it starts: its arguments on the one page of its stack.
How long they may be before exec looks up an address that has no page table. -/
namespace Xv6c
open Lib Mem

variable {M : Mode Event Fault} {p : ProcId} {F : FileSys → Prop} {k₀ k : Kernel} {l₀ l : List Nat}
variable {d sz sp entry : Nat} {path : Fs.CStr} {argv : List Fs.CStr} {sized safe : Prop}

theorem memView_setProc {q : Proc} (home : q.cont = (k.procAt p).cont) :
    (k.setProc p q).memView p = k.memView p := by
  have same : ((k.setProc p q).procAt p).cont = (k.procAt p).cont := by
    rw [procAt_setProc, if_pos rfl, home]
  simp only [Kernel.memView, Kernel.contOf, same]
  rfl

/- Pages that were not free at the start are as they were. -/
theorem Building.other {H : Multiset Nat} (h : Building p F k₀ k l₀ l H) {q : Nat} (used : q ∉ l₀) :
    k.kmem.mem q = k₀.kmem.mem q :=
  h.saves.works.same q (by simpa using used)

/- The exchange of the address spaces. The old one is freed, and the new one stays as it is. -/
theorem wp_execCommit (sm : SafeMode (M.comap Event.mem) sized safe)
    (once : ((l₀ : Multiset Nat) + space k₀.kmem.mem (k₀.procAt p).pgdir).Nodup)
    (kstack : safe → (k₀.procAt p).kstack ≠ 0)
    (ranged : safe → Ranged k₀.kmem (space k₀.kmem.mem (k₀.procAt p).pgdir)) (h : Stacked p F k₀ l₀ d sz k) :
    wp M (execCommit p path entry d sz sp) (fun r k' => r = 0 ∧ F k'.fs ∧
      k'.procAt p = { k₀.procAt p with
        name := progName path.bytes, pgdir := d, sz := sz
        tf := { (k₀.procAt p).tf with eip := entry, esp := sp } } ∧
      Fixed (k.memView p) (k'.memView p) ∧ ∀ q ∈ space k.kmem.mem d, k'.kmem.mem q = k.kmem.mem q) k := by
  obtain ⟨l, building, stack⟩ := h
  have old : k.procAt p = k₀.procAt p := building.aside.procAt p
  obtain ⟨first, second, apart⟩ := Multiset.nodup_add.mp once
  have same : ∀ q ∈ space k₀.kmem.mem (k₀.procAt p).pgdir, k.kmem.mem q = k₀.kmem.mem q := fun q held =>
    building.other fun free => Multiset.disjoint_left.mp apart free held
  have spaces : space k.kmem.mem (k₀.procAt p).pgdir = space k₀.kmem.mem (k₀.procAt p).pgdir :=
    space_local _ _ _ same
  have all := building.saves.all
  rw [add_zero] at all
  have mine := building.nodup (Multiset.coe_nodup.mp first)
  have free : ((l : Multiset Nat) + space k.kmem.mem (k₀.procAt p).pgdir).Nodup := by
    rw [spaces]
    refine Multiset.nodup_add.mpr ⟨(Multiset.nodup_add.mp mine).1, second, ?_⟩
    exact apart.mono_left (all ▸ Multiset.le_add_right _ _)
  unfold execCommit
  refine wp_get_bind (wp_modify_bind ?_)
  dsimp only
  rw [old]
  obtain ⟨q, new⟩ : ∃ q, q = { k₀.procAt p with
    name := progName path.bytes, pgdir := d, sz := sz
    tf := { (k₀.procAt p).tf with eip := entry, esp := sp } } := ⟨_, rfl⟩
  rw [← new]
  have here : (k.setProc p q).procAt p = q := by rw [procAt_setProc, if_pos rfl]
  have view : (k.setProc p q).memView p = k.memView p := memView_setProc (by rw [new, old])
  refine wp_bind ?_
  unfold switchuvm
  refine wp_get_bind ?_
  rw [here]
  refine wp_ite (fun none => wp_fault (sm.other (fun yes => kstack yes ?_) (by decide))) (fun _ => ?_)
  · rw [new] at none
    exact none
  refine wp_ite (fun none => absurd none ?_) (fun _ => wp_pure ?_)
  · rw [new]
    exact stack.nonzero
  refine wp_bind (wp_zoom ?_)
  rw [view]
  refine wp_mono (freevm_spec sm ⟨building.saves.heap, free, fun yes => ?_⟩) ?_
  · intro q held
    rw [building.saves.fixed.range]
    exact ranged yes q (spaces ▸ held)
  · rintro _ t ⟨l', saves⟩
    have after : ((k.setProc p q).memPut p t).memView p = t := memView_memPut (by rw [view]; exact saves.fixed.msz)
    refine wp_pure ⟨rfl, building.files, here, ?_, fun r held => ?_⟩
    · rw [after]
      exact saves.fixed
    · refine saves.works.same r fun inside => ?_
      rcases Multiset.mem_add.mp inside with listed | given
      · exact held_apart mine listed held
      · refine Multiset.disjoint_left.mp apart ?_ (spaces ▸ given)
        rw [← all]
        exact Multiset.mem_add.mpr (Or.inr held)

/- Whatever is reported, and whatever fails. -/
def anything : Mode Event Fault := Mode.faults fun _ => True

theorem anything_safe : SafeMode (anything.comap Event.mem) True False :=
  ⟨fun _ _ _ => trivial, fun _ => trivial, fun _ _ => trivial⟩

/- The calls of the file system, without a word on what they do. -/
theorem fsUse_anything (w : Fs.Walker) (path : Fs.CStr) :
    FsUse (anything.comap Event.fs) w path fun _ _ => True := by
  have any {A : Type} (x : Fs.FsM A) (s : Fs.FsState) : wp (anything.comap Event.fs) x (fun _ _ => True) s :=
    wp_any x s (fun _ => trivial) (fun _ => trivial)
  exact ⟨fun s _ => any _ s, fun s _ => any _ s, fun _ s _ => any _ s, fun _ =>
    ⟨fun _ _ s _ => any _ s, fun s _ => any _ s, fun s _ => any _ s⟩⟩

theorem ends_endOp {s : Fs.FsState} (quiet : s.log.committing = false) : ∃ t, Ends Fs.endOp s [] () t := by
  refine ⟨{ s with log := { s.log with
    outstanding := s.log.outstanding - 1
    lh := if s.log.outstanding - 1 = 0 then [] else s.log.lh } }, ?_⟩
  unfold Fs.endOp
  refine ends_get_bind.mpr ?_
  rw [quiet, if_neg (by decide)]
  exact ends_modify.mpr ⟨rfl, rfl⟩

/- A program without segments, from a file that is open elsewhere too, when there are pages enough. -/
theorem wp_exec_empty {es : List Event} {ip q more : Nat} {b : Bytes} {k₁ : Kernel} {Q : Int → Kernel → Prop}
    {inum : Nat} {ref : Int} {valid : Bool} {dinode : Fs.Dinode}
    (sm : SafeMode (M.comap Event.mem) sized safe) (owed : ∀ e, M.owes e)
    (heap : Heap k.kmem (q :: l)) (once : (q :: l).Nodup)
    (opens : Ends (openProgram p path) k es (some (ip, elfhdrSize, b)) k₁)
    (magic : (getElfHdr b).magic = ELF_MAGIC) (none : (getElfHdr b).phnum = 0)
    (held : k₁.fs.icache ip = ⟨inum, ref, true, valid, dinode⟩) (shared : 2 ≤ ref)
    (log : k₁.fs.log.committing = false) (pages : 1024 + more ≤ l.length)
    (account : ((k₁.memView p).upg + (1025 + more)) * PGSIZE ≤ (k₁.memView p).msz) (limit : (k₁.memView p).msz < 2 ^ 32)
    (next : ∀ k' d l', Loading p (fun _ => True) k (q :: l) d 0 k' → Stocked (k'.memView p) d l' more →
      wp M (execStack p path argv (getElfHdr b).entry d 0) Q k') :
    wp M (exec p path argv) Q k := by
  have begins : Building p (fun _ => True) k k (q :: l) (q :: l) 0 := .start heap trivial
  obtain ⟨-, opened⟩ := wp_value (wp_openProgram (fsUse_anything _ _) begins) (fun _ => trivial) (congrArg Prod.snd opens)
  have start : Building p (· = k₁.fs) k k₁ (q :: l) (q :: l) 0 := ⟨opened.aside, opened.saves, rfl⟩
  rw [exec_eq]
  refine wp_bind (wp_ends opens owed ?_)
  dsimp only [execLoad]
  rw [if_neg (by simp [magic])]
  refine start.onMem (R := fun r t H => r ≠ 0 ∧ H = space t.mem r ∧ Program t r 0 ∧ ∃ l', Stocked t r l' more) ?_ ?_
  · refine wp_mono (wp_result (setupkvm_spec sm start.saves.heap (Multiset.coe_nodup.mpr once))) ?_
    rintro r t ⟨⟨l', result⟩, ended⟩
    obtain ⟨made, stocked⟩ := wp_value (setupkvm_stocked start.saves.heap once pages account limit)
      (fun _ => trivial) ended
    obtain ⟨nonzero, saves, table, kernel⟩ := result.resolve_left fun failed => made failed.1
    exact ⟨l', _, saves, nonzero, rfl, program_empty nonzero saves.fixed table kernel, stocked⟩
  · rintro d k₂ l₂ _ ⟨nonzero, rfl, image, l₃, stocked⟩ h
    rw [if_neg nonzero, none]
    have here : (k₂.fsView p).icache ip = ⟨inum, ref, true, valid, dinode⟩ := by
      rw [← held, ← h.files]
      rfl
    obtain ⟨s₃, put⟩ : ∃ s₃, s₃ = (k₂.fsView p).put ip ⟨inum, ref - 1, false, valid, dinode⟩ := ⟨_, rfl⟩
    have quiet : s₃.log.committing = false := by
      rw [put, ← log, ← h.files]
      rfl
    refine wp_bind (wp_pure (wp_bind (wp_zoom (wp_ends (Fs.ends_iunlockput here (by omega) (Or.inl (by omega)))
      (fun e => owed (.fs e)) ?_))))
    rw [← put]
    obtain ⟨s₄, ends⟩ := ends_endOp (s := (k₂.fsPut p s₃).fsView p) quiet
    refine wp_bind (wp_zoom (wp_ends ends (fun e => owed (.fs e)) ?_))
    have building : Building p (fun _ => True) k ((k₂.fsPut p s₃).fsPut p s₄) (q :: l) l₂ (space k₂.kmem.mem d) :=
      (h.fsPut (G := fun _ => True) trivial).fsPut trivial
    have view : ((k₂.fsPut p s₃).fsPut p s₄).memView p = { k₂.memView p with cstate := s₄.cstate } := by
      rw [memView_fsPut, memView_fsPut]
    refine next _ d l₃ ⟨l₂, building, ?_⟩ ?_
    · exact image.of_kmem rfl
    · rw [view]
      exact { stocked with }

/- A disk with a program a in the root directory: the header of an ELF file, without segments. -/
def programDisk : Nat → Block := fun b =>
  if b = 1 then encodeSb mkfsSb
  else if b = mkfsSb.inodestart then
    [(1, Fs.smallInode Fs.T_DIR 48 100), (2, Fs.smallInode Fs.T_FILE elfhdrSize 101)].foldl
      (fun b (inum, d) => Fs.putDinode b inum d) zeros
  else if b = 100 then Fs.dirBlock [(1, Fs.dot), (1, Fs.dotdot), (2, [97])]
  else if b = 101 then setWord zeros 0 ELF_MAGIC
  else zeros

/- The memory of a process of 36 MB: from address 0 on, a string of a little more than 32 MB. -/
def callerMem (q : Nat) : Bytes :=
  if q = 0x202 then rowTable 9 0x210
  else if 0x210 ≤ q ∧ q < 0x219 then rowTable 1024 (0x1000 + (q - 0x210) * 1024)
  else if 0x1000 ≤ q then fun j => if (q - 0x1000) * PGSIZE + j = 0x2002000 then 0 else 97
  else freePages 1868 q

/- That process, with the root inode and the program in use, and 1100 free pages. -/
def execKernel : Kernel :=
  { Kernel.zero.setProc ⟨0, 0⟩ { Proc.zero with
      state := .running, pid := 1, kstack := 0x201, pgdir := 0x202, sz := 9216 * PGSIZE, cwd := some 0 } with
    fs := ⟨programDisk, ⟨mkfsSb.logstart, mkfsSb.nlog, 0, false, []⟩, mkfsSb, fun i =>
      if i = 0 then ⟨ROOTINO, 2, false, true, Fs.smallInode Fs.T_DIR 48 100⟩
      else if i = 1 then ⟨2, 1, false, true, Fs.smallInode Fs.T_FILE elfhdrSize 101⟩
      else Inode.zero, []⟩
    kmem := ⟨callerMem, 768, 0x110, 0x200, 0x203⟩
    cont := fun i => if i = 0 then
        { Cont.zero with
          cid := 1, state := .crunnable, mproc := NPROC, msz := MAX_CONT_MEM, upg := 9227, rootdir := some 0 }
      else Cont.zero }

def programPath : Fs.CStr := ⟨[97], by decide⟩

theorem execKernel_heap : Heap execKernel.kmem (768 :: List.range' 769 1099) := by
  have count : 768 + 1100 = 1868 := rfl
  refine ⟨chain_freePages (fun i low high => ?_) count le_rfl (by decide), fun q free => ?_,
    ⟨by decide, by decide, by decide⟩⟩
  · change callerMem i = _
    rw [callerMem, if_neg (by omega), if_neg (by omega), if_neg (by omega)]
  · obtain ⟨low, high⟩ := List.mem_range'_1.mp (show q ∈ List.range' 768 1100 from free)
    change 0x200 ≤ q ∧ q < PHYSTOP / PGSIZE
    simp only [PHYSTOP, PGSIZE]
    omega

theorem execKernel_once : (768 :: List.range' 769 1099).Nodup :=
  show (List.range' 768 1100).Nodup from List.nodup_range'

theorem callerMem_dir : callerMem 0x202 = rowTable 9 0x210 := if_pos rfl

theorem callerMem_tables : ∀ i < 9, callerMem (0x210 + i) = rowTable 1024 (0x1000 + i * 1024) := by
  intro i inside
  rw [callerMem, if_neg (by omega), if_pos (by omega), Nat.add_sub_cancel_left]

theorem execKernel_space : space execKernel.kmem.mem (execKernel.procAt ⟨0, 0⟩).pgdir =
    {0x202} + (Multiset.range 9).map (0x210 + ·) + (Multiset.range (9 * 1024)).map (0x1000 + ·) :=
  space_rows callerMem_dir callerMem_tables (by decide) (by decide) (by decide)

theorem execKernel_apart : ((768 :: List.range' 769 1099 : List Nat) +
    space execKernel.kmem.mem (execKernel.procAt ⟨0, 0⟩).pgdir : Multiset Nat).Nodup := by
  rw [execKernel_space]
  exact rows_once (show 0x202 < 0x210 by decide) (show 0x210 + 9 ≤ 768 by decide) (show 768 + 1100 ≤ 0x1000 by decide)

theorem execKernel_ranged :
    Ranged execKernel.kmem (space execKernel.kmem.mem (execKernel.procAt ⟨0, 0⟩).pgdir) := by
  rw [execKernel_space]
  exact rows_ranged ⟨by decide, by decide⟩ (by decide) (by decide) (by decide) (by decide)

theorem execKernel_opens : ∃ es b k, Ends (openProgram ⟨0, 0⟩ programPath) execKernel es (some (1, elfhdrSize, b)) k ∧
    (getElfHdr b).magic = ELF_MAGIC ∧ (getElfHdr b).phnum = 0 ∧ (k.fs.icache 1).ref = 2 ∧
    (k.fs.icache 1).locked = true ∧ k.fs.log.committing = false ∧
    (k.memView ⟨0, 0⟩).upg = 9227 ∧ (k.memView ⟨0, 0⟩).msz = MAX_CONT_MEM := by
  have ran : (openProgram ⟨0, 0⟩ programPath).passes execKernel (fun found k => found.any fun (ip, r, b) =>
      decide (ip = 1 ∧ r = elfhdrSize ∧ (getElfHdr b).magic = ELF_MAGIC ∧ (getElfHdr b).phnum = 0 ∧
        (k.fs.icache 1).ref = 2 ∧ (k.fs.icache 1).locked = true ∧ k.fs.log.committing = false ∧
        (k.memView ⟨0, 0⟩).upg = 9227 ∧ (k.memView ⟨0, 0⟩).msz = MAX_CONT_MEM)) = true := by
    decide +kernel
  obtain ⟨es, found, k, ends, passed⟩ := ends_of_passes ran
  obtain ⟨⟨ip, r, b⟩, rfl, checked⟩ := (Option.any_eq_true _ _).mp passed
  obtain ⟨rfl, rfl, rest⟩ := of_decide_eq_true checked
  exact ⟨es, b, k, ends, rest⟩

/- exec of that program comes to its stack. -/
theorem wp_execKernel {Q : Int → Kernel → Prop} (sm : SafeMode (M.comap Event.mem) sized safe) (owed : ∀ e, M.owes e)
    (next : ∀ k' d entry, Loading ⟨0, 0⟩ (fun _ => True) execKernel (768 :: List.range' 769 1099) d 0 k' →
      (∀ t, (allocuvm d (PGROUNDUP 0) ((PGROUNDUP 0 + 2 * PGSIZE) % 2 ^ 32) (k'.memView ⟨0, 0⟩)).2 ≠ .ok (0, t)) →
      wp M (execStack ⟨0, 0⟩ programPath argv entry d 0) Q k') :
    wp M (exec ⟨0, 0⟩ programPath argv) Q execKernel := by
  obtain ⟨es, b, k₁, opens, magic, none, ref, locked, log, upg, msz⟩ := execKernel_opens
  obtain ⟨inode, held⟩ : ∃ i, k₁.fs.icache 1 = i := ⟨_, rfl⟩
  rw [held] at ref locked
  obtain ⟨inum, _, _, valid, dinode⟩ := inode
  dsimp only at ref locked
  subst ref locked
  have pages : 1024 + 4 ≤ (List.range' 769 1099).length := by
    rw [List.length_range']
    decide
  refine wp_exec_empty sm owed execKernel_heap execKernel_once opens magic none held le_rfl log pages ?_ ?_ ?_
  · rw [upg, msz]
    decide
  · rw [msz]
    decide
  · intro k' d l' loading stocked
    refine next k' d _ loading fun t failed => ?_
    have enough : Stocked (k'.memView ⟨0, 0⟩) d l' (0 + ((PGROUNDUP 0 + 2 * PGSIZE) % 2 ^ 32 / PGSIZE + 2)) := stocked
    have made := wp_value (allocuvm_stocked enough (by decide) (by decide)) (fun _ => trivial) failed
    exact absurd made.1 (by decide)

/- A run without a fault. -/
def smooth : Mode Event Fault := Mode.faults fun _ => False

theorem smooth_safe : SafeMode (smooth.comap Event.mem) True True :=
  ⟨fun _ risky => absurd trivial risky, id, fun _ _ => trivial⟩

/- The process starts with a stack page above a guard page, and with argv at its stack pointer. -/
def Handed (k : Kernel) (p : ProcId) (argv : List Fs.CStr) : Prop :=
  Stack (k.memView p) (k.procAt p).pgdir (k.procAt p).sz ∧ ∃ args, args.map Prod.snd = argv ∧
    Argv k.kmem.mem (k.procAt p).pgdir (k.procAt p).sz (k.procAt p).tf.esp args

/-- When exec returns 0, the program finds its arguments at its stack pointer, all of them in
the one page of its stack, above the guard page. -/
theorem exec_delivers {k' : Kernel} (heap : Heap k.kmem l)
    (once : ((l : Multiset Nat) + space k.kmem.mem (k.procAt p).pgdir).Nodup)
    (done : (exec p path argv k).2 = .ok (0, k')) : Handed k' p argv := by
  have free : l.Nodup := Multiset.coe_nodup.mp (Multiset.nodup_add.mp once).1
  refine wp_value (M := anything) (Q := fun r k' => r = 0 → Handed k' p argv) (wp_exec (I := fun _ _ => True) anything_safe
    heap free nofun nofun ?_ ?_ (fsUse_anything _ path) trivial) (fun _ => trivial) done rfl
  · exact fun k' l' _ failed => absurd failed (by decide)
  · intro k₁ d entry sz sp args same h found
    refine wp_mono (wp_execCommit anything_safe once nofun nofun h) ?_
    rintro r k₂ ⟨-, -, proc, fixed, kept⟩ -
    obtain ⟨l₁, -, stack⟩ := h
    have ptes (v : Nat) (hv : v < 2 ^ 20) : pte k₂.kmem.mem d v = pte k₁.kmem.mem d v :=
      pte_congr (fun q table => kept q (Multiset.mem_add.mpr (Or.inl table))) hv
    rw [Handed, proc]
    refine ⟨stack.congr fixed (kept d (by simp [space])) ptes, args, same, found.congr fun a inside => ?_⟩
    have page := pageOf_lt a
    unfold userByte
    rw [ptes _ page]
    split
    · rename_i mapped
      have user := mem_users (stack.guarded _ page mapped.2) mapped.1
      rw [kept _ (Multiset.mem_add.mpr (Or.inr user))]
    · rfl

theorem exec_delivers_name : ∃ k, (exec ⟨0, 0⟩ programPath [programPath] execKernel).2 = .ok (0, k) ∧
    Handed k ⟨0, 0⟩ [programPath] := by
  have free := execKernel_once
  have ran : wp smooth (exec ⟨0, 0⟩ programPath [programPath]) (fun r _ => r = 0) execKernel := by
    refine wp_execKernel smooth_safe (fun _ => trivial) fun k' d entry loading room => ?_
    have short : ∀ arg ∈ [programPath], arg.bytes.length < KERNBASE := by decide
    refine wp_execStack smooth_safe execKernel_heap free loading (fun _ => short) (fun _ long => ?_) ?_ ?_ ?_
    · exact not_overshoots (by decide) long
    · exact fun k' l' t failed _ => absurd failed (room t)
    · exact fun k' l' _ full _ => (full ⟨by decide, by decide⟩).elim
    · intro k' sz' sp args _ _ _ h _
      exact wp_mono (wp_execCommit smooth_safe execKernel_apart (fun _ => by decide)
        (fun _ => execKernel_ranged) h) fun _ _ done => done.1
  obtain ⟨r, k, ended, rfl⟩ := wp_sure ran (fun _ => trivial) (fun _ => id)
  exact ⟨k, ended, exec_delivers execKernel_heap execKernel_apart ended⟩

/- Runs that fail in no way but by a null pointer, and only for arguments of this kind. -/
def trapsFor (sz : Nat) (argv : List Fs.CStr) : Mode Event Fault :=
  Mode.faults fun f => f = .trap ∧ Overshoots sz 0 argv

theorem trapsFor_safe (sz : Nat) (argv : List Fs.CStr) : SafeMode ((trapsFor sz argv).comap Event.mem) True True :=
  ⟨fun _ risky => absurd trivial risky, id, fun _ _ => trivial⟩

/-- For every program that was loaded, and whose stack could be allocated: exec follows the null
pointer of a missing page table just when an argument ends in the gap of the kernel's map. -/
theorem execStack_traps_iff (heap : Heap k₀.kmem l₀)
    (once : ((l₀ : Multiset Nat) + space k₀.kmem.mem (k₀.procAt p).pgdir).Nodup)
    (kstack : (k₀.procAt p).kstack ≠ 0) (ranged : Ranged k₀.kmem (space k₀.kmem.mem (k₀.procAt p).pgdir))
    (loaded : Loading p F k₀ l₀ d sz k) (few : argv.length < MAXARG)
    (short : ∀ arg ∈ argv, arg.bytes.length < KERNBASE)
    (room : ∀ t, (allocuvm d (PGROUNDUP sz) ((PGROUNDUP sz + 2 * PGSIZE) % 2 ^ 32) (k.memView p)).2 ≠ .ok (0, t)) :
    (execStack p path argv entry d sz).faultOf k = some .trap ↔
      Overshoots (PGROUNDUP sz + 2 * PGSIZE) 0 argv := by
  have free : l₀.Nodup := Multiset.coe_nodup.mp (Multiset.nodup_add.mp once).1
  refine faultOf_iff ?_
  refine wp_execStack (trapsFor_safe _ argv) heap free loaded (fun _ => short) (fun _ long => ⟨rfl, long⟩) ?_ ?_ ?_
  · exact fun k' l' t failed _ => absurd failed (room t)
  · exact fun k' l' lands _ _ => lands short few.le
  · rintro k' _ sp args lands rfl - h -
    exact wp_mono (wp_execCommit (trapsFor_safe _ argv) once (fun _ => kstack) (fun _ => ranged) h)
      fun _ _ _ => lands short few.le

/- An argument of a little more than 32 MB. -/
def longArg : Fs.CStr := ⟨List.replicate 0x2002000 97, fun member => absurd (List.eq_of_mem_replicate member) (by decide)⟩

theorem longArg_length : longArg.bytes.length = 0x2002000 := List.length_replicate

theorem longArg_overshoots : Overshoots (PGROUNDUP 0 + 2 * PGSIZE) 0 [longArg] := by
  refine ⟨[], longArg, [], rfl, by decide, ?_⟩
  rw [taken, longArg_length]
  decide

theorem longArg_short : ∀ arg ∈ [longArg], arg.bytes.length < KERNBASE := by
  intro arg member
  rw [List.mem_singleton.mp member, longArg_length]
  decide

/- The string lies in the memory of the process. -/
theorem longArg_stored : StringAt execKernel.kmem.mem (execKernel.procAt ⟨0, 0⟩).pgdir 0 longArg := by
  intro i inside
  rw [longArg_length] at inside
  change userByte callerMem 0x202 (0 + i) = _
  have page : pageOf (0 + i) < 9 * 1024 ∧ pageOf (0 + i) * PGSIZE + (0 + i) % PGSIZE = i := by
    simp only [pageOf, PGSIZE]
    omega
  have here := pte_rows callerMem_dir callerMem_tables (by decide) page.1
  have byte : callerMem (0x1000 + pageOf (0 + i)) ((0 + i) % PGSIZE) = if i = 0x2002000 then 0 else 97 := by
    rw [callerMem, if_neg (by omega), if_neg (by omega), if_pos (by omega), Nat.add_sub_cancel_left, page.2]
  rw [userByte, here, present_mkPte, userBit, pteFlags_mkPte, if_pos (by decide), ptePage_mkPte _ (by omega), byte]
  simp only [cstring, longArg, List.getD_eq_getElem?_getD, List.getElem?_replicate]
  split
  · rw [if_neg (by omega)]
    rfl
  · rw [if_pos (by omega)]
    rfl

theorem exec_long_argument_traps :
    StringAt execKernel.kmem.mem (execKernel.procAt ⟨0, 0⟩).pgdir 0 longArg ∧
    longArg.bytes.length < (execKernel.procAt ⟨0, 0⟩).sz ∧
    (exec ⟨0, 0⟩ programPath [longArg]).faultOf execKernel = some .trap := by
  refine ⟨longArg_stored, by rw [longArg_length]; decide, ?_⟩
  refine (faultOf_iff (P := True) ?_).mpr trivial
  have sm : SafeMode ((Mode.faults fun f => f = Fault.trap ∧ True).comap Event.mem) True True :=
    ⟨fun _ risky => absurd trivial risky, id, fun _ _ => trivial⟩
  refine wp_execKernel sm (fun _ => trivial) fun k' d entry loading room => ?_
  refine wp_execStack sm execKernel_heap execKernel_once loading (fun _ => longArg_short) (fun _ _ => ⟨rfl, trivial⟩)
    ?_ ?_ ?_
  · exact fun k' l' t failed _ => absurd failed (room t)
  · exact fun k' l' lands _ _ => absurd longArg_overshoots (lands longArg_short (by decide))
  · rintro k' _ sp args lands rfl - - -
    exact absurd longArg_overshoots (lands longArg_short (by decide))

theorem execStack_traps_iff_long : ∃ k d,
    Loading ⟨0, 0⟩ (fun _ => True) execKernel (768 :: List.range' 769 1099) d 0 k ∧
    ((execStack ⟨0, 0⟩ programPath [longArg] 0 d 0).faultOf k = some .trap ↔
      Overshoots (PGROUNDUP 0 + 2 * PGSIZE) 0 [longArg]) := by
  by_contra none
  have ran : wp smooth (exec ⟨0, 0⟩ programPath [longArg]) (fun _ _ => False) execKernel := by
    refine wp_execKernel smooth_safe (fun _ => trivial) fun k d entry loading room => (none ⟨k, d, loading, ?_⟩).elim
    exact execStack_traps_iff execKernel_heap execKernel_apart (by decide) execKernel_ranged loading (by decide)
      longArg_short room
  obtain ⟨_, _, -, wrong⟩ := wp_sure ran (fun _ => trivial) (fun _ => id)
  exact wrong

end Xv6c
