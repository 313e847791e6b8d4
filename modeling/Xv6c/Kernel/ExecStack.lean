import Xv6c.Kernel.Arguments

/-! exec from its first to its last step: every way out gives the pages back, except the one
that exchanges the address space of the process. -/
namespace Xv6c
open Lib Mem

variable {M : Mode Event Fault} {p : ProcId} {F : FileSys → Prop} {k₀ k : Kernel} {l₀ l : List Nat}
variable {d sz entry : Nat} {path : Fs.CStr} {argv : List Fs.CStr} {Q : Int → Kernel → Prop} {sized safe : Prop}

/- exec behind the last test. -/
def execCommit (p : ProcId) (path : Fs.CStr) (entry pgdir sz sp : Nat) : KM Int := do
  let k ← Prog.get
  let oldpgdir := (k.procAt p).pgdir
  modifyProc p fun q => { q with
    name := progName path.bytes, pgdir := pgdir, sz := sz
    tf := { q.tf with eip := entry, esp := sp } }
  switchuvm p
  onMem p (Mem.freevm oldpgdir)
  pure 0

/- exec up to the header of the file. -/
def openProgram (p : ProcId) (path : Fs.CStr) : KM (Option (Nat × Int × Bytes)) := do
  onFs p Fs.beginOp
  let k ← Prog.get
  match ← onFs p (Fs.namei (k.walker p) path) with
  | none => pure none
  | some ip =>
    onFs p (Fs.ilock ip)
    let (r, b) ← onFs p (Fs.readi ip 0 elfhdrSize)
    pure (some (ip, r, b))

/- exec behind the reading of the header. -/
def execLoad (p : ProcId) (path : Fs.CStr) (argv : List Fs.CStr) (ip : Nat) (r : Int) (b : Bytes) : KM Int :=
  if r ≠ elfhdrSize ∨ (getElfHdr b).magic ≠ ELF_MAGIC then execBad p 0 (some ip)
  else do
    let pgdir ← onMem p Mem.setupkvm
    if pgdir = 0 then execBad p 0 (some ip)
    else
      match ← loadProgram p ip pgdir (getElfHdr b).phnum (getElfHdr b).phoff 0 with
      | none => execBad p pgdir (some ip)
      | some sz =>
        onFs p (Fs.iunlockput ip)
        onFs p Fs.endOp
        execStack p path argv (getElfHdr b).entry pgdir sz

theorem exec_eq : exec p path argv = openProgram p path >>= fun found => match found with
    | none => onFs p Fs.endOp >>= fun _ => pure (-1)
    | some (ip, r, b) => execLoad p path argv ip r b := by
  unfold exec openProgram
  simp only [bind_assoc]
  congr
  funext _
  congr
  funext k
  congr
  funext found
  cases found with
  | none => rfl
  | some ip =>
    simp only [bind_assoc, pure_bind]
    rfl

/- The size counts in pages. -/
theorem Program.round {s : MemState} (h : Program s d sz) : Program s d (PGROUNDUP sz) := by
  obtain ⟨nonzero, small, guarded, fits, flags, kernel, tables⟩ := h
  have same (v : Nat) : v * PGSIZE < PGROUNDUP sz ↔ v * PGSIZE < sz := by
    simp only [PGROUNDUP, PGSIZE]
    omega
  refine ⟨nonzero, ?_, guarded, fun v hv => (fits v hv).trans (same v).symm,
    fun v hv inside => flags v hv ((same v).mp inside), kernel, fun i entry => (tables i entry).imp_right fun low => ?_⟩
  · simp only [PGROUNDUP, PGSIZE, KERNBASE] at small ⊢
    omega
  · simp only [PGROUNDUP, PGSIZE]
    omega

/- clearpteu makes the lower one of the two last pages the guard page. -/
theorem Program.clear {s t : MemState} {n : Nat} (h : Program s d ((n + 2) * PGSIZE))
    (small : (n + 2) * PGSIZE < KERNBASE) (fixed : Fixed s t) (dir : t.mem d = s.mem d)
    (others : ∀ v < 2 ^ 20, v ≠ n → pte t.mem d v = pte s.mem d v)
    (cleared : pteFlags (pte t.mem d n) = pteFlags (pte s.mem d n) &&& ~~~ PTE_U) (guarded : Guarded t.mem d)
    (same : ∀ v < 2 ^ 20, present (pte t.mem d v) = present (pte s.mem d v)) : Stack t d ((n + 2) * PGSIZE) where
  nonzero := h.nonzero
  small := small
  pages := by
    have page : 0 < PGSIZE := by decide
    have low : n + 1 < 2 ^ 20 := by
      simp only [PGSIZE, KERNBASE] at small
      omega
    refine ⟨n, rfl, ?_, ?_⟩
    · rw [userBit, cleared, h.flags n (by omega) (Nat.mul_lt_mul_of_pos_right (by omega) page)]
      decide
    · rw [others _ low (by omega)]
      exact h.flags _ low (Nat.mul_lt_mul_of_pos_right (by omega) page)
  guarded := guarded
  fits := h.fits.congr fun v hv => same v (by omega)
  kernel v hv high := by
    have apart : v ≠ n := by
      simp only [PGSIZE, KERNBASE] at small
      omega
    rw [others v hv apart, h.kernel v hv high, kmap, kmap, fixed.dataPg]
  tables i entry := h.tables i (dir ▸ entry)

section Stack
variable (sm : SafeMode (M.comap Event.mem) sized safe) (heap : Heap k₀.kmem l₀) (once : l₀.Nodup)
include sm heap once

theorem Building.freevm {f : Unit → KM Int} (h : Building p F k₀ k l₀ l (space k.kmem.mem d))
    (next : ∀ k' l', Building p F k₀ k' l₀ l' 0 → wp M (f ()) Q k') : wp M (Xv6c.onMem p (Mem.freevm d) >>= f) Q k := by
  refine h.onMem (R := fun _ _ H => H = 0) ?_ ?_
  · refine wp_mono (freevm_spec sm (h.holds heap once)) ?_
    rintro _ t ⟨l', saves⟩
    exact ⟨l', 0, saves, rfl⟩
  · rintro _ k' l' _ rfl building
    exact next k' l' building

/- bad, behind the put of the inode. -/
theorem Building.giveUp (h : Building p F k₀ k l₀ l (space k.kmem.mem d)) (nonzero : d ≠ 0)
    (bad : ∀ k' l', Building p F k₀ k' l₀ l' 0 → Q (-1) k') : wp M (execBad p d none) Q k := by
  unfold execBad
  rw [if_pos nonzero]
  exact h.freevm sm heap once fun k' l' building => wp_pure (bad k' l' building)

/- The arguments and ustack, on the stack that was made for them. -/
theorem wp_pushStack (h : Stacked p F k₀ l₀ d sz k) (short : safe → ∀ arg ∈ argv, arg.bytes.length < KERNBASE)
    (stray : safe → Overshoots sz 0 argv → M.fails .trap)
    (bad : ∀ k' l', Lands sz argv → ¬ PageRoom argv → Building p F k₀ k' l₀ l' 0 → Q (-1) k')
    (commit : ∀ k' sp args, Lands sz argv → args.map Prod.snd = argv → Stacked p F k₀ l₀ d sz k' →
      Argv k'.kmem.mem d sz sp args → wp M (execCommit p path entry d sz sp) Q k') :
    wp M (pushArgs p d argv sz [] >>= fun r =>
      match r with
      | none => execBad p d none
      | some (sp, args) => do
        let words := ustack sp args
        let sp := (sp + 2 ^ 32 - words.length * 4) % 2 ^ 32
        let ok ← onMem p (Mem.copyout d sp (wordsAt words) (words.length * 4))
        if ok then execCommit p path entry d sz sp else execBad p d none) Q k := by
  obtain ⟨l, building, stack⟩ := h
  have nonzero := stack.nonzero
  have none : Strings k.kmem.mem d sz [] sz := rfl
  have push := pushArgs_spec sm heap once ⟨l, building, stack⟩ none stack.size.1 (Nat.le_add_right _ _)
    (Nat.zero_le _) short (by rwa [Nat.sub_self])
  refine wp_seq push ?_
  rintro r k₁ ⟨⟨l₁, building⟩, lands, all, result⟩
  rw [List.length_nil, Nat.zero_add, Nat.sub_self] at lands all
  cases r with
  | none =>
    refine building.giveUp sm heap once nonzero fun k' l' => bad k' l' lands fun room => ?_
    exact all (by have := room.1; omega) room.2 rfl
  | some pair =>
    obtain ⟨sp, addrs⟩ := pair
    obtain ⟨h, args, rfl, same, strings, -, room, few, used⟩ := result sp addrs rfl
    rw [List.nil_append] at strings few ⊢
    have top := strings.below
    have small := stack.small
    have size := stack.size.2
    have count : (ustack sp (args.map Prod.fst)).length = args.length + 4 := by simp [ustack]
    rw [List.length_map] at few
    simp only [count]
    refine h.copyout sm once (Nat.mod_lt _ (by decide)) (fun _ => Or.inl fun a _ inside => ?_) ?_
    · refine h.elim fun _ both => both.2.table_low ?_
      simp only [PGSIZE, KERNBASE, MAXARG] at *
      omega
    rintro ok k₂ ⟨l', copied⟩ h₂
    cases ok with
    | false =>
      rw [if_neg (by decide)]
      refine h₂.elim fun l₂ both => both.1.giveUp sm heap once nonzero fun k' l' => bad k' l' lands fun paged => ?_
      -- the words would lie in the stack page
      have fits := paged.1
      obtain ⟨l₁, building, stack⟩ := h
      obtain ⟨a, above, inside, hidden⟩ := copied.refused rfl
      have fine : ∀ arg ∈ argv, arg.bytes.length < KERNBASE := fun arg member =>
        short_of_taken ((List.single_le_sum (fun _ _ => Nat.zero_le _) _ (List.mem_map_of_mem member)).trans (by omega))
      have depth := used fine
      have length : args.length = argv.length := by rw [← same, List.length_map]
      have user := stack.page (a := a) (building.ranged heap) building.saves.heap.positive ?_ ?_
      · exact hidden.elim user.1 user.2
      · simp only [PGSIZE, KERNBASE] at *
        omega
      · simp only [PGSIZE, KERNBASE] at *
        omega
    | true =>
      rw [if_pos rfl]
      have limit := copied.below rfl (by omega)
      have end_ : (sp + 2 ^ 32 - (args.length + 4) * 4) % 2 ^ 32 + 12 + 4 * args.length + 4 = sp := by
        simp only [KERNBASE] at limit small
        omega
      have page := (h.choose_spec.2).lands copied (by omega) (by omega) (by omega) room
      have written := copied.done rfl
      generalize (sp + 2 ^ 32 - (args.length + 4) * 4) % 2 ^ 32 = va at *
      refine commit k₂ va args lands same h₂ (argv_ustack ?_ page small ?_)
      · rw [end_]
        refine strings.congr fun a above inside => (written a ?_).trans (if_neg ?_)
        · simp only [KERNBASE] at small
          omega
        · omega
      · intro i inside
        rw [end_] at inside ⊢
        rw [← word_wordsAt inside]
        rw [count] at inside
        refine userWord_eq fun j inner => (written _ ?_).trans ?_
        · simp only [KERNBASE] at small
          omega
        · rw [if_pos (by omega)]
          congr 2
          omega

theorem wp_execStack (h : Loading p F k₀ l₀ d sz k) (short : safe → ∀ arg ∈ argv, arg.bytes.length < KERNBASE)
    (stray : safe → Overshoots (PGROUNDUP sz + 2 * PGSIZE) 0 argv → M.fails .trap)
    (full : ∀ k' l' t, (Mem.allocuvm d (PGROUNDUP sz) ((PGROUNDUP sz + 2 * PGSIZE) % 2 ^ 32) (k.memView p)).2 = .ok (0, t) →
      Building p F k₀ k' l₀ l' 0 → Q (-1) k')
    (bad : ∀ k' l', Lands (PGROUNDUP sz + 2 * PGSIZE) argv → ¬ PageRoom argv → Building p F k₀ k' l₀ l' 0 → Q (-1) k')
    (commit : ∀ k' sz' sp args, Lands sz' argv → sz' = PGROUNDUP sz + 2 * PGSIZE → args.map Prod.snd = argv →
      Stacked p F k₀ l₀ d sz' k' → Argv k'.kmem.mem d sz' sp args → wp M (execCommit p path entry d sz' sp) Q k') :
    wp M (execStack p path argv entry d sz) Q k := by
  have nonzero : d ≠ 0 := h.elim fun _ both => both.2.nonzero
  have rounded : Loading p F k₀ l₀ d (PGROUNDUP sz) k := h.imp fun _ both => ⟨both.1, both.2.round⟩
  have low : PGROUNDUP sz ≤ KERNBASE := rounded.elim fun _ both => both.2.small
  have size : max (PGROUNDUP sz) ((PGROUNDUP sz + 2 * PGSIZE) % 2 ^ 32) = PGROUNDUP sz + 2 * PGSIZE := by
    simp only [PGSIZE, KERNBASE] at low ⊢
    omega
  unfold execStack
  refine rounded.allocuvm sm heap once (fun k₁ l₁ ended building => ?_) (fun k₁ small h => ?_)
  · rw [if_pos rfl]
    exact building.giveUp sm heap once nonzero fun k' l' => full k' l' _ ended
  rw [size] at h ⊢
  rw [if_neg (by simp only [PGSIZE]; omega), Nat.add_sub_cancel]
  obtain ⟨n, pages⟩ : ∃ n, PGROUNDUP sz = n * PGSIZE := ⟨_, rfl⟩
  have bound : PGROUNDUP sz + 2 * PGSIZE < KERNBASE := by
    simp only [PGSIZE, KERNBASE] at low small ⊢
    omega
  rw [pages] at h stray bad commit bound ⊢
  rw [← Nat.add_mul] at h stray bad commit bound ⊢
  obtain ⟨l₁, building, image⟩ := h
  have page : pageOf (n * PGSIZE) = n := by
    simp only [pageOf, PGSIZE, KERNBASE] at bound ⊢
    omega
  refine building.onSpace once (R := fun _ t => Stack t d ((n + 2) * PGSIZE)) ?_ ?_
  · intro heap once
    refine wp_mono (clearpteu_spec sm heap once fun _ => ?_) ?_
    · rw [page]
      refine (image.fits n ?_).mpr (Nat.mul_lt_mul_of_pos_right (by omega) (by decide))
      simp only [PGSIZE, KERNBASE] at bound
      omega
    · rintro _ t ⟨saves, dir, others, cleared, guarded, same⟩
      rw [page] at others cleared
      exact ⟨l₁, saves, image.clear bound saves.fixed dir others cleared (guarded image.guarded) same⟩
  · intro _ k₂ l₂ stack building
    exact wp_pushStack sm heap once ⟨l₂, building, stack⟩ short stray bad
      fun k' sp args lands => commit k' _ sp args lands rfl

end Stack

/- What setupkvm makes is an empty program. -/
theorem program_empty {s t : MemState} (nonzero : d ≠ 0) (fixed : Fixed s t) (table : KernelTable t.mem d)
    (kernel : ∀ v < 2 ^ 20, pte t.mem d v = kmapPte (kmap s.toKmem) v) : Program t d 0 where
  nonzero := nonzero
  small := Nat.zero_le _
  guarded := table.guarded
  fits v hv := by
    rw [table.low v hv]
    exact iff_of_false (by decide) (Nat.not_lt_zero _)
  flags v _ inside := absurd inside (Nat.not_lt_zero _)
  kernel v hv _ := by
    rw [kernel v hv, kmap, kmap, fixed.dataPg]
  tables i entry := Or.inl (table.tables i entry)

section Load
variable {I : Phase → FileSys → Prop} {ip : Nat}
variable (sm : SafeMode (M.comap Event.mem) sized safe) (use : FileUse (M.comap Event.fs) I ip)
  (heap : Heap k₀.kmem l₀) (once : l₀.Nodup)

include use in
/- bad behind the freeing of the pages, while the inode is held. -/
theorem Building.leave (h : Building p (I (.locked ip)) k₀ k l₀ l 0)
    (bad : ∀ k' l', Building p (I .left) k₀ k' l₀ l' 0 → Q (-1) k') :
    wp M (Xv6c.onFs p (Fs.iunlockput ip) >>= fun _ => Xv6c.onFs p Fs.endOp >>= fun _ => pure (-1)) Q k := by
  refine h.onFs (G := fun _ => I .leaving) (use.iunlockput _ h.files) fun _ k₁ _ h => ?_
  refine h.onFs (G := fun _ => I .left) (use.endOp _ h.files) fun _ k₂ _ h => ?_
  exact wp_pure (bad k₂ l h)

include sm use heap once in
theorem Building.abandon (h : Building p (I (.locked ip)) k₀ k l₀ l (space k.kmem.mem d)) (nonzero : d ≠ 0)
    (bad : ∀ k' l', Building p (I .left) k₀ k' l₀ l' 0 → Q (-1) k') : wp M (execBad p d (some ip)) Q k := by
  unfold execBad
  rw [if_pos nonzero]
  exact h.freevm sm heap once fun k' l' building => building.leave use bad

variable (short : safe → ∀ arg ∈ argv, arg.bytes.length < KERNBASE)
  (stray : safe → ∀ sz, Overshoots (PGROUNDUP sz + 2 * PGSIZE) 0 argv → M.fails .trap)
  (bad : ∀ k' l', Building p (I .left) k₀ k' l₀ l' 0 → Q (-1) k')
  (commit : ∀ k' d entry sz sp args, args.map Prod.snd = argv → Stacked p (I .left) k₀ l₀ d sz k' →
    Argv k'.kmem.mem d sz sp args → wp M (execCommit p path entry d sz sp) Q k')

include sm use heap once short stray bad commit in
theorem wp_execLoad {r : Int} {b : Bytes} (h : Building p (I (.locked ip)) k₀ k l₀ l 0) :
    wp M (execLoad p path argv ip r b) Q k := by
  refine wp_ite (fun _ => h.leave use bad) (fun _ => ?_)
  refine h.onMem (R := fun r t H => (r = 0 ∧ H = 0) ∨ (r ≠ 0 ∧ H = space t.mem r ∧ Program t r 0)) ?_ ?_
  · refine wp_mono (setupkvm_spec sm h.saves.heap (by simpa using h.nodup once)) ?_
    rintro r t ⟨l', ⟨rfl, saves⟩ | ⟨nonzero, saves, table, kernel⟩⟩
    · exact ⟨l', 0, saves, Or.inl ⟨rfl, rfl⟩⟩
    · exact ⟨l', _, saves, Or.inr ⟨nonzero, rfl, program_empty nonzero saves.fixed table kernel⟩⟩
  · rintro d k₁ l₁ H (⟨rfl, rfl⟩ | ⟨nonzero, rfl, image⟩) h
    · rw [if_pos rfl]
      exact h.leave use bad
    · rw [if_neg nonzero]
      refine wp_seq (loadProgram_spec sm use heap once ⟨l₁, h, image⟩) ?_
      rintro r k₂ ⟨⟨l₂, h⟩, result⟩
      cases r with
      | none => exact h.abandon sm use heap once nonzero bad
      | some sz =>
        refine (result sz rfl).onFs (G := fun _ => I .leaving) (use.iunlockput (k₂.fsView p)) fun _ k₃ _ h => ?_
        refine h.onFs (G := fun _ => I .left) (use.endOp (k₃.fsView p)) fun _ k₄ _ h => ?_
        exact wp_execStack sm heap once h short (fun yes => stray yes sz) (fun k' l' _ _ => bad k' l')
          (fun k' l' _ _ => bad k' l') fun k' sz' sp args _ _ => commit k' d _ sz' sp args

/- The phase that openProgram leaves the file system in. -/
def openPhase : Option (Nat × Int × Bytes) → Phase
  | none => .leaving
  | some (ip, _, _) => .locked ip

theorem wp_openProgram {H : Multiset Nat} (use : FsUse (M.comap Event.fs) (k₀.walker p) path I)
    (h : Building p (I .outside) k₀ k l₀ l H) :
    wp M (openProgram p path) (fun r k' => k'.kmem = k.kmem ∧ Building p (I (openPhase r)) k₀ k' l₀ l H) k := by
  unfold openProgram
  refine h.onFs (G := fun _ => I .inOp) (use.beginOp _ h.files) fun _ k₁ kept₁ h => wp_get_bind ?_
  rw [h.aside.walker]
  refine h.onFs (use.namei _ h.files) fun found k₂ kept₂ h => ?_
  cases found with
  | none => exact wp_pure ⟨kept₂.trans kept₁, h⟩
  | some ip =>
    refine h.onFs (G := fun _ => I (.locked ip)) (use.ilock ip _ h.files) fun _ k₃ kept₃ h => ?_
    refine h.onFs (G := fun _ => I (.locked ip)) ((use.file ip).readi _ _ _ h.files) fun got k₄ kept₄ h => ?_
    exact wp_pure ⟨kept₄.trans (kept₃.trans (kept₂.trans kept₁)), h⟩

include sm heap once short stray bad commit in
theorem wp_exec (use : FsUse (M.comap Event.fs) (k₀.walker p) path I) (files : I .outside k₀.fs) :
    wp M (exec p path argv) Q k₀ := by
  rw [exec_eq]
  refine wp_seq (wp_openProgram use (.start heap files)) ?_
  rintro found k₁ ⟨-, h⟩
  cases found with
  | none =>
    refine h.onFs (G := fun _ => I .left) ((use.file 0).endOp _ h.files) fun _ k₂ _ h => ?_
    exact wp_pure (bad k₂ l₀ h)
  | some found => exact wp_execLoad sm (use.file _) heap once short stray bad commit h

end Load

end Xv6c
