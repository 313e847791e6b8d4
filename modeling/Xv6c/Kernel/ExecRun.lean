import Xv6c.Kernel.Exec
import Xv6c.Mem.Store

/-! One run of exec, over any file: it builds an address space out of free pages and either
gives all of them back or exchanges the space for that of the process. What the file system
calls on the way need and leave is left open here. -/
namespace Xv6c
open Lib Mem

/- What a process leaves alone while it works on its own memory and on files. -/
structure Aside (k k' : Kernel) : Prop where
  proc : k'.proc = k.proc
  file : k'.file = k.file
  cont : ∀ i, k'.cont i = { k.cont i with
    upg := (k'.cont i).upg, udsk := (k'.cont i).udsk, state := (k'.cont i).state }
  nextcid : k'.nextcid = k.nextcid
  nextpid : k'.nextpid = k.nextpid
  initproc : k'.initproc = k.initproc

theorem Aside.refl (k : Kernel) : Aside k k := ⟨rfl, rfl, fun _ => rfl, rfl, rfl, rfl⟩

variable {k' : Kernel}

theorem Aside.trans {k₀ k : Kernel} (first : Aside k₀ k) (second : Aside k k') : Aside k₀ k' where
  proc := second.proc.trans first.proc
  file := second.file.trans first.file
  cont i := by
    rw [second.cont i]
    nth_rewrite 1 [first.cont i]
    rfl
  nextcid := second.nextcid.trans first.nextcid
  nextpid := second.nextpid.trans first.nextpid
  initproc := second.initproc.trans first.initproc

theorem aside_fsPut (k : Kernel) (p : ProcId) (s : Fs.FsState) : Aside k (k.fsPut p s) := by
  refine ⟨rfl, rfl, fun i => ?_, rfl, rfl, rfl⟩
  simp only [Kernel.fsPut, Function.update_apply]
  split
  · rename_i same
    rw [same]
  · rfl

theorem aside_memPut (k : Kernel) (p : ProcId) (s : MemState) : Aside k (k.memPut p s) := by
  refine ⟨rfl, rfl, fun i => ?_, rfl, rfl, rfl⟩
  simp only [Kernel.memPut, Function.update_apply]
  split
  · rename_i same
    rw [same]
  · rfl

theorem Aside.procAt {k : Kernel} (h : Aside k k') (p : ProcId) : k'.procAt p = k.procAt p := by
  rw [Kernel.procAt, h.proc]
  rfl

theorem Aside.walker {k : Kernel} (h : Aside k k') (p : ProcId) : k'.walker p = k.walker p := by
  have rootdir (i : Nat) : (k'.cont i).rootdir = (k.cont i).rootdir := by rw [h.cont i]
  simp only [Kernel.walker, Kernel.contOf, h.procAt, rootdir]

variable {t : MemState}

theorem memView_memPut {k : Kernel} {p : ProcId} (msz : t.msz = (k.memView p).msz) :
    (k.memPut p t).memView p = t := by
  simp only [Kernel.memView, Kernel.memPut, Kernel.contOf, Kernel.procAt, Function.update_self] at msz ⊢
  rw [← msz]

theorem memView_fsPut (k : Kernel) (p : ProcId) (s : Fs.FsState) :
    (k.fsPut p s).memView p = { k.memView p with cstate := s.cstate } := by
  simp only [Kernel.memView, Kernel.fsPut, Kernel.contOf, Kernel.procAt, Function.update_self]

theorem memPut_memView (k : Kernel) (p : ProcId) : k.memPut p (k.memView p) = k := by
  simp only [Kernel.memPut, Kernel.memView, Function.update_eq_self]

/- Between k₀ and k, process p has taken the pages H from the free list, and the file
system is as F says. -/
structure Building (p : ProcId) (F : FileSys → Prop) (k₀ k : Kernel) (l₀ l : List Nat) (H : Multiset Nat) :
    Prop where
  aside : Aside k₀ k
  saves : Saves (k₀.memView p) (k.memView p) l₀ l 0 H
  files : F k.fs

variable {M : Mode Event Fault} {A B : Type} {p : ProcId} {F : FileSys → Prop} {k₀ k : Kernel}
variable {l₀ l : List Nat} {H : Multiset Nat} {Q : B → Kernel → Prop}

theorem Building.start (heap : Heap k.kmem l) (files : F k.fs) : Building p F k k l l 0 :=
  ⟨.refl k, .refl heap 0, files⟩

theorem Building.holds {safe : Prop} (h : Building p F k₀ k l₀ l H) (heap : Heap k₀.kmem l₀) (once : l₀.Nodup) :
    Holds safe (k.memView p) l H :=
  (Holds.start (s := k₀.memView p) heap (Multiset.coe_nodup.mpr once)).after h.saves.toMoves

theorem Building.ranged (h : Building p F k₀ k l₀ l H) (heap : Heap k₀.kmem l₀) : Ranged k.kmem H :=
  h.saves.ranged heap fun q held => absurd held (Multiset.notMem_zero q)

theorem Building.nodup (h : Building p F k₀ k l₀ l H) (once : l₀.Nodup) : ((l : Multiset Nat) + H).Nodup :=
  h.saves.nodup (by rwa [add_zero, Multiset.coe_nodup])

variable {f : A → KM B}

/- A function of kalloc.c or vm.c that works on the pages in hand. -/
theorem Building.onMem {x : MemM A} {R : A → MemState → Multiset Nat → Prop} (h : Building p F k₀ k l₀ l H)
    (spec : wp (M.comap Event.mem) x (fun a t => ∃ l' H', Saves (k.memView p) t l l' H H' ∧ R a t H')
      (k.memView p))
    (next : ∀ a k' l' H', R a (k'.memView p) H' → Building p F k₀ k' l₀ l' H' → wp M (f a) Q k') :
    wp M (onMem p x >>= f) Q k := by
  refine wp_bind (wp_zoom (wp_mono spec ?_))
  rintro a t ⟨l', H', saves, result⟩
  have view : (k.memPut p t).memView p = t := memView_memPut saves.fixed.msz
  refine next a _ l' H' (view.symm ▸ result) ⟨h.aside.trans (aside_memPut k p t), ?_, h.files⟩
  rw [view]
  exact h.saves.trans saves

theorem Building.fsPut {G : FileSys → Prop} {s : Fs.FsState} (h : Building p F k₀ k l₀ l H) (result : G s.toFileSys) :
    Building p G k₀ (k.fsPut p s) l₀ l H := by
  refine ⟨h.aside.trans (aside_fsPut k p s), ?_, result⟩
  rw [memView_fsPut]
  obtain ⟨⟨fixed, heap, works, charge, limit⟩, all⟩ := h.saves
  exact ⟨⟨{ fixed with }, heap, works, charge, limit⟩, all⟩

variable {G : A → FileSys → Prop}

/- A function of fs.c. -/
theorem Building.onFs {x : Fs.FsM A} (h : Building p F k₀ k l₀ l H)
    (spec : wp (M.comap Event.fs) x (fun a t => G a t.toFileSys) (k.fsView p))
    (next : ∀ a k', k'.kmem = k.kmem → Building p (G a) k₀ k' l₀ l H → wp M (f a) Q k') :
    wp M (onFs p x >>= f) Q k := by
  refine wp_bind (wp_zoom (wp_mono spec ?_))
  intro a t result
  exact next a _ rfl (h.fsPut result)

/- How exec goes through the file system. -/
inductive Phase where
  | outside
  | inOp
  | found (ip : Nat)
  | locked (ip : Nat)
  | leaving
  | left

/- What exec needs of the file that it holds, until it has left the file system. -/
structure FileUse (M : Mode FsEvent Fault) (I : Phase → FileSys → Prop) (ip : Nat) : Prop where
  readi : ∀ off n s, I (.locked ip) s.toFileSys →
    wp M (Fs.readi ip off n) (fun _ t => I (.locked ip) t.toFileSys) s
  iunlockput : ∀ s, I (.locked ip) s.toFileSys → wp M (Fs.iunlockput ip) (fun _ t => I .leaving t.toFileSys) s
  endOp : ∀ s, I .leaving s.toFileSys → wp M Fs.endOp (fun _ t => I .left t.toFileSys) s

/- What the file system calls of exec need and leave, for a walk of w along path. -/
structure FsUse (M : Mode FsEvent Fault) (w : Fs.Walker) (path : Fs.CStr) (I : Phase → FileSys → Prop) : Prop where
  beginOp : ∀ s, I .outside s.toFileSys → wp M Fs.beginOp (fun _ t => I .inOp t.toFileSys) s
  namei : ∀ s, I .inOp s.toFileSys → wp M (Fs.namei w path)
    (fun r t => I (match r with | none => .leaving | some ip => .found ip) t.toFileSys) s
  ilock : ∀ ip s, I (.found ip) s.toFileSys → wp M (Fs.ilock ip) (fun _ t => I (.locked ip) t.toFileSys) s
  file : ∀ ip, FileUse M I ip

/- An address space of size sz, as exec builds it: the kernel's part is that of setupkvm,
and every page below the size is the user's. -/
structure Program (s : MemState) (d sz : Nat) : Prop where
  nonzero : d ≠ 0
  small : sz ≤ KERNBASE
  guarded : Guarded s.mem d
  fits : Fits s.mem d sz
  flags : ∀ v < 2 ^ 20, v * PGSIZE < sz → pteFlags (pte s.mem d v) = userFlags
  kernel : ∀ v < 2 ^ 20, 2 ^ 19 ≤ v → pte s.mem d v = kmapPte (kmap s.toKmem) v
  tables : ∀ i, present (word (s.mem d) i) → KernelIndex i ∨ i * 2 ^ 22 < sz

variable {s : MemState}

/- Only the entries and the directory count. -/
theorem Program.congr {d sz : Nat} (h : Program s d sz) (fixed : Fixed s t) (dir : t.mem d = s.mem d)
    (ptes : ∀ v < 2 ^ 20, pte t.mem d v = pte s.mem d v) : Program t d sz where
  nonzero := h.nonzero
  small := h.small
  guarded v hv user := h.guarded v hv (ptes v hv ▸ user)
  fits := h.fits.congr fun v hv => congrArg present (ptes v (by omega))
  flags v hv below := by
    rw [ptes v hv]
    exact h.flags v hv below
  kernel v hv high := by
    rw [ptes v hv, h.kernel v hv high, kmap, kmap, fixed.dataPg]
  tables i entry := h.tables i (dir ▸ entry)

/- The memory is the same after a call of the file system. -/
theorem Program.of_kmem {d sz : Nat} (h : Program (k.memView p) d sz) (kmem : k'.kmem = k.kmem) :
    Program (k'.memView p) d sz := by
  have mem : (k'.memView p).mem = (k.memView p).mem := congrArg Kmem.mem kmem
  obtain ⟨nonzero, small, guarded, fits, flags, kernel, tables⟩ := h
  rw [← mem] at guarded fits flags kernel tables
  refine ⟨nonzero, small, guarded, fits, flags, fun v hv high => ?_, tables⟩
  rw [kernel v hv high]
  exact congrArg (fun m => kmapPte (kmap m) v) kmem.symm

/- allocuvm makes it grow. -/
theorem Program.grow {d sz newsz : Nat} (h : Program s d sz) (fixed : Fixed s t) (below : newsz < KERNBASE)
    (guarded : Guarded t.mem d)
    (tables : ∀ i, present (word (t.mem d) i) → present (word (s.mem d) i) ∨ i * 2 ^ 22 < newsz)
    (flags : ∀ v < 2 ^ 20, sz ≤ v * PGSIZE → v * PGSIZE < newsz → pteFlags (pte t.mem d v) = userFlags)
    (set : Sets true s.mem t.mem d (fun v => sz ≤ v * PGSIZE ∧ v * PGSIZE < newsz)) :
    Program t d (max sz newsz) where
  nonzero := h.nonzero
  small := Nat.max_le.mpr ⟨h.small, below.le⟩
  guarded := guarded
  fits := h.fits.grow set
  flags v hv inside := by
    by_cases range : sz ≤ v * PGSIZE ∧ v * PGSIZE < newsz
    · exact flags v hv range.1 range.2
    · rw [set.kept v hv range]
      exact h.flags v hv (by omega)
  kernel v hv high := by
    have outside : ¬ (sz ≤ v * PGSIZE ∧ v * PGSIZE < newsz) := by
      simp only [KERNBASE] at below
      simp only [PGSIZE]
      omega
    rw [set.kept v hv outside, h.kernel v hv high, kmap, kmap, fixed.dataPg]
  tables i entry := by
    rcases tables i entry with old | new
    · exact (h.tables i old).imp_right fun inside => by omega
    · exact Or.inr (by omega)

/- A user page is written. -/
theorem Program.store {d sz v : Nat} {l : List Nat} (h : Program s d sz) (heap : Heap s.toKmem l)
    (once : ((l : Multiset Nat) + space s.mem d).Nodup) (low : v < 2 ^ 19) (inside : v * PGSIZE < sz)
    (b : Bytes) :
    Saves s { s with mem := Function.update s.mem (ptePage (pte s.mem d v)) b } l l (space s.mem d)
        (space (Function.update s.mem (ptePage (pte s.mem d v)) b) d) ∧
      Program { s with mem := Function.update s.mem (ptePage (pte s.mem d v)) b } d sz := by
  have user := mem_users low ((h.fits v low).mpr inside)
  obtain ⟨saves, ptes⟩ := store_moves (b := b) heap once user
  refine ⟨saves, h.congr ⟨rfl, rfl, rfl, rfl⟩ ?_ ptes⟩
  exact store_dir b (Multiset.nodup_add.mp once).2.1 user

variable {sized safe : Prop} {I : Phase → FileSys → Prop} {d sz ip : Nat}

/- The address space d, of size sz, has been built out of free pages. -/
def Loading (p : ProcId) (F : FileSys → Prop) (k₀ : Kernel) (l₀ : List Nat) (d sz : Nat) (k : Kernel) : Prop :=
  ∃ l, Building p F k₀ k l₀ l (space k.kmem.mem d) ∧ Program (k.memView p) d sz

/- A function that works on the address space in hand. -/
theorem Building.onSpace {x : MemM A} {R : A → MemState → Prop}
    (h : Building p F k₀ k l₀ l (space k.kmem.mem d)) (once : l₀.Nodup)
    (spec : Heap k.kmem l → ((l : Multiset Nat) + space k.kmem.mem d).Nodup →
      wp (M.comap Event.mem) x (fun a t => ∃ l',
        Saves (k.memView p) t l l' (space k.kmem.mem d) (space t.mem d) ∧ R a t) (k.memView p))
    (next : ∀ a k' l', R a (k'.memView p) → Building p F k₀ k' l₀ l' (space k'.kmem.mem d) → wp M (f a) Q k') :
    wp M (Xv6c.onMem p x >>= f) Q k := by
  refine h.onMem (R := fun a t H => H = space t.mem d ∧ R a t) ?_ ?_
  · refine wp_mono (spec h.saves.heap (h.nodup once)) ?_
    rintro a t ⟨l', saves, result⟩
    exact ⟨l', _, saves, rfl, result⟩
  · rintro a k' l' _ ⟨rfl, result⟩ building
    exact next a k' l' result building

theorem Loading.onFs {x : Fs.FsM A} (h : Loading p F k₀ l₀ d sz k)
    (spec : F k.fs → wp (M.comap Event.fs) x (fun a t => G a t.toFileSys) (k.fsView p))
    (next : ∀ a k', k'.kmem = k.kmem → Loading p (G a) k₀ l₀ d sz k' → wp M (f a) Q k') :
    wp M (onFs p x >>= f) Q k := by
  obtain ⟨l, building, image⟩ := h
  refine building.onFs (spec building.files) fun a k' kmem building => next a k' kmem ⟨l, ?_, image.of_kmem kmem⟩
  rwa [kmem]

section Load
variable (sm : SafeMode (M.comap Event.mem) sized safe) (use : FileUse (M.comap Event.fs) I ip)
  (heap : Heap k₀.kmem l₀) (once : l₀.Nodup)
include sm use once

/- The loop of loaduvm over the pages of a segment, from its page v on. -/
theorem loadLoop_spec {addr offset size n v : Nat} (aligned : addr % PGSIZE = 0)
    (inside : addr + size ≤ sz) (enough : safe → Enough n v size)
    (h : Loading p (I (.locked ip)) k₀ l₀ d sz k) :
    wp M (loadLoop p d addr ip offset size n (v * PGSIZE))
      (fun _ k' => Loading p (I (.locked ip)) k₀ l₀ d sz k') k := by
  induction n generalizing v k with
  | zero => exact wp_fault (sm.other (fun yes => (enough yes).positive) (by decide))
  | succ n ih =>
    unfold loadLoop
    refine wp_ite (fun below => ?_) (fun _ => wp_pure h)
    obtain ⟨l, building, image⟩ := h
    have page : pageOf (addr + v * PGSIZE) * PGSIZE = addr + v * PGSIZE ∧ pageOf (addr + v * PGSIZE) < 2 ^ 19 := by
      have small := image.small
      simp only [KERNBASE] at small
      simp only [pageOf, PGSIZE] at aligned below ⊢
      omega
    have reach : pageOf (addr + v * PGSIZE) * PGSIZE < sz := by omega
    have mapped := (image.fits _ page.2).mpr reach
    refine wp_bind (wp_zoom (wp_last (wp_lookup (fun missing => ?_) (fun here => wp_pure ?_))))
    · rw [PDX_pageOf] at missing
      exact absurd (table_of_present mapped) missing
    rw [memPut_memView]
    have found : word (k.kmem.mem (ptePage (word ((k.memView p).mem d) (PDX (addr + v * PGSIZE)))))
        (PTX (addr + v * PGSIZE)) = pte k.kmem.mem d (pageOf (addr + v * PGSIZE)) := entry_eq here
    refine wp_get_bind ?_
    simp only [found]
    refine building.onFs (G := fun _ => I (.locked ip)) (use.readi _ _ (k.fsView p) building.files)
      fun got k₁ kmem building => ?_
    obtain ⟨r, data⟩ := got
    refine wp_get_bind ?_
    rw [← kmem] at building ⊢
    refine building.onSpace once (R := fun _ t => Program t d sz) (fun heap once => wp_modify ?_) ?_
    · obtain ⟨saves, after⟩ := (image.of_kmem (p := p) kmem).store heap once page.2 reach _
      exact ⟨l, saves, after⟩
    · intro _ k₂ l₂ image building
      refine wp_ite (fun _ => wp_pure ⟨l₂, building, image⟩) (fun _ => ?_)
      rw [← Nat.add_one_mul]
      exact ih (fun yes => (enough yes).step below (Nat.lt_succ_self v)) ⟨l₂, building, image⟩

theorem loaduvm_spec {addr offset size : Nat} (aligned : addr % PGSIZE = 0) (inside : addr + size ≤ sz)
    (h : Loading p (I (.locked ip)) k₀ l₀ d sz k) :
    wp M (loaduvm p d addr ip offset size) (fun _ k' => Loading p (I (.locked ip)) k₀ l₀ d sz k') k := by
  unfold loaduvm
  rw [if_neg (not_not.mpr aligned), ← Nat.zero_mul PGSIZE]
  exact loadLoop_spec sm use once aligned inside (fun _ => enough_pages _ _) h

omit use in
include heap in
/- allocuvm on the address space in hand. -/
theorem Loading.allocuvm {newsz : Nat} {f : Nat → KM B} (h : Loading p F k₀ l₀ d sz k)
    (full : ∀ k' l', (Mem.allocuvm d sz newsz (k.memView p)).2 = .ok (0, k'.memView p) →
      Building p F k₀ k' l₀ l' (space k'.kmem.mem d) → wp M (f 0) Q k')
    (done : ∀ k', newsz < KERNBASE → Loading p F k₀ l₀ d (max sz newsz) k' → wp M (f (max sz newsz)) Q k') :
    wp M (Xv6c.onMem p (Mem.allocuvm d sz newsz) >>= f) Q k := by
  obtain ⟨l, building, image⟩ := h
  have ranged := building.ranged heap
  refine building.onSpace once (R := fun r t => (Mem.allocuvm d sz newsz (k.memView p)).2 = .ok (r, t) ∧
    (r = 0 ∨ r = max sz newsz ∧ newsz < KERNBASE ∧ Program t d r)) ?_ ?_
  · intro heap once
    refine wp_mono (wp_result (allocuvm_spec sm ⟨heap, once, fun _ => ranged⟩ fun _ => image.fits.free)) ?_
    rintro r t ⟨⟨l', saves, guarded, tables, flags, result⟩, ended⟩
    refine ⟨l', saves, ended, ?_⟩
    by_cases zero : r = 0
    · exact Or.inl zero
    · obtain ⟨rfl, small, set⟩ := result.resolve_left fun failed => zero failed.1
      exact Or.inr ⟨rfl, small, image.grow saves.fixed small (guarded image.guarded) tables (flags zero) set⟩
  · rintro r k' l' ⟨ended, rfl | ⟨rfl, small, image⟩⟩ building
    · exact full k' l' ended building
    · exact done k' small ⟨l', building, image⟩

include heap in
theorem loadProgram_spec {n off : Nat} (h : Loading p (I (.locked ip)) k₀ l₀ d sz k) :
    wp M (loadProgram p ip d n off sz) (fun r k' =>
      (∃ l, Building p (I (.locked ip)) k₀ k' l₀ l (space k'.kmem.mem d)) ∧
      ∀ x, r = some x → Loading p (I (.locked ip)) k₀ l₀ d x k') k := by
  have bad {sz' : Nat} {k' : Kernel} (h : Loading p (I (.locked ip)) k₀ l₀ d sz' k') :
      (∃ l, Building p (I (.locked ip)) k₀ k' l₀ l (space k'.kmem.mem d)) ∧
        ∀ x, (none : Option Nat) = some x → Loading p (I (.locked ip)) k₀ l₀ d x k' :=
    ⟨h.imp fun _ both => both.1, nofun⟩
  induction n generalizing off sz k with
  | zero => exact wp_pure ⟨h.imp fun _ both => both.1, fun x same => Option.some.inj same ▸ h⟩
  | succ n ih =>
    unfold loadProgram
    refine h.onFs (G := fun _ => I (.locked ip)) (use.readi _ _ (k.fsView p)) fun got k₁ _ h => ?_
    obtain ⟨r, b⟩ := got
    dsimp only
    refine wp_ite (fun _ => wp_pure (bad h)) (fun _ => ?_)
    refine wp_ite (fun _ => ih h) (fun _ => ?_)
    refine wp_ite (fun _ => wp_pure (bad h)) (fun fits => ?_)
    refine wp_ite (fun _ => wp_pure (bad h)) (fun wraps => ?_)
    refine h.allocuvm sm heap once (fun k₂ l₂ _ building => ?_) (fun k₂ small h => ?_)
    · rw [if_pos rfl]
      exact wp_pure ⟨⟨l₂, building⟩, nofun⟩
    · refine wp_ite (fun _ => wp_pure (bad h)) (fun _ => ?_)
      refine wp_ite (fun _ => wp_pure (bad h)) (fun aligned => ?_)
      refine wp_seq (loaduvm_spec sm use once (not_not.mp aligned) ?_ h) fun ok k₃ h => ?_
      · have vaddr : (getProgHdr b).vaddr < 2 ^ 32 := BitVec.isLt _
        have memsz : (getProgHdr b).memsz < 2 ^ 32 := BitVec.isLt _
        omega
      · exact wp_ite (fun _ => ih h) (fun _ => wp_pure (bad h))

end Load

end Xv6c
