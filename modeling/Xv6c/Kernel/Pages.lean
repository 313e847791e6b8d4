import Xv6c.Kernel.Effects
import Xv6c.Mem.Copy
import Xv6c.Mem.Store

/-! Who holds the pages of physical memory: the free list, the processes, the pipes
and the kernel's own page table. Within a system call further pages are in hand, and
slots of the process table are open while their pages are worked on. -/
namespace Xv6c
open Lib Mem
open Function (update update_apply update_of_ne update_self)

def Live (q : Proc) : Prop := q.state ≠ .unused ∧ q.state ≠ .embryo

instance (q : Proc) : Decidable (Live q) := inferInstanceAs (Decidable (_ ∧ _))

@[irreducible] def slots : Finset ProcId :=
  (Finset.range NCONT ×ˢ Finset.range NPROC).image fun x => ⟨x.1, x.2⟩

theorem mem_slots {p : ProcId} : p ∈ slots ↔ p.cont < NCONT ∧ p.slot < NPROC := by
  unfold slots
  simp only [Finset.mem_image, Finset.mem_product, Finset.mem_range, Prod.exists]
  constructor
  · rintro ⟨i, j, h, rfl⟩
    exact h
  · exact fun h => ⟨p.cont, p.slot, h, rfl⟩

@[irreducible] def fileIds : Finset Nat := Finset.range NFILE

theorem mem_fileIds {f : Nat} : f ∈ fileIds ↔ f < NFILE := by
  unfold fileIds
  exact Finset.mem_range

/- The pages of a process: its kernel stack and its address space. -/
def procPages (m : Nat → Bytes) (q : Proc) : Multiset Nat :=
  if Live q then {q.kstack} + space m q.pgdir else 0

def pipePages (file : Nat → File) : Finset Nat :=
  (fileIds.filter fun f => (file f).type = .pipe).image fun f => (file f).pipe

/- The pages that are held while only the slots S are settled. -/
def held (k : Kernel) (S : Finset ProcId) (m : Nat → Bytes) : Multiset Nat :=
  ∑ q ∈ S, procPages m (k.procAt q) + (pipePages k.file).val + space m k.kmem.kpgdir

/- What a settled process keeps to. -/
structure Tidy (m : Nat → Bytes) (p : ProcId) (q : Proc) : Prop where
  guarded : Guarded m q.pgdir
  size : q.sz < KERNBASE
  home : q.cont = p.cont

/- Where sizes are followed, its size also says which pages are mapped. -/
structure InOrder (sized : Prop) (m : Nat → Bytes) (p : ProcId) (q : Proc) : Prop extends Tidy m p q where
  fits : sized → Fits m q.pgdir q.sz

/- An open end of a pipe is noted in its page, and held by one file. -/
structure Pipes (m : Nat → Bytes) (file : Nat → File) : Prop where
  ends : ∀ f, (file f).type = .pipe →
    word (m (file f).pipe) (if (file f).writable then pipeWriteopen else pipeReadopen) ≠ 0
  alone : ∀ f h, (file f).type = .pipe → (file h).type = .pipe → (file f).pipe = (file h).pipe →
    (file f).writable = (file h).writable → f = h

/- The flag of a pipe's end. -/
def endFlag (writable : Bool) : Nat := if writable then pipeWriteopen else pipeReadopen

/- Where flags are followed, they are 1 for an end that is open and 0 for one that is not. -/
structure Flags (m : Nat → Bytes) (file : Nat → File) : Prop where
  opened : ∀ f, (file f).type = .pipe → word (m (file f).pipe) (endFlag (file f).writable) = 1
  closed : ∀ f w, (file f).type = .pipe →
    (∀ h, (file h).type = .pipe → (file h).pipe = (file f).pipe → (file h).writable ≠ w) →
    word (m (file f).pipe) (endFlag w) = 0

structure PipeEnds (flagged : Prop) (m : Nat → Bytes) (file : Nat → File) : Prop
    extends Pipes m file where
  flags : flagged → Flags m file

/- A file that is not in use has no type. -/
structure Files (file : Nat → File) : Prop where
  unused : ∀ f, (file f).ref = 0 → (file f).type = .none
  table : ∀ f, NFILE ≤ f → (file f).ref = 0

/- What stays fixed while a process is in the kernel: the process, the container that
its pages are charged to, with its limit where that is followed, the pages of the
settled slots, of the kernel's page table and those of pipes, and whether sizes and the
flags of pipes are followed. The counter of the container and slack bound the pages held. -/
structure Books where
  sized : Prop
  flagged : Prop
  caller : ProcId
  cont : Nat
  msz : Option Nat
  slack : Int
  pages : ProcId → Multiset Nat
  kernel : Multiset Nat
  pipes : Finset Nat

structure Owned (g : Books) (k : Kernel) (l : List Nat) (X : Multiset Nat) (S : Finset ProcId) :
    Prop where
  heap : Heap k.kmem l
  once : ((l : Multiset Nat) + (X + held k S k.kmem.mem)).Nodup
  tidy : ∀ q ∈ S, Live (k.procAt q) → InOrder g.sized k.kmem.mem q (k.procAt q)
  pages : ∀ q ∈ S, procPages k.kmem.mem (k.procAt q) = g.pages q
  kernel : space k.kmem.mem k.kmem.kpgdir = g.kernel
  files : Files k.file
  pipes : PipeEnds g.flagged k.kmem.mem k.file
  known : pipePages k.file ⊆ g.pipes
  mproc : ∀ i, (k.cont i).mproc ≤ NPROC
  caller : g.caller ∈ slots ∧ Live (k.procAt g.caller) ∧ k.contOf g.caller = g.cont
  balance : (Multiset.card (X + held k S k.kmem.mem) : Int) ≤ g.slack + (k.cont g.cont).upg
  limit : ∀ m, g.msz = some m →
    (k.cont g.cont).msz = m ∧ (k.cont g.cont).upg * PGSIZE ≤ m ∧ m < 2 ^ 31

variable {g : Books} {k : Kernel} {l : List Nat} {X : Multiset Nat} {S : Finset ProcId}

variable {m : Nat → Bytes} {file : Nat → File}

/- The invariant reads nothing of a pipe's page but its flags. -/
theorem PipeEnds.congr {flagged : Prop} {n : Nat → Bytes} (h : PipeEnds flagged m file)
    (same : ∀ f, (file f).type = .pipe → ∀ w,
      word (n (file f).pipe) (endFlag w) = word (m (file f).pipe) (endFlag w)) : PipeEnds flagged n file where
  ends f isPipe := by
    change word _ (endFlag (file f).writable) ≠ 0
    rw [same f isPipe]
    exact h.ends f isPipe
  alone := h.alone
  flags follow := by
    refine ⟨fun f isPipe => ?_, fun f w isPipe side => ?_⟩ <;> rw [same f isPipe]
    · exact (h.flags follow).opened f isPipe
    · exact (h.flags follow).closed f w isPipe side

/- Of a file, it reads whether it is the end of a pipe, and of which. -/
theorem PipeEnds.refile {flagged : Prop} {F : Nat → File} (h : PipeEnds flagged m file)
    (same : ∀ f, (F f).type = .pipe → (file f).type = .pipe ∧ (F f).pipe = (file f).pipe ∧
      (F f).writable = (file f).writable)
    (whole : ∀ f g, (F f).type = .pipe → (file g).type = .pipe → (file g).pipe = (file f).pipe →
      (F g).type = .pipe) : PipeEnds flagged m F where
  ends f isPipe := by
    obtain ⟨old, pipe, side⟩ := same f isPipe
    rw [pipe, side]
    exact h.ends f old
  alone f g first second := by
    obtain ⟨old, pipe, side⟩ := same f first
    obtain ⟨old', pipe', side'⟩ := same g second
    rw [pipe, side, pipe', side']
    exact h.alone f g old old'
  flags follow := by
    refine ⟨fun f isPipe => ?_, fun f w isPipe none => ?_⟩ <;> obtain ⟨old, pipe, side⟩ := same f isPipe
    · rw [pipe, side]
      exact (h.flags follow).opened f old
    · rw [pipe]
      refine (h.flags follow).closed f w old fun g other page => ?_
      obtain ⟨_, pipe', side'⟩ := same g (whole f g isPipe other page)
      rw [← side']
      exact none g (whole f g isPipe other page) (by rw [pipe', pipe, page])

theorem procAt_congr {k' : Kernel} (same : k'.proc = k.proc) (q : ProcId) :
    k'.procAt q = k.procAt q := congrFun (congrFun same q.cont) q.slot

theorem procPages_local (q : Proc) : Local (fun m => procPages m q) := by
  unfold procPages
  by_cases live : Live q
  · simp only [if_pos live]
    exact (Local.const _).add (space_local _)
  · simp only [if_neg live]
    exact Local.const 0

theorem held_local (k : Kernel) (S : Finset ProcId) : Local (held k S) :=
  ((Local.sum fun q _ => procPages_local (k.procAt q)).add (Local.const _)).add (space_local _)

theorem mem_held_proc {q : ProcId} {r : Nat} (inside : q ∈ S) (member : r ∈ procPages m (k.procAt q)) :
    r ∈ held k S m :=
  Multiset.mem_add.mpr (Or.inl (Multiset.mem_add.mpr (Or.inl (Multiset.mem_sum.mpr
    ⟨q, inside, member⟩))))

theorem mem_pipePages (files : Files file) {f : Nat} (isPipe : (file f).type = .pipe) :
    (file f).pipe ∈ pipePages file := by
  refine Finset.mem_image.mpr ⟨f, Finset.mem_filter.mpr ⟨mem_fileIds.mpr ?_, isPipe⟩, rfl⟩
  by_contra outside
  have := files.unused f (files.table f (by omega))
  rw [this] at isPipe
  exact nomatch isPipe

theorem mem_held_pipe {r : Nat} (inside : r ∈ pipePages k.file) : r ∈ held k S m :=
  Multiset.mem_add.mpr (Or.inl (Multiset.mem_add.mpr (Or.inr (Finset.mem_val.mpr inside))))

section Rules

/- Pages that no one else holds were worked on. -/
theorem Owned.moves {t : MemState} {l' : List Nat} {H H' Z : Multiset Nat}
    (h : Owned g k l (H + Z) S) (moves : Moves (k.memView g.caller) t l l' H H') :
    Owned g (k.memPut g.caller t) l' (H' + Z) S := by
  have kpgdir : t.kpgdir = k.kmem.kpgdir := moves.fixed.kpgdir
  have view : k.memView g.caller =
      { k.kmem with upg := (k.cont g.cont).upg, msz := (k.cont g.cont).msz
                    cstate := (k.cont g.cont).state } := by
    simp only [Kernel.memView, h.caller.2.2]
  have cont : (k.memPut g.caller t).cont = update k.cont g.cont
      { k.cont g.cont with upg := t.upg, state := t.cstate } := by
    simp only [Kernel.memPut, h.caller.2.2]
  have once := h.once
  rw [add_assoc H Z, ← add_assoc] at once
  have same : ∀ r ∈ held k S k.kmem.mem, t.mem r = k.kmem.mem r := by
    intro r member
    refine moves.works.same r fun inside => ?_
    exact held_apart once inside
      (Multiset.mem_add.mpr (Or.inr member))
  have kept : held (k.memPut g.caller t) S t.mem = held k S k.kmem.mem := by
    rw [← held_local k S k.kmem.mem t.mem same]
    simp only [held, Kernel.memPut, kpgdir]
    rfl
  refine ⟨moves.heap, ?_, ?_, ?_, ?_, h.files, ?_, h.known, ?_, ?_, ?_, ?_⟩
  · have framed := (moves.frame (Z + held k S k.kmem.mem)).nodup (by rwa [← add_assoc])
    change ((l' : Multiset Nat) + (H' + Z + held (k.memPut g.caller t) S t.mem)).Nodup
    rwa [kept, add_assoc H']
  · intro q inside live
    change Live (k.procAt q) at live
    have old := h.tidy q inside live
    have ptes (v : Nat) (hv : v < 2 ^ 20) : pte t.mem (k.procAt q).pgdir v =
        pte k.kmem.mem (k.procAt q).pgdir v := by
      refine pte_congr (fun r hr => same r (mem_held_proc inside ?_)) hv
      rw [procPages, if_pos live]
      exact Multiset.mem_add.mpr (Or.inr (Multiset.mem_add.mpr (Or.inl hr)))
    refine ⟨⟨fun v hv user => old.guarded v hv ?_, old.size, old.home⟩, fun sized => ?_⟩
    · rwa [← ptes v hv]
    · exact (old.fits sized).congr fun v hv => congrArg present (ptes v (by omega))
  · intro q inside
    rw [← h.pages q inside]
    exact procPages_local _ _ _ fun r hr => same r (mem_held_proc inside hr)
  · rw [← h.kernel]
    change space t.mem t.kpgdir = _
    rw [kpgdir]
    exact space_local _ _ _ fun r hr => same r (Multiset.mem_add.mpr (Or.inr hr))
  · have page {f : Nat} (isPipe : (k.file f).type = .pipe) :
        t.mem (k.file f).pipe = k.kmem.mem (k.file f).pipe :=
      same _ (mem_held_pipe (mem_pipePages h.files isPipe))
    exact h.pipes.congr fun f isPipe w => congrArg (fun b => word b (endFlag w)) (page isPipe)
  · exact fun i => (update_same (g := Cont.mproc) (by rfl) i).trans_le (h.mproc i)
  · exact h.caller
  · have charge := moves.charge
    have old := h.balance
    change (Multiset.card (H' + Z + held (k.memPut g.caller t) S t.mem) : Int) ≤ _
    rw [kept, cont, update_self]
    simp only [view, Multiset.card_add] at charge old ⊢
    omega
  · intro m limited
    obtain ⟨size, below, small⟩ := h.limit m limited
    have kept := moves.limit
    rw [cont, update_self]
    simp only [view] at kept
    exact ⟨size, size ▸ kept (size.symm ▸ below) (size.symm ▸ small), small⟩

theorem Owned.hand {H Z : Multiset Nat} (h : Owned g k l (H + Z) S) :
    ((l : Multiset Nat) + H).Nodup := by
  have once := h.once
  rw [add_assoc H, ← add_assoc] at once
  exact (Multiset.nodup_add.mp once).1

theorem Owned.holds {H Z : Multiset Nat} (h : Owned g k l (H + Z) S) : Holds False (k.memView g.caller) l H :=
  ⟨h.heap, h.hand, nofun⟩

/- What the invariant reads of a process. -/
structure SameImage (q r : Proc) : Prop where
  live : Live r ↔ Live q
  kstack : r.kstack = q.kstack
  pgdir : r.pgdir = q.pgdir
  sz : r.sz = q.sz
  cont : r.cont = q.cont

theorem SameImage.refl (q : Proc) : SameImage q q := ⟨Iff.rfl, rfl, rfl, rfl, rfl⟩

theorem SameImage.pages {q r : Proc} (h : SameImage q r) (m : Nat → Bytes) :
    procPages m r = procPages m q := by
  simp only [procPages, h.live, h.kstack, h.pgdir]

/- Two kernels between which the invariant sees no difference. -/
structure Alike (g : Books) (S : Finset ProcId) (k k' : Kernel) : Prop where
  kmem : k'.kmem = k.kmem
  file : k'.file = k.file
  procs : ∀ q ∈ S, SameImage (k.procAt q) (k'.procAt q)
  caller : Live (k'.procAt g.caller) ∧ k'.contOf g.caller = k.contOf g.caller
  mproc : ∀ i, (k'.cont i).mproc ≤ NPROC
  upg : (k'.cont g.cont).upg = (k.cont g.cont).upg
  msz : ∀ m, g.msz = some m → (k'.cont g.cont).msz = (k.cont g.cont).msz

theorem Owned.alike {k' : Kernel} (h : Owned g k l X S) (same : Alike g S k k') :
    Owned g k' l X S := by
  have kept (m : Nat → Bytes) : held k' S m = held k S m := by
    simp only [held, same.file, same.kmem]
    congr 2
    exact Finset.sum_congr rfl fun q hq => (same.procs q hq).pages m
  refine ⟨same.kmem ▸ h.heap, ?_, fun q hq live => ?_, fun q hq => ?_, same.kmem ▸ h.kernel,
    same.file ▸ h.files, ?_,
    same.file ▸ h.known, same.mproc, ⟨h.caller.1, same.caller.1, same.caller.2.trans h.caller.2.2⟩,
    ?_, ?_⟩
  · rw [kept, same.kmem]
    exact h.once
  · have image := same.procs q hq
    obtain ⟨⟨guarded, size, home⟩, fits⟩ := h.tidy q hq (image.live.mp live)
    rw [same.kmem]
    refine ⟨⟨?_, image.sz ▸ size, image.cont.trans home⟩, fun sized => ?_⟩
    · rw [image.pgdir]
      exact guarded
    · rw [image.pgdir, image.sz]
      exact fits sized
  · rw [same.kmem, (same.procs q hq).pages]
    exact h.pages q hq
  · rw [same.kmem, same.file]
    exact h.pipes
  · rw [kept, same.kmem, same.upg]
    exact h.balance
  · intro m limited
    rw [same.msz m limited, same.upg]
    exact h.limit m limited

theorem Owned.renumber (cid pid : Int) (h : Owned g k l X S) :
    Owned g { k with nextcid := cid, nextpid := pid } l X S :=
  h.alike ⟨rfl, rfl, fun _ _ => .refl _, ⟨h.caller.2.1, rfl⟩, h.mproc, rfl, fun _ _ => rfl⟩

variable {q : ProcId}

/- A settled slot is opened: its pages are in hand. -/
theorem Owned.open (h : Owned g k l X S) (inside : q ∈ S) :
    Owned g k l (X + procPages k.kmem.mem (k.procAt q)) (S.erase q) := by
  have split (m : Nat → Bytes) : held k S m = procPages m (k.procAt q) + held k (S.erase q) m := by
    rw [held, held, ← Finset.add_sum_erase S _ inside]
    simp only [add_assoc]
  have once := h.once
  have balance := h.balance
  rw [split, ← add_assoc X] at once balance
  exact { h with
    once
    tidy := fun r hr => h.tidy r (Finset.mem_of_mem_erase hr)
    pages := fun r hr => h.pages r (Finset.mem_of_mem_erase hr)
    balance }

/- The books after the pages of a slot have changed. -/
def Books.settle (g : Books) (q : ProcId) (P : Multiset Nat) : Books :=
  { g with pages := update g.pages q P }

/- An open slot is settled again. -/
theorem Owned.close (h : Owned g k l (X + procPages k.kmem.mem (k.procAt q)) S) (outside : q ∉ S)
    (tidy : Live (k.procAt q) → InOrder g.sized k.kmem.mem q (k.procAt q)) :
    Owned (g.settle q (procPages k.kmem.mem (k.procAt q))) k l X (insert q S) := by
  have split (m : Nat → Bytes) : held k (insert q S) m = procPages m (k.procAt q) + held k S m := by
    rw [held, held, Finset.sum_insert outside]
    simp only [add_assoc]
  have once := h.once
  have balance := h.balance
  rw [add_assoc X, ← split] at once balance
  refine { h with once, tidy := fun r hr => ?_, pages := fun r hr => ?_, balance }
  · rcases Finset.mem_insert.mp hr with rfl | old
    · exact tidy
    · exact h.tidy r old
  · rcases Finset.mem_insert.mp hr with rfl | old
    · simp [Books.settle]
    · have apart : r ≠ q := by
        rintro rfl
        exact outside old
      rw [h.pages r old]
      exact (update_of_ne apart _ _).symm

/- The slot of a live process is opened, and settled again. -/
theorem Owned.openLive (h : Owned g k l X S) (inside : q ∈ S) (live : Live (k.procAt q)) :
    Owned g k l (space k.kmem.mem (k.procAt q).pgdir + ({(k.procAt q).kstack} + X)) (S.erase q) := by
  have opened := h.open inside
  rwa [procPages, if_pos live, add_comm X, add_comm ({_} : Multiset Nat), add_assoc] at opened

theorem Owned.closeLive (live : Live (k.procAt q))
    (h : Owned g k l (space k.kmem.mem (k.procAt q).pgdir + ({(k.procAt q).kstack} + X)) (S.erase q))
    (inside : q ∈ S) (tidy : InOrder g.sized k.kmem.mem q (k.procAt q)) :
    Owned (g.settle q ({(k.procAt q).kstack} + space k.kmem.mem (k.procAt q).pgdir)) k l X S := by
  have pages : procPages k.kmem.mem (k.procAt q) =
      {(k.procAt q).kstack} + space k.kmem.mem (k.procAt q).pgdir := if_pos live
  rw [← add_assoc, add_comm (space _ _), ← pages, add_comm] at h
  have closed := h.close (Finset.notMem_erase q S) fun _ => tidy
  rwa [pages, Finset.insert_erase inside] at closed

theorem Owned.closeDead (dead : ¬ Live (k.procAt q)) (h : Owned g k l X (S.erase q)) (inside : q ∈ S) :
    Owned (g.settle q 0) k l X S := by
  have pages : procPages k.kmem.mem (k.procAt q) = 0 := if_neg dead
  rw [← add_zero X, ← pages] at h
  have closed := h.close (Finset.notMem_erase q S) fun live => absurd live dead
  rwa [pages, Finset.insert_erase inside] at closed

/- Pages in hand may be forgotten. -/
theorem Owned.drop {Y : Multiset Nat} (h : Owned g k l X S) (fewer : Y ≤ X) : Owned g k l Y S := by
  have less : Y + held k S k.kmem.mem ≤ X + held k S k.kmem.mem := by gcongr
  refine { h with once := Multiset.nodup_of_le (by gcongr) h.once, balance := ?_ }
  have card := Multiset.card_le_card less
  have balance := h.balance
  omega

/- The file table changes, and with it the pages that pipes hold. -/
theorem Owned.refile {F : Nat → File} {P : Finset Nat} {Y : Multiset Nat} (h : Owned g k l X S)
    (files : Files F) (pipes : PipeEnds g.flagged k.kmem.mem F) (known : pipePages F ⊆ P)
    (same : Y + (pipePages F).val = X + (pipePages k.file).val) :
    Owned { g with pipes := P } { k with file := F } l Y S := by
  have kept : Y + held { k with file := F } S k.kmem.mem = X + held k S k.kmem.mem := by
    simp only [held]
    rw [add_assoc, add_assoc, add_left_comm Y, ← add_assoc Y, same]
    simp only [add_assoc, add_left_comm X, Kernel.procAt]
  refine { h with once := ?_, files, pipes, known, balance := ?_ }
  · rw [kept]
    exact h.once
  · rw [kept]
    exact h.balance

/- The flags of pipes are lost sight of, and found right again. -/
theorem Owned.unflag (h : Owned g k l X S) : Owned { g with flagged := False } k l X S :=
  { h with pipes := ⟨h.pipes.toPipes, False.elim⟩ }

theorem Owned.reflag (h : Owned { g with flagged := False } k l X S)
    (pipes : PipeEnds g.flagged k.kmem.mem k.file) : Owned g k l X S :=
  { h with pipes }

/- The file table without the pipe of page r. -/
def without (file : Nat → File) (r : Nat) (f : Nat) : File :=
  if (file f).pipe = r then { file f with type := .none } else file f

theorem without_type {file : Nat → File} {r f : Nat} (isPipe : (without file r f).type = .pipe) :
    (file f).pipe ≠ r ∧ without file r f = file f := by
  unfold without at *
  split at isPipe
  · exact nomatch isPipe
  · rename_i other
    exact ⟨other, if_neg other⟩

theorem pipePages_without (file : Nat → File) (r : Nat) :
    pipePages (without file r) = (pipePages file).erase r := by
  ext q
  simp only [pipePages, Finset.mem_image, Finset.mem_filter, Finset.mem_erase]
  constructor
  · rintro ⟨f, ⟨index, isPipe⟩, rfl⟩
    obtain ⟨other, same⟩ := without_type isPipe
    rw [same] at isPipe ⊢
    exact ⟨other, f, ⟨index, isPipe⟩, rfl⟩
  · rintro ⟨other, f, ⟨index, isPipe⟩, rfl⟩
    refine ⟨f, ⟨index, ?_⟩, ?_⟩ <;> rw [without, if_neg other]
    exact isPipe

/- The page of a pipe is written. -/
theorem Owned.pipeStore {r : Nat} {b : Bytes} (h : Owned g k l X S) (member : r ∈ pipePages k.file)
    (pipes : PipeEnds g.flagged (update k.kmem.mem r b) k.file) :
    Owned g (k.memPut g.caller { k.memView g.caller with mem := update k.kmem.mem r b })
      l X S := by
  have split : {r} + X + (pipePages (without k.file r)).val = X + (pipePages k.file).val := by
    rw [pipePages_without, Finset.erase_val, add_comm ({r} : Multiset Nat), add_assoc, Multiset.singleton_add,
      Multiset.cons_erase (Finset.mem_val.mpr member)]
  have opened := h.refile (F := without k.file r) (P := g.pipes) (Y := {r} + X) ?_ ?_ ?_ split
  · have stored := opened.moves ((Moves.refl h.heap {r}).write (n := update k.kmem.mem r b)
      ?_ (fun q hq => update_of_ne (by simpa using hq) _ _) le_rfl)
    · exact stored.refile h.files pipes h.known split.symm
    · exact opened.hand
  · refine ⟨fun f unused => ?_, fun f outside => ?_⟩
    · unfold without at *
      split at unused
      · rw [if_pos ‹_›]
      · rw [if_neg ‹_›]
        exact h.files.unused f unused
    · unfold without
      split
      · exact h.files.table f outside
      · exact h.files.table f outside
  · refine h.pipes.refile (fun f isPipe => ?_) fun f q isPipe other page => ?_
    · obtain ⟨-, same⟩ := without_type isPipe
      rw [same] at isPipe ⊢
      exact ⟨isPipe, rfl, rfl⟩
    · obtain ⟨apart, -⟩ := without_type isPipe
      rw [without, if_neg (page ▸ apart)]
      exact other
  · rw [pipePages_without]
    exact (Finset.erase_subset _ _).trans h.known

end Rules

/- The modes in which pages are tracked across the kernel. -/
structure KernelMode (M : Mode Event Fault) (sized : Prop) : Prop where
  fails : ∀ f, (sized → f ∉ mapPanics) → M.fails f
  fs : ∀ e, M.owes (.fs e)
  freed : ∀ {m l p}, Heap m l → p ∉ l → M.owes (.mem ⟨m, p⟩)

variable {M : Mode Event Fault} {sized : Prop}

theorem KernelMode.safeMode (km : KernelMode M sized) : SafeMode (M.comap Event.mem) sized False :=
  PageMode.safeMode ⟨km.fails, km.freed⟩

theorem KernelMode.other (km : KernelMode M sized) {f : Fault} (other : f ∉ mapPanics) :
    M.fails f := km.fails f fun _ => other

/- The file system knows nothing of page tables. -/
theorem KernelMode.fsFault (km : KernelMode M sized) {f : Fault} (fault : Fs.Faults f) : M.fails f := by
  refine km.other fun listed => ?_
  simp only [mapPanics, List.mem_cons, List.not_mem_nil, or_false] at listed
  rcases listed with rfl | rfl | rfl <;> exact absurd (fault _ rfl) (by decide)

section Programs
variable {M : Mode Event Fault} (km : KernelMode M g.sized) {A B : Type} {Q : B → Kernel → Prop}

/- A function of vm.c or kalloc.c that works on the pages H in hand. -/
theorem wp_onMem {x : MemM A} {f : A → KM B} {H Z : Multiset Nat}
    {R : A → (Nat → Bytes) → Multiset Nat → Prop} (h : Owned g k l (H + Z) S)
    (spec : wp (M.comap Event.mem) x (fun a t => ∃ l' H',
      Moves (k.memView g.caller) t l l' H H' ∧ R a t.mem H') (k.memView g.caller))
    (next : ∀ a k' l' H', k'.proc = k.proc → k'.file = k.file → R a k'.kmem.mem H' →
      Owned g k' l' (H' + Z) S → wp M (f a) Q k') :
    wp M (onMem g.caller x >>= f) Q k := by
  refine wp_bind (wp_zoom (wp_mono spec ?_))
  rintro a t ⟨l', H', moves, result⟩
  exact next a _ l' H' rfl rfl result (h.moves moves)

include km in
theorem wp_onFs {p : ProcId} {x : Fs.FsM A} [acts : Fs.Acts x] {f : A → KM B} (h : Owned g k l X S)
    (next : ∀ a k', k'.proc = k.proc → k'.file = k.file → k'.kmem = k.kmem →
      (∀ i, (k'.cont i).mproc = (k.cont i).mproc) → Owned g k' l X S → wp M (f a) Q k') :
    wp M (onFs p x >>= f) Q k := by
  refine wp_bind (wp_zoom (wp_mono (acts.does km.fs (fun _ fault => km.fsFault fault) _) ?_))
  rintro a t -
  have mproc (i : Nat) : ((k.fsPut p t).cont i).mproc = (k.cont i).mproc := update_same (g := Cont.mproc) (by rfl) i
  refine next a _ rfl rfl rfl mproc (h.alike ⟨rfl, rfl, fun q _ => .refl _, ⟨h.caller.2.1, rfl⟩, ?_, ?_, ?_⟩)
  · exact fun i => (mproc i).le.trans (h.mproc i)
  · exact update_same (g := Cont.upg) (by rfl) _
  · exact fun _ _ => update_same (g := Cont.msz) (by rfl) _

variable {f : Unit → KM B}

/- A change to a process that the invariant does not see. -/
theorem wp_modifyProc {q : ProcId} {c : Proc → Proc} (h : Owned g k l X S)
    (same : SameImage (k.procAt q) (c (k.procAt q))) (next : Owned g (k.setProc q (c (k.procAt q))) l X S →
      wp M (f ()) Q (k.setProc q (c (k.procAt q)))) : wp M (modifyProc q c >>= f) Q k := by
  refine wp_modify_bind (next (h.alike ⟨rfl, rfl, fun r _ => ?_, ?_, h.mproc, rfl, fun _ _ => rfl⟩))
  · rw [procAt_setProc]
    split
    · rename_i here
      exact here ▸ same
    · exact .refl _
  · simp only [Kernel.contOf, procAt_setProc]
    split
    · rename_i here
      rw [← here] at same ⊢
      exact ⟨same.live.mpr h.caller.2.1, same.cont⟩
    · exact ⟨h.caller.2.1, rfl⟩

/- A change to an open slot; the caller stays alive and where it is. -/
theorem wp_modifyOpen {q : ProcId} {c : Proc → Proc} (h : Owned g k l X S) (outside : q ∉ S)
    (alive : q = g.caller → Live (c (k.procAt q)) ∧ (c (k.procAt q)).cont = (k.procAt q).cont)
    (next : Owned g (k.setProc q (c (k.procAt q))) l X S →
      wp M (f ()) Q (k.setProc q (c (k.procAt q)))) : wp M (modifyProc q c >>= f) Q k := by
  refine wp_modify_bind (next (h.alike ⟨rfl, rfl, fun r hr => ?_, ?_, h.mproc, rfl, fun _ _ => rfl⟩))
  · rw [procAt_setProc, if_neg]
    · exact .refl _
    · rintro rfl
      exact outside hr
  · simp only [Kernel.contOf, procAt_setProc]
    split
    · rename_i here
      obtain ⟨live, cont⟩ := alive here.symm
      exact ⟨live, cont.trans (by rw [here])⟩
    · exact ⟨h.caller.2.1, rfl⟩

theorem wp_modifyCont {i : Nat} {c : Cont → Cont} (h : Owned g k l X S) (mproc : (c (k.cont i)).mproc ≤ NPROC)
    (upg : (c (k.cont i)).upg = (k.cont i).upg) (msz : (c (k.cont i)).msz = (k.cont i).msz ∨ g.msz = none)
    (next : ∀ k', k'.proc = k.proc → k'.file = k.file → Owned g k' l X S → wp M (f ()) Q k') :
    wp M (modifyCont i c >>= f) Q k := by
  refine wp_modify_bind (next _ rfl rfl (h.alike ⟨rfl, rfl, fun q _ => .refl _,
    ⟨h.caller.2.1, rfl⟩, fun j => ?_, ?_, fun m limited => ?_⟩))
  · simp only [update_apply]
    split
    · exact mproc
    · exact h.mproc j
  · exact update_same upg _
  · rcases msz with msz | off
    · exact update_same msz _
    · rw [off] at limited
      exact nomatch limited

theorem wp_wakeup {chan : Chan} (h : Owned g k l X S)
    (next : ∀ k', k'.file = k.file → k'.kmem = k.kmem → k'.cont = k.cont →
      (∀ q, SameImage (k.procAt q) (k'.procAt q)) → Owned g k' l X S → wp M (f ()) Q k') :
    wp M (wakeup1 chan >>= f) Q k := by
  have image (q : ProcId) : SameImage (k.procAt q) (woken k chan q.cont q.slot) := by
    simp only [woken, Kernel.procAt]
    split
    · rename_i asleep
      refine ⟨⟨fun _ => ?_, fun _ => by simp [Live]⟩, rfl, rfl, rfl, rfl⟩
      simp [Live, asleep.2.2.1]
    · exact .refl _
  refine wp_modify_bind (next _ rfl rfl rfl image (h.alike ⟨rfl, rfl, fun q _ => image q, ?_,
    h.mproc, rfl, fun _ _ => rfl⟩))
  exact ⟨(image g.caller).live.mpr h.caller.2.1, (image g.caller).cont⟩

end Programs

end Xv6c
