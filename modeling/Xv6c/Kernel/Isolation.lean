import Xv6c.Kernel.PageExec

/-! Page ownership over whole runs: every page has one role, and address spaces are
apart. -/
namespace Xv6c
open Lib Mem

variable {M : Mode Event Fault} {g : Books} (km : KernelMode M g.sized) {k : Kernel}

section Containers
include km

omit km in
theorem keeps_modifyCont {i : Nat} {c : Cont → Cont} (mproc : ∀ x, (c x).mproc = x.mproc)
    (upg : ∀ x, (c x).upg = x.upg) (msz : ∀ x, (c x).msz = x.msz) : Keeps M g (modifyCont i c) := by
  intro k l h
  exact wp_last (wp_modifyCont h ((mproc _).le.trans (h.mproc i)) (upg _) (Or.inl (msz _))
    fun k' _ file owned => wp_pure (owned.saved (congrArg pipePages file)))

omit km in
theorem keeps_alloccont : Keeps M g alloccont := by
  unfold alloccont
  refine keeps_get fun k => ?_
  split
  · refine keeps_bind (keeps_modifyCont (fun _ => rfl) (fun _ => rfl) (fun _ => rfl)) fun _ => ?_
    exact fun k l h => wp_modify_bind (wp_pure ((h.renumber _ _).saved rfl))
  · exact keeps_pure _

theorem keeps_ccreate (off : g.msz = none) (name : Fs.CStr) (mproc : Int) (msz mdsk : Nat) :
    Keeps M g (ccreate g.caller name mproc msz mdsk) := by
  unfold ccreate
  refine keeps_get fun k => keeps_ite (keeps_pure _) ?_
  by_cases large : mproc > NPROC ∨ msz > MAX_CONT_MEM ∨ mdsk > MAX_CONT_DSK
  · simp only [if_pos large]
    exact keeps_pure _
  · simp only [if_neg large]
    refine keeps_bind keeps_alloccont fun r => ?_
    cases r with
    | none => exact keeps_pure _
    | some nc =>
      refine keeps_get fun k => keeps_bind (keeps_onFs km _) fun found => ?_
      cases found with
      | none =>
        exact keeps_bind (keeps_modifyCont (fun _ => rfl) (fun _ => rfl) (fun _ => rfl)) fun _ =>
          keeps_pure _
      | some ip =>
        refine keeps_bind (keeps_onFs km _) fun rootdir => ?_
        intro k l h
        refine wp_modifyCont h ?_ rfl (Or.inr off) fun k' _ file owned =>
          wp_pure (owned.saved (congrArg pipePages file))
        dsimp only
        omega

theorem keeps_cstart (name : Fs.CStr) : Keeps M g (cstart g.caller name) := by
  unfold cstart
  refine keeps_get fun k => ?_
  split
  · exact keeps_pure _
  · refine keeps_bind (keeps_onFs km _) fun _ => keeps_ite (keeps_pure _) ?_
    exact keeps_bind (keeps_modifyCont (fun _ => rfl) (fun _ => rfl) (fun _ => rfl)) fun _ =>
      keeps_get fun _ => keeps_pure _

omit km in
theorem keeps_changeState (p : ProcId) (name : Fs.CStr) (source : List ContState)
    (target : ContState) : Keeps M g (changeState p name source target) := by
  unfold changeState
  refine keeps_get fun k => keeps_ite (keeps_pure _) ?_
  split
  · exact keeps_pure _
  · exact keeps_ite (keeps_bind (keeps_modifyCont (fun _ => rfl) (fun _ => rfl) (fun _ => rfl))
      fun _ => keeps_pure _) (keeps_pure _)

end Containers

/- The calls that leave the pages of every process as they are, and add no pipe. -/
def PagesKept : Syscall → Prop
  | .fork | .wait | .sbrk _ | .exec _ _ | .pipe | .cfork _ => False
  | _ => True

section Calls
include km

omit km in
theorem keeps_returns {x : KM Int} (h : Keeps M g x) : Keeps M g (returns x) :=
  keeps_bind h fun _ => keeps_pure _

omit km in
theorem keeps_onFd (fd : Int) {x : Nat → KM (Option Int)} (h : ∀ f, Keeps M g (x f)) :
    Keeps M g (onFd g.caller fd x) := by
  unfold onFd
  refine keeps_get fun k => ?_
  split
  · exact keeps_pure _
  · exact h _

theorem keeps_syscall {c : Syscall} (kept : PagesKept c)
    (off : ∀ n p m d, c = .ccreate n p m d → g.msz = none) :
    Keeps M g (syscall g.caller c) := by
  have fs {x : Kernel → Fs.FsM Int} [∀ k, Fs.Acts (x k)] : Keeps M g (Prog.get >>= fun k => returns (onFs g.caller (x k))) :=
    keeps_get fun _ => keeps_returns (keeps_onFs km _)
  cases c <;> unfold syscall
  case fork | wait | sbrk | exec | pipe | cfork => exact kept.elim
  case exit => exact keeps_bind (keeps_exit km) fun _ => keeps_pure _
  case kill => exact keeps_returns (keeps_kill _ _)
  case dup => exact keeps_returns (keeps_sysDup km _ _)
  case close => exact keeps_returns (keeps_sysClose km _)
  case read => exact keeps_onFd _ fun f => keeps_bind (keeps_fileread km f _) fun _ => keeps_pure _
  case write => exact keeps_onFd _ fun f => keeps_filewrite km f _
  case fstat => exact keeps_onFd _ fun f => keeps_bind (keeps_filestat km f) fun _ => keeps_pure _
  case «open» => exact keeps_returns (keeps_sysOpen km _ _)
  case link | unlink | mkdir | mknod => exact fs
  case chdir =>
    refine keeps_returns (keeps_get fun k => keeps_bind (keeps_onFs km _) fun r => ?_)
    cases r with
    | none => exact keeps_pure _
    | some ip =>
      exact keeps_bind (keeps_modifyProc fun q => ⟨Iff.rfl, rfl, rfl, rfl, rfl⟩) fun _ => keeps_pure _
  case ccreate => exact keeps_returns (keeps_ccreate km (off _ _ _ _ rfl) _ _ _ _)
  case cstart => exact keeps_returns (keeps_cstart km _)
  case cstop | cpause | cresume => exact keeps_returns (keeps_changeState _ _ _ _)
  case cinfo => exact keeps_bind (keeps_get fun _ => keeps_pure _) fun _ => keeps_pure _

/- Settled with some books, with the same followed as before. -/
def Resumed (g : Books) (k : Kernel) : Prop :=
  ∃ g', Settled g' k ∧ g'.sized = g.sized ∧ g'.flagged = g.flagged

/- Whatever a call does, its end is settled with some books. -/
theorem syscall_spec (c : Syscall) (h : Settled g k) (off : g.msz = none)
    (runs : (k.procAt g.caller).state ≠ .zombie)
    (lasts : g.sized → ∀ n, c = .sbrk n → ¬ Empties (k.procAt g.caller) n) :
    wp M (syscall g.caller c) (fun _ k' => Resumed g k') k := by
  have again {x : KM Int} (spec : wp M x (fun _ k' => Resumed g k') k) :
      wp M (returns x) (fun _ k' => Resumed g k') k :=
    wp_seq spec fun _ _ settled => wp_pure settled
  have forked {n sz : Nat} {k' : Kernel} (h : Forked g n sz k') : Resumed g k' := by
    rcases h with settled | ⟨np, P, -, -, -, -, settled⟩
    · exact ⟨g, settled, rfl, rfl⟩
    · exact ⟨_, settled, rfl, rfl⟩
  by_cases kept : PagesKept c
  · exact wp_mono ((keeps_syscall km kept fun _ _ _ _ _ => off).settled h) fun _ _ settled =>
      ⟨g, settled, rfl, rfl⟩
  · cases c with
    | fork =>
      exact again (wp_mono (fork_spec km none h h.home.2) fun _ _ => forked)
    | wait =>
      refine wp_mono (wait_spec km h runs) fun _ _ done => ?_
      rcases done with settled | ⟨q, -, settled⟩
      · exact ⟨g, settled, rfl, rfl⟩
      · exact ⟨_, settled, rfl, rfl⟩
    | sbrk n =>
      refine again (wp_get_bind (wp_seq (growproc_spec km n h fun sized => lasts sized n rfl)
        fun _ _ done => wp_pure ?_))
      exact ⟨_, done.1.choose_spec, rfl, rfl⟩
    | exec path argv =>
      exact again (wp_mono (exec_spec km h) fun _ _ done => ⟨_, done.choose_spec, rfl, rfl⟩)
    | pipe =>
      obtain ⟨l, h⟩ := h
      exact wp_seq (sysPipe_spec km h) fun _ _ done => wp_pure ⟨_, done.choose_spec.settled, rfl, rfl⟩
    | cfork cid =>
      refine again (wp_mono (cfork_spec km cid h) fun _ _ done => ?_)
      rcases done with settled | ⟨c, -, done⟩
      · exact ⟨g, settled, rfl, rfl⟩
      · exact forked done
    | _ => exact absurd trivial kept

omit km in
theorem store_spec (va : Nat) (b : Byte) (h : Settled g k) :
    wp M (Xv6c.onMem g.caller (userStore (k.procAt g.caller).pgdir va b))
      (fun _ k' => Resumed g k') k := by
  obtain ⟨l, h⟩ := h
  obtain ⟨inside, live, _⟩ := h.caller
  have tidy := h.tidy _ inside live
  have opened := h.openLive inside live
  refine wp_last (wp_onMem (R := fun _ m H => H = space m (k.procAt g.caller).pgdir ∧
    ∀ v < 2 ^ 20, pte m (k.procAt g.caller).pgdir v =
      pte k.kmem.mem (k.procAt g.caller).pgdir v) opened ?_ ?_)
  · refine wp_mono (userStore_spec opened.heap opened.hand tidy.guarded) ?_
    rintro _ t ⟨moves, ptes⟩
    exact ⟨l, _, moves.toMoves, rfl, ptes⟩
  · rintro _ k₁ l₁ _ proc - ⟨rfl, ptes⟩ owned
    have same : k₁.procAt g.caller = k.procAt g.caller := procAt_congr proc _
    have done := owned.resettled (r := k.procAt g.caller) same live inside
      ⟨⟨fun v hv user => tidy.guarded v hv (ptes v hv ▸ user), tidy.size, tidy.home⟩, fun sized =>
        (tidy.fits sized).congr fun v hv => congrArg present (ptes v (by omega))⟩
    exact wp_pure ⟨_, done.choose_spec, rfl, rfl⟩

end Calls

/- Each page has one role at most: the pages of the free list l, of the processes, of
the pipes and of the kernel's page table are counted together. -/
structure Paged (k : Kernel) (l : List Nat) : Prop where
  heap : Heap k.kmem l
  once : ∀ p, Multiset.count p ((l : Multiset Nat) + held k slots k.kmem.mem) ≤ 1
  tidy : ∀ q ∈ slots, Live (k.procAt q) → Tidy k.kmem.mem q (k.procAt q)
  files : Files k.file
  pipes : Pipes k.kmem.mem k.file
  mproc : ∀ i, (k.cont i).mproc ≤ NPROC

/- The books for a process that enters the kernel. -/
def books (k : Kernel) (p : ProcId) (msz : Option Nat) : Books where
  sized := False
  flagged := False
  caller := p
  cont := k.contOf p
  msz := msz
  slack := Multiset.card (held k slots k.kmem.mem) - (k.cont (k.contOf p)).upg
  pages q := procPages k.kmem.mem (k.procAt q)
  kernel := space k.kmem.mem k.kmem.kpgdir
  pipes := pipePages k.file

variable {p : ProcId}

theorem CanRun.live (h : CanRun k p) : Live (k.procAt p) := by
  rcases h.2.2 with state | state <;> simp [Live, state]

variable {l : List Nat}

theorem Paged.settled (h : Paged k l) (runs : CanRun k p) {msz : Option Nat}
    (limit : ∀ m, msz = some m → (k.cont (k.contOf p)).msz = m ∧
      (k.cont (k.contOf p)).upg * PGSIZE ≤ m ∧ m < 2 ^ 31) : Settled (books k p msz) k := by
  refine ⟨l, h.heap, ?_, fun q hq live => ⟨h.tidy q hq live, False.elim⟩, fun q _ => rfl, rfl, h.files,
    ⟨h.pipes, False.elim⟩, Finset.Subset.refl _, h.mproc, ⟨mem_slots.mpr ⟨runs.1, runs.2.1⟩, runs.live, rfl⟩, ?_, limit⟩
  · rw [zero_add]
    exact Multiset.nodup_iff_count_le_one.mpr h.once
  · rw [zero_add]
    dsimp only [books]
    omega

theorem Settled.paged (h : Settled g k) : ∃ l, Paged k l := by
  obtain ⟨l, h⟩ := h
  refine ⟨l, h.heap, Multiset.nodup_iff_count_le_one.mp ?_, fun q hq live => (h.tidy q hq live).toTidy,
    h.files, h.pipes.toPipes, h.mproc⟩
  simpa using h.once

/- The size of every process says which of its pages are mapped. -/
def Sized (k : Kernel) : Prop :=
  ∀ q ∈ slots, Live (k.procAt q) → Fits k.kmem.mem (k.procAt q).pgdir (k.procAt q).sz

/- Sizes and flags are followed from here on. -/
theorem Settled.follow {sized flagged : Prop} (h : Settled g k) (fits : sized → Sized k)
    (flags : flagged → Flags k.kmem.mem k.file) :
    Settled { g with sized := sized, flagged := flagged } k := by
  obtain ⟨l, h⟩ := h
  exact ⟨l, h.heap, h.once, fun q hq live => ⟨(h.tidy q hq live).toTidy, fun follow => fits follow q hq live⟩,
    h.pages, h.kernel, h.files, ⟨h.pipes.toPipes, flags⟩, h.known, h.mproc, h.caller, h.balance, h.limit⟩

theorem Settled.sized (h : Settled g k) (follow : g.sized) : Sized k := by
  obtain ⟨l, h⟩ := h
  exact fun q hq live => (h.tidy q hq live).fits follow

theorem Settled.flags (h : Settled g k) (follow : g.flagged) : Flags k.kmem.mem k.file := by
  obtain ⟨l, h⟩ := h
  exact h.pipes.flags follow

/- The step is an sbrk that takes all that the process has. -/
def EmptiesAll (k : Kernel) : Label → Prop
  | .call p (.sbrk n) => Empties (k.procAt p) n
  | _ => False

instance (k : Kernel) (lbl : Label) : Decidable (EmptiesAll k lbl) := by
  unfold EmptiesAll
  split <;> infer_instance

/- A step keeps the pages apart, and the sizes and flags right where they are followed. -/
theorem perform_spec {sized flagged : Prop} {lbl : Label} (km : KernelMode M sized) (h : Paged k l)
    (fits : sized → Sized k) (flags : flagged → Flags k.kmem.mem k.file) (lasts : sized → ¬ EmptiesAll k lbl)
    (enabled : Enabled k lbl) : wp M (perform lbl) (fun _ k' => (∃ l, Paged k' l) ∧ (sized → Sized k') ∧
      (flagged → Flags k'.kmem.mem k'.file)) k := by
  have begins {p : ProcId} (runs : CanRun k p) :
      Settled { books k p none with sized := sized, flagged := flagged } k := by
    have settled : Settled (books k p none) k := h.settled runs fun _ off => nomatch off
    exact settled.follow fits flags
  have ends {p : ProcId} {k' : Kernel}
      (resumed : Resumed { books k p none with sized := sized, flagged := flagged } k') :
      (∃ l, Paged k' l) ∧ (sized → Sized k') ∧ (flagged → Flags k'.kmem.mem k'.file) := by
    obtain ⟨g', settled, same, same'⟩ := resumed
    exact ⟨settled.paged, fun follow => settled.sized (same ▸ follow),
      fun follow => settled.flags (same' ▸ follow)⟩
  cases lbl with
  | call p c =>
    refine wp_seq (syscall_spec (g := { books k p none with sized := sized, flagged := flagged }) km c
      (begins enabled) rfl ?_ ?_) fun _ _ resumed => wp_pure (ends resumed)
    · rcases enabled.2.2 with state | state <;> simp [books, state]
    · rintro follow n rfl
      exact lasts follow
  | store p va b =>
    exact wp_get_bind (wp_seq (store_spec (g := { books k p none with sized := sized, flagged := flagged })
      va b (begins enabled)) fun _ _ resumed => wp_pure (ends resumed))
  | cexit c =>
    refine wp_modify ⟨⟨l, h.heap, h.once, h.tidy, h.files, h.pipes, fun i => ?_⟩, fits, flags⟩
    dsimp only
    rw [Function.update_apply]
    split
    · exact show (0 : Int) ≤ NPROC by decide
    · exact h.mproc i

/- kfree of a page that is not on the free list. -/
def FreedOnce (f : Freed) : Prop := ∃ l, Heap f.before l ∧ f.page ∉ l

/- Every event and every fault is allowed, but no page may be freed twice. -/
def pageMode : Mode Event Fault where
  good _ := True
  owes
    | .fs _ => True
    | .mem f => FreedOnce f
  fails _ := True

theorem pageMode_kernel : KernelMode pageMode False :=
  ⟨fun _ _ => trivial, fun _ => trivial, fun heap fresh => ⟨_, heap, fresh⟩⟩

theorem perform_paged {lbl : Label} (h : ∃ l, Paged k l) (enabled : Enabled k lbl) :
    wp pageMode (perform lbl) (fun _ k' => ∃ l, Paged k' l) k := by
  obtain ⟨l, h⟩ := h
  exact wp_mono (perform_spec pageMode_kernel h False.elim False.elim False.elim enabled) fun _ _ done => done.1

/- A page that a process reaches from user mode at virtual page v. -/
def UserMaps (k : Kernel) (q : ProcId) (v p : Nat) : Prop :=
  Live (k.procAt q) ∧ v < 2 ^ 20 ∧ present (pte k.kmem.mem (k.procAt q).pgdir v) ∧
    userBit (pte k.kmem.mem (k.procAt q).pgdir v) ∧ ptePage (pte k.kmem.mem (k.procAt q).pgdir v) = p

theorem Paged.userMaps_unique (h : Paged k l) {q r : ProcId} (hq : q ∈ slots) (hr : r ∈ slots) {v w p : Nat}
    (first : UserMaps k q v p) (second : UserMaps k r w p) : q = r ∧ v = w := by
  have once := Multiset.nodup_iff_count_le_one.mpr h.once
  have procs := (Multiset.nodup_add.mp (Multiset.nodup_add.mp (Multiset.nodup_add.mp once).2.1).1).1
  have member {q : ProcId} (hq : q ∈ slots) {v p : Nat} (maps : UserMaps k q v p) :
      v < 2 ^ 19 ∧ p ∈ procPages k.kmem.mem (k.procAt q) := by
    obtain ⟨live, page, mapped, user, rfl⟩ := maps
    have low := (h.tidy q hq live).guarded v page user
    refine ⟨low, ?_⟩
    rw [procPages, if_pos live, space]
    simp only [Multiset.mem_add]
    exact Or.inr (Or.inr (mem_users low mapped))
  obtain ⟨hv, left⟩ := member hq first
  obtain ⟨hw, right⟩ := member hr second
  obtain rfl := parts_apart procs hq hr left right
  refine ⟨rfl, ?_⟩
  have own := nodup_part procs hq
  obtain ⟨live, _, pv, _, page⟩ := first
  obtain ⟨_, _, pw, _, page'⟩ := second
  rw [procPages, if_pos live, space] at own
  have users := (Multiset.nodup_add.mp (Multiset.nodup_add.mp own).2.1).2.1
  exact users_apart users hv hw pv pw (page.trans page'.symm)

/-- Over every run, each page has one role at most, no page that is held is on the
free list, no page is freed twice, and no page is accessible to the user from two
processes or at two addresses. -/
theorem pages_isolated {l : List Nat} (initial : Paged k l) (ls : List Label) :
    Along step (fun k lbl => ∀ f, Event.mem f ∈ events k lbl → FreedOnce f) k ls ∧
    ∀ k', Lib.exec step k ls = some k' →
      (∃ l', Paged k' l' ∧ ∀ p ∈ l', p ∉ held k' slots k'.kmem.mem) ∧
      ∀ q ∈ slots, ∀ r ∈ slots, ∀ v w p, UserMaps k' q v p → UserMaps k' r w p → q = r ∧ v = w := by
  have one {k : Kernel} (h : ∃ l, Paged k l) (lbl : Label) :=
    step_spec (l := lbl) (perform_paged h) fun _ _ => trivial
  constructor
  · refine along_invariant (fun k => ∃ l, Paged k l) (fun s lbl h f reported => ?_)
      (fun s lbl t h taken => (one h lbl).2 t taken) ⟨l, initial⟩ ls
    exact (one h lbl).1 _ reported
  · intro k' reached
    obtain ⟨l', paged⟩ : ∃ l, Paged k' l := run_invariant (fun s lbl t h _ taken => (one h lbl).2 t taken)
      ⟨l, initial⟩ (along_true k ls) reached
    refine ⟨⟨l', paged, fun p free held => ?_⟩, fun q hq r hr v w p => paged.userMaps_unique hq hr⟩
    have once := Multiset.nodup_iff_count_le_one.mpr paged.once
    exact held_apart once (Multiset.mem_coe.mpr free) held

/- A kernel with one process, whose page table and the kernel's own map nothing. -/
theorem held_solo (inside : p ∈ slots) (live : Live (k.procAt p)) (others : ∀ q, q ≠ p → ¬ Live (k.procAt q))
    (blank : k.kmem.mem (k.procAt p).pgdir = zeros) (kernel : k.kmem.mem k.kmem.kpgdir = zeros) :
    held k slots k.kmem.mem =
      {(k.procAt p).kstack} + {(k.procAt p).pgdir} + (pipePages k.file).val + {k.kmem.kpgdir} := by
  have proc : ∑ q ∈ slots, procPages k.kmem.mem (k.procAt q) =
      {(k.procAt p).kstack} + {(k.procAt p).pgdir} := by
    rw [Finset.sum_eq_single p]
    · rw [procPages, if_pos live, space_blank blank]
    · exact fun q _ other => if_neg (others q other)
    · exact fun outside => absurd inside outside
  rw [held, proc, space_blank kernel]

theorem paged_solo (heap : Heap k.kmem l) (inside : p ∈ slots) (live : Live (k.procAt p))
    (others : ∀ q, q ≠ p → ¬ Live (k.procAt q)) (blank : k.kmem.mem (k.procAt p).pgdir = zeros)
    (kernel : k.kmem.mem k.kmem.kpgdir = zeros)
    (once : ((l : Multiset Nat) + ({(k.procAt p).kstack} + {(k.procAt p).pgdir} +
      (pipePages k.file).val + {k.kmem.kpgdir})).Nodup) (size : (k.procAt p).sz < KERNBASE)
    (home : (k.procAt p).cont = p.cont) (files : Files k.file) (pipes : Pipes k.kmem.mem k.file)
    (mproc : ∀ i, (k.cont i).mproc ≤ NPROC) : Paged k l := by
  refine ⟨heap, ?_, fun q _ alive => ?_, files, pipes, mproc⟩
  · rw [held_solo inside live others blank kernel]
    exact Multiset.nodup_iff_count_le_one.mp once
  · obtain rfl : q = p := by
      by_contra other
      exact others q other alive
    refine ⟨fun v _ user => ?_, size, home⟩
    rw [pte_blank blank] at user
    exact absurd user (by decide)

/- One process, with a page table that maps nothing, and two pages on the free list. -/
def lonely : Kernel :=
  { Kernel.zero.setProc ⟨0, 0⟩ { Proc.zero with state := .running, kstack := 0x201, pgdir := 0x202 } with
    kmem := ⟨fun p => if p = 0x204 then setWord zeros 0 (pageAddr 0x205) else zeros,
      0x204, 0x110, 0x200, 0x203⟩
    cont := Function.update (fun _ => Cont.zero) 0
      { Cont.zero with msz := MAX_CONT_MEM, mproc := NPROC, state := .crunnable, cid := 1 } }

theorem lonely_procAt (q : ProcId) : lonely.procAt q =
    if q = ⟨0, 0⟩ then { Proc.zero with state := .running, kstack := 0x201, pgdir := 0x202 }
    else Proc.zero :=
  procAt_setProc Kernel.zero ⟨0, 0⟩ q _

theorem lonely_paged : Paged lonely [0x204, 0x205] := by
  have blank : pipePages lonely.file = ∅ := by
    ext r
    simp [pipePages, lonely, Kernel.setProc, Kernel.zero, File.zero]
  refine paged_solo (p := ⟨0, 0⟩) ⟨?_, ?_, ⟨by decide, by decide, by decide⟩⟩ (mem_slots.mpr (by decide))
    (by decide) (fun q other => ?_) rfl rfl ?_ (by decide) rfl ⟨fun _ _ => rfl, fun _ _ => rfl⟩
    ⟨fun _ isPipe => ?_, fun _ _ isPipe => ?_⟩ ?_
  · refine ⟨rfl, by decide, by decide +kernel, by decide, ?_⟩
    exact show addrPage (word (lonely.kmem.mem 0x205) 0) = 0 by decide +kernel
  · intro p hp
    simp only [List.mem_cons, List.not_mem_nil, or_false] at hp
    rcases hp with rfl | rfl <;> exact ⟨by decide, by decide⟩
  · rw [lonely_procAt, if_neg other]
    exact fun live => live.1 rfl
  · rw [blank]
    decide
  · cases isPipe
  · cases isPipe
  · intro i
    simp only [lonely, Function.update_apply]
    split
    · exact le_rfl
    · decide

/- The process makes a pipe and closes it again. -/
theorem pages_isolated_lonely :
    let run : List Label := [.call ⟨0, 0⟩ .pipe, .call ⟨0, 0⟩ (.close 0), .call ⟨0, 0⟩ (.close 1)]
    (Lib.exec step lonely run).isSome ∧
    Along step (fun k lbl => ∀ f, Event.mem f ∈ events k lbl → FreedOnce f) lonely run := by
  refine ⟨by decide +kernel, (pages_isolated lonely_paged _).1⟩

end Xv6c
