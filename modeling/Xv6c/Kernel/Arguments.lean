import Xv6c.Kernel.ExecRun

/-! The stack that exec makes for a program: where the strings of its arguments go, and
when one of them is sent to an address without a page table. -/
namespace Xv6c
open Lib Mem

/- The program finds the string arg at address a. -/
def StringAt (m : Nat → Bytes) (d a : Nat) (arg : Fs.CStr) : Prop :=
  ∀ i ≤ arg.bytes.length, userByte m d (a + i) = some (cstring arg i)

/- Strings at their addresses, each below the one before it, from top down to sp. -/
def Strings (m : Nat → Bytes) (d : Nat) : Nat → List (Nat × Fs.CStr) → Nat → Prop
  | top, [], sp => sp = top
  | top, (a, arg) :: xs, sp =>
    a % 4 = 0 ∧ a + arg.bytes.length + 1 ≤ top ∧ StringAt m d a arg ∧ Strings m d a xs sp

variable {m n : Nat → Bytes} {d sz sp top : Nat} {xs : List (Nat × Fs.CStr)}

theorem Strings.below (h : Strings m d top xs sp) : sp ≤ top := by
  induction xs generalizing top with
  | nil => exact h.le
  | cons x xs ih =>
    obtain ⟨-, room, -, rest⟩ := h
    have := ih rest
    omega

theorem Strings.congr (h : Strings m d top xs sp)
    (same : ∀ a, sp ≤ a → a < top → userByte n d a = userByte m d a) : Strings n d top xs sp := by
  induction xs generalizing top with
  | nil => exact h
  | cons x xs ih =>
    obtain ⟨aligned, room, here, rest⟩ := h
    have low := rest.below
    refine ⟨aligned, room, fun i inside => ?_, ih rest fun a above below => same a above (by omega)⟩
    rw [same _ (by omega) (by omega)]
    exact here i inside

variable {arg : Fs.CStr}

theorem Strings.push {a : Nat} (h : Strings m d top xs sp) (aligned : a % 4 = 0)
    (room : a + arg.bytes.length + 1 ≤ sp) (here : StringAt m d a arg) :
    Strings m d top (xs ++ [(a, arg)]) a := by
  induction xs generalizing top with
  | nil =>
    rw [show sp = top from h] at room
    exact ⟨aligned, room, here, rfl⟩
  | cons x xs ih =>
    obtain ⟨first, fits, string, rest⟩ := h
    exact ⟨first, fits, string, ih rest⟩

/- The address space of size sz with its stack page on top and the guard page below that. -/
structure Stack (s : MemState) (d sz : Nat) : Prop where
  nonzero : d ≠ 0
  small : sz < KERNBASE
  pages : ∃ n, sz = (n + 2) * PGSIZE ∧ userBit (pte s.mem d n) = false ∧
    pteFlags (pte s.mem d (n + 1)) = userFlags
  guarded : Guarded s.mem d
  fits : Fits s.mem d sz
  kernel : ∀ v < 2 ^ 20, 2 ^ 19 ≤ v → pte s.mem d v = kmapPte (kmap s.toKmem) v
  tables : ∀ i, present (word (s.mem d) i) → KernelIndex i ∨ i * 2 ^ 22 < sz

/- The bytes of the stack that a string takes. -/
def taken (arg : Fs.CStr) : Nat := (arg.bytes.length + 4) / 4 * 4

/- Behind T bytes and further strings that the stack page has room for, an argument is so
long that the stack pointer wraps and ends between the kernel's memory and the devices. -/
def Overshoots (sz T : Nat) (args : List Fs.CStr) : Prop :=
  ∃ pre arg post, args = pre ++ arg :: post ∧ T + (pre.map taken).sum ≤ PGSIZE ∧
    sz + 2 ^ 32 < T + (pre.map taken).sum + taken arg + DEVSPACE ∧
    T + (pre.map taken).sum + taken arg + (KERNBASE + PHYSTOP) ≤ sz + 2 ^ 32

/- The stack page has room for the strings, and for ustack below them. -/
def PageRoom (args : List Fs.CStr) : Prop :=
  (args.map taken).sum + 4 * (args.length + 4) ≤ PGSIZE ∧ args.length ≤ MAXARG

/- No argument that exec can be given does. -/
def Lands (sz : Nat) (args : List Fs.CStr) : Prop :=
  (∀ arg ∈ args, arg.bytes.length < KERNBASE) → args.length ≤ MAXARG → ¬ Overshoots sz 0 args

theorem overshoots_cons {T : Nat} {args : List Fs.CStr} (room : T ≤ PGSIZE) : Overshoots sz T (arg :: args) ↔
      (sz + 2 ^ 32 < T + taken arg + DEVSPACE ∧ T + taken arg + (KERNBASE + PHYSTOP) ≤ sz + 2 ^ 32) ∨
        (T + taken arg ≤ PGSIZE ∧ Overshoots sz (T + taken arg) args) := by
  unfold Overshoots
  generalize DEVSPACE = devices, KERNBASE + PHYSTOP = memory, sz + 2 ^ 32 = wrapped, PGSIZE = page at room ⊢
  constructor
  · rintro ⟨pre, long, post, split, fits, wraps⟩
    cases pre with
    | nil =>
      obtain ⟨rfl, rfl⟩ := List.cons.inj split
      simp only [List.map_nil, List.sum_nil, Nat.add_zero] at wraps
      exact Or.inl wraps
    | cons first pre =>
      obtain ⟨rfl, rest⟩ := List.cons.inj split
      simp only [List.map_cons, List.sum_cons, ← Nat.add_assoc] at fits wraps
      exact Or.inr ⟨by omega, pre, long, post, rest, fits, wraps⟩
  · rintro (wraps | ⟨-, pre, long, post, split, fits, wraps⟩)
    · refine ⟨[], arg, args, rfl, ?_, ?_⟩
      · simpa using room
      · simpa using wraps
    · refine ⟨arg :: pre, long, post, by rw [split]; rfl, ?_, ?_⟩
      · simpa only [List.map_cons, List.sum_cons, ← Nat.add_assoc] using fits
      · simpa only [List.map_cons, List.sum_cons, ← Nat.add_assoc] using wraps

/- Strings of less than a page never do. -/
theorem not_overshoots {T : Nat} {args : List Fs.CStr} (short : ∀ arg ∈ args, arg.bytes.length < PGSIZE) :
    ¬ Overshoots sz T args := by
  rintro ⟨pre, arg, post, rfl, fits, wraps, -⟩
  have small := short arg (by simp)
  simp only [PGSIZE, DEVSPACE, taken] at fits small wraps
  omega

section Addresses
variable {s : MemState}

theorem Stack.congr {t : MemState} (h : Stack s d sz) (fixed : Fixed s t) (dir : t.mem d = s.mem d)
    (ptes : ∀ v < 2 ^ 20, pte t.mem d v = pte s.mem d v) : Stack t d sz where
  nonzero := h.nonzero
  small := h.small
  pages := by
    have small := h.small
    obtain ⟨n, size, guard, user⟩ := h.pages
    simp only [KERNBASE] at small
    simp only [PGSIZE] at size
    refine ⟨n, size, ?_, ?_⟩
    · rw [ptes n (by omega)]
      exact guard
    · rw [ptes (n + 1) (by omega)]
      exact user
  guarded v hv user := h.guarded v hv (ptes v hv ▸ user)
  fits := h.fits.congr fun v hv => congrArg present (ptes v (by omega))
  kernel v hv high := by
    rw [ptes v hv, h.kernel v hv high, kmap, kmap, fixed.dataPg]
  tables i entry := h.tables i (dir ▸ entry)

theorem Stack.size (h : Stack s d sz) : sz % 4 = 0 ∧ 2 * PGSIZE ≤ sz := by
  obtain ⟨n, size, -⟩ := h.pages
  rw [size]
  simp only [PGSIZE]
  omega

variable {a : Nat}

/- Which addresses have a page table. -/
theorem Stack.table_low (h : Stack s d sz) (below : a < sz) : present (word (s.mem d) (pageOf a / 1024)) := by
  have small := h.small
  simp only [KERNBASE] at small
  refine table_of_present ((h.fits (pageOf a) ?_).mpr ?_)
  · simp only [pageOf, PGSIZE]
    omega
  · simp only [pageOf, PGSIZE]
    omega

theorem Stack.table_kernel {l : List Nat} (h : Stack s d sz) (heap : Heap s.toKmem l)
    (index : KernelIndex (pageOf a / 1024)) : present (word (s.mem d) (pageOf a / 1024)) := by
  refine table_of_present ?_
  have high : 2 ^ 19 ≤ pageOf a := by
    simp only [KernelIndex] at index
    omega
  rw [h.kernel _ (pageOf_lt a) high]
  exact kmapPte_kernel heap.layout index

theorem Stack.table_gap (h : Stack s d sz) (above : KERNBASE + PHYSTOP ≤ a) (below : a < DEVSPACE) :
    ¬ present (word (s.mem d) (pageOf a / 1024)) := by
  intro entry
  have small := h.small
  simp only [KERNBASE, PHYSTOP, DEVSPACE] at above below small
  have index : pageOf a / 1024 = a / 2 ^ 22 := by
    simp only [pageOf, PGSIZE]
    omega
  rw [index] at entry
  rcases h.tables _ entry with kernel | user
  · simp only [KernelIndex] at kernel
    omega
  · omega

theorem Stack.hidden (h : Stack s d sz) (high : KERNBASE ≤ a) (top : a < 2 ^ 32) :
    userByte s.mem d a = none := by
  refine if_neg fun visible => ?_
  have low := h.guarded _ (pageOf_lt a) visible.2
  simp only [KERNBASE] at high
  simp only [pageOf, PGSIZE] at low
  omega

/- The guard page is not the user's, and the page above it is. -/
theorem Stack.guard (h : Stack s d sz) (above : sz ≤ a + 2 * PGSIZE) (below : a + PGSIZE < sz) :
    userByte s.mem d a = none := by
  have small := h.small
  obtain ⟨n, size, guard, -⟩ := h.pages
  simp only [KERNBASE] at small
  simp only [PGSIZE] at size above below
  have page : pageOf a = n := by
    simp only [pageOf, PGSIZE]
    omega
  refine if_neg fun visible => ?_
  rw [page, guard] at visible
  cases visible.2

theorem Stack.page (h : Stack s d sz) (ranged : Ranged s.toKmem (space s.mem d)) (positive : 0 < s.endPg)
    (above : sz ≤ a + PGSIZE) (below : a < sz) :
    userByte s.mem d a ≠ none ∧ ptePage (pte s.mem d (pageOf a)) ≠ 0 := by
  have small := h.small
  obtain ⟨n, size, -, flags⟩ := h.pages
  have mapped := h.fits (n + 1)
  simp only [KERNBASE] at small
  simp only [PGSIZE] at size above below mapped
  have page : pageOf a = n + 1 := by
    simp only [pageOf, PGSIZE]
    omega
  have valid := (mapped (by omega)).mpr (by omega)
  have user : userBit (pte s.mem d (n + 1)) := by
    rw [userBit, flags]
    decide
  refine ⟨?_, fun zero => ?_⟩
  · rw [userByte, page, if_pos ⟨valid, user⟩]
    exact Option.some_ne_none _
  · have inside := ranged _ (Multiset.mem_add.mpr (Or.inr (mem_users (by omega) valid)))
    rw [page] at zero
    rw [zero] at inside
    have := inside.1
    omega

/- Bytes that reach from va to just below sp were all written: then they are in the stack page. -/
theorem Stack.lands {t : MemState} {l : List Nat} {va len : Nat} {buf : Bytes} (h : Stack s d sz)
    (copied : CopiedOut s t l d va len buf true) (some : 0 < len) (end_ : va + len ≤ sp) (near : sp < va + len + 4)
    (room : sz ≤ sp + PGSIZE) : sz ≤ va + PGSIZE := by
  by_contra low
  have size := h.size
  simp only [PGSIZE] at room low size
  -- an address of the guard page among them
  obtain ⟨a, above, below, guard⟩ : ∃ a, va ≤ a ∧ a < va + len ∧ sz ≤ a + 2 * 4096 ∧ a + 4096 < sz := by
    refine ⟨min (va + len - 1) (sz - 4096 - 1), ?_, ?_, ?_, ?_⟩ <;> omega
  have hidden := h.guard (a := a) guard.1 guard.2
  have limit := copied.below rfl some
  have small : a < 2 ^ 32 := by
    simp only [KERNBASE] at limit
    omega
  have written := copied.done rfl a small
  rw [if_pos ⟨above, below⟩] at written
  have same := copied.ptes _ (pageOf_lt a)
  unfold userByte at hidden written
  rw [same] at written
  split at hidden
  · cases hidden
  · rename_i blank
    rw [if_neg blank] at written
    cases written

end Addresses

theorem pushed_low {n : Nat} (aligned : sp % 4 = 0) (small : sp < KERNBASE) (fits : pushed sp n + n ≤ KERNBASE)
    (some : 0 < n) : pushed sp n + n ≤ sp ∧ sp < pushed sp n + n + 4 := by
  simp only [KERNBASE, pushed] at *
  omega

theorem pushed_taken (arg : Fs.CStr) (aligned : sp % 4 = 0) (small : sp < KERNBASE)
    (short : arg.bytes.length < KERNBASE) :
    pushed sp (arg.bytes.length + 1) = if taken arg ≤ sp then sp - taken arg else sp + 2 ^ 32 - taken arg := by
  by_cases fits : taken arg ≤ sp
  · rw [if_pos fits]
    simp only [KERNBASE, pushed, taken] at *
    omega
  · rw [if_neg fits]
    simp only [KERNBASE, pushed, taken] at *
    omega

theorem short_of_taken (fits : taken arg ≤ PGSIZE) : arg.bytes.length < KERNBASE := by
  simp only [taken, PGSIZE, KERNBASE] at *
  omega

variable {s : MemState}

/- A string is pushed to an address without a page table just when it is too long in this way. -/
theorem Stack.missing_iff {l : List Nat} (h : Stack s d sz) (heap : Heap s.toKmem l) (below : sp ≤ sz)
    (room : sz ≤ sp + PGSIZE) (aligned : sp % 4 = 0) (short : arg.bytes.length < KERNBASE) :
    ¬ present (word (s.mem d) (pageOf (pushed sp (arg.bytes.length + 1)) / 1024)) ↔
      sz + 2 ^ 32 < sz - sp + taken arg + DEVSPACE ∧ sz - sp + taken arg + (KERNBASE + PHYSTOP) ≤ sz + 2 ^ 32 := by
  have small := h.small
  have size := h.size.2
  rw [pushed_taken arg aligned (by omega) short]
  by_cases fits : taken arg ≤ sp
  · rw [if_pos fits]
    refine iff_of_false (not_not.mpr (h.table_low ?_)) ?_
    · simp only [PGSIZE, taken] at *
      omega
    · simp only [PGSIZE, KERNBASE, DEVSPACE] at *
      omega
  · rw [if_neg fits]
    have most : taken arg ≤ KERNBASE := by
      simp only [taken, KERNBASE] at *
      omega
    constructor
    · intro missing
      by_contra inside
      refine missing (h.table_kernel heap ?_)
      simp only [pageOf, PGSIZE, KERNBASE, PHYSTOP, DEVSPACE, KernelIndex] at *
      omega
    · rintro ⟨above, bound⟩
      refine h.table_gap ?_ ?_
      · simp only [KERNBASE, PHYSTOP] at *
        omega
      · simp only [KERNBASE, DEVSPACE] at *
        omega

/- Otherwise copyout finds a page table for every address that it looks up. -/
theorem Stack.reach (h : Stack s d sz) (below : sp ≤ sz) (room : sz ≤ sp + PGSIZE) (aligned : sp % 4 = 0)
    (short : arg.bytes.length < KERNBASE)
    (entry : present (word (s.mem d) (pageOf (pushed sp (arg.bytes.length + 1)) / 1024))) :
    (∀ a, pushed sp (arg.bytes.length + 1) ≤ a → a < pushed sp (arg.bytes.length + 1) + (arg.bytes.length + 1) →
        present (word (s.mem d) (pageOf a / 1024))) ∨
      present (word (s.mem d) (pageOf (pushed sp (arg.bytes.length + 1)) / 1024)) ∧
        userByte s.mem d (pushed sp (arg.bytes.length + 1)) = none := by
  have small := h.small
  have size := h.size.2
  have place := pushed_taken arg aligned (by omega) short
  by_cases fits : taken arg ≤ sp
  · refine Or.inl fun a _ inside => h.table_low ?_
    rw [place, if_pos fits] at inside
    simp only [taken] at *
    omega
  · refine Or.inr ⟨entry, h.hidden ?_ ?_⟩
    · rw [place, if_neg fits]
      simp only [taken, KERNBASE, PGSIZE] at *
      omega
    · rw [place, if_neg fits]
      omega

/- A string that the stack page has room for is copied. -/
theorem Stack.takes {t : MemState} {l : List Nat} {buf : Bytes} (h : Stack s d sz)
    (ranged : Ranged s.toKmem (space s.mem d)) (positive : 0 < s.endPg) (below : sp ≤ sz) (aligned : sp % 4 = 0)
    (short : arg.bytes.length < KERNBASE) (fits : sz - sp + taken arg ≤ PGSIZE)
    (copied : CopiedOut s t l d (pushed sp (arg.bytes.length + 1)) (arg.bytes.length + 1) buf false) : False := by
  have small := h.small
  have size := h.size.2
  obtain ⟨a, above, inside, hidden⟩ := copied.refused rfl
  rw [pushed_taken arg aligned (by omega) short, if_pos (by simp only [PGSIZE] at *; omega)] at above inside
  have user := h.page ranged positive (a := a) (by omega) (by simp only [taken] at *; omega)
  exact hidden.elim user.1 user.2

variable {M : Mode Event Fault} {B : Type} {p : ProcId} {F : FileSys → Prop} {k₀ k : Kernel}
variable {l₀ l : List Nat} {Q : B → Kernel → Prop} {sized safe : Prop}

/- The address space with its stack, built out of free pages. -/
def Stacked (p : ProcId) (F : FileSys → Prop) (k₀ : Kernel) (l₀ : List Nat) (d sz : Nat) (k : Kernel) : Prop :=
  ∃ l, Building p F k₀ k l₀ l (space k.kmem.mem d) ∧ Stack (k.memView p) d sz

section Push
variable (sm : SafeMode (M.comap Event.mem) sized safe) (heap : Heap k₀.kmem l₀) (once : l₀.Nodup)
include sm once

theorem Stacked.copyout {va len : Nat} {buf : Bytes} {f : Bool → KM B} (h : Stacked p F k₀ l₀ d sz k)
    (start : va < 2 ^ 32)
    (reach : safe → (∀ a, va ≤ a → a < va + len → present (word (k.kmem.mem d) (pageOf a / 1024))) ∨
      present (word (k.kmem.mem d) (pageOf va / 1024)) ∧ userByte k.kmem.mem d va = none)
    (next : ∀ r k', (∃ l, CopiedOut (k.memView p) (k'.memView p) l d va len buf r) →
      Stacked p F k₀ l₀ d sz k' → wp M (f r) Q k') :
    wp M (onMem p (Mem.copyout d va buf len) >>= f) Q k := by
  obtain ⟨l, building, stack⟩ := h
  refine building.onSpace once (R := fun r t => ∃ l, CopiedOut (k.memView p) t l d va len buf r) ?_ ?_
  · intro heap once
    refine wp_mono (copyoutLoop_spec sm heap once stack.guarded le_rfl start reach) ?_
    intro r t copied
    simp only [Nat.zero_add] at copied
    exact ⟨l, copied.saves, l, copied⟩
  · rintro r k' l' ⟨l, copied⟩ building
    exact next r k' ⟨l, copied⟩ ⟨l', building, stack.congr copied.saves.fixed copied.dir copied.ptes⟩

include heap in
/- The loop of exec over the arguments. The strings xs are on the stack already. -/
theorem pushArgs_spec {args : List Fs.CStr} (h : Stacked p F k₀ l₀ d sz k)
    (strings : Strings k.kmem.mem d sz xs sp) (aligned : sp % 4 = 0) (room : sz ≤ sp + PGSIZE)
    (few : xs.length ≤ MAXARG) (short : safe → ∀ arg ∈ args, arg.bytes.length < KERNBASE)
    (stray : safe → Overshoots sz (sz - sp) args → M.fails .trap) :
    wp M (pushArgs p d args sp (xs.map Prod.fst)) (fun r k' =>
      (∃ l, Building p F k₀ k' l₀ l (space k'.kmem.mem d)) ∧
      ((∀ arg ∈ args, arg.bytes.length < KERNBASE) → xs.length + args.length ≤ MAXARG →
        ¬ Overshoots sz (sz - sp) args) ∧
      (sz - sp + (args.map taken).sum ≤ PGSIZE → xs.length + args.length ≤ MAXARG → r ≠ none) ∧
      ∀ sp' addrs, r = some (sp', addrs) → Stacked p F k₀ l₀ d sz k' ∧
        ∃ ys, addrs = (xs ++ ys).map Prod.fst ∧ ys.map Prod.snd = args ∧
          Strings k'.kmem.mem d sz (xs ++ ys) sp' ∧ sp' % 4 = 0 ∧ sz ≤ sp' + PGSIZE ∧ addrs.length ≤ MAXARG ∧
          ((∀ arg ∈ args, arg.bytes.length < KERNBASE) → sz - sp' = sz - sp + (args.map taken).sum)) k := by
  have top := strings.below
  induction args generalizing k sp xs with
  | nil =>
    refine wp_pure ⟨h.imp fun _ both => both.1, fun _ _ => ?_, fun _ _ => Option.some_ne_none _, ?_⟩
    · rintro ⟨pre, arg, post, split, -⟩
      simp at split
    · rintro sp' addrs ⟨⟩
      exact ⟨h, [], by simp, rfl, by simpa using strings, aligned, room, by simpa using few, fun _ => rfl⟩
  | cons arg args ih =>
    obtain ⟨l, building, stack⟩ := h
    have small := stack.small
    have size := stack.size
    have inPage : sz - sp ≤ PGSIZE := by omega
    have low : sp < KERNBASE := by omega
    have start : pushed sp (arg.bytes.length + 1) < 2 ^ 32 := by
      simp only [pushed]
      omega
    unfold pushArgs
    have sum : ((arg :: args).map taken).sum = taken arg + (args.map taken).sum := by
      rw [List.map_cons, List.sum_cons]
    have fine_of (fits : sz - sp + ((arg :: args).map taken).sum ≤ PGSIZE) : arg.bytes.length < KERNBASE :=
      short_of_taken (by omega)
    refine wp_ite (fun many => ?_) (fun fewer => ?_)
    · have none : ¬ xs.length + (arg :: args).length ≤ MAXARG := by
        rw [List.length_map] at many
        rw [List.length_cons]
        omega
      exact wp_pure ⟨⟨l, building⟩, fun _ fewer => absurd fewer none, fun _ fewer => absurd fewer none, by simp⟩
    by_cases missing : present (word (k.kmem.mem d) (pageOf (pushed sp (arg.bytes.length + 1)) / 1024))
    swap
    · refine wp_bind (wp_zoom (wp_copyout_trap (Nat.succ_pos _) missing ?_))
      by_cases yes : safe
      · refine stray yes ((overshoots_cons inPage).mpr (Or.inl ?_))
        exact (stack.missing_iff building.saves.heap top room aligned (short yes arg List.mem_cons_self)).mp missing
      · exact sm.other yes (by decide)
    have ranged := building.ranged heap
    refine Stacked.copyout sm once ⟨l, building, stack⟩ start (fun yes =>
      stack.reach top room aligned (short yes arg List.mem_cons_self) missing) ?_
    rintro ok k' ⟨l', copied⟩ h
    have first (fine : arg.bytes.length < KERNBASE) : ¬ (sz + 2 ^ 32 < sz - sp + taken arg + DEVSPACE ∧
        sz - sp + taken arg + (KERNBASE + PHYSTOP) ≤ sz + 2 ^ 32) := fun now =>
      (stack.missing_iff building.saves.heap top room aligned fine).mpr now missing
    cases ok with
    | false =>
      rw [if_neg (by decide)]
      have takes (fine : arg.bytes.length < KERNBASE) (fits : sz - sp + taken arg ≤ PGSIZE) : False :=
        stack.takes ranged building.saves.heap.positive top aligned fine fits copied
      refine wp_pure ⟨h.imp fun _ both => both.1, fun fine _ long => ?_,
        fun fits _ => (takes (fine_of fits) (by omega)).elim, by simp⟩
      have mine := fine arg List.mem_cons_self
      rcases (overshoots_cons inPage).mp long with now | ⟨fits, -⟩
      · exact first mine now
      · exact takes mine fits
    | true =>
      rw [if_pos rfl]
      have limit := copied.below rfl (Nat.succ_pos _)
      obtain ⟨end_, near⟩ := pushed_low aligned low limit (Nat.succ_pos _)
      have lands := stack.lands copied (Nat.succ_pos _) end_ near room
      have target : pushed sp (arg.bytes.length + 1) % 4 = 0 := Nat.mul_mod_left _ _
      have place (fine : arg.bytes.length < KERNBASE) := pushed_taken arg aligned low fine
      have written := copied.done rfl
      generalize pushed sp (arg.bytes.length + 1) = va at *
      have same (a : Nat) (above : sp ≤ a) (inside : a < sz) :
          userByte k'.kmem.mem d a = userByte k.kmem.mem d a := by
        refine (written a ?_).trans (if_neg (by omega))
        simp only [KERNBASE] at small
        omega
      have here : StringAt k'.kmem.mem d va arg := by
        intro i inside
        refine (written (va + i) ?_).trans ?_
        · simp only [KERNBASE] at small
          omega
        · rw [if_pos (by omega), Nat.add_sub_cancel_left]
      have strings := (strings.congr same).push target (by omega) here
      have more (fine : arg.bytes.length < KERNBASE) : sz - va = sz - sp + taken arg := by
        have spot := place fine
        split at spot
        · omega
        · simp only [taken, KERNBASE] at *
          omega
      have count : (xs ++ [(va, arg)]).length ≤ MAXARG := by
        rw [List.length_map] at fewer
        rw [List.length_append, List.length_singleton]
        omega
      have step := ih h strings target lands count (fun yes a inside => short yes a (List.mem_cons_of_mem _ inside))
        (fun yes long => stray yes ?_) strings.below
      · rw [List.map_append] at step
        refine wp_mono step ?_
        rintro r k'' ⟨building, none, all, result⟩
        have total : (xs ++ [(va, arg)]).length + args.length = xs.length + (arg :: args).length := by
          simp only [List.length_append, List.length_cons, List.length_nil]
          omega
        rw [total] at none all
        refine ⟨building, fun fine fewer long => ?_, fun fits fewer => ?_, fun sp' addrs same => ?_⟩
        · have mine := fine arg List.mem_cons_self
          rcases (overshoots_cons inPage).mp long with now | ⟨-, later⟩
          · exact first mine now
          · exact none (fun a inside => fine a (List.mem_cons_of_mem _ inside)) fewer (more mine ▸ later)
        · have mine := more (fine_of fits)
          exact all (by omega) fewer
        · obtain ⟨stacked, ys, addrs, args, strings, aligned, room, few, used⟩ := result sp' addrs same
          refine ⟨stacked, (va, arg) :: ys, ?_, ?_, ?_, aligned, room, few, fun fine => ?_⟩
          · simpa using addrs
          · rw [List.map_cons, args]
          · simpa using strings
          · rw [used fun a inside => fine a (List.mem_cons_of_mem _ inside), more (fine arg List.mem_cons_self), sum]
            omega
      · have mine := short yes arg List.mem_cons_self
        rw [more mine] at long
        exact (overshoots_cons inPage).mpr (Or.inr ⟨by omega, long⟩)

end Push

/- The word that the program reads at address a. -/
def userWord (m : Nat → Bytes) (d a : Nat) : Option (BitVec 32) :=
  match userByte m d a, userByte m d (a + 1), userByte m d (a + 2), userByte m d (a + 3) with
  | some b₀, some b₁, some b₂, some b₃ => some (b₃ ++ b₂ ++ b₁ ++ b₀)
  | _, _, _, _ => none

theorem userWord_eq {buf : Bytes} {a i : Nat} (here : ∀ j < 4, userByte m d (a + j) = some (buf (4 * i + j))) :
    userWord m d a = some (word buf i) := by
  have first := here 0 (by decide)
  rw [Nat.add_zero, Nat.add_zero] at first
  rw [userWord, first, here 1 (by decide), here 2 (by decide), here 3 (by decide)]
  rfl

theorem word_wordsAt {ws : List Nat} {i : Nat} (inside : i < ws.length) :
    word (wordsAt ws) i = BitVec.ofNat 32 (ws.getD i 0) := by
  rw [wordsAt, word_setWords, if_pos ⟨Nat.zero_le i, by omega⟩, Nat.sub_zero]

/- What the program finds at its first stack pointer: the fake return address, the number
of arguments, where the array of their addresses is, the array, and above it the strings, down
from sz; all of it in the one page below sz. The list has each string with its address. -/
structure Argv (m : Nat → Bytes) (d sz esp : Nat) (args : List (Nat × Fs.CStr)) : Prop where
  ret : userWord m d esp = some 0xffffffff
  argc : userWord m d (esp + 4) = some (BitVec.ofNat 32 args.length)
  array : userWord m d (esp + 8) = some (BitVec.ofNat 32 (esp + 12))
  entry : ∀ i (inside : i < args.length), userWord m d (esp + 12 + 4 * i) = some (BitVec.ofNat 32 args[i].1)
  last : userWord m d (esp + 12 + 4 * args.length) = some 0
  strings : Strings m d sz args (esp + 12 + 4 * args.length + 4)
  page : sz ≤ esp + PGSIZE

theorem Argv.congr {esp : Nat} (h : Argv m d sz esp xs) (same : ∀ a < sz, userByte n d a = userByte m d a) :
    Argv n d sz esp xs := by
  have below := h.strings.below
  have words (a : Nat) (inside : a + 4 ≤ sz) : userWord n d a = userWord m d a := by
    simp only [userWord, same a (by omega), same (a + 1) (by omega), same (a + 2) (by omega),
      same (a + 3) (by omega)]
  obtain ⟨ret, argc, array, entry, last, strings, page⟩ := h
  refine ⟨?_, ?_, ?_, fun i inside => ?_, ?_, strings.congr fun a _ inside => same a inside, page⟩
  · rw [words _ (by omega)]
    exact ret
  · rw [words _ (by omega)]
    exact argc
  · rw [words _ (by omega)]
    exact array
  · rw [words _ (by omega)]
    exact entry i inside
  · rw [words _ (by omega)]
    exact last

/- The words of ustack below the strings. -/
theorem argv_ustack {esp : Nat} (strings : Strings m d sz xs (esp + 12 + 4 * xs.length + 4)) (page : sz ≤ esp + PGSIZE)
    (small : sz < KERNBASE)
    (words : ∀ i < (ustack (esp + 12 + 4 * xs.length + 4) (xs.map Prod.fst)).length, userWord m d (esp + 4 * i) =
      some (BitVec.ofNat 32 ((ustack (esp + 12 + 4 * xs.length + 4) (xs.map Prod.fst)).getD i 0))) :
    Argv m d sz esp xs := by
  have below := strings.below
  have size : (ustack (esp + 12 + 4 * xs.length + 4) (xs.map Prod.fst)).length = xs.length + 4 := by
    simp [ustack]
  rw [size] at words
  refine ⟨?_, ?_, ?_, fun i inside => ?_, ?_, strings, page⟩
  · simpa [ustack] using words 0 (by omega)
  · simpa [ustack] using words 1 (by omega)
  · have here := words 2 (by omega)
    simp only [ustack, List.length_map, List.cons_append, List.getD_cons_succ, List.getD_cons_zero] at here
    rw [here]
    congr 2
    simp only [KERNBASE] at small
    omega
  · have here := words (i + 3) (by omega)
    rw [show esp + 4 * (i + 3) = esp + 12 + 4 * i by omega] at here
    simpa [ustack, List.getElem?_append_left, inside] using here
  · have here := words (xs.length + 3) (by omega)
    rw [show esp + 4 * (xs.length + 3) = esp + 12 + 4 * xs.length by omega] at here
    simpa [ustack] using here

end Xv6c
