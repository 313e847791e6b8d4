import Xv6c.Kernel.Isolation

/-! The size of a process against its page table, over whole runs. -/
namespace Xv6c
open Lib Mem

variable {k : Kernel}

/- The size of process q and its page table agree: the pages below the size, rounded
up, are there and no others, and nothing from KERNBASE on is open to the user. -/
structure Agrees (k : Kernel) (q : Proc) : Prop where
  size : q.sz < KERNBASE
  pages : ∀ va < KERNBASE, present (pte k.kmem.mem q.pgdir (pageOf va)) ↔ va < PGROUNDUP q.sz
  kernel : ∀ va, KERNBASE ≤ va → va < 2 ^ 32 → ¬ userBit (pte k.kmem.mem q.pgdir (pageOf va))

theorem fits_iff {m : Nat → Bytes} {d sz : Nat} : Fits m d sz ↔
    ∀ va < KERNBASE, present (pte m d (pageOf va)) ↔ va < PGROUNDUP sz := by
  simp only [KERNBASE, PGROUNDUP, pageOf]
  constructor
  · intro fits va low
    rw [fits _ (by simp only [PGSIZE]; omega)]
    simp only [PGSIZE]
    omega
  · intro pages v low
    have here := pages (v * PGSIZE) (by simp only [PGSIZE]; omega)
    rw [Nat.mul_div_cancel _ (by decide), Nat.mod_eq_of_lt (by omega)] at here
    rw [here]
    simp only [PGSIZE]
    omega

theorem Paged.agrees {l : List Nat} (h : Paged k l) (sized : Sized k) {q : ProcId} (inside : q ∈ slots)
    (live : Live (k.procAt q)) : Agrees k (k.procAt q) := by
  obtain ⟨guarded, size, _⟩ := h.tidy q inside live
  refine ⟨size, fits_iff.mp (sized q inside live), fun va high small user => ?_⟩
  have low := guarded _ (pageOf_lt va) user
  simp only [pageOf, PGSIZE] at low
  simp only [KERNBASE] at high
  omega

/- The kernel does not panic over what is mapped. -/
def sizeMode : Mode Event Fault where
  good _ := True
  owes _ := True
  fails f := f ∉ mapPanics

theorem sizeMode_kernel : KernelMode sizeMode True :=
  ⟨fun _ other => other trivial, fun _ => trivial, fun _ _ => trivial⟩

/- The outcome of a program in a mode that takes every event. -/
theorem outcome_of_wp {A : Type} {x : KM A} {Q : A → Kernel → Prop} (h : wp sizeMode x Q k) :
    (∀ f ∈ mapPanics, (x k).2 ≠ .error f) ∧ ∀ a k', (x k).2 = .ok (a, k') → Q a k' := by
  obtain ⟨-, holds⟩ := h fun _ _ => trivial
  refine ⟨fun f listed fails => ?_, fun a k' done => ?_⟩
  · rw [fails] at holds
    exact holds listed
  · rw [done] at holds
    exact holds

/- A growproc that returns -1 leaves the process and the pages it maps as they were. -/
def FailsCleanly (k : Kernel) : Label → Prop
  | .call p (.sbrk n) => ∀ k', (growproc p n k).2 = .ok (-1, k') → Stays p k k'
  | _ => True

theorem failsCleanly {lbl : Label} {l : List Nat} (paged : Paged k l) (sized : Sized k)
    (enabled : Enabled k lbl) (lasts : ¬ EmptiesAll k lbl) : FailsCleanly k lbl := by
  unfold FailsCleanly
  split
  · rename_i p n
    intro k' failed
    have settled : Settled (books k p none) k := paged.settled enabled (by simp)
    have spec := growproc_spec (g := { books k p none with sized := True, flagged := False })
      sizeMode_kernel n (settled.follow (fun _ => sized) False.elim) fun _ => lasts
    exact ((outcome_of_wp spec).2 _ _ failed).2 trivial rfl
  · trivial

/-- In every run without an sbrk that takes all a process has, between two system calls
the size of every live process and its page table agree; a growproc that fails changes
neither, and no step panics over a page that is missing or mapped already. -/
theorem sizes_agree {l : List Nat} (initial : Paged k l) (sized : Sized k) {ls : List Label}
    (lasts : Along step (fun k lbl => ¬ EmptiesAll k lbl) k ls) :
    Along step (fun k lbl => Enabled k lbl → FailsCleanly k lbl ∧
      ∀ f ∈ mapPanics, (perform lbl k).2 ≠ .error f) k ls ∧
    ∀ k', Lib.exec step k ls = some k' →
      ∀ q ∈ slots, Live (k'.procAt q) → Agrees k' (k'.procAt q) := by
  have one {k : Kernel} (h : (∃ l, Paged k l) ∧ Sized k) {lbl : Label} (lasts : ¬ EmptiesAll k lbl)
      (enabled : Enabled k lbl) :
      wp sizeMode (perform lbl) (fun _ k' => (∃ l, Paged k' l) ∧ Sized k') k := by
    obtain ⟨⟨l, paged⟩, sized⟩ := h
    refine wp_mono (perform_spec sizeMode_kernel paged (fun _ => sized) False.elim (fun _ => lasts) enabled) ?_
    exact fun _ _ done => ⟨done.1, done.2.1 trivial⟩
  have kept (k : Kernel) (lbl : Label) (k' : Kernel) (h : (∃ l, Paged k l) ∧ Sized k)
      (lasts : ¬ EmptiesAll k lbl) (taken : step k lbl = some k') : (∃ l, Paged k' l) ∧ Sized k' :=
    (step_spec (one h lasts) fun _ _ => trivial).2 k' taken
  constructor
  · refine along_under (fun k => (∃ l, Paged k l) ∧ Sized k) (fun k lbl h lasts enabled => ⟨?_, ?_⟩)
      kept ⟨⟨l, initial⟩, sized⟩ lasts
    · obtain ⟨⟨l, paged⟩, sized⟩ := h
      exact failsCleanly paged sized enabled lasts
    · exact (outcome_of_wp (one h lasts enabled)).1
  · intro k' reached q inside live
    obtain ⟨⟨l', paged⟩, sized⟩ := run_invariant kept ⟨⟨l, initial⟩, sized⟩ lasts reached
    exact paged.agrees sized inside live

theorem lonely_sized : Sized lonely := by
  intro q _ live v _
  rw [lonely_procAt] at live ⊢
  split at live
  · rw [if_pos ‹_›, pte_blank rfl]
    exact iff_of_false (by decide) (Nat.not_lt_zero _)
  · exact absurd live (by decide)

/- The process grows by a page and shrinks to one byte. -/
theorem sizes_agree_lonely :
    let run : List Label := [.call ⟨0, 0⟩ (.sbrk 4096), .call ⟨0, 0⟩ (.sbrk (-4095))]
    (Lib.exec step lonely run).isSome ∧
    ∀ k', Lib.exec step lonely run = some k' →
      ∀ q ∈ slots, Live (k'.procAt q) → Agrees k' (k'.procAt q) :=
  ⟨by decide +kernel, (sizes_agree lonely_paged lonely_sized (along_of_checks (by decide +kernel))).2⟩

/- The process grows by a page and gives it back: growproc takes the size 0 for a failure,
and the process keeps its size with no page mapped. -/
theorem emptied_process_keeps_size :
    let run : List Label := [.call ⟨0, 0⟩ (.sbrk 4096), .call ⟨0, 0⟩ (.sbrk (-4096))]
    ∃ k', Lib.exec step lonely run = some k' ∧ Live (k'.procAt ⟨0, 0⟩) ∧
      ¬ Agrees k' (k'.procAt ⟨0, 0⟩) := by
  obtain ⟨k', done, live, inside, missing⟩ : ∃ k, Lib.exec step lonely [.call ⟨0, 0⟩ (.sbrk 4096),
      .call ⟨0, 0⟩ (.sbrk (-4096))] = some k ∧ Live (k.procAt ⟨0, 0⟩) ∧ 0 < PGROUNDUP (k.procAt ⟨0, 0⟩).sz ∧
      ¬ present (pte k.kmem.mem (k.procAt ⟨0, 0⟩).pgdir (pageOf 0)) := by decide +kernel
  exact ⟨k', done, live, fun agrees => missing ((agrees.pages 0 (by decide)).mpr inside)⟩

end Xv6c
