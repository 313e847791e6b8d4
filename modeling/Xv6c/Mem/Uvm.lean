import Mathlib.Algebra.BigOperators.Intervals
import Xv6c.Mem.Walk

/-! What the functions of vm.c do to the pages of an address space. -/
namespace Xv6c.Mem
open Lib
open Function (update update_of_ne)

variable {M : Mode Freed Fault} {sized safe : Prop} (sm : SafeMode M sized safe)
variable {s : MemState} {l : List Nat} {d : Nat}

/- No page above KERNBASE is accessible to the user. -/
def Guarded (m : Nat → Bytes) (d : Nat) : Prop :=
  ∀ v < 2 ^ 20, userBit (pte m d v) → v < 2 ^ 19

/- The pages of a process of size sz: the pages below it, and no others. -/
def Fits (m : Nat → Bytes) (d sz : Nat) : Prop := ∀ v < 2 ^ 19, present (pte m d v) ↔ v * PGSIZE < sz

/- The entries in the range all map a page, or none does; the others stay. -/
structure Sets (b : Bool) (m n : Nat → Bytes) (d : Nat) (range : Nat → Prop) : Prop where
  kept : ∀ v < 2 ^ 20, ¬ range v → pte n d v = pte m d v
  set : ∀ v < 2 ^ 20, range v → present (pte n d v) = b

variable {m n : Nat → Bytes}

/- What was done before within the range does not matter. -/
theorem Sets.after {b : Bool} {o : Nat → Bytes} {range : Nat → Prop} (h : Sets b n o d range)
    (before : ∀ v < 2 ^ 20, ¬ range v → pte n d v = pte m d v) : Sets b m o d range :=
  ⟨fun v hv outside => (h.kept v hv outside).trans (before v hv outside), h.set⟩

variable {p : Nat → Prop}

/- The range may be widened by entries that are so already. -/
theorem Sets.widen {b : Bool} {q : Nat → Prop} (h : Sets b m n d p) (wider : ∀ v, p v → q v)
    (already : ∀ v < 2 ^ 20, q v → ¬ p v → present (pte m d v) = b) : Sets b m n d q where
  kept v hv outside := h.kept v hv fun inside => outside (wider v inside)
  set v hv inside := by
    by_cases before : p v
    · exact h.set v hv before
    · rw [h.kept v hv before]
      exact already v hv inside before

/- Entries in the range are cleared; the tables stay. -/
structure Shrinks (m n : Nat → Bytes) (d : Nat) (range : Nat → Prop) : Prop
    extends Sets false m n d range where
  dir : n d = m d
  ptes : ∀ v < 2 ^ 20, pte n d v = pte m d v ∨ pte n d v = 0

theorem Shrinks.none (empty : ∀ v, ¬ p v) : Shrinks m m d p :=
  ⟨⟨fun _ _ _ => rfl, fun v _ inside => absurd inside (empty v)⟩, rfl, fun _ _ => Or.inl rfl⟩

theorem Shrinks.trans {o : Nat → Bytes} {q : Nat → Prop} (first : Shrinks m n d p) (second : Shrinks n o d q) :
    Shrinks m o d (fun v => p v ∨ q v) where
  dir := second.dir.trans first.dir
  ptes v hv := by
    rcases second.ptes v hv with same | gone
    · rw [same]
      exact first.ptes v hv
    · exact Or.inr gone
  kept v hv outside := by
    rw [not_or] at outside
    rw [second.kept v hv outside.2, first.kept v hv outside.1]
  set v hv inside := by
    by_cases later : q v
    · exact second.set v hv later
    · rw [second.kept v hv later]
      exact first.set v hv (inside.resolve_right later)

theorem Shrinks.guarded (h : Shrinks m n d p) (guarded : Guarded m d) : Guarded n d := by
  intro v hv user
  rcases h.ptes v hv with same | gone
  · exact guarded v hv (same ▸ user)
  · rw [gone] at user
    exact absurd user (by decide)

variable {v : Nat}

theorem PGROUNDUP_le {n : Nat} : (n + PGSIZE - 1) / PGSIZE ≤ v ↔ n ≤ v * PGSIZE := by
  simp only [PGSIZE]
  omega

section Dealloc
include sm

variable {v : Nat}

/- A mapped page is freed and its entry cleared. -/
theorem wp_unmap {B : Type} {k : Unit → MemM B} {Q : B → MemState → Prop} (h : Holds safe s l (space s.mem d))
    (low : v < 2 ^ 19) (entry : present (word (s.mem d) (v / 1024))) (mapped : present (pte s.mem d v))
    (next : ∀ t, Saves s t l (ptePage (pte s.mem d v) :: l) (space s.mem d) (space t.mem d) →
      Shrinks s.mem t.mem d (· = v) → wp M (k ()) Q t) : wp M (kfree (ptePage (pte s.mem d v)) >>= fun _ =>
      setEntry (ptePage (word (s.mem d) (v / 1024))) (v % 1024) 0 >>= k) Q s := by
  obtain ⟨heap, once, ranged⟩ := h
  have hi : v / 1024 < 1024 := by omega
  have hj : v % 1024 < 1024 := by omega
  have dir := dir_once once
  have user := mem_users low mapped
  have fresh : ptePage (pte s.mem d v) ∉ l := fun h =>
    held_apart once (Multiset.mem_coe.mpr h) (by simp [space, user])
  have apart (q : Nat) (hq : q ∈ {d} + refs (s.mem d)) : q ≠ ptePage (pte s.mem d v) := by
    rintro rfl
    exact held_apart (Multiset.nodup_add.mp once).2.1 hq user
  have inside : ptePage (pte s.mem d v) ∈ space s.mem d := by simp [space, user]
  refine wp_seq (kfree_spec sm heap fresh fun yes => ranged yes _ inside) ?_
  rintro _ t ⟨moves, _, same⟩
  have kept (q : Nat) (hq : q ∈ {d} + refs (s.mem d)) : t.mem q = s.mem q := same q (apart q hq)
  have dirKept : t.mem d = s.mem d := kept d (by simp)
  have dirOnce : ({d} + refs (t.mem d)).Nodup := by rwa [dirKept]
  have entryKept : present (word (t.mem d) (v / 1024)) := by rwa [dirKept]
  have table : ptePage (word (s.mem d) (v / 1024)) ∈ {d} + refs (s.mem d) := by
    simp [mem_refs hi entry]
  obtain ⟨rest, split⟩ := Multiset.exists_cons_of_mem inside
  rw [← Multiset.singleton_add] at split
  have framed := moves.frame rest
  rw [← split, zero_add] at framed
  rw [← dirKept]
  refine wp_modify_bind (next _ ?_ ?_)
  · refine framed.write (framed.nodup once) (fun q outside => update_of_ne ?_ _ _) ?_
    · rintro rfl
      rw [dirKept] at outside
      have inside : ptePage (word (s.mem d) (v / 1024)) ∈ space s.mem d := by
        simp [space, mem_refs hi entry]
      rw [split, Multiset.mem_add, Multiset.mem_singleton] at inside
      exact inside.elim (apart _ table) outside
    · have cleared := space_setPte dirOnce hi hj entryKept 0
      have old : word (t.mem (ptePage (word (t.mem d) (v / 1024)))) (v % 1024) = pte s.mem d v := by
        rw [dirKept, kept _ table, pte, if_pos entry]
      dsimp only at cleared
      rw [old, if_pos (by omega), if_pos (by omega), single, if_pos mapped,
        show single (0 : BitVec 32) = 0 from single_zero, add_zero,
        space_congr kept, split, add_comm] at cleared
      exact add_left_cancel cleared
  · have ptes (u : Nat) (hu : u < 2 ^ 20) := pte_setPte dirOnce hi hj entryKept 0 hu
    rw [show v / 1024 * 1024 + v % 1024 = v by omega] at ptes
    refine ⟨⟨fun u hu other => ?_, fun u hu same => ?_⟩, ?_, fun u hu => ?_⟩ <;> dsimp only
    · rw [ptes u hu, if_neg other, pte_congr kept hu]
    · rw [ptes u hu, if_pos same]
      decide
    · rw [update_of_ne (Ne.symm (table_ne_dir dirOnce hi entryKept)), dirKept]
    · rw [ptes u hu, pte_congr kept hu]
      split
      · exact Or.inr rfl
      · exact Or.inl rfl

omit sm in
/- n rounds from page v on, and the test that ends a loop up to size sz. -/
def Enough (n v sz : Nat) : Prop := ∃ m, n = m + 1 ∧ sz ≤ (v + m) * PGSIZE

omit sm in
theorem Enough.positive {sz : Nat} : ¬ Enough 0 v sz := by
  rintro ⟨m, same, -⟩
  omega

variable {n : Nat}

omit sm in
theorem Enough.step {w sz : Nat} (h : Enough (n + 1) v sz) (inside : v * PGSIZE < sz) (later : v < w) :
    Enough n w sz := by
  obtain ⟨m, same, bound⟩ := h
  obtain rfl : n = m := by omega
  cases n with
  | zero =>
    rw [Nat.add_zero] at bound
    omega
  | succ n =>
    refine ⟨n, rfl, bound.trans (Nat.mul_le_mul_right _ ?_)⟩
    omega

omit sm in
theorem enough_pages (v sz : Nat) : Enough (sz / PGSIZE + 2) v sz := by
  refine ⟨sz / PGSIZE + 1, rfl, ?_⟩
  simp only [PGSIZE]
  omega

/- The loop of deallocuvm below KERNBASE. -/
theorem deallocLoop_spec {oldsz : Nat} (h : Holds safe s l (space s.mem d))
    (limit : oldsz ≤ KERNBASE) (enough : safe → Enough n v oldsz) :
    wp M (deallocLoop d oldsz n (v * PGSIZE)) (fun _ t => ∃ l',
      Saves s t l l' (space s.mem d) (space t.mem d) ∧
      Shrinks s.mem t.mem d (fun u => v ≤ u ∧ u * PGSIZE < oldsz)) s := by
  induction n generalizing v s l with
  | zero => exact wp_fault (sm.other (fun yes => (enough yes).positive) (by decide))
  | succ n ih =>
    unfold deallocLoop
    refine wp_ite (fun inside => ?_) (fun over' => wp_pure ⟨l, .refl h.heap _, .none fun u range => ?_⟩)
    swap
    · exact page_beyond over' range.1 range.2
    have low := page_low inside limit
    -- The loop goes on at page w, and what lies between was not mapped.
    have onward {w : Nat} (later : v < w)
        (blank : ∀ u < 2 ^ 20, v ≤ u → u < w → present (pte s.mem d u) = false) :
        wp M (deallocLoop d oldsz n (w * PGSIZE)) (fun _ t => ∃ l',
          Saves s t l l' (space s.mem d) (space t.mem d) ∧
          Shrinks s.mem t.mem d (fun u => v ≤ u ∧ u * PGSIZE < oldsz)) s := by
      refine wp_mono (ih h fun yes => (enough yes).step inside later) ?_
      rintro _ t ⟨l', moves, shrinks⟩
      refine ⟨l', moves, shrinks.widen (fun u range => ⟨by omega, range.2⟩) fun u hu range skipped => ?_,
        shrinks.dir, shrinks.ptes⟩
      refine blank u hu range.1 ?_
      by_contra above
      exact skipped ⟨by omega, range.2⟩
    rw [next_page low, next_table low]
    refine wp_lookup (fun missing => onward (by omega) fun u hu _ below => ?_) (fun entry => wp_get_bind ?_)
    · rw [PDX_page (by omega)] at missing
      rw [pte, show u / 1024 = v / 1024 by omega, if_neg missing]
      decide
    rw [PDX_page (by omega)] at entry ⊢
    simp only [PTX_page, pte_entry entry]
    refine wp_ite (fun mapped => ?_) (fun free => onward (by omega) fun u hu _ below => ?_)
    swap
    · rw [show u = v by omega]
      exact Bool.eq_false_iff.mpr free
    refine wp_ite (fun zero => wp_fault (sm.other (fun yes => ?_) (by decide))) (fun _ => ?_)
    · exact h.heap.nonzero (h.ranged yes _ (Multiset.mem_add.mpr (Or.inr (mem_users low mapped)))) zero
    refine wp_unmap sm h low entry mapped fun u moves shrinks => ?_
    refine wp_mono (ih (h.after moves.toMoves) fun yes => (enough yes).step inside (Nat.lt_succ_self v)) ?_
    rintro _ w ⟨l'', further, rest⟩
    have both := shrinks.trans rest
    refine ⟨l'', moves.trans further, both.widen (fun x range => ?_) fun x _ range skipped => ?_,
      both.dir, both.ptes⟩
    · rcases range with rfl | range
      · exact ⟨le_rfl, inside⟩
      · exact ⟨by omega, range.2⟩
    · rw [not_or] at skipped
      exact absurd ⟨by omega, range.2⟩ skipped.2

theorem deallocuvm_spec {oldsz newsz : Nat} (h : Holds safe s l (space s.mem d)) (limit : oldsz ≤ KERNBASE) :
    wp M (deallocuvm d oldsz newsz) (fun r t => ∃ l',
      Saves s t l l' (space s.mem d) (space t.mem d) ∧
      Shrinks s.mem t.mem d (fun v => newsz ≤ v * PGSIZE ∧ v * PGSIZE < oldsz) ∧
      r = min oldsz newsz) s := by
  unfold deallocuvm
  refine wp_ite (fun more => wp_pure ⟨l, .refl h.heap _, .none fun v range => ?_, ?_⟩) (fun less => ?_)
  · omega
  · exact (Nat.min_eq_left more).symm
  · rw [PGROUNDUP]
    refine wp_seq (deallocLoop_spec sm h limit fun _ => enough_pages _ _) ?_
    rintro _ t ⟨l', moves, shrinks⟩
    simp only [PGROUNDUP_le] at shrinks
    exact wp_pure ⟨l', moves, shrinks, (Nat.min_eq_right (by omega)).symm⟩

/- The loop of freevm frees the tables from entry i on. -/
theorem freeTables_spec {i : Nat}
    (h : Holds safe s l ({d} + ∑ k ∈ Finset.Ico i (i + n), single (word (s.mem d) k))) :
    wp M (freeTables d n i) (fun _ t => ∃ l',
      Saves s t l l' ({d} + ∑ k ∈ Finset.Ico i (i + n), single (word (s.mem d) k)) {d}) s := by
  induction n generalizing i s l with
  | zero =>
    refine wp_pure ⟨l, ?_⟩
    simpa using Saves.refl h.heap {d}
  | succ n ih =>
    rw [show i + (n + 1) = i + 1 + n by omega] at h ⊢
    rw [Finset.sum_eq_sum_Ico_succ_bot (by omega), add_left_comm ({d} : Multiset Nat)] at h ⊢
    unfold freeTables
    refine wp_get_bind ?_
    dsimp only
    by_cases entry : present (word (s.mem d) i)
    · rw [if_pos entry]
      rw [single, if_pos entry] at h ⊢
      have held : ptePage (word (s.mem d) i) ∉ l := fun free =>
        held_apart h.once (Multiset.mem_coe.mpr free) (by simp)
      have notDir : d ≠ ptePage (word (s.mem d) i) := fun same =>
        held_apart (Multiset.nodup_add.mp h.once).2.1 (Multiset.mem_singleton.mpr same) (by simp)
      refine wp_seq (kfree_spec sm h.heap held fun yes => h.ranged yes _ (by simp)) ?_
      rintro _ t ⟨moves, _, same⟩
      have dir : t.mem d = s.mem d := same d notDir
      have framed := moves.frame ({d} + ∑ k ∈ Finset.Ico (i + 1) (i + 1 + n), single (word (s.mem d) k))
      rw [zero_add] at framed
      refine wp_mono (ih (i := i + 1) (s := t) (by rw [dir]; exact h.after framed.toMoves)) ?_
      rintro _ u ⟨l', further⟩
      rw [dir] at further
      exact ⟨l', framed.trans further⟩
    · rw [if_neg entry]
      rw [single, if_neg entry, zero_add] at h ⊢
      exact wp_bind (wp_pure (ih h))

omit sm in
/- A space without user pages. -/
theorem users_none {m : Nat → Bytes} (none : ∀ v < 2 ^ 19, ¬ present (pte m d v)) : users m d = 0 := by
  refine Finset.sum_eq_zero fun i low => ?_
  split
  · rename_i entry
    refine Finset.sum_eq_zero fun j column => ?_
    have row := mem_lower.mp low
    have index := mem_indices.mp column
    have blank := none (i * 1024 + j) (by omega)
    rw [pte, show (i * 1024 + j) / 1024 = i by omega, show (i * 1024 + j) % 1024 = j by omega,
      if_pos entry] at blank
    exact if_neg blank
  · rfl

theorem freevm_spec (h : Holds safe s l (space s.mem d)) :
    wp M (freevm d) (fun _ t => ∃ l', Saves s t l l' (space s.mem d) 0) s := by
  unfold freevm
  refine wp_ite (fun zero => wp_fault (sm.other (fun yes => ?_) (by decide))) (fun _ => ?_)
  · exact h.heap.nonzero (h.ranged yes d (by simp [space])) zero
  refine wp_seq (deallocuvm_spec sm h le_rfl) ?_
  rintro _ t ⟨l₁, first, shrinks, -⟩
  -- No user page is left, so only the tables and the directory count.
  have blank : users t.mem d = 0 := by
    refine users_none fun v low => Bool.eq_false_iff.mp (shrinks.set v (by omega) ⟨Nat.zero_le _, ?_⟩)
    simp only [PGSIZE, KERNBASE]
    omega
  have tables : {d} + ∑ k ∈ Finset.Ico 0 (0 + NPDENTRIES), single (word (t.mem d) k) = space t.mem d := by
    rw [space, blank, add_zero, refs, indices, Finset.range_eq_Ico]
    rfl
  rw [← tables] at first
  refine wp_seq (freeTables_spec sm (h.after first.toMoves)) ?_
  rintro _ u ⟨l₂, second⟩
  have both := first.trans second
  have left := h.after both.toMoves
  have held : d ∉ l₂ := fun free => held_apart left.once (Multiset.mem_coe.mpr free) (by simp)
  refine wp_mono (kfree_spec sm left.heap held fun yes => left.ranged yes d (by simp)) ?_
  rintro _ w ⟨third, -, -⟩
  exact ⟨d :: l₂, both.trans third⟩

end Dealloc

/- The directory entries of the kernel's half. -/
def KernelIndex (i : Nat) : Prop := 512 ≤ i ∧ i < 568 ∨ 1016 ≤ i ∧ i < 1024

/- Ranges of kernel memory in increasing order, each from page v on for n pages. -/
def Ranges : Nat → List Kmap → Prop
  | _, [] => True
  | lo, k :: ks => ∃ v n, lo ≤ v ∧ k.virt = v * PGSIZE ∧ k.physEnd - k.physStart = n * PGSIZE ∧
      2 ^ 19 ≤ v ∧ v + n ≤ 2 ^ 20 ∧ 0 < n ∧ k.perm.getLsbD 2 = false ∧
      (∀ i, v / 1024 ≤ i → i * 1024 < v + n → KernelIndex i) ∧ Ranges (v + n) ks

theorem kmap_ranges {m : Kmem} (layout : Layout m.dataPg m.endPg) : Ranges (2 ^ 19) (kmap m) := by
  obtain ⟨text, data, top⟩ := layout
  simp only [EXTMEM, PHYSTOP, PGSIZE] at text data top
  refine ⟨0x80000, 0x100, by decide, by decide, by decide, by decide, by decide, by decide, by decide,
    fun i _ _ => ?_, ?_⟩
  · simp only [KernelIndex]
    omega
  refine ⟨0x80100, m.dataPg - 0x100, by decide, rfl, ?_, by decide, ?_, ?_,
    show (0 : BitVec 12).getLsbD 2 = false by decide, fun i _ _ => ?_, ?_⟩
  · simp only [EXTMEM, PGSIZE]
    omega
  · omega
  · omega
  · simp only [KernelIndex]
    omega
  refine ⟨0x80000 + m.dataPg, 0xE000 - m.dataPg, ?_, ?_, ?_, ?_, ?_, ?_,
    show PTE_W.getLsbD 2 = false by decide, fun i _ _ => ?_, ?_⟩
  · omega
  · simp only [KERNBASE, PGSIZE]
    omega
  · simp only [PHYSTOP, PGSIZE]
    omega
  · omega
  · omega
  · omega
  · simp only [KernelIndex]
    omega
  refine ⟨0xFE000, 0x2000, ?_, by decide, by decide, by decide, by decide, by decide, by decide,
    fun i _ _ => ?_, trivial⟩
  · omega
  · simp only [KernelIndex]
    omega

/- A page table as setupkvm makes it. -/
structure KernelTable (m : Nat → Bytes) (d : Nat) : Prop where
  low : ∀ v < 2 ^ 19, pte m d v = 0
  guarded : Guarded m d
  tables : ∀ i, present (word (m d) i) → KernelIndex i

theorem pte_blank (blank : m d = zeros) (v : Nat) : pte m d v = 0 := by
  simp [pte, blank]

theorem space_blank (blank : m d = zeros) : space m d = {d} := by
  simp [space, users, blank, refs_zeros]

/- mappages of n pages from page v on runs its loop n times. -/
theorem mappages_pages {n : Nat} (d pa : Nat) (perm : BitVec 12) (top : v + n ≤ 2 ^ 20) (some : 0 < n) :
    mappages d (v * PGSIZE) (n * PGSIZE) pa perm =
      mapLoop d ((v + n - 1) * PGSIZE) perm n (v * PGSIZE) pa := by
  have first : PGROUNDDOWN (v * PGSIZE) = v * PGSIZE := by
    simpa only [Nat.add_zero] using PGROUNDDOWN_page v (k := 0) (by decide)
  have last : PGROUNDDOWN ((v * PGSIZE + n * PGSIZE - 1) % 2 ^ 32) = (v + n - 1) * PGSIZE := by
    have split : v * PGSIZE + n * PGSIZE - 1 = (v + n - 1) * PGSIZE + (PGSIZE - 1) := by
      simp only [PGSIZE]
      omega
    have small : (v + n - 1) * PGSIZE + (PGSIZE - 1) < 2 ^ 32 := by
      simp only [PGSIZE]
      omega
    rw [split, Nat.mod_eq_of_lt small]
    exact PGROUNDDOWN_page _ (by decide)
  have fuel : ((v + n - 1) * PGSIZE - v * PGSIZE) / PGSIZE + 1 = n := by
    simp only [PGSIZE]
    omega
  simp only [mappages, first, last, fuel]

/- The entry that kmap gives to virtual page v. -/
def kmapPte : List Kmap → Nat → BitVec 32
  | [], _ => 0
  | k :: ks, v =>
    if k.virt ≤ v * PGSIZE ∧ v * PGSIZE < k.virt + (k.physEnd - k.physStart) then
      mkPte (k.physStart / PGSIZE + (v - k.virt / PGSIZE)) (k.perm ||| PTE_P)
    else kmapPte ks v

/- The same for a range of n pages from page v on. -/
theorem kmapPte_cons {k : Kmap} {ks : List Kmap} {n : Nat} (virt : k.virt = v * PGSIZE)
    (size : k.physEnd - k.physStart = n * PGSIZE) (u : Nat) :
    kmapPte (k :: ks) u = if v ≤ u ∧ u < v + n then mkPte (k.physStart / PGSIZE + (u - v)) (k.perm ||| PTE_P)
      else kmapPte ks u := by
  have inside : k.virt ≤ u * PGSIZE ∧ u * PGSIZE < k.virt + (k.physEnd - k.physStart) ↔ v ≤ u ∧ u < v + n := by
    rw [virt, size]
    simp only [PGSIZE]
    omega
  have first : k.virt / PGSIZE = v := by rw [virt, Nat.mul_div_cancel _ (by decide)]
  simp only [kmapPte, inside, first]

theorem kmapPte_below {lo : Nat} {ks : List Kmap} (ranges : Ranges lo ks) {u : Nat} (below : u < lo) :
    kmapPte ks u = 0 := by
  induction ks generalizing lo with
  | nil => rfl
  | cons k ks ih =>
    obtain ⟨v, n, above, virt, size, -, -, -, -, -, rest⟩ := ranges
    rw [kmapPte_cons virt size, if_neg (by omega)]
    exact ih rest (by omega)

/- The kernel's memory and the devices are mapped throughout, and not for the user. -/
theorem kmapPte_kernel {m : Kmem} (layout : Layout m.dataPg m.endPg) (index : KernelIndex (v / 1024)) :
    present (kmapPte (kmap m) v) := by
  have valid (page : Nat) (perm : BitVec 12) : present (mkPte page (perm ||| PTE_P)) := by
    rw [present_mkPte]
    simp [PTE_P]
  obtain ⟨text, data, top⟩ := layout
  simp only [kmap, kmapPte]
  split
  · exact valid _ _
  split
  · exact valid _ _
  split
  · exact valid _ _
  split
  · exact valid _ _
  rename_i low text' rest devices
  simp only [KernelIndex, EXTMEM, PHYSTOP, PGSIZE, KERNBASE, DEVSPACE] at *
  omega

section Setup
include sm

/- mappages for a range of kernel memory of n pages from page v on. -/
theorem mappages_kernel {v n pa : Nat} {perm : BitVec 12} (heap : Heap s.toKmem l)
    (once : ((l : Multiset Nat) + space s.mem d).Nodup) (high : 2 ^ 19 ≤ v) (top : v + n ≤ 2 ^ 20)
    (some : 0 < n) (perms : perm.getLsbD 2 = false)
    (free : sized → ∀ u < 2 ^ 20, v ≤ u → ¬ present (pte s.mem d u)) :
    wp M (mappages d (v * PGSIZE) (n * PGSIZE) pa perm) (fun r t => ∃ l',
      Saves s t l l' (space s.mem d) (space t.mem d) ∧
      KernelOnly s.mem t.mem d (fun i => v / 1024 ≤ i ∧ i * 1024 < v + n) ∧
      (∀ u < 2 ^ 20, u < v ∨ v + n ≤ u → pte t.mem d u = pte s.mem d u) ∧
      (r = true → ∀ u, v ≤ u → u < v + n → pte t.mem d u = mkPte (pa + (u - v)) (perm ||| PTE_P))) s := by
  rw [mappages_pages d pa perm top some]
  refine wp_mono (mapLoop_kernel sm heap once some high top perms free) ?_
  rintro r t ⟨l', saves, -, rest⟩
  exact ⟨l', saves, rest⟩

theorem mapKernel_spec {lo : Nat} {ks : List Kmap} (heap : Heap s.toKmem l)
    (once : ((l : Multiset Nat) + space s.mem d).Nodup) (ranges : Ranges lo ks)
    (blank : ∀ u < 2 ^ 20, lo ≤ u → pte s.mem d u = 0) :
    wp M (mapKernel d ks) (fun r t => ∃ l',
      Saves s t l l' (space s.mem d) (space t.mem d) ∧ KernelOnly s.mem t.mem d KernelIndex ∧
      (∀ u < 2 ^ 20, u < lo → pte t.mem d u = pte s.mem d u) ∧
      (r = true → ∀ u < 2 ^ 20, lo ≤ u → pte t.mem d u = kmapPte ks u)) s := by
  induction ks generalizing lo s l with
  | nil =>
    exact wp_pure ⟨l, .refl heap _, ⟨fun _ _ => rfl, fun _ _ h => h, fun _ h => Or.inl h⟩,
      fun _ _ _ => rfl, fun _ => blank⟩
  | cons k ks ih =>
    obtain ⟨v, n, above, virt, size, high, top, some, perms, inside, rest⟩ := ranges
    unfold mapKernel
    rw [virt, size]
    refine wp_seq (mappages_kernel sm heap once high top some perms fun _ u hu later => ?_) ?_
    · rw [blank u hu (by omega)]
      decide
    rintro r t ⟨l', moves, only, outside, set⟩
    have here : KernelOnly s.mem t.mem d KernelIndex := only.mono fun i hi => inside i hi.1 hi.2
    refine wp_ite (fun done => ?_) (fun _ => wp_pure ⟨l', moves, here, ?_, by simp⟩)
    swap
    · exact fun u hu below => outside u hu (by omega)
    refine wp_mono (ih moves.heap (moves.nodup once) rest fun u hu later => ?_) ?_
    · rw [outside u hu (Or.inr later)]
      exact blank u hu (by omega)
    rintro r u ⟨l'', further, final, kept, mapped⟩
    refine ⟨l'', moves.trans further, (here.trans final).mono fun i hi => hi.elim id id,
      fun w hw below => ?_, fun all w hw later => ?_⟩
    · rw [kept w hw (by omega), outside w hw (by omega)]
    · rw [kmapPte_cons virt size]
      by_cases here : v ≤ w ∧ w < v + n
      · rw [if_pos here, kept w hw here.2]
        exact set done w here.1 here.2
      · rw [if_neg here]
        by_cases below : w < v + n
        · rw [kept w hw below, outside w hw (by omega), blank w hw later, kmapPte_below rest below]
        · exact mapped all w hw (by omega)

theorem setupkvm_spec (heap : Heap s.toKmem l) (once : (l : Multiset Nat).Nodup) :
    wp M setupkvm (fun r t => ∃ l', (r = 0 ∧ Saves s t l l' 0 0) ∨
      (r ≠ 0 ∧ Saves s t l l' 0 (space t.mem r) ∧ KernelTable t.mem r ∧
        ∀ v < 2 ^ 20, pte t.mem r v = kmapPte (kmap s.toKmem) v)) s := by
  have start : Holds safe s l 0 := .start heap once
  unfold setupkvm
  refine wp_seq (kalloc_spec heap) ?_
  rintro d t ⟨-, ⟨rfl, moves⟩ | ⟨nonzero, l', rfl, moves⟩⟩
  · rw [if_pos rfl]
    exact wp_pure ⟨l, Or.inl ⟨rfl, moves⟩⟩
  · rw [if_neg nonzero]
    refine wp_modify_bind (wp_get_bind ?_)
    have blank : update t.mem d zeros d = zeros := Function.update_self _ _ _
    have cleared : Saves s { t with mem := update t.mem d zeros } (d :: l') l' 0
        (space (update t.mem d zeros) d) := by
      rw [space_blank blank]
      exact moves.write (moves.nodup start.once) (fun q outside => update_of_ne (by simpa using outside) _ _) rfl
    have layout : kmap t.toKmem = kmap s.toKmem := by rw [kmap, kmap, moves.fixed.dataPg]
    have ranges := kmap_ranges cleared.heap.layout
    refine wp_seq (mapKernel_spec sm cleared.heap (cleared.nodup start.once) ranges fun u _ _ => pte_blank blank u) ?_
    rintro done u ⟨l'', further, only, low, set⟩
    have both := cleared.trans further
    refine wp_ite (fun ok => wp_pure ⟨l'', Or.inr ⟨nonzero, both, ?_, fun v hv => ?_⟩⟩) (fun _ => ?_)
    · refine ⟨fun v hv => ?_, fun v hv user => ?_, fun i entry => ?_⟩
      · rw [only.low v hv]
        exact pte_blank blank v
      · have old := only.high v hv user
        rw [show pte _ d v = 0 from pte_blank blank v] at old
        exact absurd old (by decide)
      · refine (only.tables i entry).resolve_left ?_
        dsimp only
        rw [blank, word_zeros]
        decide
    · rw [← layout]
      by_cases high : 2 ^ 19 ≤ v
      · exact set ok v hv high
      · rw [low v hv (by omega)]
        exact (pte_blank blank v).trans (kmapPte_below ranges (by omega)).symm
    · refine wp_seq (freevm_spec sm (start.after both.toMoves)) ?_
      rintro _ w ⟨l₃, last⟩
      exact wp_pure ⟨l₃, Or.inl ⟨rfl, both.trans last⟩⟩

end Setup

/- Pages outside the tables can be written without changing what is mapped. -/
theorem table_congr {p : Nat} (b : Bytes) (outside : p ∉ {d} + refs (m d)) :
    ∀ q ∈ {d} + refs (m d), update m p b q = m q := by
  intro q hq
  refine update_of_ne ?_ _ _
  rintro rfl
  exact outside hq

section Grow
include sm

variable {v : Nat}

/- A page in hand is filled and mapped at page v below KERNBASE. -/
theorem wp_install {p : Nat} {b : Bytes} {perm : BitVec 12} {B : Type} {k : Bool → MemM B}
    {Q : B → MemState → Prop} (heap : Heap s.toKmem l)
    (once : ((l : Multiset Nat) + (space s.mem d + {p})).Nodup) (low : v < 2 ^ 19) (small : p < 2 ^ 20)
    (free : sized → ¬ present (pte s.mem d v))
    (done : ∀ t l', Saves s t l l' (space s.mem d + {p}) (space t.mem d) →
      Touches { s with mem := update s.mem p b } t l l' d →
      (∀ u < 2 ^ 20, pte t.mem d u = if u = v then mkPte p (perm ||| PTE_P) else pte s.mem d u) →
      (∀ i, present (word (t.mem d) i) → present (word (s.mem d) i) ∨ i = v / 1024) →
      wp M (k true) Q t) (full : ∀ t l', Saves s t l l' (space s.mem d + {p}) (space t.mem d + {p}) →
      (∀ u < 2 ^ 20, pte t.mem d u = pte s.mem d u) →
      (∀ i, present (word (t.mem d) i) → present (word (s.mem d) i) ∨ i = v / 1024) →
      wp M (k false) Q t) :
    wp M (setPage p b >>= fun _ => mappages d (v * PGSIZE) PGSIZE p perm >>= k) Q s := by
  have outside : p ∉ space s.mem d := fun h =>
    held_apart (Multiset.nodup_add.mp once).2.1 h (by simp)
  have same := table_congr b fun h => outside (Multiset.mem_add.mpr (Or.inl h))
  have pages := space_congr same
  have filled := (Saves.refl heap (space s.mem d + {p})).write once (n := update s.mem p b)
    (fun q hq => update_of_ne (by rintro rfl; simp at hq) _ _) rfl
  have dir : update s.mem p b d = s.mem d := same d (by simp)
  have still : pte (update s.mem p b) d v = pte s.mem d v := pte_congr same (by omega)
  refine wp_modify_bind (wp_seq (map_user sm filled.heap low small (by rwa [pages])
    fun sized => still ▸ free sized) ?_)
  dsimp only
  rw [pages, dir]
  rintro (_ | _) t ⟨l', touches, tables, yes, no⟩
  · obtain ⟨moves, ptes⟩ := no rfl
    refine full t l' (filled.trans moves) (fun u hu => ?_) tables
    rw [ptes u hu, pte_congr same hu]
  · obtain ⟨moves, ptes⟩ := yes rfl
    refine done t l' (filled.trans moves) touches (fun u hu => ?_) tables
    rw [ptes u hu, pte_congr same hu]

/- A page beside the space is freed. -/
theorem kfree_beside {p : Nat} (h : Holds safe s l (space s.mem d + {p})) :
    wp M (kfree p) (fun _ t => Saves s t l (p :: l) (space s.mem d + {p}) (space t.mem d) ∧
      t.mem d = s.mem d ∧ ∀ u < 2 ^ 20, pte t.mem d u = pte s.mem d u) s := by
  have held : p ∉ l := fun free => held_apart h.once (Multiset.mem_coe.mpr free) (by simp)
  refine wp_mono (kfree_spec sm h.heap held fun yes => h.ranged yes p (by simp)) ?_
  rintro _ t ⟨moves, -, same⟩
  have kept (q : Nat) (hq : q ∈ {d} + refs (s.mem d)) : t.mem q = s.mem q := by
    refine same q ?_
    rintro rfl
    exact held_apart (Multiset.nodup_add.mp h.once).2.1 (Multiset.mem_add.mpr (Or.inl hq)) (by simp)
  refine ⟨?_, kept d (by simp), fun u hu => pte_congr kept hu⟩
  have framed := moves.frame (space s.mem d)
  rw [zero_add, add_comm] at framed
  rwa [space_congr kept]

omit sm in
/- The table for a page below sz. -/
theorem table_below {sz : Nat} (inside : v * PGSIZE < sz) : v / 1024 * 2 ^ 22 < sz := by
  have start := Nat.mul_le_mul_right PGSIZE (Nat.div_mul_le_self v 1024)
  rw [Nat.mul_assoc] at start
  exact start.trans_lt inside

/- The flags of the pages that allocuvm maps. -/
def userFlags : BitVec 12 := PTE_W ||| PTE_U ||| PTE_P

theorem allocLoop_spec {n oldsz newsz : Nat} (h : Holds safe s l (space s.mem d))
    (limit : newsz ≤ KERNBASE) (start : oldsz ≤ v * PGSIZE)
    (free : sized → ∀ u < 2 ^ 19, v ≤ u → ¬ present (pte s.mem d u)) (enough : safe → Enough n v newsz) :
    wp M (allocLoop d oldsz newsz n (v * PGSIZE)) (fun r t => ∃ l',
      Saves s t l l' (space s.mem d) (space t.mem d) ∧ (Guarded s.mem d → Guarded t.mem d) ∧
      (∀ i, present (word (t.mem d) i) → present (word (s.mem d) i) ∨ i * 2 ^ 22 < newsz) ∧
      (r = newsz → ∀ u < 2 ^ 20, v ≤ u → u * PGSIZE < newsz → pteFlags (pte t.mem d u) = userFlags) ∧
      (r = 0 ∧ Sets false s.mem t.mem d (fun u => oldsz ≤ u * PGSIZE ∧ u * PGSIZE < newsz) ∨
        r = newsz ∧ Sets true s.mem t.mem d (fun u => v ≤ u ∧ u * PGSIZE < newsz))) s := by
  induction n generalizing v s l with
  | zero => exact wp_fault (sm.other (fun yes => (enough yes).positive) (by decide))
  | succ n ih =>
    unfold allocLoop
    refine wp_ite (fun inside => ?_) (fun over' => ?_)
    · have low := page_low inside limit
      have some : newsz ≠ 0 := by omega
      refine wp_kalloc h.heap (X := space s.mem d) ?_ ?_
      · intro t mem moves
        rw [if_pos rfl]
        refine wp_seq (deallocuvm_spec sm (mem ▸ h.after moves.toMoves) limit) ?_
        rintro _ u ⟨l', further, shrinks, -⟩
        rw [mem] at further shrinks
        refine wp_pure ⟨l', moves.trans further, shrinks.guarded, fun i entry => Or.inl ?_,
          fun same => absurd same.symm some, Or.inl ⟨rfl, shrinks.toSets⟩⟩
        rwa [shrinks.dir] at entry
      · intro p t l' nonzero valid mem _ moves
        rw [if_neg nonzero]
        refine wp_install sm moves.heap (mem ▸ moves.nodup h.once) low valid.small
          (fun sized => mem ▸ free sized v low le_rfl) ?_ ?_ <;> rw [mem]
        · intro u l₁ further _ ptes tables
          rw [if_pos rfl, ← Nat.add_one_mul]
          have both := moves.trans further
          refine wp_mono (ih (h.after both.toMoves) ?_ (fun sized x hx above => ?_)
            fun yes => (enough yes).step inside (Nat.lt_succ_self v)) ?_
          · exact start.trans (Nat.mul_le_mul_right _ (Nat.le_succ v))
          · rw [ptes x (by omega), if_neg (by omega)]
            exact free sized x hx (by omega)
          rintro r w ⟨l₂, last, guarded, wider, flags, result⟩
          refine ⟨l₂, both.trans last, fun safe => guarded fun x hx user => ?_, fun i entry => ?_,
            fun done x hx above below => ?_, ?_⟩
          · rw [ptes x hx] at user
            split at user
            · omega
            · exact safe x hx user
          · rcases wider i entry with old | new
            · refine (tables i old).imp_right ?_
              rintro rfl
              exact table_below inside
            · exact Or.inr new
          · by_cases here : x = v
            · have kept := (result.resolve_left fun failed => some (done.symm.trans failed.1)).2.kept
              rw [kept x hx (by omega), ptes x hx, if_pos here, pteFlags_mkPte]
              rfl
            · exact flags done x hx (by omega) below
          · rcases result with ⟨rfl, cleared⟩ | ⟨rfl, set⟩
            · refine Or.inl ⟨rfl, cleared.after fun x hx outside => ?_⟩
              rw [ptes x hx, if_neg]
              rintro rfl
              exact outside ⟨start, inside⟩
            · refine Or.inr ⟨rfl, fun x hx outside => ?_, fun x hx range => ?_⟩
              · rw [set.kept x hx fun later => outside ⟨by omega, later.2⟩, ptes x hx, if_neg]
                rintro rfl
                exact outside ⟨le_rfl, inside⟩
              · by_cases here : x = v
                · rw [set.kept x hx (by omega), ptes x hx, if_pos here, present_mkPte]
                  simp [PTE_P]
                · exact set.set x hx ⟨by omega, range.2⟩
        · intro u l₁ further ptes tables
          rw [if_neg (by decide)]
          have both := moves.trans further
          have mine := h.after (both.toMoves.drop (Multiset.le_add_right (space u.mem d) {p}))
          refine wp_seq (deallocuvm_spec sm mine limit) ?_
          rintro _ w ⟨l₂, last, shrinks, -⟩
          have all := both.trans (last.frame {p})
          refine wp_seq (kfree_beside sm (h.after all.toMoves)) ?_
          rintro _ x ⟨freed, dir, same⟩
          refine wp_pure ⟨p :: l₂, all.trans freed, fun safe => ?_, fun i entry => ?_,
            fun zero => absurd zero.symm some, Or.inl ⟨rfl, ?_⟩⟩
          · intro y hy user
            rw [same y hy] at user
            refine shrinks.guarded (fun z hz => ?_) y hy user
            rw [ptes z hz]
            exact safe z hz
          · rw [dir, shrinks.dir] at entry
            refine (tables i entry).imp_right ?_
            rintro rfl
            exact table_below inside
          · refine ⟨fun y hy outside => ?_, fun y hy range => ?_⟩
            · rw [same y hy, shrinks.kept y hy outside, ptes y hy]
            · rw [same y hy]
              exact shrinks.set y hy range
    · refine wp_pure ⟨l, .refl h.heap _, id, fun _ => Or.inl, fun _ x _ above below => ?_,
        Or.inr ⟨rfl, fun _ _ _ => rfl, fun x _ range => ?_⟩⟩
      · exact absurd below (page_beyond over' above)
      · exact absurd range.2 (page_beyond over' range.1)

/- What is left of a failed allocuvm: entries from oldsz on may have been cleared. -/
def Rolled (m n : Nat → Bytes) (d oldsz : Nat) : Prop := ∀ v < 2 ^ 20,
  pte n d v = pte m d v ∨ oldsz ≤ v * PGSIZE ∧ v < 2 ^ 19 ∧ ¬ present (pte n d v)

theorem allocuvm_spec {oldsz newsz : Nat} (h : Holds safe s l (space s.mem d))
    (free : sized → ∀ v < 2 ^ 19, oldsz ≤ v * PGSIZE → ¬ present (pte s.mem d v)) :
    wp M (allocuvm d oldsz newsz) (fun r t => ∃ l',
      Saves s t l l' (space s.mem d) (space t.mem d) ∧ (Guarded s.mem d → Guarded t.mem d) ∧
      (∀ i, present (word (t.mem d) i) → present (word (s.mem d) i) ∨ i * 2 ^ 22 < newsz) ∧
      (r ≠ 0 → ∀ v < 2 ^ 20, oldsz ≤ v * PGSIZE → v * PGSIZE < newsz →
        pteFlags (pte t.mem d v) = userFlags) ∧
      (r = 0 ∧ Rolled s.mem t.mem d oldsz ∨ r = max oldsz newsz ∧ newsz < KERNBASE ∧
        Sets true s.mem t.mem d (fun v => oldsz ≤ v * PGSIZE ∧ v * PGSIZE < newsz))) s := by
  unfold allocuvm
  refine wp_ite (fun _ => wp_pure ⟨l, .refl h.heap _, id, fun _ => Or.inl, fun some => absurd rfl some,
    Or.inl ⟨rfl, fun _ _ => Or.inl rfl⟩⟩) (fun fits => ?_)
  refine wp_ite (fun less => ?_) (fun more => ?_)
  · refine wp_pure ⟨l, .refl h.heap _, id, fun _ => Or.inl, fun _ v _ above below => ?_,
      Or.inr ⟨(Nat.max_eq_left less.le).symm, by omega, fun _ _ _ => rfl, fun v _ range => ?_⟩⟩
    · omega
    · omega
  · rw [PGROUNDUP]
    refine wp_mono (allocLoop_spec sm h (by omega) (PGROUNDUP_le.mp le_rfl)
      (fun sized u hu above => free sized u hu (PGROUNDUP_le.mp above)) fun _ => enough_pages _ _) ?_
    rintro r t ⟨l', moves, guarded, tables, flags, result⟩
    refine ⟨l', moves, guarded, tables, fun some v hv above below => ?_, ?_⟩
    · rcases result with ⟨zero, -⟩ | ⟨full, -⟩
      · exact absurd zero some
      · exact flags full v hv (PGROUNDUP_le.mpr above) below
    rcases result with ⟨rfl, cleared⟩ | ⟨rfl, set⟩
    · refine Or.inl ⟨rfl, fun v hv => ?_⟩
      by_cases range : oldsz ≤ v * PGSIZE ∧ v * PGSIZE < newsz
      · refine Or.inr ⟨range.1, ?_, Bool.eq_false_iff.mp (cleared.set v hv range)⟩
        simp only [KERNBASE, PGSIZE] at fits range
        omega
      · exact Or.inl (cleared.kept v hv range)
    · simp only [PGROUNDUP_le] at set
      exact Or.inr ⟨(Nat.max_eq_right (by omega)).symm, by omega, set⟩

section Sizes
omit sm
variable {m n : Nat → Bytes} {sz newsz : Nat}

/- Two page tables that map the same pages. -/
def SameMap (m n : Nat → Bytes) (d : Nat) : Prop :=
  ∀ v < 2 ^ 20, present (pte n d v) ∨ present (pte m d v) → pte n d v = pte m d v

theorem Fits.free (h : Fits m d sz) (v : Nat) (low : v < 2 ^ 19) (above : sz ≤ v * PGSIZE) :
    ¬ present (pte m d v) := fun mapped => absurd ((h v low).mp mapped) (by omega)

theorem Fits.congr (h : Fits m d sz) (same : ∀ v < 2 ^ 19, present (pte n d v) = present (pte m d v)) :
    Fits n d sz := by
  intro v hv
  rw [same v hv]
  exact h v hv

theorem SameMap.fits (h : SameMap m n d) (fits : Fits m d sz) : Fits n d sz := by
  refine fits.congr fun v hv => Bool.eq_iff_iff.mpr ⟨fun mapped => ?_, fun mapped => ?_⟩
  · rwa [h v (by omega) (Or.inl mapped)] at mapped
  · rwa [h v (by omega) (Or.inr mapped)]

theorem Rolled.same (h : Rolled m n d sz) (fits : Fits m d sz) : SameMap m n d := by
  intro v hv mapped
  rcases h v hv with same | ⟨above, low, gone⟩
  · exact same
  · exact absurd mapped (not_or.mpr ⟨gone, fits.free v low above⟩)

theorem Fits.grow (h : Fits m d sz)
    (set : Sets true m n d (fun v => sz ≤ v * PGSIZE ∧ v * PGSIZE < newsz)) :
    Fits n d (max sz newsz) := by
  intro v hv
  by_cases range : sz ≤ v * PGSIZE ∧ v * PGSIZE < newsz
  · rw [set.set v (by omega) range]
    exact iff_of_true rfl (by omega)
  · rw [set.kept v (by omega) range, h v hv]
    omega

theorem Fits.shrink (h : Fits m d sz)
    (cleared : Sets false m n d (fun v => newsz ≤ v * PGSIZE ∧ v * PGSIZE < sz)) :
    Fits n d (min sz newsz) := by
  intro v hv
  by_cases range : newsz ≤ v * PGSIZE ∧ v * PGSIZE < sz
  · rw [cleared.set v (by omega) range]
    exact iff_of_false (by decide) (by omega)
  · rw [cleared.kept v (by omega) range, h v hv]
    omega

theorem SameMap.of_kept {b : Bool} {range : Nat → Prop} (h : Sets b m n d range)
    (empty : ∀ v, ¬ range v) : SameMap m n d := fun v hv _ => h.kept v hv (empty v)

/- allocuvm leaves a page table of size sz as it was, or one of the size it returns. -/
theorem Fits.alloc {r : Nat} (h : Fits m d sz) (result : r = 0 ∧ Rolled m n d sz ∨
      r = max sz newsz ∧ newsz < KERNBASE ∧
        Sets true m n d (fun v => sz ≤ v * PGSIZE ∧ v * PGSIZE < newsz)) :
    (r = 0 → SameMap m n d) ∧ (r ≠ 0 → Fits n d r) := by
  rcases result with ⟨rfl, rolled⟩ | ⟨rfl, -, set⟩
  · exact ⟨fun _ => rolled.same h, fun nonzero => absurd rfl nonzero⟩
  · refine ⟨fun zero => .of_kept set fun v range => ?_, fun _ => h.grow set⟩
    omega

/- And so does deallocuvm, unless it leaves no page of a process that had some. -/
theorem Fits.dealloc (h : Fits m d sz)
    (cleared : Sets false m n d (fun v => newsz ≤ v * PGSIZE ∧ v * PGSIZE < sz)) :
    (sz = 0 → SameMap m n d) ∧ Fits n d (min sz newsz) :=
  ⟨fun zero => .of_kept cleared fun v range => by omega, h.shrink cleared⟩

end Sizes

end Grow

end Xv6c.Mem
