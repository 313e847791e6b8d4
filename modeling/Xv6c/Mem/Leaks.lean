import Xv6c.Mem.Skip

/-! What is left of the pages when setupkvm, copyuvm or allocuvm runs out of them. -/
namespace Xv6c.Mem
open Lib

variable {s t : MemState} {d i p v src sz oldsz newsz : Nat} {l l' : List Nat} {M : Mode Freed Fault}

/- Every fault is admitted: what is said is said of the runs that end. -/
def anyFault : Mode Freed Fault := Mode.faults fun _ => True

theorem anyFault_safe : SafeMode anyFault False False :=
  ⟨fun _ _ _ => trivial, id, fun _ _ => trivial⟩

theorem Heap.unique {m : Kmem} (first : Heap m l) (second : Heap m l') : l = l' :=
  chain_unique first.chain second.chain

/- The tables of the kernel's half. -/
def kernelTables : Finset Nat := Finset.Ico 512 568 ∪ Finset.Ico 1016 1024

theorem mem_kernelTables : i ∈ kernelTables ↔ KernelIndex i := by
  simp only [kernelTables, Finset.mem_union, Finset.mem_Ico, KernelIndex]

theorem card_kernelTables : kernelTables.card = 64 := by
  rw [kernelTables, Finset.card_union_of_disjoint, Nat.card_Ico, Nat.card_Ico]
  refine Finset.disjoint_left.mpr fun i low high => ?_
  rw [Finset.mem_Ico] at low high
  omega

theorem absent_add_refs (b : Bytes) : absent b + (indices.filter fun i => present (word b i)).card = 1024 := by
  have all := Finset.card_filter_add_card_filter_not (s := indices) fun i => present (word b i) = true
  have count : indices.card = 1024 := by
    unfold indices
    exact Finset.card_range 1024
  unfold absent
  omega

/- A directory with the tables of the kernel's half, and with fewer. -/
theorem absent_kernel {b : Bytes} (only : ∀ i, present (word b i) → KernelIndex i)
    (all : ∀ i, KernelIndex i → present (word b i)) : absent b = 960 := by
  have tables : (indices.filter fun i => present (word b i)) = kernelTables := by
    ext i
    rw [Finset.mem_filter, mem_kernelTables, mem_indices]
    refine ⟨fun entry => only i entry.2, fun index => ⟨?_, all i index⟩⟩
    rcases index with low | high
    · omega
    · omega
  have total := absent_add_refs b
  rw [tables, card_kernelTables] at total
  omega

theorem absent_fewer {b : Bytes} (only : ∀ i, present (word b i) → KernelIndex i) (index : KernelIndex i)
    (missing : ¬ present (word b i)) : 961 ≤ absent b := by
  have tables : (indices.filter fun i => present (word b i)) ⊆ kernelTables.erase i := by
    intro j entry
    obtain ⟨-, entry⟩ := Finset.mem_filter.mp entry
    refine Finset.mem_erase.mpr ⟨?_, mem_kernelTables.mpr (only j entry)⟩
    rintro rfl
    exact missing entry
  have few := Finset.card_le_card tables
  rw [Finset.card_erase_of_mem (mem_kernelTables.mpr index), card_kernelTables] at few
  have total := absent_add_refs b
  omega

/- setupkvm takes a page for the directory and 64 for the tables, or there are not so many. -/
theorem setupkvm_draws (heap : Heap s.toKmem l) (once : l.Nodup) :
    wp anyFault setupkvm (fun r t => (r = 0 → supply s l < 65) ∧
      (r ≠ 0 → ∃ l', Heap t.toKmem l' ∧ supply t l' + 65 = supply s l)) s := by
  unfold setupkvm
  refine wp_seq (kalloc_draws heap) ?_
  rintro d t ⟨mem, ⟨rfl, empty, -⟩ | ⟨nonzero, l', rfl, rest, draws⟩⟩
  · rw [if_pos rfl]
    exact wp_pure ⟨fun _ => by omega, fun wrong => absurd rfl wrong⟩
  rw [if_neg nonzero]
  refine wp_modify_bind (wp_get_bind ?_)
  have blank : Function.update t.mem d zeros d = zeros := Function.update_self _ _ _
  have stock := stock_blank rest once
  have held : ((l' : Multiset Nat) + space (Function.update t.mem d zeros) d).Nodup := by
    rw [space_blank blank, Multiset.add_comm, Multiset.singleton_add, Multiset.cons_coe]
    exact Multiset.coe_nodup.mpr once
  have ranges := kmap_ranges rest.layout
  refine wp_seq (wp_and (mapKernel_spec anyFault_safe stock.heap held ranges fun u _ _ => pte_blank blank u)
    (mapKernel_draws stock trivial ranges)) ?_
  rintro done u ⟨⟨-, -, only, -, set⟩, l₁, k, grows, failed⟩
  have tables (i : Nat) (entry : present (word (u.mem d) i)) : KernelIndex i := by
    refine (only.tables i entry).resolve_left ?_
    dsimp only
    rw [blank, word_zeros]
    decide
  have fewer := grows.fewer
  dsimp only at fewer
  rw [blank, absent_zeros] at fewer
  have left : supply u l₁ + k = supply t l' := grows.draws.left
  have first := draws.left
  refine wp_ite (fun ok => wp_pure ⟨fun zero => absurd zero nonzero, fun _ => ⟨l₁, grows.stock.heap, ?_⟩⟩) (fun no => ?_)
  · have all (i : Nat) (index : KernelIndex i) : present (word (u.mem d) i) := by
      have page : i * 1024 < 2 ^ 20 ∧ 2 ^ 19 ≤ i * 1024 := by
        simp only [KernelIndex] at index
        omega
      have mapped : present (pte u.mem d (i * 1024)) := by
        rw [set ok _ page.1 page.2]
        refine kmapPte_kernel rest.layout ?_
        rwa [Nat.mul_div_cancel _ (by decide)]
      have entry := table_of_present mapped
      rwa [Nat.mul_div_cancel _ (by decide)] at entry
    have count := absent_kernel tables all
    omega
  · obtain ⟨empty, i, index, missing⟩ := failed (Bool.eq_false_iff.mpr no)
    have count := absent_fewer tables index missing
    refine wp_seq (wp_any _ u (fun _ => trivial) fun _ => trivial) fun _ w _ => wp_pure ⟨fun _ => ?_, fun wrong => absurd rfl wrong⟩
    omega

/- A page in hand is mapped at page v, or stays in hand where there is none for a table. -/
theorem install_counted {b : Bytes} {flags : BitVec 12} (heap : Heap s.toKmem l)
    (once : ((l : Multiset Nat) + (space s.mem d + {p})).Nodup) (low : v < 2 ^ 19) (small : p < 2 ^ 20) :
    wp anyFault (setPage p b >>= fun _ => mappages d (v * PGSIZE) PGSIZE p flags) (fun r t => ∃ l',
      (r = false ∧ Saves s t l l' (space s.mem d + {p}) (space t.mem d + {p}) ∧ supply s l = 0 ∧
        ¬ present (word (s.mem d) (v / 1024))) ∨
      (r = true ∧ Saves s t l l' (space s.mem d + {p}) (space t.mem d) ∧
        supply t l' + lacks (s.mem d) (v / 1024) = supply s l ∧
        ∀ i, present (word (t.mem d) i) ↔ present (word (s.mem d) i) ∨ i = v / 1024)) s := by
  have bare : ((l : Multiset Nat) + space s.mem d).Nodup := by
    rw [← add_assoc] at once
    exact (Multiset.nodup_add.mp once).1
  have stock := stock_of_once heap bare
  obtain ⟨-, held, apart⟩ := Multiset.nodup_add.mp once
  have used : p ∉ l := fun free => Multiset.disjoint_left.mp apart (Multiset.mem_coe.mpr free) (by simp)
  have other : p ≠ d := by
    rintro rfl
    exact held_apart held (show p ∈ space s.mem p by simp [space]) (by simp)
  have pages : wp anyFault (setPage p b >>= fun _ => mappages d (v * PGSIZE) PGSIZE p flags) (fun r t => ∃ l',
      (r = false → Saves s t l l' (space s.mem d + {p}) (space t.mem d + {p})) ∧
      (r = true → Saves s t l l' (space s.mem d + {p}) (space t.mem d)) ∧
      ∀ i, present (word (t.mem d) i) → present (word (s.mem d) i) ∨ i = v / 1024) s := by
    have whole : (setPage p b >>= fun _ => mappages d (v * PGSIZE) PGSIZE p flags) =
        setPage p b >>= fun _ => mappages d (v * PGSIZE) PGSIZE p flags >>= pure := by simp only [bind_pure]
    rw [whole]
    refine wp_install anyFault_safe heap once low small False.elim (fun t l' saves _ _ tables => ?_)
      (fun t l' saves _ tables => ?_)
    · exact wp_pure ⟨l', by simp, fun _ => saves, tables⟩
    · exact wp_pure ⟨l', fun _ => saves, by simp, tables⟩
  refine wp_mono (wp_and pages (install_draws stock trivial other used (show v < 2 ^ 20 by omega))) ?_
  rintro r t ⟨⟨l₁, no, yes, tables⟩, l₂, ⟨rfl, grows, empty, missing⟩ | ⟨rfl, entry, grows⟩⟩
  · refine ⟨l₁, Or.inl ⟨rfl, no rfl, ?_, missing⟩⟩
    have left := grows.draws.left
    omega
  · have saves := yes rfl
    refine ⟨l₁, Or.inr ⟨rfl, saves, ?_, fun i => ⟨tables i, fun old => ?_⟩⟩⟩
    · rw [saves.heap.unique grows.stock.heap]
      exact grows.draws.left
    · rcases old with old | rfl
      · exact grows.kept i old
      · exact entry

/- The pages that copyuvm has taken when its loop comes to page v: those below and their tables. -/
def takenBefore (v : Nat) : Nat := v + (v + 1023) / 1024

/- The loop of copyuvm from page v on. It fails for want of a page to copy to, and all pages are
accounted for, or for want of a page for a table, and the page copied to is lost. -/
theorem copyLoop_draws {n : Nat} (heap : Heap s.toKmem l) (once : ((l : Multiset Nat) + space s.mem d).Nodup)
    (limit : sz ≤ KERNBASE) (tables : ∀ i < 512, present (word (s.mem d) i) ↔ i * 1024 < v) :
    wp anyFault (copyLoop src d sz n (v * PGSIZE)) (fun r t =>
      ((r = true ∨ ∃ l', Saves s t l l' (space s.mem d) (space t.mem d)) ∧
        ∀ k, k * 2 ^ 22 < sz → supply s l + takenBefore v ≠ 1025 * k + 1) ∨
      (r = false ∧ ∃ l' p, Saves s t l l' (space s.mem d) (space t.mem d + {p})) ∧
        ∃ k, k * 2 ^ 22 < sz ∧ supply s l + takenBefore v = 1025 * k + 1) s := by
  induction n generalizing v s l with
  | zero => exact wp_fault trivial
  | succ n ih =>
    unfold copyLoop
    refine wp_ite (fun inside => ?_) (fun over' => wp_pure (Or.inl ⟨Or.inl rfl, fun k below => ?_⟩))
    swap
    · simp only [takenBefore, PGSIZE] at over' ⊢
      omega
    have low := page_low inside limit
    refine wp_lookup (fun _ => wp_fault trivial) (fun _ => wp_get_bind (wp_ite (fun _ => wp_fault trivial) fun _ => ?_))
    refine wp_seq (wp_and (kalloc_spec heap) (kalloc_draws heap)) ?_
    rintro p t ⟨⟨mem, saved⟩, -, ⟨rfl, empty, -⟩ | ⟨nonzero, l', rfl, rest, draws⟩⟩
    · rw [if_pos rfl]
      have saves := (saved.resolve_right fun wrong => wrong.1 rfl).2.frame (space s.mem d)
      rw [zero_add] at saves
      refine wp_pure (Or.inl ⟨Or.inr ⟨l, mem ▸ saves⟩, fun k _ => ?_⟩)
      simp only [takenBefore]
      omega
    · rw [if_neg nonzero, ← bind_assoc]
      obtain ⟨-, l'', same, saves⟩ := saved.resolve_left fun wrong => nonzero wrong.1
      obtain rfl := (List.cons.inj same).2
      have taken := saves.frame (space s.mem d)
      rw [zero_add, add_comm, ← mem] at taken
      have left := draws.left
      have small := (heap.range p List.mem_cons_self).small
      refine wp_seq (install_counted taken.heap (taken.nodup (mem ▸ once)) low small) ?_
      rintro _ u ⟨l₁, ⟨rfl, further, empty, missing⟩ | ⟨rfl, further, count, entries⟩⟩
      · rw [if_neg (by decide)]
        refine wp_pure (Or.inr ⟨⟨rfl, l₁, p, mem ▸ taken.trans further⟩, v / 1024, table_below inside, ?_⟩)
        rw [mem, tables _ (by omega)] at missing
        simp only [takenBefore]
        omega
      · rw [if_pos rfl, ← Nat.add_one_mul]
        have both := taken.trans further
        rw [mem] at both count entries
        have next (i : Nat) (index : i < 512) : present (word (u.mem d) i) ↔ i * 1024 < v + 1 := by
          rw [entries i, tables i index]
          omega
        have total : supply u l₁ + takenBefore (v + 1) = supply s (p :: l') + takenBefore v := by
          have here := tables (v / 1024) (by omega)
          simp only [lacks, here] at count
          simp only [takenBefore]
          split at count <;> omega
        refine wp_mono (ih both.heap (both.nodup once) next) ?_
        rw [total]
        rintro r w (⟨ok | ⟨l₂, last⟩, other⟩ | ⟨⟨no, l₂, p', last⟩, short⟩)
        · exact Or.inl ⟨Or.inl ok, other⟩
        · exact Or.inl ⟨Or.inr ⟨l₂, both.trans last⟩, other⟩
        · exact Or.inr ⟨⟨no, l₂, p', both.trans last⟩, short⟩

/- kalloc has its last page for the copy of page 1024 * k, and none for the table of that page.
Before come the directory, the kernel's tables and k times 1024 pages with their table. -/
def EndsAtTable (s : MemState) (l : List Nat) (sz : Nat) : Prop := ∃ k, k * 2 ^ 22 < sz ∧ supply s l = 66 + 1025 * k

theorem copyuvm_draws (heap : Heap s.toKmem l) (once : l.Nodup) (limit : sz ≤ KERNBASE) :
    wp anyFault (copyuvm src sz) (fun r t => (r ≠ 0 → 65 ≤ supply s l ∧ ¬ EndsAtTable s l sz) ∧
      (r = 0 → ∃ l', Heap t.toKmem l' ∧
        ((l' : Multiset Nat) = l ∧ ¬ EndsAtTable s l sz ∨ (∃ p, (l' : Multiset Nat) + {p} = l) ∧ EndsAtTable s l sz))) s := by
  have bare : ((l : Multiset Nat) + 0).Nodup := by rwa [add_zero, Multiset.coe_nodup]
  unfold copyuvm
  refine wp_seq (wp_and (setupkvm_spec anyFault_safe heap (Multiset.coe_nodup.mpr once)) (setupkvm_draws heap once)) ?_
  rintro d t ⟨⟨l', ⟨rfl, saves⟩ | ⟨nonzero, saves, kernel, -⟩⟩, few, many⟩
  · rw [if_pos rfl]
    have few := few rfl
    refine wp_pure ⟨fun wrong => absurd rfl wrong, fun _ => ⟨l', saves.heap, Or.inl ⟨by simpa using saves.all, ?_⟩⟩⟩
    rintro ⟨k, -, short⟩
    omega
  rw [if_neg nonzero]
  obtain ⟨l₁, heap₁, count⟩ := many nonzero
  obtain rfl := saves.heap.unique heap₁
  have tables (i : Nat) (index : i < 512) : present (word (t.mem d) i) ↔ i * 1024 < 0 := by
    refine ⟨fun entry => ?_, fun wrong => absurd wrong (Nat.not_lt_zero _)⟩
    have high := kernel.tables i entry
    simp only [KernelIndex] at high
    omega
  have loop : wp anyFault (copyLoop src d sz (sz / PGSIZE + 2) (0 * PGSIZE)) _ t :=
    copyLoop_draws saves.heap (saves.nodup bare) limit tables
  rw [Nat.zero_mul] at loop
  have short (k : Nat) : supply t l' + takenBefore 0 = 1025 * k + 1 ↔ supply s l = 66 + 1025 * k := by
    simp only [takenBefore]
    omega
  refine wp_seq loop ?_
  rintro (_ | _) u result
  · rw [if_neg (by decide)]
    rcases result with ⟨kept, other⟩ | ⟨⟨-, l₂, p, further⟩, k, below, ends⟩
    · obtain ⟨l₂, further⟩ := kept.resolve_left (by decide)
      have both := saves.trans further
      refine wp_seq (freevm_spec anyFault_safe ⟨both.heap, both.nodup bare, False.elim⟩) ?_
      rintro _ w ⟨l₃, last⟩
      refine wp_pure ⟨fun wrong => absurd rfl wrong, fun _ => ⟨l₃, last.heap, Or.inl ⟨?_, ?_⟩⟩⟩
      · simpa using (both.trans last).all
      · rintro ⟨k, below, ends⟩
        exact other k below ((short k).mpr ends)
    · have both := saves.trans further
      have held := both.nodup bare
      rw [← add_assoc] at held
      refine wp_seq (freevm_spec anyFault_safe ⟨both.heap, (Multiset.nodup_add.mp held).1, False.elim⟩) ?_
      rintro _ w ⟨l₃, last⟩
      refine wp_pure ⟨fun wrong => absurd rfl wrong, fun _ => ⟨l₃, last.heap, Or.inr ⟨⟨p, ?_⟩, k, below, (short k).mp ends⟩⟩⟩
      simpa using (both.trans (last.frame {p})).all
  · rw [if_pos rfl]
    have other := (result.resolve_right fun wrong => absurd wrong.1.1 (by decide)).2
    refine wp_pure ⟨fun _ => ⟨by omega, ?_⟩, fun zero => absurd zero nonzero⟩
    rintro ⟨k, below, ends⟩
    exact other k below ((short k).mpr ends)

/- The copy of a memory whose pages are all there ends, and loses a page just when kalloc's pages
end at a table. -/
theorem copyuvm_counted (heap : Heap s.toKmem l) (once : l.Nodup) (small : sz < KERNBASE)
    (mapped : ∀ v, v * PGSIZE < sz → present (pte s.mem src v)) (apart : ∀ q ∈ space s.mem src, q ∉ l) :
    ∃ r t l', (copyuvm src sz s).2 = .ok (r, t) ∧ Heap t.toKmem l' ∧
      (r ≠ 0 ∧ 65 ≤ supply s l ∧ ¬ EndsAtTable s l sz ∨ r = 0 ∧ l'.Perm l ∧ ¬ EndsAtTable s l sz ∨
        r = 0 ∧ l'.length + 1 = l.length ∧ EndsAtTable s l sz) := by
  have beside : ∀ q ∈ {src} + refs (s.mem src), q ∉ (l : Multiset Nat) + 0 := by
    intro q table
    rw [add_zero, Multiset.mem_coe]
    exact apart q (mem_space_of_tables table)
  obtain ⟨r, t, ended, l', result⟩ := wp_sure (copyuvm_spec sure_safe heap (Multiset.coe_nodup.mpr once) small.le
    (fun _ v _ => mapped v) fun _ => beside) (fun _ => trivial) (fun _ => id)
  obtain ⟨made, failed⟩ := wp_value (copyuvm_draws heap once small.le) (fun _ => trivial) ended
  rcases result with ⟨rfl, -⟩ | ⟨nonzero, moves, -⟩
  · obtain ⟨l₁, heap₁, ⟨same, other⟩ | ⟨⟨p, lost⟩, short⟩⟩ := failed rfl
    · exact ⟨0, t, l₁, ended, heap₁, Or.inr (Or.inl ⟨rfl, Multiset.coe_eq_coe.mp same, other⟩)⟩
    · have count := congrArg Multiset.card lost
      rw [Multiset.card_add, Multiset.card_singleton, Multiset.coe_card, Multiset.coe_card] at count
      exact ⟨0, t, l₁, ended, heap₁, Or.inr (Or.inr ⟨rfl, count, short⟩)⟩
  · exact ⟨r, t, l', ended, moves.heap, Or.inl ⟨nonzero, made nonzero⟩⟩

/- What a failed allocuvm leaves. -/
theorem allocuvm_fails (heap : Heap s.toKmem l) (once : ((l : Multiset Nat) + space s.mem d).Nodup)
    (small : newsz < KERNBASE) :
    wp anyFault (allocuvm d oldsz newsz) (fun r t => r = 0 → ∃ l', Saves s t l l' (space s.mem d) (space t.mem d) ∧
      Sets false s.mem t.mem d (fun v => oldsz ≤ v * PGSIZE ∧ v * PGSIZE < newsz)) s := by
  unfold allocuvm
  rw [if_neg (by omega)]
  refine wp_ite (fun less => wp_pure fun zero => by omega) (fun _ => ?_)
  rw [PGROUNDUP]
  refine wp_mono (allocLoop_spec anyFault_safe ⟨heap, once, False.elim⟩ small.le (PGROUNDUP_le.mp le_rfl)
    False.elim False.elim) ?_
  rintro r t ⟨l', saves, -, -, -, result⟩ rfl
  refine ⟨l', saves, ?_⟩
  rcases result with ⟨-, cleared⟩ | ⟨rfl, set⟩
  · exact cleared
  · exact ⟨fun v hv _ => set.kept v hv (by omega), fun v _ range => by omega⟩

theorem exists_of_mem_users {m : Nat → Bytes} {q : Nat} (user : q ∈ users m d) :
    ∃ v < 2 ^ 19, present (pte m d v) ∧ ptePage (pte m d v) = q := by
  obtain ⟨i, low, inside⟩ := Multiset.mem_sum.mp user
  have row := mem_lower.mp low
  split at inside
  · rename_i entry
    obtain ⟨j, index, here⟩ := Multiset.mem_sum.mp inside
    have column := mem_indices.mp index
    have found : pte m d (i * 1024 + j) = word (m (ptePage (word (m d) i))) j := by
      rw [pte, show (i * 1024 + j) / 1024 = i by omega, show (i * 1024 + j) % 1024 = j by omega, if_pos entry]
    refine ⟨i * 1024 + j, by omega, ?_⟩
    rw [found]
    unfold single at here
    split at here
    · exact ⟨‹_›, (Multiset.mem_singleton.mp here).symm⟩
    · exact absurd here (Multiset.notMem_zero q)
  · exact absurd inside (Multiset.notMem_zero q)

/-- What a failure leaves of the pages. setupkvm gives back all it took. So does copyuvm, unless
the pages run out at a table. allocuvm leaves mapped what was mapped, if nothing was mapped where
it began to map, and each page it took is free again or a table. -/
theorem failures_account (heap : Heap s.toKmem l) (once : l.Nodup) :
    (∃ r t l', (setupkvm s).2 = .ok (r, t) ∧ Heap t.toKmem l' ∧ (r = 0 → l'.Perm l)) ∧
    (∀ src sz, sz < KERNBASE → (∀ v, v * PGSIZE < sz → present (pte s.mem src v)) →
      (∀ q ∈ space s.mem src, q ∉ l) →
      ∃ r t l', (copyuvm src sz s).2 = .ok (r, t) ∧ Heap t.toKmem l' ∧
        ((r = 0 → l'.Perm l) ↔ ¬ EndsAtTable s l sz)) ∧
    ∀ d oldsz newsz t, newsz < KERNBASE → ((l : Multiset Nat) + space s.mem d).Nodup →
      (allocuvm d oldsz newsz s).2 = .ok (0, t) →
      ∃ l', Heap t.toKmem l' ∧ (∀ q ∈ l, q ∈ l' ∨ q ∈ refs (t.mem d)) ∧
        (SameMap s.mem t.mem d ↔ ∀ v, oldsz ≤ v * PGSIZE → v * PGSIZE < newsz → ¬ present (pte s.mem d v)) := by
  refine ⟨?_, fun src sz small mapped apart => ?_, fun d oldsz newsz t small held ended => ?_⟩
  · obtain ⟨r, t, ended, l', result⟩ := wp_sure (setupkvm_spec sure_safe heap (Multiset.coe_nodup.mpr once))
      (fun _ => trivial) (fun _ => id)
    rcases result with ⟨rfl, saves⟩ | ⟨nonzero, saves, -⟩
    · refine ⟨0, t, l', ended, saves.heap, fun _ => Multiset.coe_eq_coe.mp ?_⟩
      simpa using saves.all
    · exact ⟨r, t, l', ended, saves.heap, fun zero => absurd zero nonzero⟩
  · obtain ⟨r, t, l', ended, heap', result⟩ := copyuvm_counted heap once small mapped apart
    refine ⟨r, t, l', ended, heap', ?_⟩
    rcases result with ⟨nonzero, -, other⟩ | ⟨zero, same, other⟩ | ⟨zero, count, short⟩
    · exact iff_of_true (fun zero => absurd zero nonzero) other
    · exact iff_of_true (fun _ => same) other
    · refine iff_of_false (fun kept => ?_) (fun other => other short)
      have length := (kept zero).length_eq
      omega
  · obtain ⟨l', saves, cleared⟩ := wp_value (allocuvm_fails heap held small) (fun _ => trivial) ended rfl
    refine ⟨l', saves.heap, fun q free => ?_, fun same v above below mapped => ?_, fun blank v hv mapped => ?_⟩
    · have outside : q ∉ space s.mem d := fun inside =>
        held_apart held (Multiset.mem_coe.mpr free) inside
      have inside : q ∈ (l' : Multiset Nat) + space t.mem d := by
        rw [saves.all]
        exact Multiset.mem_add.mpr (Or.inl (Multiset.mem_coe.mpr free))
      simp only [space, Multiset.mem_add, Multiset.mem_singleton, Multiset.mem_coe] at inside
      rcases inside with again | ((rfl | table) | user)
      · exact Or.inl again
      · exact absurd (by simp [space]) outside
      · exact Or.inr table
      -- a page that is mapped now was mapped before, since the new ones are cleared
      · obtain ⟨v, low, mapped, rfl⟩ := exists_of_mem_users user
        have old : pte t.mem d v = pte s.mem d v := by
          refine cleared.kept v (by omega) fun range => ?_
          rw [cleared.set v (by omega) range] at mapped
          cases mapped
        rw [old] at mapped outside
        exact absurd (mem_space_of_users (mem_users low mapped)) outside
    · have low : v < 2 ^ 20 := by
        simp only [PGSIZE, KERNBASE] at below small
        omega
      have kept := same v low (Or.inr mapped)
      rw [← kept, cleared.set v low ⟨above, below⟩] at mapped
      cases mapped
    · refine cleared.kept v hv fun range => ?_
      rcases mapped with new | old
      · rw [cleared.set v hv range] at new
        cases new
      · exact blank v range.1 range.2 old

/- The parent in a container with room for some pages more. -/
def limitedMem (room : Nat) : MemState := { parentMem with msz := (1026 + room) * PGSIZE }

theorem limitedMem_apart {q : Nat} (inside : q ∈ space parentMem.mem 0x202) : q ∉ List.range' 768 2100 := fun free =>
  held_apart parentMem_once (Multiset.mem_coe.mpr free) inside

theorem limitedMem_mapped {v : Nat} (below : v * PGSIZE < PGSIZE) : present (pte parentMem.mem 0x202 v) :=
  parentMem_mapped (below.trans (by decide))

/- With room for 66 pages, the last one is copied to, and there is none for its table. -/
theorem copyuvm_loses_page : ∃ t l', (copyuvm 0x202 PGSIZE (limitedMem 66)).2 = .ok (0, t) ∧
    Heap (limitedMem 66).toKmem (List.range' 768 2100) ∧ Heap t.toKmem l' ∧
    l'.length + 1 = (List.range' 768 2100).length := by
  have short : EndsAtTable (limitedMem 66) (List.range' 768 2100) PGSIZE := ⟨0, by decide, by decide +kernel⟩
  obtain ⟨r, t, l', ended, heap, result⟩ := copyuvm_counted (s := limitedMem 66) parentMem_heap List.nodup_range'
    (show PGSIZE < KERNBASE by decide) (fun v => limitedMem_mapped) fun q => limitedMem_apart
  rcases result with ⟨-, -, other⟩ | ⟨-, -, other⟩ | ⟨rfl, count, -⟩
  · exact absurd short other
  · exact absurd short other
  · exact ⟨t, l', ended, parentMem_heap, heap, count⟩

/- With room for 10 pages setupkvm fails, and all pages are free again. -/
theorem failures_account_early : ∃ t l', (copyuvm 0x202 PGSIZE (limitedMem 10)).2 = .ok (0, t) ∧ Heap t.toKmem l' ∧
    l'.Perm (List.range' 768 2100) := by
  have few : supply (limitedMem 10) (List.range' 768 2100) = 10 := by decide +kernel
  obtain ⟨r, t, l', ended, heap, kept⟩ := (failures_account (s := limitedMem 10) parentMem_heap List.nodup_range').2.1
    0x202 PGSIZE (by decide) (fun v => limitedMem_mapped) fun q => limitedMem_apart
  have zero : r = 0 := by
    by_contra nonzero
    have many := (wp_value (copyuvm_draws (s := limitedMem 10) parentMem_heap List.nodup_range' (by decide))
      (fun _ => trivial) ended).1 nonzero
    omega
  subst zero
  refine ⟨t, l', ended, heap, kept.mpr ?_ rfl⟩
  rintro ⟨k, -, short⟩
  omega

end Xv6c.Mem
