import Xv6c.Mem.Copy

/-! Counting pages: how many kalloc hands out in a row, and how many of them a page table takes
for the tables that it is missing. -/
namespace Xv6c.Mem
open Lib
open Function (update update_of_ne update_self)

/- The entries of a directory without a table. -/
def absent (b : Bytes) : Nat := (indices.filter fun i => ¬ present (word b i)).card

/- The tables that entry i is missing: one or none. -/
def lacks (b : Bytes) (i : Nat) : Nat := if present (word b i) then 0 else 1

variable {s t u : MemState} {d i j k p v : Nat} {l l' l'' : List Nat} {M : Mode Freed Fault}

theorem absent_zeros : absent zeros = 1024 := by
  unfold absent indices
  simp

/- An entry that was not there is set. -/
theorem absent_setWord {b : Bytes} {w : BitVec 32} (index : i < 1024)
    (missing : ¬ present (word b i)) (valid : present w) : absent (setWord b i w) + 1 = absent b := by
  have member : i ∈ indices.filter fun j => ¬ present (word b j) :=
    Finset.mem_filter.mpr ⟨mem_indices.mpr index, missing⟩
  have rest : (indices.filter fun j => ¬ present (word (setWord b i w) j)) =
      (indices.filter fun j => ¬ present (word b j)).erase i := by
    ext j
    simp only [Finset.mem_filter, Finset.mem_erase, word_setWord]
    by_cases same : j = i
    · simp [same, valid]
    · simp [same]
  unfold absent
  rw [rest, Finset.card_erase_add_one member]

/- The number of pages that kalloc hands out in a row when upg pages are charged and l is the
free list. -/
def supplyFrom (msz : Nat) : Nat → List Nat → Nat
  | _, [] => 0
  | upg, _ :: l => if msz < (upg * PGSIZE + PGSIZE) % 2 ^ 32 then 0 else supplyFrom msz (upg + 1) l + 1

def supply (s : MemState) (l : List Nat) : Nat := supplyFrom s.msz s.upg l

theorem supplyFrom_covers {msz upg n : Nat} (pages : n ≤ l.length) (account : (upg + n) * PGSIZE ≤ msz)
    (limit : msz < 2 ^ 32) : n ≤ supplyFrom msz upg l := by
  induction n generalizing upg l with
  | zero => exact Nat.zero_le _
  | succ n ih =>
    cases l with
    | nil => exact absurd pages (Nat.not_succ_le_zero n)
    | cons p l =>
      have room : ¬ msz < (upg * PGSIZE + PGSIZE) % 2 ^ 32 := by
        simp only [PGSIZE] at account ⊢
        omega
      rw [supplyFrom, if_neg room]
      refine Nat.succ_le_succ (ih (Nat.le_of_succ_le_succ pages) ?_)
      rwa [show upg + 1 + n = upg + (n + 1) by omega]

/- k pages are taken from the free list. -/
structure Draws (s t : MemState) (l l' : List Nat) (k : Nat) : Prop where
  msz : t.msz = s.msz
  upg : t.upg = s.upg + k
  taken : l'.length + k = l.length
  left : supply t l' + k = supply s l

theorem Draws.refl (s : MemState) (l : List Nat) : Draws s s l l 0 := ⟨rfl, rfl, rfl, rfl⟩

theorem Draws.trans (first : Draws s t l l' j) (second : Draws t u l' l'' k) : Draws s u l l'' (j + k) where
  msz := second.msz.trans first.msz
  upg := by rw [second.upg, first.upg, Nat.add_assoc]
  taken := by rw [← first.taken, ← second.taken, Nat.add_comm j, Nat.add_assoc]
  left := by rw [← first.left, ← second.left, Nat.add_comm j, Nat.add_assoc]

theorem Draws.write (h : Draws s t l l' k) (n : Nat → Bytes) : Draws s { t with mem := n } l l' k :=
  { h with }

theorem kalloc_draws (heap : Heap s.toKmem l) :
    wp M kalloc (fun p t => t.mem = s.mem ∧
      (p = 0 ∧ supply s l = 0 ∧ Heap t.toKmem l ∧ Draws s t l l 0 ∨
        p ≠ 0 ∧ ∃ l', l = p :: l' ∧ Heap t.toKmem l' ∧ Draws s t l l' 1)) s := by
  obtain ⟨chain, range, layout⟩ := heap
  unfold kalloc
  refine wp_get_bind (wp_ite (fun full => ?_) (fun room => wp_ite (fun none => ?_) (fun some => ?_)))
  · refine wp_modify_bind (wp_pure ⟨rfl, Or.inl ⟨rfl, ?_, ⟨chain, range, layout⟩, ⟨rfl, rfl, rfl, rfl⟩⟩⟩)
    cases l with
    | nil => rfl
    | cons q l => rw [supply, supplyFrom, if_pos full]
  · refine wp_pure ⟨rfl, Or.inl ⟨rfl, ?_, ⟨chain, range, layout⟩, .refl s l⟩⟩
    cases l with
    | nil => rfl
    | cons q l => exact absurd (chain.1.symm.trans none) chain.2.1
  · refine wp_modify_bind (wp_pure ⟨rfl, Or.inr ⟨some, ?_⟩⟩)
    cases l with
    | nil => exact absurd chain some
    | cons q l =>
      obtain ⟨head, -, rest⟩ := chain
      refine ⟨l, by rw [head], ⟨?_, fun p hp => range p (List.mem_cons_of_mem _ hp), layout⟩, rfl, rfl, rfl, ?_⟩
      · simpa only [head] using rest
      · rw [supply, supply, supplyFrom, if_neg room]

/- A directory d beside the free list: neither it nor its tables are free. -/
structure Stock (s : MemState) (d : Nat) (l : List Nat) : Prop where
  heap : Heap s.toKmem l
  once : l.Nodup
  apart : d ∉ l
  tables : ∀ i < 1024, present (word (s.mem d) i) →
    ptePage (word (s.mem d) i) ≠ d ∧ ptePage (word (s.mem d) i) ∉ l

theorem stock_of_once (heap : Heap s.toKmem l) (once : ((l : Multiset Nat) + space s.mem d).Nodup) : Stock s d l := by
  obtain ⟨first, -, apart⟩ := Multiset.nodup_add.mp once
  refine ⟨heap, Multiset.coe_nodup.mp first, fun free => ?_, fun i index entry => ⟨?_, fun free => ?_⟩⟩
  · exact Multiset.disjoint_left.mp apart (Multiset.mem_coe.mpr free) (by simp [space])
  · exact table_ne_dir (dir_once once) index entry
  · exact Multiset.disjoint_left.mp apart (Multiset.mem_coe.mpr free) (by simp [space, mem_refs index entry])

/- A page that was taken becomes an empty directory. -/
theorem stock_blank (heap : Heap t.toKmem l) (once : (d :: l).Nodup) :
    Stock { t with mem := update t.mem d zeros } d l := by
  obtain ⟨fresh, rest⟩ := List.nodup_cons.mp once
  refine ⟨⟨chain_congr (fun q free => update_of_ne ?_ _ _) heap.chain, heap.range, heap.layout⟩, rest, fresh, ?_⟩
  · rintro rfl
    exact fresh free
  · dsimp only
    rw [update_self]
    intro i _ entry
    rw [word_zeros] at entry
    exact absurd entry (by decide)

/- A write outside of the free list and the directory. -/
theorem Stock.write {b : Bytes} (h : Stock s d l) (other : p ≠ d) (used : p ∉ l) :
    Stock { s with mem := update s.mem p b } d l := by
  have same : update s.mem p b d = s.mem d := update_of_ne (Ne.symm other) _ _
  refine ⟨⟨chain_congr (fun q free => update_of_ne ?_ _ _) h.heap.chain, h.heap.range, h.heap.layout⟩,
    h.once, h.apart, ?_⟩
  · rintro rfl
    exact used free
  · dsimp only
    rw [same]
    exact h.tables

/- The first page of the free list is taken. -/
theorem Stock.rest (h : Stock s d (p :: l)) (heap : Heap t.toKmem l) (mem : t.mem = s.mem) : Stock t d l := by
  refine ⟨heap, (List.nodup_cons.mp h.once).2, fun free => h.apart (List.mem_cons_of_mem _ free), ?_⟩
  rw [mem]
  intro i index entry
  obtain ⟨other, used⟩ := h.tables i index entry
  exact ⟨other, fun free => used (List.mem_cons_of_mem _ free)⟩

/- It becomes the table of entry i. -/
theorem Stock.grow {b : Bytes} {flags : BitVec 12} (h : Stock s d (p :: l)) (heap : Heap t.toKmem l)
    (mem : t.mem = s.mem) :
    Stock { t with
      mem := update (update t.mem p b) d
        (setWord (update t.mem p b d) i (mkPte p flags)) } d l := by
  have away : d ≠ p := fun same => h.apart (same ▸ List.mem_cons_self)
  have fresh : p ∉ l := (List.nodup_cons.mp h.once).1
  have rest := h.rest heap mem
  have small : p < 2 ^ 20 := (h.heap.range p List.mem_cons_self).small
  have directory : update t.mem p b d = t.mem d := update_of_ne away _ _
  refine ⟨⟨chain_congr (fun q free => ?_) heap.chain, heap.range, heap.layout⟩, rest.once, rest.apart, ?_⟩
  · have other : q ≠ d := fun same => rest.apart (same ▸ free)
    have old : q ≠ p := fun same => fresh (same ▸ free)
    dsimp only
    rw [update_of_ne other, update_of_ne old]
  · dsimp only
    rw [update_self, directory]
    intro j bound entry
    rw [word_setWord] at entry ⊢
    by_cases same : j = i
    · rw [if_pos same, ptePage_mkPte _ small]
      exact ⟨Ne.symm away, fresh⟩
    · rw [if_neg same] at entry ⊢
      exact rest.tables j bound entry

/- A page table grows by k tables, which are taken from the free list. -/
structure Grows (s t : MemState) (d : Nat) (l l' : List Nat) (k : Nat) : Prop where
  stock : Stock t d l'
  draws : Draws s t l l' k
  fewer : absent (t.mem d) + k = absent (s.mem d)
  kept : ∀ i, present (word (s.mem d) i) → present (word (t.mem d) i)

theorem Grows.refl (h : Stock s d l) : Grows s s d l l 0 := ⟨h, .refl s l, rfl, fun _ => id⟩

theorem Grows.trans (first : Grows s t d l l' j) (second : Grows t u d l' l'' k) : Grows s u d l l'' (j + k) where
  stock := second.stock
  draws := first.draws.trans second.draws
  fewer := by rw [← first.fewer, ← second.fewer, Nat.add_comm j, Nat.add_assoc]
  kept i entry := second.kept i (first.kept i entry)

/- walkpgdir finds the table, or makes it. It fails where kalloc has no page for it. -/
theorem walk_draws (h : Stock s d l) (va : Nat) :
    wp M (walkpgdir d va true) (fun r t => ∃ l',
      (r = none ∧ Grows s t d l l' 0 ∧ supply t l' = 0 ∧ ¬ present (word (t.mem d) (PDX va))) ∨
      ∃ p, r = some (p, PTX va) ∧ p ≠ d ∧ p ∉ l' ∧ present (word (t.mem d) (PDX va)) ∧
        Grows s t d l l' (lacks (s.mem d) (PDX va))) s := by
  have index : PDX va < 1024 := Nat.mod_lt _ (by decide)
  unfold walkpgdir
  refine wp_get_bind ?_
  by_cases here : present (word (s.mem d) (PDX va))
  · rw [if_pos here]
    obtain ⟨other, used⟩ := h.tables _ index here
    refine wp_pure ⟨l, Or.inr ⟨_, rfl, other, used, here, ?_⟩⟩
    rw [lacks, if_pos here]
    exact .refl h
  · rw [if_neg here, if_neg (by decide)]
    refine wp_seq (kalloc_draws h.heap) ?_
    rintro r t ⟨mem, ⟨rfl, empty, heap, draws⟩ | ⟨nonzero, l', rfl, heap, draws⟩⟩
    · rw [if_pos rfl]
      refine wp_pure ⟨l, Or.inl ⟨rfl, ⟨⟨heap, h.once, h.apart, mem ▸ h.tables⟩, draws, ?_, fun i => ?_⟩, ?_, ?_⟩⟩
      · rw [mem, Nat.add_zero]
      · rw [mem]
        exact id
      · have left := draws.left
        omega
      · rwa [mem]
    · rw [if_neg nonzero]
      have away : d ≠ r := fun same => h.apart (same ▸ List.mem_cons_self)
      have directory (b : Bytes) : update t.mem r b d = s.mem d := by
        rw [update_of_ne away, mem]
      have valid (page : Nat) : present (mkPte page (PTE_P ||| PTE_W ||| PTE_U)) := by
        rw [present_mkPte]
        decide
      refine wp_modify_bind (wp_modify_bind (wp_pure ⟨l', Or.inr ⟨r, rfl, Ne.symm away,
        (List.nodup_cons.mp h.once).1, ?_, ?_⟩⟩))
      · dsimp only
        rw [update_self, word_setWord_self]
        exact valid r
      · rw [lacks, if_neg here]
        refine ⟨h.grow heap mem, draws.write _, ?_, fun i entry => ?_⟩ <;> dsimp only <;>
          rw [update_self, directory]
        · exact absent_setWord index here (valid r)
        · rw [word_setWord]
          split
          · exact valid r
          · exact entry

/- One round of mappages, at virtual page v. -/
theorem map_draws {n last pa : Nat} {perm : BitVec 12} {Q : Bool → MemState → Prop} (h : Stock s d l)
    (remap : M.fails (.panic "remap")) (page : v < 2 ^ 20)
    (fails : ∀ t l', Grows s t d l l' 0 → supply t l' = 0 → ¬ present (word (t.mem d) (v / 1024)) → Q false t)
    (next : ∀ t l', Grows s t d l l' (lacks (s.mem d) (v / 1024)) →
      present (word (t.mem d) (v / 1024)) → wp M (if v * PGSIZE = last then pure true
        else mapLoop d last perm n (v * PGSIZE + PGSIZE) (pa + 1)) Q t) :
    wp M (mapLoop d last perm (n + 1) (v * PGSIZE) pa) Q s := by
  unfold mapLoop
  refine wp_seq (walk_draws h _) ?_
  rw [PDX_page page]
  rintro _ t ⟨l', ⟨rfl, grows, empty, missing⟩ | ⟨p, rfl, other, used, entry, grows⟩⟩
  · exact wp_pure (fails t l' grows empty missing)
  · refine wp_get_bind (wp_ite (fun _ => wp_fault remap) fun _ => wp_modify_bind ?_)
    have same (b : Bytes) : update t.mem p b d = t.mem d := update_of_ne (Ne.symm other) _ _
    refine next _ l' ⟨grows.stock.write other used, grows.draws.write _, ?_, fun i => ?_⟩ ?_ <;> dsimp only <;>
      rw [same]
    · exact grows.fewer
    · exact grows.kept i
    · exact entry

/- The loop of mappages over n pages. -/
theorem mapLoop_draws {n pa : Nat} {perm : BitVec 12} (h : Stock s d l) (remap : M.fails (.panic "remap"))
    (some : 0 < n) (top : v + n ≤ 2 ^ 20) :
    wp M (mapLoop d ((v + n - 1) * PGSIZE) perm n (v * PGSIZE) pa) (fun r t => ∃ l' k, Grows s t d l l' k ∧
      (r = false → supply t l' = 0 ∧ ∃ i, v / 1024 ≤ i ∧ i * 1024 < v + n ∧ ¬ present (word (t.mem d) i))) s := by
  induction n generalizing s l v pa with
  | zero => omega
  | succ n ih =>
    refine map_draws h remap (by omega) ?_ ?_
    · intro t l' grows empty missing
      exact ⟨l', 0, grows, fun _ => ⟨empty, v / 1024, le_rfl, by omega, missing⟩⟩
    · intro t l' grows _
      refine wp_ite (fun _ => wp_pure ⟨l', _, grows, fun no => nomatch no⟩) fun more => ?_
      have left : 0 < n := by
        by_contra none
        rw [show v + (n + 1) - 1 = v by omega] at more
        exact more rfl
      rw [← Nat.add_one_mul,
        show v + (n + 1) - 1 = v + 1 + n - 1 by omega]
      refine wp_mono (ih grows.stock left (by omega)) ?_
      rintro r u ⟨l'', k, further, failed⟩
      refine ⟨l'', _, grows.trans further, fun no => ?_⟩
      obtain ⟨empty, i, above, below, missing⟩ := failed no
      exact ⟨empty, i, by omega, by omega, missing⟩

theorem mapKernel_draws {lo : Nat} {ks : List Kmap} (h : Stock s d l) (remap : M.fails (.panic "remap"))
    (ranges : Ranges lo ks) :
    wp M (mapKernel d ks) (fun r t => ∃ l' k, Grows s t d l l' k ∧
      (r = false → supply t l' = 0 ∧ ∃ i, KernelIndex i ∧ ¬ present (word (t.mem d) i))) s := by
  induction ks generalizing lo s l with
  | nil => exact wp_pure ⟨l, 0, .refl h, fun no => nomatch no⟩
  | cons k ks ih =>
    obtain ⟨v, n, -, virt, size, -, top, some, -, inside, rest⟩ := ranges
    unfold mapKernel
    rw [virt, size, mappages_pages _ _ _ top some]
    refine wp_seq (mapLoop_draws h remap some top) ?_
    rintro r t ⟨l', k, grows, failed⟩
    refine wp_ite (fun _ => ?_) (fun no => wp_pure ⟨l', k, grows, fun _ => ?_⟩)
    · refine wp_mono (ih grows.stock rest) ?_
      rintro r u ⟨l'', k', further, failed⟩
      exact ⟨l'', _, grows.trans further, failed⟩
    · obtain ⟨empty, i, above, below, missing⟩ := failed (Bool.eq_false_iff.mpr no)
      exact ⟨empty, i, inside i above below, missing⟩

/- A page beside the free list is filled and mapped at page v. -/
theorem install_draws {b : Bytes} {flags : BitVec 12} (h : Stock s d l) (remap : M.fails (.panic "remap"))
    (other : p ≠ d) (used : p ∉ l) (page : v < 2 ^ 20) :
    wp M (setPage p b >>= fun _ => mappages d (v * PGSIZE) PGSIZE p flags) (fun r t => ∃ l',
      (r = false ∧ Grows s t d l l' 0 ∧ supply t l' = 0 ∧ ¬ present (word (s.mem d) (v / 1024))) ∨
      (r = true ∧ present (word (t.mem d) (v / 1024)) ∧
        Grows s t d l l' (lacks (s.mem d) (v / 1024)))) s := by
  have same : update s.mem p b d = s.mem d := update_of_ne (Ne.symm other) _ _
  have filled : Grows s { s with mem := update s.mem p b } d l l 0 := by
    refine ⟨h.write other used, (Draws.refl s l).write _, ?_, fun i => ?_⟩ <;> dsimp only <;> rw [same]
    · exact Nat.add_zero _
    · exact id
  have one := mappages_pages d p flags (show v + 1 ≤ 2 ^ 20 by omega) Nat.one_pos
  rw [Nat.one_mul, Nat.add_sub_cancel] at one
  rw [one]
  refine wp_modify_bind (map_draws filled.stock remap page ?_ ?_)
  · intro t l' grows empty missing
    have all := filled.trans grows
    exact ⟨l', Or.inl ⟨rfl, all, empty, fun entry => missing (all.kept _ entry)⟩⟩
  · intro t l' grows entry
    have all := filled.trans grows
    dsimp only at all
    rw [same, Nat.zero_add] at all
    exact wp_ite (fun _ => wp_pure ⟨l', Or.inr ⟨rfl, entry, all⟩⟩) (fun wrong => absurd rfl wrong)

end Xv6c.Mem
