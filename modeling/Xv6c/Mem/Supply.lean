import Xv6c.Mem.Draws

/-! With enough free pages, and room for them in the account of the container, page tables
are built: setupkvm, allocuvm and copyuvm do not fail. -/
namespace Xv6c.Mem
open Lib
open Multiset (map_add map_map mem_add mem_map mem_range mem_singleton range)

/- A directory d whose missing tables can all be allocated, and more pages besides: for each
of them there is a page on the free list, and its tables are in use. -/
structure Stocked (s : MemState) (d : Nat) (l : List Nat) (more : Nat) : Prop where
  heap : Heap s.toKmem l
  once : l.Nodup
  apart : d ∉ l
  tables : ∀ i < 1024, present (word (s.mem d) i) →
    ptePage (word (s.mem d) i) ≠ d ∧ ptePage (word (s.mem d) i) ∉ l
  pages : absent (s.mem d) + more ≤ l.length
  account : (s.upg + (absent (s.mem d) + more)) * PGSIZE ≤ s.msz
  limit : s.msz < 2 ^ 32

/- Only the panics about what is mapped are admitted. -/
def mapMode : Mode Freed Fault := ⟨fun _ => True, fun _ => True, fun f => f ∈ mapPanics⟩

variable {s : MemState} {d more : Nat} {l : List Nat} {M : Mode Freed Fault}

variable {i : Nat}

theorem absent_pos {b : Bytes} (index : i < 1024) (missing : ¬ present (word b i)) : 0 < absent b :=
  Finset.card_pos.mpr ⟨i, Finset.mem_filter.mpr ⟨mem_indices.mpr index, missing⟩⟩

variable {p : Nat}

/- kalloc takes the first page of the free list. -/
theorem kalloc_takes (heap : Heap s.toKmem (p :: l)) (room : (s.upg + 1) * PGSIZE ≤ s.msz)
    (limit : s.msz < 2 ^ 32) :
    wp M kalloc (fun r t => r = p ∧ p ≠ 0 ∧ t.mem = s.mem ∧ t.upg = s.upg + 1 ∧ t.msz = s.msz ∧
      Heap t.toKmem l) s := by
  have some : 1 ≤ supply s (p :: l) := supplyFrom_covers (Nat.succ_le_succ (Nat.zero_le _)) room limit
  refine wp_mono (kalloc_draws heap) ?_
  rintro r t ⟨mem, ⟨-, empty, -⟩ | ⟨nonzero, l', same, rest, draws⟩⟩
  · omega
  · obtain ⟨rfl, rfl⟩ := List.cons.inj same
    exact ⟨rfl, nonzero, mem, draws.upg, draws.msz, rest⟩

theorem Stocked.stock (h : Stocked s d l more) : Stock s d l := { h with }

theorem Stocked.covers (h : Stocked s d l more) : absent (s.mem d) + more ≤ supply s l :=
  supplyFrom_covers h.pages h.account h.limit

variable {t : MemState} {l' : List Nat} {k : Nat}

/- A table that was missing is there, with a page of the free list. -/
theorem Stocked.after (h : Stocked s d l more) (grows : Grows s t d l l' k) : Stocked t d l' more := by
  obtain ⟨⟨heap, once, apart, tables⟩, draws, fewer, -⟩ := grows
  have pages := h.pages
  have taken := draws.taken
  have account := h.account
  refine ⟨heap, once, apart, tables, by omega, ?_, draws.msz ▸ h.limit⟩
  rw [draws.msz, draws.upg, show s.upg + k + (absent (t.mem d) + more) = s.upg + (absent (s.mem d) + more) by omega]
  exact account

/- One of the pages besides is taken. -/
theorem Stocked.less (h : Stocked s d l (more + 1)) (stock : Stock t d l') (draws : Draws s t l l' 1)
    (mem : t.mem = s.mem) : Stocked t d l' more := by
  obtain ⟨heap, once, apart, tables⟩ := stock
  have pages := h.pages
  have taken := draws.taken
  refine ⟨heap, once, apart, tables, ?_, ?_, draws.msz ▸ h.limit⟩
  · rw [mem]
    omega
  · rw [mem, draws.msz, draws.upg, Nat.add_assoc, Nat.add_comm 1]
    exact h.account

/- Where a page is left for each missing table, none of them is refused. -/
theorem Stocked.served (h : Stocked s d l more) (grows : Grows s t d l l' k) (index : i < 1024)
    (missing : ¬ present (word (t.mem d) i)) : supply t l' ≠ 0 := by
  have covers := (h.after grows).covers
  have some := absent_pos index missing
  omega

variable {n v : Nat}

theorem mapKernel_stocked {lo : Nat} {ks : List Kmap} (h : Stocked s d l more) (ranges : Ranges lo ks) :
    wp mapMode (mapKernel d ks) (fun r t => r = true ∧ ∃ l', Stocked t d l' more) s := by
  refine wp_mono (mapKernel_draws h.stock List.mem_cons_self ranges) ?_
  rintro (_ | _) t ⟨l', k, grows, failed⟩
  · obtain ⟨empty, i, index, missing⟩ := failed rfl
    refine absurd empty (h.served grows ?_ missing)
    simp only [KernelIndex] at index
    omega
  · exact ⟨rfl, l', h.after grows⟩

theorem setupkvm_stocked (heap : Heap s.toKmem (p :: l)) (once : (p :: l).Nodup)
    (pages : 1024 + more ≤ l.length) (account : (s.upg + (1025 + more)) * PGSIZE ≤ s.msz)
    (limit : s.msz < 2 ^ 32) : wp mapMode setupkvm (fun r t => r ≠ 0 ∧ ∃ l', Stocked t r l' more) s := by
  unfold setupkvm
  refine wp_seq (kalloc_takes heap ((Nat.mul_le_mul_right _ (by omega)).trans account) limit) ?_
  rintro d t ⟨rfl, nonzero, mem, upg, msz, rest⟩
  rw [if_neg nonzero]
  refine wp_modify_bind (wp_get_bind ?_)
  have blank : Function.update t.mem d zeros d = zeros := Function.update_self _ _ _
  have stocked : Stocked { t with mem := Function.update t.mem d zeros } d l more := by
    obtain ⟨heap', once', apart, tables⟩ := stock_blank rest once
    refine ⟨heap', once', apart, tables, ?_, ?_, msz ▸ limit⟩ <;> dsimp only <;> rw [blank, absent_zeros]
    · exact pages
    · rw [upg, msz]
      exact (Nat.mul_le_mul_right _ (by omega)).trans account
  refine wp_seq (mapKernel_stocked stocked (kmap_ranges rest.layout)) ?_
  rintro _ u ⟨rfl, stocked⟩
  exact wp_pure ⟨nonzero, stocked⟩

theorem Stocked.fewer {less : Nat} (h : Stocked s d l more) (fewer : less ≤ more) : Stocked s d l less := by
  obtain ⟨heap, once, apart, tables, pages, account, limit⟩ := h
  exact ⟨heap, once, apart, tables, by omega, (Nat.mul_le_mul_right _ (by omega)).trans account, limit⟩

/- A page is filled and mapped at page v. -/
theorem install_stocked {B : Type} {b : Bytes} {flags : BitVec 12} {f : Nat → Bool → MemM B} {bad : MemM B}
    {Q : B → MemState → Prop} (h : Stocked s d l (more + 1)) (top : v < 2 ^ 20)
    (next : ∀ p t l', Stocked t d l' more → wp mapMode (f p true) Q t) :
    wp mapMode (kalloc >>= fun p => if p = 0 then bad
      else setPage p b >>= fun _ => mappages d (v * PGSIZE) PGSIZE p flags >>= f p) Q s := by
  refine wp_seq (kalloc_draws h.heap) ?_
  rintro p t ⟨mem, ⟨-, empty, -⟩ | ⟨nonzero, l', rfl, heap, draws⟩⟩
  · have covers := h.covers
    omega
  rw [if_neg nonzero, ← bind_assoc]
  have rest := h.less (h.stock.rest heap mem) draws mem
  have away : p ≠ d := fun same => h.apart (same ▸ List.mem_cons_self)
  refine wp_seq (install_draws rest.stock List.mem_cons_self away (List.nodup_cons.mp h.once).1 top) ?_
  rintro _ u ⟨l'', ⟨rfl, grows, empty, missing⟩ | ⟨rfl, -, grows⟩⟩
  · have covers := (rest.after grows).covers
    have fewer := grows.fewer
    have some := absent_pos (show v / 1024 < 1024 by omega) missing
    omega
  · exact next p u l'' (rest.after grows)

/- The loop of allocuvm from page v on, with n rounds left and a page for each of them. -/
theorem allocLoop_stocked {oldsz newsz : Nat} (h : Stocked s d l (more + n)) (small : newsz < KERNBASE)
    (enough : Enough n v newsz) :
    wp mapMode (allocLoop d oldsz newsz n (v * PGSIZE)) (fun r t => r = newsz ∧ ∃ l', Stocked t d l' more) s := by
  induction n generalizing s l v with
  | zero => exact absurd enough Enough.positive
  | succ n ih =>
    unfold allocLoop
    refine wp_ite (fun below => ?_) (fun _ => wp_pure ⟨rfl, l, h.fewer (by omega)⟩)
    have top : v < 2 ^ 20 := by
      simp only [PGSIZE, KERNBASE] at below small
      omega
    have stock : Stocked s d l ((more + n) + 1) := h
    refine install_stocked stock top fun p t l' h => ?_
    rw [if_pos rfl, ← Nat.add_one_mul]
    exact ih h (enough.step below (Nat.lt_succ_self v))

theorem copyLoop_stocked {src sz : Nat} (h : Stocked s d l (more + n)) (small : sz < KERNBASE)
    (enough : Enough n v sz) :
    wp mapMode (copyLoop src d sz n (v * PGSIZE)) (fun r t => r = true ∧ ∃ l', Stocked t d l' more) s := by
  induction n generalizing s l v with
  | zero => exact absurd enough Enough.positive
  | succ n ih =>
    unfold copyLoop
    refine wp_ite (fun below => ?_) (fun _ => wp_pure ⟨rfl, l, h.fewer (by omega)⟩)
    have top : v < 2 ^ 20 := by
      simp only [PGSIZE, KERNBASE] at below small
      omega
    refine wp_lookup (fun _ => wp_fault (List.mem_cons_of_mem _ List.mem_cons_self)) (fun _ => wp_get_bind ?_)
    refine wp_ite (fun _ => wp_fault (List.mem_cons_of_mem _ (List.mem_cons_of_mem _ List.mem_cons_self)))
      (fun _ => ?_)
    have stock : Stocked s d l ((more + n) + 1) := h
    refine install_stocked stock top fun p t l' h => ?_
    rw [if_pos rfl, ← Nat.add_one_mul]
    exact ih h (enough.step below (Nat.lt_succ_self v))

theorem allocuvm_stocked {oldsz newsz : Nat} (h : Stocked s d l (more + (newsz / PGSIZE + 2)))
    (small : newsz < KERNBASE) (grows : oldsz ≤ newsz) :
    wp mapMode (allocuvm d oldsz newsz) (fun r t => r = newsz ∧ ∃ l', Stocked t d l' more) s := by
  unfold allocuvm
  rw [if_neg (by omega), if_neg (by omega)]
  exact allocLoop_stocked h small (enough_pages _ _)

theorem copyuvm_stocked {src sz : Nat} (heap : Heap s.toKmem (p :: l)) (once : (p :: l).Nodup)
    (small : sz < KERNBASE) (pages : 1024 + (sz / PGSIZE + 2) ≤ l.length)
    (account : (s.upg + (1025 + (sz / PGSIZE + 2))) * PGSIZE ≤ s.msz) (limit : s.msz < 2 ^ 32) :
    wp mapMode (copyuvm src sz) (fun r _ => r ≠ 0) s := by
  unfold copyuvm
  refine wp_seq (setupkvm_stocked heap once pages account limit) ?_
  rintro d t ⟨nonzero, l', stocked⟩
  rw [if_neg nonzero, ← Nat.zero_mul PGSIZE]
  rw [← Nat.zero_add (sz / PGSIZE + 2)] at stocked
  refine wp_seq (copyLoop_stocked stocked small (enough_pages _ _)) ?_
  rintro _ u ⟨rfl, -⟩
  exact wp_pure nonzero

/- All faults but the panics about what is mapped. -/
def otherFaults : Mode Freed Fault := ⟨fun _ => True, fun _ => True, fun f => f ∉ mapPanics⟩

theorem otherFaults_safe : SafeMode otherFaults True False :=
  PageMode.safeMode ⟨fun _ other => other trivial, fun _ _ => trivial⟩

/- A run with enough pages ends, since of its faults none is in either mode. -/
theorem ends_stocked {A : Type} {x : MemM A} {Q R : A → MemState → Prop} (first : wp mapMode x Q s)
    (second : wp otherFaults x R s) : ∃ es a t, Ends x s es a t ∧ Q a t ∧ R a t :=
  ends_of_modes first second (fun _ => trivial) (fun _ => trivial) fun _ panics => not_not.mpr panics

/-- With 1025 free pages, and room for them in the account of the container, setupkvm ends
with a page table. -/
theorem setupkvm_ends (heap : Heap s.toKmem (p :: l)) (once : (p :: l).Nodup) (pages : 1024 ≤ l.length)
    (account : (s.upg + 1025) * PGSIZE ≤ s.msz) (limit : s.msz < 2 ^ 32) :
    ∃ es r t, Ends setupkvm s es r t ∧ r ≠ 0 := by
  have pages : 1024 + 0 ≤ l.length := pages
  obtain ⟨es, r, t, ends, made, -⟩ := ends_stocked (setupkvm_stocked heap once pages account limit)
    (setupkvm_spec otherFaults_safe heap (Multiset.coe_nodup.mpr once))
  exact ⟨es, r, t, ends, made.1⟩

/- The same for the copy of an empty memory. -/
theorem copyuvm_ends (src : Nat) (heap : Heap s.toKmem (p :: l)) (once : (p :: l).Nodup)
    (pages : 1024 ≤ l.length) (account : (s.upg + 1025) * PGSIZE ≤ s.msz) (limit : s.msz < 2 ^ 32) :
    ∃ es r t, Ends (copyuvm src 0) s es r t ∧ r ≠ 0 := by
  obtain ⟨es, r, t, ends, made⟩ := setupkvm_ends heap once pages account limit
  refine ⟨es, r, t, ?_, made⟩
  unfold copyuvm
  refine ends_bind.mpr ⟨es, r, t, [], ends, ?_, (List.append_nil es).symm⟩
  rw [if_neg made]
  exact ends_pure.mpr ⟨rfl, rfl, rfl⟩

/- A table whose first n entries refer to n pages in a row. -/
def rowTable (n base : Nat) : Bytes := setWords zeros 0 n fun i => mkPte (base + i) userFlags

theorem word_rowTable (n base i : Nat) :
    word (rowTable n base) i = if i < n then mkPte (base + i) userFlags else 0 := by
  rw [rowTable, word_setWords, word_zeros, Nat.zero_add, Nat.sub_zero]
  simp only [Nat.zero_le, true_and]

variable {base : Nat}

theorem single_row (small : base + i < 2 ^ 20) : single (mkPte (base + i) userFlags) = {base + i} := by
  rw [single, present_mkPte, if_pos (by decide), ptePage_mkPte _ small]

theorem refs_rowTable (few : n ≤ 1024) (small : base + n ≤ 2 ^ 20) :
    refs (rowTable n base) = (range n).map (base + ·) := by
  have each : refs (rowTable n base) = ∑ i ∈ Finset.range n, ({base + i} : Multiset Nat) := by
    rw [refs]
    have inside : Finset.range n ⊆ indices := fun i hi => mem_indices.mpr (by
      have := Finset.mem_range.mp hi
      omega)
    refine (Finset.sum_subset inside fun i _ outside => ?_).symm.trans (Finset.sum_congr rfl fun i hi => ?_)
    · rw [word_rowTable, if_neg (by simpa using outside)]
      simp
    · have inside := Finset.mem_range.mp hi
      rw [word_rowTable, if_pos inside, single_row (by omega)]
  rw [each]
  change ((range n).map ((fun i => ({i} : Multiset Nat)) ∘ (base + ·))).sum = _
  rw [← map_map, Multiset.sum_map_singleton]

variable {m : Nat → Bytes} {tables : Nat}

/- A directory with n tables, all of them full: the pages follow each other. -/
theorem users_rows {d : Nat} (dir : m d = rowTable n tables)
    (each : ∀ i < n, m (tables + i) = rowTable 1024 (base + i * 1024)) (few : n ≤ 512)
    (small : tables + n ≤ 2 ^ 20) (high : base + n * 1024 ≤ 2 ^ 20) :
    users m d = (range (n * 1024)).map (base + ·) := by
  have rows : users m d = ∑ i ∈ Finset.range n, (range 1024).map (base + i * 1024 + ·) := by
    rw [users]
    have inside : Finset.range n ⊆ lower := fun i hi => mem_lower.mpr (by
      have := Finset.mem_range.mp hi
      omega)
    refine (Finset.sum_subset inside fun i _ outside => ?_).symm.trans (Finset.sum_congr rfl fun i hi => ?_)
    · have none : word (m d) i = 0 := by rw [dir, word_rowTable, if_neg (by simpa using outside)]
      rw [none, if_neg (by decide)]
    · have inside := Finset.mem_range.mp hi
      rw [dir, word_rowTable, if_pos inside, present_mkPte, if_pos (by decide), ptePage_mkPte _ (by omega), each i inside,
        refs_rowTable le_rfl (by omega)]
  rw [rows]
  clear rows each dir few small high
  induction n with
  | zero => rfl
  | succ n ih =>
    rw [Finset.sum_range_succ, ih, Nat.add_mul, Nat.one_mul, Multiset.range_add, map_add, map_map]
    congr 2
    funext j
    exact Nat.add_assoc _ _ _

theorem space_rows {d : Nat} (dir : m d = rowTable n tables)
    (each : ∀ i < n, m (tables + i) = rowTable 1024 (base + i * 1024)) (few : n ≤ 512)
    (small : tables + n ≤ 2 ^ 20) (high : base + n * 1024 ≤ 2 ^ 20) :
    space m d = {d} + (range n).map (tables + ·) + (range (n * 1024)).map (base + ·) := by
  rw [space, users_rows dir each few small high, dir, refs_rowTable (by omega) small]

/- In the order of their numbers: the directory, its tables, the free pages, the pages in use. -/
theorem rows_once {d first count : Nat} (below : d < tables) (apart : tables + n ≤ first)
    (above : first + count ≤ base) : ((List.range' first count : Multiset Nat) +
      ({d} + (range n).map (tables + ·) + (range k).map (base + ·))).Nodup := by
  have row (n base : Nat) : ((range n).map (base + ·)).Nodup :=
    (Multiset.nodup_range n).map fun _ _ same => Nat.add_left_cancel same
  refine Multiset.nodup_add.mpr ⟨Multiset.coe_nodup.mpr List.nodup_range', ?_, ?_⟩
  · refine Multiset.nodup_add.mpr ⟨Multiset.nodup_add.mpr ⟨Multiset.nodup_singleton _, row n _, ?_⟩, row _ _, ?_⟩
    · refine Multiset.disjoint_left.mpr fun {q} first second => ?_
      simp only [mem_singleton, mem_map, mem_range] at first second
      omega
    · refine Multiset.disjoint_left.mpr fun {q} first second => ?_
      simp only [mem_add, mem_singleton, mem_map, mem_range] at first second
      omega
  · refine Multiset.disjoint_left.mpr fun {q} free held => ?_
    have between := List.mem_range'_1.mp (Multiset.mem_coe.mp free)
    simp only [mem_add, mem_singleton, mem_map, mem_range] at held
    omega

theorem rows_ranged {m : Kmem} {d : Nat} (dir : InRange m d) (low : m.endPg ≤ tables)
    (top : tables + n ≤ PHYSTOP / PGSIZE) (low' : m.endPg ≤ base) (top' : base + k ≤ PHYSTOP / PGSIZE) :
    Ranged m ({d} + (range n).map (tables + ·) + (range k).map (base + ·)) := by
  intro q held
  simp only [mem_add, mem_singleton, mem_map, mem_range] at held
  rcases held with (rfl | ⟨i, inside, rfl⟩) | ⟨i, inside, rfl⟩
  · exact dir
  · exact ⟨by omega, by omega⟩
  · exact ⟨by omega, by omega⟩

theorem pte_rows {d : Nat} (dir : m d = rowTable n tables)
    (each : ∀ i < n, m (tables + i) = rowTable 1024 (base + i * 1024)) (small : tables + n ≤ 2 ^ 20)
    (inside : v < n * 1024) : pte m d v = mkPte (base + v) userFlags := by
  have table : v / 1024 < n := by omega
  have entry : v % 1024 < 1024 := Nat.mod_lt _ (by decide)
  have here : word (m d) (v / 1024) = mkPte (tables + v / 1024) userFlags := by
    rw [dir, word_rowTable, if_pos table]
  rw [pte, here, present_mkPte, if_pos (by decide), ptePage_mkPte _ (by omega), each _ table, word_rowTable,
    if_pos entry, Nat.add_assoc, Nat.div_add_mod']

end Xv6c.Mem

namespace Xv6c
open Lib Mem

/- The free pages from page 768 on, up to page stop: each has the address of the next. -/
def freePages (stop q : Nat) : Bytes :=
  if 768 ≤ q then setWord zeros 0 (if q + 1 < stop then pageAddr (q + 1) else 0) else zeros

theorem chain_freePages {m : Nat → Bytes} {stop n q : Nat}
    (same : ∀ i, 768 ≤ i → i < stop → m i = freePages stop i)
    (count : q + n = stop) (low : 768 ≤ q) (high : stop ≤ PHYSTOP / PGSIZE) :
    Chain m (if n = 0 then 0 else q) (List.range' q n) := by
  induction n generalizing q with
  | zero => rfl
  | succ n ih =>
    rw [List.range'_succ]
    have next : addrPage (word (m q) 0) = if n = 0 then 0 else q + 1 := by
      rw [same q low (by omega), freePages, if_pos low, word_setWord_self]
      by_cases last : n = 0
      · rw [if_pos last, if_neg (by omega)]
        rfl
      · rw [if_neg last, if_pos (by omega)]
        exact addrPage_pageAddr (by omega)
    refine ⟨rfl, by omega, ?_⟩
    rw [next]
    exact ih (by omega) (by omega)

end Xv6c
