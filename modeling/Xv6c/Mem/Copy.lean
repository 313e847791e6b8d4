import Xv6c.Mem.Uvm

/-! copyuvm: the page table of a child, and what it maps. -/
namespace Xv6c.Mem
open Lib

variable {M : Mode Freed Fault} {sized safe : Prop} (sm : SafeMode M sized safe)
variable {s : MemState} {l : List Nat} {d : Nat}

/- What copyuvm adds to a page table from page v on: the pages below sz, and tables. -/
structure Copied (m n : Nat → Bytes) (d v sz : Nat) : Prop where
  pages : Sets true m n d (fun u => v ≤ u ∧ u * PGSIZE < sz)
  tables : ∀ i, present (word (n d) i) → present (word (m d) i) ∨ i * 2 ^ 22 < sz
  guarded : Guarded m d → Guarded n d

variable {t : MemState} {l' : List Nat} {H H' : Multiset Nat} {src : Nat}

/- The tables of another directory lie beside the pages that are worked on. -/
theorem Moves.beside (h : Moves s t l l' H H')
    (beside : ∀ q ∈ {src} + refs (s.mem src), q ∉ (l : Multiset Nat) + H) :
    (∀ q ∈ {src} + refs (t.mem src), q ∉ (l' : Multiset Nat) + H') ∧
      ∀ v < 2 ^ 20, pte t.mem src v = pte s.mem src v := by
  have same (q : Nat) (hq : q ∈ {src} + refs (s.mem src)) : t.mem q = s.mem q :=
    h.works.same q (beside q hq)
  refine ⟨fun q hq inside => ?_, fun v hv => pte_congr same hv⟩
  rw [same src (by simp)] at hq
  exact beside q hq (Multiset.mem_of_le h.works.fewer inside)

/- The pages of a process of size sz are none of Z. -/
structure Apart (m : Nat → Bytes) (src sz : Nat) (Z : Multiset Nat) : Prop where
  tables : ∀ q ∈ {src} + refs (m src), q ∉ Z
  pages : ∀ u < 2 ^ 19, u * PGSIZE < sz → ptePage (pte m src u) ∉ Z

variable {sz : Nat}

theorem Moves.apart (h : Moves s t l l' H H') (apart : Apart s.mem src sz (↑l + H)) :
    Apart t.mem src sz (↑l' + H') := by
  obtain ⟨tables, ptes⟩ := h.beside apart.tables
  refine ⟨tables, fun u hu below inside => ?_⟩
  rw [ptes u (by omega)] at inside
  exact apart.pages u hu below (Multiset.mem_of_le h.works.fewer inside)

/- The pages from v on hold in d what they hold in src, with the same flags. -/
def Faithful (m n : Nat → Bytes) (src d v sz : Nat) : Prop := ∀ u, v ≤ u → u * PGSIZE < sz →
  pteFlags (pte n d u) = pteFlags (pte m src u) ∧ n (ptePage (pte n d u)) = m (ptePage (pte m src u))

/- A source that was left alone may be compared as it was before. -/
theorem Faithful.before {v : Nat} {n : Nat → Bytes} (h : Faithful t.mem n src d v sz) (limit : sz ≤ KERNBASE)
    (moves : Moves s t l l' H H') (apart : Apart s.mem src sz (↑l + H)) : Faithful s.mem n src d v sz := by
  intro u above below
  have low := page_low below limit
  obtain ⟨-, ptes⟩ := moves.beside apart.tables
  have same := h u above below
  rw [ptes u (by omega), moves.works.same _ (apart.pages u low below)] at same
  exact same

theorem flags_present {w : BitVec 32} (valid : present w) : pteFlags w ||| PTE_P = pteFlags w := by
  unfold present at valid
  generalize pteFlags w = flags at valid ⊢
  ext i hi
  by_cases first : i = 0
  · subst first
    rw [BitVec.getElem_or, ← BitVec.getLsbD_eq_getElem, valid]
    rfl
  · have other : PTE_P[i] = false := by
      simp [PTE_P, first]
    rw [BitVec.getElem_or, other, Bool.or_false]

section Copy
include sm

theorem copyLoop_spec {n v src sz : Nat} (heap : Heap s.toKmem l)
    (once : ((l : Multiset Nat) + space s.mem d).Nodup) (limit : sz ≤ KERNBASE)
    (free : sized → ∀ u < 2 ^ 19, v ≤ u → ¬ present (pte s.mem d u))
    (source : sized → ∀ u < 2 ^ 19, u * PGSIZE < sz → present (pte s.mem src u))
    (beside : sized → ∀ q ∈ {src} + refs (s.mem src), q ∉ (l : Multiset Nat) + space s.mem d)
    (enough : safe → Enough n v sz) :
    wp M (copyLoop src d sz n (v * PGSIZE)) (fun r t => ∃ l',
      Moves s t l l' (space s.mem d) (space t.mem d) ∧ (r = true → Copied s.mem t.mem d v sz ∧
        Touches s t l l' d ∧
        (Apart s.mem src sz (↑l + space s.mem d) → Faithful s.mem t.mem src d v sz))) s := by
  induction n generalizing v s l with
  | zero => exact wp_fault (sm.other (fun yes => (enough yes).positive) (by decide))
  | succ n ih =>
    unfold copyLoop
    refine wp_ite (fun inside => ?_) (fun over' => wp_pure ⟨l, .refl heap _, fun _ => ?_⟩)
    swap
    · refine ⟨⟨⟨fun _ _ _ => rfl, fun u _ range => ?_⟩, fun _ h => Or.inl h, id⟩,
        .of_mem rfl fun _ => id, fun _ u above below => ?_⟩
      · exact absurd range.2 (page_beyond over' range.1)
      · exact absurd below (page_beyond over' above)
    have low := page_low inside limit
    refine wp_lookup (fun missing => wp_fault (sm.unmapped fun sized => ?_)) (fun entry => wp_get_bind ?_)
    · have mapped := source sized v low inside
      rw [PDX_page (by omega)] at missing
      rw [pte, if_neg missing] at mapped
      exact absurd mapped (by decide)
    rw [PDX_page (by omega)] at entry
    rw [PDX_page (by omega), PTX_page, pte_entry entry]
    refine wp_ite (fun blank => wp_fault (sm.unmapped fun sized => ?_)) (fun valid => ?_)
    · rw [source sized v low inside] at blank
      exact absurd blank (by decide)
    refine wp_kalloc heap (X := space s.mem d) ?_ ?_
    · intro t mem moves
      rw [if_pos rfl]
      exact wp_pure ⟨l, mem ▸ moves.toMoves, by simp⟩
    · intro p t l' nonzero range mem taken moves
      rw [if_neg nonzero]
      refine wp_install sm moves.heap (mem ▸ moves.nodup once) low range.small
        (fun sized => mem ▸ free sized v low le_rfl) ?_ ?_ <;> rw [mem]
      · intro u l₁ further touches ptes tables
        rw [if_pos rfl, ← Nat.add_one_mul]
        have both := moves.trans further
        refine wp_mono (ih both.heap (both.nodup once) (fun sized x hx above => ?_)
          (fun sized x hx below => ?_) (fun sized => (both.beside (beside sized)).1)
          fun yes => (enough yes).step inside (Nat.lt_succ_self v)) ?_
        · rw [ptes x (by omega), if_neg (by omega)]
          exact free sized x hx (by omega)
        · rw [(both.beside (beside sized)).2 x (by omega)]
          exact source sized x hx below
        rintro r w ⟨l₂, last, result⟩
        refine ⟨l₂, both.toMoves.trans last, fun ok => ?_⟩
        obtain ⟨copied, later, faithful⟩ := result ok
        -- the new page comes from the free list
        have first : Touches s u l l₁ d := by
          refine Touches.trans ?_ touches
          subst taken
          have apart : p ∉ {d} + refs (s.mem d) := fun table =>
            held_apart once (by simp)
              (Multiset.mem_add.mpr (Or.inl table))
          refine ⟨fun q used _ => Function.update_of_ne ?_ _ _, fun q table => Or.inl ?_,
            fun q => List.mem_cons_of_mem p⟩
          · rintro rfl
            simp at used
          · dsimp only at table
            rwa [Function.update_of_ne (by rintro rfl; simp at apart)] at table
        refine ⟨⟨⟨fun x hx outside => ?_, fun x hx range => ?_⟩, fun i entry => ?_, fun safe => ?_⟩,
          first.trans later, fun apart x above below => ?_⟩
        · rw [copied.pages.kept x hx fun later => outside ⟨by omega, later.2⟩, ptes x hx, if_neg]
          rintro rfl
          exact outside ⟨le_rfl, inside⟩
        · by_cases here : x = v
          · rw [copied.pages.kept x hx (by omega), ptes x hx, if_pos here, present_mkPte]
            simp [PTE_P]
          · exact copied.pages.set x hx ⟨by omega, range.2⟩
        · rcases copied.tables i entry with old | new
          · refine (tables i old).imp_right ?_
            rintro rfl
            exact table_below inside
          · exact Or.inr new
        · refine copied.guarded fun x hx user => ?_
          rw [ptes x hx] at user
          split at user
          · omega
          · exact safe x hx user
        · by_cases here : x = v
          · subst here
            have mapped : pte u.mem d x = mkPte p (pteFlags (pte s.mem src x) ||| PTE_P) := by
              rw [ptes x (by omega), if_pos rfl]
            have member : p ∈ users u.mem d := by
              have held := mem_users (m := u.mem) (d := d) low (by rw [mapped, present_mkPte]; simp [PTE_P])
              rwa [mapped, ptePage_mkPte _ range.small] at held
            have held := Multiset.nodup_add.mp (both.nodup once)
            have unused : p ∉ l₁ := fun free =>
              Multiset.disjoint_left.mp held.2.2 (Multiset.mem_coe.mpr free) (Multiset.mem_add.mpr (Or.inr member))
            have user : p ∉ {d} + refs (u.mem d) := fun table =>
              held_apart held.2.1 table member
            have old : p ∉ l' ∧ p ∉ {d} + refs (Function.update s.mem p (s.mem (ptePage (pte s.mem src x))) d) := by
              subst taken
              have fresh : p ∉ space s.mem d := fun inside =>
                held_apart once (by simp) inside
              refine ⟨(List.nodup_cons.mp (Multiset.coe_nodup.mp (Multiset.nodup_add.mp once).1)).1, fun table => ?_⟩
              rw [Function.update_of_ne (by rintro rfl; simp [space] at fresh)] at table
              exact fresh (Multiset.mem_add.mpr (Or.inl table))
            rw [copied.pages.kept x (by omega) (by omega), mapped, pteFlags_mkPte,
              flags_present (by simpa using valid), ptePage_mkPte _ range.small, later.same p unused user,
              touches.same p old.1 old.2]
            exact ⟨rfl, Function.update_self _ _ _⟩
          · exact (faithful (both.toMoves.apart apart)).before limit both.toMoves apart x (by omega) below
      · intro u l₁ further _ _
        rw [if_neg (by decide)]
        have both := moves.trans further
        exact wp_pure ⟨l₁, both.toMoves.drop (Multiset.le_add_right _ _), by simp⟩

/- The page table that fork gives to the child. -/
structure ChildTable (m : Nat → Bytes) (d sz : Nat) : Prop where
  pages : Fits m d sz
  tables : ∀ i, present (word (m d) i) → KernelIndex i ∨ i * 2 ^ 22 < sz
  guarded : Guarded m d

theorem copyuvm_spec {src sz : Nat} (heap : Heap s.toKmem l) (once : (l : Multiset Nat).Nodup)
    (limit : sz ≤ KERNBASE)
    (source : sized → ∀ u < 2 ^ 19, u * PGSIZE < sz → present (pte s.mem src u))
    (beside : sized → ∀ q ∈ {src} + refs (s.mem src), q ∉ (l : Multiset Nat) + 0) :
    wp M (copyuvm src sz) (fun r t => ∃ l', (r = 0 ∧ Moves s t l l' 0 0) ∨
      (r ≠ 0 ∧ Moves s t l l' 0 (space t.mem r) ∧ ChildTable t.mem r sz ∧
        (∀ v < 2 ^ 20, 2 ^ 19 ≤ v → pte t.mem r v = kmapPte (kmap s.toKmem) v) ∧
        (Apart s.mem src sz (↑l + 0) → Faithful s.mem t.mem src r 0 sz))) s := by
  have start : Holds safe s l 0 := .start heap once
  unfold copyuvm
  refine wp_seq (setupkvm_spec sm heap once) ?_
  rintro d t ⟨l', ⟨rfl, moves⟩ | ⟨nonzero, moves, kernel, ptes⟩⟩
  · rw [if_pos rfl]
    exact wp_pure ⟨l', Or.inl ⟨rfl, moves.toMoves⟩⟩
  · rw [if_neg nonzero]
    have blank (u : Nat) (hu : u < 2 ^ 19) : ¬ present (pte t.mem d u) := by
      rw [kernel.low u hu]
      decide
    have loop := copyLoop_spec (n := sz / PGSIZE + 2) (v := 0) sm moves.heap (moves.nodup start.once) limit
      (fun _ u hu _ => blank u hu) (fun sized u hu below => ?_)
      (fun sized => (moves.beside (beside sized)).1) fun _ => enough_pages _ _
    rw [Nat.zero_mul] at loop
    · refine wp_seq loop ?_
      rintro done u ⟨l₁, further, copied⟩
      have both := moves.toMoves.trans further
      refine wp_ite (fun ok => wp_pure ⟨l₁, Or.inr ⟨nonzero, both, ?_⟩⟩) (fun _ => ?_)
      · obtain ⟨⟨pages, tables, guarded⟩, -, faithful⟩ := copied ok
        have kept (v : Nat) (hv : v < 2 ^ 20) (above : sz ≤ v * PGSIZE) : pte u.mem d v = pte t.mem d v :=
          pages.kept v hv fun range => absurd range.2 (by omega)
        refine ⟨⟨fun v hv => ⟨fun mapped => ?_, fun below => ?_⟩, fun i entry => ?_,
          guarded kernel.guarded⟩, fun v hv high => ?_, fun apart => ?_⟩
        · by_contra outside
          rw [kept v (by omega) (by omega)] at mapped
          exact blank v hv mapped
        · exact pages.set v (by omega) ⟨Nat.zero_le v, below⟩
        · exact (tables i entry).imp_left (kernel.tables i)
        · rw [kept v hv ?_, ptes v hv]
          simp only [KERNBASE] at limit
          simp only [PGSIZE]
          omega
        · exact (faithful (moves.toMoves.apart apart)).before limit moves.toMoves apart
      · refine wp_seq (freevm_spec sm (start.after both)) ?_
        rintro _ w ⟨l₂, last⟩
        exact wp_pure ⟨l₂, Or.inl ⟨rfl, both.trans last.toMoves⟩⟩
    · rw [(moves.beside (beside sized)).2 u (by omega)]
      exact source sized u hu below

end Copy

theorem card_single (w : BitVec 32) : Multiset.card (single w) = if present w then 1 else 0 := by
  unfold single
  split <;> simp

theorem card_refs (b : Bytes) :
    Multiset.card (refs b) = (indices.filter fun i => present (word b i)).card := by
  rw [refs, Multiset.card_sum, Finset.card_filter]
  exact Finset.sum_congr rfl fun i _ => card_single _

/- Each page below KERNBASE is counted where it is mapped. -/
theorem card_users (m : Nat → Bytes) (d : Nat) :
    Multiset.card (users m d) =
      ((lower ×ˢ indices).filter fun x => present (pte m d (x.1 * 1024 + x.2))).card := by
  rw [users, Multiset.card_sum, Finset.card_filter, Finset.sum_product]
  refine Finset.sum_congr rfl fun i _ => ?_
  split
  · rename_i entry
    rw [card_refs, Finset.card_filter]
    refine Finset.sum_congr rfl fun j hj => ?_
    have index := mem_indices.mp hj
    rw [pte, show (i * 1024 + j) / 1024 = i by omega, show (i * 1024 + j) % 1024 = j by omega,
      if_pos entry]
  · rename_i missing
    refine (Finset.sum_eq_zero fun j hj => ?_).symm
    have index := mem_indices.mp hj
    rw [pte, show (i * 1024 + j) / 1024 = i by omega, if_neg missing]
    rfl

/- The pages of a child: its directory, the tables of the kernel's half, and what is
below its size. -/
def childSpace (sz : Nat) : Nat := 65 + (sz + 2 ^ 22 - 1) / 2 ^ 22 + (sz + PGSIZE - 1) / PGSIZE

theorem ChildTable.card {m : Nat → Bytes} {d : Nat} (h : ChildTable m d sz) :
    Multiset.card (space m d) ≤ childSpace sz := by
  have tables : Multiset.card (refs (m d)) ≤ 64 + (sz + 2 ^ 22 - 1) / 2 ^ 22 := by
    rw [card_refs]
    have inside : indices.filter (fun i => present (word (m d) i)) ⊆
        (Finset.Ico 512 568 ∪ Finset.Ico 1016 1024) ∪ Finset.range ((sz + 2 ^ 22 - 1) / 2 ^ 22) := by
      intro i hi
      simp only [Finset.mem_filter, Finset.mem_union, Finset.mem_Ico, Finset.mem_range] at hi ⊢
      rcases h.tables i hi.2 with kernel | user
      · exact Or.inl kernel
      · exact Or.inr (by omega)
    refine (Finset.card_le_card inside).trans ((Finset.card_union_le _ _).trans ?_)
    have kernel := Finset.card_union_le (Finset.Ico 512 568) (Finset.Ico 1016 1024)
    simp only [Nat.card_Ico, Finset.card_range] at kernel ⊢
    omega
  have pages : Multiset.card (users m d) ≤ (sz + PGSIZE - 1) / PGSIZE := by
    rw [card_users, ← Finset.card_range ((sz + PGSIZE - 1) / PGSIZE)]
    refine Finset.card_le_card_of_injOn (fun x => x.1 * 1024 + x.2) ?_ ?_
    · rintro ⟨i, j⟩ hx
      simp only [Finset.coe_filter, Finset.mem_product, Set.mem_ofPred_eq, mem_lower, mem_indices] at hx
      obtain ⟨⟨hi, hj⟩, mapped⟩ := hx
      have below := (h.pages _ (by omega)).mp mapped
      dsimp only at below ⊢
      rw [Finset.coe_range, Set.mem_Iio]
      generalize i * 1024 + j = v at below
      simp only [PGSIZE] at below ⊢
      omega
    · rintro ⟨i, j⟩ hx ⟨i', j'⟩ hy same
      simp only [Finset.coe_filter, Finset.mem_product, Set.mem_ofPred_eq, mem_lower, mem_indices] at hx hy
      simp only [Prod.mk.injEq]
      dsimp only at same
      omega
  simp only [space, Multiset.card_add, Multiset.card_singleton, childSpace]
  omega

end Xv6c.Mem
