import Xv6c.Mem.Heap

/-! walkpgdir and mappages: a page table grows by table pages, and maps what it is
told to map. -/
namespace Xv6c.Mem
open Lib
open Function (update update_of_ne update_self)

variable {M : Mode Freed Fault} {sized safe : Prop} {s : MemState} {l : List Nat} {d : Nat}

theorem dir_once {m : Nat → Bytes} {X : Multiset Nat} (once : (X + space m d).Nodup) :
    ({d} + refs (m d)).Nodup :=
  (Multiset.nodup_add.mp (Multiset.nodup_add.mp once).2.1).1

/- walkpgdir without alloc only reads. -/
theorem wp_lookup {va : Nat} {B : Type} {k : Option (Nat × Nat) → MemM B} {Q : B → MemState → Prop}
    (missing : ¬ present (word (s.mem d) (PDX va)) → wp M (k none) Q s)
    (found : present (word (s.mem d) (PDX va)) →
      wp M (k (some (ptePage (word (s.mem d) (PDX va)), PTX va))) Q s) :
    wp M (walkpgdir d va false >>= k) Q s := by
  unfold walkpgdir
  refine wp_bind (wp_get_bind (wp_ite (fun here => wp_pure (found here)) (fun gone => ?_)))
  exact wp_ite (fun _ => wp_pure (missing gone)) (fun wrong => absurd rfl wrong)

/- What walkpgdir keeps of a page table and where it may add a table. -/
structure Widens (m n : Nat → Bytes) (d : Nat) (at_ : Nat → Prop) : Prop where
  ptes : ∀ v < 2 ^ 20, pte n d v = pte m d v
  tables : ∀ i, present (word (n d) i) → present (word (m d) i) ∨ at_ i

/- What growing a page table writes: the directory, its tables and pages of the free list. -/
structure Touches (s t : MemState) (l l' : List Nat) (d : Nat) : Prop where
  same : ∀ q, q ∉ l → q ∉ {d} + refs (s.mem d) → t.mem q = s.mem q
  tables : ∀ q ∈ refs (t.mem d), q ∈ refs (s.mem d) ∨ q ∈ l
  free : ∀ q ∈ l', q ∈ l

theorem Touches.of_mem {t : MemState} {l' : List Nat} (mem : t.mem = s.mem) (free : ∀ q ∈ l', q ∈ l) :
    Touches s t l l' d :=
  ⟨fun q _ _ => by rw [mem], fun q table => Or.inl (mem ▸ table), free⟩

theorem Touches.trans {t u : MemState} {l' l'' : List Nat} (first : Touches s t l l' d)
    (second : Touches t u l' l'' d) : Touches s u l l'' d where
  same q used other := by
    rw [second.same q (fun free => used (first.free q free)), first.same q used other]
    simp only [Multiset.mem_add, Multiset.mem_singleton, not_or] at other ⊢
    exact ⟨other.1, fun table => (first.tables q table).elim other.2 used⟩
  tables q table := by
    rcases second.tables q table with old | new
    · exact first.tables q old
    · exact Or.inr (first.free q new)
  free q member := first.free q (second.free q member)

theorem walk_alloc (heap : Heap s.toKmem l) (once : ((l : Multiset Nat) + space s.mem d).Nodup)
    (va : Nat) :
    wp M (walkpgdir d va true) (fun r t => ∃ l', Saves s t l l' (space s.mem d) (space t.mem d) ∧
      Touches s t l l' d ∧ Widens s.mem t.mem d (· = PDX va) ∧
      ∀ e, r = some e → present (word (t.mem d) (PDX va)) ∧
        e = (ptePage (word (t.mem d) (PDX va)), PTX va)) s := by
  by_cases here : present (word (s.mem d) (PDX va))
  · unfold walkpgdir
    refine wp_get_bind ?_
    rw [if_pos here]
    refine wp_pure ⟨l, .refl heap _, .of_mem rfl fun _ => id, ⟨fun _ _ => rfl, fun i h => Or.inl h⟩, ?_⟩
    rintro _ ⟨⟩
    exact ⟨here, rfl⟩
  · unfold walkpgdir
    refine wp_get_bind ?_
    rw [if_neg here, if_neg (by decide)]
    refine wp_seq (kalloc_spec heap) ?_
    rintro r t ⟨mem, ⟨rfl, moves⟩ | ⟨nonzero, l', rfl, moves⟩⟩
    · rw [if_pos rfl]
      refine wp_pure ⟨l, ?_, .of_mem mem fun _ => id, ⟨fun v _ => by rw [mem], fun i h => Or.inl (mem ▸ h)⟩,
        by simp⟩
      simpa [mem] using moves.frame (space s.mem d)
    · rw [if_neg nonzero]
      have small := (heap.range r List.mem_cons_self).small
      have outside : r ∉ space s.mem d := fun h =>
        held_apart once (by simp) h
      have apart : r ≠ d := by
        rintro rfl
        simp [space] at outside
      have fresh : r ∉ refs (s.mem d) := fun h => outside (by simp [space, h])
      have index : PDX va < 1024 := Nat.mod_lt _ (by decide)
      have valid : (PTE_P ||| PTE_W ||| PTE_U).getLsbD 0 = true := by decide
      refine wp_modify_bind (wp_modify_bind (wp_pure ?_))
      simp only [mem]
      have dir := dir_once once
      have written (q : Nat) (notNew : q ≠ r) (notDir : q ≠ d) :
          update (update s.mem r zeros) d (setWord (update s.mem r zeros d) (PDX va)
            (mkPte r (PTE_P ||| PTE_W ||| PTE_U))) q = s.mem q := by
        rw [update_of_ne notDir, update_of_ne notNew]
      refine ⟨l', ?_, ⟨fun q used other => ?_, fun q table => ?_, fun q => List.mem_cons_of_mem r⟩,
        ⟨fun v page => pte_newTable dir here apart fresh small valid page, ?_⟩, ?_⟩
      · have framed := moves.frame (space s.mem d)
        rw [zero_add] at framed
        refine framed.write (framed.nodup once) ?_ ?_
        · intro q outside
          rw [mem]
          apply written
          · rintro rfl
            simp at outside
          · rintro rfl
            simp [space] at outside
        · rw [space_newTable dir index here apart fresh small valid, add_comm]
      · apply written
        · rintro rfl
          simp at used
        · rintro rfl
          simp at other
      · obtain ⟨tables, -⟩ := users_newTable dir index here apart fresh small valid
        dsimp only at table
        rw [tables, Multiset.mem_add, Multiset.mem_singleton] at table
        rcases table with old | rfl
        · exact Or.inl old
        · exact Or.inr List.mem_cons_self
      · intro i entry
        rw [update_self, update_of_ne (Ne.symm apart)] at entry
        by_cases same : i = PDX va
        · exact Or.inr same
        · rw [word_setWord_ne _ _ same] at entry
          exact Or.inl entry
      · rintro _ ⟨⟩
        rw [update_self, word_setWord_self, present_mkPte, ptePage_mkPte _ small]
        exact ⟨valid, rfl⟩

/- The page that an entry of table i adds to the space. -/
def mapped (i : Nat) (w : BitVec 32) : Multiset Nat := if i < 512 then single w else 0

theorem setPte_moves {i j : Nat} {w : BitVec 32} (heap : Heap s.toKmem l)
    (once : ((l : Multiset Nat) + (space s.mem d + mapped i w)).Nodup) (hi : i < 1024) (hj : j < 1024)
    (entry : present (word (s.mem d) i)) :
    let t := ptePage (word (s.mem d) i)
    let n := update s.mem t (setWord (s.mem t) j w)
    Saves s { s with mem := n } l l (space s.mem d + mapped i w)
      (space n d + mapped i (word (s.mem t) j)) ∧ Touches s { s with mem := n } l l d := by
  intro t n
  have dir : ({d} + refs (s.mem d)).Nodup := dir_once (d := d) (X := 0) (by
    rw [zero_add]
    exact (Multiset.nodup_add.mp (Multiset.nodup_add.mp once).2.1).1)
  have table : t ∈ {d} + refs (s.mem d) := by simp [t, mem_refs hi entry]
  refine ⟨(Saves.refl heap _).write once (fun q outside => update_of_ne ?_ _ _)
    (space_setPte dir hi hj entry w), fun q _ other => update_of_ne ?_ _ _, fun q member => Or.inl ?_,
    fun _ => id⟩
  · rintro rfl
    exact outside (Multiset.mem_add.mpr (Or.inl (Multiset.mem_add.mpr (Or.inl table))))
  · rintro rfl
    exact other table
  · have kept : n d = s.mem d := update_of_ne (Ne.symm (table_ne_dir dir hi entry)) _ _
    exact kept ▸ member

theorem PDX_page {v : Nat} (page : v < 2 ^ 20) : PDX (v * PGSIZE) = v / 1024 := by
  simp only [PDX, PGSIZE]
  omega

theorem PTX_page {v : Nat} : PTX (v * PGSIZE) = v % 1024 := by
  simp only [PTX, PGSIZE]
  omega

/- The pages below KERNBASE, and the addresses at which a loop over them goes on. -/
theorem page_low {v sz : Nat} (inside : v * PGSIZE < sz) (limit : sz ≤ KERNBASE) : v < 2 ^ 19 := by
  simp only [PGSIZE, KERNBASE] at *
  omega

theorem next_page {v : Nat} (low : v < 2 ^ 19) : (v * PGSIZE + PGSIZE) % 2 ^ 32 = (v + 1) * PGSIZE := by
  simp only [PGSIZE]
  omega

theorem next_table {v : Nat} (low : v < 2 ^ 19) :
    (PDX (v * PGSIZE) + 1) * 2 ^ 22 % 2 ^ 32 = (v / 1024 + 1) * 1024 * PGSIZE := by
  simp only [PDX, PGSIZE]
  omega

theorem page_beyond {u v sz : Nat} (over' : ¬ v * PGSIZE < sz) (later : v ≤ u) : ¬ u * PGSIZE < sz :=
  fun inside => over' ((Nat.mul_le_mul_right PGSIZE later).trans_lt inside)

/- One round of mappages, at virtual page v. -/
theorem wp_map {v n last pa : Nat} {perm : BitVec 12} {Q : Bool → MemState → Prop}
    (sm : SafeMode M sized safe) (heap : Heap s.toKmem l) (page : v < 2 ^ 20)
    (once : ((l : Multiset Nat) +
      (space s.mem d + mapped (v / 1024) (mkPte pa (perm ||| PTE_P)))).Nodup)
    (free : sized → ¬ present (pte s.mem d v))
    (fails : ∀ t l', Saves s t l l' (space s.mem d) (space t.mem d) → Touches s t l l' d →
      Widens s.mem t.mem d (· = v / 1024) → Q false t)
    (next : ∀ t l', Saves s t l l'
        (space s.mem d + mapped (v / 1024) (mkPte pa (perm ||| PTE_P))) (space t.mem d) →
      Touches s t l l' d →
      (∀ u < 2 ^ 20, pte t.mem d u = if u = v then mkPte pa (perm ||| PTE_P) else pte s.mem d u) →
      (∀ i, present (word (t.mem d) i) → present (word (s.mem d) i) ∨ i = v / 1024) →
      wp M (if v * PGSIZE = last then pure true
        else mapLoop d last perm n (v * PGSIZE + PGSIZE) (pa + 1)) Q t) :
    wp M (mapLoop d last perm (n + 1) (v * PGSIZE) pa) Q s := by
  have bare : ((l : Multiset Nat) + space s.mem d).Nodup := by
    rw [← add_assoc] at once
    exact (Multiset.nodup_add.mp once).1
  unfold mapLoop
  refine wp_seq (walk_alloc heap bare _) ?_
  rw [PDX_page page, PTX_page]
  rintro (_ | ⟨tb, j⟩) t ⟨l', moves, touches, widens, found⟩
  · exact wp_pure (fails t l' moves touches widens)
  · obtain ⟨entry, here⟩ := found _ rfl
    obtain ⟨rfl, rfl⟩ := Prod.mk.inj here
    refine wp_get_bind (wp_ite (fun full => wp_fault (sm.unmapped fun sized => ?_))
      (fun free => wp_modify_bind ?_))
    · rw [pte_entry entry, widens.ptes v page] at full
      exact free sized full
    have hi : v / 1024 < 1024 := by omega
    have hj : v % 1024 < 1024 := by omega
    have framed := moves.frame (mapped (v / 1024) (mkPte pa (perm ||| PTE_P)))
    obtain ⟨stored, further⟩ := setPte_moves moves.heap (framed.nodup once) hi hj entry
    have dir := dir_once (moves.nodup bare)
    refine next _ l' ?_ (touches.trans further) ?_ ?_
    · have both := framed.trans stored
      rwa [show mapped (v / 1024) (word (t.mem _) (v % 1024)) = 0 by
        simp [mapped, single, free], add_zero] at both
    · intro u hu
      rw [pte_setPte dir hi hj entry _ hu, show v / 1024 * 1024 + v % 1024 = v by omega,
        widens.ptes u hu]
    · intro i
      dsimp only
      rw [update_of_ne (Ne.symm (table_ne_dir dir hi entry))]
      exact widens.tables i

theorem PGROUNDDOWN_page (v : Nat) {k : Nat} (inside : k < PGSIZE) :
    PGROUNDDOWN (v * PGSIZE + k) = v * PGSIZE := by
  simp only [PGROUNDDOWN, PGSIZE] at *
  omega

/- A page in hand is mapped at a page below KERNBASE, or stays in hand. -/
theorem map_user {v pa : Nat} {perm : BitVec 12} (sm : SafeMode M sized safe) (heap : Heap s.toKmem l)
    (low : v < 2 ^ 19) (small : pa < 2 ^ 20)
    (once : ((l : Multiset Nat) + (space s.mem d + {pa})).Nodup)
    (free : sized → ¬ present (pte s.mem d v)) :
    wp M (mappages d (v * PGSIZE) PGSIZE pa perm) (fun r t => ∃ l', Touches s t l l' d ∧
      (∀ i, present (word (t.mem d) i) → present (word (s.mem d) i) ∨ i = v / 1024) ∧
      (r = true → Saves s t l l' (space s.mem d + {pa}) (space t.mem d) ∧
        ∀ u < 2 ^ 20, pte t.mem d u = if u = v then mkPte pa (perm ||| PTE_P) else pte s.mem d u) ∧
      (r = false → Saves s t l l' (space s.mem d + {pa}) (space t.mem d + {pa}) ∧
        ∀ u < 2 ^ 20, pte t.mem d u = pte s.mem d u)) s := by
  have first : PGROUNDDOWN (v * PGSIZE) = v * PGSIZE := by
    simpa only [Nat.add_zero] using PGROUNDDOWN_page v (k := 0) (by decide)
  have last : PGROUNDDOWN ((v * PGSIZE + PGSIZE - 1) % 2 ^ 32) = v * PGSIZE := by
    have small : v * PGSIZE + PGSIZE - 1 < 2 ^ 32 := by
      simp only [PGSIZE]
      omega
    rw [Nat.mod_eq_of_lt small, Nat.add_sub_assoc (by decide)]
    exact PGROUNDDOWN_page v (by decide)
  have adds : mapped (v / 1024) (mkPte pa (perm ||| PTE_P)) = {pa} := by
    have valid : (perm ||| PTE_P).getLsbD 0 = true := by simp [PTE_P]
    rw [mapped, if_pos (by omega), single, present_mkPte, if_pos valid, ptePage_mkPte _ small]
  simp only [mappages, first, last, Nat.sub_self, Nat.zero_div, Nat.zero_add]
  rw [← adds] at once
  refine wp_map sm heap (by omega) once free ?_ ?_
  · intro t l' moves touches widens
    exact ⟨l', touches, widens.tables, by simp, fun _ => ⟨moves.frame _, widens.ptes⟩⟩
  · rw [adds]
    intro t l' moves touches ptes tables
    rw [if_pos rfl]
    exact wp_pure ⟨l', touches, tables, fun _ => ⟨moves, ptes⟩, by simp⟩

/- What mapping kernel memory does to a page table: nothing below KERNBASE, and no page
becomes accessible to the user. -/
structure KernelOnly (m n : Nat → Bytes) (d : Nat) (at_ : Nat → Prop) : Prop where
  low : ∀ v < 2 ^ 19, pte n d v = pte m d v
  high : ∀ v < 2 ^ 20, userBit (pte n d v) → userBit (pte m d v)
  tables : ∀ i, present (word (n d) i) → present (word (m d) i) ∨ at_ i

theorem KernelOnly.trans {m n o : Nat → Bytes} {p q : Nat → Prop} (first : KernelOnly m n d p)
    (second : KernelOnly n o d q) : KernelOnly m o d (fun i => p i ∨ q i) where
  low v hv := (second.low v hv).trans (first.low v hv)
  high v hv h := first.high v hv (second.high v hv h)
  tables i h := by
    rcases second.tables i h with h | h
    · rcases first.tables i h with h | h
      · exact Or.inl h
      · exact Or.inr (Or.inl h)
    · exact Or.inr (Or.inr h)

theorem KernelOnly.mono {m n : Nat → Bytes} {p q : Nat → Prop} (h : KernelOnly m n d p)
    (wider : ∀ i, p i → q i) : KernelOnly m n d q :=
  ⟨h.low, h.high, fun i hi => (h.tables i hi).imp_right (wider i)⟩

/- The loop of mappages over n pages of kernel memory from page v on. -/
theorem mapLoop_kernel {n v pa : Nat} {perm : BitVec 12} (sm : SafeMode M sized safe)
    (heap : Heap s.toKmem l) (once : ((l : Multiset Nat) + space s.mem d).Nodup) (some : 0 < n)
    (high : 2 ^ 19 ≤ v) (top : v + n ≤ 2 ^ 20) (perms : perm.getLsbD 2 = false)
    (free : sized → ∀ u < 2 ^ 20, v ≤ u → ¬ present (pte s.mem d u)) :
    wp M (mapLoop d ((v + n - 1) * PGSIZE) perm n (v * PGSIZE) pa) (fun r t => ∃ l',
      Saves s t l l' (space s.mem d) (space t.mem d) ∧ Touches s t l l' d ∧
      KernelOnly s.mem t.mem d (fun i => v / 1024 ≤ i ∧ i * 1024 < v + n) ∧
      (∀ u < 2 ^ 20, u < v ∨ v + n ≤ u → pte t.mem d u = pte s.mem d u) ∧
      (r = true → ∀ u, v ≤ u → u < v + n → pte t.mem d u = mkPte (pa + (u - v)) (perm ||| PTE_P))) s := by
  induction n generalizing v pa s l with
  | zero => omega
  | succ n ih =>
    have adds (w : BitVec 32) : mapped (v / 1024) w = 0 := if_neg (by omega)
    refine wp_map sm heap (by omega) (by rwa [adds, add_zero])
      (fun sized => free sized v (by omega) le_rfl) ?_ ?_
    · intro t l' moves touches widens
      refine ⟨l', moves, touches, ⟨fun u hu => widens.ptes u (by omega), fun u hu h => ?_, fun i hi => ?_⟩,
        fun u hu _ => widens.ptes u hu, by simp⟩
      · rwa [widens.ptes u hu] at h
      · refine (widens.tables i hi).imp_right ?_
        rintro rfl
        omega
    · rw [adds, add_zero]
      intro t l' moves touches ptes tables
      have beyond (u : Nat) (hu : u < 2 ^ 20) (other : u ≠ v) : pte t.mem d u = pte s.mem d u := by
        rw [ptes u hu, if_neg other]
      have step : KernelOnly s.mem t.mem d (fun i => v / 1024 ≤ i ∧ i * 1024 < v + (n + 1)) := by
        refine ⟨fun u hu => ?_, fun u hu h => ?_, fun i hi => ?_⟩
        · rw [ptes u (by omega), if_neg (by omega)]
        · rw [ptes u hu] at h
          split at h
          · rw [userBit, pteFlags_mkPte, BitVec.getLsbD_or, perms] at h
            exact absurd h (by decide)
          · exact h
        · refine (tables i hi).imp_right ?_
          rintro rfl
          omega
      refine wp_ite (fun last => wp_pure ⟨l', moves, touches, step, ?_, fun _ u above below => ?_⟩)
        (fun more => ?_)
      · exact fun u hu outside => beyond u hu (by omega)
      · have single : u = v := by
          simp only [PGSIZE] at last
          omega
        rw [ptes u (by omega), if_pos single, single, Nat.sub_self, Nat.add_zero]
      have left : 0 < n := by
        by_contra none
        rw [show v + (n + 1) - 1 = v by omega] at more
        exact more rfl
      rw [← Nat.add_one_mul,
        show v + (n + 1) - 1 = v + 1 + n - 1 by omega]
      refine wp_mono (ih moves.heap (moves.nodup once) left (by omega) (by omega)
        fun sized u hu above => ?_) ?_
      · rw [beyond u hu (by omega)]
        exact free sized u hu (by omega)
      · rintro r u ⟨l'', further, rest, only, same, set⟩
        refine ⟨l'', moves.trans further, touches.trans rest, (step.trans only).mono fun i hi => ?_,
          fun w hw outside => ?_, fun done w above below => ?_⟩
        · rcases hi with hi | hi
          · exact hi
          · omega
        · rw [same w hw (by omega), beyond w hw (by omega)]
        · by_cases here : w = v
          · rw [same w (by omega) (by omega), ptes w (by omega), if_pos here, here, Nat.sub_self, Nat.add_zero]
          · rw [set done w (by omega) (by omega), show pa + 1 + (w - (v + 1)) = pa + (w - v) by omega]

end Xv6c.Mem
