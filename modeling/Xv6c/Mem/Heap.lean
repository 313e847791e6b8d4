import Xv6c.Mem.Space

/-! The free list as a list of pages, and what a function of kalloc.c or vm.c does to
it and to the pages in hand. -/
namespace Xv6c.Mem
open Lib

/- The pages that kfree accepts. -/
def InRange (m : Kmem) (p : Nat) : Prop := m.endPg ≤ p ∧ p < PHYSTOP / PGSIZE

def Chain (m : Nat → Bytes) : Nat → List Nat → Prop
  | p, [] => p = 0
  | p, q :: l => p = q ∧ q ≠ 0 ∧ Chain m (addrPage (word (m q) 0)) l

variable {n : Nat → Bytes} {p : Nat} {l : List Nat}

theorem chain_congr {m : Nat → Bytes} (same : ∀ q ∈ l, n q = m q) (chain : Chain m p l) : Chain n p l := by
  induction l generalizing p with
  | nil => exact chain
  | cons q l ih =>
    obtain ⟨rfl, nonzero, rest⟩ := chain
    refine ⟨rfl, nonzero, ?_⟩
    rw [same p List.mem_cons_self]
    exact ih (fun r hr => same r (List.mem_cons_of_mem _ hr)) rest

theorem chain_unique {m : Nat → Bytes} {k : List Nat} (hl : Chain m p l) (hk : Chain m p k) : l = k := by
  induction l generalizing p k with
  | nil =>
    cases k with
    | nil => rfl
    | cons q k => exact absurd (hk.1.symm.trans hl) hk.2.1
  | cons q l ih =>
    cases k with
    | nil => exact absurd (hl.1.symm.trans hk) hl.2.1
    | cons r k =>
      obtain ⟨rfl, _, restl⟩ := hl
      obtain ⟨rfl, _, restk⟩ := hk
      rw [ih restl restk]

/- The kernel's image: its data lies above EXTMEM and it ends below PHYSTOP. -/
structure Layout (dataPg endPg : Nat) : Prop where
  text : EXTMEM < dataPg * PGSIZE
  data : dataPg ≤ endPg
  top : endPg < PHYSTOP / PGSIZE

structure Heap (m : Kmem) (l : List Nat) : Prop where
  chain : Chain m.mem m.freelist l
  range : ∀ p ∈ l, InRange m p
  layout : Layout m.dataPg m.endPg

theorem Heap.positive {m : Kmem} (h : Heap m l) : 0 < m.endPg := by
  have text := h.layout.text
  have data := h.layout.data
  simp only [EXTMEM, PGSIZE] at text
  omega

theorem Heap.nonzero {m : Kmem} (h : Heap m l) (range : InRange m p) : p ≠ 0 := by
  have := h.positive
  have := range.1
  omega

theorem InRange.small {m : Kmem} (h : InRange m p) : p < 2 ^ 20 := by
  have top := h.2
  simp only [PHYSTOP, PGSIZE] at top
  omega

theorem addrPage_pageAddr (small : p < PHYSTOP / PGSIZE) : addrPage (pageAddr p) = p := by
  simp only [PHYSTOP, PGSIZE] at small
  unfold addrPage pageAddr
  by_cases h : p = 0
  · simp [h]
  · have value : (BitVec.ofNat 32 (KERNBASE + p * PGSIZE)).toNat = KERNBASE + p * PGSIZE := by
      rw [BitVec.toNat_ofNat, Nat.mod_eq_of_lt]
      simp only [KERNBASE, PGSIZE]
      omega
    have nonzero : BitVec.ofNat 32 (KERNBASE + p * PGSIZE) ≠ 0 := by
      intro e
      rw [e] at value
      simp only [KERNBASE, PGSIZE, BitVec.ofNat_eq_ofNat, BitVec.toNat_ofNat] at value
      omega
    rw [if_neg h, if_neg nonzero, value, Nat.add_sub_cancel_left]
    exact Nat.mul_div_cancel _ (by decide)

structure Fixed (s t : MemState) : Prop where
  endPg : t.endPg = s.endPg
  dataPg : t.dataPg = s.dataPg
  kpgdir : t.kpgdir = s.kpgdir
  msz : t.msz = s.msz

variable {s t : MemState}

theorem Fixed.range (h : Fixed s t) : InRange t.toKmem p ↔ InRange s.toKmem p := by
  simp only [InRange, h.endPg]

/- With the free list l and the pages H in hand before, l' and H' afterwards. Pages
may get lost. The counter grows by at least what the pages in hand grow by, and does
not pass the limit. -/
structure Moves (s t : MemState) (l l' : List Nat) (H H' : Multiset Nat) : Prop where
  fixed : Fixed s t
  heap : Heap t.toKmem l'
  works : Reworks s.mem t.mem (↑l + H) (↑l' + H')
  charge : s.upg + Multiset.card H' ≤ t.upg + Multiset.card H
  limit : s.upg * PGSIZE ≤ s.msz → s.msz < 2 ^ 31 → t.upg * PGSIZE ≤ s.msz

theorem Moves.refl (heap : Heap s.toKmem l) (H : Multiset Nat) : Moves s s l l H H :=
  ⟨⟨rfl, rfl, rfl, rfl⟩, heap, .refl _ _, le_rfl, fun h _ => h⟩

variable {l' : List Nat} {H H' H'' : Multiset Nat}

theorem Moves.trans {u : MemState} {l'' : List Nat} (first : Moves s t l l' H H')
    (second : Moves t u l' l'' H' H'') : Moves s u l l'' H H'' where
  fixed := ⟨second.fixed.endPg.trans first.fixed.endPg, second.fixed.dataPg.trans first.fixed.dataPg,
    second.fixed.kpgdir.trans first.fixed.kpgdir, second.fixed.msz.trans first.fixed.msz⟩
  heap := second.heap
  works := first.works.trans second.works
  charge := by
    have := first.charge
    have := second.charge
    omega
  limit := by
    intro below small
    have msz := first.fixed.msz
    have := second.limit (msz ▸ first.limit below small) (msz ▸ small)
    rwa [msz] at this

/- The frame rule: further pages in hand do not matter. -/
theorem Moves.frame (h : Moves s t l l' H H') (Z : Multiset Nat) : Moves s t l l' (H + Z) (H' + Z) where
  fixed := h.fixed
  heap := h.heap
  works := by simpa only [add_assoc] using h.works.add Z
  charge := by
    have := h.charge
    simp only [Multiset.card_add]
    omega
  limit := h.limit

/- Pages in hand may be let go. -/
theorem Moves.drop (h : Moves s t l l' H H') (fewer : H'' ≤ H') : Moves s t l l' H H'' where
  fixed := h.fixed
  heap := h.heap
  works := ⟨(add_le_add_right fewer _).trans h.works.fewer, h.works.same⟩
  charge := by
    have := h.charge
    have := Multiset.card_le_card fewer
    omega
  limit := h.limit

theorem Moves.nodup (h : Moves s t l l' H H') (once : ((l : Multiset Nat) + H).Nodup) :
    ((l' : Multiset Nat) + H').Nodup :=
  h.works.nodup once

/- Pages in hand may be written. -/
theorem Moves.write (h : Moves s t l l' H H') (once : ((l' : Multiset Nat) + H').Nodup)
    (same : ∀ q, q ∉ H' → n q = t.mem q) (fewer : H'' ≤ H') : Moves s { t with mem := n } l l' H H'' where
  fixed := { h.fixed with }
  heap := by
    refine ⟨chain_congr (fun q hq => same q fun held => ?_) h.heap.chain, h.heap.range, h.heap.layout⟩
    exact held_apart once (Multiset.mem_coe.mpr hq) held
  works := by
    refine h.works.trans ⟨add_le_add_right fewer _, fun q outside => same q fun held => ?_⟩
    exact outside (Multiset.mem_add.mpr (Or.inr held))
  charge := (h.drop fewer).charge
  limit := h.limit

/- No page gets lost. -/
structure Saves (s t : MemState) (l l' : List Nat) (H H' : Multiset Nat) : Prop
    extends Moves s t l l' H H' where
  all : (l' : Multiset Nat) + H' = ↑l + H

theorem Saves.refl (heap : Heap s.toKmem l) (H : Multiset Nat) : Saves s s l l H H :=
  ⟨.refl heap H, rfl⟩

theorem Saves.trans {u : MemState} {l'' : List Nat} (first : Saves s t l l' H H')
    (second : Saves t u l' l'' H' H'') : Saves s u l l'' H H'' :=
  ⟨first.toMoves.trans second.toMoves, second.all.trans first.all⟩

theorem Saves.frame (h : Saves s t l l' H H') (Z : Multiset Nat) : Saves s t l l' (H + Z) (H' + Z) :=
  ⟨h.toMoves.frame Z, by rw [← add_assoc, ← add_assoc, h.all]⟩

theorem Saves.write (h : Saves s t l l' H H') (once : ((l' : Multiset Nat) + H').Nodup)
    (same : ∀ q, q ∉ H' → n q = t.mem q) (pages : H'' = H') : Saves s { t with mem := n } l l' H H'' :=
  ⟨h.toMoves.write once same pages.le, by rw [pages, h.all]⟩

/- Pages that kfree accepts. -/
def Ranged (m : Kmem) (H : Multiset Nat) : Prop := ∀ q ∈ H, InRange m q

/- A page in hand was in hand before, or free. -/
theorem Moves.ranged (h : Moves s t l l' H H') (heap : Heap s.toKmem l) (ranged : Ranged s.toKmem H) :
    Ranged t.toKmem H' := by
  intro q held
  rw [h.fixed.range]
  have member : q ∈ (l : Multiset Nat) + H :=
    Multiset.mem_of_le h.works.fewer (Multiset.mem_add.mpr (Or.inr held))
  rcases Multiset.mem_add.mp member with free | old
  · exact heap.range q (Multiset.mem_coe.mp free)
  · exact ranged q old

/- The free list and the pages in hand, each page once. Where it is safe to call a function,
kfree accepts those in hand. -/
structure Holds (safe : Prop) (s : MemState) (l : List Nat) (H : Multiset Nat) : Prop where
  heap : Heap s.toKmem l
  once : ((l : Multiset Nat) + H).Nodup
  ranged : safe → Ranged s.toKmem H

theorem Holds.start {safe : Prop} (heap : Heap s.toKmem l) (once : (l : Multiset Nat).Nodup) : Holds safe s l 0 :=
  ⟨heap, by rwa [add_zero], fun _ q held => absurd held (Multiset.notMem_zero q)⟩

theorem Holds.after {safe : Prop} (h : Holds safe s l H) (moves : Moves s t l l' H H') : Holds safe t l' H' :=
  ⟨moves.heap, moves.nodup h.once, fun yes => moves.ranged h.heap (h.ranged yes)⟩

/- The panics about what a page table maps. -/
def mapPanics : List Fault :=
  [.panic "remap", .panic "copyuvm: pte should exist", .panic "copyuvm: page not present"]

/- The modes in which pages are tracked: only pages that are not free are freed. Where
sizes are followed too, the panics about what is mapped are ruled out. -/
structure PageMode (M : Mode Freed Fault) (sized : Prop) : Prop where
  fails : ∀ f, (sized → f ∉ mapPanics) → M.fails f
  freed : ∀ {m l p}, Heap m l → p ∉ l → M.owes ⟨m, p⟩

/- The same, and where it is safe to call a function, nothing fails. -/
structure SafeMode (M : Mode Freed Fault) (sized safe : Prop) : Prop where
  fails : ∀ f, ¬ safe → (sized → f ∉ mapPanics) → M.fails f
  sizes : safe → sized
  freed : ∀ {m l p}, Heap m l → p ∉ l → M.owes ⟨m, p⟩

variable {M : Mode Freed Fault} {sized safe : Prop}

theorem PageMode.safeMode (pm : PageMode M sized) : SafeMode M sized False :=
  ⟨fun f _ => pm.fails f, False.elim, pm.freed⟩

theorem SafeMode.other (sm : SafeMode M sized safe) {f : Fault} (risky : ¬ safe) (other : f ∉ mapPanics) :
    M.fails f :=
  sm.fails f risky fun _ => other

theorem SafeMode.unmapped (sm : SafeMode M sized safe) {f : Fault} (mapped : ¬ sized) : M.fails f :=
  sm.fails f (fun yes => mapped (sm.sizes yes)) fun yes => absurd yes mapped

theorem kalloc_spec (heap : Heap s.toKmem l) : wp M kalloc (fun r t => t.mem = s.mem ∧
      ((r = 0 ∧ Saves s t l l 0 0) ∨ (r ≠ 0 ∧ ∃ l', l = r :: l' ∧ Saves s t l l' 0 {r}))) s := by
  unfold kalloc
  refine wp_get_bind (wp_ite (fun _ => ?_) (fun room => wp_ite (fun none => ?_) (fun some => ?_)))
  · refine wp_modify_bind (wp_pure ⟨rfl, Or.inl ⟨rfl, ⟨⟨rfl, rfl, rfl, rfl⟩, ?_, .refl _ _, le_rfl, fun h _ => h⟩, rfl⟩⟩)
    exact { heap with }
  · exact wp_pure ⟨rfl, Or.inl ⟨rfl, .refl heap 0⟩⟩
  · refine wp_modify_bind (wp_pure ⟨rfl, Or.inr ⟨some, ?_⟩⟩)
    obtain ⟨chain, range, layout⟩ := heap
    cases l with
    | nil => exact absurd chain some
    | cons q l =>
      obtain ⟨head, _, rest⟩ := chain
      have pages : (l : Multiset Nat) + {s.freelist} = ↑(q :: l) + 0 := by
        rw [head, ← Multiset.cons_coe, add_zero, add_comm, Multiset.singleton_add]
      refine ⟨l, by rw [head], ⟨⟨rfl, rfl, rfl, rfl⟩, ⟨?_, ?_, layout⟩, ⟨pages.le, fun _ _ => rfl⟩, ?_, ?_⟩,
        pages⟩
      · simpa only [head] using rest
      · exact fun p hp => range p (List.mem_cons_of_mem _ hp)
      · simp
      · intro below small
        have test := Nat.le_of_not_lt room
        rw [Nat.mod_eq_of_lt (by simp only [PGSIZE] at below ⊢; omega)] at test
        simpa only [Nat.add_mul, Nat.one_mul] using test

/- The same with the pages X in hand. -/
theorem wp_kalloc {X : Multiset Nat} {B : Type} {k : Nat → MemM B} {Q : B → MemState → Prop}
    (heap : Heap s.toKmem l) (none : ∀ t, t.mem = s.mem → Saves s t l l X X → wp M (k 0) Q t)
    (some : ∀ p t l', p ≠ 0 → InRange s.toKmem p → t.mem = s.mem → l = p :: l' →
      Saves s t l l' X (X + {p}) → wp M (k p) Q t) : wp M (kalloc >>= k) Q s := by
  refine wp_seq (kalloc_spec heap) ?_
  rintro p t ⟨mem, ⟨rfl, moves⟩ | ⟨nonzero, l', rfl, moves⟩⟩
  · refine none t mem ?_
    simpa only [zero_add] using moves.frame X
  · refine some p t l' nonzero (heap.range p List.mem_cons_self) mem rfl ?_
    have framed := moves.frame X
    rwa [zero_add, add_comm _ X] at framed

theorem kfree_spec (sm : SafeMode M sized safe) (heap : Heap s.toKmem l) (fresh : p ∉ l)
    (ranged : safe → InRange s.toKmem p) :
    wp M (kfree p) (fun _ t => Saves s t l (p :: l) {p} 0 ∧ InRange s.toKmem p ∧
      ∀ q, q ≠ p → t.mem q = s.mem q) s := by
  unfold kfree
  refine wp_get_bind (wp_ite (fun wrong => wp_fault (sm.other (fun yes => ?_) (by decide))) (fun valid => ?_))
  · obtain ⟨above, below⟩ := ranged yes
    omega
  refine wp_emit_bind fun _ => ⟨sm.freed heap fresh, ?_⟩
  refine wp_modify_bind (wp_modify_bind (wp_modify ?_))
  simp only [not_or, not_lt, not_le] at valid
  have same (q : Nat) (h : q ≠ p) :
      Function.update (Function.update s.mem p fun _ => 1) p
        (setWord (Function.update s.mem p (fun _ => 1) p) 0 (pageAddr s.freelist)) q = s.mem q := by
    rw [Function.update_of_ne h, Function.update_of_ne h]
  have first : s.freelist < PHYSTOP / PGSIZE := by
    obtain ⟨chain, range, _⟩ := heap
    cases l with
    | nil =>
      rw [show s.freelist = 0 from chain]
      decide
    | cons q l =>
      rw [chain.1]
      exact (range q List.mem_cons_self).2
  have pages : ((p :: l : List Nat) : Multiset Nat) + 0 = ↑l + {p} := by
    rw [← Multiset.cons_coe, add_zero, add_comm, Multiset.singleton_add]
  refine ⟨⟨⟨⟨rfl, rfl, rfl, rfl⟩, ⟨⟨rfl, ?_, ?_⟩, ?_, heap.layout⟩, ⟨pages.le, ?_⟩, ?_, ?_⟩, pages⟩, valid, same⟩
  · have := heap.positive
    omega
  · simp only [Function.update_self, word_setWord_self, addrPage_pageAddr first]
    refine chain_congr (fun q hq => ?_) heap.chain
    have apart : q ≠ p := fun h => fresh (h ▸ hq)
    rw [Function.update_of_ne apart, Function.update_of_ne apart]
  · intro q hq
    rcases List.mem_cons.mp hq with rfl | old
    · exact valid
    · exact heap.range q old
  · intro q outside
    refine same q ?_
    rintro rfl
    simp at outside
  · simp only [Multiset.card_zero, Multiset.card_singleton]
    split <;> omega
  · intro below _
    dsimp only
    split
    · exact (Nat.mul_le_mul_right _ (Nat.sub_le _ _)).trans below
    · exact below

end Xv6c.Mem
