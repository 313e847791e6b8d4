import Xv6c.Mem.Fork

/-! Where a page table is missing, deallocuvm goes on behind the pages that it would map. The
plain loop visits each of them. Both free the same pages and clear the same entries. -/
namespace Xv6c.Mem
open Lib

variable {s : MemState} {l : List Nat} {d i m n oldsz sz v w : Nat}

/- One round of the plain loop: the page that is mapped at a is freed. -/
def unmapAt (pgdir a : Nat) : MemM Unit := do
  match ← walkpgdir pgdir a false with
  | none => pure ()
  | some (t, i) =>
    let s ← Prog.get
    let pte := word (s.mem t) i
    if present pte then
      if ptePage pte = 0 then panic "kfree"
      else
        kfree (ptePage pte)
        setEntry t i 0
    else pure ()

def plainLoop (pgdir oldsz : Nat) : Nat → Nat → MemM Unit
  | 0, _ => Prog.fault .hang
  | n + 1, a =>
    if a < oldsz then do
      unmapAt pgdir a
      plainLoop pgdir oldsz n ((a + PGSIZE) % 2 ^ 32)
    else pure ()

/- deallocuvm with the plain loop. -/
def plainDealloc (pgdir oldsz newsz : Nat) : MemM Nat := do
  if oldsz ≤ newsz then pure oldsz
  else
    plainLoop pgdir oldsz (oldsz / PGSIZE + 2) (PGROUNDUP newsz)
    pure newsz

variable {A : Type} {a : Nat} {k : Option (Nat × Nat) → MemM A}

theorem walk_missing (missing : ¬ present (word (s.mem d) (PDX a))) : (walkpgdir d a false >>= k) s = k none s := by
  unfold walkpgdir
  rw [bind_assoc, Prog.get_bind]
  dsimp only
  rw [if_neg missing, if_pos (show (!false) = true from rfl), pure_bind]

theorem walk_found (here : present (word (s.mem d) (PDX a))) :
    (walkpgdir d a false >>= k) s = k (some (ptePage (word (s.mem d) (PDX a)), PTX a)) s := by
  unfold walkpgdir
  rw [bind_assoc, Prog.get_bind]
  dsimp only
  rw [if_pos here, pure_bind]

theorem unmapAt_missing {k : Unit → MemM A} (missing : ¬ present (word (s.mem d) (PDX a))) :
    (unmapAt d a >>= k) s = k () s := by
  unfold unmapAt
  rw [bind_assoc, walk_missing missing, pure_bind]

/- The two ways a round of deallocuvm goes. -/
theorem deallocLoop_missing (inside : a < sz) (missing : ¬ present (word (s.mem d) (PDX a))) :
    deallocLoop d sz (n + 1) a s = deallocLoop d sz n ((PDX a + 1) * 2 ^ 22 % 2 ^ 32) s := by
  rw [deallocLoop, if_pos inside, walk_missing missing]

theorem deallocLoop_found (inside : a < sz) (here : present (word (s.mem d) (PDX a))) :
    deallocLoop d sz (n + 1) a s =
      (unmapAt d a >>= fun _ => deallocLoop d sz n ((a + PGSIZE) % 2 ^ 32)) s := by
  rw [deallocLoop, if_pos inside, walk_found here]
  unfold unmapAt
  rw [bind_assoc, walk_found here, bind_assoc, Prog.get_bind]
  change (if present _ then _ else _ : MemM Unit) s = _
  dsimp only
  split
  · split
    · rfl
    · rw [bind_assoc]
  · rw [pure_bind]

theorem plainLoop_inside (inside : v * PGSIZE < sz) (limit : sz ≤ KERNBASE) :
    plainLoop d sz (n + 1) (v * PGSIZE) = unmapAt d (v * PGSIZE) >>= fun _ => plainLoop d sz n ((v + 1) * PGSIZE) := by
  rw [plainLoop, if_pos inside, next_page (page_low inside limit)]

theorem plainLoop_outside (outside : sz ≤ v * PGSIZE) : plainLoop d sz (n + 1) (v * PGSIZE) = pure () :=
  if_neg (by omega)

/- Rounds beyond those that are needed make no difference. -/
theorem plainLoop_fuel (limit : sz ≤ KERNBASE) (first : Enough n v sz) (second : Enough m v sz) :
    plainLoop d sz n (v * PGSIZE) = plainLoop d sz m (v * PGSIZE) := by
  induction n generalizing m v with
  | zero => exact absurd first Enough.positive
  | succ n ih =>
    cases m with
    | zero => exact absurd second Enough.positive
    | succ m =>
      by_cases inside : v * PGSIZE < sz
      · have later := Nat.lt_succ_self v
        rw [plainLoop_inside inside limit, plainLoop_inside inside limit,
          ih (first.step inside later) (second.step inside later)]
      · rw [plainLoop_outside (by omega), plainLoop_outside (by omega)]

/- The pages up to w are those of a table that is missing. -/
theorem plainLoop_skip (limit : sz ≤ KERNBASE) (missing : ¬ present (word (s.mem d) i)) (later : v ≤ w)
    (above : i * 1024 ≤ v) (below : w ≤ (i + 1) * 1024) (first : Enough n v sz) (second : Enough m w sz) :
    plainLoop d sz n (v * PGSIZE) s = plainLoop d sz m (w * PGSIZE) s := by
  obtain ⟨k, rfl⟩ := Nat.exists_eq_add_of_le later
  induction k generalizing n v with
  | zero => rw [Nat.add_zero] at second ⊢; rw [plainLoop_fuel limit first second]
  | succ k ih =>
    cases n with
    | zero => exact absurd first Enough.positive
    | succ n =>
      by_cases inside : v * PGSIZE < sz
      · have gone : ¬ present (word (s.mem d) (PDX (v * PGSIZE))) := by
          rw [PDX_page ((page_low inside limit).trans (by decide)), show v / 1024 = i by omega]
          exact missing
        rw [plainLoop_inside inside limit, unmapAt_missing gone]
        rw [show v + (k + 1) = v + 1 + k by omega] at below second ⊢
        exact ih (by omega) (first.step inside (Nat.lt_succ_self v)) (by omega) below second
      · cases m with
        | zero => exact absurd second Enough.positive
        | succ m =>
          rw [plainLoop_outside (by omega), plainLoop_outside]
          simp only [PGSIZE] at *
          omega

theorem deallocLoop_plain (limit : sz ≤ KERNBASE) (first : Enough n v sz) (second : Enough m v sz) :
    deallocLoop d sz n (v * PGSIZE) = plainLoop d sz m (v * PGSIZE) := by
  induction n generalizing m v with
  | zero => exact absurd first Enough.positive
  | succ n ih =>
    funext s
    by_cases inside : v * PGSIZE < sz
    swap
    · cases m with
      | zero => exact absurd second Enough.positive
      | succ m =>
        rw [plainLoop_outside (by omega), deallocLoop, if_neg inside]
    have low := page_low inside limit
    by_cases here : present (word (s.mem d) (PDX (v * PGSIZE)))
    · cases m with
      | zero => exact absurd second Enough.positive
      | succ m =>
        have later := Nat.lt_succ_self v
        rw [deallocLoop_found inside here, plainLoop_inside inside limit, next_page low,
          ih (first.step inside later) (second.step inside later)]
    · have rest : Enough n ((v / 1024 + 1) * 1024) sz := first.step inside (by omega)
      rw [deallocLoop_missing inside here, next_table low, ih rest rest]
      rw [PDX_page (by omega)] at here
      exact (plainLoop_skip limit here (by omega) (by omega) le_rfl second rest).symm

theorem deallocuvm_eq_plain (limit : oldsz ≤ KERNBASE) (d newsz : Nat) :
    deallocuvm d oldsz newsz = plainDealloc d oldsz newsz := by
  unfold deallocuvm plainDealloc PGROUNDUP
  rw [deallocLoop_plain limit (enough_pages _ _) (enough_pages _ _)]

/- A round is over, or ends in a panic. -/
theorem unmapAt_ends (d a : Nat) (s : MemState) :
    wp (Mode.faults (· ≠ Fault.hang)) (unmapAt d a) (fun _ _ => True) s := by
  unfold unmapAt
  refine wp_lookup (fun _ => wp_pure trivial) (fun _ => wp_get_bind (wp_ite (fun _ => ?_) (fun _ => wp_pure trivial)))
  refine wp_ite (fun _ => wp_fault nofun) (fun _ => ?_)
  unfold kfree
  refine wp_bind (wp_get_bind (wp_ite (fun _ => wp_fault nofun) (fun _ => ?_)))
  refine wp_emit_bind fun _ => ⟨trivial, ?_⟩
  exact wp_modify_bind (wp_modify_bind (wp_modify (wp_modify trivial)))

theorem plainLoop_ends (limit : sz ≤ KERNBASE) (enough : Enough n v sz) (s : MemState) :
    wp (Mode.faults (· ≠ Fault.hang)) (plainLoop d sz n (v * PGSIZE)) (fun _ _ => True) s := by
  induction n generalizing v s with
  | zero => exact absurd enough Enough.positive
  | succ n ih =>
    by_cases inside : v * PGSIZE < sz
    · rw [plainLoop_inside inside limit]
      exact wp_seq (unmapAt_ends d _ s) fun _ t _ => ih (enough.step inside (Nat.lt_succ_self v)) t
    · rw [plainLoop_outside (by omega)]
      exact wp_pure trivial

theorem plainDealloc_ends (limit : oldsz ≤ KERNBASE) (d newsz : Nat) (s : MemState) :
    (plainDealloc d oldsz newsz).faultOf s ≠ some .hang := by
  intro hangs
  refine not_wp_of_fault (M := Mode.faults (· ≠ Fault.hang)) (Q := fun _ _ => True) (fun _ _ => trivial) hangs
    (fun other => other rfl) ?_
  unfold plainDealloc PGROUNDUP
  refine wp_ite (fun _ => wp_pure trivial) (fun _ => ?_)
  exact wp_seq (plainLoop_ends limit (enough_pages _ _) s) fun _ _ _ => wp_pure trivial

/- The entries in the range that map a page are cleared, and nothing else changes in the
directory and its tables. -/
structure Clears (m n : Nat → Bytes) (d : Nat) (range : Nat → Prop) : Prop where
  dir : n d = m d
  gone : ∀ v < 2 ^ 20, range v → present (pte m d v) → pte n d v = 0
  kept : ∀ v < 2 ^ 20, ¬ (range v ∧ present (pte m d v)) → pte n d v = pte m d v

/- The pages that are mapped from page v on, for n pages. -/
def frames (m : Nat → Bytes) (d v n : Nat) : List Nat :=
  ((List.range' v n).filter fun u => present (pte m d u)).map fun u => ptePage (pte m d u)

theorem frames_congr {m m' : Nat → Bytes} (same : ∀ u, v ≤ u → u < v + n → pte m' d u = pte m d u) :
    frames m' d v n = frames m d v n := by
  unfold frames
  have each : ∀ u ∈ List.range' v n, pte m' d u = pte m d u := fun u inside =>
    same u (List.mem_range'_1.mp inside).1 (List.mem_range'_1.mp inside).2
  rw [List.filter_congr fun u inside => by rw [each u inside]]
  exact List.map_congr_left fun u inside => by rw [each u (List.mem_of_mem_filter inside)]

theorem frames_succ (m : Nat → Bytes) (d v n : Nat) : frames m d v (n + 1) =
    (if present (pte m d v) then [ptePage (pte m d v)] else []) ++ frames m d (v + 1) n := by
  unfold frames
  rw [List.range'_succ, List.filter_cons]
  split <;> simp

/- What a run frees and clears of the pages from v on. -/
structure Frees (s t : MemState) (l : List Nat) (d v n : Nat) (es : List Freed) : Prop where
  freed : es.map Freed.page = frames s.mem d v n
  saves : Saves s t l ((frames s.mem d v n).reverse ++ l) (space s.mem d) (space t.mem d)
  clears : Clears s.mem t.mem d (fun u => v ≤ u ∧ u < v + n)

theorem kfree_frees {p : Nat} (range : InRange s.toKmem p) :
    ∃ t, Ends (kfree p) s [⟨s.toKmem, p⟩] () t := by
  obtain ⟨above, below⟩ := range
  have valid : ¬ (p < s.endPg ∨ PHYSTOP / PGSIZE ≤ p) := by omega
  simp only [kfree, ends_get_bind, if_neg valid]
  exact ⟨_, ends_emit_bind.mpr ⟨[], rfl, rfl⟩⟩

theorem unmapAt_blank (low : v < 2 ^ 19) (blank : ¬ present (pte s.mem d v)) :
    Ends (unmapAt d (v * PGSIZE)) s [] () s := by
  unfold unmapAt Ends
  by_cases here : present (word (s.mem d) (PDX (v * PGSIZE)))
  · rw [walk_found here]
    rw [PDX_page (by omega)] at here ⊢
    change (if present (word (s.mem _) _) then _ else _ : MemM Unit) s = _
    rw [PTX_page, pte_entry here, if_neg blank]
    rfl
  · rw [walk_missing here]
    rfl

theorem unmapAt_mapped (h : Holds True s l (space s.mem d)) (low : v < 2 ^ 19) (mapped : present (pte s.mem d v)) :
    ∃ e t, Ends (unmapAt d (v * PGSIZE)) s [e] () t ∧ e.page = ptePage (pte s.mem d v) ∧
      Saves s t l (ptePage (pte s.mem d v) :: l) (space s.mem d) (space t.mem d) ∧
      Shrinks s.mem t.mem d (· = v) := by
  have entry := table_of_present mapped
  have range : InRange s.toKmem (ptePage (pte s.mem d v)) :=
    h.ranged trivial _ (Multiset.mem_add.mpr (Or.inr (mem_users low mapped)))
  have body : unmapAt d (v * PGSIZE) s = (kfree (ptePage (pte s.mem d v)) >>= fun _ =>
      setEntry (ptePage (word (s.mem d) (v / 1024))) (v % 1024) 0) s := by
    unfold unmapAt
    rw [walk_found (by rwa [PDX_page (by omega)]), PDX_page (by omega), PTX_page]
    dsimp only
    rw [Prog.get_bind, pte_entry entry, if_pos mapped, if_neg (h.heap.nonzero range)]
  obtain ⟨u, freed⟩ := kfree_frees range
  obtain ⟨t, ends⟩ : ∃ t, Ends (unmapAt d (v * PGSIZE)) s [⟨s.toKmem, ptePage (pte s.mem d v)⟩] () t := by
    have both : Ends (kfree (ptePage (pte s.mem d v)) >>= fun _ =>
        setEntry (ptePage (word (s.mem d) (v / 1024))) (v % 1024) 0) s _ () _ :=
      ends_bind.mpr ⟨_, (), u, [], freed, rfl, rfl⟩
    exact ⟨_, body.trans both⟩
  have effect : wp sure (unmapAt d (v * PGSIZE)) (fun _ t =>
      Saves s t l (ptePage (pte s.mem d v) :: l) (space s.mem d) (space t.mem d) ∧
      Shrinks s.mem t.mem d (· = v)) s := by
    refine wp_congr (body.trans ?_) (wp_unmap (k := pure) sure_safe h low entry mapped
      fun t saves shrinks => wp_pure ⟨saves, shrinks⟩)
    simp only [bind_pure]
  have result := wp_value effect (fun _ => trivial) (congrArg Prod.snd ends)
  exact ⟨_, t, ends, rfl, result⟩

theorem Clears.none {m : Nat → Bytes} : Clears m m d (fun u => v ≤ u ∧ u < v + 0) :=
  ⟨rfl, fun u _ range => by omega, fun _ _ _ => rfl⟩

theorem plainLoop_frees (h : Holds True s l (space s.mem d)) (limit : sz ≤ KERNBASE) (enough : Enough m v sz)
    (below : ∀ u, u * PGSIZE < sz ↔ u < v + n) :
    ∃ es t, Ends (plainLoop d sz m (v * PGSIZE)) s es () t ∧ Frees s t l d v n es := by
  induction n generalizing m v s l with
  | zero =>
    cases m with
    | zero => exact absurd enough Enough.positive
    | succ m =>
      have beyond := (below v).not.mpr (by omega)
      rw [plainLoop_outside (by omega)]
      exact ⟨[], s, rfl, rfl, .refl h.heap _, .none⟩
  | succ n ih =>
    have inside := (below v).mpr (by omega)
    have low := page_low inside limit
    cases m with
    | zero => exact absurd enough Enough.positive
    | succ m =>
      have rest := enough.step inside (Nat.lt_succ_self v)
      have range (u : Nat) : u * PGSIZE < sz ↔ u < v + 1 + n := by
        rw [below u]
        omega
      rw [plainLoop_inside inside limit]
      by_cases mapped : present (pte s.mem d v)
      · obtain ⟨e, t, first, page, saves, shrinks⟩ := unmapAt_mapped h low mapped
        obtain ⟨es, u, ends, freed, further, clears⟩ := ih (h.after saves.toMoves) rest range
        have later : frames t.mem d (v + 1) n = frames s.mem d (v + 1) n := by
          refine frames_congr fun x above under => shrinks.kept x ?_ (by omega)
          exact (page_low ((range x).mpr under) limit).trans (by decide)
        refine ⟨e :: es, u, ends_bind.mpr ⟨[e], (), t, es, first, ends, rfl⟩, ?_, ?_, ?_⟩
        · rw [List.map_cons, page, freed, later, frames_succ, if_pos mapped]
          rfl
        · have both := saves.trans further
          rw [later] at both
          rw [frames_succ, if_pos mapped, List.reverse_append, List.append_assoc]
          exact both
        · refine ⟨clears.dir.trans shrinks.dir, fun x hx range held => ?_, fun x hx outside => ?_⟩
          · by_cases here : x = v
            · subst here
              have cleared : pte t.mem d x = 0 := (shrinks.ptes x hx).resolve_left fun same => by
                have unset := shrinks.set x hx rfl
                rw [same, held] at unset
                exact nomatch unset
              rw [clears.kept x hx (by omega), cleared]
            · rw [← shrinks.kept x hx here] at held
              exact clears.gone x hx (by omega) held
          · have other : x ≠ v := by
              rintro rfl
              exact outside ⟨by omega, mapped⟩
            rw [← shrinks.kept x hx other] at outside ⊢
            exact clears.kept x hx fun inner => outside ⟨by omega, inner.2⟩
      · obtain ⟨es, t, ends, freed, saves, clears⟩ := ih h rest range
        refine ⟨es, t, (unmapAt_blank low mapped).seq ends, ?_, ?_, ?_⟩
        · rw [freed, frames_succ, if_neg mapped]
          rfl
        · rw [frames_succ, if_neg mapped]
          exact saves
        · refine ⟨clears.dir, fun x hx range held => clears.gone x hx ?_ held, fun x hx outside =>
            clears.kept x hx fun inner => outside ⟨by omega, inner.2⟩⟩
          have other : x ≠ v := by
            rintro rfl
            exact mapped held
          omega

/- The pages that are mapped from lo up to hi. -/
def framesIn (m : Nat → Bytes) (d lo hi : Nat) : List Nat :=
  frames m d (PGROUNDUP lo / PGSIZE) (PGROUNDUP hi / PGSIZE - PGROUNDUP lo / PGSIZE)

/-- Jumping over the pages of missing tables makes no difference: deallocuvm is the plain loop,
in whatever state it is called, and it ends. In the pages of a process it frees those that are
mapped from newsz up to oldsz, each of them once, and clears their entries only. -/
theorem deallocuvm_skips (pgdir oldsz newsz : Nat) (limit : oldsz ≤ KERNBASE) :
    deallocuvm pgdir oldsz newsz = plainDealloc pgdir oldsz newsz ∧
    (∀ s, (deallocuvm pgdir oldsz newsz).faultOf s ≠ some .hang) ∧
    ∀ (s : MemState) (l : List Nat), Heap s.toKmem l → ((l : Multiset Nat) + space s.mem pgdir).Nodup →
      Ranged s.toKmem (space s.mem pgdir) →
      ∃ es t, Ends (deallocuvm pgdir oldsz newsz) s es (min oldsz newsz) t ∧
        es.map Freed.page = framesIn s.mem pgdir newsz oldsz ∧
        ((framesIn s.mem pgdir newsz oldsz).reverse ++ l).Nodup ∧
        Heap t.toKmem ((framesIn s.mem pgdir newsz oldsz).reverse ++ l) ∧
        Clears s.mem t.mem pgdir (fun v => newsz ≤ v * PGSIZE ∧ v * PGSIZE < oldsz) ∧
        ∀ q, q ∉ l → q ∉ space s.mem pgdir → t.mem q = s.mem q := by
  have same := deallocuvm_eq_plain limit pgdir newsz
  refine ⟨same, fun s => same ▸ plainDealloc_ends limit pgdir newsz s, fun s l heap once ranged => ?_⟩
  obtain ⟨lo, first⟩ : ∃ lo, lo = (newsz + PGSIZE - 1) / PGSIZE := ⟨_, rfl⟩
  obtain ⟨hi, last⟩ : ∃ hi, hi = (oldsz + PGSIZE - 1) / PGSIZE := ⟨_, rfl⟩
  have pages : framesIn s.mem pgdir newsz oldsz = frames s.mem pgdir lo (hi - lo) := by
    have whole (n : Nat) : n * PGSIZE / PGSIZE = n := Nat.mul_div_cancel _ (by decide)
    rw [framesIn, PGROUNDUP, PGROUNDUP, whole, whole, first, last]
  have above (v : Nat) : lo ≤ v ↔ newsz ≤ v * PGSIZE := first ▸ PGROUNDUP_le
  have below (v : Nat) : hi ≤ v ↔ oldsz ≤ v * PGSIZE := last ▸ PGROUNDUP_le
  suffices run : ∃ es t, Ends (plainDealloc pgdir oldsz newsz) s es (min oldsz newsz) t ∧
      Frees s t l pgdir lo (hi - lo) es by
    obtain ⟨es, t, ends, freed, saves, clears⟩ := run
    have held := saves.nodup once
    rw [pages, same]
    refine ⟨es, t, ends, freed, Multiset.coe_nodup.mp (Multiset.nodup_add.mp held).1, saves.heap,
      ⟨clears.dir, fun v hv range => clears.gone v hv ?_, fun v hv outside => clears.kept v hv fun inside => ?_⟩,
      fun q free other => saves.works.same q fun inside => ?_⟩
    · have := (above v).mpr range.1
      have := (below v).not.mpr (by omega)
      omega
    · have := (above v).mp inside.1.1
      have := (below v).not.mp (by omega)
      exact outside ⟨⟨by omega, by omega⟩, inside.2⟩
    · exact (Multiset.mem_add.mp inside).elim (fun member => free (Multiset.mem_coe.mp member)) other
  unfold plainDealloc
  by_cases more : oldsz ≤ newsz
  · have none : hi - lo = 0 := by
      have := (below lo).mpr (more.trans ((above lo).mp le_rfl))
      omega
    rw [if_pos more, Nat.min_eq_left more, none]
    exact ⟨[], s, rfl, rfl, .refl heap _, .none⟩
  · rw [if_neg more, Nat.min_eq_right (by omega), PGROUNDUP, ← first]
    have range (u : Nat) : u * PGSIZE < oldsz ↔ u < lo + (hi - lo) := by
      have := below u
      have := (above hi).mpr ((Nat.le_of_not_le more).trans ((below hi).mp le_rfl))
      omega
    obtain ⟨es, t, ends, frees⟩ := plainLoop_frees ⟨heap, once, fun _ => ranged⟩ limit (enough_pages lo oldsz) range
    exact ⟨es, t, ends_bind.mpr ⟨es, (), t, [], ends, rfl, (List.append_nil es).symm⟩, frees⟩

theorem parentMem_frames : framesIn parentMem.mem 0x202 5000 (1024 * PGSIZE) = List.range' 0x1002 1022 := by
  have each : ∀ v ∈ List.range' 2 1022, pte parentMem.mem 0x202 v = mkPte (0x1000 + v) userFlags := fun v inside =>
    pte_rows parentMem_dir parentMem_tables (by decide) (by have := (List.mem_range'_1.mp inside).2; omega)
  have first : PGROUNDUP 5000 / PGSIZE = 2 := by decide
  have last : PGROUNDUP (1024 * PGSIZE) / PGSIZE = 1024 := by decide
  rw [framesIn, first, last, frames]
  rw [List.filter_eq_self.mpr fun v inside => by rw [each v inside, present_mkPte]; decide]
  rw [List.map_congr_left fun v inside => by
    rw [each v inside, ptePage_mkPte _ (by have := (List.mem_range'_1.mp inside).2; omega)]]
  rw [List.map_add_range']

theorem deallocuvm_skips_megabytes : ∃ es t, Ends (deallocuvm 0x202 (1024 * PGSIZE) 5000) parentMem es 5000 t ∧
    es.map Freed.page = List.range' 0x1002 1022 := by
  have ranged : Ranged parentMem.toKmem (space parentMem.mem 0x202) := by
    rw [parentMem_space]
    exact rows_ranged ⟨by decide, by decide⟩ (by decide) (by decide) (by decide) (by decide)
  obtain ⟨es, t, ends, freed, -⟩ := (deallocuvm_skips 0x202 (1024 * PGSIZE) 5000 (by decide)).2.2 parentMem
    (List.range' 768 2100) parentMem_heap parentMem_once ranged
  exact ⟨es, t, ends, freed.trans parentMem_frames⟩

end Xv6c.Mem
