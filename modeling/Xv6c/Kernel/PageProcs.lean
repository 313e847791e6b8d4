import Xv6c.Kernel.PageCalls

/-! The calls that make, change and reap processes keep the pages apart. -/
namespace Xv6c
open Lib Mem

variable {M : Mode Event Fault} {A B : Type} {g : Books} (km : KernelMode M g.sized)
variable {k : Kernel} {l : List Nat} {X : Multiset Nat} {S : Finset ProcId}

/- The books with other pages for one slot. -/
def Resettled (g : Books) (q : ProcId) (k : Kernel) : Prop := ∃ P, Settled (g.settle q P) k

theorem resettled_of_settled {q : ProcId} (h : Settled g k) : Resettled g q k :=
  ⟨g.pages q, by simpa [Books.settle] using h⟩

theorem Owned.resettled {q : ProcId} {r : Proc} (here : k.procAt q = r)
    (h : Owned g k l (space k.kmem.mem r.pgdir + ({r.kstack} + 0)) (slots.erase q)) (live : Live r)
    (inside : q ∈ slots) (tidy : InOrder g.sized k.kmem.mem q r) : Resettled g q k := by
  subst here
  exact ⟨_, l, h.closeLive live inside tidy⟩

section Grow
include km

theorem wp_switchuvm {p : ProcId} {n : Unit → KM B} {Q : B → Kernel → Prop} (h : wp M (n ()) Q k) :
    wp M (switchuvm p >>= n) Q k := by
  refine wp_bind ?_
  unfold switchuvm
  refine wp_get_bind (wp_ite (fun _ => wp_fault (km.other (by decide))) (fun _ => ?_))
  exact wp_ite (fun _ => wp_fault (km.other (by decide))) (fun _ => wp_pure h)

omit km in
/- What a growproc that fails leaves alone. -/
structure Stays (p : ProcId) (k k' : Kernel) : Prop where
  proc : k'.procAt p = k.procAt p
  pages : SameMap k.kmem.mem k'.kmem.mem (k.procAt p).pgdir

/- The end of growproc, with the caller's slot open; k₀ is the kernel at its start. -/
theorem growproc_tail {k₀ : Kernel} {n : Int} {sz : Nat} (same : k.procAt g.caller = k₀.procAt g.caller)
    (h : Owned g k l (space k.kmem.mem (k.procAt g.caller).pgdir + ({(k.procAt g.caller).kstack} + 0))
      (slots.erase g.caller))
    (tidy : Tidy k.kmem.mem g.caller (k.procAt g.caller)) (new : sz < KERNBASE)
    (old : g.sized → Fits k₀.kmem.mem (k₀.procAt g.caller).pgdir (k₀.procAt g.caller).sz)
    (refused : g.sized → n ≠ 0 → sz = 0 →
      SameMap k₀.kmem.mem k.kmem.mem (k₀.procAt g.caller).pgdir)
    (done : g.sized → (n ≠ 0 → sz ≠ 0) → Fits k.kmem.mem (k₀.procAt g.caller).pgdir sz) :
    wp M (if n ≠ 0 ∧ sz = 0 then pure (-1) else modifyProc g.caller (fun q => { q with sz := sz }) >>=
      fun _ => switchuvm g.caller >>= fun _ => (pure 0 : KM Int))
      (fun r k' => Resettled g g.caller k' ∧ (g.sized → r = -1 → Stays g.caller k₀ k')) k := by
  obtain ⟨inside, live, _⟩ := h.caller
  obtain ⟨guarded, size, home⟩ := tidy
  refine wp_ite (fun fails => wp_pure ⟨h.resettled rfl live inside ⟨⟨guarded, size, home⟩, fun sized => ?_⟩,
    fun sized _ => ⟨same, refused sized fails.1 fails.2⟩⟩) (fun works => ?_)
  · rw [same]
    exact (refused sized fails.1 fails.2).fits (old sized)
  · refine wp_modifyOpen h (Finset.notMem_erase _ _) (fun _ => ⟨live, rfl⟩) fun owned => ?_
    refine wp_switchuvm km (wp_pure ⟨owned.resettled (r := { k.procAt g.caller with sz := sz }) ?_ live
      inside ⟨⟨guarded, new, home⟩, fun sized => ?_⟩, fun _ failed => absurd failed (by decide)⟩)
    · rw [procAt_setProc, if_pos rfl]
    · dsimp only
      rw [same]
      exact done sized fun changes zero => works ⟨changes, zero⟩

omit km in
/- sbrk takes all that the process has. -/
def Empties (q : Proc) (n : Int) : Prop := n < 0 ∧ 0 < q.sz ∧ addInt q.sz n = 0

instance (q : Proc) (n : Int) : Decidable (Empties q n) := inferInstanceAs (Decidable (_ ∧ _))

theorem growproc_spec (n : Int) (h : Settled g k) (lasts : g.sized → ¬ Empties (k.procAt g.caller) n) :
    wp M (growproc g.caller n)
      (fun r k' => Resettled g g.caller k' ∧ (g.sized → r = -1 → Stays g.caller k k')) k := by
  obtain ⟨l, h⟩ := h
  obtain ⟨inside, live, _⟩ := h.caller
  obtain ⟨⟨guarded, size, home⟩, fits⟩ := h.tidy _ inside live
  have opened := h.openLive inside live
  unfold growproc
  refine wp_get_bind ?_
  dsimp only
  split
  · refine wp_onMem (R := fun r m H => H = space m (k.procAt g.caller).pgdir ∧
      Guarded m (k.procAt g.caller).pgdir ∧ r < KERNBASE ∧ (g.sized →
        (r = 0 → SameMap k.kmem.mem m (k.procAt g.caller).pgdir) ∧
        (r ≠ 0 → Fits m (k.procAt g.caller).pgdir r))) opened ?_ ?_
    · refine wp_mono (allocuvm_spec km.safeMode opened.holds
        fun sized v low above => (fits sized).free v low above) ?_
      rintro r t ⟨l', saves, guard, -, -, result⟩
      refine ⟨l', _, saves.toMoves, rfl, guard guarded, ?_, fun sized => (fits sized).alloc result⟩
      rcases result with ⟨rfl, -⟩ | ⟨rfl, small, -⟩
      · decide
      · exact Nat.max_lt.mpr ⟨size, small⟩
    · rintro r k₁ l₁ H₁ proc - ⟨rfl, guarded₁, new, sizes⟩ owned
      have same : k₁.procAt g.caller = k.procAt g.caller := procAt_congr proc _
      rw [← same] at owned guarded₁ size home
      exact growproc_tail km same owned ⟨guarded₁, size, home⟩ new fits
        (fun sized _ => (sizes sized).1) fun sized nonzero => (sizes sized).2 (nonzero (by omega))
  · split
    · rename_i less
      refine wp_onMem (R := fun r m H => H = space m (k.procAt g.caller).pgdir ∧
        Guarded m (k.procAt g.caller).pgdir ∧ r < KERNBASE ∧ (g.sized →
          (r = 0 → SameMap k.kmem.mem m (k.procAt g.caller).pgdir) ∧
          Fits m (k.procAt g.caller).pgdir r)) opened ?_ ?_
      · refine wp_mono (deallocuvm_spec km.safeMode opened.holds size.le) ?_
        rintro r t ⟨l', saves, shrinks, rfl⟩
        refine ⟨l', _, saves.toMoves, rfl, shrinks.guarded guarded, (Nat.min_le_left _ _).trans_lt size,
          fun sized => ?_⟩
        obtain ⟨same, after⟩ := (fits sized).dealloc shrinks.toSets
        refine ⟨fun zero => same ?_, after⟩
        by_contra some
        refine lasts sized ⟨less, Nat.pos_of_ne_zero some, ?_⟩
        omega
      · rintro r k₁ l₁ H₁ proc - ⟨rfl, guarded₁, new, sizes⟩ owned
        have same : k₁.procAt g.caller = k.procAt g.caller := procAt_congr proc _
        rw [← same] at owned guarded₁ size home
        exact growproc_tail km same owned ⟨guarded₁, size, home⟩ new fits
          (fun sized _ => (sizes sized).1) fun sized _ => (sizes sized).2
    · refine wp_bind (wp_pure (growproc_tail km rfl opened ⟨guarded, size, home⟩ size fits
        (fun _ changes => absurd ?_ changes) fun sized _ => fits sized))
      omega

end Grow

theorem findProc_slot {c j : Nat} {pred : Proc → Bool} (h : Owned g k l X S) (index : c < NCONT)
    (found : findProc k c pred = some j) : ⟨c, j⟩ ∈ slots ∧ pred (k.procAt ⟨c, j⟩) := by
  have inside := List.mem_range.mp (List.mem_of_find?_eq_some found)
  have mproc := h.mproc c
  refine ⟨mem_slots.mpr ⟨index, ?_⟩, ?_⟩
  · dsimp only
    omega
  · exact List.find?_some (p := fun j => pred (k.proc c j)) found

/- The caller is a process of the container that is charged. -/
theorem Settled.home (h : Settled g k) : g.caller.cont = g.cont ∧ g.cont < NCONT := by
  obtain ⟨l, h⟩ := h
  obtain ⟨inside, live, cont⟩ := h.caller
  have home := (h.tidy _ inside live).home
  have same : g.caller.cont = g.cont := home.symm.trans cont
  exact ⟨same, same ▸ (mem_slots.mp inside).1⟩

section Wait
include km

theorem wait_spec (h : Settled g k) (runs : (k.procAt g.caller).state ≠ .zombie) :
    wp M (wait g.caller) (fun _ k' => Settled g k' ∨
      ∃ q, q.cont = g.cont ∧ Settled (g.settle q 0) k') k := by
  obtain ⟨-, index⟩ := h.home
  have settled := h
  obtain ⟨l, h⟩ := h
  unfold wait
  refine wp_get_bind ?_
  dsimp only
  rw [h.caller.2.2]
  split
  · rename_i j found
    obtain ⟨inside, zombie⟩ := findProc_slot h index found
    have zombie : (k.procAt ⟨g.cont, j⟩).parent = some g.caller ∧
        (k.procAt ⟨g.cont, j⟩).state = .zombie := by simpa using zombie
    have live : Live (k.procAt ⟨g.cont, j⟩) := by simp [Live, zombie.2]
    have apart : (⟨g.cont, j⟩ : ProcId) ≠ g.caller := fun same => runs (same ▸ zombie.2)
    have opened := h.openLive inside live
    rw [← add_assoc] at opened
    refine wp_onMem (R := fun _ m H => H = space m (k.procAt ⟨g.cont, j⟩).pgdir) opened ?_ ?_
    · refine wp_mono (kfree_beside km.safeMode opened.holds) ?_
      rintro _ t ⟨saves, -⟩
      exact ⟨_, _, saves.toMoves, rfl⟩
    · rintro _ k₁ l₁ _ proc₁ - rfl owned
      refine wp_modifyOpen owned (Finset.notMem_erase _ _) (fun same => absurd same apart) fun owned => ?_
      refine wp_onMem (R := fun _ _ H => H = 0) owned ?_ ?_
      · refine wp_mono (freevm_spec km.safeMode owned.holds) ?_
        rintro _ t ⟨l', saves⟩
        exact ⟨l', 0, saves.toMoves, rfl⟩
      · rintro _ k₂ l₂ _ proc₂ - rfl owned
        refine wp_modifyOpen owned (Finset.notMem_erase _ _) (fun same => absurd same apart)
          fun owned => wp_pure (Or.inr ⟨⟨g.cont, j⟩, rfl, l₂, ?_⟩)
        refine Owned.closeDead ?_ owned inside
        rw [procAt_setProc, if_pos rfl]
        simp [Live]
  · refine wp_ite (fun _ => wp_pure (Or.inl settled)) (fun _ => ?_)
    refine wp_mono ((keeps_bind (keeps_sleep _) fun _ => keeps_pure _).settled settled) ?_
    exact fun _ _ done => Or.inl done

end Wait

section Exit
include km

theorem keeps_closeFiles (n fd : Nat) : Keeps M g (closeFiles g.caller n fd) := by
  induction n generalizing fd with
  | zero => exact keeps_pure _
  | succ n ih =>
    unfold closeFiles
    refine keeps_get fun k => ?_
    split
    · exact keeps_bind (keeps_fileclose km _) fun _ => keeps_bind
        (keeps_modifyProc fun q => ⟨Iff.rfl, rfl, rfl, rfl, rfl⟩) fun _ => ih _
    · exact ih _

omit km in
theorem keeps_reparent (p : ProcId) (c n j : Nat) : Keeps M g (reparent p c n j) := by
  induction n generalizing j with
  | zero => exact keeps_pure _
  | succ n ih =>
    unfold reparent
    refine keeps_get fun k => ?_
    dsimp only
    split
    · refine keeps_bind (keeps_modifyProc fun q => ⟨Iff.rfl, rfl, rfl, rfl, rfl⟩) fun _ => ?_
      split
      · exact keeps_bind (keeps_wakeup _) fun _ => ih _
      · exact ih _
    · exact ih _

theorem keeps_exit : Keeps M g (exit g.caller) := by
  unfold exit
  refine keeps_get fun k => keeps_ite (keeps_fault km (by decide)) ?_
  refine keeps_bind (keeps_closeFiles km _ _) fun _ => keeps_bind (keeps_onFs km _) fun _ =>
    keeps_bind (keeps_onFs km _) fun _ => keeps_bind (keeps_onFs km _) fun _ => ?_
  refine keeps_bind (keeps_modifyProc fun q => ⟨Iff.rfl, rfl, rfl, rfl, rfl⟩) fun _ => keeps_get fun k => ?_
  have rest : Keeps M g (reparent g.caller (k.contOf g.caller) (k.cont (k.contOf g.caller)).mproc.toNat 0 >>=
      fun _ => modifyCont (k.contOf g.caller) (fun c => { c with uproc := c.uproc - 1 }) >>= fun _ =>
      modifyProc g.caller fun q => { q with state := .zombie }) := by
    refine keeps_bind (keeps_reparent _ _ _ _) fun _ => ?_
    intro k' l h
    refine wp_modifyCont h (h.mproc _) rfl (Or.inl rfl) fun k'' _ file owned => ?_
    refine wp_last (wp_modifyProc owned ⟨⟨fun _ => owned.caller.2.1, fun _ => ?_⟩, rfl, rfl, rfl, rfl⟩
      fun owned => wp_pure (owned.saved (congrArg pipePages file)))
    simp [Live]
  dsimp only
  split
  · exact keeps_bind (keeps_wakeup _) fun _ => rest
  · exact rest

omit km in
theorem keeps_kill (p : ProcId) (pid : Int) : Keeps M g (kill p pid) := by
  unfold kill
  refine keeps_get fun k => ?_
  dsimp only
  split
  · refine keeps_bind (keeps_modifyProc fun q => ⟨?_, rfl, rfl, rfl, rfl⟩) fun _ => keeps_pure _
    by_cases asleep : q.state = .sleeping
    · simp [Live, asleep]
    · simp [Live, asleep]
  · exact keeps_pure _

end Exit

section Fork
include km

/- A slot that fork fills: open, with its kernel stack in hand. -/
structure Embryo (g : Books) (k : Kernel) (l : List Nat) (np : ProcId) (c : Nat) (cur : Proc) : Prop where
  owned : Owned g k l {(k.procAt np).kstack} (slots.erase np)
  inside : np ∈ slots
  apart : np ≠ g.caller
  blank : g.pages np = 0
  cont : np.cont = c
  home : (k.procAt np).cont = c
  dead : ¬ Live (k.procAt np)
  parent : k.procAt g.caller = cur

omit km in
/- Giving up a slot that was unused before. -/
theorem settled_of_blank {np : ProcId} (blank : g.pages np = 0) (inside : np ∈ slots)
    (h : Owned g k l 0 (slots.erase np)) (dead : ¬ Live (k.procAt np)) : Settled g k := by
  have same : g.settle np 0 = g := by rw [Books.settle, ← blank, Function.update_eq_self]
  exact ⟨l, same ▸ Owned.closeDead dead h inside⟩

omit km in
theorem allocproc_spec {c : Nat} (h : Settled g k) (index : c < NCONT) :
    wp M (allocproc g.caller c) (fun r k' => (r = none ∧ Settled g k') ∨
      ∃ np l', r = some np ∧ Embryo g k' l' np c (k.procAt g.caller)) k := by
  have settled := h
  obtain ⟨l, h⟩ := h
  unfold allocproc
  refine wp_get_bind (wp_ite (fun _ => wp_pure (Or.inl ⟨rfl, settled⟩)) (fun _ => ?_))
  split
  · exact wp_pure (Or.inl ⟨rfl, settled⟩)
  · rename_i j found
    obtain ⟨inside, unused⟩ := findProc_slot h index found
    have dead : ¬ Live (k.procAt ⟨c, j⟩) := by
      have unused : (k.procAt ⟨c, j⟩).state = .unused := by simpa using unused
      simp [Live, unused]
    have apart : (⟨c, j⟩ : ProcId) ≠ g.caller := by
      intro same
      rw [same] at dead
      exact dead h.caller.2.1
    have blank : g.pages ⟨c, j⟩ = 0 := by
      rw [← h.pages _ inside]
      exact if_neg dead
    have opened := h.open inside
    rw [procPages, if_neg dead] at opened
    have outside := Finset.notMem_erase (⟨c, j⟩ : ProcId) slots
    have notCaller {P : Prop} (same : (⟨c, j⟩ : ProcId) = g.caller) : P := absurd same apart
    refine wp_modifyOpen opened outside notCaller fun owned => wp_modify_bind ?_
    have owned := owned.renumber k.nextcid (incr k.nextpid)
    refine wp_onMem (R := fun r _ H => (r = 0 ∧ H = 0) ∨ (r ≠ 0 ∧ H = {r})) owned ?_ ?_
    · refine wp_mono (kalloc_spec owned.heap) ?_
      rintro r t ⟨-, ⟨rfl, moves⟩ | ⟨nonzero, l', -, moves⟩⟩
      · exact ⟨l, 0, moves.toMoves, Or.inl ⟨rfl, rfl⟩⟩
      · exact ⟨l', {r}, moves.toMoves, Or.inr ⟨nonzero, rfl⟩⟩
    · rintro r k₁ l₁ H proc - result owned
      refine wp_modifyOpen owned outside notCaller fun owned => ?_
      rcases result with ⟨rfl, rfl⟩ | ⟨nonzero, rfl⟩
      · rw [if_pos rfl]
        refine wp_modifyOpen owned outside notCaller fun owned => wp_pure (Or.inl ⟨rfl, ?_⟩)
        refine settled_of_blank blank inside owned ?_
        simp [procAt_setProc, Live]
      · rw [if_neg nonzero]
        refine wp_modifyOpen owned outside notCaller fun owned => ?_
        refine wp_modifyCont owned (owned.mproc _) rfl (Or.inl rfl) fun k₂ proc₂ _ owned => ?_
        have here := procAt_congr proc₂ ⟨c, j⟩
        rw [procAt_setProc, if_pos rfl, procAt_setProc, if_pos rfl] at here
        have state : (k₁.procAt ⟨c, j⟩).state = .embryo := by
          rw [procAt_congr proc]
          simp [Kernel.setProc, Kernel.procAt]
        refine wp_pure (Or.inr ⟨_, l₁, rfl, ?_, inside, apart, blank, rfl, ?_, ?_, ?_⟩)
        · rw [here]
          exact owned.drop (by simp)
        · rw [here]
        · simp [here, Live, state]
        · rw [procAt_congr proc₂, procAt_setProc, if_neg (Ne.symm apart), procAt_setProc,
            if_neg (Ne.symm apart), procAt_congr proc]
          exact (procAt_setProc k ⟨c, j⟩ g.caller _).trans (if_neg (Ne.symm apart))

theorem dupFiles_spec {np : ProcId} {ofile : Nat → Option Nat} {n fd : Nat} (h : Owned g k l X S)
    (outside : np ∉ S) (apart : np ≠ g.caller) :
    wp M (dupFiles np ofile n fd) (fun _ k' => k'.kmem = k.kmem ∧
      SameImage (k.procAt np) (k'.procAt np) ∧ Owned g k' l X S) k := by
  induction n generalizing fd k with
  | zero => exact wp_pure ⟨rfl, .refl _, h⟩
  | succ n ih =>
    unfold dupFiles
    split
    · refine wp_filedup km h fun k₁ proc kmem _ owned => ?_
      refine wp_modifyOpen owned outside (fun same => absurd same apart) fun owned => ?_
      refine wp_mono (ih owned) ?_
      rintro _ k₂ ⟨kmem₂, same, owned⟩
      have before : k₁.procAt np = k.procAt np := procAt_congr proc _
      rw [procAt_setProc, if_pos rfl, before] at same
      exact ⟨kmem₂.trans kmem, { same with }, owned⟩
    · exact ih h

/- What fork does to the pages: nothing, or a slot that was unused gets pages of its own. -/
def Forked (g : Books) (c sz : Nat) (k : Kernel) : Prop :=
  Settled g k ∨ ∃ np P, np.cont = c ∧ np ≠ g.caller ∧ g.pages np = 0 ∧
    Multiset.card P ≤ 1 + childSpace sz ∧ Settled (g.settle np P) k

/- fork once the slot is found. -/
theorem forkChild_spec {c : Nat} {np : ProcId} {cur : Proc} (size : cur.sz < KERNBASE)
    (h : Embryo g k l np c cur) (cwd : Option Nat) (parent : ProcId) :
    wp M (forkChild g.caller np cur cwd parent) (fun _ k' => Forked g c cur.sz k') k := by
  unfold forkChild
  obtain ⟨owned, inside, apart, blank, cont, home, dead, rfl⟩ := h
  have outside := Finset.notMem_erase np slots
  have notCaller {P : Prop} (same : np = g.caller) : P := absurd same apart
  rw [← zero_add {_}] at owned
  have member : g.caller ∈ slots.erase np := Finset.mem_erase.mpr ⟨Ne.symm apart, owned.caller.1⟩
  refine wp_onMem (R := fun r m H => (r = 0 ∧ H = 0) ∨
    (r ≠ 0 ∧ H = space m r ∧ ChildTable m r (k.procAt g.caller).sz)) owned ?_ ?_
  · refine wp_mono (copyuvm_spec km.safeMode owned.heap ?_ size.le ?_ ?_) ?_
    · simpa using owned.hand
    · intro sized v low below
      exact ((owned.tidy _ member owned.caller.2.1).fits sized v low).mpr below
    · intro _ q table inside
      have once := owned.once
      rw [add_assoc, ← add_assoc] at once
      refine held_apart once inside
        (Multiset.mem_add.mpr (Or.inr (mem_held_proc member ?_)))
      rw [procPages, if_pos owned.caller.2.1]
      exact Multiset.mem_add.mpr (Or.inr (Multiset.mem_add.mpr (Or.inl table)))
    · rintro r t ⟨l', ⟨rfl, moves⟩ | ⟨nonzero, moves, table, -⟩⟩
      · exact ⟨l', 0, moves, Or.inl ⟨rfl, rfl⟩⟩
      · exact ⟨l', _, moves, Or.inr ⟨nonzero, rfl, table⟩⟩
  · rintro pgdir k₁ l₁ H proc - result owned
    have before : k₁.procAt np = k.procAt np := procAt_congr proc _
    refine wp_modifyOpen owned outside notCaller fun owned => ?_
    rcases result with ⟨rfl, rfl⟩ | ⟨nonzero, rfl, table⟩
    · rw [if_pos rfl]
      refine wp_get_bind ?_
      rw [before] at owned ⊢
      rw [procAt_setProc, if_pos rfl]
      rw [zero_add, ← add_zero ({_} : Multiset Nat)] at owned
      have fresh : (k.procAt np).kstack ∉ l₁ := fun h =>
        held_apart owned.hand (Multiset.mem_coe.mpr h)
          (by simp)
      refine wp_onMem (R := fun _ _ H => H = 0) owned ?_ ?_
      · refine wp_mono (kfree_spec km.safeMode owned.heap fresh False.elim) ?_
        rintro _ t ⟨saves, -, -⟩
        exact ⟨_, 0, saves.toMoves, rfl⟩
      · rintro _ k₂ l₂ _ _ - rfl owned
        refine wp_modifyOpen owned outside notCaller fun owned => wp_pure (Or.inl ?_)
        refine settled_of_blank blank inside (owned.drop (by simp)) ?_
        simp [procAt_setProc, Live]
    · rw [if_neg nonzero]
      refine wp_modifyOpen owned outside notCaller fun owned => ?_
      refine wp_seq (dupFiles_spec km owned outside apart) ?_
      rintro _ k₂ ⟨kmem₂, image, owned⟩
      refine wp_onFs km owned fun cwd k₃ proc₃ _ kmem₃ _ owned => ?_
      refine wp_modifyOpen owned outside notCaller fun owned => wp_get_bind ?_
      refine wp_modifyOpen owned outside notCaller fun owned => wp_pure (Or.inr ?_)
      have after : k₃.procAt np = k₂.procAt np := procAt_congr proc₃ _
      have mem : k₃.kmem.mem = k₁.kmem.mem := by rw [kmem₃, kmem₂]; rfl
      rw [procAt_setProc, if_pos rfl, procAt_setProc, if_pos rfl, before, ← after] at image
      generalize final : (k₃.setProc np _).setProc np _ = k₄ at owned ⊢
      have here : SameImage { k₃.procAt np with state := .runnable } (k₄.procAt np) := by
        rw [← final, procAt_setProc, if_pos rfl, procAt_setProc, if_pos rfl]
        exact ⟨Iff.rfl, rfl, rfl, rfl, rfl⟩
      have mem₄ : k₄.kmem.mem = k₁.kmem.mem := by rw [← final]; exact mem
      have live : Live (k₄.procAt np) := here.live.mpr (by simp [Live])
      have stack : (k₄.procAt np).kstack = (k.procAt np).kstack := here.kstack.trans image.kstack
      have dir : (k₄.procAt np).pgdir = pgdir := here.pgdir.trans image.pgdir
      refine ⟨np, _, cont, apart, blank, ?_, l₁, Owned.closeLive live ?_ inside
        ⟨⟨?_, ?_, ?_⟩, fun _ => ?_⟩⟩
      · rw [Multiset.card_add, Multiset.card_singleton, dir, mem₄]
        have := table.card
        omega
      · rw [stack, dir, mem₄, add_zero]
        exact owned
      · rw [dir, mem₄]
        exact table.guarded
      · rw [here.sz.trans image.sz]
        exact size
      · rw [here.cont.trans image.cont, cont]
        exact home
      · rw [dir, mem₄, here.sz.trans image.sz]
        exact table.pages

theorem fork_spec (target : Option Nat) (h : Settled g k) (index : target.getD g.cont < NCONT) :
    wp M (fork g.caller target) (fun _ k' =>
      Forked g (target.getD g.cont) (k.procAt g.caller).sz k') k := by
  have size : (k.procAt g.caller).sz < KERNBASE := by
    obtain ⟨l, h⟩ := h
    exact (h.tidy _ h.caller.1 h.caller.2.1).size
  have cont : k.contOf g.caller = g.cont := h.choose_spec.caller.2.2
  rw [← cont] at index ⊢
  refine wp_fork (allocproc_spec h index) ?_
  rintro cwd r k' (⟨rfl, settled⟩ | ⟨np, l', rfl, embryo⟩)
  · exact wp_pure (Or.inl settled)
  · exact forkChild_spec km size embryo _ _

theorem cfork_spec (cid : Int) (h : Settled g k) :
    wp M (cfork g.caller cid) (fun _ k' => Settled g k' ∨
      ∃ c, cid2cont k cid = some c ∧ Forked g c (k.procAt g.caller).sz k') k := by
  unfold cfork
  refine wp_get_bind ?_
  split
  · exact wp_pure (Or.inl h)
  · rename_i c found
    have below : c < NCONT := (findCont_some found).1
    refine wp_mono (fork_spec km (some c) h below) ?_
    exact fun _ _ forked => Or.inr ⟨c, found, forked⟩

end Fork

end Xv6c
